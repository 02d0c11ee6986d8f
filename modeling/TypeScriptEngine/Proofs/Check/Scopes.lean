import Mathlib.Data.Finset.Card
import Mathlib.Data.List.Forall2
import Mathlib.Data.List.Nodup
import TypeScriptEngine.Check.Scopes
import TypeScriptEngine.Proofs.Token.StatementEnd
import TypeScriptEngine.Proofs.Token.Tiling

/-! # Names that are declared twice

The names of a scope are the declarators of its words `let` and `const` (`Scope.Collects`), and a
declarator is a name at the level of its word, before the end of the statement (`Declares`).  So what
is reported has a second declarator in its scope (`redeclarations_sound`), unless a declarator
belongs to two words.  Then the second word stands in the statement of the first one
(`Declares.lt_pastStatement`).  In a text with balanced brackets that is so only if no end of that
statement is found before the second word, and if every statement is ended (`Ended`), then all that
is reported are redeclarations, each of them once.
-/

namespace TypeScriptEngine

open TokenStream

/-! ## Declarators -/

namespace TokenStream

variable {ts rest : TokenStream} {i j k n w w' : Nat}

/-- Token `k` stands at the level of token `i`: from `i` on one comes to it over single tokens and
over whole pairs of brackets and of angle brackets. -/
inductive Level (ts : TokenStream) (i : Nat) : Nat → Prop where
  | start : Level ts i i
  | token {k : Nat} (h : Level ts i k) (hopen : (ts.kind k).isOpener = false)
      (hangle : ts.kind k = .lt → ts.matchingAngle? k = none) : Level ts i (k + 1)
  | brackets {k c : Nat} (h : Level ts i k) (hc : ts.matching? k = some c) : Level ts i (c + 1)
  | angles {k c : Nat} (h : Level ts i k) (hc : ts.matchingAngle? k = some c) : Level ts i (c + 1)

/-- Token `w` begins a list of declarators: it is the word `let` or `const`, and a name follows. -/
def BeginsDeclarators (ts : TokenStream) (w : Nat) : Prop :=
  (ts.kind w = .kwLet ∨ ts.kind w = .kwConst) ∧ (ts.kind (w + 1)).isName = true

instance : Decidable (BeginsDeclarators ts w) := inferInstanceAs (Decidable (_ ∧ _))

theorem BeginsDeclarators.lt_length (h : ts.BeginsDeclarators w) : w < ts.length :=
  lt_length_of_kind fun heof => absurd (heof ▸ h.1) (by decide)

/-- Token `k` is a declarator of the word at `w`: a name at the head of its list or behind a comma, at
the level of the list, before the end of the statement. -/
structure Declares (ts : TokenStream) (w k : Nat) : Prop where
  word : ts.BeginsDeclarators w
  level : Level ts (w + 1) k
  before : k < ts.pastStatement w
  name : (ts.kind k).isName = true
  place : k = w + 1 ∨ ts.kind (k - 1) = .comma

/-- The name that token `k` binds, and where it stands. -/
def binding (ts : TokenStream) (k : Nat) : Binding := ⟨ts.value k, ⟨ts.startOf k, ts.stopOf k⟩⟩

theorem Level.le (h : Level ts i k) : i ≤ k := by
  induction h with
  | start => exact Nat.le_refl i
  | token _ _ _ ih => exact Nat.le_succ_of_le ih
  | brackets _ hc ih => exact ih.trans (Nat.le_succ_of_le (Nat.le_of_lt (lt_of_matching? hc)))
  | angles _ hc ih => exact ih.trans (Nat.le_succ_of_le (Nat.le_of_lt (lt_of_matchingAngle? hc)))

/-- A token that opens no bracket and no angle bracket is a single one. -/
theorem Level.next {t : Token} (h : Level ts i k) (hrest : ts.drop k = t :: rest)
    (hopen : ¬t.kind.isOpener = true) (hlt : t.kind ≠ .lt) : Level ts i (k + 1) := by
  have hkind := (of_drop_eq_cons hrest).2.1
  exact .token h (hkind ▸ Bool.eq_false_iff.mpr hopen) fun h => absurd (hkind.symm.trans h) hlt

theorem binding_of_drop_eq_cons {t : Token} (h : ts.drop i = t :: rest) :
    Binding.ofToken t = ts.binding i := by
  have hget : ts[i]? = some t := by
    rw [← List.head?_drop, h]
    rfl
  rw [Binding.ofToken, binding, value, startOf, stopOf, hget]
  rfl

/-- The names are those of tokens from `i` up to `stop`, from left to right: names at the level of
token `s`, at the head of the list that begins there or behind a comma. -/
def NamesIn (ts : TokenStream) (s i stop : Nat) (names : List Binding) : Prop :=
  ∃ ks : List Nat, ks.Pairwise (· < ·) ∧
    (∀ k ∈ ks, i ≤ k ∧ k < stop ∧ Level ts s k ∧ (ts.kind k).isName = true ∧
      (k = s ∨ ts.kind (k - 1) = .comma)) ∧ names = ks.map ts.binding

variable {s stop stop' : Nat} {names : List Binding}

theorem NamesIn.nil : ts.NamesIn s i stop [] := ⟨[], .nil, nofun, rfl⟩

theorem NamesIn.mono (h : ts.NamesIn s j stop' names)
    (hrange : ∀ k, j ≤ k → k < stop' → i ≤ k ∧ k < stop) : ts.NamesIn s i stop names := by
  obtain ⟨ks, hsorted, hks, rfl⟩ := h
  refine ⟨ks, hsorted, fun k hk => ?_, rfl⟩
  obtain ⟨hj, hstop, hk⟩ := hks k hk
  exact ⟨(hrange k hj hstop).1, (hrange k hj hstop).2, hk⟩

theorem NamesIn.cons (h : ts.NamesIn s (i + 1) stop names) (hi : i < stop)
    (hlevel : Level ts s i) (hname : (ts.kind i).isName = true)
    (hplace : i = s ∨ ts.kind (i - 1) = .comma) :
    ts.NamesIn s i stop (ts.binding i :: names) := by
  obtain ⟨ks, hsorted, hks, rfl⟩ := h
  refine ⟨i :: ks, List.pairwise_cons.mpr ⟨fun k hk => (hks k hk).1, hsorted⟩, ?_, rfl⟩
  intro k hk
  rcases List.mem_cons.mp hk with rfl | hk
  · exact ⟨Nat.le_refl _, hi, hlevel, hname, hplace⟩
  · obtain ⟨hik, hk⟩ := hks k hk
    exact ⟨Nat.le_of_succ_le hik, hk⟩

/-- **The names of a list of declarators** stand at the level where the list begins. -/
theorem namesIn_ofDeclarators {expectName : Bool} (hrest : ts.drop i = rest)
    (hlevel : Level ts s i) (hexpect : expectName = true → i = s ∨ ts.kind (i - 1) = .comma) :
    ts.NamesIn s i (i + n) (Binding.ofDeclarators expectName n rest) := by
  -- behind a pair of brackets and behind a name no name is expected
  have hno : ∀ k, false = true → k = s ∨ ts.kind (k - 1) = .comma :=
    fun _ h => absurd h Bool.false_ne_true
  fun_induction Binding.ofDeclarators expectName n rest generalizing i with
  | case1 => exact .nil
  | case2 => exact .nil
  | case3 expectName n t rest hopen c hc ih =>
    have hmatch : ts.matching? i = some (i + c) := by rw [matching?, hrest, hc]; rfl
    have hbehind : ts.drop (i + c + 1) = rest.drop c := by
      rw [← (of_drop_eq_cons hrest).2.2, List.drop_drop, Nat.add_right_comm]
    refine (ih hbehind (.brackets hlevel hmatch) (hno _)).mono fun k hk hstop => ?_
    omega
  | case4 => exact .nil
  | case5 expectName n t rest hopen hlt c =>
    rename_i ih
    obtain ⟨-, hkind, hnext⟩ := of_drop_eq_cons hrest
    have hspan : c = (angleSpan? (t :: rest)).getD 0 := rfl
    clear_value c
    have hbehind : ts.drop (i + c + 1) = rest.drop c := by
      rw [← hnext, List.drop_drop, Nat.add_right_comm]
    have hlevel : Level ts s (i + c + 1) := by
      cases hangle : angleSpan? (t :: rest) with
      | none =>
        obtain rfl : c = 0 := by rw [hspan, hangle, Option.getD_none]
        refine .token hlevel (by rw [hkind, hlt]; rfl) fun _ => ?_
        rw [matchingAngle?, hrest, hangle]
        rfl
      | some d =>
        obtain rfl : c = d := by rw [hspan, hangle, Option.getD_some]
        refine .angles hlevel ?_
        rw [matchingAngle?, hrest, hangle]
        rfl
    refine (ih hbehind hlevel (hno _)).mono fun k hk hstop => ?_
    omega
  | case6 expectName n t rest hopen hlt hcomma ih =>
    obtain ⟨-, hkind, hnext⟩ := of_drop_eq_cons hrest
    exact (ih hnext (hlevel.next hrest hopen hlt) fun _ => .inr (hkind.trans hcomma)).mono
      fun k hk hstop => by omega
  | case7 expectName n t rest hopen hlt hcomma hname ih =>
    obtain ⟨-, hkind, hnext⟩ := of_drop_eq_cons hrest
    obtain ⟨hexpects, hname⟩ := Bool.and_eq_true_iff.mp hname
    rw [binding_of_drop_eq_cons hrest]
    refine NamesIn.cons ((ih hnext (hlevel.next hrest hopen hlt) (hno _)).mono fun k hk hstop => ?_)
      (by omega) hlevel (hkind ▸ hname) (hexpect hexpects)
    omega
  | case8 expectName n t rest hopen hlt hcomma hname ih =>
    exact (ih (of_drop_eq_cons hrest).2.2 (hlevel.next hrest hopen hlt) (hno _)).mono
      fun k hk hstop => by omega

/-- The names of a statement are those that its word declares. -/
theorem namesIn_ofStatement (ts : TokenStream) (w : Nat) :
    ts.NamesIn (w + 1) (w + 1) (ts.pastStatement w) (Binding.ofStatement (ts.drop w)) := by
  have hrest : ts.drop (w + 1) = (ts.drop w).drop 1 := List.drop_drop.symm
  refine (namesIn_ofDeclarators hrest .start fun _ => .inl rfl).mono fun k hk hstop => ⟨hk, ?_⟩
  rw [pastStatement]
  omega

/-- The second word of a declarator stands in the statement of the first one, which does not end
before it. -/
theorem Declares.lt_pastStatement (h : ts.Declares w k) (h' : ts.Declares w' k) :
    w' < ts.pastStatement w ∧ ∀ j ≤ w', ¬ts.EndsAt w j := by
  have hk := h.before
  have hk' := h'.level.le
  refine ⟨by omega, fun j hj hends => ?_⟩
  have hpast := hends.pastStatement_le
  omega

/-! ## Balanced brackets -/

theorem bracketed_between_succ (h : Bracketed (ts.between i k)) (hik : i ≤ k)
    (hopen : (ts.kind k).isOpener = false) (hclose : (ts.kind k).isCloser = false) :
    Bracketed (ts.between i (k + 1)) := by
  rw [← between_append ts hik (Nat.le_succ k)]
  by_cases hk : k < ts.length
  · rw [kind_eq hk] at hopen hclose
    rw [between_succ hk]
    exact h.append (.plain hopen hclose .nil)
  · rw [between.eq_def ts k, List.drop_eq_nil_of_le (Nat.not_lt.mp hk), List.take_nil]
    exact h.append .nil

/-- **At the level of a word, up to the end of its statement, brackets are balanced.** -/
theorem Level.bracketed (hts : Bracketed ts) (hw : (ts.kind w).isOpener = false)
    (hw' : (ts.kind w).isCloser = false) (h : Level ts (w + 1) k) (hk : k ≤ ts.pastStatement w) :
    Bracketed (ts.between w k) := by
  induction h with
  | start =>
    refine bracketed_between_succ ?_ (Nat.le_refl w) hw hw'
    rw [between_self]
    exact .nil
  | @token k h hopen _ ih =>
    have hwk := h.le
    have ih := ih (Nat.le_of_succ_le hk)
    refine bracketed_between_succ ih (by omega) hopen (Bool.eq_false_iff.mpr fun hclose => ?_)
    -- the statement ends before a bracket that it did not open
    have hpast := pastStatement_le_of_isCloser (by omega) ih hclose
    omega
  | @brackets k c h hc ih =>
    have hwk := h.le
    have hkc := lt_of_matching? hc
    rw [← between_append ts (by omega : w ≤ k) (by omega : k ≤ c + 1)]
    exact (ih (by omega)).append (bracketed_between_of_matching? hts hc)
  | @angles k c h hc ih =>
    have hwk := h.le
    have hkc := lt_of_matchingAngle? hc
    rw [← between_append ts (by omega : w ≤ k) (by omega : k ≤ c + 1)]
    exact (ih (by omega)).append (bracketed_between_of_matchingAngle? hts hc)

theorem Declares.bracketed (hts : Bracketed ts) (h : ts.Declares w k) :
    Bracketed (ts.between w k) := by
  refine h.level.bracketed hts ?_ ?_ (Nat.le_of_lt h.before)
  · rcases h.word.1 with hkind | hkind <;> rw [hkind] <;> rfl
  · rcases h.word.1 with hkind | hkind <;> rw [hkind] <;> rfl

/-- If the words at `w` and `w'` begin declarators at one level, with balanced brackets in between,
then the statement of the first one ends before the second. -/
def EndsBefore (ts : TokenStream) (w w' : Nat) : Prop :=
  ts.BeginsDeclarators w → ts.BeginsDeclarators w' → w < w' → Bracketed (ts.between w w') →
    ∃ j ≤ w', ts.EndsAt w j

instance : Decidable (EndsBefore ts w w') := inferInstanceAs (Decidable (_ → _ → _ → _ → _))

/-- The brackets are balanced, and every declaration ends before the next one at its level. -/
structure Ended (ts : TokenStream) : Prop where
  bracketed : Bracketed ts
  ends : ∀ w w', ts.EndsBefore w w'

instance : Decidable (Ended ts) :=
  decidable_of_iff (Bracketed ts ∧ ∀ w < ts.length, ∀ w' < ts.length, ts.EndsBefore w w')
    ⟨fun ⟨hbracketed, hends⟩ => ⟨hbracketed, fun w w' h h' =>
        hends w h.lt_length w' h'.lt_length h h'⟩,
      fun h => ⟨h.bracketed, fun w _ w' _ => h.ends w w'⟩⟩

/-- **If every declaration is ended, no declarator belongs to two words.** -/
theorem Ended.eq (hts : ts.Ended) (h : ts.Declares w k) (h' : ts.Declares w' k) : w = w' := by
  suffices hlt : ∀ {w w'}, ts.Declares w k → ts.Declares w' k → ¬w < w' from
    Nat.le_antisymm (Nat.not_lt.mp (hlt h' h)) (Nat.not_lt.mp (hlt h h'))
  intro w w' h h' hlt
  have hk := h'.level.le
  have hbetween := h.bracketed hts.bracketed
  rw [← between_append ts (Nat.le_of_lt hlt) (by omega : w' ≤ k)] at hbetween
  obtain ⟨j, hj, hends⟩ := hts.ends w w' h.word h'.word hlt
    (hbetween.of_append (h'.bracketed hts.bracketed))
  exact (h.lt_pastStatement h').2 j hj hends

/-! ## Braces -/

/-- The braces that are open before token `i`, innermost first. -/
def openBraces (ts : TokenStream) : Nat → List Nat
  | 0 => []
  | i + 1 =>
    match ts.kind i with
    | .lbrace => i :: openBraces ts i
    | .rbrace => (openBraces ts i).tail
    | _ => openBraces ts i

/-- The scope of token `i`: the innermost brace that is open before it, or none at the top level. -/
def scopeOf (ts : TokenStream) (i : Nat) : Option Nat := (ts.openBraces i).head?

theorem openBraces_lbrace (h : ts.kind i = .lbrace) :
    ts.openBraces (i + 1) = i :: ts.openBraces i := by
  rw [openBraces, h]

theorem openBraces_rbrace (h : ts.kind i = .rbrace) :
    ts.openBraces (i + 1) = (ts.openBraces i).tail := by
  rw [openBraces, h]

theorem openBraces_other (h : ts.kind i ≠ .lbrace) (h' : ts.kind i ≠ .rbrace) :
    ts.openBraces (i + 1) = ts.openBraces i := by
  rw [openBraces]
  split
  · exact absurd ‹_› h
  · exact absurd ‹_› h'
  · rfl

/-- Open braces stand behind each other. -/
theorem pairwise_openBraces (ts : TokenStream) (i : Nat) :
    (ts.openBraces i).Pairwise (· > ·) ∧ ∀ b ∈ ts.openBraces i, b < i := by
  induction i with
  | zero => exact ⟨.nil, nofun⟩
  | succ i ih =>
    obtain ⟨hsorted, hlt⟩ := ih
    rw [openBraces]
    split
    · refine ⟨List.pairwise_cons.mpr ⟨hlt, hsorted⟩, fun b hb => ?_⟩
      rcases List.mem_cons.mp hb with rfl | hb
      · exact Nat.lt_succ_self _
      · exact Nat.lt_succ_of_lt (hlt b hb)
    · exact ⟨hsorted.tail, fun b hb => Nat.lt_succ_of_lt (hlt b (List.mem_of_mem_tail hb))⟩
    · exact ⟨hsorted, fun b hb => Nat.lt_succ_of_lt (hlt b hb)⟩

/-- Balanced tokens leave the open braces as they are. -/
theorem openBraces_bracketed {inner : TokenStream} (h : Bracketed inner) {i : Nat}
    {rest : TokenStream} (hdrop : ts.drop i = inner ++ rest) :
    ts.openBraces (i + inner.length) = ts.openBraces i ∧ ts.drop (i + inner.length) = rest := by
  induction h generalizing i rest with
  | nil => exact ⟨rfl, hdrop⟩
  | @plain t inner hopen hclose _ ih =>
    obtain ⟨-, hkind, hnext⟩ := of_drop_eq_cons hdrop
    rw [List.length_cons, Nat.add_comm inner.length, ← Nat.add_assoc]
    obtain ⟨hbraces, hrest⟩ := ih hnext
    refine ⟨hbraces.trans (openBraces_other ?_ ?_), hrest⟩
    · exact fun h => TokenKind.ne_of_true_of_false rfl hopen (h.symm.trans hkind)
    · exact fun h => TokenKind.ne_of_true_of_false rfl hclose (h.symm.trans hkind)
  | @group o c inner ts' hpair _ _ ihinner ih =>
    rw [List.cons_append, List.append_assoc, List.cons_append] at hdrop
    obtain ⟨-, ho, hnext⟩ := of_drop_eq_cons hdrop
    obtain ⟨hinner, hclose⟩ := ihinner hnext
    obtain ⟨-, hc, hbehind⟩ := of_drop_eq_cons hclose
    obtain ⟨hbraces, hrest⟩ := ih hbehind
    have hlength : i + (o :: (inner ++ c :: ts')).length = i + 1 + inner.length + 1 + ts'.length := by
      rw [length_group]
      omega
    rw [hlength]
    refine ⟨hbraces.trans ?_, hrest⟩
    -- the closing bracket is a brace just if the opening one is
    by_cases hbrace : o.kind = .lbrace
    · have hpair : c.kind = .rbrace := by
        rw [hbrace] at hpair
        exact (Option.some.inj hpair).symm
      rw [openBraces_rbrace (hc.trans hpair), hinner, openBraces_lbrace (ho.trans hbrace),
        List.tail_cons]
    · have hother : c.kind ≠ .rbrace := fun h =>
        hbrace (TokenKind.closer?_inj (h ▸ hpair) rfl)
      have hopen := TokenKind.isOpener_of_closer? hpair
      have hcloses := TokenKind.isCloser_of_closer? hpair
      rw [openBraces_other (fun h => ?_) fun h => hother (hc.symm.trans h), hinner,
        openBraces_other (fun h => hbrace (ho.symm.trans h)) fun h => ?_]
      · exact TokenKind.ne_of_true_of_false hopen rfl (ho.symm.trans h)
      · exact TokenKind.ne_of_true_of_false hcloses rfl (hc.symm.trans h)

theorem openBraces_of_bracketed (hij : i ≤ j) (h : Bracketed (ts.between i j))
    (hj : j ≤ ts.length) : ts.openBraces j = ts.openBraces i := by
  have hbraces := (openBraces_bracketed h (between_append_drop ts hij).symm).1
  have hlength : (ts.between i j).length = j - i := by
    rw [between, List.length_take, List.length_drop]
    omega
  rwa [hlength, Nat.add_sub_cancel' hij] at hbraces

/-- In a text with balanced brackets a declarator belongs to the scope of its word. -/
theorem Declares.scopeOf_eq (hts : Bracketed ts) (h : ts.Declares w k) :
    ts.scopeOf k = ts.scopeOf w := by
  have hk : k < ts.length := lt_length_of_kind fun heof => absurd (heof ▸ h.name) nofun
  have hwk := h.level.le
  rw [scopeOf, scopeOf,
    openBraces_of_bracketed (by omega) (h.bracketed hts) (Nat.le_of_lt hk)]

end TokenStream

/-! ## Scopes -/

namespace Check

variable {ts rest : TokenStream} {i j k w w' : Nat} {brace : Option Nat} {s : Scope}
  {isAmbient : String → Bool}

/-- The names of a scope are the declarators of words before token `i`, all of which belong to the
brace that begins the scope. -/
def Scope.Collects (ts : TokenStream) (i : Nat) (brace : Option Nat) (s : Scope) : Prop :=
  s.topLevel = brace.isNone ∧ ∃ words : List Nat, words.Pairwise (· < ·) ∧
    (∀ w ∈ words, w < i ∧ ts.BeginsDeclarators w ∧ ts.scopeOf w = brace) ∧
    s.names = words.flatMap fun w => Binding.ofStatement (ts.drop w)

theorem Scope.Collects.mono (h : s.Collects ts i brace) (hij : i ≤ j) : s.Collects ts j brace := by
  obtain ⟨htop, words, hsorted, hwords, hnames⟩ := h
  exact ⟨htop, words, hsorted, fun w hw => (hwords w hw).imp_left hij.trans_lt', hnames⟩

/-- A further word of a scope. -/
theorem Scope.Collects.append (h : s.Collects ts i brace) (hword : ts.BeginsDeclarators i)
    (hscope : ts.scopeOf i = brace) :
    Scope.Collects ts (i + 1) brace
      { s with names := s.names ++ Binding.ofStatement (ts.drop i) } := by
  obtain ⟨htop, words, hsorted, hwords, hnames⟩ := h
  refine ⟨htop, words ++ [i], ?_, fun w hw => ?_, ?_⟩
  · exact List.pairwise_append.mpr ⟨hsorted, List.pairwise_singleton .., fun w hw v hv =>
      List.mem_singleton.mp hv ▸ (hwords w hw).1⟩
  · rcases List.mem_append.mp hw with hw | hw
    · exact (hwords w hw).imp_left Nat.lt_succ_of_lt
    · obtain rfl := List.mem_singleton.mp hw
      exact ⟨Nat.lt_succ_self w, hword, hscope⟩
  · rw [List.flatMap_append, List.flatMap_singleton]
    exact congrArg (· ++ _) hnames

/-- The scopes that are open before token `i`, innermost first, by the braces that begin them. -/
def openScopes (ts : TokenStream) (i : Nat) : List (Option Nat) := (ts.openBraces i).map some ++ [none]

theorem openScopes_eq_cons (ts : TokenStream) (i : Nat) :
    ∃ outer, openScopes ts i = ts.scopeOf i :: outer := by
  unfold openScopes scopeOf
  cases ts.openBraces i with
  | nil => exact ⟨[], rfl⟩
  | cons b bs => exact ⟨bs.map some ++ [none], rfl⟩

theorem nodup_openScopes (ts : TokenStream) (i : Nat) : (openScopes ts i).Nodup := by
  refine List.Nodup.append ?_ (List.nodup_singleton none) ?_
  · exact ((pairwise_openBraces ts i).1.imp Nat.ne_of_gt).map some fun _ _ hne h =>
      hne (Option.some.inj h)
  · intro b hb hnone
    obtain ⟨o, -, rfl⟩ := List.mem_map.mp hb
    exact absurd (List.mem_singleton.mp hnone) nofun

theorem lt_of_mem_openScopes {o : Nat} (h : some o ∈ openScopes ts i) : o < i := by
  rcases List.mem_append.mp h with h | h
  · obtain ⟨b, hb, hbo⟩ := List.mem_map.mp h
    obtain rfl := Option.some.inj hbo
    exact (pairwise_openBraces ts i).2 b hb
  · exact absurd (List.mem_singleton.mp h) nofun

theorem openScopes_lbrace (h : ts.kind i = .lbrace) :
    openScopes ts (i + 1) = some i :: openScopes ts i := by
  rw [openScopes, openBraces_lbrace h]
  rfl

/-- A closing brace closes no scope if no brace is open. -/
theorem openScopes_rbrace_nil (h : ts.kind i = .rbrace) (hnone : ts.openBraces i = []) :
    openScopes ts (i + 1) = openScopes ts i := by
  rw [openScopes, openScopes, openBraces_rbrace h, hnone]
  rfl

theorem openScopes_rbrace {b : Option Nat} {braces : List (Option Nat)} (h : ts.kind i = .rbrace)
    (hopen : openScopes ts i = b :: braces) (hbraces : braces ≠ []) :
    openScopes ts (i + 1) = braces := by
  cases hnone : ts.openBraces i with
  | nil =>
    rw [openScopes, hnone] at hopen
    exact absurd (List.cons.inj hopen).2.symm hbraces
  | cons b' bs =>
    rw [openScopes, hnone] at hopen
    rw [openScopes, openBraces_rbrace h, hnone]
    exact (List.cons.inj hopen).2

/-- The scopes collect the declarators up to token `stop`, each of them those of a brace of its own.
These braces are open before token `i`, or they begin at it or behind it. -/
def CollectFrom (ts : TokenStream) (i stop : Nat) (collected : List Scope) : Prop :=
  ∃ braces, List.Forall₂ (Scope.Collects ts stop) braces collected ∧ braces.Nodup ∧
    ∀ b ∈ braces, b ∈ openScopes ts i ∨ ∃ o, b = some o ∧ i ≤ o

variable {current current' : Scope} {around collected : List Scope} {stop : Nat}

theorem CollectFrom.of_subset (h : CollectFrom ts (i + 1) stop collected)
    (hopen : ∀ b ∈ openScopes ts (i + 1), b ∈ openScopes ts i ∨ b = some i) :
    CollectFrom ts i stop collected := by
  obtain ⟨braces, hcollect, hnodup, hbraces⟩ := h
  refine ⟨braces, hcollect, hnodup, fun b hb => ?_⟩
  rcases hbraces b hb with hb | ⟨o, rfl, ho⟩
  · exact (hopen b hb).imp_right fun hb => ⟨i, hb, Nat.le_refl i⟩
  · exact .inr ⟨o, rfl, Nat.le_of_succ_le ho⟩

/-- Behind an opening brace there is a new scope. -/
theorem collectFrom_lbrace (hkind : ts.kind i = .lbrace)
    (hstack : List.Forall₂ (Scope.Collects ts i) (openScopes ts i) (current :: around))
    (hnext : List.Forall₂ (Scope.Collects ts (i + 1)) (openScopes ts (i + 1))
      (⟨false, [], 0⟩ :: current :: around) → CollectFrom ts (i + 1) stop collected) :
    CollectFrom ts i stop collected := by
  have hopen := openScopes_lbrace hkind
  have hnew : Scope.Collects ts (i + 1) (some i) ⟨false, [], 0⟩ := ⟨rfl, [], .nil, nofun, rfl⟩
  refine (hnext ?_).of_subset fun b hb => (List.mem_cons.mp (hopen ▸ hb)).symm
  rw [hopen]
  exact .cons hnew (hstack.imp fun _ _ h => h.mono (Nat.le_succ i))

/-- Behind a closing brace that closes none the same scope is open. -/
theorem collectFrom_rbrace_nil (hkind : ts.kind i = .rbrace)
    (hstack : List.Forall₂ (Scope.Collects ts i) (openScopes ts i) [current])
    (hnext : List.Forall₂ (Scope.Collects ts (i + 1)) (openScopes ts (i + 1)) [current] →
      CollectFrom ts (i + 1) stop collected) : CollectFrom ts i stop collected := by
  have hnone : ts.openBraces i = [] := by
    have hcount := hstack.length_eq
    rw [openScopes, List.length_append, List.length_map] at hcount
    exact List.length_eq_zero_iff.mp (Nat.succ.inj hcount)
  have hopen := openScopes_rbrace_nil hkind hnone
  refine (hnext ?_).of_subset fun b hb => .inl (hopen ▸ hb)
  rw [hopen]
  exact hstack.imp fun _ _ h => h.mono (Nat.le_succ i)

/-- Behind a closing brace the scope that it closes has all its declarators, and no later one belongs
to the same braces. -/
theorem collectFrom_rbrace {outer : Scope} (hkind : ts.kind i = .rbrace) (hstop : i ≤ stop)
    (hstack : List.Forall₂ (Scope.Collects ts i) (openScopes ts i) (current :: outer :: around))
    (hnext : List.Forall₂ (Scope.Collects ts (i + 1)) (openScopes ts (i + 1)) (outer :: around) →
      CollectFrom ts (i + 1) stop collected) : CollectFrom ts i stop (current :: collected) := by
  obtain ⟨b, braces, hhead, htail, hopen⟩ := List.forall₂_cons_right_iff.mp hstack
  have hinner : openScopes ts (i + 1) = braces := openScopes_rbrace hkind hopen <| by
    rintro rfl
    exact absurd htail nofun
  rw [hinner] at hnext
  obtain ⟨braces', hcollect, hnodup, hbraces'⟩ :=
    hnext (htail.imp fun _ _ h => h.mono (Nat.le_succ i))
  rw [hinner] at hbraces'
  have hnew : b ∉ braces' := by
    intro hb
    rcases hbraces' b hb with hb | ⟨o, rfl, ho⟩
    · exact (List.nodup_cons.mp (hopen ▸ nodup_openScopes ts i)).1 hb
    · have hlt := lt_of_mem_openScopes (hopen ▸ List.mem_cons_self ..)
      omega
  refine ⟨b :: braces', .cons (hhead.mono hstop) hcollect, List.nodup_cons.mpr ⟨hnew, hnodup⟩,
    fun b' hb' => ?_⟩
  rw [hopen]
  rcases List.mem_cons.mp hb' with rfl | hb'
  · exact .inl (List.mem_cons_self ..)
  · exact (hbraces' b' hb').imp (List.mem_cons_of_mem _) fun ⟨o, ho, hle⟩ =>
      ⟨o, ho, Nat.le_of_succ_le hle⟩

/-- Behind a token that is no brace the same scopes are open, and only the innermost one may have
changed. -/
theorem collectFrom_other {t : Token} (hrest : ts.drop i = t :: rest)
    (hstack : List.Forall₂ (Scope.Collects ts i) (openScopes ts i) (current :: around))
    (hl : t.kind ≠ .lbrace) (hr : t.kind ≠ .rbrace)
    (hnext : List.Forall₂ (Scope.Collects ts (i + 1)) (openScopes ts (i + 1)) (current' :: around) →
      CollectFrom ts (i + 1) stop collected)
    (hcurrent : Scope.Collects ts i (ts.scopeOf i) current →
      Scope.Collects ts (i + 1) (ts.scopeOf i) current') :
    CollectFrom ts i stop collected := by
  have hkind := (of_drop_eq_cons hrest).2.1
  have hsame : openScopes ts (i + 1) = openScopes ts i := by
    rw [openScopes, openScopes, openBraces_other (hkind ▸ hl) (hkind ▸ hr)]
  obtain ⟨braces, hbraces⟩ := openScopes_eq_cons ts i
  rw [hbraces] at hstack
  rw [hsame, hbraces] at hnext
  obtain ⟨hhead, htail⟩ := List.forall₂_cons.mp hstack
  refine (hnext ?_).of_subset fun b hb => .inl (hsame ▸ hb)
  exact .cons (hcurrent hhead) (htail.imp fun _ _ h => h.mono (Nat.le_succ i))

/-- The word of a declaration adds its declarators to the innermost scope. -/
theorem collects_of_word {t : Token} (hrest : ts.drop i = t :: rest)
    (hkind : t.kind = .kwLet ∨ t.kind = .kwConst) (hname : (headKind rest).isName = true)
    (h : Scope.Collects ts i (ts.scopeOf i) current) :
    Scope.Collects ts (i + 1) (ts.scopeOf i)
      { current with names := current.names ++ Binding.ofStatement (t :: rest) } := by
  obtain ⟨-, hkind', hnext⟩ := of_drop_eq_cons hrest
  rw [← hrest]
  refine h.append ⟨hkind'.symm ▸ hkind, ?_⟩ rfl
  rw [kind_eq_headKind_drop, hnext]
  exact hname

/-- **Every scope of a text collects the declarators of the words in its braces,** and no two scopes
belong to one pair of braces. -/
theorem collectFrom_scopesFrom (hrest : ts.drop i = rest)
    (hstack : List.Forall₂ (Scope.Collects ts i) (openScopes ts i) (current :: around)) :
    CollectFrom ts i (i + rest.length) (scopesFrom current around rest) := by
  have hlength : ∀ {i : Nat} {t : Token} {rest : TokenStream},
      i + (t :: rest).length = i + 1 + rest.length := fun {i t rest} => by
    rw [List.length_cons, Nat.add_comm rest.length, Nat.add_assoc]
  fun_induction scopesFrom current around rest generalizing i with
  | case1 current around =>
    refine ⟨(openScopes ts i).reverse, List.forall₂_reverse_iff.mpr hstack,
      List.nodup_reverse.mpr (nodup_openScopes ts i), fun b hb => .inl (List.mem_reverse.mp hb)⟩
  | case2 current around t rest hkind ih =>
    obtain ⟨-, hkind', hnext⟩ := of_drop_eq_cons hrest
    rw [hlength]
    exact collectFrom_lbrace (hkind'.trans hkind) hstack (ih hnext)
  | case3 current t rest hkind ih =>
    obtain ⟨-, hkind', hnext⟩ := of_drop_eq_cons hrest
    rw [hlength]
    exact collectFrom_rbrace_nil (hkind'.trans hkind) hstack (ih hnext)
  | case4 current t rest hkind outer around ih =>
    obtain ⟨-, hkind', hnext⟩ := of_drop_eq_cons hrest
    rw [hlength]
    exact collectFrom_rbrace (hkind'.trans hkind) (by omega) hstack (ih hnext)
  | case5 current around t rest hkind ih | case6 current around t rest hkind ih
  | case7 current around t rest hkind ih | case8 current around t rest hkind ih
  | case10 current around t rest hkind hword ih | case12 current around t rest hkind hword ih =>
    rw [hlength]
    exact collectFrom_other hrest hstack (hkind ▸ nofun) (hkind ▸ nofun)
      (ih (of_drop_eq_cons hrest).2.2) fun h => h.mono (Nat.le_succ i)
  | case9 current around t rest hkind hword names =>
    rename_i ih
    rw [hlength]
    exact collectFrom_other hrest hstack (hkind ▸ nofun) (hkind ▸ nofun)
      (ih (of_drop_eq_cons hrest).2.2) (collects_of_word hrest (.inl hkind) hword.1)
  | case11 current around t rest hkind hword names =>
    rename_i ih
    rw [hlength]
    exact collectFrom_other hrest hstack (hkind ▸ nofun) (hkind ▸ nofun)
      (ih (of_drop_eq_cons hrest).2.2) (collects_of_word hrest (.inr hkind) hword.1)
  | case13 current around t rest hl hr =>
    rename_i ih
    rw [hlength]
    exact collectFrom_other hrest hstack hl hr (ih (of_drop_eq_cons hrest).2.2)
      fun h => h.mono (Nat.le_succ i)

theorem collectFrom_scopes (ts : TokenStream) : CollectFrom ts 0 ts.length (scopes ts) := by
  have hstart : Scope.Collects ts 0 none ⟨true, [], 0⟩ := ⟨rfl, [], .nil, nofun, rfl⟩
  have hcollect : CollectFrom ts 0 (0 + ts.length) (scopes ts) :=
    collectFrom_scopesFrom rfl (.cons hstart .nil)
  rwa [Nat.zero_add] at hcollect

/-- **The names of a scope** are declarators of its words, and as one of a word a declarator is listed
only once. -/
theorem Scope.Collects.exists_entries (h : s.Collects ts i brace) :
    ∃ entries : List (Nat × Nat), entries.Nodup ∧
      (∀ e ∈ entries, ts.Declares e.1 e.2 ∧ ts.scopeOf e.1 = brace) ∧
      s.names = entries.map fun e => ts.binding e.2 := by
  obtain ⟨-, words, hsorted, hwords, hnames⟩ := h
  choose ks hks using ts.namesIn_ofStatement
  refine ⟨words.flatMap fun w => (ks w).map (w, ·), List.nodup_flatMap.mpr ⟨fun w _ => ?_, ?_⟩,
    fun e he => ?_, ?_⟩
  · exact ((hks w).1.imp Nat.ne_of_lt).map _ fun _ _ hne h => hne (Prod.mk.inj h).2
  · refine hsorted.imp fun {w w'} hlt => ?_
    intro e he he'
    obtain ⟨_, _, rfl⟩ := List.mem_map.mp he
    obtain ⟨_, _, heq⟩ := List.mem_map.mp he'
    exact absurd (Prod.mk.inj heq).1 (Nat.ne_of_gt hlt)
  · obtain ⟨w, hw, he⟩ := List.mem_flatMap.mp he
    obtain ⟨k, hk, rfl⟩ := List.mem_map.mp he
    obtain ⟨-, hword, hscope⟩ := hwords w hw
    obtain ⟨-, hbefore, hlevel, hname, hplace⟩ := (hks w).2.1 k hk
    exact ⟨⟨hword, hlevel, hbefore, hname, hplace⟩, hscope⟩
  · rw [hnames, List.map_flatMap]
    refine congrArg (List.flatMap · words) (funext fun w => ?_)
    rw [(hks w).2.2, List.map_map]
    rfl

/-- The names of a scope that are reported, in the order in which they are collected. -/
def Scope.reported (s : Scope) (isAmbient : String → Bool) : List Binding :=
  s.names.filter fun b =>
    1 < (s.names.filter fun c => c.name == b.name).length || (s.topLevel && isAmbient b.name)

theorem Scope.perm_redeclared (s : Scope) (isAmbient : String → Bool) :
    (s.redeclared isAmbient).Perm (s.reported isAmbient) :=
  List.mergeSort_perm ..

/-- Names that are collected from left to right are reported in that order. -/
theorem Scope.redeclared_of_sorted
    (h : (s.reported isAmbient).Pairwise fun b c => decide (b.span.start ≤ c.span.start) = true) :
    s.redeclared isAmbient = s.reported isAmbient :=
  List.mergeSort_of_pairwise h

/-- What is reported of a scope is one of its names, and either known from elsewhere, or there is
another entry of the same name. -/
theorem exists_of_mem_redeclared {entries : List (Nat × Nat)} (hnodup : entries.Nodup)
    (hnames : s.names = entries.map fun e => ts.binding e.2) {b : Binding}
    (hb : b ∈ s.redeclared isAmbient) : ∃ e ∈ entries, b = ts.binding e.2 ∧
      (s.topLevel = true ∧ isAmbient (ts.value e.2) = true ∨
        ∃ e' ∈ entries, e' ≠ e ∧ ts.value e'.2 = ts.value e.2) := by
  rw [(s.perm_redeclared isAmbient).mem_iff, Scope.reported, List.mem_filter] at hb
  obtain ⟨hmem, hredeclared⟩ := hb
  rw [hnames] at hmem
  obtain ⟨e, he, rfl⟩ := List.mem_map.mp hmem
  refine ⟨e, he, rfl, ?_⟩
  rcases Bool.or_eq_true_iff.mp hredeclared with hcount | hambient
  · refine .inr ?_
    rw [hnames, List.filter_map, List.length_map,
      ← List.toFinset_card_of_nodup (hnodup.filter _)] at hcount
    obtain ⟨e', he', hne⟩ := Finset.exists_mem_ne (of_decide_eq_true hcount) e
    obtain ⟨hmem', hname⟩ := List.mem_filter.mp (List.mem_toFinset.mp he')
    exact ⟨e', hmem', hne, beq_iff_eq.mp hname⟩
  · exact .inl (Bool.and_eq_true_iff.mp hambient)

/-- The finding that the name of token `k` is declared already. -/
def redeclaration (ts : TokenStream) (k : Nat) : Finding :=
  ⟨.redeclared (ts.value k), ⟨ts.startOf k, ts.stopOf k⟩⟩

theorem redeclarations_of_sorted (h : ∀ s ∈ scopes ts,
    (s.reported (if ts.isModule then fun _ => false else isAmbient)).Pairwise
      fun b c => decide (b.span.start ≤ c.span.start) = true) :
    redeclarations ts isAmbient = (scopes ts).flatMap fun s =>
      (s.reported (if ts.isModule then fun _ => false else isAmbient)).map fun b =>
        ⟨.redeclared b.name, b.span⟩ :=
  List.flatMap_congr fun s hs => by rw [Scope.redeclared_of_sorted (h s hs)]

theorem exists_collects (hs : s ∈ scopes ts) : ∃ brace, s.Collects ts ts.length brace := by
  obtain ⟨braces, hcollect, -, -⟩ := collectFrom_scopes ts
  obtain ⟨n, hn, rfl⟩ := List.getElem_of_mem hs
  exact ⟨_, hcollect.get (hcollect.length_eq ▸ hn) hn⟩

/-- **Every finding is about a declarator.**  Its name is known from elsewhere, if it is declared at
the top level, or there is another declarator of that name in its scope, or the same one as a
declarator of another word. -/
theorem exists_of_mem_redeclarations {f : Finding} (hf : f ∈ redeclarations ts isAmbient) :
    ∃ w k, ts.Declares w k ∧ f = redeclaration ts k ∧
      (ts.scopeOf w = none ∧ ts.isModule = false ∧ isAmbient (ts.value k) = true ∨
        ∃ w' k', ts.Declares w' k' ∧ ts.scopeOf w' = ts.scopeOf w ∧ ts.value k' = ts.value k ∧
          (w', k') ≠ (w, k)) := by
  obtain ⟨s, hs, hf⟩ := List.mem_flatMap.mp hf
  obtain ⟨b, hb, rfl⟩ := List.mem_map.mp hf
  obtain ⟨brace, hcollects⟩ := exists_collects hs
  obtain ⟨entries, hnodup, hentries, hnames⟩ := hcollects.exists_entries
  obtain ⟨⟨w, k⟩, he, rfl, hreason⟩ := exists_of_mem_redeclared hnodup hnames hb
  obtain ⟨hdeclares, hscope⟩ := hentries _ he
  refine ⟨w, k, hdeclares, rfl, ?_⟩
  rcases hreason with ⟨htop, hambient⟩ | ⟨⟨w', k'⟩, he', hne, hname⟩
  · have hnone : brace = none := Option.isNone_iff_eq_none.mp (hcollects.1.symm.trans htop)
    refine .inl ⟨hscope.trans hnone, ?_⟩
    cases hmodule : ts.isModule with
    | true =>
      rw [hmodule] at hambient
      contradiction
    | false =>
      rw [hmodule] at hambient
      exact ⟨rfl, hambient⟩
  · obtain ⟨hdeclares', hscope'⟩ := hentries _ he'
    exact .inr ⟨w', k', hdeclares', hscope'.trans hscope.symm, hname, hne⟩

/-- Declarators with names at one place are the same token. -/
theorem eq_of_startOf_eq {text : String} (hk : kind (Scan.ofText text).tokens i ≠ .eof)
    (hk' : kind (Scan.ofText text).tokens j ≠ .eof)
    (h : startOf (Scan.ofText text).tokens i = startOf (Scan.ofText text).tokens j) : i = j := by
  suffices hlt : ∀ {i j}, kind (Scan.ofText text).tokens i ≠ .eof →
      kind (Scan.ofText text).tokens j ≠ .eof →
      startOf (Scan.ofText text).tokens i = startOf (Scan.ofText text).tokens j → ¬i < j from
    Nat.le_antisymm (Nat.not_lt.mp (hlt hk' hk h.symm)) (Nat.not_lt.mp (hlt hk hk' h))
  intro i j hi hj h hij
  have hwidth := startOf_lt_stopOf hi
  have hapart := stopOf_le_startOf hij (lt_length_of_kind hj)
  omega

section

variable {text : String}
  (hunique : ∀ w w' k, TokenStream.Declares (Scan.ofText text).tokens w k →
    TokenStream.Declares (Scan.ofText text).tokens w' k → w = w')
include hunique

/-- Names at one place are declarators of one word. -/
theorem word_eq_of_span_eq (h : TokenStream.Declares (Scan.ofText text).tokens w i)
    (h' : TokenStream.Declares (Scan.ofText text).tokens w' j)
    (hspan : (TokenStream.binding (Scan.ofText text).tokens i).span =
      (TokenStream.binding (Scan.ofText text).tokens j).span) : w = w' ∧ i = j := by
  obtain rfl : i = j := eq_of_startOf_eq (fun heof => absurd (heof ▸ h.name) nofun)
    (fun heof => absurd (heof ▸ h'.name) nofun) (congrArg Span.start hspan)
  exact ⟨hunique w w' i h h', rfl⟩

theorem nodup_names (h : Scope.Collects (Scan.ofText text).tokens i brace s) :
    (s.names.map Binding.span).Nodup := by
  obtain ⟨entries, hnodup, hentries, hnames⟩ := h.exists_entries
  rw [hnames, List.map_map]
  refine hnodup.map_on fun e he e' he' hspan => ?_
  obtain ⟨hw, hk⟩ := word_eq_of_span_eq hunique (hentries e he).1 (hentries e' he').1 hspan
  exact Prod.ext hw hk

theorem disjoint_names {brace' : Option Nat} {s' : Scope}
    (h : Scope.Collects (Scan.ofText text).tokens i brace s)
    (h' : Scope.Collects (Scan.ofText text).tokens i brace' s') (hne : brace ≠ brace') :
    (s.names.map Binding.span).Disjoint (s'.names.map Binding.span) := by
  obtain ⟨entries, -, hentries, hnames⟩ := h.exists_entries
  obtain ⟨entries', -, hentries', hnames'⟩ := h'.exists_entries
  rw [hnames, hnames', List.map_map, List.map_map]
  intro span hspan hspan'
  obtain ⟨e, he, rfl⟩ := List.mem_map.mp hspan
  obtain ⟨e', he', heq⟩ := List.mem_map.mp hspan'
  obtain ⟨hw, -⟩ := word_eq_of_span_eq hunique (hentries' e' he').1 (hentries e he).1 heq
  exact hne ((hentries e he).2.symm.trans (hw ▸ (hentries' e' he').2))

/-- **If no declarator belongs to two words, nothing is reported twice.** -/
theorem nodup_redeclarations (isAmbient : String → Bool) :
    ((redeclarations (Scan.ofText text).tokens isAmbient).map Finding.span).Nodup := by
  have hnames : ∀ (s : Scope) (isAmbient : String → Bool),
      ∀ span ∈ ((s.redeclared isAmbient).map fun b => ⟨.redeclared b.name, b.span⟩).map Finding.span,
        span ∈ s.names.map Binding.span := by
    intro s isAmbient span h
    rw [List.map_map] at h
    obtain ⟨b, hb, rfl⟩ := List.mem_map.mp h
    exact List.mem_map_of_mem (List.mem_of_mem_filter ((s.perm_redeclared isAmbient).mem_iff.mp hb))
  obtain ⟨braces, hcollect, hbraces, -⟩ := collectFrom_scopes (Scan.ofText text).tokens
  unfold redeclarations
  rw [List.map_flatMap]
  refine List.nodup_flatMap.mpr ⟨fun s hs => ?_, ?_⟩
  · obtain ⟨brace, hs⟩ := exists_collects hs
    rw [List.map_map]
    refine ((s.perm_redeclared _).map _).nodup_iff.mpr ?_
    exact (nodup_names hunique hs).sublist (List.filter_sublist.map _)
  · refine List.pairwise_iff_getElem.mpr fun m n hm hn hmn => ?_
    have hlength := hcollect.length_eq
    have hdisjoint := disjoint_names hunique (hcollect.get (hlength ▸ hm) hm)
      (hcollect.get (hlength ▸ hn) hn) fun heq =>
        Nat.ne_of_lt hmn ((hbraces.getElem_inj_iff).mp heq)
    exact fun span h h' => hdisjoint (hnames _ _ _ h) (hnames _ _ _ h')

end

/-- **What is reported is declared twice.**  In every text each finding is about a declarator.  Its
name is known from elsewhere, and it is declared at the top level of a script, or a word of the same
scope has another declarator of that name, or the same token is a declarator of another word.  The
last is so only if the second word stands in the statement of the first one and no end of that
statement is found before it.  If every declaration is ended, then there are two tokens in one scope
that are declarators of that name, and no place is reported twice. -/
theorem redeclarations_sound (text : String) (isAmbient : String → Bool) :
    let ts : TokenStream := (Scan.ofText text).tokens
    let found := redeclarations ts isAmbient
    (∀ f ∈ found, ∃ w k, ts.Declares w k ∧ f = redeclaration ts k ∧
      (ts.scopeOf w = none ∧ ts.isModule = false ∧ isAmbient (ts.value k) = true ∨
        ∃ w' k', ts.Declares w' k' ∧ ts.scopeOf w' = ts.scopeOf w ∧ ts.value k' = ts.value k ∧
          (w', k') ≠ (w, k))) ∧
    (∀ w w' k, ts.Declares w k → ts.Declares w' k → w < w' →
      w' < ts.pastStatement w ∧ ∀ j ≤ w', ¬ts.EndsAt w j) ∧
    (ts.Ended →
      (∀ f ∈ found, ∃ w k, ts.Declares w k ∧ f = redeclaration ts k ∧
        (ts.scopeOf k = none ∧ ts.isModule = false ∧ isAmbient (ts.value k) = true ∨
          ∃ w' k', ts.Declares w' k' ∧ ts.scopeOf k' = ts.scopeOf k ∧ ts.value k' = ts.value k ∧
            k' ≠ k)) ∧
      (found.map Finding.span).Nodup) := by
  intro ts found
  refine ⟨fun f hf => exists_of_mem_redeclarations hf,
    fun w w' k h h' _ => h.lt_pastStatement h', fun hended => ⟨fun f hf => ?_,
      nodup_redeclarations (fun w w' k => hended.eq) isAmbient⟩⟩
  obtain ⟨w, k, hdeclares, rfl, hreason⟩ := exists_of_mem_redeclarations hf
  have hscope := hdeclares.scopeOf_eq hended.bracketed
  refine ⟨w, k, hdeclares, rfl, ?_⟩
  rw [hscope]
  refine hreason.imp_right fun ⟨w', k', hdeclares', hscope', hname, hne⟩ => ?_
  refine ⟨w', k', hdeclares', (hdeclares'.scopeOf_eq hended.bracketed).trans hscope', hname, ?_⟩
  rintro rfl
  exact hne (Prod.ext (hended.eq hdeclares' hdeclares) rfl)

/-- Statements that end in a line break and in a semicolon: the name that is declared twice is
reported at both of its places. -/
theorem redeclarations_sound_twice :
    let text := "let a = 1, b = 2\nconst a = b; let c\n"
    let ts : TokenStream := (Scan.ofText text).tokens
    let found := redeclarations ts fun _ => false
    ts.Ended ∧ found = [redeclaration ts 1, redeclaration ts 9] ∧ (found.map Finding.span).Nodup ∧
      ∀ f ∈ found, ∃ w k, ts.Declares w k ∧ f = redeclaration ts k ∧
        (ts.scopeOf k = none ∧ ts.isModule = false ∧ false = true ∨
          ∃ w' k', ts.Declares w' k' ∧ ts.scopeOf k' = ts.scopeOf k ∧ ts.value k' = ts.value k ∧
            k' ≠ k) := by
  intro text ts found
  have hended : ts.Ended := by decide +kernel
  have hsound := (redeclarations_sound text fun _ => false).2.2 hended
  refine ⟨hended, ?_, hsound.2, hsound.1⟩
  exact (redeclarations_of_sorted (by decide +kernel)).trans (by decide +kernel)

/-- An assertion does not end the statement before a line break.  So the only declarator `c` belongs
to the word before it and to the one before that, and it is reported at its only place, twice. -/
theorem redeclared_once_declared :
    let ts : TokenStream := (Scan.ofText "let a = x!\nlet b = 1, c = 2\n").tokens
    redeclarations ts (fun _ => false) = [redeclaration ts 10, redeclaration ts 10] ∧
      redeclaration ts 10 = ⟨.redeclared "c", ⟨22, 23⟩⟩ ∧
      (ts.filter fun t => t.value = "c").length = 1 := by
  intro ts
  refine ⟨?_, by decide +kernel⟩
  exact (redeclarations_of_sorted (by decide +kernel)).trans (by decide +kernel)

end Check

end TypeScriptEngine
