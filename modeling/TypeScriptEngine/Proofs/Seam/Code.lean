import TypeScriptEngine.Proofs.Seam.Start

/-! # The walk over a statement

What the walk does to a statement on a line of its own whose end shows (`walk_line`): a type alias is
erased as a whole, and of a constant the word `export` and the mark of an assertion are erased, and an
assignment is inserted behind an exported one.
-/

namespace TypeScriptEngine.Seam

open TypeScriptEngine.Text TokenStream ModuleSyntax Grammar
open Emit (Goal Draft Ready)

/-! ## Visits -/

section

variable {goal : Goal} {ts : TokenStream} {draft : Draft} {k stop : Nat}

theorem visit_alias (hkind : ts.kind k = .kwType) (hstart : ts.startsStatement k = true)
    (hname : (ts.kind (k + 1)).isName = true) (hequals : ts.kind (k + 2) = .equals) :
    Emit.visit goal ts draft k = .erasing k (Emit.typeAliasEnd ts k) := by
  rw [Emit.visit, hkind]
  simp [hstart, hname, hequals]

theorem visit_const (hkind : ts.kind k = .kwConst) :
    Emit.visit goal ts draft k = .proposing (Emit.declarators ts k) k := by
  rw [Emit.visit, hkind]

theorem visit_mark (hkind : ts.kind k = .bang) (h : Emit.isNonNullAssertion ts k = true) :
    Emit.visit goal ts draft k = .erasing k (k + 1) := by
  rw [Emit.visit, hkind]
  simp [h]

theorem pastComma?_eq_none
    (h : ∀ j, k ≤ j → j < stop → ts.kind j ≠ .comma ∧ (ts.kind j).isOpener = false) :
    Emit.pastComma? ts k stop = none := by
  induction hn : stop - k generalizing k with
  | zero => rw [Emit.pastComma?, if_neg (by omega)]
  | succ n ih =>
    obtain ⟨hcomma, hopen⟩ := h k (Nat.le_refl k) (by omega)
    have hnext := ih (k := k + 1) (fun j hj => h j (by omega)) (by omega)
    rw [Emit.pastComma?, if_pos (by omega)]
    split
    · exact absurd ‹_› hcomma
    all_goals first
      | exact hnext
      | simp_all [TokenKind.isOpener]

/-- Nothing is proposed for the one declarator of a constant without an annotation. -/
theorem declarators_eq_nil (hname : (ts.kind (k + 1)).isName = true)
    (hequals : ts.kind (k + 2) = .equals)
    (hplain : ∀ j, k + 2 ≤ j → j < ts.pastStatement k →
      ts.kind j ≠ .comma ∧ (ts.kind j).isOpener = false) : Emit.declarators ts k = [] := by
  have hbinding : Emit.pastBinding ts (k + 1) (ts.pastStatement k) = k + 2 := by
    revert hname
    cases hkind : ts.kind (k + 1) <;>
      simp [Emit.pastBinding, hkind, TokenKind.isName, TokenKind.isContextual]
  have hmark : Emit.mark ts .bang (k + 2) = ([], k + 2) := by simp [Emit.mark, hequals]
  have hannotation : ∀ stop, Emit.annotationAt ts (k + 2) stop = ([], k + 2) := fun stop => by
    simp [Emit.annotationAt, hequals]
  rw [Emit.declarators, Emit.declaratorList]
  simp [hbinding, hmark, hannotation, pastComma?_eq_none hplain]

/-- What erasing tokens does to a draft that has claimed none of them. -/
theorem ready_erase {n : Nat} (hready : Ready ts draft k) (hn : 0 < n) (hlast : k + n ≤ ts.last) :
    (draft.apply ts (.erase k (k + n))).edits =
        ⟨ts.startOf k, ts.stopOf (k + n - 1), []⟩ :: draft.edits ∧
      Ready ts (draft.apply ts (.erase k (k + n))) (k + n) := by
  rw [Draft.apply_erase hready.free hn hlast]
  refine ⟨Draft.edits_claimTokens .., fun j hj => ?_, ?_, ?_⟩
  · rw [Bool.eq_false_iff, ne_eq, Draft.isClaimed_claimTokens]
    rintro (hclaimed | hbounds)
    · exact Bool.false_ne_true (hready.free j (by omega) ▸ hclaimed)
    · omega
  · exact (Draft.size_claimTokens ..).trans hready.size
  · exact (Draft.classBodies_claimTokens ..).trans hready.bodies

end

/-! ## Words that are erased -/

/-- The word `export` and the mark of an assertion are erased. -/
def isErased (w : Word) : Bool := w.kind == .kwExport || w.kind == .bang

/-- The edits that erase words. -/
def erasures (pos : Nat) : List Bit → List Edit
  | [] => []
  | b :: bs =>
    let start := pos + byteLength b.gap
    let stop := start + byteLength b.word.text
    (if isErased b.word then [⟨start, stop, []⟩] else []) ++ erasures stop bs

/-- What is left of words. -/
def codeOf : List Bit → List Char
  | [] => []
  | b :: bs => b.gap ++ ((if isErased b.word then [] else b.word.text) ++ codeOf bs)

theorem byteLength_text_pos (w : Word) : 0 < byteLength w.text := by
  obtain ⟨c, cs, htext, _⟩ := w.spells.exists_cons
  have := utf8Size_pos c
  rw [htext, byteLength_cons]
  omega

theorem le_of_mem_erasures {bs : List Bit} {pos : Nat} {e : Edit} (he : e ∈ erasures pos bs) :
    pos ≤ e.start ∧ e.start < e.stop ∧ e.stop ≤ pos + byteLength (textOf bs) := by
  induction bs generalizing pos with
  | nil => contradiction
  | cons b bs ih =>
    rw [textOf, byteLength_append, byteLength_append]
    rcases List.mem_append.mp he with h | h
    · split at h
      · obtain rfl := List.mem_singleton.mp h
        have hpos := byteLength_text_pos b.word
        exact ⟨Nat.le_add_right .., Nat.lt_add_of_pos_right hpos, by simp only; omega⟩
      · contradiction
    · have := ih h
      omega

theorem pairwise_erasures (bs : List Bit) (pos : Nat) : (erasures pos bs).Pairwise Emit.Precedes := by
  induction bs generalizing pos with
  | nil => exact .nil
  | cons b bs ih =>
    rw [erasures]
    refine List.pairwise_append.mpr ⟨?_, ih _, fun e he f hf => .inl ?_⟩
    · split
      · exact List.pairwise_singleton ..
      · exact .nil
    · have hle := le_of_mem_erasures hf
      split at he
      · obtain rfl := List.mem_singleton.mp he
        have hpos := byteLength_text_pos b.word
        simp only at *
        omega
      · contradiction

/-- **Erasing words leaves what is left of them.** -/
theorem splice_erasures {bs : List Bit} (hlines : ∀ b ∈ bs, isErased b.word = true → '\n' ∉ b.word.text)
    {pos : Nat} {rest : List Char} {edits : List Edit}
    (hedits : ∀ e ∈ edits, pos + byteLength (textOf bs) ≤ e.start) :
    Edit.splice pos (textOf bs ++ rest) (erasures pos bs ++ edits) =
      codeOf bs ++ Edit.splice (pos + byteLength (textOf bs)) rest edits := by
  induction bs generalizing pos with
  | nil => simp [erasures, codeOf]
  | cons b bs ih =>
    obtain ⟨hline, hlines⟩ := List.forall_mem_cons.mp hlines
    have hlength : pos + byteLength (textOf (b :: bs)) =
        pos + byteLength b.gap + byteLength b.word.text + byteLength (textOf bs) := by
      simp [textOf, Nat.add_assoc]
    rw [hlength] at hedits ⊢
    have ih := @ih hlines (pos + byteLength b.gap + byteLength b.word.text) hedits
    rw [textOf, erasures, codeOf, List.append_assoc, List.append_assoc, List.append_assoc]
    cases herased : isErased b.word with
    | true =>
      have hbreaks : lineBreaks b.word.text = 0 := List.count_eq_zero.mpr (hline herased)
      rw [if_pos rfl, if_pos rfl, List.singleton_append, Emit.splice_replace, hbreaks, ih]
      simp
    | false =>
      rw [if_neg (by decide), if_neg (by decide), List.nil_append, ← List.append_assoc b.gap,
        Emit.splice_append, byteLength_append, ← Nat.add_assoc, ih]
      · simp
      · intro e he
        rw [byteLength_append, ← Nat.add_assoc]
        rcases List.mem_append.mp he with h | h
        · exact (le_of_mem_erasures h).1
        · exact Nat.le_trans (Nat.le_add_right ..) (hedits e h)

/-! ## Walking over words -/

section

variable {goal : Goal} {ts front rest : TokenStream} {pos : Nat} {draft : Draft}

/-- The first word of a line is the token `t` among all tokens, and the other words stand behind
it. -/
structure Leads (ts front rest : TokenStream) (pos : Nat) (b : Bit) (bs : List Bit) (t : Token) :
    Prop where
  split : ts = (front ++ [t]) ++
    (tokensOf (pos + byteLength b.gap + byteLength b.word.text) false bs ++ rest)
  kind : ts.kind front.length = b.word.kind
  startOf : ts.startOf front.length = pos + byteLength b.gap
  stopOf : ts.stopOf front.length = pos + byteLength b.gap + byteLength b.word.text
  le_last : front.length + 1 ≤ ts.last

theorem exists_leads {b : Bit} {bs : List Bit} {lineBefore : Bool}
    (hts : ts = front ++ (tokensOf pos lineBefore (b :: bs) ++ rest)) (hrest : rest ≠ []) :
    ∃ t, Leads ts front rest pos b bs t := by
  let start := pos + byteLength b.gap
  let t := b.word.token ⟨⟨start, start + byteLength b.word.text⟩, lineBefore || b.gap.contains '\n'⟩
  have hsplit : ts = (front ++ [t]) ++ (tokensOf (start + byteLength b.word.text) false bs ++ rest) := by
    rw [hts, tokensOf]
    simp [t, start]
  have hget : ts[front.length]? = some t := by simp [hsplit]
  refine ⟨t, hsplit, ?_, ?_, ?_, ?_⟩
  · rw [TokenStream.kind, hget]
    rfl
  · rw [TokenStream.startOf, hget]
    rfl
  · rw [TokenStream.stopOf, hget]
    rfl
  · have := List.length_pos_of_ne_nil hrest
    rw [TokenStream.last, hsplit]
    simp
    omega

theorem length_concat_add (front : TokenStream) (t : Token) (b : Bit) (bs : List Bit) :
    (front ++ [t]).length + bs.length = front.length + (b :: bs).length := by
  simp
  omega

/-- A quiet word is passed over, and a mark is erased. -/
theorem walk_bit {b : Bit} {bs : List Bit} {t : Token} (h : Leads ts front rest pos b bs t)
    (hready : Ready ts draft front.length)
    (hbit : Emit.isQuiet b.word.kind = true ∨
      b.word.kind = .bang ∧ Emit.isNonNullAssertion ts front.length = true) :
    ∃ draft', Emit.walk goal ts draft front.length =
        Emit.walk goal ts draft' (front.length + 1) ∧
      Ready ts draft' (front.length + 1) ∧
      draft'.edits = (if isErased b.word then
        [⟨pos + byteLength b.gap, pos + byteLength b.gap + byteLength b.word.text, []⟩] else []) ++
          draft.edits := by
  rcases hbit with hquiet | ⟨hbang, hmark⟩
  · have herased : isErased b.word = false := by
      revert hquiet
      unfold isErased
      cases b.word.kind <;> simp [Emit.isQuiet]
    refine ⟨draft, ?_, hready.next (Nat.le_succ _), by rw [herased]; rfl⟩
    exact Emit.walk_over hready.bodies h.le_last (Nat.le_succ _) fun j hj hlt => .inr (by
      obtain rfl : j = front.length := by omega
      rwa [h.kind])
  · have herased : isErased b.word = true := by simp [isErased, hbang]
    obtain ⟨hedits, hready'⟩ := @ready_erase ts draft front.length 1 hready Nat.one_pos h.le_last
    refine ⟨draft.apply ts (.erase front.length (front.length + 1)), ?_, hready', ?_⟩
    · rw [Emit.walk_visit h.le_last (hready.free _ (Nat.le_refl _)),
        visit_mark (h.kind.trans hbang) hmark]
      exact congrArg _ (Nat.max_self _)
    · rw [hedits, herased, Nat.add_sub_cancel, h.startOf, h.stopOf]
      rfl

/-- **The walk erases the marks among quiet words.** -/
theorem walk_bits {bs : List Bit} (hts : ts = front ++ (tokensOf pos false bs ++ rest))
    (hrest : rest ≠ []) (hready : Ready ts draft front.length)
    (hbits : ∀ j b, bs[j]? = some b → Emit.isQuiet b.word.kind = true ∨
      b.word.kind = .bang ∧ Emit.isNonNullAssertion ts (front.length + j) = true) :
    ∃ draft', Emit.walk goal ts draft front.length =
        Emit.walk goal ts draft' (front.length + bs.length) ∧
      Ready ts draft' (front.length + bs.length) ∧
      draft'.edits = (erasures pos bs).reverse ++ draft.edits := by
  induction bs generalizing front pos draft with
  | nil => exact ⟨draft, rfl, hready, rfl⟩
  | cons b bs ih =>
    obtain ⟨t, hleads⟩ := exists_leads hts hrest
    have hlength : (front ++ [t]).length = front.length + 1 := List.length_append
    obtain ⟨draft₁, hwalk₁, hready₁, hedits₁⟩ := walk_bit hleads hready (hbits 0 b rfl)
    rw [← hlength] at hready₁ hwalk₁
    obtain ⟨draft₂, hwalk₂, hready₂, hedits₂⟩ := ih hleads.split hready₁ fun j c hc => by
      rw [hlength, Nat.add_assoc, Nat.add_comm 1]
      exact hbits (j + 1) c hc
    rw [length_concat_add front t b bs] at hwalk₂ hready₂
    refine ⟨draft₂, hwalk₁.trans hwalk₂, hready₂, ?_⟩
    rw [hedits₂, hedits₁, erasures, List.reverse_append, List.append_assoc]
    split <;> rfl

/-! ## Walking over a statement -/

/-- Words on one line are a stream of tokens, of which only the first one can come after a line
break. -/
theorem exists_line_stream {bs : List Bit} (hline : ∀ b ∈ bs.tail, '\n' ∉ b.gap) (pos k : Nat)
    (lineBefore : Bool) : ∃ place, tokensOf pos lineBefore bs = stream place k (bs.map Bit.word) ∧
      ∀ j, k < j → (place j).lineBefore = false := by
  cases bs with
  | nil => exact ⟨fun _ => ⟨⟨0, 0⟩, false⟩, rfl, fun _ _ => rfl⟩
  | cons b bs =>
    let start := pos + byteLength b.gap
    let stop := start + byteLength b.word.text
    obtain ⟨place, htokens, hflat⟩ := exists_stream bs stop (k + 1) false
    refine ⟨placeFrom k ⟨⟨start, stop⟩, lineBefore || b.gap.contains '\n'⟩ place, ?_, fun j hj => ?_⟩
    · rw [List.map_cons, stream_placeFrom, ← htokens]
      rfl
    · rw [placeFrom_of_lt _ _ hj]
      exact hflat rfl hline j

/-- **The end of a type alias is found,** behind its semicolon if it has one. -/
theorem typeAliasEnd_line {l : Line} {name : Ident} {type : TypeExpr}
    (hstatement : l.statement = .typeAlias name type) {place : Nat → TokenPlace} {k : Nat}
    (hdrop : ts.drop k = stream place k l.words ++ rest)
    (hflat : ∀ j, k < j → (place j).lineBefore = false) (hfollows : Follows l rest) :
    Emit.typeAliasEnd ts k = k + l.words.length := by
  let semicolons : List Word := if l.semicolon then [.of .semicolon] else []
  have hwords : l.words = Keyword.kwType.atom.toWord :: name.word :: .of .equals ::
      (type.words ++ semicolons) := by
    rw [Line.words, hstatement]
    rfl
  have hreads : Reads place ts k l.words := ⟨rest, hdrop⟩
  rw [hwords] at hreads hdrop
  have hequals : ts.kind (k + 2) = .equals := hreads.tail.tail.kind
  have hbehind : ts.drop (k + 3) = stream place (k + 3) type.words ++
      (stream place (k + 3 + type.words.length) semicolons ++ rest) := by
    rw [← List.drop_drop, hdrop, ← List.append_assoc, ← stream_append]
    rfl
  -- where the tokens before the type stand does not matter
  let flat : Nat → TokenPlace := fun j => if j ≤ k then ⟨⟨0, 0⟩, false⟩ else place j
  have hflat' : Flat flat := fun j _ => by
    simp only [flat]
    split
    · rfl
    · exact hflat j (by omega)
  have hplace : stream place (k + 3) type.words = stream flat (k + 3) type.words :=
    stream_congr fun j hj => by simp only [flat]; rw [if_neg (by omega)]
  have hlength : typeLength (ts.drop (k + 3)) = type.words.length := by
    rw [hbehind, hplace]
    refine type.typeLength_of_ends hflat' (Nat.succ_pos _) ?_
    cases hsemicolon : l.semicolon with
    | true =>
      simp only [semicolons, hsemicolon, if_true]
      exact .of_kind rfl _
    | false =>
      simp only [semicolons, hsemicolon, Bool.false_eq_true, if_false, stream_nil, List.nil_append]
      exact endsType_of_follows hstatement hsemicolon hfollows
  have hnext : ts.kind (k + 3 + type.words.length) =
      headKind (stream place (k + 3 + type.words.length) semicolons ++ rest) := by
    rw [kind_eq_headKind_drop, ← List.drop_drop, hbehind, drop_stream_append]
  rw [Emit.typeAliasEnd, hequals, if_neg (by decide)]
  simp only [hequals, if_true, pastType, hlength, hnext]
  rw [hwords]
  cases hsemicolon : l.semicolon with
  | true =>
    simp [semicolons, hsemicolon, headKind]
    omega
  | false =>
    have hne : headKind rest ≠ .semicolon := by
      cases hfollows with
      | eof hkind => simp [headKind, hkind]
      | line _ _ hkind => rcases hkind with ⟨h, -⟩ | h | h <;> simp [headKind, h]
    simp [semicolons, hsemicolon, hne]
    omega

/-- A word of a line among all tokens. -/
theorem getElem?_line {bs before after : List Bit} {b : Bit} {lineBefore : Bool}
    (hts : ts = front ++ (tokensOf pos lineBefore bs ++ rest)) (h : bs = before ++ b :: after) :
    ∃ line, ts[front.length + before.length]? =
      some (b.word.token ⟨⟨pos + byteLength (textOf before ++ b.gap),
        pos + byteLength (textOf before ++ b.gap) + byteLength b.word.text⟩, line⟩) := by
  have hlt : before.length < (tokensOf pos lineBefore bs).length := by
    rw [length_tokensOf, h]
    simp
  rw [hts, List.getElem?_append_right (Nat.le_add_right ..), Nat.add_sub_cancel_left,
    List.getElem?_append_left hlt, getElem?_tokensOf h]
  exact ⟨_, rfl⟩

/-- Where a line of words begins and ends. -/
theorem span_line {bs : List Bit} {b : Bit} {lineBefore : Bool}
    (hts : ts = front ++ (tokensOf pos lineBefore (b :: bs) ++ rest)) :
    ts.startOf front.length = pos + byteLength b.gap ∧
      ts.stopOf (front.length + (b :: bs).length - 1) = pos + byteLength (textOf (b :: bs)) := by
  obtain ⟨line, hfirst⟩ := @getElem?_line ts front rest pos (b :: bs) [] bs b lineBefore hts rfl
  obtain ⟨init, c, hlast⟩ : ∃ init c, b :: bs = init ++ [c] :=
    ⟨_, _, (List.dropLast_append_getLast (List.cons_ne_nil b bs)).symm⟩
  obtain ⟨line', hend⟩ := getElem?_line hts hlast
  have hindex : front.length + (b :: bs).length - 1 = front.length + init.length := by
    rw [hlast]
    simp
  rw [List.length_nil, Nat.add_zero] at hfirst
  refine ⟨?_, ?_⟩
  · rw [TokenStream.startOf, hfirst]
    rfl
  · rw [hindex, TokenStream.stopOf, hend, hlast, textOf_append]
    simp [textOf, Word.token, Nat.add_assoc]

/-- **A type alias is erased as a whole.** -/
theorem walk_alias {l : Line} {name : Ident} {type : TypeExpr}
    (hstatement : l.statement = .typeAlias name type) {b : Bit} {bs : List Bit}
    (hbits : l.bits = b :: bs) {lineBefore : Bool}
    (hts : ts = front ++ (tokensOf pos lineBefore l.bits ++ rest)) (hfollows : Follows l rest)
    (hstart : ts.startsStatement front.length = true) (hready : Ready ts draft front.length) :
    ∃ draft', Emit.walk goal ts draft front.length =
        Emit.walk goal ts draft' (front.length + l.bits.length) ∧
      Ready ts draft' (front.length + l.bits.length) ∧
      draft'.edits = ⟨pos + byteLength b.gap, pos + byteLength l.text, []⟩ :: draft.edits := by
  obtain ⟨place, htokens, hflat⟩ := exists_line_stream l.oneLine pos front.length lineBefore
  have hdrop : ts.drop front.length = stream place front.length l.words ++ rest := by
    rw [hts, List.drop_left, htokens, l.words_bits]
    rfl
  have hreads : Reads place ts front.length l.words := ⟨rest, hdrop⟩
  have hwords : l.words = Keyword.kwType.atom.toWord :: name.word :: .of .equals ::
      (type.words ++ if l.semicolon then [.of .semicolon] else []) := by
    rw [Line.words, hstatement]
    rfl
  have hlength := length_bits l
  have hpos : 0 < l.bits.length := by simp [hbits]
  have hlast : front.length + l.bits.length ≤ ts.last := by
    have hne : 0 < rest.length := by cases hfollows <;> simp
    rw [TokenStream.last, hts, List.length_append, List.length_append, length_tokensOf]
    omega
  have hkind := hwords ▸ hreads
  have hvisit := @visit_alias goal ts draft front.length hkind.kind hstart
    (by rw [hkind.tail.kind, name.kind_word]; rfl) hkind.tail.tail.kind
  rw [typeAliasEnd_line hstatement hdrop hflat hfollows, ← hlength] at hvisit
  obtain ⟨hedits, hready'⟩ := ready_erase hready hpos hlast
  obtain ⟨hbegin, hend⟩ := span_line (hbits ▸ hts)
  rw [← hbits] at hend
  refine ⟨draft.apply ts (.erase front.length (front.length + l.bits.length)), ?_, hready', ?_⟩
  · rw [Emit.walk_visit (by omega) (hready.free _ (Nat.le_refl _)), hvisit]
    exact congrArg _ (Nat.max_eq_left (by simp only [Emit.Step.erasing]; omega))
  · rw [hedits, hbegin, hend]
    rfl

/-! ## Constants -/

/-- The words of a constant behind the word `const`, and its semicolon. -/
def tailWords (name : Ident) (value : Value) (semicolon : Bool) : List Word :=
  definition name value ++ if semicolon then [.of .semicolon] else []

/-- They are quiet, apart from the mark behind a name. -/
theorem tailWords_quiet (name : Ident) (value : Value) (semicolon : Bool) {j : Nat} {w : Word}
    (hw : (tailWords name value semicolon)[j]? = some w) :
    Emit.isQuiet w.kind = true ∨ j = 3 ∧ ∃ n, value = .asserted n ∧ w = mark := by
  have hname : ∀ n : Ident, Emit.isQuiet n.word.kind = true := by
    intro n
    rw [n.kind_word]
    rfl
  have hsemicolon : ∀ v ∈ if semicolon then [Word.of .semicolon] else [],
      Emit.isQuiet v.kind = true := by
    cases semicolon with
    | true => exact List.forall_mem_singleton.mpr rfl
    | false => exact fun _ h => by contradiction
  have hall : ∀ {ws : List Word}, (∀ v ∈ ws, Emit.isQuiet v.kind = true) →
      tailWords name value semicolon =
        name.word :: .of .equals :: (ws ++ if semicolon then [.of .semicolon] else []) →
        Emit.isQuiet w.kind = true := by
    intro ws hws heq
    have hquiet : ∀ v ∈ tailWords name value semicolon, Emit.isQuiet v.kind = true := by
      rw [heq]
      exact List.forall_mem_cons.mpr ⟨hname name, List.forall_mem_cons.mpr
        ⟨rfl, List.forall_mem_append.mpr ⟨hws, hsemicolon⟩⟩⟩
    exact hquiet w (List.mem_of_getElem? hw)
  cases value with
  | name n => exact .inl (hall (List.forall_mem_singleton.mpr (hname n)) rfl)
  | literal v h =>
    refine .inl (@hall [v] (List.forall_mem_singleton.mpr ?_) rfl)
    rcases h with h | h <;> rw [h] <;> rfl
  | default object =>
    exact .inl (@hall [object.word, .of .dot, defaultWord] (List.forall_mem_cons.mpr
      ⟨hname object, List.forall_mem_cons.mpr ⟨rfl, List.forall_mem_singleton.mpr rfl⟩⟩) rfl)
  | asserted n =>
    rcases j with _ | _ | _ | _ | j
    · exact .inl ((Option.some.inj hw).symm ▸ hname name)
    · exact .inl ((Option.some.inj hw).symm ▸ rfl)
    · exact .inl ((Option.some.inj hw).symm ▸ hname n)
    · exact .inr ⟨rfl, n, rfl, (Option.some.inj hw).symm⟩
    · exact .inl (hsemicolon w (List.mem_of_getElem? (i := j) hw))

/-- A mark directly behind a name is one of an assertion. -/
theorem isNonNullAssertion_mark {n : Ident} {bs before after : List Bit} {b c : Bit}
    {lineBefore : Bool} (hts : ts = front ++ (tokensOf pos lineBefore bs ++ rest))
    (h : bs = before ++ b :: c :: after) (hb : b.word = n.word) (hgap : c.gap = []) :
    Emit.isNonNullAssertion ts (front.length + (before.length + 1)) = true := by
  obtain ⟨_, hfirst⟩ := getElem?_line hts h
  obtain ⟨_, hsecond⟩ := @getElem?_line ts front rest pos bs (before ++ [b]) after c lineBefore hts
    (by simp [h])
  rw [List.length_append, List.length_singleton, ← Nat.add_assoc] at hsecond
  have hkind : ts.kind (front.length + before.length) = .identifier := by
    rw [TokenStream.kind, hfirst, hb]
    exact n.kind_word
  have htouch : ts.stopOf (front.length + before.length) =
      ts.startOf (front.length + before.length + 1) := by
    rw [TokenStream.stopOf, hfirst, TokenStream.startOf, hsecond, hgap, textOf_append]
    simp [textOf, Word.token, Nat.add_assoc]
  rw [← Nat.add_assoc, Emit.isNonNullAssertion, hkind, htouch]
  simp [TokenKind.isName]

/-- **The end of a constant is found,** and nothing is proposed for its declarator. -/
theorem declarators_definition {l : Line} {exported : Bool} {name : Ident} {value : Value}
    (hstatement : l.statement = .constant exported name value) {place : Nat → TokenPlace} {k : Nat}
    (hdrop : ts.drop k = stream place k (.of .kwConst :: tailWords name value l.semicolon) ++ rest)
    (hflat : ∀ j, k < j → (place j).lineBefore = false) (hfollows : Follows l rest) :
    ts.pastStatement k = k + (tailWords name value l.semicolon).length + 1 ∧
      Emit.declarators ts k = [] := by
  have hreads : Reads place ts k (.of .kwConst :: tailWords name value l.semicolon) := ⟨rest, hdrop⟩
  have hpast : ts.pastStatement k = k + (tailWords name value l.semicolon).length + 1 := by
    rw [pastStatement, hdrop, Nat.add_assoc]
    exact congrArg _ (statementLength_constant hstatement hflat hfollows)
  have hinner : ∀ w ∈ Word.of .kwConst :: tailWords name value l.semicolon,
      w.kind ≠ .comma ∧ w.kind.isOpener = false := by
    intro w hw
    rcases List.mem_append.mp (show w ∈ (Word.of .kwConst :: definition name value) ++ _ from hw)
      with hw | hw
    · obtain ⟨hopen, -, -, hcomma, -⟩ := of_isInner (definition_inner name value w hw)
      exact ⟨hcomma, hopen⟩
    · split at hw
      · obtain rfl := List.mem_singleton.mp hw
        exact ⟨by decide, rfl⟩
      · contradiction
  refine ⟨hpast, declarators_eq_nil (by rw [hreads.tail.kind, name.kind_word]; rfl)
    hreads.tail.tail.kind fun j hj hlt => ?_⟩
  obtain ⟨w, hw, hkind⟩ := hreads.exists_mem (by omega : k ≤ j) (by
    rw [List.length_cons]
    omega)
  exact hkind ▸ hinner w hw

/-- What stands behind the word `const` is quiet, apart from the mark of an assertion. -/
theorem tail_quiet {name : Ident} {value : Value} {semicolon : Bool} {bs : List Bit}
    (hwords : bs.map Bit.word = tailWords name value semicolon)
    (htouch : ∀ b ∈ bs, b.word = mark → b.gap = [])
    (hts : ts = front ++ (tokensOf pos false bs ++ rest)) {j : Nat} {b : Bit} (hb : bs[j]? = some b) :
    Emit.isQuiet b.word.kind = true ∨
      b.word.kind = .bang ∧ Emit.isNonNullAssertion ts (front.length + j) = true := by
  have hword : (tailWords name value semicolon)[j]? = some b.word := by
    rw [← hwords, List.getElem?_map, hb]
    rfl
  rcases tailWords_quiet name value semicolon hword with hquiet | ⟨rfl, n, rfl, hmark⟩
  · exact .inl hquiet
  · refine .inr ⟨by rw [hmark]; rfl, ?_⟩
    obtain ⟨b₁, b₂, b₃, b₄, after, rfl⟩ : ∃ b₁ b₂ b₃ b₄ after,
        bs = b₁ :: b₂ :: b₃ :: b₄ :: after := by
      rcases bs with _ | ⟨b₁, _ | ⟨b₂, _ | ⟨b₃, _ | ⟨b₄, after⟩⟩⟩⟩
      case cons.cons.cons.cons => exact ⟨b₁, b₂, b₃, b₄, after, rfl⟩
      all_goals cases hb
    obtain rfl : b₄ = b := Option.some.inj hb
    have hname : b₃.word = n.word := Option.some.inj (congrArg (·[2]?) hwords)
    have hsplit : b₁ :: b₂ :: b₃ :: b₄ :: after = [b₁, b₂] ++ b₃ :: b₄ :: after := rfl
    exact isNonNullAssertion_mark hts hsplit hname (htouch b₄ (by simp) hmark)

/-- **Of a constant the walk erases the mark of an assertion.** -/
theorem walk_definition {l : Line} {exported : Bool} {name : Ident} {value : Value}
    (hstatement : l.statement = .constant exported name value) {bs : List Bit}
    (hwords : bs.map Bit.word = .of .kwConst :: tailWords name value l.semicolon)
    (hline : ∀ b ∈ bs.tail, '\n' ∉ b.gap) (htouch : ∀ b ∈ bs, b.word = mark → b.gap = [])
    {lineBefore : Bool} (hts : ts = front ++ (tokensOf pos lineBefore bs ++ rest))
    (hfollows : Follows l rest) (hready : Ready ts draft front.length) :
    ts.pastStatement front.length = front.length + bs.length ∧
      ∃ draft', Emit.walk goal ts draft front.length =
          Emit.walk goal ts draft' (front.length + bs.length) ∧
        Ready ts draft' (front.length + bs.length) ∧
        draft'.edits = (erasures pos bs).reverse ++ draft.edits := by
  obtain ⟨b, bs, rfl⟩ : ∃ b bs', bs = b :: bs' := by
    cases bs with
    | nil => cases hwords
    | cons b bs => exact ⟨b, bs, rfl⟩
  obtain ⟨place, htokens, hflat⟩ := exists_line_stream hline pos front.length lineBefore
  rw [hwords] at htokens
  obtain ⟨hconst, htail⟩ := List.cons.inj hwords
  have hdrop : ts.drop front.length =
      stream place front.length (.of .kwConst :: tailWords name value l.semicolon) ++ rest := by
    rw [hts, List.drop_left, htokens]
  have hne : rest ≠ [] := by cases hfollows <;> exact List.cons_ne_nil _ _
  obtain ⟨t, hleads⟩ := exists_leads hts hne
  obtain ⟨hpast, hdeclarators⟩ := declarators_definition hstatement hdrop hflat hfollows
  -- the word `const` is passed over
  have hkind : ts.kind front.length = .kwConst := hleads.kind.trans (by rw [hconst]; rfl)
  have hlength : (front ++ [t]).length = front.length + 1 := List.length_append
  have hwalk : Emit.walk goal ts draft front.length = Emit.walk goal ts draft (front ++ [t]).length := by
    rw [hlength, Emit.walk_visit hleads.le_last (hready.free _ (Nat.le_refl _)), visit_const hkind,
      hdeclarators]
    exact congrArg _ (Nat.max_self _)
  obtain ⟨draft', hwalk', hready', hedits⟩ := walk_bits hleads.split hne
    (by rw [hlength]; exact hready.next (Nat.le_succ _)) fun j c hc =>
      tail_quiet htail (fun c hc => htouch c (List.mem_cons_of_mem b hc)) hleads.split hc
  rw [length_concat_add front t b bs] at hwalk' hready'
  have herased : isErased b.word = false := by rw [hconst]; rfl
  refine ⟨?_, draft', hwalk.trans hwalk', hready', ?_⟩
  · rw [hpast, ← htail, List.length_map, List.length_cons, Nat.add_assoc]
  · rw [hedits, erasures, herased]
    rfl

/-! ## The names of constants -/

/-- Tokens of inner kinds are passed over in the search for names. -/
theorem part_stream {ws : List Word} (h : ∀ w ∈ ws, isInner w.kind = true)
    (place : Nat → TokenPlace) (k : Nat) : Declared.Part rest (stream place k ws) := by
  induction ws generalizing k with
  | nil => exact .nil
  | cons w ws ih =>
    obtain ⟨hw, hws⟩ := List.forall_mem_cons.mp h
    obtain ⟨hopen, -, -, hcomma, hlt⟩ := of_isInner hw
    exact .plain hopen hcomma hlt (ih hws (k + 1))

/-- **A constant exports its name.** -/
theorem exportedNames_constant {name : Ident} {value : Value} {semicolon : Bool}
    {place : Nat → TokenPlace} {k : Nat}
    (hdrop : ts.drop (k + 1) =
      stream place (k + 1) (.of .kwConst :: tailWords name value semicolon) ++ rest)
    (hend : ts.pastStatement (k + 1) = k + 1 + (tailWords name value semicolon).length + 1) :
    Emit.exportedNames ts k = [name.text] := by
  let semicolons : List Word := if semicolon then [.of .semicolon] else []
  let s : Declared.Declaration :=
    { word := (Word.of .kwConst).token (place (k + 1))
      declares := rfl
      first :=
        { target := .name (name.word.token (place (k + 2)))
            (by rw [Word.token_kind, name.kind_word]; rfl)
          further := stream place (k + 3) (.of .equals :: value.words) }
      others := []
      commas := fun _ h => by contradiction
      semicolon? := (stream place (k + 4 + value.words.length) semicolons).head?
      isSemicolon := fun t ht => by
        simp only [semicolons] at ht
        split at ht
        · exact Option.mem_some.mp ht ▸ rfl
        · contradiction }
  have hsemicolon : (stream place (k + 4 + value.words.length) semicolons).head?.toList =
      stream place (k + 4 + value.words.length) semicolons := by
    simp only [semicolons]
    split <;> rfl
  have htokens : s.tokens =
      stream place (k + 1) (.of .kwConst :: tailWords name value semicolon) := by
    rw [Declared.Declaration.tokens, hsemicolon, tailWords, definition]
    have hplace : k + 1 + 1 + 1 + 1 + value.words.length = k + 4 + value.words.length := rfl
    simp only [s, Declared.listTokens, Declared.Declarator.tokens, Declared.Target.tokens,
      List.cons_append, List.nil_append, stream_cons, stream_append, hplace]
    rfl
  have hvalue : ∀ w ∈ Word.of .equals :: value.words, isInner w.kind = true := fun w hw =>
    definition_inner name value w (List.mem_cons_of_mem _ (List.mem_cons_of_mem _ hw))
  refine (Declared.exportedNames_declaration s (htokens ▸ hdrop) (part_stream hvalue ..) ?_).trans ?_
  · rw [hend, htokens, length_stream, List.length_cons, Nat.add_assoc]
  · exact congrArg (fun n => [n]) name.value_word

/-! ## Walking over a line -/

/-- What stands before the statement of a line. -/
def Line.lead (l : Line) : List Char := l.bits.head?.elim [] Bit.gap

/-- What is inserted behind an exported constant. -/
def assignment (name : Ident) : List Char := (Emit.assignments [name.text]).toList

/-- The edits of a line, if `pos` bytes of text come before it. -/
def Line.edits (pos : Nat) (l : Line) : List Edit :=
  let stop := pos + byteLength l.text
  match l.statement with
  | .typeAlias .. => [⟨pos + byteLength l.lead, stop, []⟩]
  | .constant exported name _ =>
    erasures pos l.bits ++ if exported then [⟨stop, stop, assignment name⟩] else []

/-- The word `export` is erased, and assignments are inserted behind the declaration. -/
theorem walk_exportWord (hgoal : goal.commonJs = true) {k : Nat}
    (hbegins : Emit.beginsExport ts k = true) (hword : (ts.kind (k + 1)).isVariableWord = true)
    (hlast : k + 1 ≤ ts.last) (hready : Ready ts draft k) :
    ∃ draft', Emit.walk goal ts draft k = Emit.walk goal ts draft' (k + 1) ∧
      Ready ts draft' (k + 1) ∧
      draft'.edits = ⟨ts.stopOf (Emit.lastOf ts k), ts.stopOf (Emit.lastOf ts k),
          (Emit.assignments (Emit.exportedNames ts k)).toList⟩ ::
        ⟨ts.startOf k, ts.stopOf k, []⟩ :: draft.edits := by
  obtain ⟨hedits, hready'⟩ := @ready_erase ts draft k 1 hready Nat.one_pos hlast
  refine ⟨(draft.apply ts (.erase k (k + 1))).apply ts
      (.insertAfter (Emit.lastOf ts k) (Emit.assignments (Emit.exportedNames ts k))), ?_,
    ⟨hready'.free, hready'.size, hready'.bodies⟩, ?_⟩
  · rw [Emit.walk_visit hlast (hready.free _ (Nat.le_refl _)), Emit.visit_exported hgoal hbegins hword]
    exact congrArg _ (Nat.max_self _)
  · exact congrArg (_ :: ·) hedits

/-- **Of an exported constant** the word `export` and the mark of an assertion are erased, and an
assignment is inserted behind it. -/
theorem walk_exported (hgoal : goal.commonJs = true) {l : Line} {name : Ident} {value : Value}
    (hstatement : l.statement = .constant true name value) {b : Bit} {bs : List Bit}
    (hbits : l.bits = b :: bs) (hexport : b.word = Keyword.kwExport.atom.toWord)
    (htail : bs.map Bit.word = .of .kwConst :: tailWords name value l.semicolon)
    (htouch : ∀ b ∈ bs, b.word = mark → b.gap = []) {lineBefore : Bool}
    (hts : ts = front ++ (tokensOf pos lineBefore l.bits ++ rest)) (hfollows : Follows l rest)
    (hstart : ts.startsStatement front.length = true) (hdepth : Emit.depthAt ts front.length = 0)
    (hready : Ready ts draft front.length) :
    ∃ draft', Emit.walk goal ts draft front.length =
        Emit.walk goal ts draft' (front.length + l.bits.length) ∧
      Ready ts draft' (front.length + l.bits.length) ∧
      draft'.edits.Perm (l.edits pos ++ draft.edits) := by
  have hne : rest ≠ [] := by cases hfollows <;> exact List.cons_ne_nil _ _
  obtain ⟨t, hleads⟩ := exists_leads (hbits ▸ hts) hne
  have hlength : (front ++ [t]).length = front.length + 1 := List.length_append
  have hend := length_concat_add front t b bs
  have hkind : ts.kind front.length = .kwExport := hleads.kind.trans (by rw [hexport]; rfl)
  have hline : ∀ c ∈ bs.tail, '\n' ∉ c.gap := fun c hc =>
    l.oneLine c (by rw [hbits]; exact List.mem_of_mem_tail hc)
  -- the declaration behind the word
  obtain ⟨place, htokens, -⟩ := exists_stream bs
    (pos + byteLength b.gap + byteLength b.word.text) (front.length + 1) false
  rw [htail] at htokens
  have hdrop : ts.drop (front.length + 1) = stream place (front.length + 1)
      (.of .kwConst :: tailWords name value l.semicolon) ++ rest := by
    rw [← htokens, ← hlength]
    conv_lhs => rw [hleads.split]
    exact List.drop_left
  have hreads : Reads place ts (front.length + 1)
      (.of .kwConst :: tailWords name value l.semicolon) := ⟨rest, hdrop⟩
  have hconst : ts.kind (front.length + 1) = .kwConst := hreads.kind
  obtain ⟨draft₁, hwalk₁, hready₁, hedits₁⟩ := walk_exportWord hgoal
    (by simp [Emit.beginsExport, hkind, hstart, hdepth]) (by rw [hconst]; rfl) hleads.le_last hready
  rw [← hlength] at hwalk₁ hready₁
  obtain ⟨hpast, draft₂, hwalk₂, hready₂, hedits₂⟩ :=
    walk_definition hstatement htail hline htouch hleads.split hfollows hready₁
  rw [hend, ← hbits] at hpast hwalk₂ hready₂
  rw [hlength] at hpast
  -- where the edits are made
  have hnames : Emit.exportedNames ts front.length = [name.text] := by
    refine exportedNames_constant hdrop ?_
    have hcount := congrArg List.length htail
    rw [List.length_map, List.length_cons] at hcount
    rw [hpast, hbits, List.length_cons, hcount]
    omega
  have hlastOf : Emit.lastOf ts front.length = front.length + l.bits.length - 1 := by
    rw [Emit.lastOf, hpast]
  obtain ⟨-, hstop⟩ := span_line (hbits ▸ hts)
  have herased : isErased b.word = true := by rw [hexport]; rfl
  rw [← hbits] at hstop
  refine ⟨draft₂, hwalk₁.trans hwalk₂, hready₂, ?_⟩
  rw [Line.edits, hstatement, hedits₂, hedits₁, hnames, hlastOf, hstop, hleads.startOf,
    hleads.stopOf, hbits, erasures, herased]
  refine ((List.reverse_perm _).append_right _).trans ?_
  refine ((List.Perm.swap ..).append_left _).trans (List.perm_middle.trans ?_)
  simp [Line.text, hbits, assignment]

/-- A constant is left, and behind an exported one an assignment is inserted. -/
theorem walk_constant (hgoal : goal.commonJs = true) {l : Line} {exported : Bool} {name : Ident}
    {value : Value} (hstatement : l.statement = .constant exported name value)
    (htouch : ∀ b ∈ l.bits, b.word = mark → b.gap = []) {lineBefore : Bool}
    (hts : ts = front ++ (tokensOf pos lineBefore l.bits ++ rest)) (hfollows : Follows l rest)
    (hstart : ts.startsStatement front.length = true) (hdepth : Emit.depthAt ts front.length = 0)
    (hready : Ready ts draft front.length) :
    ∃ draft', Emit.walk goal ts draft front.length =
        Emit.walk goal ts draft' (front.length + l.bits.length) ∧
      Ready ts draft' (front.length + l.bits.length) ∧
      draft'.edits.Perm (l.edits pos ++ draft.edits) := by
  have hwords := l.words_bits
  rw [hstatement] at hwords
  cases exported with
  | false =>
    obtain ⟨-, draft', hwalk, hready', hedits⟩ :=
      walk_definition hstatement hwords l.oneLine htouch hts hfollows hready
    refine ⟨draft', hwalk, hready', ?_⟩
    rw [hedits, Line.edits, hstatement]
    simpa using (List.reverse_perm _).append_right _
  | true =>
    cases hbits : l.bits with
    | nil =>
      rw [hbits] at hwords
      cases hwords
    | cons b bs =>
      rw [hbits] at hwords htouch
      obtain ⟨hexport, htail⟩ := List.cons.inj hwords
      rw [← hbits]
      exact walk_exported hgoal hstatement hbits hexport htail
        (fun c hc => htouch c (List.mem_cons_of_mem b hc)) hts hfollows hstart hdepth hready

/-- **Over a line the walk makes the edits of that line.** -/
theorem walk_line (hgoal : goal.commonJs = true) {l : Line} {behind : List Char}
    (hfits : l.Fits behind) {lineBefore : Bool}
    (hts : ts = front ++ (tokensOf pos lineBefore l.bits ++ rest)) (hfollows : Follows l rest)
    (hstart : ts.startsStatement front.length = true) (hdepth : Emit.depthAt ts front.length = 0)
    (hready : Ready ts draft front.length) :
    ∃ draft', Emit.walk goal ts draft front.length =
        Emit.walk goal ts draft' (front.length + l.bits.length) ∧
      Ready ts draft' (front.length + l.bits.length) ∧
      draft'.edits.Perm (l.edits pos ++ draft.edits) := by
  cases hstatement : l.statement with
  | typeAlias name type =>
    obtain ⟨b, bs, hbits⟩ : ∃ b bs, l.bits = b :: bs := by
      have hlength := length_bits l
      cases hbits : l.bits with
      | nil => simp [hbits, Line.words, hstatement, Statement.words] at hlength
      | cons b bs => exact ⟨b, bs, rfl⟩
    obtain ⟨draft', hwalk, hready', hedits⟩ := @walk_alias goal ts front rest pos draft l name type
      hstatement b bs hbits lineBefore hts hfollows hstart hready
    refine ⟨draft', hwalk, hready', ?_⟩
    rw [hedits, Line.edits, hstatement, Line.lead, hbits]
    exact .refl _
  | constant exported name value =>
    rw [Line.Fits, hstatement] at hfits
    exact walk_constant hgoal hstatement hfits.2 hts hfollows hstart hdepth hready

end

/-! ## The code of a line -/

/-- What is left of a line: what stands before a type alias and the line breaks in it, or a constant
without the words that are erased. -/
def Line.code (l : Line) : List Char := match l.statement with
  | .typeAlias .. => l.lead ++ List.replicate (lineBreaks (l.text.drop l.lead.length)) '\n'
  | .constant exported name _ => codeOf l.bits ++ if exported then assignment name else []

end TypeScriptEngine.Seam
