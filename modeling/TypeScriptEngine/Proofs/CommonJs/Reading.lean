import TypeScriptEngine.Emit.Export
import TypeScriptEngine.Proofs.CommonJs.Declaration
import TypeScriptEngine.Proofs.Token.Balance

/-! # Reading imports and exports

The parts of a declaration are found in the tokens by looking at few words each.  What is found is
what the tree says, whichever names stand there (`values_list`, `ImportClause.read_declaration`), and
the statement ends at its semicolon if no line break comes before a tied atom
(`pastStatement_declaration`).  So the text that takes the place of a declaration is that of its
`code` (`importDeclaration_eq`, `exportDeclaration_eq`).
-/

namespace TypeScriptEngine.ModuleSyntax

open TokenStream CommonJs
open Emit (Goal Step Change ImportClause)

variable {place : Nat → TokenPlace} {ts : TokenStream} {k : Nat} {w : Word} {ws : List Word}

/-! ## Entries -/

theorem Name.kind_ne (n : Name) {kind : TokenKind} (hidentifier : .identifier ≠ kind)
    (hwords : ∀ w ∈ TokenKind.ownWords, w.2 ≠ kind) : n.atom.kind ≠ kind :=
  TokenKind.ofWord_ne hidentifier hwords _

theorem Specifier.kind_ne_comma (s : Specifier) : ∀ a ∈ s.atoms, a.kind ≠ .comma :=
  @Specifier.forall_kind (· ≠ .comma) (fun n => n.kind_ne (by decide) (by decide)) (by decide)
    (by decide) s

theorem Name.value_atom (n : Name) : n.atom.toWord.value = n.text := by
  change Piece.value n.atom.kind n.letters.text = _
  unfold Piece.value
  split
  · exact absurd ‹_› (n.kind_ne (by decide) (by decide))
  · rename_i cause hkind
    exact absurd hkind (n.kind_ne (by cases cause <;> decide) (by cases cause <;> decide))
  · rfl

/-- The next comma is behind atoms that are none. -/
theorem nextComma_append {as : List Atom} {close : Nat} (has : ∀ a ∈ as, a.kind ≠ .comma)
    (h : Reads place ts k (Atom.words as ++ w :: ws)) (hle : k + as.length ≤ close)
    (hend : w.kind = .comma ∨ k + as.length = close) :
    Emit.Specifier.nextComma ts k close = k + as.length := by
  induction as generalizing k with
  | nil =>
    rw [Emit.Specifier.nextComma, if_neg]
    · rfl
    · rintro ⟨hlt, hne⟩
      rcases hend with hend | hend
      · exact hne (h.kind.trans hend)
      · exact absurd hend (Nat.ne_of_lt hlt)
  | cons a as ih =>
    obtain ⟨ha, has⟩ := List.forall_mem_cons.mp has
    rw [List.length_cons, Nat.add_comm as.length, ← Nat.add_assoc] at hle hend ⊢
    rw [Emit.Specifier.nextComma, if_pos ⟨by omega, by rw [h.kind]; exact ha⟩]
    exact ih has h.tail hle hend

theorem values_cons (e : Emit.Specifier) (es : List Emit.Specifier) :
    Emit.Specifier.values ts (e :: es) =
      (if e.typeOnly then [] else [(ts.value e.name, ts.value (e.alias?.getD e.name))]) ++
        Emit.Specifier.values ts es := by
  cases htype : e.typeOnly <;> simp [Emit.Specifier.values, htype]

/-- The first entry of a list is read as it was written. -/
theorem values_ofRange (s : Specifier) (h : Reads place ts k (Atom.words s.atoms ++ w :: ws))
    (hw : w.kind ≠ .kwAs) (close : Nat) (specifiers : List Emit.Specifier) :
    Emit.Specifier.values ts
        (.ofRange ts k (k + s.atoms.length) close :: specifiers) =
      (if s.typeOnly then [] else [s.pair]) ++ Emit.Specifier.values ts specifiers := by
  obtain ⟨typeOnly, name, alias?⟩ := s
  simp only [values_cons, Emit.Specifier.ofRange, Nat.add_sub_cancel_left]
  rcases typeOnly with _ | _ <;> rcases alias? with _ | other
  case false.none =>
    have hbehind : ts.kind (k + 1) ≠ .kwAs := h.tail.kind.symm ▸ hw
    have hvalue : ts.value k = name.text := h.value.trans name.value_atom
    simp [Specifier.atoms, typeMark, aliasAtoms, Specifier.pair, hbehind, hvalue]
  case false.some =>
    have hbehind : ts.kind (k + 1) = .kwAs := h.tail.kind
    have hvalue : ts.value k = name.text := h.value.trans name.value_atom
    have hother : ts.value (k + 2) = other.text := h.tail.tail.value.trans other.value_atom
    simp [Specifier.atoms, typeMark, aliasAtoms, Specifier.pair, hbehind, hvalue, hother]
  -- the word `type` is a mark if two or four words stand there
  all_goals
    have htype : ts.kind k = .kwType := h.kind
    simp [Specifier.atoms, typeMark, aliasAtoms, htype]

theorem list_of_le {close : Nat} (h : close ≤ k) : Emit.Specifier.list ts k close = [] := by
  rw [Emit.Specifier.list, if_neg (Nat.not_lt.mpr h)]

/-- The entries of a list are read one after the other. -/
theorem values_list_step (s : Specifier) {close : Nat}
    (h : Reads place ts k (Atom.words s.atoms ++ w :: ws)) (hw : w.kind ≠ .kwAs)
    (hle : k + s.atoms.length ≤ close) (hend : w.kind = .comma ∨ k + s.atoms.length = close) :
    Emit.Specifier.values ts (Emit.Specifier.list ts k close) =
      (if s.typeOnly then [] else [s.pair]) ++
        Emit.Specifier.values ts (Emit.Specifier.list ts (k + s.atoms.length + 1) close) := by
  have hlength : 0 < s.atoms.length := by
    rw [Specifier.atoms, List.length_append, List.length_cons]
    omega
  rw [Emit.Specifier.list, if_pos (by omega)]
  simp only [nextComma_append s.kind_ne_comma h hle hend]
  rw [if_pos (by omega), values_ofRange s h hw]

theorem NamedList.values_cons (s : Specifier) (ss : List Specifier) (trailingComma : Bool) :
    NamedList.values ⟨s :: ss, trailingComma⟩ =
      (if s.typeOnly then [] else [s.pair]) ++ NamedList.values ⟨ss, trailingComma⟩ := by
  cases htype : s.typeOnly <;> simp [NamedList.values, htype]

/-- **The values of a list are read as they were written.** -/
theorem values_list (l : NamedList) (h : Reads place ts k (Atom.words l.inner ++ w :: ws))
    (hw : w.kind = .rbrace) :
    Emit.Specifier.values ts (Emit.Specifier.list ts k (k + l.inner.length)) = l.values := by
  obtain ⟨specifiers, trailingComma⟩ := l
  induction specifiers generalizing k with
  | nil =>
    cases trailingComma with
    | false =>
      change Emit.Specifier.values ts (Emit.Specifier.list ts k k) = []
      rw [list_of_le (Nat.le_refl k)]
      rfl
    | true =>
      have hcomma : ts.kind k = .comma := h.kind
      have hnext : Emit.Specifier.nextComma ts k (k + 1) = k := by
        rw [Emit.Specifier.nextComma, if_neg (by simp [hcomma])]
      change Emit.Specifier.values ts (Emit.Specifier.list ts k (k + 1)) = []
      rw [Emit.Specifier.list, if_pos (Nat.lt_succ_self k)]
      simp only [hnext]
      rw [if_neg (Nat.lt_irrefl k), list_of_le (Nat.le_refl _)]
      rfl
  | cons s ss ih =>
    rw [NamedList.values_cons]
    cases ss with
    | nil =>
      cases trailingComma with
      | false =>
        have hinner : NamedList.inner ⟨[s], false⟩ = s.atoms := by simp [NamedList.inner]
        rw [hinner] at h ⊢
        rw [values_list_step s h (hw ▸ by decide) (Nat.le_refl _) (.inr rfl),
          list_of_le (Nat.le_succ _)]
        rfl
      | true =>
        have hinner : NamedList.inner ⟨[s], true⟩ = s.atoms ++ [.sign .comma] := by
          simp [NamedList.inner]
        rw [hinner, Atom.words_append, List.append_assoc] at h
        rw [hinner, List.length_append, List.length_singleton, ← Nat.add_assoc,
          values_list_step s h (by decide) (Nat.le_succ _) (.inl rfl), list_of_le (Nat.le_refl _)]
        rfl
    | cons s' ss =>
      have hinner : NamedList.inner ⟨s :: s' :: ss, trailingComma⟩ =
          s.atoms ++ .sign .comma :: NamedList.inner ⟨s' :: ss, trailingComma⟩ := by
        simp [NamedList.inner, List.intercalate_cons_cons]
      rw [hinner, Atom.words_append, List.append_assoc] at h
      rw [hinner, List.length_append, List.length_cons, Nat.add_comm _ 1, ← Nat.add_assoc,
        ← Nat.add_assoc, values_list_step s h (by decide) (by omega) (.inl rfl),
        ih (Atom.length_words s.atoms ▸ h.right.tail)]

/-! ## Imports -/

/-- Neither an opening nor a closing bracket. -/
def NoBracket (k : TokenKind) : Prop := k.isOpener = false ∧ k.isCloser = false

theorem Name.noBracket (n : Name) : NoBracket n.atom.kind :=
  @TokenKind.ofWord_all NoBracket ⟨rfl, rfl⟩ (by unfold NoBracket; decide) _

theorem balanced_words {as : List Atom} (h : ∀ a ∈ as, NoBracket a.kind) :
    Balanced (Atom.words as) := by
  induction as with
  | nil => exact .nil
  | cons a as ih =>
    obtain ⟨ha, has⟩ := List.forall_mem_cons.mp h
    exact .plain ha.1 ha.2 (ih has)

theorem NamedList.balanced_inner (l : NamedList) : Balanced (Atom.words l.inner) :=
  balanced_words (@NamedList.forall_kind NoBracket Name.noBracket ⟨rfl, rfl⟩ ⟨rfl, rfl⟩ ⟨rfl, rfl⟩ l)

/-- A list is closed by its own brace. -/
theorem matching?_list (l : NamedList) (h : Reads place ts k (Atom.words l.atoms ++ ws)) :
    ts.matching? k = some (k + 1 + l.inner.length) := by
  rw [NamedList.atoms, Atom.words_cons, Atom.words_append, List.cons_append, List.append_assoc] at h
  have hclose := matching?_eq (o := (Atom.sign .lbrace).toWord) rfl l.balanced_inner h
  rwa [Atom.length_words] at hclose

theorem values_braces (l : NamedList) (h : Reads place ts k (Atom.words l.atoms ++ ws)) :
    Emit.Specifier.values ts (Emit.Specifier.list ts (k + 1) (k + 1 + l.inner.length)) =
      l.values := by
  rw [NamedList.atoms, Atom.words_cons, Atom.words_append, List.cons_append, List.append_assoc] at h
  exact values_list l h.tail rfl

/-- The clause that names a module is found. -/
theorem isFromClause_eq {source : StringLiteral}
    (h : Reads place ts k (Atom.words ((fromSlots source).map Slot.atom) ++ ws)) :
    ImportClause.isFromClause ts k = true ∧ ts.source (k + 1) = source.written ∧
      ts.value (k + 1) = source.specifier := by
  refine ⟨?_, h.tail.source, h.tail.value⟩
  have hfrom : ts.kind k = .kwFrom := h.kind
  have hstring : ts.kind (k + 1) = .stringLiteral := h.tail.kind
  rw [ImportClause.isFromClause, hfrom, hstring]
  rfl

/-- The parts of an import behind the default name. -/
def readOthers (ts : TokenStream) (default? : Option Nat) (k stop : Nat) : ImportClause :=
  let (whole?, k) :=
    if ts.kind k = .star ∧ ts.kind (k + 1) = .kwAs then (some (k + 2), k + 3) else (none, k)
  let (specifiers, k) :=
    if ts.kind k = .lbrace then
      let close := (ts.matching? k).getD stop
      (Emit.Specifier.list ts (k + 1) close, close + 1)
    else ([], k)
  ⟨default?, whole?, specifiers, if ImportClause.isFromClause ts k then some (k + 1) else none⟩

theorem read_of_name {stop : Nat} (hname : (ts.kind k).isName = true)
    (hfrom : ImportClause.isFromClause ts k = false) : ImportClause.read ts k stop =
      readOthers ts (some k) (if ts.kind (k + 1) = .comma then k + 2 else k + 1) stop := by
  have hstring : ts.kind k ≠ .stringLiteral := by
    intro h
    rw [h] at hname
    contradiction
  rw [ImportClause.read, if_neg hstring, hname, hfrom]
  rfl

theorem read_of_not_name {stop : Nat} (hname : (ts.kind k).isName = false)
    (hstring : ts.kind k ≠ .stringLiteral) :
    ImportClause.read ts k stop = readOthers ts none k stop := by
  rw [ImportClause.read, if_neg hstring, hname]
  rfl

/-- What was found of an import is what it binds. -/
structure Finds (ts : TokenStream) (clause : ImportClause) (imported : Imported)
    (source : StringLiteral) : Prop where
  default : clause.default?.map ts.value = imported.default?
  whole : clause.whole?.map ts.value = imported.whole?
  values : Emit.Specifier.values ts clause.specifiers = imported.values
  source : ∃ j, clause.source? = some j ∧ ts.source j = source.written ∧
    ts.value j = source.specifier

theorem readOthers_finds {source : StringLiteral} (default? : Option LocalName)
    (others? : Option Bindings) {found? : Option Nat} {stop : Nat}
    (hdefault : found?.map ts.value = default?.map fun n => n.name.text)
    (h : Reads place ts k (Atom.words ((others?.elim [] Bindings.atoms) ++
      (fromSlots source).map Slot.atom) ++ ws)) :
    Finds ts (readOthers ts found? k stop) (imported default? others?) source := by
  rw [Atom.words_append, List.append_assoc] at h
  cases others? with
  | none =>
    have hkind : ts.kind k = .kwFrom := h.kind
    obtain ⟨hfrom, hsource⟩ := isFromClause_eq h
    simp only [readOthers, hkind, hfrom, reduceCtorEq, false_and, if_false, if_true]
    exact ⟨hdefault, rfl, rfl, _, rfl, hsource⟩
  | some others =>
    cases others with
    | whole name =>
      have hstar : ts.kind k = .star := h.kind
      have has : ts.kind (k + 1) = .kwAs := h.tail.kind
      have hname : ts.value (k + 2) = name.text := h.tail.tail.value.trans name.value_atom
      have hkind : ts.kind (k + 3) = .kwFrom := h.tail.tail.tail.kind
      obtain ⟨hfrom, hsource⟩ := isFromClause_eq h.tail.tail.tail
      simp only [readOthers, hstar, has, hkind, hfrom, reduceCtorEq, and_self, if_false, if_true]
      exact ⟨hdefault, congrArg some hname, rfl, _, rfl, hsource⟩
    | named list =>
      have hbrace : ts.kind k = .lbrace := h.kind
      have hclose := matching?_list list h
      obtain ⟨hfrom, hsource⟩ := isFromClause_eq h.right
      have hlength : k + (Atom.words list.atoms).length = k + 1 + list.inner.length + 1 := by
        simp [NamedList.atoms]
        omega
      change ImportClause.isFromClause ts (k + (Atom.words list.atoms).length) = true at hfrom
      rw [hlength] at hfrom
      simp only [readOthers, hbrace, hclose, hfrom, Option.getD_some, reduceCtorEq, false_and, if_false, if_true]
      refine ⟨hdefault, rfl, values_braces list h, _, rfl, ?_⟩
      rw [← hlength]
      exact hsource

theorem Bindings.map_slots (b : Bindings) : b.slots.map Slot.atom = b.atoms := by
  cases b with
  | whole name => rfl
  | named list => simp [slots, atoms, Slot.free, Function.comp_def]

section

variable {default? : Option LocalName} {others? : Option Bindings} {source : StringLiteral}

theorem isFromClause_of_ne (h : ts.kind (k + 1) ≠ .stringLiteral) :
    ImportClause.isFromClause ts k = false := by
  simp [ImportClause.isFromClause, h]

theorem atoms_others (others : Bindings) :
    (Declaration.imports none (some others) source).atoms =
      Keyword.kwImport.atom :: (others.atoms ++ (fromSlots source).map Slot.atom) := by
  rw [← others.map_slots, ← List.map_append]
  rfl

theorem atoms_both (n : LocalName) (others : Bindings) :
    (Declaration.imports (some n) (some others) source).atoms = Keyword.kwImport.atom ::
      n.name.atom :: .sign .comma :: (others.atoms ++ (fromSlots source).map Slot.atom) := by
  rw [← others.map_slots, ← List.map_append]
  rfl

/-- What an import binds besides a default begins with a sign. -/
theorem Bindings.kind_head (b : Bindings) (as : List Atom)
    (h : Reads place ts k (Atom.words (b.atoms ++ as) ++ ws)) :
    ts.kind k = .star ∨ ts.kind k = .lbrace := by
  cases b with
  | whole name => exact .inl h.kind
  | named list => exact .inr h.kind

/-- **The parts of an import are found,** whichever names stand there. -/
theorem read_finds (stop : Nat)
    (h : Reads place ts k (Atom.words (Declaration.imports default? others? source).atoms ++ ws)) :
    Finds ts (ImportClause.read ts (k + 1) stop) (imported default? others?) source := by
  rcases default? with _ | n <;> rcases others? with _ | others
  case none.none =>
    have hstring : ts.kind (k + 1) = .stringLiteral := h.tail.kind
    rw [ImportClause.read, if_pos hstring]
    exact ⟨rfl, rfl, rfl, k + 1, rfl, h.tail.source, h.tail.value⟩
  case some.none =>
    have hname : (ts.kind (k + 1)).isName = true := h.tail.kind ▸ n.isName
    have hnext : ts.kind (k + 1 + 1) = .kwFrom := h.tail.tail.kind
    have hvalue : ts.value (k + 1) = n.name.text := h.tail.value.trans n.name.value_atom
    rw [read_of_name hname (isFromClause_of_ne (by simp [hnext])), hnext, if_neg (by decide)]
    exact readOthers_finds (some n) none (congrArg some hvalue) h.tail.tail
  case none.some =>
    rw [atoms_others] at h
    have hhead := others.kind_head _ h.tail
    rw [read_of_not_name (by rcases hhead with hhead | hhead <;> rw [hhead] <;> rfl)
      (by rcases hhead with hhead | hhead <;> simp [hhead])]
    exact readOthers_finds none (some others) rfl h.tail
  case some.some =>
    rw [atoms_both] at h
    have hname : (ts.kind (k + 1)).isName = true := h.tail.kind ▸ n.isName
    have hnext : ts.kind (k + 1 + 1) = .comma := h.tail.tail.kind
    have hvalue : ts.value (k + 1) = n.name.text := h.tail.value.trans n.name.value_atom
    rw [read_of_name hname (isFromClause_of_ne (by simp [hnext])), if_pos hnext]
    exact readOthers_finds (some n) (some others) (congrArg some hvalue) h.tail.tail.tail

/-- An import is not one of types, and gives no name to a part of a namespace. -/
theorem isPlainImport
    (h : Reads place ts k (Atom.words (Declaration.imports default? others? source).atoms ++ ws)) :
    Emit.isTypeImport ts (k + 1) = false ∧
      ((ts.kind (k + 1)).isName && ts.kind (k + 2) == .equals) = false := by
  have hhead : ∀ {kind : TokenKind}, ts.kind (k + 1) = kind → kind ≠ .kwType →
      kind.isName = false → Emit.isTypeImport ts (k + 1) = false ∧
        ((ts.kind (k + 1)).isName && ts.kind (k + 2) == .equals) = false := by
    intro kind hkind htype hname
    simp [Emit.isTypeImport, hkind, htype, hname]
  rcases default? with _ | n <;> rcases others? with _ | others
  case none.none =>
    have hstring : ts.kind (k + 1) = .stringLiteral := h.tail.kind
    exact hhead hstring (by decide) rfl
  case some.none =>
    have hnext : ts.kind (k + 2) = .kwFrom := h.tail.tail.kind
    have hfrom : ImportClause.isFromClause ts (k + 1 + 1) = true := by
      obtain ⟨hfrom, _⟩ := @isFromClause_eq _ _ _ ws _ h.tail.tail
      exact hfrom
    simp [Emit.isTypeImport, hnext, hfrom]
  case none.some =>
    rw [atoms_others] at h
    rcases others.kind_head _ h.tail with hkind | hkind
    · exact hhead hkind (by decide) rfl
    · exact hhead hkind (by decide) rfl
  case some.some =>
    have hnext : ts.kind (k + 2) = .comma := h.tail.tail.kind
    simp [Emit.isTypeImport, hnext]

end

theorem text_evaluate (declarator : String) (e : Expr) :
    (Code.evaluate e).text declarator = e.text ++ ";" := rfl

theorem text_declare (goal : Goal) (n : String) (e : Expr) :
    (Code.declare [(n, e)]).text goal.declarator = Emit.declare goal n e.text := by
  simp [Code.text, Emit.declare, String.append_assoc]

theorem text_takeFrom {goal : Goal} {destructuring : Bool}
    (hgoal : goal.destructuring = destructuring) (names : List (String × String)) (e : Expr) :
    (Code.takeFrom destructuring names e).text goal.declarator =
      Emit.destructure goal names e.text := by
  have hopen : " \x7b " = " " ++ "\x7b " := rfl
  have hclose : " \x7d = " = " \x7d" ++ " = " := rfl
  cases destructuring with
  | false =>
    simp [Code.takeFrom, Code.text, Emit.destructure, hgoal, String.append_assoc,
      Function.comp_def, Expr.text]
  | true =>
    have hfield : Code.field = fun n => if n.1 = n.2 then n.1 else n.1 ++ ": " ++ n.2 := rfl
    simp only [Code.takeFrom, Code.text, Emit.destructure, hgoal, Emit.declare, if_true, hopen,
      hclose, hfield, String.append_assoc]

/-- The text for an import is that of its statements. -/
theorem requireStatements_eq {clause : ImportClause} {imported : Imported} {source : StringLiteral}
    {j : Nat} (goal : Goal) (temporary : String) (h : Finds ts clause imported source)
    (hj : ts.source j = source.written) :
    Emit.requireStatements goal ts clause j temporary =
      (Code.textOf goal.declarator
        (imported.code goal.destructuring source.written temporary),
        !imported.isDirect goal.destructuring) := by
  obtain ⟨hdefault, hwhole, hvalues, _⟩ := h
  obtain ⟨default?, whole?, specifiers, source?⟩ := clause
  obtain ⟨_, _, values⟩ := imported
  obtain rfl := hdefault
  obtain rfl := hwhole
  simp only at hvalues
  cases hgoal : goal.destructuring <;> rcases default? with _ | n <;>
    rcases whole? with _ | m <;> rcases values with _ | ⟨v, vs⟩ <;>
    simp [Emit.requireStatements, Imported.code, Imported.isDirect, Imported.parts, Imported.names,
      hvalues, hj, hgoal, Code.textOf, text_evaluate, text_declare, text_takeFrom hgoal, Expr.text,
      Emit.requireCall, String.append_assoc]

/-- What is proposed for a declaration whose statement reaches from `k` to `stop`. -/
def Declaration.step (goal : Goal) (d : Declaration) (temporaries k stop : Nat) : Step :=
  ⟨(if d.isDirect goal then [] else [.useTemporary]) ++
    [.replace k stop (Code.textOf goal.declarator (d.code goal (d.temporary temporaries)))], stop⟩

/-- **An import becomes its statements.** -/
theorem importDeclaration_eq {goal : Goal} (hgoal : goal.commonJs = true) (temporaries : Nat)
    {default? : Option LocalName} {others? : Option Bindings} {source : StringLiteral}
    (h : Reads place ts k (Atom.words (Declaration.imports default? others? source).atoms ++ ws)) :
    Emit.importDeclaration goal ts temporaries k =
      (Declaration.imports default? others? source).step goal temporaries k (ts.pastStatement k) := by
  obtain ⟨htype, hequals⟩ := isPlainImport h
  have hfinds := read_finds (ts.pastStatement k) h
  obtain ⟨j, hj, hwritten, hspecifier⟩ := hfinds.source
  unfold Emit.importDeclaration
  simp only [htype, hequals, hj, hgoal, hspecifier, requireStatements_eq goal _ hfinds hwritten,
    Bool.false_eq_true, if_false]
  rw [Declaration.step, Declaration.isDirect, Declaration.code, Declaration.temporary]
  cases Imported.isDirect _ _ <;> rfl

/-! ## Exports -/

theorem text_assign (declarator n : String) (e : Expr) :
    (Code.assign n e).text declarator = Emit.exportAs n e.text := rfl

/-- The text for an export list is that of its statements. -/
theorem exportListStatements_eq {values : List (String × String)} {source? : Option StringLiteral}
    {found? : Option Nat} (goal : Goal) (temporary : String)
    (h : found?.map ts.source = source?.map StringLiteral.written) :
    Emit.exportListStatements goal ts values found? temporary =
      (Code.textOf goal.declarator (exportCode values (source?.map StringLiteral.written) temporary),
        !isDirectExport values (source?.map StringLiteral.written)) := by
  rcases source? with _ | source <;> rcases found? with _ | j
  case none.none =>
    simp [Emit.exportListStatements, exportCode, isDirectExport, Code.textOf, Function.comp_def,
      text_assign, Expr.text]
  case some.some =>
    have hj : ts.source j = source.written := Option.some.inj h
    cases values <;>
      simp [Emit.exportListStatements, exportCode, isDirectExport, Code.textOf, Function.comp_def,
        text_assign, text_evaluate, text_declare, Expr.text, Emit.requireCall, hj,
        String.append_assoc]
  all_goals contradiction

theorem atoms_exports (list : NamedList) (source? : Option StringLiteral) :
    (Declaration.exports list source?).atoms =
      Keyword.kwExport.atom :: (list.atoms ++ (source?.elim [] fromSlots).map Slot.atom) := by
  simp [Declaration.atoms, Declaration.slots, Declaration.keyword, Slot.free, Function.comp_def]

/-- **An export list becomes its statements.** -/
theorem exportDeclaration_eq {goal : Goal} (hgoal : goal.commonJs = true) (temporaries : Nat)
    {list : NamedList} {source? : Option StringLiteral}
    (h : Reads place ts k (Atom.words (Declaration.exports list source?).atoms ++
      (Atom.sign .semicolon).toWord :: ws)) :
    Emit.exportDeclaration goal ts temporaries k =
      (Declaration.exports list source?).step goal temporaries k (ts.pastStatement k) := by
  rw [atoms_exports, Atom.words_cons, Atom.words_append, List.cons_append, List.append_assoc] at h
  have hbrace : ts.kind (k + 1) = .lbrace := h.tail.kind
  have hclose := matching?_list list h.tail
  have hvalues := values_braces list h.tail
  have hbehind := h.tail.right
  have hlength : k + 1 + (Atom.words list.atoms).length = k + 1 + 1 + list.inner.length + 1 := by
    simp [NamedList.atoms]
    omega
  rw [hlength] at hbehind
  have hnone : Emit.typeExportEnd? ts k = none ∧ Emit.functionWord? ts (k + 1) = none := by
    simp [Emit.typeExportEnd?, Emit.functionWord?, hbrace]
  -- the source is found, if there is one
  obtain ⟨found?, hfound, hwritten, hspecifier⟩ : ∃ found? : Option Nat,
      (if ImportClause.isFromClause ts (k + 1 + 1 + list.inner.length + 1) then
        some (k + 1 + 1 + list.inner.length + 2) else none) = found? ∧
      found?.map ts.source = source?.map StringLiteral.written ∧
      found?.elim "" ts.value = source?.elim "" StringLiteral.specifier := by
    cases source? with
    | none =>
      have hsemicolon : ts.kind (k + 1 + 1 + list.inner.length + 1) = .semicolon := hbehind.kind
      refine ⟨none, if_neg ?_, rfl, rfl⟩
      simp [ImportClause.isFromClause, hsemicolon]
    | some source =>
      obtain ⟨hfrom, hwritten, hspecifier⟩ := isFromClause_eq hbehind
      exact ⟨some _, if_pos hfrom, congrArg some hwritten, hspecifier⟩
  rw [Emit.exportDeclaration, hnone.1, hnone.2]
  simp only [Option.or_none, Option.bind_none, hgoal, if_true, Emit.exportCommonJs, hbrace,
    Emit.exportList, hclose, Option.getD_some, hvalues, hfound, hspecifier,
    exportListStatements_eq goal _ hwritten]
  rw [Declaration.step, Declaration.isDirect, Declaration.code, Declaration.temporary]
  cases isDirectExport _ _ <;> rfl

end TypeScriptEngine.ModuleSyntax
