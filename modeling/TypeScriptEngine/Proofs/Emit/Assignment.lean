import TypeScriptEngine.Proofs.Emit.Exports

/-! # Assignments behind a declaration

Without ES modules the word `export` before a declaration of variables is erased, and assignments to
`exports` are inserted at the end of the last token of the declaration, whatever that is
(`last_token_before_assignments`).  So they begin a statement if the declaration ends in a semicolon;
a line break that ends it comes too late (`assignments_after_line_break`).
-/

namespace TypeScriptEngine

open TypeScriptEngine.Text

/-! ## Semicolons -/

namespace Lexeme

theorem next_semicolon (st : ScanState) (rest : List Char) :
    next st ';' rest = ⟨.token .semicolon, 0⟩ := by
  have hlong : ∀ op ∈ longOperators, op.1.head? ≠ some ';' := by decide
  have hpunctuation : punctuation ';' rest = ⟨.token .semicolon, 0⟩ :=
    punctuation_of_single (.inl (by decide)) fun op hop hhead => absurd hhead (hlong op hop)
  rw [next_eq_token (by decide) (by decide), token, if_neg (by decide), if_neg (by decide),
    if_neg (by simp), if_neg (by simp +decide), if_neg (by simp), if_neg (by decide), hpunctuation]

theorem eq_of_ofCharacter_semicolon {c : Char} (h : ofCharacter c = .semicolon) : c = ';' := by
  unfold ofCharacter at h
  split at h <;> first | rfl | contradiction

theorem punctuation_semicolon {c : Char} {rest : List Char}
    (h : (punctuation c rest).kind = .token .semicolon) : c = ';' := by
  have hlong : ∀ op ∈ longOperators, op.2 ≠ .semicolon := by decide
  unfold punctuation at h
  split at h
  · contradiction
  · split at h
    · rename_i hfind
      exact absurd (PieceKind.token.inj h) (hlong _ (List.mem_of_find?_eq_some hfind))
    · exact eq_of_ofCharacter_semicolon (PieceKind.token.inj h)

theorem token_semicolon {st : ScanState} {c : Char} {rest : List Char} :
    (token st c rest).kind = .token .semicolon → c = ';' :=
  token_cases (P := fun l => l.kind = .token .semicolon → c = ';')
    (fun _ h => absurd h (bounded_ne (by decide) (by decide) _))
    (fun _ h => absurd h (template_ne (by decide) _ _))
    (fun _ h => absurd h (template_ne (by decide) _ _)) (fun _ h => by cases h)
    (fun h => absurd h (bounded_ne (by decide) (by decide) _))
    (fun _ h => absurd (PieceKind.token.inj h) (TokenKind.ofWord_ne (by decide) (by decide) _))
    fun _ => punctuation_semicolon

/-- Nothing but a semicolon is of the kind of semicolons. -/
theorem eq_of_next_semicolon {st : ScanState} {c : Char} {rest : List Char} :
    (next st c rest).kind = .token .semicolon → c = ';' :=
  next_cases (P := fun l => l.kind = .token .semicolon → c = ';') (fun _ h => by cases h)
    (fun _ _ _ h => by cases h) (fun _ _ _ _ h => by cases h) (fun h => by cases h)
    token_semicolon

end Lexeme

theorem semicolon_iff_of_mem_pieces {st : ScanState} {cs : List Char} {p : Piece}
    (hp : p ∈ pieces st cs) : p.kind = .token .semicolon ↔ p.text = [';'] := by
  obtain ⟨st, c, rest, rfl⟩ := exists_next_of_mem_pieces hp
  constructor
  · intro h
    obtain rfl := Lexeme.eq_of_next_semicolon h
    simp [Lexeme.next_semicolon]
  · intro h
    obtain rfl : c = ';' := (List.cons.inj h).1
    exact congrArg Lexeme.kind (Lexeme.next_semicolon st rest)

/-- **A token is a semicolon just if its text is one.** -/
theorem Scan.semicolon_iff {text : String} {t : Token} (ht : t ∈ (Scan.ofText text).tokens) :
    t.kind = .semicolon ↔ t.source = ";" := by
  rcases piece_of_mem ht with ⟨hkind, hsource⟩ | hp
  · rw [hkind, hsource]
    exact iff_of_false (fun h => by cases h) (by decide)
  · have hiff := semicolon_iff_of_mem_pieces hp
    rw [PieceKind.token.injEq] at hiff
    exact hiff.trans (@String.toList_inj t.source ";")

namespace Emit

open TokenStream

variable {goal : Goal} {text : String} {ts : TokenStream} {d : Draft} {i : Nat}

/-! ## Exported variables -/

/-- The walk comes to the word `export` of a declaration of variables. -/
structure ExportsVariables (goal : Goal) (ts : TokenStream) (i : Nat) : Prop where
  visited : ∃ d, Visits goal ts d i
  begins : beginsExport ts i = true
  declares : (ts.kind (i + 1)).isVariableWord = true

/-- The last token of the declaration that is exported at `i`. -/
def lastOf (ts : TokenStream) (i : Nat) : Nat := ts.pastStatement (i + 1) - 1

/-- The names that are exported with the declaration at `i`. -/
def exportedNames (ts : TokenStream) (i : Nat) : List String :=
  (Binding.ofStatement (ts.drop (i + 1))).map Binding.name

/-- Assignments that export variables. -/
def assignments (names : List String) : String :=
  String.join (names.map fun name => " " ++ exportAs name name)

/-- **The export of variables erases its word and inserts assignments.** -/
theorem visit_exported (hgoal : goal.commonJs = true) (hbegins : beginsExport ts i = true)
    (hword : (ts.kind (i + 1)).isVariableWord = true) : visit goal ts d i =
      ⟨[.erase i (i + 1), .insertAfter (lastOf ts i) (assignments (exportedNames ts i))], i + 1⟩ := by
  have hkinds : ts.kind (i + 1) = .kwVar ∨ ts.kind (i + 1) = .kwLet ∨ ts.kind (i + 1) = .kwConst := by
    revert hword
    cases ts.kind (i + 1) <;> simp [TokenKind.isVariableWord]
  rw [visit_of_beginsExport hbegins, exportDeclaration]
  rcases hkinds with hkind | hkind | hkind <;>
    simp [typeExportEnd?, functionWord?, hkind, hgoal, exportCommonJs, lastOf, assignments,
      exportedNames]

/-- A declaration has a last token. -/
theorem lastOf_lt_length (hword : (ts.kind (i + 1)).isVariableWord = true) :
    lastOf ts i < ts.length := by
  have hle : ∀ (depth : Nat) (rest : TokenStream), statementLength depth rest ≤ rest.length := by
    intro depth rest
    induction rest generalizing depth with
    | nil => exact Nat.le_refl 0
    | cons t rest ih =>
      have := ih (depthAfter depth t.kind)
      rw [statementLength, List.length_cons]
      repeat' split
      all_goals omega
  have hlt : i + 1 < ts.length := lt_length_of_kind fun h => by simp [h, TokenKind.isVariableWord] at hword
  have := hle 0 (ts.drop (i + 1))
  rw [List.length_drop] at this
  rw [lastOf, pastStatement]
  omega

/-- **What the export of variables inserts** are its assignments, at the end of its last token. -/
theorem ExportsVariables.exportedAt_eq (hgoal : goal.commonJs = true)
    (h : ExportsVariables goal ts i) :
    exportedAt goal ts (ts.stopOf (lastOf ts i)) i = (assignments (exportedNames ts i)).toList := by
  have hvisit := visit_exported (d := .empty ts) hgoal h.begins h.declares
  rw [visit_of_beginsExport h.begins] at hvisit
  unfold exportedAt
  refine (congrArg (fun step => changesAt ts _ (Step.changes step)) hvisit).trans ?_
  simp [Change.insertedAt]

/-- **Behind the export of variables stand its assignments,** between those of other exports that end at
the same place. -/
theorem ExportsVariables.insertedAmid (hgoal : goal.commonJs = true)
    (h : ExportsVariables goal (Scan.ofText text).tokens i) :
    let ts : TokenStream := (Scan.ofText text).tokens
    InsertedAmid goal ts (ts.stopOf (lastOf ts i)) i (assignments (exportedNames ts i)).toList := by
  intro ts
  obtain ⟨d, hvisits⟩ := h.visited
  have hplace : 0 < ts.stopOf (lastOf ts i) := by
    have hwidth := startOf_lt_stopOf (Scan.kind_ne_eof hvisits.lt_last)
    have hlast : i ≤ lastOf ts i := by
      have hpast := le_pastStatement ts (i + 1)
      rw [lastOf]
      omega
    have hle : ts.stopOf i ≤ ts.stopOf (lastOf ts i) :=
      stopOf_le_stopOf hlast (lastOf_lt_length h.declares)
    exact (Nat.zero_lt_of_lt hwidth).trans_le hle
  rw [← h.exportedAt_eq hgoal]
  exact hvisits.insertedAmid h.begins hplace

/-- In a text with one export no other one inserts anything. -/
theorem InsertsAt.eq_of_only {p k : Nat} (honly : ∀ j < ts.length, beginsExport ts j = true → j = k)
    (h : InsertsAt goal ts p i) : i = k :=
  honly i h.lt_length h.begins

/-- **What stands directly before the assignments that export variables.**  At the end of the last token
of the declaration, over which no edit reaches, the code divides: the code of the text up to there, what
is inserted there, and the code of the rest.  What is inserted are the assignments, between what exports
before and behind the declaration insert at the same place, and it begins with them if none before it
does.  The code up to there ends with the last token if the walk leaves it; and that is a semicolon just
if its text is one. -/
theorem last_token_before_assignments {goal : Goal} (hgoal : goal.commonJs = true) (text : String)
    {i : Nat} (hexport : ExportsVariables goal (Scan.ofText text).tokens i)
    (huncrossed : Uncrossed goal (Scan.ofText text).tokens
      (stopOf (Scan.ofText text).tokens (lastOf (Scan.ofText text).tokens i))) :
    let ts : TokenStream := (Scan.ofText text).tokens
    let last := lastOf ts i
    let place := ts.stopOf last
    (∃ front rest, text.toList = front ++ rest ∧ byteLength front = place ∧
      program goal ts text.toList = codeOfFront goal ts front ++
        (insertedAt goal ts place ++ codeOfRest goal ts place rest) ∧
      (Leaves goal ts last →
        ∃ before, codeOfFront goal ts front = before ++ (ts.source last).toList)) ∧
    InsertedAmid goal ts place i (assignments (exportedNames ts i)).toList ∧
    ((∀ j < i, ¬ InsertsAt goal ts place j) →
      (assignments (exportedNames ts i)).toList <+: insertedAt goal ts place) ∧
    (ts.source last = ";" ↔ ts.kind last = .semicolon) := by
  intro ts last place
  have hlast : last < ts.length := lastOf_lt_length hexport.declares
  have hamid := hexport.insertedAmid hgoal
  refine ⟨?_, hamid, hamid.own_prefix, ?_⟩
  · obtain ⟨front, rest, htext, hfront, hprogram⟩ := program_behind huncrossed
    exact ⟨front, rest, htext, hfront, hprogram,
      fun hleft => codeOfFront_of_left hlast hleft htext hfront⟩
  · have hget : ts[last]? = some ts[last] := List.getElem?_eq_getElem hlast
    rw [TokenStream.source, TokenStream.kind, hget]
    exact (Scan.semicolon_iff (List.getElem_mem hlast)).symm

/-- An exported declaration with its semicolon. -/
def endedExport : String := "export const a = 1, b = a;\n"

set_option maxRecDepth 4096 in
theorem last_token_before_assignments_endedExport :
    let goal := Goal.of .commonJs .es5
    let ts : TokenStream := (Scan.ofText endedExport).tokens
    let place := ts.stopOf (lastOf ts 0)
    ExportsVariables goal ts 0 ∧ Uncrossed goal ts place ∧ exportedNames ts 0 = ["a", "b"] ∧
    ∃ front rest before, endedExport.toList = front ++ rest ∧ byteLength front = place ∧
      codeOfFront goal ts front = before ++ [';'] ∧
      program goal ts endedExport.toList = before ++ ';' ::
        ((assignments (exportedNames ts 0)).toList ++ codeOfRest goal ts place rest) := by
  intro goal ts place
  have hexport : ExportsVariables goal ts 0 :=
    ⟨⟨_, .first, by decide +kernel, by decide +kernel⟩, by decide +kernel, by decide +kernel⟩
  have hleaves : Leaves goal ts (lastOf ts 0) := by decide +kernel
  have huncrossed : Uncrossed goal ts place :=
    uncrossed_of_left (lastOf_lt_length hexport.declares) hleaves
  obtain ⟨⟨front, rest, htext, hfront, hprogram, hleft⟩, hamid, -, hsemicolon⟩ :=
    last_token_before_assignments rfl endedExport hexport huncrossed
  have hinserted := hamid.insertedAt_eq fun j => InsertsAt.eq_of_only (by decide +kernel)
  obtain ⟨before, hbefore⟩ := hleft hleaves
  rw [hsemicolon.mpr (by decide +kernel)] at hbefore
  refine ⟨hexport, huncrossed, by decide +kernel, front, rest, before, htext, hfront, hbefore, ?_⟩
  rw [hprogram, hbefore, hinserted, List.append_assoc]
  rfl

set_option maxRecDepth 4096 in
/-- **Behind a declaration that a line break ends no semicolon stands before the assignments.** -/
theorem assignments_after_line_break :
    let text := "export const a = 1\nexport const b = 2\n"
    program (.of .commonJs .es5) (Scan.ofText text).tokens text.toList = moduleMarker.toList ++
      " const a = 1 exports.a = a;\n const b = 2 exports.b = b;\n".toList := by
  intro text
  rw [program_of_sorted (by decide +kernel)]
  decide +kernel

end Emit

end TypeScriptEngine
