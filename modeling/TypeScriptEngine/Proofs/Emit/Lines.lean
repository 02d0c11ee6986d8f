import TypeScriptEngine.Proofs.Emit.Copied
import TypeScriptEngine.Proofs.Emit.Walk
import TypeScriptEngine.Proofs.SourceMap.Decode
import TypeScriptEngine.Proofs.Token.Layout
import TypeScriptEngine.Service.Builtin

/-! # Emission line by line

The code of a text has its line breaks.  With ES modules each line of it comes from the line of the
same number by deleting characters, but for the word that begins an `import x = ...`.  Otherwise
line breaks can only come in with texts that are copied into a declaration that is rewritten.  So the
source map of the code leads from each line to the line of its number (`program_lines`).
-/

namespace TypeScriptEngine

namespace Edit

/-- The edits that are carried out behind byte `cursor`, and not passed over. -/
def carriedOut (cursor : Nat) : List Edit → List Edit
  | [] => []
  | e :: es => if e.start < cursor then carriedOut cursor es else e :: carriedOut e.stop es

theorem mem_of_mem_carriedOut {cursor : Nat} {edits : List Edit} {e : Edit}
    (h : e ∈ carriedOut cursor edits) : e ∈ edits := by
  induction edits generalizing cursor with
  | nil => exact h
  | cons f edits ih =>
    rw [carriedOut] at h
    split at h
    · exact List.mem_cons_of_mem _ (ih h)
    · rcases List.mem_cons.mp h with rfl | h
      · exact List.mem_cons_self ..
      · exact List.mem_cons_of_mem _ (ih h)

/-- Edits that are passed over bring in nothing. -/
theorem splice_carriedOut (cursor : Nat) (rest : List Char) (edits : List Edit) :
    splice cursor rest (carriedOut cursor edits) = splice cursor rest edits := by
  induction edits generalizing cursor rest with
  | nil => rfl
  | cons e edits ih =>
    rw [carriedOut, splice]
    split
    · exact ih cursor rest
    · rename_i hlt
      rw [splice, if_neg hlt]
      simp only [ih]

/-- The edits that are carried out on a text. -/
def effective (edits : List Edit) : List Edit := carriedOut 0 (edits.mergeSort le)

theorem mem_of_mem_effective {edits : List Edit} {e : Edit} (h : e ∈ effective edits) :
    e ∈ edits :=
  List.mem_mergeSort.mp (mem_of_mem_carriedOut h)

/-- The number of lines is kept if the edits that are carried out bring in no line breaks. -/
theorem lineBreaks_applyAll {edits : List Edit} {text : List Char}
    (h : ∀ e ∈ effective edits, '\n' ∉ e.text) :
    Text.lineBreaks (applyAll edits text) = Text.lineBreaks text := by
  rw [applyAll, ← splice_carriedOut]
  exact lineBreaks_splice 0 text _ h

end Edit

namespace Emit

open TokenStream

variable {goal : Goal} {ts : TokenStream} {text : String}

/-- The edits that an emission carries out. -/
def effectiveEdits (goal : Goal) (ts : TokenStream) : List Edit :=
  Edit.effective (walk goal ts (firstDraft goal ts) 0).edits.reverse

/-! ## ES modules -/

/-- A byte position where the word of an import with an equals sign stands. -/
def AtImportEquals (ts : TokenStream) (pos : Nat) : Prop :=
  ∃ i, IsImportEquals ts i ∧ ts.startOf i = pos

theorem reduces_of_makes {word : List Char} {places : Nat → Prop} {e : Edit} {c : Change}
    (hc : c.newText? = none) (hmakes : c.Makes (Scan.ofText text).tokens e) :
    Reduces word places text.toList e := by
  cases c with
  | erase first stop =>
    obtain ⟨a, b, _, hlt, hle, rfl⟩ := hmakes
    have hb : b - 1 < (Scan.ofText text).tokens.length := by
      unfold TokenStream.last at hle
      omega
    have ha : a ≤ b - 1 := Nat.le_sub_one_of_lt hlt
    exact ⟨boundary_startOf (ha.trans_lt hb), boundary_stopOf hb, startOf_le_stopOf ha hb, .inl rfl⟩
  | replace first stop text => contradiction
  | insertAfter i text => contradiction
  | claim first stop => contradiction
  | openClassBody i => contradiction
  | useTemporary => contradiction

/-- The edit of the word of an import with an equals sign. -/
theorem reduces_of_importEquals {word : String} {e : Edit} {i : Nat}
    (hi : IsImportEquals (Scan.ofText text).tokens i)
    (hmakes : (Change.replace i (i + 1) word).Makes (Scan.ofText text).tokens e) :
    Reduces word.toList (AtImportEquals (Scan.ofText text).tokens) text.toList e := by
  have hlt : i < (Scan.ofText text).tokens.length :=
    lt_length_of_kind (by rw [hi.word]; decide)
  have hstop (last : Nat) : max (min (i + 1) last) (i + 1) - 1 = i := by omega
  obtain rfl := hmakes
  rw [hstop]
  exact ⟨boundary_startOf hlt, boundary_stopOf hlt, startOf_le_stopOf (Nat.le_refl i) hlt,
    .inr ⟨rfl, ⟨i, hi, rfl⟩, slice_of_import hi.word⟩⟩

/-- **With ES modules every edit deletes,** or replaces the word of an import with an equals sign. -/
theorem reduces_of_esModule (hgoal : goal.commonJs = false) {e : Edit}
    (he : e ∈ (walk goal (Scan.ofText text).tokens
      (firstDraft goal (Scan.ofText text).tokens) 0).edits) :
    Reduces goal.declarator.toList (AtImportEquals (Scan.ofText text).tokens) text.toList e := by
  rcases mem_edits_walk he with ⟨hcommonJs, _⟩ | ⟨d, i, _, c, hc, hmakes⟩
  · rw [hgoal] at hcommonJs
    contradiction
  · rcases newText?_of_esModule hgoal hc with hnone | ⟨hi, rfl⟩
    · exact reduces_of_makes hnone hmakes
    · exact reduces_of_importEquals hi hmakes

/-- With ES modules the code is what the text is reduced to. -/
theorem reduced_program (hgoal : goal.commonJs = false) :
    Reduced goal.declarator.toList (AtImportEquals (Scan.ofText text).tokens) 0 text.toList
      (program goal (Scan.ofText text).tokens text.toList) :=
  reduced_applyAll fun _ he => reduces_of_esModule hgoal (List.mem_reverse.mp he)

/-! ## Rewriting -/

/-- **The emitter copies a text into a declaration that it rewrites:** a visit proposes a change made
with that text, and its edit is carried out. -/
def Copies (goal : Goal) (ts : TokenStream) (s : String) : Prop :=
  ∃ d i, Visits goal ts d i ∧ s ∈ copied ts i ∧
    ∃ c ∈ (visit goal ts d i).changes, c.newText?.isSome ∧ ∃ e ∈ effectiveEdits goal ts, c.Makes ts e

theorem text_of_makes {c : Change} {e : Edit} (h : c.Makes ts e) :
    e.text = (c.newText?.getD "").toList := by
  cases c with
  | erase first stop =>
    obtain ⟨a, b, _, _, _, rfl⟩ := h
    rfl
  | replace first stop text => rw [show e = _ from h]; rfl
  | insertAfter i text => rw [show e = _ from h]; rfl
  | claim first stop => contradiction
  | openClassBody i => contradiction
  | useTemporary => contradiction

/-- **Line breaks come in only with texts that are copied.** -/
theorem lineBreaks_program (hgoal : goal.commonJs = true) (hword : OneLine goal.declarator)
    (hcopies : ∀ s, Copies goal ts s → OneLine s) (text : List Char) :
    Text.lineBreaks (program goal ts text) = Text.lineBreaks text := by
  refine Edit.lineBreaks_applyAll fun e he => ?_
  rcases mem_edits_walk (List.mem_reverse.mp (Edit.mem_of_mem_effective he)) with
    ⟨_, rfl⟩ | ⟨d, i, hvisits, c, hc, hmakes⟩
  · -- the marker
    decide
  · rw [text_of_makes hmakes]
    cases hnew : c.newText? with
    | none => exact List.not_mem_nil
    | some s =>
      have hall : ∀ s ∈ copied ts i, OneLine s := fun s hs =>
        hcopies s ⟨d, i, hvisits, hs, c, hc, Option.isSome_of_eq_some hnew, e, he, hmakes⟩
      exact (noBreaks_visit_iff hgoal hword).mpr hall c hc s hnew

/-! ## Source maps -/

/-- With source maps on, the code comes with a line that names its map, and with the map. -/
theorem outputsOf_sourceMap {host : HostView} (hmap : host.options.sourceMap = true) (path : Path)
    (code : List Char) :
    ∃ url, ∃ map : SourceMap, (Builtin.outputsOf host path code).map OutputFile.text =
        [String.ofList code ++ ("\n//# sourceMappingURL=" ++ url), map.print] ∧
      map.sources.length = 1 ∧ SourceMap.decode? map.mappings.toList =
        some ((List.range (Text.lines code).length).map fun n => [SourceMap.sameLine n]) := by
  have hlines : (Text.lines code).length = Text.lineBreaks code + 1 := Text.length_splitOn '\n' code
  unfold Builtin.outputsOf
  rw [if_pos hmap, hlines]
  refine ⟨_, .linePreserving _ _ (Text.lineBreaks code + 1), rfl, rfl, ?_⟩
  rw [SourceMap.linePreserving, String.toList_ofList]
  exact SourceMap.decode?_lineMappings _

/-! ## The lines of a program -/

theorem declarator_of (module : ModuleKind) (target : ScriptTarget) :
    (Goal.of module target).declarator ∈ ["var", "const"] := by
  simp only [Goal.of]
  split <;> decide

theorem oneLine_declarator (module : ModuleKind) (target : ScriptTarget) :
    OneLine (Goal.of module target).declarator := by
  have hall : ∀ word ∈ ["var", "const"], OneLine word := by decide
  exact hall _ (declarator_of module target)

/-- **Emission keeps the lines of a text.**  With ES modules each line of the code is what the line
of the same number is reduced to: characters are deleted, and the word of an import with an equals
sign becomes the declarator.  Without them the number of lines is kept as long as no line break is
copied into a declaration that is rewritten.  With source maps on, the mappings that go with the code
have one segment for each of its lines, from its beginning to the beginning of the line of its
number. -/
theorem program_lines (text : String) (module : ModuleKind) (target : ScriptTarget)
    (host : HostView) (path : Path) :
    let goal := Goal.of module target
    let ts := (Scan.ofText text).tokens
    let code := program goal ts text.toList
    (module.isEsModule = true →
      Text.lineBreaks code = Text.lineBreaks text.toList ∧
      ∃ word ∈ ["var", "const"], ∀ n < (Text.lines text.toList).length, ∃ start line line',
        (Text.LineIndex.ofText text.toList).starts[n]? = some start ∧
        (Text.lines text.toList)[n]? = some line ∧ (Text.lines code)[n]? = some line' ∧
        Reduced word.toList (AtImportEquals ts) start line line') ∧
    (module.isEsModule = false → (∀ s, Copies goal ts s → OneLine s) →
      Text.lineBreaks code = Text.lineBreaks text.toList) ∧
    (host.options.sourceMap = true →
      ∃ url, ∃ map : SourceMap, (Builtin.outputsOf host path code).map OutputFile.text =
          [String.ofList code ++ ("\n//# sourceMappingURL=" ++ url), map.print] ∧
        map.sources.length = 1 ∧ SourceMap.decode? map.mappings.toList =
          some ((List.range (Text.lines code).length).map fun n => [SourceMap.sameLine n])) := by
  intro goal ts code
  refine ⟨fun hes => ?_, fun hes hcopies => ?_, fun hmap => outputsOf_sourceMap hmap path code⟩
  · have hgoal : goal.commonJs = false := by simp [goal, Goal.of, hes]
    have hreduced : Reduced goal.declarator.toList (AtImportEquals ts) 0 text.toList code :=
      reduced_program hgoal
    have hlines := hreduced.lines (oneLine_declarator module target)
    have hcount : Text.lineBreaks code + 1 = Text.lineBreaks text.toList + 1 := by
      rw [Text.lineBreaks, Text.lineBreaks, ← Text.length_splitOn, ← Text.length_splitOn]
      exact hlines.length_eq.symm
    exact ⟨Nat.succ.inj hcount, goal.declarator, declarator_of module target,
      fun n hn => hlines.exists_getElem? hn⟩
  · have hgoal : goal.commonJs = true := by simp [goal, Goal.of, hes]
    exact lineBreaks_program hgoal (oneLine_declarator module target) hcopies text.toList

/-- Three lines, the second of which has several names to copy. -/
def threeLines : String :=
  "import a = b;\nimport c, \x7b d, type e, f as g \x7d from \"h\";\nexport const i: number = 1;"

/-- What a service sees that is asked for source maps. -/
def mappedHost : HostView := ⟨.empty, ⟨[], []⟩, { sourceMap := true }, ⟨"/p"⟩, []⟩

set_option maxRecDepth 4096 in
/-- No text of `threeLines` that could be copied holds a line break, so that its three lines are kept
in either form, and mapped. -/
theorem program_lines_threeLines :
    Text.lineBreaks (program (.of .es2015 .es5) (Scan.ofText threeLines).tokens threeLines.toList) = 2 ∧
    (∀ s, Copies (.of .commonJs .es5) (Scan.ofText threeLines).tokens s → OneLine s) ∧
    Text.lineBreaks
      (program (.of .commonJs .es5) (Scan.ofText threeLines).tokens threeLines.toList) = 2 ∧
    ∃ url, ∃ map : SourceMap, (Builtin.outputsOf mappedHost ⟨"/p/a.ts"⟩
        (program (.of .commonJs .es5) (Scan.ofText threeLines).tokens threeLines.toList)).map
          OutputFile.text =
        [String.ofList (program (.of .commonJs .es5) (Scan.ofText threeLines).tokens
          threeLines.toList) ++ ("\n//# sourceMappingURL=" ++ url), map.print] ∧
      SourceMap.decode? map.mappings.toList =
        some ((List.range 3).map fun n => [SourceMap.sameLine n]) := by
  have hbreaks : Text.lineBreaks threeLines.toList = 2 := by decide +kernel
  obtain ⟨hes, _, _⟩ := program_lines threeLines .es2015 .es5 mappedHost ⟨"/p/a.ts"⟩
  obtain ⟨_, hcommonJs, hmap⟩ := program_lines threeLines .commonJs .es5 mappedHost ⟨"/p/a.ts"⟩
  have hall : ∀ i < (Scan.ofText threeLines).tokens.length,
      ∀ s ∈ copied (Scan.ofText threeLines).tokens i, OneLine s := by
    decide +kernel
  have hcopies : ∀ s, Copies (.of .commonJs .es5) (Scan.ofText threeLines).tokens s → OneLine s := by
    rintro s ⟨d, i, hvisits, hs, _⟩
    exact hall i (hvisits.lt_last.trans_le (Nat.sub_le _ _)) s hs
  have hkept := (hcommonJs rfl hcopies).trans hbreaks
  refine ⟨(hes rfl).1.trans hbreaks, hcopies, hkept, ?_⟩
  obtain ⟨url, map, houtputs, _, hdecode⟩ := hmap rfl
  refine ⟨url, map, houtputs, ?_⟩
  rwa [Text.lines, Text.length_splitOn, show List.count _ _ = 2 from hkept] at hdecode

end Emit

end TypeScriptEngine
