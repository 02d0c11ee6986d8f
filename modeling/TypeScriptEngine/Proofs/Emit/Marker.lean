import TypeScriptEngine.Proofs.Emit.Erasing
import TypeScriptEngine.Proofs.Emit.Insertion

/-! # Modules and their marker

A text is a module if a word `import` or `export` stands outside all brackets (`isModule_iff`), and
every declaration that the emitter rewrites begins with such a word (`beginsImport_marks`,
`beginsExport_marks`).  In a text without such declarations the goal has a say in the marker at the
front only (`program_of_no_declarations`), and in a script in nothing at all
(`script_code_unaffected`).
-/

namespace TypeScriptEngine

open Emit (depthAt beginsImport beginsExport)

/-! ## What makes a text a module -/

namespace TokenStream

/-- The word at `i` makes a text a module: it is an `import` or `export` outside all brackets.  An
`import` must not be one of a call, of `import.meta` or of the name of a member. -/
def MarksModule (ts : TokenStream) (i : Nat) : Prop :=
  depthAt ts i = 0 ∧ (ts.kind i = .kwExport ∨ ts.kind i = .kwImport ∧ ts.kind (i + 1) ≠ .lparen ∧
    ts.kind (i + 1) ≠ .dot ∧ ts.followsDot i = false)

variable {ts rest : TokenStream} {t : Token} {i : Nat}

theorem depthAt_succ (h : ts.drop i = t :: rest) :
    depthAt ts (i + 1) = depthAfter (depthAt ts i) t.kind := by
  have hget : ts[i]? = some t := by rw [← List.head?_drop, h, List.head?_cons]
  rw [depthAt, depthAt, List.take_add_one, hget, Option.toList_some, List.foldl_append]
  rfl

/-- The search for a word that makes a text a module finds the first one, if there is one. -/
theorem hasModuleSyntax_iff {previous : TokenKind} (h : ts.drop i = rest)
    (hprevious : previous.isDot = ts.followsDot i) :
    hasModuleSyntax previous (depthAt ts i) rest = true ↔ ∃ j, i ≤ j ∧ MarksModule ts j := by
  induction rest generalizing i previous with
  | nil =>
    refine ⟨fun h => absurd h Bool.false_ne_true, fun ⟨j, hj, _, hword⟩ => ?_⟩
    have hend : ts.kind j = .eof := by
      rw [kind, List.getElem?_eq_none ((List.drop_eq_nil_iff.mp h).trans hj)]
      rfl
    rcases hword with hword | ⟨hword, _⟩ <;> exact absurd (hend ▸ hword) (by decide)
  | cons t rest ih =>
    obtain ⟨-, hkind, hrest⟩ := TokenStream.of_drop_eq_cons h
    have hhere : MarksModule ts i ↔ depthAt ts i = 0 ∧ (t.kind = .kwExport ∨
        t.kind = .kwImport ∧ headKind rest ≠ .lparen ∧ headKind rest ≠ .dot ∧
          previous.isDot = false) := by
      rw [MarksModule, hkind, kind_eq_headKind_drop ts (i + 1), hrest, hprevious]
    have hlater := ih hrest (congrArg TokenKind.isDot hkind.symm)
    have hsplit : (∃ j, i ≤ j ∧ MarksModule ts j) ↔
        MarksModule ts i ∨ ∃ j, i + 1 ≤ j ∧ MarksModule ts j := by
      constructor
      · rintro ⟨j, hj, hmarks⟩
        rcases Nat.eq_or_lt_of_le hj with rfl | hj
        · exact .inl hmarks
        · exact .inr ⟨j, hj, hmarks⟩
      · rintro (hmarks | ⟨j, hj, hmarks⟩)
        · exact ⟨i, Nat.le_refl i, hmarks⟩
        · exact ⟨j, Nat.le_of_succ_le hj, hmarks⟩
    rw [hsplit, ← hlater, hhere, depthAt_succ h, hasModuleSyntax]
    -- the three ways of the search: it stops at an export, stops at an import, or goes on
    by_cases hexport : depthAt ts i = 0 ∧ t.kind = .kwExport
    · rw [if_pos hexport]
      exact iff_of_true rfl (.inl ⟨hexport.1, .inl hexport.2⟩)
    by_cases himport : depthAt ts i = 0 ∧ t.kind = .kwImport ∧ headKind rest ≠ .lparen ∧
        headKind rest ≠ .dot ∧ (!previous.isDot) = true
    · rw [if_neg hexport, if_pos himport]
      obtain ⟨hdepth, hword, hparen, hdot, hmember⟩ := himport
      exact iff_of_true rfl (.inl ⟨hdepth, .inr ⟨hword, hparen, hdot, by simpa using hmember⟩⟩)
    · rw [if_neg hexport, if_neg himport]
      refine (or_iff_right ?_).symm
      rintro ⟨hdepth, hword | ⟨hword, hparen, hdot, hmember⟩⟩
      · exact hexport ⟨hdepth, hword⟩
      · exact himport ⟨hdepth, hword, hparen, hdot, by rw [hmember]; rfl⟩

/-- **A text is a module just if a word in it makes it one.** -/
theorem isModule_iff : ts.isModule = true ↔ ∃ i, MarksModule ts i :=
  (@hasModuleSyntax_iff ts ts 0 .eof rfl rfl).trans (exists_congr fun i => and_iff_right i.zero_le)

/-- The name of a member does not begin a statement. -/
theorem startsStatement_of_followsDot (h : ts.followsDot i = true) :
    ts.startsStatement i = false := by
  cases i with
  | zero => contradiction
  | succ i =>
    have hdot : ts.kind i = .dot ∨ ts.kind i = .questionDot := by
      change (ts.kind i).isDot = true at h
      cases hkind : ts.kind i <;> simp_all [TokenKind.isDot]
    -- a dot ends no expression, so that no statement begins on the line behind it either
    have hends : ts.endsExpression i = false := by
      unfold endsExpression
      unfold kind at hdot
      cases hget : ts[i]? with
      | none => rfl
      | some t =>
        rw [hget] at hdot
        change t.kind = .dot ∨ t.kind = .questionDot at hdot
        rcases hdot with hdot | hdot <;>
          simp [Token.endsExpression, hdot, TokenKind.isName, TokenKind.isContextual]
    rcases hdot with hdot | hdot <;> simp [startsStatement, hdot, hends]

/-- **An import that the emitter rewrites makes its text a module.** -/
theorem beginsImport_marks (h : beginsImport ts i = true) : MarksModule ts i := by
  simp only [beginsImport, Bool.and_eq_true, beq_iff_eq, bne_iff_ne] at h
  obtain ⟨⟨⟨⟨hkind, hstart⟩, hdepth⟩, hparen⟩, hdot⟩ := h
  refine ⟨hdepth, .inr ⟨hkind, hparen, hdot, Bool.eq_false_iff.mpr fun hmember => ?_⟩⟩
  exact Bool.false_ne_true ((startsStatement_of_followsDot hmember).symm.trans hstart)

/-- **An export that the emitter rewrites makes its text a module.** -/
theorem beginsExport_marks (h : beginsExport ts i = true) : MarksModule ts i := by
  simp only [beginsExport, Bool.and_eq_true, beq_iff_eq] at h
  exact ⟨h.2, .inl h.1.1⟩

end TokenStream

namespace Emit

open TokenStream

/-! ## Earlier edits -/

namespace Draft

variable {ts : TokenStream}

/-- The draft with other edits that were made earlier. -/
def withEarlier (d : Draft) (earlier : List Edit) : Draft :=
  { d with edits := d.edits ++ earlier }

theorem claimTokens_withEarlier (d : Draft) (earlier : List Edit) (first n : Nat) :
    (d.withEarlier earlier).claimTokens first n =
      (d.claimTokens first n).withEarlier earlier := by
  induction n generalizing d first with
  | zero => rfl
  | succ n ih => exact ih { d with claimed := d.claimed.setIfInBounds first true } (first + 1)

theorem freeRuns_withEarlier (d : Draft) (earlier : List Edit) (i n : Nat) (run? : Option Nat) :
    (d.withEarlier earlier).freeRuns i run? n = d.freeRuns i run? n := by
  induction n generalizing i run? with
  | zero => rfl
  | succ n ih =>
    rw [freeRuns, freeRuns, ih, ih]
    rfl

theorem addRuns_withEarlier (d : Draft) (earlier : List Edit) (runs : List (Nat × Nat)) :
    (d.withEarlier earlier).addRuns ts runs = (d.addRuns ts runs).withEarlier earlier := by
  induction runs generalizing d with
  | nil => rfl
  | cons run runs ih => exact ih (d.addEdit ts run.1 (run.2 - 1) "")

theorem apply_withEarlier (d : Draft) (earlier : List Edit) (c : Change) :
    (d.withEarlier earlier).apply ts c = (d.apply ts c).withEarlier earlier := by
  cases c with
  | erase first stop =>
    rw [apply_erase_eq, apply_erase_eq, freeRuns_withEarlier, addRuns_withEarlier,
      claimTokens_withEarlier]
  | replace first stop text => exact claimTokens_withEarlier (d.addEdit ..) earlier first _
  | insertAfter i text => rfl
  | claim first stop => exact claimTokens_withEarlier d earlier first _
  | openClassBody i => rfl
  | useTemporary => rfl

theorem applyAll_withEarlier (d : Draft) (earlier : List Edit) (changes : List Change) :
    (d.withEarlier earlier).applyAll ts changes = (d.applyAll ts changes).withEarlier earlier := by
  induction changes generalizing d with
  | nil => rfl
  | cons c changes ih =>
    refine Eq.trans ?_ (ih (d.apply ts c))
    exact congrArg (applyAll ts · changes) (apply_withEarlier d earlier c)

end Draft

variable {goal goal' : Goal} {ts : TokenStream} {d : Draft} {i : Nat}

/-- The walk does not look at the edits that it collects. -/
theorem walk_withEarlier (d : Draft) (earlier : List Edit) (i : Nat) :
    walk goal ts (d.withEarlier earlier) i = (walk goal ts d i).withEarlier earlier := by
  fun_induction walk goal ts d i with
  | case1 d i hi hclaimed ih =>
    have hclaimed : (d.withEarlier earlier).isClaimed i = true := hclaimed
    rw [walk, if_pos hi, if_pos hclaimed, ih]
  | case2 d i hi hfree step ih =>
    have hfree : ¬ (d.withEarlier earlier).isClaimed i = true := hfree
    have hvisit : visit goal ts (d.withEarlier earlier) i = step := rfl
    rw [walk, if_pos hi, if_neg hfree]
    simp only [hvisit]
    rw [Draft.applyAll_withEarlier, ih]
  | case3 d i hi => rw [walk, if_neg hi]

/-! ## Texts without declarations of a module -/

/-- No import or export is rewritten. -/
def NoDeclarations (ts : TokenStream) : Prop :=
  ∀ i, beginsImport ts i = false ∧ beginsExport ts i = false

/-- Only for the declarations of a module a visit asks for the goal. -/
theorem visit_congr (himport : beginsImport ts i = false) (hexport : beginsExport ts i = false) :
    visit goal ts d i = visit goal' ts d i := by
  unfold visit
  cases hkind : ts.kind i with
  | kwImport =>
    simp only [beginsImport, hkind, beq_self_eq_true, Bool.true_and] at himport
    simp only [himport]
    rfl
  | kwExport =>
    simp only [beginsExport, hkind, beq_self_eq_true, Bool.true_and] at hexport
    simp only [hexport]
    rfl
  | _ => rfl

theorem walk_congr (h : NoDeclarations ts) (d : Draft) (i : Nat) :
    walk goal ts d i = walk goal' ts d i := by
  fun_induction walk goal ts d i with
  | case1 d i hi hclaimed ih =>
    rw [ih]
    conv => rhs; rw [walk, if_pos hi, if_pos hclaimed]
  | case2 d i hi hfree step ih =>
    have hvisit : visit goal' ts d i = step := visit_congr (h i).1 (h i).2
    rw [ih]
    conv => rhs; rw [walk, if_pos hi, if_neg hfree]
    simp only [hvisit]
  | case3 d i hi =>
    conv => rhs; rw [walk, if_neg hi]

/-- An edit at the front of the text that was made first is carried out first. -/
theorem mergeSort_cons_front {e : Edit} (hstart : e.start = 0) (hstop : e.stop = 0)
    (edits : List Edit) : (e :: edits).mergeSort Edit.le = e :: edits.mergeSort Edit.le := by
  obtain ⟨before, after, hwith, hwithout, hbefore⟩ :=
    @List.mergeSort_cons _ Edit.le le_trans_edits le_total_edits e edits
  -- an edit that comes before `e` would have to end before the text begins
  have hnone : before = [] := by
    refine List.eq_nil_iff_forall_not_mem.mpr fun f hf => ?_
    have hlt := hbefore f hf
    simp only [Edit.le, hstart, hstop, Bool.not_eq_true', Bool.or_eq_false_iff,
      decide_eq_false_iff_not, Bool.and_eq_false_iff, beq_eq_false_iff_ne] at hlt
    omega
  rw [hwith, hwithout, hnone]
  rfl

/-- **In a text without declarations of a module the goal adds the marker at most.** -/
theorem program_of_no_declarations (h : NoDeclarations ts) (hgoal : goal'.commonJs = false)
    (text : List Char) : program goal ts text =
      (if goal.commonJs && ts.isModule then moduleMarker.toList else []) ++
        program goal' ts text := by
  have hwalk := fun d => @walk_congr goal goal' ts h d 0
  rw [program, program, hwalk, firstDraft_of_esModule hgoal, firstDraft]
  split
  · -- the marker is made before the walk, so that it is the first one of equal edits
    have hmarked : { Draft.empty ts with edits := [⟨0, 0, moduleMarker.toList⟩] } =
        (Draft.empty ts).withEarlier [⟨0, 0, moduleMarker.toList⟩] := rfl
    rw [hmarked, walk_withEarlier, Draft.finish, Draft.finish, Edit.applyAll, Edit.applyAll,
      Draft.withEarlier, List.reverse_append, List.reverse_singleton, List.singleton_append,
      mergeSort_cons_front rfl rfl]
    have hmarker := @splice_insertions 0 [⟨0, 0, moduleMarker.toList⟩]
      ((walk goal' ts (Draft.empty ts) 0).edits.reverse.mergeSort Edit.le)
      (List.forall_mem_singleton.mpr ⟨rfl, rfl⟩) text
    rw [List.singleton_append, List.flatMap_singleton] at hmarker
    exact hmarker
  · rfl

/-! ## Scripts -/

/-- Nothing in a script is a declaration of a module. -/
theorem noDeclarations_of_script (h : ts.isModule = false) : NoDeclarations ts := by
  have hnone (i : Nat) : ¬ MarksModule ts i := fun hmarks =>
    Bool.false_ne_true (h.symm.trans (isModule_iff.mpr ⟨i, hmarks⟩))
  exact fun i => ⟨Bool.eq_false_iff.mpr fun himport => hnone i (beginsImport_marks himport),
    Bool.eq_false_iff.mpr fun hexport => hnone i (beginsExport_marks hexport)⟩

/-- **The code of a script depends neither on the module system nor on the language level.** -/
theorem script_code_unaffected (text : String)
    (hscript : TokenStream.isModule (Scan.ofText text).tokens = false)
    (module module' : ModuleKind) (target target' : ScriptTarget) :
    program (.of module target) (Scan.ofText text).tokens text.toList =
      program (.of module' target') (Scan.ofText text).tokens text.toList := by
  have hcode (goal : Goal) : program goal (Scan.ofText text).tokens text.toList =
      program (.of .esNext .esNext) (Scan.ofText text).tokens text.toList := by
    have hprogram := @program_of_no_declarations goal (.of .esNext .esNext) _
      (noDeclarations_of_script hscript) rfl text.toList
    rwa [hscript, Bool.and_false, if_neg Bool.false_ne_true, List.nil_append] at hprogram
  rw [hcode (.of module target), hcode (.of module' target')]

/-- A script that has the words of a module in a block, in a call and as the name of a member, and
closes more brackets than it opens. -/
def closingScript : String :=
  "\x7d \x7b export const a: number = 1; import b from 'b'; \x7d\n" ++
    "import('c'); x = import.meta; y.import = z as Z;\n"

theorem script_code_unaffected_closingScript :
    TokenStream.isModule (Scan.ofText closingScript).tokens = false ∧
      program (.of .commonJs .es5) (Scan.ofText closingScript).tokens closingScript.toList =
        program (.of .esNext .es2020) (Scan.ofText closingScript).tokens closingScript.toList := by
  have hscript : TokenStream.isModule (Scan.ofText closingScript).tokens = false := by
    decide +kernel
  exact ⟨hscript, script_code_unaffected closingScript hscript .commonJs .esNext .es5 .es2020⟩

end Emit

end TypeScriptEngine
