import Mathlib.Logic.Relation
import TypeScriptEngine.Proofs.Emit.Copied
import TypeScriptEngine.Proofs.Emit.Replaced
import TypeScriptEngine.Proofs.Grammar.Module

/-! # Generated names

A declaration that needs the object of a module more than once is given a generated name for it, which
ends in a serial number.  The walk moves in one way only (`Advances`), from left to right, and each name
uses up its number, so that no two declarations are given the same name; the number can be read off a
name since it has no underscore (`serial_of_temporaryName`).  That an identifier of the text has the same
name is not ruled out: names are made without a look at those of the text (`generated_names`,
`generated_name_taken`).
-/

namespace TypeScriptEngine.Emit

open Relation TokenStream

/-! ## Numbered names -/

/-- Two lists that are equal are equal behind the last sign of a kind. -/
theorem eq_of_append_cons_eq {c : Char} {as as' bs bs' : List Char} (hbs : c ∉ bs) (hbs' : c ∉ bs')
    (h : as ++ c :: bs = as' ++ c :: bs') : bs = bs' := by
  rcases List.append_eq_append_iff.mp h with ⟨gap, -, hgap⟩ | ⟨gap, -, hgap⟩
  · cases gap with
    | nil => exact (List.cons.inj hgap).2
    | cons b gap =>
      refine absurd ?_ hbs
      rw [(List.cons.inj hgap).2]
      exact List.mem_append_right _ (List.mem_cons_self ..)
  · cases gap with
    | nil => exact (List.cons.inj hgap).2.symm
    | cons b gap =>
      refine absurd ?_ hbs'
      rw [(List.cons.inj hgap).2]
      exact List.mem_append_right _ (List.mem_cons_self ..)

theorem underscore_not_mem (n : Nat) : '_' ∉ (toString n).toList :=
  fun h => absurd (isDigit_of_mem_toString h) (by decide)

/-- A number can be read off its digits. -/
theorem eq_of_toString_eq {n n' : Nat} (h : (toString n).toList = (toString n').toList) :
    n = n' := by
  have hdigits : Nat.toDigits 10 n = Nat.toDigits 10 n' := by
    rwa [← Nat.toList_repr, ← Nat.toList_repr]
  calc n = Nat.ofDigitChars 10 (Nat.toDigits 10 n) 0 := Nat.ofDigitChars_ten_toDigits.symm
    _ = n' := by rw [hdigits, Nat.ofDigitChars_ten_toDigits]

theorem toList_temporaryName (specifier : String) (n : Nat) :
    (temporaryName specifier n).toList =
      (moduleNameStem specifier).toList ++ '_' :: (toString n).toList := by
  rw [temporaryName, String.toList_append, String.toList_append, List.append_assoc]
  rfl

/-- **The number of a generated name can be read off it,** whatever the modules are. -/
theorem serial_of_temporaryName {specifier specifier' : String} {n n' : Nat}
    (h : temporaryName specifier n = temporaryName specifier' n') : n = n' := by
  have h := congrArg String.toList h
  rw [toList_temporaryName, toList_temporaryName] at h
  exact eq_of_toString_eq (eq_of_append_cons_eq (underscore_not_mem n) (underscore_not_mem n') h)

/-! ## The order of the walk -/

section

variable {goal : Goal} {ts : TokenStream} {d d' : Draft} {c : Change} {i i' : Nat}
  {a b : Draft × Nat}

/-- One move of the walk: past a claimed token, or behind what a visit covers. -/
def Advances (goal : Goal) (ts : TokenStream) (a b : Draft × Nat) : Prop :=
  b = if a.1.isClaimed a.2 then (a.1, a.2 + 1)
    else (a.1.applyAll ts (visit goal ts a.1 a.2).changes,
      max (visit goal ts a.1 a.2).next (a.2 + 1))

theorem Reaches.advances (h : Reaches goal ts d i) :
    ReflTransGen (Advances goal ts) (firstDraft goal ts, 0) (d, i) := by
  induction h with
  | first => exact .refl
  | pass _ _ hclaimed ih => exact ih.tail (if_pos hclaimed).symm
  | visit _ _ hfree ih => exact ih.tail (if_neg (Bool.eq_false_iff.mp hfree)).symm

theorem Visits.advances (h : Visits goal ts d i) : Advances goal ts (d, i)
    (d.applyAll ts (visit goal ts d i).changes, max (visit goal ts d i).next (i + 1)) :=
  (if_neg (Bool.eq_false_iff.mp h.free)).symm

namespace Draft

@[simp] theorem temporaries_claimTokens (d : Draft) (first n : Nat) :
    (d.claimTokens first n).temporaries = d.temporaries := by
  induction n generalizing d first with
  | zero => rfl
  | succ n ih => exact ih _ _

@[simp] theorem temporaries_addRuns (runs : List (Nat × Nat)) (d : Draft) :
    (d.addRuns ts runs).temporaries = d.temporaries := by
  induction runs generalizing d with
  | nil => rfl
  | cons run runs ih => exact ih (d.addEdit ts run.1 (run.2 - 1) "")

theorem temporaries_apply (d : Draft) (c : Change) : (d.apply ts c).temporaries =
    d.temporaries + if c == .useTemporary then 1 else 0 := by
  cases c with
  | erase first stop => rw [apply_erase_eq, temporaries_claimTokens, temporaries_addRuns]; rfl
  | replace first stop text => exact temporaries_claimTokens ..
  | insertAfter i text => rfl
  | claim first stop => exact temporaries_claimTokens ..
  | openClassBody i => rfl
  | useTemporary => rfl

/-- Each generated name uses up one number. -/
theorem temporaries_applyAll (d : Draft) (changes : List Change) :
    (d.applyAll ts changes).temporaries = d.temporaries + changes.count .useTemporary := by
  induction changes generalizing d with
  | nil => rfl
  | cons c changes ih =>
    refine (ih (d.apply ts c)).trans ?_
    rw [temporaries_apply, List.count_cons]
    omega

end Draft

theorem temporaries_le_walk (d : Draft) (i : Nat) :
    d.temporaries ≤ (walk goal ts d i).temporaries := by
  fun_induction walk goal ts d i with
  | case1 d i _ _ ih => exact ih
  | case2 d i _ _ step ih =>
    rw [Draft.temporaries_applyAll] at ih
    exact (Nat.le_add_right ..).trans ih
  | case3 d i _ => exact Nat.le_refl _

/-- The walk goes from left to right, and takes no number back. -/
theorem Advances.lt_and_le (h : Advances goal ts a b) :
    a.2 < b.2 ∧ a.1.temporaries ≤ b.1.temporaries := by
  rw [h]
  split
  · exact ⟨Nat.lt_succ_self _, Nat.le_refl _⟩
  · refine ⟨Nat.lt_of_lt_of_le (Nat.lt_succ_self _) (Nat.le_max_right ..), ?_⟩
    rw [Draft.temporaries_applyAll]
    exact Nat.le_add_right ..

theorem le_of_advances (h : ReflTransGen (Advances goal ts) a b) :
    a.2 ≤ b.2 ∧ a.1.temporaries ≤ b.1.temporaries := by
  induction h with
  | refl => exact ⟨Nat.le_refl _, Nat.le_refl _⟩
  | tail _ h ih => exact ⟨ih.1.trans h.lt_and_le.1.le, ih.2.trans h.lt_and_le.2⟩

/-- Of two places that the walk comes to it comes to one from the other. -/
theorem Reaches.total (h : Reaches goal ts d i) (h' : Reaches goal ts d' i') :
    ReflTransGen (Advances goal ts) (d, i) (d', i') ∨
      ReflTransGen (Advances goal ts) (d', i') (d, i) :=
  ReflTransGen.total_of_right_unique (fun _ _ _ hon hon' => hon.trans hon'.symm) h.advances
    h'.advances

/-- Of two tokens that the walk comes to it comes to the one on the right from the other one. -/
theorem Reaches.advances_of_lt (h : Reaches goal ts d i) (h' : Reaches goal ts d' i')
    (hlt : i < i') : TransGen (Advances goal ts) (d, i) (d', i') := by
  rcases h.total h' with hon | hback
  · rcases reflTransGen_iff_eq_or_transGen.mp hon with heq | hon
    · exact absurd (congrArg Prod.snd heq) (Nat.ne_of_gt hlt)
    · exact hon
  · exact absurd (le_of_advances hback).1 (Nat.not_le.mpr hlt)

/-- The walk comes to a token once. -/
theorem Reaches.unique (h : Reaches goal ts d i) (h' : Reaches goal ts d' i) : d = d' := by
  -- a move makes the index greater, so that none leads from a token back to it
  have hone {d d' : Draft} (hon : ReflTransGen (Advances goal ts) (d, i) (d', i)) : d' = d := by
    rcases reflTransGen_iff_eq_or_transGen.mp hon with heq | hon
    · exact congrArg Prod.fst heq
    · obtain ⟨b, hfirst, hon⟩ := TransGen.head'_iff.mp hon
      exact absurd (le_of_advances hon).1 (Nat.not_le.mpr hfirst.lt_and_le.1)
  rcases h.total h' with hon | hback
  · exact (hone hon).symm
  · exact hone hback

/-- **A later visit finds the numbers of all earlier ones used up.** -/
theorem Visits.temporaries_le (h : Visits goal ts d i) (h' : Visits goal ts d' i') (hlt : i < i') :
    (d.applyAll ts (visit goal ts d i).changes).temporaries ≤ d'.temporaries := by
  obtain ⟨b, hfirst, hon⟩ := TransGen.head'_iff.mp (h.reaches.advances_of_lt h'.reaches hlt)
  have hvisit := hfirst.trans h.advances.symm
  rw [hvisit] at hon
  exact (le_of_advances hon).2

end

/-! ## Declarations that are given a name -/

section

variable {goal : Goal} {ts : TokenStream} {d : Draft} {changes : List Change}
  {i source n temporaries stop : Nat}

/-- If a name is used up, then what takes the place of the declaration at `i` declares it as the object
of a module. -/
def Named (goal : Goal) (ts : TokenStream) (temporaries i stop : Nat) (changes : List Change) :
    Prop :=
  .useTemporary ∈ changes → ∃ source further, changes = [.useTemporary, .replace i stop
    (declare goal (temporaryName (ts.value source) (temporaries + 1))
      (requireCall (ts.source source)) ++ further)]

theorem exists_intercalate (first : String) (texts : List String) :
    ∃ further, " ".intercalate (first :: texts) = first ++ further := by
  cases texts with
  | nil => exact ⟨"", by simp⟩
  | cons next texts => exact ⟨" " ++ " ".intercalate (next :: texts), by
      rw [String.intercalate_cons_cons, String.append_assoc]⟩

/-- Statements that need the object of the module begin with its declaration. -/
theorem exists_requireStatements {clause : ImportClause} {temporary : String}
    (h : (requireStatements goal ts clause source temporary).2 = true) :
    ∃ further, (requireStatements goal ts clause source temporary).1 =
      declare goal temporary (requireCall (ts.source source)) ++ further := by
  revert h
  unfold requireStatements
  simp only
  split
  · exact fun h => by contradiction
  · exact fun h => by contradiction
  · exact fun h => by contradiction
  · split
    · exact fun h => by contradiction
    · exact fun _ => exists_intercalate _ _

theorem exists_exportListStatements {names : List (String × String)} {temporary : String}
    (h : (exportListStatements goal ts names (some source) temporary).2 = true) :
    ∃ further, (exportListStatements goal ts names (some source) temporary).1 =
      declare goal temporary (requireCall (ts.source source)) ++ further := by
  cases names with
  | nil => contradiction
  | cons name names => exact exists_intercalate _ _

theorem named_of_not_mem (h : .useTemporary ∉ changes) : Named goal ts temporaries i stop changes :=
  fun hmem => absurd hmem h

theorem named_importDeclaration :
    Named goal ts temporaries i (ts.pastStatement i)
      (importDeclaration goal ts temporaries i).changes := by
  unfold importDeclaration
  simp only
  split
  · exact named_of_not_mem (by simp)
  split
  · refine named_of_not_mem ?_
    unfold importEquals
    simp only
    split <;> simp
  split
  · rename_i source _ _
    intro hmem
    split at hmem
    · rename_i hused
      obtain ⟨further, htext⟩ := exists_requireStatements hused
      exact ⟨source, further, by rw [if_pos hused, htext]; rfl⟩
    · simp at hmem
  · exact named_of_not_mem (by simp)
  · refine named_of_not_mem ?_
    simp [Specifier.eraseTypes]

theorem named_exportStar :
    Named goal ts temporaries i stop (exportStar goal ts temporaries i stop) := by
  unfold exportStar
  simp only
  split
  · exact named_of_not_mem (by simp)
  · split
    · exact named_of_not_mem (by simp)
    · rename_i source _ _
      exact fun _ => ⟨source, _, by rw [String.append_assoc]⟩

theorem named_exportList :
    Named goal ts temporaries i stop (exportList goal ts temporaries i stop) := by
  unfold exportList
  simp only
  split
  · intro hmem
    split at hmem
    · rename_i hused
      obtain ⟨further, htext⟩ := exists_exportListStatements hused
      exact ⟨_, further, by rw [if_pos hused, htext]; rfl⟩
    · simp at hmem
  · exact named_of_not_mem (by simp [exportListStatements])

theorem named_exportDeclaration :
    Named goal ts temporaries i (ts.pastStatement i)
      (exportDeclaration goal ts temporaries i).changes := by
  unfold exportDeclaration
  simp only
  split
  · exact named_of_not_mem (by simp)
  -- only a list or a star of CommonJS code can need the object of a module
  split
  · unfold exportCommonJs
    simp only
    cases ts.kind (i + 1) with
    | kwFunction | kwAsync | kwClass | kwAbstract =>
      refine named_of_not_mem ?_
      simp [exportBehind]
    | kwDefault =>
      refine named_of_not_mem ?_
      unfold exportDefault
      simp only
      split
      · split <;> simp
      · simp
    | lbrace => exact named_exportList
    | star => exact named_exportStar
    | _ => exact named_of_not_mem (by simp)
  · refine named_of_not_mem ?_
    unfold exportEsModule
    simp only
    split <;> simp [Specifier.eraseTypes]

/-- **Whatever visit uses up a name declares it as the object of a module.** -/
theorem named_visit :
    Named goal ts d.temporaries i (ts.pastStatement i) (visit goal ts d i).changes := by
  cases himport : beginsImport ts i with
  | true =>
    rw [visit_of_beginsImport himport]
    exact named_importDeclaration
  | false =>
    cases hexport : beginsExport ts i with
    | true =>
      rw [visit_of_beginsExport hexport]
      exact named_exportDeclaration
    | false =>
      exact named_of_not_mem fun hmem =>
        absurd (removing_visit himport hexport _ hmem) Bool.false_ne_true

end

/-! ## The names of a text -/

section

variable {goal : Goal} {ts : TokenStream} {d : Draft} {i i' source source' n n' : Nat}

/-- The declaration at `i` is given the `n`th generated name, for the module that token `source`
names: what takes the place of the declaration begins with one of that name. -/
def Generates (goal : Goal) (ts : TokenStream) (i source n : Nat) : Prop :=
  ∃ d further, d.temporaries + 1 = n ∧ Replaces goal ts d i (ts.pastStatement i)
    (declare goal (temporaryName (ts.value source) n) (requireCall (ts.source source)) ++ further)

/-- How many names are generated. -/
def generatedCount (goal : Goal) (ts : TokenStream) : Nat :=
  (walk goal ts (firstDraft goal ts) 0).temporaries

/-- A visit that uses up a name generates it, and uses up no other one. -/
theorem Visits.generates (h : Visits goal ts d i)
    (hmem : .useTemporary ∈ (visit goal ts d i).changes) :
    (visit goal ts d i).changes.count .useTemporary = 1 ∧
      ∃ source, Generates goal ts i source (d.temporaries + 1) := by
  obtain ⟨source, further, hchanges⟩ := named_visit hmem
  exact ⟨by rw [hchanges]; rfl, source, d, further, rfl, h, hchanges⟩

/-- Each number up to that of the last generated name belongs to a declaration. -/
theorem exists_generates (hpos : 0 < n) (hn : n ≤ generatedCount goal ts) :
    ∃ i source, Generates goal ts i source n := by
  -- on the visits of the walk: the numbers used up so far are those up to `d.temporaries`
  refine @walk_induction goal ts
    (fun d => n ≤ d.temporaries → ∃ i source, Generates goal ts i source n)
    (fun hn => ?_) (fun d i hvisits ih hn => ?_) hn
  · have hzero : (firstDraft goal ts).temporaries = 0 := by
      unfold firstDraft
      simp only
      split <;> rfl
    omega
  · rw [Draft.temporaries_applyAll] at hn
    by_cases hmem : .useTemporary ∈ (visit goal ts d i).changes
    · obtain ⟨hone, source, hgenerates⟩ := hvisits.generates hmem
      rcases Nat.lt_or_ge d.temporaries n with hlt | hge
      · obtain rfl : d.temporaries + 1 = n := by omega
        exact ⟨i, source, hgenerates⟩
      · exact ih hge
    · exact ih (by rwa [List.count_eq_zero.mpr hmem, Nat.add_zero] at hn)

namespace Generates

theorem bounds (h : Generates goal ts i source n) : 0 < n ∧ n ≤ generatedCount goal ts := by
  obtain ⟨d, further, rfl, hreplaces⟩ := h
  refine ⟨Nat.succ_pos _, ?_⟩
  have hle := @temporaries_le_walk goal ts (d.applyAll ts (visit goal ts d i).changes)
    (max (visit goal ts d i).next (i + 1))
  rw [← walk_visit hreplaces.visits.lt_last hreplaces.visits.free,
    hreplaces.visits.reaches.walk_eq, Draft.temporaries_applyAll, hreplaces.changes] at hle
  exact hle

/-- Names are numbered from left to right. -/
theorem lt_of_lt (h : Generates goal ts i source n) (h' : Generates goal ts i' source' n')
    (hlt : i < i') : n < n' := by
  obtain ⟨d, further, rfl, hreplaces⟩ := h
  obtain ⟨d', further', rfl, hreplaces'⟩ := h'
  have hle := hreplaces.visits.temporaries_le hreplaces'.visits hlt
  rw [Draft.temporaries_applyAll, hreplaces.changes] at hle
  exact Nat.lt_succ_of_le hle

theorem eq_of_eq (h : Generates goal ts i source n) (h' : Generates goal ts i source' n') :
    n = n' := by
  obtain ⟨d, further, rfl, hreplaces⟩ := h
  obtain ⟨d', further', rfl, hreplaces'⟩ := h'
  rw [hreplaces.visits.reaches.unique hreplaces'.visits.reaches]

theorem lt_iff (h : Generates goal ts i source n) (h' : Generates goal ts i' source' n') :
    i < i' ↔ n < n' := by
  refine ⟨h.lt_of_lt h', fun hlt => ?_⟩
  rcases Nat.lt_trichotomy i i' with hi | rfl | hi
  · exact hi
  · exact absurd (h.eq_of_eq h') (Nat.ne_of_lt hlt)
  · exact absurd (h'.lt_of_lt h hi) (Nat.lt_asymm hlt)

end Generates

/-- No identifier ends in an underscore and the number of a generated name. -/
def NoneNumbered (goal : Goal) (ts : TokenStream) : Prop :=
  ∀ t ∈ ts, t.kind = .identifier → ∀ n < generatedCount goal ts,
    ¬ '_' :: (toString (n + 1)).toList <:+ t.value.toList

instance : Decidable (NoneNumbered goal ts) :=
  inferInstanceAs (Decidable (∀ t ∈ ts, _ → ∀ n < generatedCount goal ts, _))

/-- An identifier that is the same as a generated name ends in its number. -/
theorem NoneNumbered.ne (h : NoneNumbered goal ts) {t : Token} (ht : t ∈ ts)
    (hkind : t.kind = .identifier) (hpos : 0 < n) (hn : n ≤ generatedCount goal ts)
    (specifier : String) : t.value ≠ temporaryName specifier n := by
  intro heq
  refine h t ht hkind (n - 1) (by omega) ?_
  rw [Nat.sub_add_cancel hpos, heq, toList_temporaryName]
  exact List.suffix_append ..

end

/-- **Generated names are told apart by their numbers.**  Each number up to that of the last generated
name belongs to one declaration, and the numbers become greater from left to right, so that no two
declarations are given the same name.  Each of the names is declared in the code.  It is none of the
identifiers of the text if none of these ends in an underscore and such a number. -/
theorem generated_names (text : String) (module : ModuleKind) (target : ScriptTarget) :
    let goal := Goal.of module target
    let ts : TokenStream := (Scan.ofText text).tokens
    (∀ n, (∃ i source, Generates goal ts i source n) ↔ 0 < n ∧ n ≤ generatedCount goal ts) ∧
    (∀ i source n, Generates goal ts i source n →
      (declare goal (temporaryName (ts.value source) n)
        (requireCall (ts.source source))).toList <:+: program goal ts text.toList) ∧
    (∀ i source n i' source' n', Generates goal ts i source n → Generates goal ts i' source' n' →
      (i < i' ↔ n < n') ∧
        (i ≠ i' → temporaryName (ts.value source) n ≠ temporaryName (ts.value source') n')) ∧
    (NoneNumbered goal ts → ∀ i source n, Generates goal ts i source n →
      ∀ t ∈ ts, t.kind = .identifier → t.value ≠ temporaryName (ts.value source) n) := by
  intro goal ts
  refine ⟨fun n => ⟨fun ⟨i, source, hn⟩ => hn.bounds, fun hn => exists_generates hn.1 hn.2⟩,
    fun i source n hn => ?_, fun i source n i' source' n' hn hn' =>
      ⟨hn.lt_iff hn', fun hne heq => ?_⟩, fun h i source n hn t ht hkind => ?_⟩
  · obtain ⟨d, further, -, hreplaces⟩ := hn
    have hinfix := hreplaces.infix_program
    rw [String.toList_append] at hinfix
    exact (List.prefix_append ..).isInfix.trans hinfix
  · have hserial := serial_of_temporaryName heq
    rcases Nat.lt_or_gt_of_ne hne with hlt | hlt
    · exact absurd hserial (Nat.ne_of_lt (hn.lt_of_lt hn' hlt))
    · exact absurd hserial.symm (Nat.ne_of_lt (hn'.lt_of_lt hn hlt))
  · exact h.ne ht hkind hn.bounds.1 hn.bounds.2 _

/-- Two declarations that need the object of a module, with identifiers that are nearly generated. -/
def twoModules : String :=
  "import d , * as e from './m' ; export * from '../n/1.js' ; let m_3 = d , m_01 = e ;"

theorem generated_names_twoModules :
    let goal := Goal.of .commonJs .es2015
    let ts : TokenStream := (Scan.ofText twoModules).tokens
    NoneNumbered goal ts ∧ ∃ i source i' source',
      Generates goal ts i source 1 ∧ Generates goal ts i' source' 2 ∧ i < i' ∧
        temporaryName (ts.value source) 1 ≠ temporaryName (ts.value source') 2 ∧
        ∀ t ∈ ts, t.kind = .identifier → t.value ≠ temporaryName (ts.value source') 2 := by
  intro goal ts
  have hfacts : NoneNumbered goal ts ∧ generatedCount goal ts = 2 := by decide +kernel
  obtain ⟨hnumbers, -, horder, hfresh⟩ := generated_names twoModules .commonJs .es2015
  obtain ⟨i, source, hfirst⟩ := (hnumbers 1).mpr (by rw [hfacts.2]; decide)
  obtain ⟨i', source', hsecond⟩ := (hnumbers 2).mpr (by rw [hfacts.2]; decide)
  have hlt := (horder _ _ _ _ _ _ hfirst hsecond).1.mpr (by decide)
  exact ⟨hfacts.1, i, source, i', source', hfirst, hsecond, hlt,
    (horder _ _ _ _ _ _ hfirst hsecond).2 (Nat.ne_of_lt hlt), hfresh hfacts.1 _ _ _ hsecond⟩

/-! ## A name that is taken -/

/-- A string literal without backslashes stands for the text between its quotes. -/
theorem value_of_literal {text : String} {i : Nat} {quote : Char} {content : List Char}
    (hkind : TokenStream.kind (Scan.ofText text).tokens i = .stringLiteral)
    (hsource : (TokenStream.source (Scan.ofText text).tokens i).toList =
      quote :: (content ++ [quote]))
    (hplain : '\\' ∉ content) :
    TokenStream.value (Scan.ofText text).tokens i = String.ofList content := by
  have hi : i < (Scan.ofText text).tokens.length :=
    lt_length_of_kind fun hend => absurd (hkind.symm.trans hend) (by decide)
  have hget := List.getElem?_eq_getElem hi
  have hinner : Piece.inner 1 1 (quote :: (content ++ [quote])) = content := by simp [Piece.inner]
  rw [kind, hget, Option.elim_some] at hkind
  rw [TokenStream.source, hget, Option.elim_some] at hsource
  rw [value, hget, Option.elim_some, Scan.value_eq (List.getElem_mem hi), hkind, hsource,
    Piece.value, hinner, Escape.decode_of_not_mem hplain]

/-- A text that has an identifier of its own with the name that is generated for a module. -/
def takenName : String := "import d , \x7b x \x7d from './m' ; let m_1 = 2 ;"

/-- What takes the place of the import in it. -/
def takenCode : String :=
  "const m_1 = require('./m'); const d = m_1.default; const \x7b x \x7d = m_1;"

/-- **A generated name can be that of an identifier of the text,** which the code then declares
twice. -/
theorem generated_name_taken :
    let goal := Goal.of .commonJs .es2015
    let ts : TokenStream := (Scan.ofText takenName).tokens
    (∃ i source n, Generates goal ts i source n ∧
      ∃ t ∈ ts, t.kind = .identifier ∧ t.value = temporaryName (ts.value source) n) ∧
    program goal ts takenName.toList =
      moduleMarker.toList ++ (takenCode ++ " let m_1 = 2 ;").toList := by
  intro goal ts
  have hparts : beginsImport ts 0 = true ∧ ts.pastStatement 0 = 9 ∧
      ImportClause.read ts 1 9 = ⟨some 1, none, [⟨4, 5, 4, none, false⟩], some 7⟩ ∧
      isTypeImport ts 1 = false ∧ ts.kind 2 = .comma ∧ ts.source 7 = "'./m'" ∧ 0 < ts.last ∧
      (firstDraft goal ts).isClaimed 0 = false ∧ (firstDraft goal ts).temporaries = 0 := by
    decide +kernel
  obtain ⟨hbegins, hstop, hread, htype, hcomma, hsource, hlast, hfree, hzero⟩ := hparts
  have hvalue : ts.value 7 = "./m" := by
    refine @value_of_literal takenName 7 '\'' "./m".toList ?_ ?_ ?_ <;> decide +kernel
  have hvisit : visit goal ts (firstDraft goal ts) 0 =
      ⟨[.useTemporary, .replace 0 9 takenCode], 9⟩ := by
    have hgoal : goal.commonJs = true := rfl
    rw [visit_of_beginsImport hbegins, importDeclaration]
    simp only [hstop, hread, htype, hcomma, hzero, hvalue, hgoal]
    decide +kernel
  have hedits : (walk goal ts (firstDraft goal ts) 0).edits.reverse =
      [⟨0, 0, moduleMarker.toList⟩, ⟨0, 29, takenCode.toList⟩] := by
    rw [walk_visit hlast hfree, hvisit]
    decide +kernel
  refine ⟨⟨0, 7, 1, ⟨firstDraft goal ts, " const d = m_1.default; const \x7b x \x7d = m_1;",
    by rw [hzero], ⟨.first, hlast, hfree⟩, ?_⟩, ?_⟩, ?_⟩
  · rw [hvisit, hstop, hvalue, hsource]
    decide +kernel
  · rw [hvalue]
    decide +kernel
  · rw [program_of_sorted (by rw [hedits]; decide), hedits]
    decide +kernel

end TypeScriptEngine.Emit
