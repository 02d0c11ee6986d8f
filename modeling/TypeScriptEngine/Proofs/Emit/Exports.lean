import TypeScriptEngine.Proofs.Emit.Insertion
import TypeScriptEngine.Proofs.Token.Tiling

/-! # What exports insert

Behind the beginning of a text nothing is inserted but by `export` declarations, and what they insert at
one place stands there in the order of the declarations: equal ranges stay in order when the edits are
sorted (`filter_mergeSort`).  So what stands behind a declaration is what it inserts itself, between what
exports before and behind it insert at the same place (`Visits.insertedAmid`).
-/

namespace TypeScriptEngine.Emit

open TokenStream

/-! ## Insertions at a place -/

/-- What a change inserts at a place. -/
def Change.insertedAt (ts : TokenStream) (p : Nat) : Change → List Char
  | .insertAfter i text => if ts.stopOf i = p then text.toList else []
  | .erase .. | .replace .. | .claim .. | .openClassBody _ | .useTemporary => []

/-- What changes insert at a place, one after another. -/
def changesAt (ts : TokenStream) (p : Nat) (changes : List Change) : List Char :=
  changes.flatMap (Change.insertedAt ts p)

/-- What the export at `i` inserts at a place. -/
def exportedAt (goal : Goal) (ts : TokenStream) (p i : Nat) : List Char :=
  changesAt ts p (exportDeclaration goal ts 0 i).changes

/-- What a draft inserts at a place, in the order in which it was proposed. -/
def Draft.insertedAt (d : Draft) (p : Nat) : List Char :=
  (d.edits.reverse.filter fun e => e.start == p && e.stop == p).flatMap Edit.text

section

variable {ts : TokenStream} {p : Nat} {changes changes' : List Change}

@[simp] theorem changesAt_nil : changesAt ts p [] = [] := rfl

@[simp] theorem changesAt_cons (c : Change) :
    changesAt ts p (c :: changes) = c.insertedAt ts p ++ changesAt ts p changes := rfl

@[simp] theorem changesAt_append :
    changesAt ts p (changes ++ changes') = changesAt ts p changes ++ changesAt ts p changes' :=
  List.flatMap_append

@[simp] theorem insertedAt_erase (first stop : Nat) :
    (Change.erase first stop).insertedAt ts p = [] := rfl

@[simp] theorem insertedAt_replace (first stop : Nat) (text : String) :
    (Change.replace first stop text).insertedAt ts p = [] := rfl

@[simp] theorem insertedAt_claim (first stop : Nat) :
    (Change.claim first stop).insertedAt ts p = [] := rfl

@[simp] theorem insertedAt_useTemporary : Change.useTemporary.insertedAt ts p = [] := rfl

/-- The name that a declaration may use up inserts nothing. -/
@[simp] theorem changesAt_temporary (used : Bool) :
    changesAt ts p (if used then [.useTemporary] else []) = [] := by
  cases used <;> rfl

/-- What brings in no text inserts nothing. -/
theorem Erasing.changesAt_eq (h : Erasing changes) : changesAt ts p changes = [] := by
  refine List.flatMap_eq_nil_iff.mpr fun c hc => ?_
  have hnone := h c hc
  cases c with
  | insertAfter i text => exact absurd hnone (Option.some_ne_none _)
  | _ => rfl

end

/-! ## Insertions of a visit -/

section

variable {goal : Goal} {ts : TokenStream} {d : Draft} {p i stop temporaries : Nat}

/-- An import inserts nothing. -/
theorem changesAt_importDeclaration :
    changesAt ts p (importDeclaration goal ts temporaries i).changes = [] := by
  have hequals : changesAt ts p (importEquals goal ts i (ts.pastStatement i)) = [] := by
    unfold importEquals
    simp only
    split <;> simp
  unfold importDeclaration
  simp only
  split
  · simp
  split
  · exact hequals
  split
  · simp
  · simp
  · simp [(erasing_eraseTypes _).changesAt_eq]

theorem changesAt_exportStar : changesAt ts p (exportStar goal ts temporaries i stop) = [] := by
  unfold exportStar
  simp only
  split
  · simp
  · split <;> simp

theorem changesAt_exportList : changesAt ts p (exportList goal ts temporaries i stop) = [] := by
  unfold exportList
  simp

/-- What an export inserts does not depend on the names that were generated before. -/
theorem changesAt_exportDeclaration (goal : Goal) (ts : TokenStream) (p temporaries i : Nat) :
    changesAt ts p (exportDeclaration goal ts temporaries i).changes = exportedAt goal ts p i := by
  unfold exportedAt exportDeclaration
  simp only
  split
  · rfl
  · split
    · unfold exportCommonJs
      simp only
      cases ts.kind (i + 1) with
      | lbrace => exact changesAt_exportList.trans changesAt_exportList.symm
      | star => exact changesAt_exportStar.trans changesAt_exportStar.symm
      | _ => rfl
    · rfl

/-- **A visit inserts nothing unless an export begins there.** -/
theorem changesAt_visit (goal : Goal) (ts : TokenStream) (d : Draft) (p i : Nat) :
    changesAt ts p (visit goal ts d i).changes =
      if beginsExport ts i then exportedAt goal ts p i else [] := by
  cases hexport : beginsExport ts i with
  | true => rw [visit_of_beginsExport hexport, changesAt_exportDeclaration, if_pos rfl]
  | false =>
    rw [if_neg Bool.false_ne_true]
    cases himport : beginsImport ts i with
    | true => rw [visit_of_beginsImport himport, changesAt_importDeclaration]
    | false => exact (erasing_visit himport hexport).changesAt_eq

end

/-! ## Insertions of the walk -/

/-- Edits with the same range stay in order when all are sorted. -/
theorem filter_mergeSort (edits : List Edit) (p : Nat) :
    ((edits.mergeSort Edit.le).filter fun e => e.start == p && e.stop == p) =
      edits.filter fun e => e.start == p && e.stop == p := by
  have hsame : (edits.filter fun e => e.start == p && e.stop == p).Pairwise
      fun e f => Edit.le e f = true := by
    refine List.pairwise_of_forall_mem_list fun e he f hf => ?_
    have he := (List.mem_filter.mp he).2
    have hf := (List.mem_filter.mp hf).2
    simp only [Edit.le, Bool.or_eq_true, Bool.and_eq_true, decide_eq_true_eq, beq_iff_eq] at *
    omega
  have hsub := (List.sublist_mergeSort le_trans_edits le_total_edits hsame List.filter_sublist).filter
    fun e => e.start == p && e.stop == p
  rw [List.filter_filter] at hsub
  simp only [Bool.and_self] at hsub
  refine (hsub.eq_of_length ?_).symm
  exact (((List.mergeSort_perm edits Edit.le).filter _).length_eq).symm

variable {goal : Goal} {text : String} {ts : TokenStream} {d : Draft} {c : Change}
  {changes : List Change} {p i : Nat}

theorem insertedAt_eq_walk :
    insertedAt goal ts p = (walk goal ts (firstDraft goal ts) 0).insertedAt p := by
  rw [insertedAt, orderedEdits, filter_mergeSort, Draft.insertedAt]

namespace Draft

/-- An edit more inserts its text, if it does that at the place. -/
theorem insertedAt_cons (d : Draft) (e : Edit) (p : Nat) :
    Draft.insertedAt { d with edits := e :: d.edits } p =
      d.insertedAt p ++ if e.start = p ∧ e.stop = p then e.text else [] := by
  unfold insertedAt
  rw [List.reverse_cons, List.filter_append, List.flatMap_append]
  refine congrArg (_ ++ ·) ?_
  by_cases h : e.start = p ∧ e.stop = p
  · simp [h]
  · rw [if_neg h, List.filter_cons_of_neg (by simpa using h)]
    rfl

@[simp] theorem insertedAt_claimTokens (d : Draft) (first n : Nat) :
    (d.claimTokens first n).insertedAt p = d.insertedAt p := by
  rw [insertedAt, edits_claimTokens, ← insertedAt]

@[simp] theorem insertedAt_addRuns (runs : List (Nat × Nat)) (d : Draft) :
    (d.addRuns ts runs).insertedAt p = d.insertedAt p := by
  induction runs generalizing d with
  | nil => rfl
  | cons run runs ih =>
    refine (ih (d.addEdit ts run.1 (run.2 - 1) "")).trans ((insertedAt_cons d _ p).trans ?_)
    simp

/-- **A change inserts at a place what it says.** -/
theorem insertedAt_apply (hfits : c.Fits (Scan.ofText text).tokens) :
    (d.apply (Scan.ofText text).tokens c).insertedAt p =
      d.insertedAt p ++ c.insertedAt (Scan.ofText text).tokens p := by
  cases c with
  | erase first stop =>
    rw [apply_erase_eq, insertedAt_claimTokens, insertedAt_addRuns]
    exact (List.append_nil _).symm
  | replace first stop newText =>
    -- what is replaced is not empty
    have hfirst := (fits_replace ..).mp hfits
    have hwidth := startOf_lt_stopOf (Scan.kind_ne_eof hfirst)
    have hlast : last (Scan.ofText text).tokens ≤ List.length (Scan.ofText text).tokens :=
      Nat.sub_le ..
    have hle : stopOf (Scan.ofText text).tokens first ≤ stopOf (Scan.ofText text).tokens
        (max (min stop (last (Scan.ofText text).tokens)) (first + 1) - 1) :=
      stopOf_le_stopOf (by omega) (by omega)
    rw [apply, insertedAt_claimTokens]
    exact (insertedAt_cons d _ p).trans (by rw [if_neg (by simp only; omega)]; rfl)
  | insertAfter i newText =>
    refine (insertedAt_cons d _ p).trans ?_
    simp [Change.insertedAt]
  | claim first stop =>
    rw [apply, insertedAt_claimTokens]
    exact (List.append_nil _).symm
  | openClassBody i => exact (List.append_nil _).symm
  | useTemporary => exact (List.append_nil _).symm

theorem insertedAt_applyAll (hfits : AllFit (Scan.ofText text).tokens changes) :
    (d.applyAll (Scan.ofText text).tokens changes).insertedAt p =
      d.insertedAt p ++ changesAt (Scan.ofText text).tokens p changes := by
  induction changes generalizing d with
  | nil => exact (List.append_nil _).symm
  | cons c changes ih =>
    obtain ⟨hc, hchanges⟩ := allFit_cons.mp hfits
    refine (ih hchanges).trans ?_
    rw [insertedAt_apply hc, changesAt_cons, List.append_assoc]

end Draft

/-- What a visit adds at a place: nothing, or what the export there inserts. -/
theorem Visits.insertedAt_eq (h : Visits goal (Scan.ofText text).tokens d i) :
    (d.applyAll (Scan.ofText text).tokens
      (visit goal (Scan.ofText text).tokens d i).changes).insertedAt p = d.insertedAt p ++
        if beginsExport (Scan.ofText text).tokens i then
          exportedAt goal (Scan.ofText text).tokens p i
        else [] := by
  rw [Draft.insertedAt_applyAll (allFit_visit h.lt_last), changesAt_visit]

/-- The export at a token inserts something at a place. -/
structure InsertsAt (goal : Goal) (ts : TokenStream) (p i : Nat) : Prop where
  begins : beginsExport ts i = true
  inserts : exportedAt goal ts p i ≠ []

theorem InsertsAt.lt_length (h : InsertsAt goal ts p i) : i < ts.length := by
  refine lt_length_of_kind fun heof => ?_
  have hbegins := h.begins
  simp [beginsExport, heof] at hbegins

/-- One export, or none, that inserts what a visit does. -/
theorem exists_export (goal : Goal) (ts : TokenStream) (p i : Nat) :
    ∃ js : List Nat, (if beginsExport ts i then exportedAt goal ts p i else []) =
      js.flatMap (exportedAt goal ts p) ∧ ∀ j ∈ js, j = i ∧ InsertsAt goal ts p j := by
  by_cases hbegins : beginsExport ts i = true
  · rw [if_pos hbegins]
    by_cases hinserts : exportedAt goal ts p i = []
    · exact ⟨[], hinserts, by simp⟩
    · exact ⟨[i], by simp, by simpa using ⟨hbegins, hinserts⟩⟩
  · exact ⟨[], if_neg hbegins, by simp⟩

/-- **What the walk has inserted at a place when it comes to a token** is what exports before the token
insert there. -/
theorem Reaches.exists_exports (h : Reaches goal (Scan.ofText text).tokens d i) (hp : 0 < p) :
    ∃ earlier : List Nat,
      d.insertedAt p = earlier.flatMap (exportedAt goal (Scan.ofText text).tokens p) ∧
      ∀ j ∈ earlier, j < i ∧ InsertsAt goal (Scan.ofText text).tokens p j := by
  generalize hts : (Scan.ofText text).tokens = ts at h ⊢
  induction h with
  | first =>
    -- the marker stands at the beginning of the text
    refine ⟨[], List.flatMap_eq_nil_iff.mpr fun e he => ?_, by simp⟩
    obtain ⟨he, hplace⟩ := List.mem_filter.mp he
    obtain ⟨-, rfl⟩ := mem_edits_firstDraft (List.mem_reverse.mp he)
    simp only [Bool.and_self, beq_iff_eq] at hplace
    omega
  | pass _ _ _ ih =>
    obtain ⟨earlier, hinserted, hearlier⟩ := ih
    exact ⟨earlier, hinserted, fun j hj => ⟨Nat.lt_succ_of_lt (hearlier j hj).1, (hearlier j hj).2⟩⟩
  | @visit d i h hi hfree ih =>
    obtain ⟨earlier, hinserted, hearlier⟩ := ih
    obtain ⟨here, hhere, hmem⟩ := exists_export goal ts p i
    have hvisits : Visits goal ts d i := ⟨h, hi, hfree⟩
    subst hts
    refine ⟨earlier ++ here, ?_, fun j hj => ?_⟩
    · rw [hvisits.insertedAt_eq, hinserted, hhere, List.flatMap_append]
    · rcases List.mem_append.mp hj with hj | hj
      · have := (hearlier j hj).1
        exact ⟨by omega, (hearlier j hj).2⟩
      · have := (hmem j hj).1
        exact ⟨by omega, (hmem j hj).2⟩

/-- **What the walk goes on to insert at a place** is what exports from the token on insert there. -/
theorem Reaches.exists_exports_walk (h : Reaches goal (Scan.ofText text).tokens d i) :
    ∃ later : List Nat, (walk goal (Scan.ofText text).tokens d i).insertedAt p =
      d.insertedAt p ++ later.flatMap (exportedAt goal (Scan.ofText text).tokens p) ∧
      ∀ j ∈ later, i ≤ j ∧ InsertsAt goal (Scan.ofText text).tokens p j := by
  generalize hts : (Scan.ofText text).tokens = ts at h ⊢
  fun_induction walk goal ts d i with
  | case1 d i hi hclaimed ih =>
    obtain ⟨later, hinserted, hlater⟩ := ih (h.pass hi hclaimed)
    exact ⟨later, hinserted, fun j hj => ⟨Nat.le_of_succ_le (hlater j hj).1, (hlater j hj).2⟩⟩
  | case2 d i hi hfree step ih =>
    have hfree := Bool.eq_false_iff.mpr hfree
    obtain ⟨later, hinserted, hlater⟩ := ih (h.visit hi hfree)
    obtain ⟨here, hhere, hmem⟩ := exists_export goal ts p i
    have hvisits : Visits goal ts d i := ⟨h, hi, hfree⟩
    subst hts
    refine ⟨here ++ later, ?_, fun j hj => ?_⟩
    · rw [hinserted, hvisits.insertedAt_eq, hhere, List.flatMap_append, List.append_assoc]
    · rcases List.mem_append.mp hj with hj | hj
      · have := (hmem j hj).1
        exact ⟨by omega, (hmem j hj).2⟩
      · have := (hlater j hj).1
        exact ⟨by omega, (hlater j hj).2⟩
  | case3 d i _ => exact ⟨[], by simp, by simp⟩

/-! ## One export among others -/

/-- What is inserted at a place is `own`, between what exports before and behind `i` insert there. -/
def InsertedAmid (goal : Goal) (ts : TokenStream) (p i : Nat) (own : List Char) : Prop :=
  ∃ earlier later : List Nat, insertedAt goal ts p =
      earlier.flatMap (exportedAt goal ts p) ++ (own ++ later.flatMap (exportedAt goal ts p)) ∧
    (∀ j ∈ earlier, j < i ∧ InsertsAt goal ts p j) ∧ ∀ j ∈ later, i < j ∧ InsertsAt goal ts p j

namespace InsertedAmid

variable {own : List Char}

/-- It comes first if no export before `i` inserts anything there. -/
theorem own_prefix (h : InsertedAmid goal ts p i own) (hfirst : ∀ j < i, ¬ InsertsAt goal ts p j) :
    own <+: insertedAt goal ts p := by
  obtain ⟨earlier, later, hinserted, hearlier, -⟩ := h
  have hnone : earlier = [] := List.eq_nil_iff_forall_not_mem.mpr fun j hj => by
    obtain ⟨hlt, hinserts⟩ := hearlier j hj
    exact hfirst j hlt hinserts
  rw [hinserted, hnone, List.flatMap_nil, List.nil_append]
  exact List.prefix_append ..

/-- It is all that is inserted if no other export inserts anything there. -/
theorem insertedAt_eq (h : InsertedAmid goal ts p i own)
    (halone : ∀ j, InsertsAt goal ts p j → j = i) : insertedAt goal ts p = own := by
  obtain ⟨earlier, later, hinserted, hearlier, hlater⟩ := h
  have hnone : earlier = [] := List.eq_nil_iff_forall_not_mem.mpr fun j hj => by
    obtain ⟨hlt, hinserts⟩ := hearlier j hj
    exact absurd (halone j hinserts) (Nat.ne_of_lt hlt)
  have hnone' : later = [] := List.eq_nil_iff_forall_not_mem.mpr fun j hj => by
    obtain ⟨hlt, hinserts⟩ := hlater j hj
    exact absurd (halone j hinserts) (Nat.ne_of_gt hlt)
  rw [hinserted, hnone, hnone', List.flatMap_nil, List.nil_append, List.append_nil]

end InsertedAmid

/-- **What stands at a place is what exports insert there,** in their order: those before a token that
the walk visits, the one at the token, and those behind it. -/
theorem Visits.insertedAmid (h : Visits goal (Scan.ofText text).tokens d i)
    (hbegins : beginsExport (Scan.ofText text).tokens i = true) (hp : 0 < p) :
    InsertedAmid goal (Scan.ofText text).tokens p i
      (exportedAt goal (Scan.ofText text).tokens p i) := by
  obtain ⟨earlier, hbefore, hearlier⟩ := h.reaches.exists_exports hp
  obtain ⟨later, hbehind, hlater⟩ := (h.reaches.visit h.lt_last h.free).exists_exports_walk (p := p)
  refine ⟨earlier, later, ?_, hearlier, fun j hj => ?_⟩
  · rw [insertedAt_eq_walk, ← h.reaches.walk_eq, walk_visit h.lt_last h.free, hbehind, h.insertedAt_eq,
      hbefore, if_pos hbegins, List.append_assoc]
  · have := (hlater j hj).1
    exact ⟨by omega, (hlater j hj).2⟩

end TypeScriptEngine.Emit
