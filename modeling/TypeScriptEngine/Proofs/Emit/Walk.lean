import TypeScriptEngine.Emit.Program

/-! # The edits of the walk

Every edit that the walk leaves behind was made by a change that some visit proposed
(`mem_edits_walk`), except for the marker that an emission may begin with.  The visits of a walk are
those tokens that it reaches unclaimed (`Visits`).
-/

namespace TypeScriptEngine.Emit

open TokenStream

/-! ## The edits of a change -/

/-- An edit that a change makes.  An erasure makes one for each run of tokens that it still finds
unclaimed, and each such run lies in its range. -/
def Change.Makes (ts : TokenStream) (e : Edit) : Change → Prop
  | .erase first stop =>
    ∃ a b, first ≤ a ∧ a < b ∧ b ≤ min stop ts.last ∧ e = ⟨ts.startOf a, ts.stopOf (b - 1), []⟩
  | .replace first stop text =>
    e = ⟨ts.startOf first, ts.stopOf (max (min stop ts.last) (first + 1) - 1), text.toList⟩
  | .insertAfter i text => e = ⟨ts.stopOf i, ts.stopOf i, text.toList⟩
  | .claim .. | .openClassBody _ | .useTemporary => False

namespace Draft

variable {ts : TokenStream} {d : Draft} {e : Edit} {c : Change} {changes : List Change}

@[simp] theorem edits_claimTokens (d : Draft) (first n : Nat) :
    (d.claimTokens first n).edits = d.edits := by
  induction n generalizing d first with
  | zero => rfl
  | succ n ih => exact ih _ _

/-- A run that was open before `i` and stops there. -/
theorem openRun_bounds {i first : Nat} {run? : Option Nat} {run : Nat × Nat}
    (hopen : ∀ k ∈ run?, first ≤ k ∧ k < i) (hrun : run ∈ (run?.map fun k => (k, i)).toList) :
    first ≤ run.1 ∧ run.1 < run.2 ∧ run.2 = i := by
  obtain ⟨k, hk, rfl⟩ := Option.map_eq_some_iff.mp (Option.mem_toList.mp hrun)
  exact ⟨(hopen k hk).1, (hopen k hk).2, rfl⟩

/-- Runs lie among the tokens that were looked at. -/
theorem freeRuns_bounds {i n first : Nat} {run? : Option Nat} {run : Nat × Nat}
    (hfirst : first ≤ i) (hopen : ∀ k ∈ run?, first ≤ k ∧ k < i)
    (hrun : run ∈ d.freeRuns i run? n) : first ≤ run.1 ∧ run.1 < run.2 ∧ run.2 ≤ i + n := by
  induction n generalizing i run? with
  | zero =>
    obtain ⟨hle, hlt, hstop⟩ := openRun_bounds hopen hrun
    exact ⟨hle, hlt, Nat.le_of_eq hstop⟩
  | succ n ih =>
    rw [freeRuns] at hrun
    rw [← Nat.succ_add_eq_add_succ]
    split at hrun
    · rcases List.mem_append.mp hrun with h | h
      · obtain ⟨hle, hlt, hstop⟩ := openRun_bounds hopen h
        exact ⟨hle, hlt, by omega⟩
      · exact ih (Nat.le_succ_of_le hfirst) (fun _ hk => by contradiction) h
    · refine ih (Nat.le_succ_of_le hfirst) (fun k hk => ?_) hrun
      obtain rfl := Option.mem_some.mp hk
      -- the run that is open now began before, or begins here
      cases run? with
      | none => exact ⟨hfirst, Nat.lt_succ_self i⟩
      | some k => exact ⟨(hopen k rfl).1, Nat.lt_succ_of_lt (hopen k rfl).2⟩

/-- Adds the edits that erase runs of tokens. -/
def addRuns (ts : TokenStream) (d : Draft) (runs : List (Nat × Nat)) : Draft :=
  runs.foldl (fun d run => d.addEdit ts run.1 (run.2 - 1) "") d

/-- An erasure adds the edits for the runs that it finds, and then claims its tokens. -/
theorem apply_erase_eq (d : Draft) (first stop : Nat) :
    d.apply ts (.erase first stop) =
      (d.addRuns ts (d.freeRuns first none (min stop ts.last - first))).claimTokens first
        (min stop ts.last - first) := rfl

/-- Adding edits for some runs adds nothing else. -/
theorem mem_edits_addRuns {runs : List (Nat × Nat)} (h : e ∈ (d.addRuns ts runs).edits) :
    e ∈ d.edits ∨ ∃ run ∈ runs, e = ⟨ts.startOf run.1, ts.stopOf (run.2 - 1), []⟩ := by
  induction runs generalizing d with
  | nil => exact .inl h
  | cons run runs ih =>
    rcases ih h with h | ⟨other, hmem, rfl⟩
    · rcases List.mem_cons.mp h with rfl | h
      · exact .inr ⟨run, List.mem_cons_self .., rfl⟩
      · exact .inl h
    · exact .inr ⟨other, List.mem_cons_of_mem _ hmem, rfl⟩

/-- Carrying out a change adds the edits that it makes. -/
theorem mem_edits_apply (h : e ∈ (d.apply ts c).edits) : e ∈ d.edits ∨ c.Makes ts e := by
  cases c with
  | erase first stop =>
    rw [apply_erase_eq, edits_claimTokens] at h
    refine (mem_edits_addRuns h).imp_right fun ⟨run, hrun, he⟩ => ?_
    obtain ⟨hfirst, hlt, hstop⟩ := freeRuns_bounds (Nat.le_refl first)
      (fun _ hk => by contradiction) hrun
    exact ⟨run.1, run.2, hfirst, hlt, by omega, he⟩
  | replace first stop text =>
    rw [apply, edits_claimTokens] at h
    exact (List.mem_cons.mp h).symm
  | insertAfter i text => exact (List.mem_cons.mp h).symm
  | claim first stop =>
    rw [apply, edits_claimTokens] at h
    exact .inl h
  | openClassBody i => exact .inl h
  | useTemporary => exact .inl h

theorem mem_edits_applyAll (h : e ∈ (d.applyAll ts changes).edits) :
    e ∈ d.edits ∨ ∃ c ∈ changes, c.Makes ts e := by
  induction changes generalizing d with
  | nil => exact .inl h
  | cons c changes ih =>
    rcases ih h with h | ⟨c', hmem, hmakes⟩
    · exact (mem_edits_apply h).imp_right fun hmakes => ⟨c, List.mem_cons_self .., hmakes⟩
    · exact .inr ⟨c', List.mem_cons_of_mem _ hmem, hmakes⟩

/-- No edit is taken back. -/
theorem edits_suffix_addRuns (runs : List (Nat × Nat)) (d : Draft) :
    d.edits <:+ (d.addRuns ts runs).edits := by
  induction runs generalizing d with
  | nil => exact List.suffix_refl _
  | cons run runs ih => exact List.IsSuffix.trans (List.suffix_cons _ d.edits) (ih (d.addEdit ..))

theorem edits_suffix_apply (d : Draft) (c : Change) : d.edits <:+ (d.apply ts c).edits := by
  cases c with
  | erase first stop =>
    rw [apply_erase_eq, edits_claimTokens]
    exact edits_suffix_addRuns _ d
  | replace first stop text =>
    rw [apply, edits_claimTokens]
    exact List.suffix_cons _ _
  | insertAfter i text => exact List.suffix_cons _ _
  | claim first stop => exact (edits_claimTokens d first _).symm ▸ List.suffix_refl _
  | openClassBody i => exact List.suffix_refl _
  | useTemporary => exact List.suffix_refl _

theorem edits_suffix_applyAll (d : Draft) (changes : List Change) :
    d.edits <:+ (d.applyAll ts changes).edits := by
  induction changes generalizing d with
  | nil => exact List.suffix_refl _
  | cons c changes ih => exact (edits_suffix_apply d c).trans (ih _)

end Draft

/-! ## The visits of the walk -/

/-- The walk comes to a token with a draft. -/
inductive Reaches (goal : Goal) (ts : TokenStream) : Draft → Nat → Prop where
  | first : Reaches goal ts (firstDraft goal ts) 0
  | pass {d : Draft} {i : Nat} (h : Reaches goal ts d i) (hi : i < ts.last)
      (hclaimed : d.isClaimed i = true) : Reaches goal ts d (i + 1)
  | visit {d : Draft} {i : Nat} (h : Reaches goal ts d i) (hi : i < ts.last)
      (hfree : d.isClaimed i = false) :
      Reaches goal ts (d.applyAll ts (visit goal ts d i).changes)
        (max (visit goal ts d i).next (i + 1))

/-- The walk visits a token with a draft: it comes to it and finds it unclaimed. -/
structure Visits (goal : Goal) (ts : TokenStream) (d : Draft) (i : Nat) : Prop where
  reaches : Reaches goal ts d i
  lt_last : i < ts.last
  free : d.isClaimed i = false

variable {goal : Goal} {ts : TokenStream} {d : Draft} {i : Nat}

/-- What holds of the first draft and is kept by every visit holds of every draft that the walk comes
to a token with. -/
theorem Reaches.draft_induction {P : Draft → Prop} (hfirst : P (firstDraft goal ts))
    (hvisit : ∀ d i, Visits goal ts d i → P d → P (d.applyAll ts (Emit.visit goal ts d i).changes))
    (h : Reaches goal ts d i) : P d := by
  induction h with
  | first => exact hfirst
  | pass _ _ _ ih => exact ih
  | visit h hi hfree ih => exact hvisit _ _ ⟨h, hi, hfree⟩ ih

/-- The walk comes to its end with the last draft. -/
theorem Reaches.exists_walk (h : Reaches goal ts d i) :
    ∃ j, Reaches goal ts (walk goal ts d i) j := by
  fun_induction walk goal ts d i with
  | case1 d i hi hclaimed ih => exact ih (h.pass hi hclaimed)
  | case2 d i hi hfree step ih => exact ih (h.visit hi (Bool.eq_false_iff.mpr hfree))
  | case3 d i _ => exact ⟨i, h⟩

/-- **What holds of the first draft and is kept by every visit holds of the last draft.** -/
theorem walk_induction {P : Draft → Prop} (hfirst : P (firstDraft goal ts))
    (hvisit : ∀ d i, Visits goal ts d i → P d → P (d.applyAll ts (visit goal ts d i).changes)) :
    P (walk goal ts (firstDraft goal ts) 0) := by
  obtain ⟨j, h⟩ := (Reaches.first : Reaches goal ts _ 0).exists_walk
  exact h.draft_induction hfirst hvisit

theorem edits_suffix_walk (d : Draft) (i : Nat) : d.edits <:+ (walk goal ts d i).edits := by
  fun_induction walk goal ts d i with
  | case1 d i _ _ ih => exact ih
  | case2 d i _ _ step ih => exact (Draft.edits_suffix_applyAll d _).trans ih
  | case3 => exact List.suffix_refl _


/-- With ES modules there is no marker. -/
theorem firstDraft_of_esModule (hgoal : goal.commonJs = false) :
    firstDraft goal ts = .empty ts := by
  rw [firstDraft, hgoal, Bool.false_and]
  rfl

/-- The marker is the only edit of the first draft. -/
theorem mem_edits_firstDraft {e : Edit} (h : e ∈ (firstDraft goal ts).edits) :
    goal.commonJs = true ∧ e = ⟨0, 0, moduleMarker.toList⟩ := by
  unfold firstDraft at h
  simp only at h
  split at h
  · rename_i hmarked
    exact ⟨(Bool.and_eq_true_iff.mp hmarked).1, List.mem_singleton.mp h⟩
  · contradiction

/-- **Every edit was proposed by a visit,** or is the marker. -/
theorem mem_edits_walk {e : Edit} (h : e ∈ (walk goal ts (firstDraft goal ts) 0).edits) :
    (goal.commonJs = true ∧ e = ⟨0, 0, moduleMarker.toList⟩) ∨
      ∃ d i, Visits goal ts d i ∧ ∃ c ∈ (visit goal ts d i).changes, c.Makes ts e := by
  refine walk_induction (P := fun d => e ∈ d.edits → _)
    (fun h => .inl (mem_edits_firstDraft h)) (fun d i hvisits ih h => ?_) h
  rcases Draft.mem_edits_applyAll h with h | hmakes
  · exact ih h
  · exact .inr ⟨d, i, hvisits, hmakes⟩

end TypeScriptEngine.Emit
