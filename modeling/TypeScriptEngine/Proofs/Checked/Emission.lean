import TypeScriptEngine.Proofs.Checked.Visits
import TypeScriptEngine.Proofs.Emit.Cut
import TypeScriptEngine.Proofs.Emit.Fit

/-! # Emission

The walk of an emission keeps an array of the tokens that are claimed, with an entry for each token,
and carries out what a visit proposes on its entries one by one.  The code is put together from
slices of the text.  All entries and slices are there (`program_eq`).
-/

namespace TypeScriptEngine

open TypeScriptEngine.Text TokenStream

namespace Emit.Draft

variable {ts : TokenStream} {d : Draft} {k n : Nat}

/-! ## Claims -/

/-- Claiming tokens that are not there does nothing. -/
theorem claimTokens_of_size_le (h : d.claimed.size ≤ k) (n : Nat) : d.claimTokens k n = d := by
  induction n generalizing k with
  | zero => rfl
  | succ n ih =>
    rw [claimTokens, Array.setIfInBounds_eq_of_size_le h]
    exact ih (Nat.le_succ_of_le h)

theorem claimTokens_eq_of_le {m : Nat} (hmn : m ≤ n) (h : d.claimed.size ≤ k + m) :
    d.claimTokens k n = d.claimTokens k m := by
  induction m generalizing d k n with
  | zero => exact claimTokens_of_size_le h n
  | succ m ih =>
    obtain ⟨n, rfl⟩ := Nat.exists_eq_add_of_le hmn
    rw [Nat.succ_add_eq_add_succ, Nat.add_succ, claimTokens, claimTokens]
    exact ih (Nat.le_add_right ..) (by rw [Array.size_setIfInBounds]; omega)

/-- Runs depend on the claims only. -/
theorem freeRuns_congr {d d' : Draft} (h : ∀ j, k ≤ j → d.isClaimed j = d'.isClaimed j)
    (run? : Option Nat) (n : Nat) : d.freeRuns k run? n = d'.freeRuns k run? n := by
  induction n generalizing k run? with
  | zero => rfl
  | succ n ih =>
    have hnext := fun run? => ih (fun j hj => h j (Nat.le_of_succ_le hj)) run?
    rw [freeRuns, freeRuns, h k (Nat.le_refl k), hnext, hnext]

theorem addRuns_append (runs runs' : List (Nat × Nat)) (d : Draft) :
    d.addRuns ts (runs ++ runs') = (d.addRuns ts runs).addRuns ts runs' := List.foldl_append

theorem addRuns_claimed (runs : List (Nat × Nat)) (d : Draft) (claimed : Array Bool) :
    addRuns ts { d with claimed := claimed } runs =
      { d.addRuns ts runs with claimed := claimed } := by
  induction runs generalizing d with
  | nil => rfl
  | cons run runs ih => exact ih (d.addEdit ts run.1 (run.2 - 1) "")

end Emit.Draft

namespace Checked

open Emit

variable {goal : Goal} {ts : TokenStream} {d : Draft} {c : Change} {changes : List Change}
  {run? : Option Nat} {i k n first stop : Nat}

/-! ## Carrying out a change -/

/-- Claims a token. -/
def claimToken (d : Draft) (i : Nat) : Checked Draft :=
  if i < d.claimed.size then .ok { d with claimed := d.claimed.setIfInBounds i true }
  else .error .index

/-- Adds the edit for a run of tokens that stops before token `i`, if there is one. -/
def closeRun (ts : TokenStream) (d : Draft) (i : Nat) : Option Nat → Checked Draft
  | none => return d
  | some first => return d.addEdit ts first (← sub i 1) ""

/-- Erases the unclaimed ones among the `n` tokens from `i` on, each run of them by one edit. -/
def eraseTokens (ts : TokenStream) (d : Draft) (run? : Option Nat) (i : Nat) : Nat → Checked Draft
  | 0 => closeRun ts d i run?
  | n + 1 => do
    if ← entry d.claimed[i]? then
      let d ← closeRun ts d i run?
      eraseTokens ts (← claimToken d i) none (i + 1) n
    else eraseTokens ts (← claimToken d i) (some (run?.getD i)) (i + 1) n

theorem closeRun_eq (hopen : ∀ first ∈ run?, first < i) :
    closeRun ts d i run? = .ok (d.addRuns ts (run?.map fun first => (first, i)).toList) := by
  cases run? with
  | none => rfl
  | some first =>
    rw [closeRun, sub_eq_ok (Nat.one_le_of_lt (hopen first rfl))]
    rfl

theorem entry_claimed (hi : i < d.claimed.size) : entry d.claimed[i]? = .ok (d.isClaimed i) := by
  rw [Draft.isClaimed, Array.getD_eq_getD_getElem?, Array.getElem?_eq_getElem hi]
  rfl

/-- One turn of the loop.  Later runs do not see that its token was claimed. -/
theorem eraseTokens_claim {d₁ : Draft} (hi : i < d.claimed.size) (hclaimed : d₁.claimed = d.claimed)
    (hsize : i + (n + 1) ≤ d.claimed.size)
    (ih : ∀ d : Draft, i + 1 + n ≤ d.claimed.size → eraseTokens ts d run? (i + 1) n =
      .ok ((d.addRuns ts (d.freeRuns (i + 1) run? n)).claimTokens (i + 1) n)) :
    (claimToken d₁ i >>= fun d => eraseTokens ts d run? (i + 1) n) =
      .ok ((d₁.addRuns ts (d.freeRuns (i + 1) run? n)).claimTokens i (n + 1)) := by
  have hlater (j : Nat) (hj : i + 1 ≤ j) :
      Draft.isClaimed { d₁ with claimed := d.claimed.setIfInBounds i true } j = d.isClaimed j := by
    have h := Draft.isClaimed_set d i j
    rw [Bool.eq_iff_iff]
    exact h.trans (or_iff_left fun h => by omega)
  rw [claimToken, hclaimed, if_pos hi, ok_bind, ih _ (by rw [Array.size_setIfInBounds]; omega),
    Draft.freeRuns_congr hlater, Draft.addRuns_claimed, Draft.claimTokens, Draft.claimed_addRuns,
    hclaimed]

/-- **Erasing token by token** adds the edits for all runs, and claims the tokens. -/
theorem eraseTokens_eq (hopen : ∀ first ∈ run?, first < i) (hsize : i + n ≤ d.claimed.size) :
    eraseTokens ts d run? i n = .ok ((d.addRuns ts (d.freeRuns i run? n)).claimTokens i n) := by
  induction n generalizing d run? i with
  | zero => exact closeRun_eq hopen
  | succ n ih =>
    have hi : i < d.claimed.size := by omega
    rw [eraseTokens, entry_claimed hi, ok_bind, Draft.freeRuns]
    split
    · rw [closeRun_eq hopen, ok_bind, Draft.addRuns_append]
      exact eraseTokens_claim hi (Draft.claimed_addRuns ..) hsize
        fun d hsize => ih (fun _ h => by contradiction) hsize
    · refine eraseTokens_claim hi rfl hsize fun d hsize => ih (fun first hfirst => ?_) hsize
      -- the run that is open now began before, or begins here
      obtain rfl := Option.mem_some.mp hfirst
      cases run? with
      | none => exact Nat.lt_succ_self i
      | some first => exact Nat.lt_succ_of_lt (hopen first rfl)

/-- Claims the tokens of a range, as far as they are there. -/
def claim (d : Draft) (first stop : Nat) : Checked Draft := do
  let stop := min stop d.claimed.size
  range first stop d.claimed.size
  return d.claimTokens first (stop - first)

theorem claim_eq (hfirst : first ≤ d.claimed.size) (hstop : first ≤ stop) :
    claim d first stop = .ok (d.claimTokens first (stop - first)) := by
  have hclaims : d.claimTokens first (stop - first) =
      d.claimTokens first (min stop d.claimed.size - first) := by
    rcases Nat.le_total stop d.claimed.size with hle | hle
    · rw [Nat.min_eq_left hle]
    · rw [Nat.min_eq_right hle]
      exact Draft.claimTokens_eq_of_le (by omega) (by omega)
  rw [hclaims, claim, range_eq_ok (by omega) (Nat.min_le_right ..)]
  rfl

/-- Carries out a change. -/
def apply (ts : TokenStream) (d : Draft) : Change → Checked Draft
  | .erase first stop => eraseTokens ts d none first (min stop ts.last - first)
  | .replace first stop text => do
    let stop := max (min stop ts.last) (first + 1)
    let final ← sub stop 1
    claim (d.addEdit ts first final text) first stop
  | .claim first stop => claim d first stop
  | .insertAfter i text => return d.apply ts (.insertAfter i text)
  | .openClassBody i => return d.apply ts (.openClassBody i)
  | .useTemporary => return d.apply ts .useTemporary

theorem apply_eq (hsize : d.claimed.size = ts.length) (hfits : c.Fits ts) :
    apply ts d c = .ok (d.apply ts c) := by
  have hlast : ts.last ≤ ts.length := Nat.sub_le ..
  cases c with
  | erase first stop =>
    rw [apply, Draft.apply_erase_eq]
    by_cases hrange : first ≤ min stop ts.last
    · exact eraseTokens_eq (fun _ h => by contradiction) (by omega)
    · -- there is no token to erase
      rw [Nat.sub_eq_zero_of_le (Nat.le_of_not_le hrange)]
      rfl
  | replace first stop text =>
    have hfirst := (fits_replace ..).mp hfits
    rw [apply, Draft.apply, sub_eq_ok (by omega), ok_bind]
    exact claim_eq (by show first ≤ d.claimed.size; omega) (by omega)
  | claim first stop =>
    obtain ⟨hfirst, hstop⟩ := (fits_claim ..).mp hfits
    exact claim_eq (by omega) hstop
  | insertAfter i text => rfl
  | openClassBody i => rfl
  | useTemporary => rfl

/-- Carries out changes in order. -/
def applyAll (ts : TokenStream) (d : Draft) : List Change → Checked Draft
  | [] => return d
  | c :: changes => do applyAll ts (← apply ts d c) changes

theorem applyAll_eq (hsize : d.claimed.size = ts.length) (hfit : AllFit ts changes) :
    applyAll ts d changes = .ok (d.applyAll ts changes) := by
  induction changes generalizing d with
  | nil => rfl
  | cons c changes ih =>
    obtain ⟨hc, hchanges⟩ := allFit_cons.mp hfit
    rw [applyAll, apply_eq hsize hc, ok_bind, ih (by rwa [Draft.size_apply]) hchanges]
    rfl

/-! ## The walk -/

/-- The draft after the walk from token `i` on. -/
def walk (goal : Goal) (ts : TokenStream) (d : Draft) (i : Nat) : Checked Draft := do
  if i < ts.last then
    if ← entry d.claimed[i]? then walk goal ts d (i + 1)
    else
      let step ← visit goal ts d i
      walk goal ts (← applyAll ts d step.changes) (max step.next (i + 1))
  else return d
termination_by ts.last - i

/-- **The walk meets no fault.** -/
theorem walk_eq (goal : Goal) (hsize : d.claimed.size = ts.length) (i : Nat) :
    walk goal ts d i = .ok (Emit.walk goal ts d i) := by
  have hlast : ts.last ≤ ts.length := Nat.sub_le ..
  fun_induction Emit.walk goal ts d i with
  | case1 d i hi hclaimed ih =>
    rw [walk, if_pos hi, entry_claimed (by omega), ok_bind, if_pos hclaimed]
    exact ih hsize
  | case2 d i hi hfree step ih =>
    rw [walk, if_pos hi, entry_claimed (by omega), ok_bind, if_neg hfree,
      visit_eq goal d (by omega), ok_bind, applyAll_eq hsize (allFit_visit hi), ok_bind]
    exact ih ((Draft.size_applyAll ..).trans hsize)
  | case3 d i hi =>
    rw [walk, if_neg hi]
    rfl

/-! ## The code -/

/-- Puts the code together from the edits and the text behind byte `cursor`. -/
def splice (text : List Char) (cursor : Nat) : List Edit → Checked (List Char)
  | [] => slice cursor (byteLength text) text
  | e :: es =>
    if e.start < cursor then splice text cursor es
    else do
      let kept ← slice cursor e.start text
      let cut ← slice e.start e.stop text
      return kept ++ e.text ++ List.replicate (lineBreaks cut) '\n' ++ (← splice text e.stop es)

theorem splice_eq {before rest : List Char} {edits : List Edit}
    (h : ∀ e ∈ edits, Cuts (before ++ rest) e) :
    splice (before ++ rest) (byteLength before) edits =
      .ok (Edit.splice (byteLength before) rest edits) := by
  induction edits generalizing before rest with
  | nil => exact slice_rest before rest
  | cons e es ih =>
    have hes := fun f hf => h f (List.mem_cons_of_mem _ hf)
    rw [splice, Edit.splice]
    split
    · exact ih hes
    · rename_i hlt
      have he := h e (List.mem_cons_self ..)
      obtain ⟨kept, after, rfl, hstart, hkept⟩ := he.start.exists_split (Nat.not_lt.mp hlt)
      rw [← List.append_assoc] at hes he ⊢
      obtain ⟨cut, rest, rfl, hstop, hcut⟩ := he.stop.exists_split (hstart ▸ he.le)
      have hkeep :
          slice (byteLength before) e.start (before ++ kept ++ (cut ++ rest)) = .ok kept := by
        rw [hstart, slice_append]
      have hdrop : slice e.start e.stop (before ++ kept ++ (cut ++ rest)) = .ok cut := by
        rw [hstart, hstop, ← List.append_assoc (before ++ kept), slice_append]
      rw [← List.append_assoc (before ++ kept)] at hes
      have hnext := ih hes
      rw [← hstop, List.append_assoc (before ++ kept)] at hnext
      rw [hstart] at hkept
      rw [hkeep, hdrop]
      simp only [hnext, hstart, hkept, hcut, ok_bind, pure_eq_ok]

/-- The text with all edits of a draft carried out. -/
def finish (d : Draft) (text : List Char) : Checked (List Char) :=
  splice text 0 (d.edits.reverse.mergeSort Edit.le)

/-- The code of a text. -/
def program (goal : Goal) (ts : TokenStream) (text : List Char) : Checked (List Char) := do
  let marked := goal.commonJs && (← isModule ts)
  let d := Draft.empty ts
  let d := if marked then { d with edits := [⟨0, 0, moduleMarker.toList⟩] } else d
  finish (← walk goal ts d 0) text

/-- **The emission of a text meets no fault,** whatever the text is. -/
theorem program_eq (goal : Goal) (text : String) :
    program goal (Scan.ofText text).tokens text.toList =
      .ok (Emit.program goal (Scan.ofText text).tokens text.toList) := by
  have hsize : (firstDraft goal (Scan.ofText text).tokens).claimed.size =
      (Scan.ofText text).tokens.length := by
    unfold firstDraft Draft.empty
    split <;> exact Array.size_replicate ..
  have hcuts : ∀ e ∈ (Emit.walk goal (Scan.ofText text).tokens
      (firstDraft goal (Scan.ofText text).tokens) 0).edits.reverse.mergeSort Edit.le,
      Cuts ([] ++ text.toList) e :=
    fun e he => cuts_of_mem_walk (List.mem_reverse.mp (List.mem_mergeSort.mp he))
  unfold program
  rw [isModule_eq, ok_bind]
  change (walk goal _ (firstDraft goal (Scan.ofText text).tokens) 0 >>= _) = _
  rw [walk_eq goal hsize, ok_bind]
  exact splice_eq hcuts

end Checked

end TypeScriptEngine
