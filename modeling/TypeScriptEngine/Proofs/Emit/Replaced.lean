import TypeScriptEngine.Proofs.Emit.Insertion
import TypeScriptEngine.Proofs.Token.Tiling

/-! # What takes the place of a declaration

The text that takes the place of a declaration stands in the code (`infix_program_of_replace`).  No
edit is in its way: before the visit the word that begins the declaration is not claimed, so that
earlier edits lie beside it (`Reaches.beside`), and from then on it is, so that later ones do, too
(`beside_of_walk`).
-/

namespace TypeScriptEngine

open TypeScriptEngine.Text TokenStream

namespace Emit

/-! ## Where replacements begin -/

/-- The token that a replacement begins with. -/
def Change.replaced? : Change → Option Nat
  | .replace first _ _ => some first
  | .erase .. | .insertAfter .. | .claim .. | .openClassBody _ | .useTemporary => none

/-- What is replaced begins with token `i`. -/
def ReplacedFrom (i : Nat) (changes : List Change) : Prop :=
  ∀ c ∈ changes, ∀ first ∈ c.replaced?, first = i

section

variable {goal : Goal} {ts : TokenStream} {d : Draft} {c : Change} {changes : List Change}
  {i stop temporaries : Nat}

@[simp] theorem replacedFrom_nil : ReplacedFrom i [] := fun _ h => by contradiction

@[simp] theorem replacedFrom_cons :
    ReplacedFrom i (c :: changes) ↔ (∀ first ∈ c.replaced?, first = i) ∧ ReplacedFrom i changes :=
  List.forall_mem_cons

@[simp] theorem replacedFrom_append {changes' : List Change} :
    ReplacedFrom i (changes ++ changes') ↔ ReplacedFrom i changes ∧ ReplacedFrom i changes' :=
  List.forall_mem_append

@[simp] theorem replaced?_replace (first stop : Nat) (text : String) :
    (Change.replace first stop text).replaced? = some first := rfl

@[simp] theorem replaced?_erase (first stop : Nat) : (Change.erase first stop).replaced? = none :=
  rfl

@[simp] theorem replaced?_insertAfter (k : Nat) (text : String) :
    (Change.insertAfter k text).replaced? = none := rfl

@[simp] theorem replaced?_claim (first stop : Nat) : (Change.claim first stop).replaced? = none :=
  rfl

@[simp] theorem replaced?_useTemporary : Change.useTemporary.replaced? = none := rfl

/-- The name that a declaration may use up replaces nothing. -/
theorem replacedFrom_temporary {used : Bool} (h : ReplacedFrom i changes) :
    ReplacedFrom i ((if used then [.useTemporary] else []) ++ changes) := by
  cases used <;> simp [h]

/-- Without new text nothing is replaced. -/
theorem Erasing.replacedFrom (h : Erasing changes) : ReplacedFrom i changes := by
  intro c hc first hfirst
  have hnone := h c hc
  cases c with
  | replace first stop text => exact absurd hnone (Option.some_ne_none _)
  | _ => contradiction

theorem replacedFrom_importEquals : ReplacedFrom i (importEquals goal ts i stop) := by
  unfold importEquals
  simp only
  split <;> simp

theorem replacedFrom_importDeclaration :
    ReplacedFrom i (importDeclaration goal ts temporaries i).changes := by
  unfold importDeclaration
  simp only
  split
  · simp
  split
  · exact replacedFrom_importEquals
  split
  · exact replacedFrom_temporary (by simp)
  · simp
  · simp [(erasing_eraseTypes _).replacedFrom]

theorem replacedFrom_exportBehind (name : Nat) (close? : Option Nat) :
    ReplacedFrom i (exportBehind ts i name close?) := by
  cases close? <;> simp [exportBehind]

theorem replacedFrom_exportDefault : ReplacedFrom i (exportDefault ts i) := by
  unfold exportDefault
  simp only
  split
  · split <;> simp
  · simp

theorem replacedFrom_exportStar : ReplacedFrom i (exportStar goal ts temporaries i stop) := by
  unfold exportStar
  simp only
  split
  · simp
  · split <;> simp

theorem replacedFrom_exportCommonJs :
    ReplacedFrom i (exportCommonJs goal ts temporaries i).changes := by
  unfold exportCommonJs
  simp only
  cases ts.kind (i + 1) with
  | kwFunction | kwAsync | kwClass | kwAbstract => exact replacedFrom_exportBehind _ _
  | kwDefault => exact replacedFrom_exportDefault
  | lbrace => exact replacedFrom_temporary (by simp)
  | star => exact replacedFrom_exportStar
  | _ => simp

theorem replacedFrom_exportDeclaration :
    ReplacedFrom i (exportDeclaration goal ts temporaries i).changes := by
  unfold exportDeclaration
  simp only
  split
  · simp
  · split
    · exact replacedFrom_exportCommonJs
    · exact (erasing_exportEsModule ts i).replacedFrom

/-- **What a visit replaces begins with the token that it is a visit of.** -/
theorem replacedFrom_visit : ReplacedFrom i (visit goal ts d i).changes := by
  cases himport : beginsImport ts i with
  | true =>
    rw [visit_of_beginsImport himport]
    exact replacedFrom_importDeclaration
  | false =>
    cases hexport : beginsExport ts i with
    | true =>
      rw [visit_of_beginsExport hexport]
      exact replacedFrom_exportDeclaration
    | false => exact (erasing_visit himport hexport).replacedFrom

end

/-! ## Edits beside a claimed token -/

section

variable {goal : Goal} {text : String} {d : Draft} {c : Change} {changes : List Change} {e : Edit}
  {i k : Nat}

/-- An erasure finds only tokens that are not claimed. -/
theorem Draft.free_of_mem_freeRuns {n : Nat} {run? : Option Nat} {run : Nat × Nat}
    (hopen : ∀ first ∈ run?, ∀ j, first ≤ j → j < i → d.isClaimed j = false)
    (hrun : run ∈ d.freeRuns i run? n) (hfirst : run.1 ≤ k) (hstop : k < run.2) :
    d.isClaimed k = false := by
  have hclosed (h : run ∈ (run?.map fun first => (first, i)).toList) : d.isClaimed k = false := by
    obtain ⟨first, hmem, rfl⟩ := Option.map_eq_some_iff.mp (Option.mem_toList.mp h)
    exact hopen first hmem k hfirst hstop
  -- on the tokens that are left: a run is closed before a claimed one, and grows by a free one
  induction n generalizing i run? with
  | zero => exact hclosed hrun
  | succ n ih =>
    rw [freeRuns] at hrun
    split at hrun
    · rcases List.mem_append.mp hrun with h | h
      · exact hclosed h
      · exact ih (fun _ h => by contradiction) h fun h => by contradiction
    · rename_i hfree
      have hopen' : ∀ first ∈ some (run?.getD i), ∀ j, first ≤ j → j < i + 1 →
          d.isClaimed j = false := by
        intro first hmem j hj hlt
        obtain rfl := Option.mem_some.mp hmem
        rcases Nat.lt_succ_iff_lt_or_eq.mp hlt with hlt | rfl
        · cases run? with
          | none => exact absurd hj (Nat.not_le.mpr hlt)
          | some first => exact hopen first rfl j hj hlt
        · exact Bool.eq_false_iff.mpr hfree
      refine ih hopen' hrun fun h => ?_
      obtain ⟨first, hmem, rfl⟩ := Option.map_eq_some_iff.mp (Option.mem_toList.mp h)
      exact hopen' first hmem k hfirst hstop

/-- A change that replaces nothing from the left of a claimed token on does not touch it. -/
theorem beside_of_apply (hfits : c.Fits (Scan.ofText text).tokens)
    (hk : k < (Scan.ofText text).tokens.length) (hclaimed : d.isClaimed k = true)
    (hreplaced : ∀ first ∈ c.replaced?, k < first)
    (he : e ∈ (d.apply (Scan.ofText text).tokens c).edits) :
    e ∈ d.edits ∨ e.stop ≤ startOf (Scan.ofText text).tokens k ∨
      stopOf (Scan.ofText text).tokens k ≤ e.start := by
  have hlast : last (Scan.ofText text).tokens ≤ List.length (Scan.ofText text).tokens :=
    Nat.sub_le ..
  cases c with
  | erase first stop =>
    rw [Draft.apply_erase_eq, Draft.edits_claimTokens] at he
    refine (Draft.mem_edits_addRuns he).imp_right fun ⟨run, hrun, he⟩ => ?_
    obtain ⟨hfirst, hlt, hstop⟩ := Draft.freeRuns_bounds (Nat.le_refl first)
      (fun _ h => by contradiction) hrun
    rw [he]
    refine beside_range (by omega) hk fun ⟨hleft, hright⟩ => ?_
    have hfree := Draft.free_of_mem_freeRuns (k := k) (fun _ h => by contradiction) hrun hleft
      (by omega)
    exact Bool.false_ne_true (hfree.symm.trans hclaimed)
  | replace first stop newText =>
    refine (Draft.mem_edits_apply he).imp_right fun hmakes => ?_
    exact beside_of_makes hfits hmakes hk fun htakes =>
      Nat.not_le.mpr (hreplaced first rfl) htakes.1
  | insertAfter _ _ | claim _ _ | openClassBody _ | useTemporary =>
    exact (Draft.mem_edits_apply he).imp_right fun hmakes => beside_of_makes hfits hmakes hk id

theorem beside_of_applyAll (hfits : AllFit (Scan.ofText text).tokens changes)
    (hk : k < (Scan.ofText text).tokens.length) (hclaimed : d.isClaimed k = true)
    (hreplaced : ReplacedFrom i changes) (hki : k < i)
    (he : e ∈ (d.applyAll (Scan.ofText text).tokens changes).edits) :
    e ∈ d.edits ∨ e.stop ≤ startOf (Scan.ofText text).tokens k ∨
      stopOf (Scan.ofText text).tokens k ≤ e.start := by
  induction changes generalizing d with
  | nil => exact .inl he
  | cons c changes ih =>
    obtain ⟨hfit, hfits⟩ := allFit_cons.mp hfits
    obtain ⟨hfirst, hreplaced⟩ := replacedFrom_cons.mp hreplaced
    rcases ih hfits (Draft.isClaimed_apply hclaimed) hreplaced he with he | hbeside
    · exact beside_of_apply hfit hk hclaimed (fun first hmem => hfirst first hmem ▸ hki) he
    · exact .inr hbeside

/-- **The walk does not touch a claimed token that it has left behind.** -/
theorem beside_of_walk (hk : k < (Scan.ofText text).tokens.length) (hclaimed : d.isClaimed k = true)
    (hki : k < i) (he : e ∈ (walk goal (Scan.ofText text).tokens d i).edits) :
    e ∈ d.edits ∨ e.stop ≤ startOf (Scan.ofText text).tokens k ∨
      stopOf (Scan.ofText text).tokens k ≤ e.start := by
  fun_induction walk goal (Scan.ofText text).tokens d i with
  | case1 d i hi _ ih => exact ih hclaimed (Nat.lt_succ_of_lt hki) he
  | case2 d i hi hfree step ih =>
    rcases ih (Draft.isClaimed_applyAll hclaimed) (by omega) he with he | hbeside
    · exact beside_of_applyAll (allFit_visit hi) hk hclaimed replacedFrom_visit hki he
    · exact .inr hbeside
  | case3 d i _ => exact .inl he

end

/-! ## Replacements in the code -/

section

variable {goal : Goal} {text newText : String} {d : Draft} {i stop : Nat}

/-- The text of an edit that is not passed over comes in. -/
theorem text_infix_splice {cursor : Nat} {e : Edit} (h : cursor ≤ e.start) (rest : List Char)
    (edits : List Edit) : e.text <:+: Edit.splice cursor rest (e :: edits) := by
  rw [Edit.splice, if_neg (Nat.not_lt.mpr h)]
  exact ⟨_, _, (List.append_assoc ..).symm⟩

/-- The edit that replaces a declaration. -/
def replacement (ts : TokenStream) (i stop : Nat) (newText : String) : Edit :=
  ⟨ts.startOf i, ts.stopOf (max (min stop ts.last) (i + 1) - 1), newText.toList⟩

/-- A visit that replaces a declaration, for which it uses up a name. -/
structure Replaces (goal : Goal) (ts : TokenStream) (d : Draft) (i stop : Nat) (newText : String) :
    Prop where
  visits : Visits goal ts d i
  changes : (visit goal ts d i).changes = [.useTemporary, .replace i stop newText]

namespace Replaces

/-- The word of a declaration that is replaced is an `import` or `export`. -/
theorem kind_ne_eof {ts : TokenStream} (h : Replaces goal ts d i stop newText) :
    ts.kind i ≠ .eof := by
  intro hkind
  have himport : beginsImport ts i = false := by simp [beginsImport, hkind]
  have hexport : beginsExport ts i = false := by simp [beginsExport, hkind]
  have hremoving := @removing_visit ts goal d i himport hexport
  rw [h.changes] at hremoving
  exact absurd (hremoving _ (List.mem_cons_self ..)) Bool.false_ne_true

variable (h : Replaces goal (Scan.ofText text).tokens d i stop newText)

include h

/-- The edits that the walk has collected when it goes on behind the declaration. -/
theorem edits_applyAll :
    (d.applyAll (Scan.ofText text).tokens
      (visit goal (Scan.ofText text).tokens d i).changes).edits =
        replacement (Scan.ofText text).tokens i stop newText :: d.edits := by
  rw [h.changes]
  exact Draft.edits_claimTokens ..

theorem walk_eq :
    walk goal (Scan.ofText text).tokens (firstDraft goal (Scan.ofText text).tokens) 0 =
      walk goal (Scan.ofText text).tokens
        (d.applyAll (Scan.ofText text).tokens (visit goal (Scan.ofText text).tokens d i).changes)
        (max (visit goal (Scan.ofText text).tokens d i).next (i + 1)) := by
  rw [← h.visits.reaches.walk_eq, walk_visit h.visits.lt_last h.visits.free]

theorem mem_orderedEdits :
    replacement (Scan.ofText text).tokens i stop newText ∈
      orderedEdits goal (Scan.ofText text).tokens := by
  rw [Emit.mem_orderedEdits, h.walk_eq]
  refine (edits_suffix_walk _ _).subset ?_
  rw [h.edits_applyAll]
  exact List.mem_cons_self ..

/-- **All other edits lie beside the word of a declaration that is replaced.** -/
theorem eq_or_beside {e : Edit} (he : e ∈ orderedEdits goal (Scan.ofText text).tokens) :
    e = replacement (Scan.ofText text).tokens i stop newText ∨
      e.stop ≤ startOf (Scan.ofText text).tokens i ∨
        stopOf (Scan.ofText text).tokens i ≤ e.start := by
  have hi := lt_length_of_kind h.kind_ne_eof
  have hreplace : .replace i stop newText ∈
      (visit goal (Scan.ofText text).tokens d i).changes := by
    rw [h.changes]
    exact List.mem_cons_of_mem _ (List.mem_cons_self ..)
  have htakes : (Change.replace i stop newText).Takes (Scan.ofText text).tokens i :=
    ⟨Nat.le_refl i, by omega⟩
  have hclaimed := Draft.isClaimed_of_takes hreplace htakes (h.visits.reaches.size ▸ hi)
  rw [Emit.mem_orderedEdits, h.walk_eq] at he
  -- a later edit keeps clear of the claimed word, an earlier one of all that was free before
  rcases beside_of_walk hi hclaimed (by omega) he with he | hbeside
  · rw [h.edits_applyAll] at he
    rcases List.mem_cons.mp he with he | he
    · exact .inl he
    · exact .inr (h.visits.reaches.beside hi h.visits.free he)
  · exact .inr hbeside

/-- The replacement is the first edit behind the place where it begins. -/
theorem editsBehind_eq : ∃ further,
    editsBehind goal (Scan.ofText text).tokens (startOf (Scan.ofText text).tokens i) =
      replacement (Scan.ofText text).tokens i stop newText :: further := by
  have hwidth := startOf_lt_stopOf h.kind_ne_eof
  have hi := h.visits.lt_last
  have hlast : last (Scan.ofText text).tokens ≤ List.length (Scan.ofText text).tokens :=
    Nat.sub_le ..
  have hstart : (replacement (Scan.ofText text).tokens i stop newText).start =
      startOf (Scan.ofText text).tokens i := rfl
  have hstop : stopOf (Scan.ofText text).tokens i ≤
      (replacement (Scan.ofText text).tokens i stop newText).stop :=
    stopOf_le_stopOf (by omega) (by omega)
  have hmem : replacement (Scan.ofText text).tokens i stop newText ∈
      editsBehind goal (Scan.ofText text).tokens (startOf (Scan.ofText text).tokens i) := by
    refine List.mem_filter.mpr ⟨List.mem_filter.mpr ⟨h.mem_orderedEdits, ?_⟩, ?_⟩
    · simp [hstart]
    · simp only [Bool.not_eq_true', Bool.and_eq_false_iff, beq_eq_false_iff_ne]
      omega
  have hsorted : (editsBehind goal (Scan.ofText text).tokens
      (startOf (Scan.ofText text).tokens i)).Pairwise fun e f => Edit.le e f = true :=
    ((pairwise_mergeSort_le _).filter _).filter _
  cases hbehind : editsBehind goal (Scan.ofText text).tokens
      (startOf (Scan.ofText text).tokens i) with
  | nil =>
    rw [hbehind] at hmem
    contradiction
  | cons e further =>
    refine ⟨further, congrArg (· :: further) ?_⟩
    have he : e ∈ editsBehind goal (Scan.ofText text).tokens
        (startOf (Scan.ofText text).tokens i) := hbehind ▸ List.mem_cons_self ..
    obtain ⟨he, hinsertion⟩ := List.mem_filter.mp he
    obtain ⟨he, hbefore⟩ := List.mem_filter.mp he
    have hcut := (cuts_of_mem_walk (Emit.mem_orderedEdits.mp he)).le
    rw [hbehind] at hmem hsorted
    rcases List.mem_cons.mp hmem with heq | hmem
    · exact heq.symm
    · -- the first edit begins where the replacement does, and no edit beside the word does that
      have hle := (List.pairwise_cons.mp hsorted).1 _ hmem
      refine (h.eq_or_beside he).resolve_right fun hbeside => ?_
      simp only [Edit.le, Bool.or_eq_true, Bool.and_eq_true, Bool.not_eq_true',
        Bool.and_eq_false_iff, decide_eq_false_iff_not, decide_eq_true_eq, beq_iff_eq,
        beq_eq_false_iff_ne] at hle hinsertion hbefore
      omega

/-- **The text that takes the place of a declaration stands in the code.** -/
theorem infix_program : newText.toList <:+: program goal (Scan.ofText text).tokens text.toList := by
  have hi := lt_length_of_kind h.kind_ne_eof
  have hwidth := startOf_lt_stopOf h.kind_ne_eof
  obtain ⟨front, rest, htext, hstart, -⟩ := Scan.slice_ofText (List.getElem_mem hi)
  have hfront : byteLength front = startOf (Scan.ofText text).tokens i := by
    rw [startOf, List.getElem?_eq_getElem hi]
    exact (hstart.trans (Nat.zero_add _)).symm
  have huncrossed : Uncrossed goal (Scan.ofText text).tokens (byteLength front) := by
    intro e he hlt
    rw [hfront] at hlt ⊢
    rcases h.eq_or_beside he with rfl | hbeside
    · exact absurd hlt (Nat.lt_irrefl _)
    · omega
  obtain ⟨further, hbehind⟩ := h.editsBehind_eq
  rw [program_eq_of_uncrossed htext huncrossed, codeOfRest, hfront, hbehind]
  have hinfix := @text_infix_splice (startOf (Scan.ofText text).tokens i)
    (replacement (Scan.ofText text).tokens i stop newText) (Nat.le_refl _)
    ((Scan.ofText text).tokens[i].source.toList ++ rest) further
  exact hinfix.trans ((List.suffix_append ..).trans (List.suffix_append ..)).isInfix

end Replaces

end

end Emit

end TypeScriptEngine
