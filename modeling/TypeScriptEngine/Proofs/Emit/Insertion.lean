import Mathlib.Data.List.Pairwise
import TypeScriptEngine.Proofs.Emit.Cut
import TypeScriptEngine.Proofs.Emit.Fit

/-! # What stands around an insertion

At a place that no edit reaches over, an emission divides: the code of the text before it, what is
inserted there, and the code of the text behind it (`program_behind`).  The end of a token that the
walk leaves is such a place (`uncrossed_of_left`), and the token itself stands directly before what is
inserted behind it (`codeOfFront_of_left`).  That is so because what is erased or replaced is claimed
(`beside_of_mem_walk`).
-/

namespace TypeScriptEngine

open TypeScriptEngine.Text

/-! ## Places between tokens -/

namespace TokenStream

variable {text : String}

/-- No token ends behind the text. -/
theorem stopOf_le_textLength (i : Nat) :
    stopOf (Scan.ofText text).tokens i ≤ textLength (Scan.ofText text).tokens := by
  by_cases hi : i < (Scan.ofText text).tokens.length
  · have hlast : textLength (Scan.ofText text).tokens =
        stopOf (Scan.ofText text).tokens ((Scan.ofText text).tokens.length - 1) := by
      rw [textLength, List.getLast?_eq_getElem?, stopOf, List.getElem?_eq_getElem (by omega)]
      rfl
    rw [hlast]
    exact stopOf_le_stopOf (by omega) (by omega)
  · rw [stopOf, List.getElem?_eq_none (Nat.not_lt.mp hi)]
    exact Nat.le_refl _

end TokenStream

namespace Emit

open TokenStream

/-! ## Dividing edits -/

/-- In a sorted list what comes early stands before the rest. -/
theorem filter_append_filter_of_pairwise {α : Type} {r : α → α → Prop} {p : α → Bool} {l : List α}
    (h : l.Pairwise r) (hp : ∀ a ∈ l, ∀ b ∈ l, r a b → p b = true → p a = true) :
    l = l.filter p ++ l.filter fun a => !p a := by
  induction l with
  | nil => rfl
  | cons a l ih =>
    obtain ⟨ha, hl⟩ := List.pairwise_cons.mp h
    have ih := ih hl fun b hb c hc => hp b (List.mem_cons_of_mem _ hb) c (List.mem_cons_of_mem _ hc)
    cases hpa : p a with
    | true =>
      rw [List.filter_cons_of_pos hpa, List.filter_cons_of_neg (by simp [hpa]), List.cons_append,
        ← ih]
    | false =>
      have hnone : l.filter p = [] := List.filter_eq_nil_iff.mpr fun b hb hpb =>
        Bool.false_ne_true (hpa ▸ hp a (List.mem_cons_self ..) b (List.mem_cons_of_mem _ hb) (ha b hb) hpb)
      have hall : (l.filter fun b => !p b) = l := List.filter_eq_self.mpr fun b hb => by
        simpa using List.filter_eq_nil_iff.mp hnone b hb
      rw [List.filter_cons_of_neg (by simp [hpa]), List.filter_cons_of_pos (by simp [hpa]), hnone,
        hall, List.nil_append]

theorem le_trans_edits (e f g : Edit) (hef : Edit.le e f = true) (hfg : Edit.le f g = true) :
    Edit.le e g = true := by
  simp only [Edit.le, Bool.or_eq_true, Bool.and_eq_true, decide_eq_true_eq, beq_iff_eq] at *
  omega

theorem le_total_edits (e f : Edit) : (Edit.le e f || Edit.le f e) = true := by
  simp only [Edit.le, Bool.or_eq_true, Bool.and_eq_true, decide_eq_true_eq, beq_iff_eq]
  omega

theorem pairwise_mergeSort_le (edits : List Edit) :
    (edits.mergeSort Edit.le).Pairwise fun e f => Edit.le e f = true :=
  List.pairwise_mergeSort le_trans_edits le_total_edits edits

/-- An edit is carried out before another one, whatever their texts are. -/
def Precedes (e f : Edit) : Prop := e.start < f.start ∨ e.start = f.start ∧ e.stop < f.stop

/-- Edits are carried out in the order of their ranges, if no two of them have the same. -/
theorem mergeSort_eq_of_perm {es es' : List Edit} (hperm : es.Perm es') (h : es'.Pairwise Precedes) :
    es.mergeSort Edit.le = es' := by
  have hsorted : es'.Pairwise fun e f => Edit.le e f = true := h.imp fun hef => by
    simp only [Precedes, Edit.le, Bool.or_eq_true, Bool.and_eq_true, decide_eq_true_eq,
      beq_iff_eq] at hef ⊢
    omega
  have hdistinct : es'.Pairwise fun e f => ¬ (e.start = f.start ∧ e.stop = f.stop) :=
    h.imp fun hef => by
      unfold Precedes at hef
      omega
  have : Std.Symm fun e f : Edit => ¬ (e.start = f.start ∧ e.stop = f.stop) :=
    ⟨fun _ _ h h' => h ⟨h'.1.symm, h'.2.symm⟩⟩
  refine List.Perm.eq_of_pairwise (fun e f he hf hef hfe => ?_) (pairwise_mergeSort_le es) hsorted
    ((List.mergeSort_perm es Edit.le).trans hperm)
  by_contra hne
  have he' : e ∈ es' := hperm.subset (List.mem_mergeSort.mp he)
  refine hdistinct.forall he' hf hne ?_
  simp only [Edit.le, Bool.or_eq_true, Bool.and_eq_true, decide_eq_true_eq, beq_iff_eq] at hef hfe
  omega

/-- A boundary in a text that does not lie behind its front part is one of that. -/
theorem Boundary.of_append {front rest : List Char} {n : Nat} (h : Boundary (front ++ rest) n)
    (hle : n ≤ byteLength front) : Boundary front n := by
  obtain ⟨before, hbefore, rfl⟩ := h
  rcases List.prefix_or_prefix_of_prefix hbefore (List.prefix_append front rest) with h | h
  · exact ⟨before, h, rfl⟩
  · obtain ⟨gap, rfl⟩ := h
    cases gap with
    | nil => exact ⟨front, List.prefix_refl front, by rw [List.append_nil]⟩
    | cons c gap =>
      have := utf8Size_pos c
      rw [byteLength_append, byteLength_cons] at hle
      omega

/-- **Edits on both sides of a place are carried out on both sides of it.** -/
theorem splice_divides {before front rest : List Char} {es es' : List Edit}
    (h : ∀ e ∈ es, Cuts (before ++ front) e) (h' : ∀ e ∈ es', byteLength (before ++ front) ≤ e.start) :
    Edit.splice (byteLength before) (front ++ rest) (es ++ es') =
      Edit.splice (byteLength before) front es ++
        Edit.splice (byteLength (before ++ front)) rest es' := by
  induction es generalizing before front with
  | nil =>
    rw [byteLength_append] at h' ⊢
    exact splice_append h'
  | cons e es ih =>
    have hes := fun f hf => h f (List.mem_cons_of_mem _ hf)
    by_cases hlt : e.start < byteLength before
    · rw [List.cons_append, Edit.splice, Edit.splice, if_pos hlt, if_pos hlt]
      exact ih hes h'
    · have he := h e (List.mem_cons_self ..)
      obtain ⟨kept, after, rfl, hstart, -⟩ := he.start.exists_split (Nat.not_lt.mp hlt)
      have hstop := he.stop
      rw [← List.append_assoc] at hstop
      obtain ⟨cut, front, rfl, hstop, -⟩ := hstop.exists_split (hstart ▸ he.le)
      have hwhole : before ++ (kept ++ (cut ++ front)) = before ++ kept ++ cut ++ front := by simp
      have hedit : e = ⟨byteLength before + byteLength kept,
          byteLength before + byteLength kept + byteLength cut, e.text⟩ := by
        rw [byteLength_append] at hstart
        rw [byteLength_append, byteLength_append] at hstop
        rw [← hstop, ← hstart]
      have hend : byteLength before + byteLength kept + byteLength cut =
          byteLength (before ++ kept ++ cut) := by
        rw [byteLength_append, byteLength_append]
      rw [hwhole] at hes h' ⊢
      rw [hedit, List.cons_append, List.append_assoc, List.append_assoc, splice_replace,
        splice_replace, hend, ih hes h']
      simp only [List.append_assoc]

/-! ## Insertions -/

/-- The edits of an emission in the order in which they are carried out. -/
def orderedEdits (goal : Goal) (ts : TokenStream) : List Edit :=
  (walk goal ts (firstDraft goal ts) 0).edits.reverse.mergeSort Edit.le

/-- What an emission inserts at a place. -/
def insertedAt (goal : Goal) (ts : TokenStream) (p : Nat) : List Char :=
  ((orderedEdits goal ts).filter fun e => e.start == p && e.stop == p).flatMap Edit.text

/-- The edits that begin at a place or behind it, but for what is inserted there. -/
def editsBehind (goal : Goal) (ts : TokenStream) (p : Nat) : List Edit :=
  ((orderedEdits goal ts).filter fun e => !decide (e.start < p)).filter fun e =>
    !(e.start == p && e.stop == p)

/-- The code of the front part of a text. -/
def codeOfFront (goal : Goal) (ts : TokenStream) (front : List Char) : List Char :=
  Edit.splice 0 front ((orderedEdits goal ts).filter fun e => e.start < byteLength front)

/-- The code of what stands in a text from a place on. -/
def codeOfRest (goal : Goal) (ts : TokenStream) (p : Nat) (rest : List Char) : List Char :=
  Edit.splice p rest (editsBehind goal ts p)

variable {goal : Goal} {text : String} {ts : TokenStream} {d : Draft} {e : Edit} {p i j : Nat}

theorem mem_orderedEdits :
    e ∈ orderedEdits goal ts ↔ e ∈ (walk goal ts (firstDraft goal ts) 0).edits :=
  List.mem_mergeSort.trans List.mem_reverse

/-- Edits that were made from left to right are carried out as they are. -/
theorem program_of_sorted
    (h : (walk goal ts (firstDraft goal ts) 0).edits.reverse.Pairwise fun e f => Edit.le e f = true)
    (text : List Char) : program goal ts text =
      Edit.splice 0 text (walk goal ts (firstDraft goal ts) 0).edits.reverse := by
  rw [program, Draft.finish, Edit.applyAll, List.mergeSort_of_pairwise h]

/-- Edits with different ranges are carried out in the order of these. -/
theorem program_of_perm {edits : List Edit}
    (hperm : (walk goal ts (firstDraft goal ts) 0).edits.Perm edits)
    (h : edits.Pairwise Precedes) (text : List Char) :
    program goal ts text = Edit.splice 0 text edits := by
  rw [program, Draft.finish, Edit.applyAll,
    mergeSort_eq_of_perm ((List.reverse_perm _).trans hperm) h]

theorem splice_insertions {es es' : List Edit} (h : ∀ e ∈ es, e.start = p ∧ e.stop = p)
    (rest : List Char) :
    Edit.splice p rest (es ++ es') = es.flatMap Edit.text ++ Edit.splice p rest es' := by
  induction es with
  | nil => rfl
  | cons e es ih =>
    obtain ⟨hstart, hstop⟩ := h e (List.mem_cons_self ..)
    have hedit : e = ⟨p + byteLength [], p + byteLength [] + byteLength [], e.text⟩ := by
      rw [byteLength_nil, Nat.add_zero]
      cases e
      simp_all
    have hinsert := @splice_replace p [] [] rest e.text (es ++ es')
    rw [← hedit] at hinsert
    rw [List.cons_append, List.flatMap_cons, List.append_assoc,
      ← ih fun f hf => h f (List.mem_cons_of_mem _ hf)]
    exact hinsert

/-- No edit begins before a place and ends behind it. -/
def Uncrossed (goal : Goal) (ts : TokenStream) (p : Nat) : Prop :=
  ∀ e ∈ orderedEdits goal ts, e.start < p → e.stop ≤ p

instance : Decidable (Uncrossed goal ts p) :=
  decidable_of_iff (∀ e ∈ (walk goal ts (firstDraft goal ts) 0).edits, e.start < p → e.stop ≤ p)
    (forall_congr' fun _ => imp_congr mem_orderedEdits.symm Iff.rfl)

/-- **At a place that no edit reaches over the code divides.** -/
theorem program_eq_of_uncrossed {front rest : List Char} (htext : text.toList = front ++ rest)
    (h : Uncrossed goal (Scan.ofText text).tokens (byteLength front)) :
    program goal (Scan.ofText text).tokens text.toList =
      codeOfFront goal (Scan.ofText text).tokens front ++
        (insertedAt goal (Scan.ofText text).tokens (byteLength front) ++
          codeOfRest goal (Scan.ofText text).tokens (byteLength front) rest) := by
  generalize hts : (Scan.ofText text).tokens = ts at h ⊢
  have hcuts : ∀ e ∈ orderedEdits goal ts, Cuts text.toList e := by
    subst hts
    exact fun e he => cuts_of_mem_walk (mem_orderedEdits.mp he)
  have hsorted : (orderedEdits goal ts).Pairwise fun e f => Edit.le e f = true :=
    pairwise_mergeSort_le _
  have hprogram : program goal ts text.toList =
      Edit.splice 0 (front ++ rest) (orderedEdits goal ts) := by
    rw [program, Draft.finish, Edit.applyAll, htext]
    rfl
  rw [hprogram, codeOfFront, insertedAt, codeOfRest, editsBehind]
  unfold Uncrossed at h
  generalize orderedEdits goal ts = edits at h hcuts hsorted ⊢
  -- the edits before the place, those that insert something there, and the rest
  let before : Edit → Bool := fun e => e.start < byteLength front
  let here : Edit → Bool := fun e => e.start == byteLength front && e.stop == byteLength front
  have hbefore : edits = edits.filter before ++ edits.filter fun e => !before e := by
    refine filter_append_filter_of_pairwise hsorted fun e _ f _ hle hf => ?_
    simp only [before, Edit.le, Bool.or_eq_true, Bool.and_eq_true, decide_eq_true_eq, beq_iff_eq] at *
    omega
  have hhere : (edits.filter fun e => !before e) = edits.filter here ++
      (edits.filter fun e => !before e).filter fun e => !here e := by
    have hfilter : (edits.filter fun e => !before e).filter here = edits.filter here := by
      rw [List.filter_filter]
      refine List.filter_congr fun e _ => ?_
      by_cases hp : e.start = byteLength front <;> simp [before, here, hp]
    rw [← hfilter]
    refine filter_append_filter_of_pairwise (hsorted.filter _) fun e he f _ hle hf => ?_
    obtain ⟨he, hstart⟩ := List.mem_filter.mp he
    have hcut := (hcuts e he).le
    simp only [before, here, Edit.le, Bool.or_eq_true, Bool.and_eq_true, Bool.not_eq_true',
      decide_eq_false_iff_not, decide_eq_true_eq, beq_iff_eq] at *
    omega
  conv => lhs; rw [hbefore]
  have hdivides := @splice_divides [] front rest (edits.filter before)
    (edits.filter fun e => !before e) (fun e he => ?_) fun e he => ?_
  · refine hdivides.trans (congrArg (_ ++ ·) ?_)
    refine (congrArg (Edit.splice (byteLength front) rest) hhere).trans ?_
    refine splice_insertions (fun e he => ?_) rest
    simpa [here] using (List.mem_filter.mp he).2
  · obtain ⟨he, hlt⟩ := List.mem_filter.mp he
    have hcut := hcuts e he
    have hstop := h e he (by simpa [before] using hlt)
    rw [htext] at hcut
    exact ⟨hcut.start.of_append (hcut.le.trans hstop), hcut.stop.of_append hstop, hcut.le⟩
  · simpa [before] using (List.mem_filter.mp he).2

/-- **Behind a token that no edit reaches over** stands what is inserted there, and then the code of the
rest of the text. -/
theorem program_behind
    (h : Uncrossed goal (Scan.ofText text).tokens (stopOf (Scan.ofText text).tokens j)) :
    ∃ front rest, text.toList = front ++ rest ∧
      byteLength front = stopOf (Scan.ofText text).tokens j ∧
      program goal (Scan.ofText text).tokens text.toList =
        codeOfFront goal (Scan.ofText text).tokens front ++
          (insertedAt goal (Scan.ofText text).tokens (stopOf (Scan.ofText text).tokens j) ++
            codeOfRest goal (Scan.ofText text).tokens (stopOf (Scan.ofText text).tokens j) rest) := by
  obtain ⟨front, ⟨rest, htext⟩, hfront⟩ := boundary_behind text j
  rw [← hfront] at h ⊢
  exact ⟨front, rest, htext.symm, rfl, program_eq_of_uncrossed htext.symm h⟩

/-! ## Tokens that are left -/

/-- A change takes a token: it erases or replaces it. -/
def Change.Takes (ts : TokenStream) (j : Nat) : Change → Prop
  | .erase first stop => first ≤ j ∧ j < stop ∧ j < ts.last
  | .replace first stop _ => first ≤ j ∧ j < max (min stop ts.last) (first + 1)
  | .insertAfter .. | .claim .. | .openClassBody _ | .useTemporary => False

/-- What is taken is claimed. -/
theorem Draft.isClaimed_of_takes {changes : List Change} {c : Change} (hc : c ∈ changes)
    (h : c.Takes ts j) (hsize : j < d.claimed.size) :
    (d.applyAll ts changes).isClaimed j = true := by
  induction changes generalizing d with
  | nil => contradiction
  | cons c' changes ih =>
    rcases List.mem_cons.mp hc with rfl | hc
    · have hclaimed : (d.apply ts c).isClaimed j = true := by
        cases c with
        | erase first stop =>
          rw [apply_erase_eq, isClaimed_claimTokens, claimed_addRuns]
          exact .inr ⟨h.1, by have := h.2; omega, hsize⟩
        | replace first stop text =>
          rw [apply, isClaimed_claimTokens]
          exact .inr ⟨h.1, by have := h.2; omega, hsize⟩
        | _ => contradiction
      show ((d.apply ts c).applyAll ts changes).isClaimed j = true
      exact isClaimed_applyAll hclaimed
    · exact ih hc (by rwa [size_apply])

/-- A range of tokens lies to the left or to the right of a token that is not in it. -/
theorem beside_range {a b : Nat} (ha : a < (Scan.ofText text).tokens.length)
    (hj : j < (Scan.ofText text).tokens.length) (hout : ¬ (a ≤ j ∧ j ≤ b)) :
    stopOf (Scan.ofText text).tokens b ≤ startOf (Scan.ofText text).tokens j ∨
      stopOf (Scan.ofText text).tokens j ≤ startOf (Scan.ofText text).tokens a := by
  rcases Nat.lt_or_ge j a with hlt | hge
  · exact .inr (stopOf_le_startOf hlt ha)
  · exact .inl (stopOf_le_startOf (by omega) hj)

/-- An edit does not touch a token that is not taken. -/
theorem beside_of_makes {c : Change} (hfits : c.Fits (Scan.ofText text).tokens)
    (hmakes : c.Makes (Scan.ofText text).tokens e) (hj : j < (Scan.ofText text).tokens.length)
    (hleft : ¬ c.Takes (Scan.ofText text).tokens j) :
    e.stop ≤ startOf (Scan.ofText text).tokens j ∨ stopOf (Scan.ofText text).tokens j ≤ e.start := by
  have hlast : last (Scan.ofText text).tokens ≤ List.length (Scan.ofText text).tokens :=
    Nat.sub_le ..
  cases c with
  | erase first stop =>
    obtain ⟨a, b, hfirst, hab, hb, rfl⟩ := hmakes
    exact beside_range (by omega) hj fun h => hleft ⟨by omega, by omega, by omega⟩
  | replace first stop newText =>
    obtain rfl := hmakes
    have hfirst := (fits_replace ..).mp hfits
    exact beside_range (by omega) hj fun h => hleft ⟨h.1, by omega⟩
  | insertAfter i newText =>
    obtain rfl := hmakes
    rcases Nat.lt_or_ge i j with hlt | hge
    · exact .inl (stopOf_le_startOf hlt hj)
    · refine .inr ?_
      by_cases hi : i < (Scan.ofText text).tokens.length
      · exact stopOf_le_stopOf hge hi
      · have hend : stopOf (Scan.ofText text).tokens i = textLength (Scan.ofText text).tokens := by
          rw [stopOf, List.getElem?_eq_none (Nat.not_lt.mp hi)]
          rfl
        exact hend ▸ stopOf_le_textLength j
  | claim first stop => contradiction
  | openClassBody i => contradiction
  | useTemporary => contradiction

/-- The walk leaves a token: it neither erases nor replaces it. -/
def Leaves (goal : Goal) (ts : TokenStream) (j : Nat) : Prop :=
  (walk goal ts (firstDraft goal ts) 0).isClaimed j = false

instance : Decidable (Leaves goal ts j) := inferInstanceAs (Decidable (_ = _))

/-- The walk keeps one flag for each token. -/
theorem Reaches.size (h : Reaches goal ts d i) : d.claimed.size = ts.length := by
  refine h.draft_induction (P := fun d => d.claimed.size = ts.length) ?_ fun d i _ hd =>
    (Draft.size_applyAll ..).trans hd
  unfold firstDraft
  simp only
  split <;> exact Array.size_replicate

/-- **No edit touches a token that is not claimed.** -/
theorem Reaches.beside (h : Reaches goal (Scan.ofText text).tokens d i)
    (hj : j < (Scan.ofText text).tokens.length) (hfree : d.isClaimed j = false) (he : e ∈ d.edits) :
    e.stop ≤ startOf (Scan.ofText text).tokens j ∨ stopOf (Scan.ofText text).tokens j ≤ e.start := by
  generalize hts : (Scan.ofText text).tokens = ts at h hj ⊢
  let Beside (d : Draft) : Prop := d.isClaimed j = false →
    ∀ e ∈ d.edits, e.stop ≤ startOf ts j ∨ stopOf ts j ≤ e.start
  refine h.draft_induction (P := Beside) (fun _ e he => ?_) (fun d i hvisits hd hleft e he => ?_)
    hfree e he
  · obtain ⟨_, rfl⟩ := mem_edits_firstDraft he
    exact .inl (Nat.zero_le _)
  · have hbefore : d.isClaimed j = false := Bool.eq_false_iff.mpr fun hclaimed =>
      Bool.false_ne_true (hleft ▸ Draft.isClaimed_applyAll hclaimed)
    rcases Draft.mem_edits_applyAll he with he | ⟨c, hc, hmakes⟩
    · exact hd hbefore e he
    · have hsize := hvisits.reaches.size
      subst hts
      exact beside_of_makes (allFit_visit hvisits.lt_last c hc) hmakes hj fun htakes =>
        Bool.false_ne_true (hleft ▸ Draft.isClaimed_of_takes hc htakes (hsize ▸ hj))

/-- No edit touches a token that the walk leaves. -/
theorem beside_of_mem_walk (hj : j < (Scan.ofText text).tokens.length)
    (hleft : Leaves goal (Scan.ofText text).tokens j)
    (he : e ∈ (walk goal (Scan.ofText text).tokens (firstDraft goal (Scan.ofText text).tokens)
      0).edits) :
    e.stop ≤ startOf (Scan.ofText text).tokens j ∨ stopOf (Scan.ofText text).tokens j ≤ e.start := by
  obtain ⟨k, h⟩ := (Reaches.first : Reaches goal (Scan.ofText text).tokens _ 0).exists_walk
  exact h.beside hj hleft he

/-- No edit reaches over the end of a token that the walk leaves. -/
theorem uncrossed_of_left (hj : j < (Scan.ofText text).tokens.length)
    (hleft : Leaves goal (Scan.ofText text).tokens j) :
    Uncrossed goal (Scan.ofText text).tokens (stopOf (Scan.ofText text).tokens j) := by
  intro e he hlt
  have hwidth := startOf_le_stopOf (Nat.le_refl j) hj
  have := beside_of_mem_walk hj hleft (mem_orderedEdits.mp he)
  omega

/-- **The code up to the end of a token that the walk leaves ends with this token.** -/
theorem codeOfFront_of_left (hj : j < (Scan.ofText text).tokens.length)
    (hleft : Leaves goal (Scan.ofText text).tokens j) {front rest : List Char}
    (htext : text.toList = front ++ rest)
    (hfront : byteLength front = stopOf (Scan.ofText text).tokens j) :
    ∃ before, codeOfFront goal (Scan.ofText text).tokens front =
      before ++ (source (Scan.ofText text).tokens j).toList := by
  have hmem : (Scan.ofText text).tokens[j] ∈ (Scan.ofText text).tokens := List.getElem_mem hj
  obtain ⟨before, behind, hslice, hstart, hstop⟩ := Scan.slice_ofText hmem
  have hbeside := fun e he => @beside_of_mem_walk goal text e j hj hleft he
  have hcuts := fun e he => @cuts_of_mem_walk goal e text he
  generalize (Scan.ofText text).tokens = ts at *
  have hget : ts[j]? = some ts[j] := List.getElem?_eq_getElem hj
  have hsource : source ts j = ts[j].source := by rw [source, hget]; rfl
  have hstartOf : startOf ts j = byteLength before := by
    rw [startOf, hget]
    exact hstart.trans (Nat.zero_add _)
  have hstopOf : stopOf ts j = byteLength (before ++ (source ts j).toList) := by
    rw [stopOf, hget, byteLength_append, hsource, ← hstartOf, startOf, hget]
    exact hstop
  rw [← hsource, ← List.append_assoc] at hslice
  -- the front ends where the token does
  obtain rfl : front = before ++ (source ts j).toList := by
    have hcut := splitBytes_byteLength front rest
    rw [← htext, hslice, hfront, hstopOf, splitBytes_byteLength] at hcut
    exact (Prod.mk.inj hcut).1.symm
  generalize (source ts j).toList = token at hstopOf ⊢ hslice
  let edits := (orderedEdits goal ts).filter fun e => e.start < byteLength (before ++ token)
  have hdivides := @splice_divides [] before token edits []
    (fun e he => ?_) fun e he => by contradiction
  · rw [List.append_nil] at hdivides
    exact ⟨Edit.splice 0 before edits, hdivides⟩
  · obtain ⟨he, hlt⟩ := List.mem_filter.mp he
    rw [mem_orderedEdits] at he
    have hcut := hcuts e he
    have hside := hbeside e he
    rw [hstartOf, hstopOf] at hside
    rw [hslice, List.append_assoc] at hcut
    have hstop : e.stop ≤ byteLength before := hside.resolve_right (by simpa using hlt)
    exact ⟨hcut.start.of_append (hcut.le.trans hstop), hcut.stop.of_append hstop, hcut.le⟩

end Emit

end TypeScriptEngine
