import TypeScriptEngine.Proofs.Emit.Walk
import TypeScriptEngine.Proofs.Token.Spread

/-! # Cutting words out of a text

A program that loses its types is a list of `WordSegment`s: words that are kept and words that are cut
out.  If the changes of an emission are the `cuts` of such a list, then its code is made of the kept
words (`spread_finish`).
-/

namespace TypeScriptEngine.Emit

open TokenStream TypeScriptEngine.Text

/-! ## Segments -/

/-- Words that are kept, or cut out, together. -/
inductive WordSegment where
  | kept (ws : List Word)
  | cut (ws : List Word)

/-- All words of segments. -/
def allWords : List WordSegment → List Word
  | [] => []
  | .kept ws :: segs => ws ++ allWords segs
  | .cut ws :: segs => ws ++ allWords segs

/-- The words that are kept. -/
def keptWords : List WordSegment → List Word
  | [] => []
  | .kept ws :: segs => ws ++ keptWords segs
  | .cut _ :: segs => keptWords segs

/-- The erasures of what is cut out, when the first word is token `k` of a text. -/
def cuts (k : Nat) : List WordSegment → List Change
  | [] => []
  | .kept ws :: segs => cuts (k + ws.length) segs
  | .cut ws :: segs => .erase k (k + ws.length) :: cuts (k + ws.length) segs

/-- There is something in what is cut out. -/
def Proper (segs : List WordSegment) : Prop := ∀ ws, .cut ws ∈ segs → ws ≠ []

section

variable {segs segs' : List WordSegment} {ws : List Word} {k : Nat}

@[simp] theorem allWords_append : allWords (segs ++ segs') = allWords segs ++ allWords segs' := by
  fun_induction allWords segs with
  | case1 => rfl
  | case2 ws segs ih => rw [List.cons_append, allWords, ih, List.append_assoc]
  | case3 ws segs ih => rw [List.cons_append, allWords, ih, List.append_assoc]

@[simp] theorem keptWords_append : keptWords (segs ++ segs') = keptWords segs ++ keptWords segs' := by
  fun_induction keptWords segs with
  | case1 => rfl
  | case2 ws segs ih => rw [List.cons_append, keptWords, ih, List.append_assoc]
  | case3 ws segs ih => rw [List.cons_append, keptWords, ih]

@[simp] theorem cuts_append :
    cuts k (segs ++ segs') = cuts k segs ++ cuts (k + (allWords segs).length) segs' := by
  fun_induction cuts k segs with
  | case1 => rfl
  | case2 k ws segs ih => rw [List.cons_append, cuts, ih, allWords, List.length_append, Nat.add_assoc]
  | case3 k ws segs ih =>
    rw [List.cons_append, cuts, ih, allWords, List.length_append, Nat.add_assoc, List.cons_append]

theorem proper_nil : Proper [] := fun _ h => by contradiction

theorem Proper.kept (h : Proper segs) : Proper (.kept ws :: segs) := by
  intro ws' hmem
  rcases List.mem_cons.mp hmem with heq | hmem
  · contradiction
  · exact h ws' hmem

theorem Proper.append (h : Proper segs) (h' : Proper segs') : Proper (segs ++ segs') :=
  fun ws hmem => (List.mem_append.mp hmem).elim (h ws) (h' ws)

theorem Proper.tail {seg : WordSegment} (h : Proper (seg :: segs)) : Proper segs :=
  fun ws hmem => h ws (List.mem_cons_of_mem _ hmem)

end

/-! ## Drafts -/

namespace Draft

variable {ts : TokenStream} {d : Draft} {segs : List WordSegment} {k n : Nat}

/-- No token from a certain one on is claimed. -/
def FreeFrom (d : Draft) (k : Nat) : Prop := ∀ j, k ≤ j → d.isClaimed j = false

theorem isClaimed_set (d : Draft) (k j : Nat) :
    isClaimed { d with claimed := d.claimed.setIfInBounds k true } j = true ↔
      d.isClaimed j = true ∨ j = k ∧ k < d.claimed.size := by
  simp only [isClaimed, Array.getD_eq_getD_getElem?, Array.getElem?_setIfInBounds]
  by_cases hjk : k = j
  · subst hjk
    by_cases hk : k < d.claimed.size
    · simp [hk]
    · simp [hk]
  · simp [hjk, Ne.symm hjk]

theorem isClaimed_claimTokens (d : Draft) (k n j : Nat) :
    (d.claimTokens k n).isClaimed j = true ↔
      d.isClaimed j = true ∨ k ≤ j ∧ j < k + n ∧ j < d.claimed.size := by
  induction n generalizing d k with
  | zero =>
    rw [claimTokens]
    exact ⟨.inl, fun h => h.elim id fun h => absurd h.2.1 (Nat.not_lt.mpr h.1)⟩
  | succ n ih =>
    rw [claimTokens, ih, isClaimed_set, Array.size_setIfInBounds, or_assoc]
    refine or_congr_right ⟨?_, fun h => ?_⟩
    · rintro (⟨rfl, h⟩ | h) <;> omega
    · rcases Nat.eq_or_lt_of_le h.1 with rfl | hlt
      · exact .inl ⟨rfl, h.2.2⟩
      · exact .inr (by omega)

@[simp] theorem size_claimTokens (d : Draft) (k n : Nat) :
    (d.claimTokens k n).claimed.size = d.claimed.size := by
  induction n generalizing d k with
  | zero => rfl
  | succ n ih => rw [claimTokens, ih, Array.size_setIfInBounds]

@[simp] theorem classBodies_claimTokens (d : Draft) (k n : Nat) :
    (d.claimTokens k n).classBodies = d.classBodies := by
  induction n generalizing d k with
  | zero => rfl
  | succ n ih => exact ih _ _

theorem FreeFrom.mono (h : d.FreeFrom k) {k' : Nat} (hk : k ≤ k') : d.FreeFrom k' :=
  fun j hj => h j (hk.trans hj)

theorem freeFrom_empty (ts : TokenStream) : (empty ts).FreeFrom k := by
  intro j _
  simp only [isClaimed, empty, Array.getD_eq_getD_getElem?, Array.getElem?_replicate]
  split <;> rfl

/-- Among tokens that are not claimed there is a single run. -/
theorem freeRuns_of_freeFrom (h : d.FreeFrom k) (first n : Nat) :
    d.freeRuns k (some first) n = [(first, k + n)] := by
  induction n generalizing k with
  | zero => rfl
  | succ n ih =>
    rw [freeRuns, h k (Nat.le_refl k), if_neg (by decide), Option.getD_some, ih (h.mono k.le_succ),
      Nat.succ_add_eq_add_succ]

/-- What an erasure of tokens does that are not claimed. -/
theorem apply_erase (h : d.FreeFrom k) (hn : 0 < n) (hlast : k + n ≤ ts.last) :
    d.apply ts (.erase k (k + n)) =
      (d.addEdit ts k (k + n - 1) "").claimTokens k n := by
  obtain ⟨n, rfl⟩ := Nat.exists_eq_add_of_lt hn
  have hruns : d.freeRuns k none (0 + n + 1) = [(k, k + (0 + n + 1))] := by
    rw [freeRuns, h k (Nat.le_refl k), if_neg (by decide), Option.getD_none,
      freeRuns_of_freeFrom (h.mono k.le_succ), Nat.succ_add_eq_add_succ]
  rw [apply, Nat.min_eq_left hlast, Nat.add_sub_cancel_left]
  simp only [hruns, List.foldl_cons, List.foldl_nil]

/-- The edits for what is cut out. -/
def cutEdits (ts : TokenStream) (k : Nat) : List WordSegment → List Edit
  | [] => []
  | .kept ws :: segs => cutEdits ts (k + ws.length) segs
  | .cut ws :: segs =>
    ⟨ts.startOf k, ts.stopOf (k + ws.length - 1), []⟩ :: cutEdits ts (k + ws.length) segs

/-- **What cutting out does to a draft** that has claimed none of the tokens: it adds the edits, the
last one first, and claims what is cut out. -/
theorem applyAll_cuts (h : d.FreeFrom k) (hsize : d.claimed.size = ts.length) (hproper : Proper segs)
    (hlast : k + (allWords segs).length ≤ ts.last) :
    (d.applyAll ts (cuts k segs)).edits = (cutEdits ts k segs).reverse ++ d.edits ∧
      (d.applyAll ts (cuts k segs)).FreeFrom (k + (allWords segs).length) ∧
      (d.applyAll ts (cuts k segs)).claimed.size = ts.length ∧
      (d.applyAll ts (cuts k segs)).classBodies = d.classBodies := by
  fun_induction cuts k segs generalizing d with
  | case1 k => exact ⟨rfl, h, hsize, rfl⟩
  | case2 k ws segs ih =>
    rw [allWords, List.length_append, ← Nat.add_assoc] at hlast ⊢
    exact ih (h.mono (Nat.le_add_right k _)) hsize hproper.tail hlast
  | case3 k ws segs ih =>
    rw [allWords, List.length_append, ← Nat.add_assoc] at hlast ⊢
    have hws := List.length_pos_of_ne_nil (hproper ws (List.mem_cons_self ..))
    have happly := apply_erase h hws ((Nat.le_add_right _ _).trans hlast)
    have hfree : (d.apply ts (.erase k (k + ws.length))).FreeFrom (k + ws.length) := by
      intro j hj
      rw [happly, Bool.eq_false_iff, ne_eq, isClaimed_claimTokens]
      rintro (hclaimed | hbounds)
      · exact Bool.false_ne_true (h j (by omega) ▸ hclaimed)
      · omega
    obtain ⟨hedits, hfree', hsize', hbodies⟩ := ih hfree (by simpa [happly, addEdit] using hsize)
      hproper.tail hlast
    refine ⟨hedits.trans ?_, hfree', hsize', hbodies.trans (by rw [happly]; simp [addEdit])⟩
    rw [happly, edits_claimTokens, cutEdits, List.reverse_cons, List.append_assoc]
    rfl

/-- Adding edits has nothing to do with claims. -/
@[simp] theorem claimed_addRuns (runs : List (Nat × Nat)) (d : Draft) :
    (d.addRuns ts runs).claimed = d.claimed := by
  induction runs generalizing d with
  | nil => rfl
  | cons run runs ih => exact ih (d.addEdit ts run.1 (run.2 - 1) "")

theorem isClaimed_addRuns (runs : List (Nat × Nat)) (d : Draft) (j : Nat) :
    (d.addRuns ts runs).isClaimed j = d.isClaimed j := by
  rw [isClaimed, claimed_addRuns, isClaimed]

/-- Changes take no claim back. -/
theorem isClaimed_apply {c : Change} {j : Nat} (h : d.isClaimed j = true) :
    (d.apply ts c).isClaimed j = true := by
  cases c with
  | erase first stop =>
    exact (isClaimed_claimTokens ..).mpr (.inl ((isClaimed_addRuns ..).trans h))
  | replace first stop text => exact (isClaimed_claimTokens ..).mpr (.inl h)
  | insertAfter i text => exact h
  | claim first stop => exact (isClaimed_claimTokens ..).mpr (.inl h)
  | openClassBody i => exact h
  | useTemporary => exact h

theorem isClaimed_applyAll {changes : List Change} {j : Nat} (h : d.isClaimed j = true) :
    (d.applyAll ts changes).isClaimed j = true := by
  induction changes generalizing d with
  | nil => exact h
  | cons c changes ih => exact ih (isClaimed_apply h)

@[simp] theorem size_apply (c : Change) : (d.apply ts c).claimed.size = d.claimed.size := by
  cases c with
  | erase first stop => rw [apply_erase_eq, size_claimTokens, claimed_addRuns]
  | replace first stop text => exact size_claimTokens ..
  | insertAfter i text => rfl
  | claim first stop => exact size_claimTokens ..
  | openClassBody i => rfl
  | useTemporary => rfl

theorem size_applyAll (changes : List Change) (d : Draft) :
    (d.applyAll ts changes).claimed.size = d.claimed.size := by
  induction changes generalizing d with
  | nil => rfl
  | cons c changes ih => exact (ih (d.apply ts c)).trans (size_apply c)

/-- What is cut out is claimed. -/
theorem isClaimed_of_mem {changes : List Change} {first stop j : Nat}
    (h : .erase first stop ∈ changes) (hfirst : first ≤ j) (hstop : j < stop) (hlast : j < ts.last)
    (hsize : j < d.claimed.size) : (d.applyAll ts changes).isClaimed j = true := by
  induction changes generalizing d with
  | nil => contradiction
  | cons c changes ih =>
    rcases List.mem_cons.mp h with rfl | h
    · have hclaimed : (d.apply ts (.erase first stop)).isClaimed j = true := by
        rw [apply_erase_eq, isClaimed_claimTokens, claimed_addRuns]
        exact .inr ⟨hfirst, by omega, hsize⟩
      show ((d.apply ts (.erase first stop)).applyAll ts changes).isClaimed j = true
      exact isClaimed_applyAll hclaimed
    · exact ih h (by rwa [size_apply])

theorem applyAll_append (changes changes' : List Change) (d : Draft) :
    d.applyAll ts (changes ++ changes') = (d.applyAll ts changes).applyAll ts changes' :=
  List.foldl_append

end Draft

/-! ## The walk -/

/-- What is known of a draft when the walk comes to a statement. -/
structure Ready (ts : TokenStream) (d : Draft) (k : Nat) : Prop where
  free : d.FreeFrom k
  size : d.claimed.size = ts.length
  bodies : d.classBodies = []

namespace Ready

variable {ts : TokenStream} {d : Draft} {k : Nat}

theorem next (h : Ready ts d k) {k' : Nat} (hk : k ≤ k') : Ready ts d k' :=
  ⟨h.free.mono hk, h.size, h.bodies⟩

/-- Cutting gets a draft ready for what comes behind. -/
theorem applyAll (h : Ready ts d k) {segs : List WordSegment} (hproper : Proper segs)
    (hlast : k + (allWords segs).length ≤ ts.last) :
    Ready ts (d.applyAll ts (cuts k segs)) (k + (allWords segs).length) := by
  obtain ⟨_, hfree, hsize, hbodies⟩ := Draft.applyAll_cuts h.free h.size hproper hlast
  exact ⟨hfree, hsize, hbodies.trans h.bodies⟩

end Ready

/-- The kinds of tokens for which nothing is proposed, apart from the braces of classes. -/
def isQuiet : TokenKind → Bool
  | .kwImport | .kwExport | .kwInterface | .kwType | .kwDeclare | .kwAbstract | .kwFunction
  | .kwClass | .lparen | .lt | .kwVar | .kwLet | .kwConst | .kwAs | .kwSatisfies | .bang => false
  | _ => true

section

variable {goal : Goal} {ts : TokenStream} {d : Draft} {i stop : Nat}

theorem visit_of_isQuiet (hbodies : d.classBodies = []) (h : isQuiet (ts.kind i) = true) :
    visit goal ts d i = .proposing [] i := by
  unfold visit
  cases hkind : ts.kind i <;> simp_all [isQuiet]

theorem walk_visit (hi : i < ts.last) (hfree : d.isClaimed i = false) :
    walk goal ts d i = walk goal ts (d.applyAll ts (visit goal ts d i).changes)
      (max (visit goal ts d i).next (i + 1)) := by
  rw [walk, if_pos hi, if_neg (Bool.eq_false_iff.mp hfree)]

/-- What the walk does from a token on that it comes to is what it does from the first one on. -/
theorem Reaches.walk_eq (h : Reaches goal ts d i) :
    walk goal ts d i = walk goal ts (firstDraft goal ts) 0 := by
  induction h with
  | first => rfl
  | @pass d i h hi hclaimed ih =>
    rw [← ih]
    conv => rhs; rw [walk, if_pos hi, if_pos hclaimed]
  | @visit d i h hi hfree ih =>
    rw [← ih]
    conv => rhs; rw [walk_visit hi hfree]

/-- The walk passes over what is claimed or quiet. -/
theorem walk_over (hbodies : d.classBodies = []) (hstop : stop ≤ ts.last) (hi : i ≤ stop)
    (h : ∀ j, i ≤ j → j < stop → d.isClaimed j = true ∨ isQuiet (ts.kind j) = true) :
    walk goal ts d i = walk goal ts d stop := by
  induction hn : stop - i generalizing i with
  | zero =>
    obtain rfl : i = stop := by omega
    rfl
  | succ n ih =>
    have hlt : i < stop := by omega
    have hnext := ih (i := i + 1) hlt (fun j hj => h j (by omega)) (by omega)
    rw [← hnext]
    cases hclaimed : d.isClaimed i with
    | true => rw [walk, if_pos (by omega), if_pos hclaimed]
    | false =>
      have hquiet := (h i (Nat.le_refl i) hlt).resolve_left (by simp [hclaimed])
      rw [walk_visit (by omega) hclaimed, visit_of_isQuiet hbodies hquiet]
      show walk goal ts d (max (i + 1) (i + 1)) = _
      rw [Nat.max_self]

/-- The walk passes over segments whose cuts were carried out, if what is kept of them is quiet. -/
theorem walk_over_segments {place : Nat → TokenPlace} {segs : List WordSegment} {changes : List Change}
    (hbodies : (d.applyAll ts changes).classBodies = []) (hsize : d.claimed.size = ts.length)
    (hreads : Reads place ts i (allWords segs)) (hlast : i + (allWords segs).length ≤ ts.last)
    (hcuts : ∀ c ∈ cuts i segs, c ∈ changes) (hquiet : ∀ w ∈ keptWords segs, isQuiet w.kind = true) :
    walk goal ts (d.applyAll ts changes) i =
      walk goal ts (d.applyAll ts changes) (i + (allWords segs).length) := by
  induction segs generalizing i with
  | nil => rfl
  | cons seg segs ih =>
    cases seg with
    | kept ws =>
      rw [allWords, List.length_append, ← Nat.add_assoc] at hlast ⊢
      rw [walk_over hbodies ((Nat.le_add_right _ _).trans hlast) (Nat.le_add_right i ws.length)
        fun j hj hstop => ?_]
      · exact ih hreads.right hlast hcuts fun w hw => hquiet w (List.mem_append_right _ hw)
      · obtain ⟨w, hw, hkind⟩ := hreads.left.exists_mem hj hstop
        exact .inr (hkind ▸ hquiet w (List.mem_append_left _ hw))
    | cut ws =>
      rw [allWords, List.length_append, ← Nat.add_assoc] at hlast ⊢
      have hmem := hcuts _ (List.mem_cons_self ..)
      rw [walk_over hbodies ((Nat.le_add_right _ _).trans hlast) (Nat.le_add_right i ws.length)
        fun j hj hstop => .inl ?_]
      · exact ih hreads.right hlast (fun c hc => hcuts c (List.mem_cons_of_mem _ hc)) hquiet
      · have hend : ts.last ≤ ts.length := Nat.sub_le ..
        exact Draft.isClaimed_of_mem hmem hj hstop (by omega) (by omega)

end

/-! ## The code -/

theorem splitBytes_append_left (front rest : List Char) (n : Nat) :
    splitBytes (byteLength front + n) (front ++ rest) =
      (front ++ (splitBytes n rest).1, (splitBytes n rest).2) := by
  induction front with
  | nil => simp
  | cons c front ih =>
    rw [List.cons_append, splitBytes, if_pos (by rw [byteLength_cons]; omega), byteLength_cons,
      Nat.add_assoc, Nat.add_sub_cancel_left, ih]
    rfl

/-- Nothing is done to what comes before the first edit. -/
theorem splice_append {cursor : Nat} {front rest : List Char} {edits : List Edit}
    (h : ∀ e ∈ edits, cursor + byteLength front ≤ e.start) :
    Edit.splice cursor (front ++ rest) edits =
      front ++ Edit.splice (cursor + byteLength front) rest edits := by
  cases edits with
  | nil => rfl
  | cons e es =>
    have hstart := h e (List.mem_cons_self ..)
    have hcut : splitBytes (e.start - cursor) (front ++ rest) =
        (front ++ (splitBytes (e.start - (cursor + byteLength front)) rest).1,
          (splitBytes (e.start - (cursor + byteLength front)) rest).2) := by
      rw [← splitBytes_append_left]
      congr 1
      omega
    rw [Edit.splice, Edit.splice, if_neg (by omega), if_neg (by omega), hcut]
    simp only [List.append_assoc]

/-- Of what is replaced the line breaks remain. -/
theorem splice_replace {cursor : Nat} {front cut rest text : List Char} {edits : List Edit} :
    Edit.splice cursor (front ++ (cut ++ rest))
        (⟨cursor + byteLength front, cursor + byteLength front + byteLength cut, text⟩ :: edits) =
      front ++ (text ++ (List.replicate (lineBreaks cut) '\n' ++
        Edit.splice (cursor + byteLength front + byteLength cut) rest edits)) := by
  rw [Edit.splice, if_neg (by simp)]
  simp only [Nat.add_sub_cancel_left, splitBytes_byteLength, List.append_assoc]

section

variable {ws before : List Word} {segs : List WordSegment} {p : TokenPlace} {k : Nat}

/-- The tokens of printed words. -/
def printed (ws : List Word) (p : TokenPlace) : TokenStream :=
  stream (placeAt ws) 0 ws ++ [endToken p]

theorem getElem?_printed (h : k < ws.length) :
    (printed ws p)[k]? = some (ws[k].token (placeAt ws k)) := by
  have hsplit : ws = ws.take k ++ ws[k] :: ws.drop (k + 1) := by simp
  have hreads : Reads (placeAt ws) (printed ws p) 0 (ws.take k ++ ws[k] :: ws.drop (k + 1)) := by
    rw [← hsplit]
    exact .of_append _
  have hget := hreads.right.getElem?
  rwa [Nat.zero_add, List.length_take_of_le (Nat.le_of_lt h)] at hget

theorem startOf_printed (h : k < ws.length) :
    startOf (printed ws p) k = byteLength (printFrom 0 (ws.take k)) + byteLength (gap k) := by
  rw [startOf, getElem?_printed h]
  exact byteLength_append ..

theorem stopOf_printed (h : k < ws.length) :
    stopOf (printed ws p) k = byteLength (printFrom 0 (ws.take (k + 1))) := by
  rw [stopOf, getElem?_printed h]
  rfl

/-- The edit that cuts words out. -/
theorem cutEdits_cut {cut : List Word} (hcut : cut ≠ [])
    (hws : ws = before ++ allWords (.cut cut :: segs)) :
    Draft.cutEdits (printed ws p) before.length (.cut cut :: segs) =
      ⟨byteLength (printFrom 0 before) + byteLength (gap before.length),
        byteLength (printFrom 0 (before ++ cut)), []⟩ ::
        Draft.cutEdits (printed ws p) (before ++ cut).length segs := by
  have hpos := List.length_pos_of_ne_nil hcut
  have hlength : before.length + cut.length ≤ ws.length := by
    rw [hws, allWords]
    simp
  have htake : ws.take before.length = before := by
    rw [hws, List.take_left]
  have htake' : ws.take (before.length + cut.length - 1 + 1) = before ++ cut := by
    rw [Nat.sub_add_cancel (by omega), hws, allWords, ← List.append_assoc, ← List.length_append,
      List.take_left]
  rw [Draft.cutEdits, startOf_printed (by omega), stopOf_printed (by omega), htake, htake',
    List.length_append]

theorem le_start_of_mem_cutEdits (hproper : Proper segs) (hws : ws = before ++ allWords segs)
    {e : Edit} (he : e ∈ Draft.cutEdits (printed ws p) before.length segs) :
    byteLength (printFrom 0 before) ≤ e.start := by
  induction segs generalizing before with
  | nil => contradiction
  | cons seg segs ih =>
    have hle : ∀ ws', byteLength (printFrom 0 before) ≤
        byteLength (printFrom 0 (before ++ ws')) := by
      intro ws'
      rw [printFrom_append, byteLength_append]
      exact Nat.le_add_right ..
    cases seg with
    | kept ws' =>
      rw [Draft.cutEdits, ← List.length_append] at he
      exact (hle ws').trans (ih hproper.tail (by rw [hws, allWords, List.append_assoc]) he)
    | cut ws' =>
      rw [cutEdits_cut (hproper ws' (List.mem_cons_self ..)) hws] at he
      rcases List.mem_cons.mp he with rfl | he
      · exact Nat.le_add_right ..
      · exact (hle ws').trans (ih hproper.tail (by rw [hws, allWords, List.append_assoc]) he)

/-- Cuts are in order. -/
theorem pairwise_cutEdits (hproper : Proper segs) (hws : ws = before ++ allWords segs) :
    (Draft.cutEdits (printed ws p) before.length segs).Pairwise fun e f => Edit.le e f = true := by
  induction segs generalizing before with
  | nil => exact .nil
  | cons seg segs ih =>
    cases seg with
    | kept ws' =>
      rw [Draft.cutEdits, ← List.length_append]
      exact ih hproper.tail (by rw [hws, allWords, List.append_assoc])
    | cut ws' =>
      have hne := hproper ws' (List.mem_cons_self ..)
      rw [cutEdits_cut hne hws]
      have hws' : ws = before ++ ws' ++ allWords segs := by rw [hws, allWords, List.append_assoc]
      refine List.pairwise_cons.mpr ⟨fun f hf => ?_, ih hproper.tail hws'⟩
      have hle := le_start_of_mem_cutEdits hproper.tail hws' hf
      obtain ⟨w, ws'', rfl⟩ := List.exists_cons_of_ne_nil hne
      obtain ⟨c, cs, htext, _⟩ := w.spells.exists_cons
      have hc := utf8Size_pos c
      rw [printFrom_append, printFrom, Nat.zero_add, htext] at hle
      simp only [byteLength_append, byteLength_cons] at hle
      simp only [Edit.le, Bool.or_eq_true, decide_eq_true_eq]
      omega

/-- **What is left of printed words is made of those that are kept.** -/
theorem spread_splice (hproper : Proper segs) (hws : ws = before ++ allWords segs) :
    Spread (Edit.splice (byteLength (printFrom 0 before)) (printFrom before.length (allWords segs))
      (Draft.cutEdits (printed ws p) before.length segs)) (keptWords segs) ∧
    (before ≠ [] → Apart (Edit.splice (byteLength (printFrom 0 before))
      (printFrom before.length (allWords segs))
      (Draft.cutEdits (printed ws p) before.length segs))) := by
  induction segs generalizing before with
  | nil => exact ⟨.nil blank_nil, fun _ => apart_nil⟩
  | cons seg segs ih =>
    have hend : ∀ ws', byteLength (printFrom 0 (before ++ ws')) =
        byteLength (printFrom 0 before) + byteLength (printFrom before.length ws') := by
      intro ws'
      rw [printFrom_append, byteLength_append, Nat.zero_add]
    cases seg with
    | kept ws' =>
      have hws' : ws = before ++ ws' ++ allWords segs := by rw [hws, allWords, List.append_assoc]
      have hstart := fun e => le_start_of_mem_cutEdits (e := e) (p := p) hproper.tail hws'
      obtain ⟨hspread, happart⟩ := ih hproper.tail hws'
      simp only [hend, List.length_append] at hstart hspread happart
      rw [allWords, printFrom_append, Draft.cutEdits, splice_append hstart]
      have hnext : ws' ≠ [] → Apart _ := fun h => happart (by simp [h])
      refine ⟨hspread.prepend_print hnext _, fun h => ?_⟩
      cases ws' with
      | nil => exact happart (by simp [h])
      | cons w ws' =>
        rw [printFrom, gap, if_neg (by simpa using h)]
        exact apart_cons (by decide)
    | cut ws' =>
      have hws' : ws = before ++ ws' ++ allWords segs := by rw [hws, allWords, List.append_assoc]
      have hne := hproper ws' (List.mem_cons_self ..)
      obtain ⟨hspread, happart⟩ := ih hproper.tail hws'
      obtain ⟨w, ws'', rfl⟩ := List.exists_cons_of_ne_nil hne
      have hbody : printFrom before.length (w :: ws'') =
          gap before.length ++ (w.text ++ printFrom (before.length + 1) ws'') := rfl
      have hblank : Blank (List.replicate (lineBreaks (w.text ++ printFrom (before.length + 1) ws''))
          '\n') := by
        intro c hc
        rw [List.eq_of_mem_replicate hc]
        decide
      rw [hend, hbody, byteLength_append, ← Nat.add_assoc, List.length_append] at hspread happart
      rw [cutEdits_cut hne hws, allWords, printFrom_append, hend, hbody, List.append_assoc,
        byteLength_append (gap _), ← Nat.add_assoc, splice_replace, List.nil_append, List.length_append]
      refine ⟨(hspread.prepend_gap hblank).prepend_gap (blank_gap _), fun h => ?_⟩
      rw [gap, if_neg (by simpa using h)]
      exact apart_cons (by decide)

/-- **Cutting words out of a printed text leaves the words that are kept,** with white space between
them. -/
theorem spread_finish (hproper : Proper segs) :
    Spread (((Draft.empty (printed (allWords segs) p)).applyAll (printed (allWords segs) p)
      (cuts 0 segs)).finish (print (allWords segs))) (keptWords segs) := by
  have hlast : 0 + (allWords segs).length ≤ last (printed (allWords segs) p) := by
    simp [last, printed]
  obtain ⟨hedits, _⟩ := Draft.applyAll_cuts (Draft.freeFrom_empty (printed (allWords segs) p))
    (by simp [Draft.empty]) hproper hlast
  have hws : allWords segs = [] ++ allWords segs := rfl
  rw [Draft.finish, hedits, Edit.applyAll, print_eq_printFrom]
  simp only [Draft.empty, List.append_nil, List.reverse_reverse]
  have hsorted : (Draft.cutEdits (printed (allWords segs) p) 0 segs).mergeSort Edit.le =
      Draft.cutEdits (printed (allWords segs) p) 0 segs :=
    List.mergeSort_of_pairwise (pairwise_cutEdits hproper hws)
  rw [hsorted]
  exact (spread_splice hproper hws).1

end

end TypeScriptEngine.Emit
