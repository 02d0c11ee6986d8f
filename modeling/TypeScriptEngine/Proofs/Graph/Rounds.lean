import Mathlib.Logic.Function.Iterate
import TypeScriptEngine.Proofs.Graph.Closure

/-! # The rounds of a search

A search takes up one node of its queue in each `round`.  The work that is left, which is the length
of the queue and the number of edges that still lead away from nodes not found, becomes less with
each of them (`work_round_lt`).  So the queue is empty after as many rounds, and what was found until
then is what `closure` collects (`iterate_round`).
-/

namespace TypeScriptEngine.Graph

variable {α : Type} [BEq α]

/-- What a search has found, the last node first, and what it is still to take up. -/
structure Worklist (α : Type) where
  found : List α
  queue : List α

/-- The number of edges of a graph. -/
def edgeCount : Adjacency α → Nat
  | [] => 0
  | entry :: g => entry.2.length + edgeCount g

/-- The edges of the nodes that are not among those found. -/
def edgesLeft (g : Adjacency α) (found : List α) : Nat :=
  edgeCount (g.filter fun entry => !isIn entry.1 found)

theorem edgesLeft_nil (g : Adjacency α) : edgesLeft g [] = edgeCount g :=
  congrArg edgeCount (List.filter_eq_self.mpr fun _ _ => rfl)

/-- The edges of one node that was not found. -/
theorem edgesLeft_cons_of_not_found {entry : α × List α} {g : Adjacency α} {found : List α}
    (h : isIn entry.1 found = false) :
    edgesLeft (entry :: g) found = entry.2.length + edgesLeft g found := by
  rw [edgesLeft, List.filter_cons_of_pos (by simp [h]), edgeCount]
  rfl

theorem edgesLeft_cons_of_found {entry : α × List α} {g : Adjacency α} {found : List α}
    (h : isIn entry.1 found = true) : edgesLeft (entry :: g) found = edgesLeft g found := by
  rw [edgesLeft, List.filter_cons_of_neg (by simp [h])]
  rfl

namespace Worklist

/-- One round of a search.  The head of the queue is passed over if it was found before; otherwise
it is found, and those of its successors that were not come behind the rest of the queue. -/
def round (g : Adjacency α) (w : Worklist α) : Worklist α :=
  match w.queue with
  | [] => w
  | a :: queue =>
    if isIn a w.found then { w with queue }
    else ⟨a :: w.found, queue ++ (successors g a).filter fun b => !isIn b (a :: w.found)⟩

/-- How much is left to do. -/
def work (g : Adjacency α) (w : Worklist α) : Nat := w.queue.length + edgesLeft g w.found

/-- Where the search for what a node leads to begins. -/
def start (g : Adjacency α) (a : α) : Worklist α := ⟨[], successors g a⟩

end Worklist

variable [EquivBEq α] {g : Adjacency α} {a : α} {found : List α} {w : Worklist α}

/-- Finding a node takes its edges away from those that are left. -/
theorem edgesLeft_found (ha : isIn a found = false) :
    edgesLeft g (a :: found) + (successors g a).length ≤ edgesLeft g found := by
  -- on the graph: the edges of the node are those of the first entry for it
  induction g with
  | nil => exact Nat.le_refl 0
  | cons entry g ih =>
    have hsuccessors : successors (entry :: g) a =
        if entry.1 == a then entry.2 else successors g a := by
      unfold successors
      rw [List.find?_cons]
      split <;> rename_i h <;> simp [h]
    cases hentry : entry.1 == a with
    | true =>
      have hleft : isIn entry.1 found = false := Bool.eq_false_iff.mpr fun h =>
        Bool.false_ne_true (ha ▸ isIn_of_beq hentry h)
      have hless : edgesLeft g (a :: found) ≤ edgesLeft g found :=
        Nat.le_of_add_right_le ih
      have hfound : isIn entry.1 (a :: found) = true := by
        rw [isIn_cons, BEq.symm hentry, Bool.true_or]
      rw [hsuccessors, if_pos hentry, edgesLeft_cons_of_not_found hleft,
        edgesLeft_cons_of_found hfound]
      omega
    | false =>
      rw [hsuccessors, if_neg (by simp [hentry])]
      cases hleft : isIn entry.1 found with
      | true =>
        have hfound : isIn entry.1 (a :: found) = true := by rw [isIn_cons, hleft, Bool.or_true]
        rwa [edgesLeft_cons_of_found hleft, edgesLeft_cons_of_found hfound]
      | false =>
        have hother : (a == entry.1) = false := by rw [BEq.comm, hentry]
        have hfound : isIn entry.1 (a :: found) = false := by
          rw [isIn_cons, hleft, hother, Bool.or_false]
        rw [edgesLeft_cons_of_not_found hleft, edgesLeft_cons_of_not_found hfound]
        omega

/-- **A round leaves less to do,** as long as the queue is not empty. -/
theorem work_round_lt (h : w.queue ≠ []) : (w.round g).work g < w.work g := by
  obtain ⟨found, queue⟩ := w
  cases queue with
  | nil => contradiction
  | cons a queue =>
    unfold Worklist.work Worklist.round
    simp only
    split
    · simp
    · rename_i hfound
      have hleft := @edgesLeft_found _ _ _ g a found (Bool.eq_false_iff.mpr hfound)
      have hfilter := List.length_filter_le (fun b => !isIn b (a :: found)) (successors g a)
      simp only [List.length_append, List.length_cons]
      omega

/-- What is left to find is the same after a round. -/
theorem closure_round (g : Adjacency α) (w : Worklist α) :
    closure g (w.round g).found (w.round g).queue = closure g w.found w.queue := by
  obtain ⟨found, queue⟩ := w
  cases queue with
  | nil => rfl
  | cons a queue =>
    unfold Worklist.round
    simp only
    rw [closure.eq_def g found (a :: queue)]
    simp only
    split
    · rfl
    · split
      · rename_i hnone
        rw [hnone, List.filter_nil, List.append_nil]
      · rename_i hsome
        rw [hsome]

/-- A search with an empty queue is over. -/
theorem iterate_round_of_empty (found : List α) (n : Nat) :
    (Worklist.round g)^[n] ⟨found, []⟩ = ⟨closure g found [], []⟩ := by
  rw [Function.iterate_fixed rfl, closure]

/-- **After as many rounds as there is work the queue is empty,** and what was found is what the
search collects. -/
theorem iterate_round {n : Nat} (h : w.work g ≤ n) :
    (Worklist.round g)^[n] w = ⟨closure g w.found w.queue, []⟩ := by
  induction n generalizing w with
  | zero =>
    obtain ⟨found, queue⟩ := w
    obtain rfl : queue = [] := List.length_eq_zero_iff.mp
      (Nat.eq_zero_of_add_eq_zero_right (Nat.le_zero.mp h))
    exact iterate_round_of_empty found 0
  | succ n ih =>
    by_cases hqueue : w.queue = []
    · obtain ⟨found, queue⟩ := w
      obtain rfl : queue = [] := hqueue
      exact iterate_round_of_empty found (n + 1)
    · have hwork : (w.round g).work g ≤ n :=
        Nat.le_of_lt_succ (Nat.lt_of_lt_of_le (work_round_lt hqueue) h)
      rw [Function.iterate_succ_apply, ih hwork, closure_round]

/-- The search for what a node leads to is over after as many rounds as the node has successors and
the graph has edges. -/
theorem exists_rounds (g : Adjacency α) (a : α) :
    ∃ n ≤ (successors g a).length + edgeCount g,
      (Worklist.round g)^[n] (.start g a) = ⟨(reachable g a).reverse, []⟩ := by
  have hwork : (Worklist.start g a).work g = (successors g a).length + edgeCount g :=
    congrArg (_ + ·) (edgesLeft_nil g)
  refine ⟨_, Nat.le_refl _, ?_⟩
  rw [iterate_round (Nat.le_of_eq hwork), reachable, List.reverse_reverse]
  rfl

end TypeScriptEngine.Graph
