import TypeScriptEngine.Proofs.Graph.Rounds

/-! # The steps of a descent

The search for a cycle keeps the roots from which it is still to descend, the nodes that are done,
and the path to the node where it is.  Each `step` looks at one successor, leaves one node or takes
up one root, and leaves less to do (`work_step_lt`).  So the search is over after as many steps as
there is work, and its outcome is that of `cycleFrom` (`iterate_step`).
-/

namespace TypeScriptEngine.Graph

variable {α : Type} [BEq α]

/-! ## Equations -/

section

variable [EquivBEq α]

theorem search_nil (g : Adjacency α) (done : List α) : search g done [] = .acyclic done := by
  rw [search]

theorem search_leave (g : Adjacency α) (done : List α) (node : α) (rest : List (Visit α)) :
    search g done (⟨node, []⟩ :: rest) = search g (node :: done) rest := by
  rw [search]

theorem search_try (g : Adjacency α) (done : List α) (node target : α) (pending : List α)
    (rest : List (Visit α)) :
    search g done (⟨node, target :: pending⟩ :: rest) =
      if isIn target (node :: pathNodes rest) then
        .cycle (closeCycle (node :: pathNodes rest) target)
      else if isIn target done then search g done (⟨node, pending⟩ :: rest)
      else search g done (⟨target, successors g target⟩ :: ⟨node, pending⟩ :: rest) := by
  rw [search]

end

/-- The edges that are left do not depend on the order of the nodes found. -/
theorem edgesLeft_congr (g : Adjacency α) {xs ys : List α}
    (h : ∀ a, isIn a xs = isIn a ys) : edgesLeft g xs = edgesLeft g ys := by
  simp only [edgesLeft, h]

/-- A node that is left goes from the path to those that are done, so that no node is lost. -/
theorem isIn_leave (a : α) (done : List α) (v : Visit α) (rest : List (Visit α)) :
    isIn a (pathNodes rest ++ v.node :: done) = isIn a (pathNodes (v :: rest) ++ done) := by
  simp only [pathNodes, List.map_cons, List.cons_append, isIn_append, isIn_cons]
  exact Bool.or_left_comm ..

/-! ## Steps -/

/-- The state of a search for a cycle: on a path below one of the roots, or over. -/
inductive Descent (α : Type) where
  | searching (roots done : List α) (path : List (Visit α))
  | ended (cycle? : Option (List α))

namespace Descent

/-- One step of a search.  The first successor that is still to be tried closes a cycle if it is on
the path; it is passed over if it is done, and taken up otherwise.  A node without further
successors is done. -/
def step (g : Adjacency α) : Descent α → Descent α
  | ended cycle? => ended cycle?
  | searching [] _ [] => ended none
  | searching (root :: roots) done [] =>
    if isIn root done then searching roots done []
    else searching roots done [⟨root, successors g root⟩]
  | searching roots done (⟨node, []⟩ :: rest) => searching roots (node :: done) rest
  | searching roots done (⟨node, target :: pending⟩ :: rest) =>
    if isIn target (node :: pathNodes rest) then
      ended (some (closeCycle (node :: pathNodes rest) target))
    else if isIn target done then searching roots done (⟨node, pending⟩ :: rest)
    else searching roots done (⟨target, successors g target⟩ :: ⟨node, pending⟩ :: rest)

/-- Where a search from some roots begins. -/
def start (roots : List α) : Descent α := searching roots [] []

/-- How much is left to do. -/
def work (g : Adjacency α) : Descent α → Nat
  | ended _ => 0
  | searching roots done path =>
    2 * roots.length + pathWork path + 2 * edgesLeft g (pathNodes path ++ done) + 1

theorem work_start (g : Adjacency α) (roots : List α) :
    (start roots).work g = 2 * (roots.length + edgeCount g) + 1 := by
  have hleft : edgesLeft g (pathNodes ([] : List (Visit α)) ++ []) = edgeCount g := edgesLeft_nil g
  rw [start, work, hleft, pathWork]
  omega

variable [EquivBEq α] {g : Adjacency α} {d : Descent α}

/-! ## The outcome -/

/-- What a search comes to. -/
def outcome (g : Adjacency α) : Descent α → Option (List α)
  | ended cycle? => cycle?
  | searching roots done path =>
    match search g done path with
    | .cycle nodes => some nodes
    | .acyclic done => cycleFrom g done roots

/-- With no path left, the search goes on from the next root. -/
theorem outcome_nil (g : Adjacency α) (roots done : List α) :
    (searching roots done []).outcome g = cycleFrom g done roots := by
  rw [outcome, search_nil]

theorem outcome_start (g : Adjacency α) (roots : List α) :
    (start roots).outcome g = cycleFrom g [] roots := outcome_nil g roots []

/-- **What a search comes to is the same after a step.** -/
theorem outcome_step (g : Adjacency α) (d : Descent α) : (d.step g).outcome g = d.outcome g := by
  fun_cases step g d with
  | case1 cycle? => rfl
  | case2 done => rw [outcome_nil, cycleFrom, outcome]
  | case3 root roots done hdone => rw [outcome_nil, outcome_nil, cycleFrom, if_pos hdone]
  | case4 root roots done hdone =>
    rw [outcome_nil, cycleFrom, if_neg hdone]
    rfl
  | case5 roots done node rest => rw [outcome, outcome, search_leave]
  | case6 roots done node target pending rest hpath =>
    rw [outcome, outcome, search_try, if_pos hpath]
  | case7 roots done node target pending rest hpath hdone =>
    rw [outcome, outcome, search_try, if_neg hpath, if_pos hdone]
  | case8 roots done node target pending rest hpath hdone =>
    rw [outcome, outcome, search_try, if_neg hpath, if_neg hdone]

/-! ## The work -/

/-- Taking up a node makes work of its successors, less than its edges are worth. -/
theorem work_take_lt {roots done : List α} {path : List (Visit α)} {target : α} {n : Nat}
    (hseen : isIn target (pathNodes path ++ done) = false)
    (hn : 2 * roots.length + pathWork path + 1 < n) :
    (searching roots done (⟨target, successors g target⟩ :: path)).work g <
      n + 2 * edgesLeft g (pathNodes path ++ done) + 1 := by
  have hleft := edgesLeft_found (g := g) hseen
  show 2 * roots.length + (2 * (successors g target).length + 1 + pathWork path) +
    2 * edgesLeft g (target :: (pathNodes path ++ done)) + 1 < _
  omega

/-- **A step leaves less to do,** as long as the search is not over. -/
theorem work_step_lt (h : ∀ cycle?, d ≠ ended cycle?) : (d.step g).work g < d.work g := by
  fun_cases step g d with
  | case1 cycle? => exact absurd rfl (h cycle?)
  | case2 done => exact Nat.succ_pos _
  | case3 root roots done hdone =>
    simp only [work, List.length_cons]
    omega
  | case4 root roots done hdone =>
    refine work_take_lt (Bool.eq_false_iff.mpr hdone) ?_
    simp only [pathWork, List.length_cons]
    omega
  | case5 roots done node rest =>
    -- the node is only moved, so that the edges that are left are the same
    have hleft : edgesLeft g (pathNodes rest ++ node :: done) =
        edgesLeft g (pathNodes (⟨node, []⟩ :: rest) ++ done) :=
      edgesLeft_congr g fun a => isIn_leave a done ⟨node, []⟩ rest
    simp only [work, pathWork, hleft, List.length_nil]
    omega
  | case6 roots done node target pending rest hpath => exact Nat.succ_pos _
  | case7 roots done node target pending rest hpath hdone =>
    simp only [work, pathWork, pathNodes, List.map_cons, List.length_cons]
    omega
  | case8 roots done node target pending rest hpath hdone =>
    have hseen : isIn target (pathNodes (⟨node, pending⟩ :: rest) ++ done) = false := by
      rw [isIn_append]
      exact Bool.or_eq_false_iff.mpr ⟨Bool.eq_false_iff.mpr hpath, Bool.eq_false_iff.mpr hdone⟩
    refine work_take_lt hseen ?_
    simp only [pathWork, List.length_cons]
    omega

/-- **After as many steps as there is work the search is over.** -/
theorem iterate_step {n : Nat} (h : d.work g ≤ n) : (step g)^[n] d = ended (d.outcome g) := by
  induction n generalizing d with
  | zero =>
    cases d with
    | searching roots done path => contradiction
    | ended cycle? => rfl
  | succ n ih =>
    by_cases hended : ∀ cycle?, d ≠ ended cycle?
    · rw [Function.iterate_succ_apply, ih, outcome_step]
      exact Nat.le_of_lt_succ (Nat.lt_of_lt_of_le (work_step_lt hended) h)
    · obtain ⟨cycle?, rfl⟩ := not_forall_not.mp hended
      exact Function.iterate_fixed rfl _

/-- The search for a cycle is over after as many steps as the roots and the edges allow. -/
theorem exists_steps (g : Adjacency α) (roots : List α) :
    ∃ n ≤ 2 * (roots.length + edgeCount g) + 1,
      (step g)^[n] (start roots) = ended (cycleFrom g [] roots) := by
  refine ⟨_, Nat.le_refl _, ?_⟩
  rw [← outcome_start, iterate_step (Nat.le_of_eq (work_start g roots))]

/-- Two nodes that lead to each other make a cycle, which the third step closes. -/
example : (step [(0, [1]), (1, [0])])^[3] (start [0, 1]) = ended (some [0, 1, 0]) := rfl

end Descent

end TypeScriptEngine.Graph
