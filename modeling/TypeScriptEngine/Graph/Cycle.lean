import TypeScriptEngine.Graph.Closure

/-!
# Cycles in finite graphs

A depth-first search.  The path from a root to the current node is kept with the successors that are
still to be tried; a successor that lies on the path closes a cycle.
-/

namespace TypeScriptEngine.Graph

variable {α : Type} [BEq α]

/-- A node on the path, with the successors that are still to be tried. -/
structure Visit (α : Type) where
  node : α
  pending : List α
deriving Repr

/-- The outcome of a search: a cycle, or the nodes from which none is reached. -/
inductive Search (α : Type) where
  | cycle (nodes : List α)
  | acyclic (done : List α)
deriving Repr

/-- The nodes of a path, the last one first. -/
def pathNodes (path : List (Visit α)) : List α := path.map Visit.node

/-- How much is left to do on a path. -/
def pathWork : List (Visit α) → Nat
  | [] => 0
  | v :: path => 2 * v.pending.length + 1 + pathWork path

/-- The cycle that an edge from the last node of a path to a node on it closes: it begins and ends
with that node. -/
def closeCycle (nodes : List α) (target : α) : List α :=
  let behind := nodes.takeWhile fun a => !(a == target)
  (nodes.drop behind.length).head?.toList ++ behind.reverse ++ [target]

/-- How many listed nodes are neither done nor on the path. -/
def unvisited (g : Adjacency α) (done : List α) (path : List (Visit α)) : Nat :=
  unseen g (pathNodes path ++ done)

/-- Adding nodes in any place leaves no more unseen ones. -/
theorem unseen_le_of_subset (g : Adjacency α) {seen seen' : List α}
    (h : ∀ a, isIn a seen = true → isIn a seen' = true) : unseen g seen' ≤ unseen g seen := by
  refine List.countP_mono_left fun entry _ he => ?_
  cases hs : isIn entry.1 seen with
  | false => rfl
  | true => simp [h _ hs] at he

theorem isIn_append (a : α) (xs ys : List α) : isIn a (xs ++ ys) = (isIn a xs || isIn a ys) := by
  simp [isIn]

theorem isIn_cons (a b : α) (xs : List α) : isIn a (b :: xs) = ((b == a) || isIn a xs) := rfl

/-- Less work and no more nodes is progress. -/
theorem progress {a b m n : Nat} (hab : a ≤ b) (hmn : m < n) :
    Prod.Lex (· < ·) (· < ·) (a, m) (b, n) := by
  rcases Nat.lt_or_eq_of_le hab with hlt | rfl
  · exact Prod.Lex.left _ _ hlt
  · exact Prod.Lex.right _ hmn

/-- Searches on from the last node of a path.  The nodes `done` are known to reach no cycle. -/
def search [EquivBEq α] (g : Adjacency α) (done : List α) (path : List (Visit α)) : Search α :=
  match path with
  | [] => .acyclic done
  | ⟨node, []⟩ :: rest => search g (node :: done) rest
  | ⟨node, target :: pending⟩ :: rest =>
    if isIn target (node :: pathNodes rest) then
      .cycle (closeCycle (node :: pathNodes rest) target)
    else if isIn target done then search g done (⟨node, pending⟩ :: rest)
    else search g done (⟨target, successors g target⟩ :: ⟨node, pending⟩ :: rest)
termination_by (unvisited g done path, pathWork path)
decreasing_by
  · refine progress (unseen_le_of_subset g fun a ha => ?_) (by simp [pathWork])
    have h : isIn a (node :: pathNodes rest ++ done) = true := ha
    simp only [isIn_append, isIn_cons, Bool.or_eq_true] at h ⊢
    rcases h with (h | h) | h <;> simp [h]
  · exact progress (Nat.le_refl _) (by simp [pathWork])
  · rename_i hpath hdone
    have hseen : isIn target (node :: pathNodes rest ++ done) = false := by
      rw [isIn_append]
      simp only [Bool.not_eq_true] at hpath hdone
      simp [hpath, hdone]
    cases hs : successors g target with
    | nil =>
      exact progress (unseen_cons_le g target (node :: pathNodes rest ++ done))
        (by simp [pathWork]; omega)
    | cons b bs => exact Prod.Lex.left _ _ (unseen_cons_lt hseen (by simp [hs]))

/-- The first cycle that a search from some roots finds, one after the other. -/
def cycleFrom [EquivBEq α] (g : Adjacency α) (done : List α) : List α → Option (List α)
  | [] => none
  | root :: roots =>
    if isIn root done then cycleFrom g done roots
    else match search g done [⟨root, successors g root⟩] with
      | .cycle nodes => some nodes
      | .acyclic done => cycleFrom g done roots

end TypeScriptEngine.Graph
