/-!
# Closures in finite graphs

A finite graph is a list of nodes with their successors.  `closure` collects the nodes that lie
behind a queue of nodes, breadth first.  It ends because a node with successors is one of finitely
many, and is taken up only once.
-/

namespace TypeScriptEngine.Graph

variable {α : Type} [BEq α]

/-- Nodes with their successors.  A node that is not listed has none. -/
abbrev Adjacency (α : Type) := List (α × List α)

/-- The successors of a node. -/
def successors (g : Adjacency α) (a : α) : List α :=
  ((g.find? fun entry => entry.1 == a).map Prod.snd).getD []

/-- Whether a node is in a list. -/
def isIn (a : α) (nodes : List α) : Bool := nodes.any (· == a)

/-- How many listed nodes are not among the given ones. -/
def unseen (g : Adjacency α) (seen : List α) : Nat :=
  g.countP fun entry => !isIn entry.1 seen

theorem unseen_cons_le (g : Adjacency α) (a : α) (seen : List α) :
    unseen g (a :: seen) ≤ unseen g seen := by
  refine List.countP_mono_left fun entry _ h => ?_
  simp only [isIn, List.any_cons, Bool.not_or, Bool.and_eq_true] at h ⊢
  exact h.2

/-- Taking up a node with successors leaves fewer nodes. -/
theorem unseen_cons_lt [EquivBEq α] {g : Adjacency α} {a : α} {seen : List α}
    (ha : isIn a seen = false) (hs : successors g a ≠ []) :
    unseen g (a :: seen) < unseen g seen := by
  unfold successors at hs
  cases hf : g.find? fun entry => entry.1 == a with
  | none => simp [hf] at hs
  | some entry =>
    have hkey : (entry.1 == a) = true := by simpa using List.find?_some hf
    have hmem := List.mem_of_find?_eq_some hf
    have hseen : isIn entry.1 seen = false := by
      simp only [isIn, List.any_eq_false] at ha ⊢
      exact fun x hx h => ha x hx (BEq.trans h hkey)
    clear hf hs
    induction g with
    | nil => simp at hmem
    | cons e g ih =>
      simp only [unseen, List.countP_cons] at ih ⊢
      rcases List.mem_cons.1 hmem with rfl | hmem
      · have := unseen_cons_le g a seen
        simp only [unseen] at this
        have h₁ : isIn entry.1 (a :: seen) = true := by simp [isIn, BEq.symm hkey]
        simp only [h₁, hseen]
        simp
        omega
      · have := ih hmem
        have h₂ : (!isIn e.1 (a :: seen)) = true → (!isIn e.1 seen) = true := by
          simp only [isIn, List.any_cons, Bool.not_or, Bool.and_eq_true]
          exact fun h => h.2
        split <;> split <;> simp_all
        omega

set_option linter.unusedVariables false in
/-- The nodes in a queue and those behind them, the last one found first, after the nodes `seen`. -/
def closure [EquivBEq α] (g : Adjacency α) (seen queue : List α) : List α :=
  match queue with
  | [] => seen
  | a :: queue =>
    if isIn a seen then closure g seen queue
    else
      match h : successors g a with
      | [] => closure g (a :: seen) queue
      | b :: next =>
        closure g (a :: seen) (queue ++ (b :: next).filter fun b => !isIn b (a :: seen))
termination_by (unseen g seen, queue.length)
decreasing_by
  · exact Prod.Lex.right _ (by simp)
  · have := unseen_cons_le g a seen
    rcases Nat.lt_or_eq_of_le this with hlt | heq
    · exact Prod.Lex.left _ _ hlt
    · rw [heq]; exact Prod.Lex.right _ (by simp)
  · rename_i hseen
    exact Prod.Lex.left _ _ (unseen_cons_lt (by simpa using hseen) (by simp [h]))

/-- The nodes that are reached from a node by one or more edges, in the order in which they are
found. -/
def reachable [EquivBEq α] (g : Adjacency α) (a : α) : List α :=
  (closure g [] (successors g a)).reverse

end TypeScriptEngine.Graph
