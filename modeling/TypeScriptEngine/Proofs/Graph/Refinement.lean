import TypeScriptEngine.Proofs.Graph.Views

/-! # Graphs as maps

A dependency graph is a map from files to lists of edges and nothing else: what any sequence of
operations makes of it is what the same sequence makes of a plain map (`run_refines`).  The reverse
view answers from that map, and no operation leaves an empty entry in either view.
-/

namespace TypeScriptEngine.DependencyGraph

open TypeScriptEngine.Graph TypeScriptEngine.Path

/-- An operation that changes a graph. -/
inductive Operation where
  | addEdge (source : Path) (edge : Dependency)
  | setEdges (source : Path) (edges : List Dependency)
  | removeFile (file : Path)

/-- The edges of each file, in order. -/
abbrev EdgeMap := Path → List Dependency

namespace Operation

/-- Carries out an operation on both views of a graph. -/
def apply (g : DependencyGraph) : Operation → DependencyGraph
  | addEdge source edge => g.addEdge source edge
  | setEdges source edges => g.setEdges source edges
  | removeFile file => g.removeFile file

/-- Carries out an operation on a plain map: an edge is appended, lists are replaced, and a file is
removed with its list and with all edges to it. -/
def applyToMap (edges : EdgeMap) : Operation → EdgeMap
  | addEdge source edge => fun p => if source == p then edges p ++ [edge] else edges p
  | setEdges source new => fun p => if source == p then new else edges p
  | removeFile file => fun p =>
    if file == p then [] else (edges p).filter fun d => !(d.target == file)

end Operation

/-- The graph that operations make of the empty graph. -/
def run (ops : List Operation) : DependencyGraph := ops.foldl Operation.apply empty

/-- The map that operations make of the empty map. -/
def runOnMap (ops : List Operation) : EdgeMap := ops.foldl Operation.applyToMap fun _ => []

variable {g : DependencyGraph} {edges : EdgeMap}

/-- The two views of a graph are those of a map. -/
structure Shows (g : DependencyGraph) (edges : EdgeMap) : Prop where
  coherent : g.Coherent
  dependencies : ∀ p, g.dependencies p = edges p

theorem shows_empty : empty.Shows fun _ => [] := ⟨coherent_empty, fun _ => rfl⟩

/-- What one operation does to a graph is what it does to its map. -/
theorem Shows.apply (h : g.Shows edges) (op : Operation) :
    (op.apply g).Shows (op.applyToMap edges) := by
  cases op with
  | addEdge source d =>
    refine ⟨h.coherent.addEdge source d, fun p => ?_⟩
    rw [Operation.apply, dependencies_addEdge, h.dependencies]
    rfl
  | setEdges source new =>
    refine ⟨h.coherent.setEdges source new, fun p => ?_⟩
    rw [Operation.apply, dependencies_setEdges, h.dependencies]
    rfl
  | removeFile file =>
    refine ⟨h.coherent.removeFile file, fun p => ?_⟩
    rw [Operation.apply, h.coherent.dependencies_removeFile, h.dependencies]
    rfl

theorem Shows.foldl (h : g.Shows edges) (ops : List Operation) :
    (ops.foldl Operation.apply g).Shows (ops.foldl Operation.applyToMap edges) := by
  induction ops generalizing g edges with
  | nil => exact h
  | cons op ops ih => exact ih (h.apply op)

/-- A file is listed as a dependent exactly if it has an edge to the target. -/
theorem Shows.isIn_dependents_iff (h : g.Shows edges) (source target : Path) :
    isIn source (g.dependents target) = true ↔ ∃ d ∈ edges source, (d.target == target) = true := by
  rw [h.coherent.mirror, h.dependencies, List.any_eq_true]

theorem ne_nil_of_mem {β : Type} {map : List (Path × List β)} (hkeys : DistinctKeys map)
    (hne : NoEmpty map) {entry : Path × List β} (h : entry ∈ map) : entry.2 ≠ [] :=
  fun hnil => hne entry.1 (hnil ▸ find?_of_mem hkeys h)

/-- **A graph refines one plain map.**  Whatever operations are carried out, the edges of
each file are those of the map, in its order; the dependents of a file are, without repetition,
those that have an edge to it in the map; both views agree by the graph's own test, and hold no
empty entry. -/
theorem run_refines (ops : List Operation) :
    (∀ file, (run ops).dependencies file = runOnMap ops file) ∧
    (∀ target, Ascending ((run ops).dependents target) ∧
      ∀ source, isIn source ((run ops).dependents target) = true ↔
        ∃ d ∈ runOnMap ops source, (d.target == target) = true) ∧
    (run ops).isConsistent = true ∧
    (∀ entry ∈ (run ops).forward, entry.2 ≠ []) ∧
    (∀ entry ∈ (run ops).backward, entry.2 ≠ []) := by
  have h : (run ops).Shows (runOnMap ops) := shows_empty.foldl ops
  refine ⟨h.dependencies, fun target => ⟨h.coherent.ascending target, fun source => ?_⟩,
    h.coherent.isConsistent, fun entry => ?_, fun entry => ?_⟩
  · exact h.isIn_dependents_iff source target
  · exact ne_nil_of_mem h.coherent.forwardKeys h.coherent.forwardEntries
  · exact ne_nil_of_mem h.coherent.backwardKeys h.coherent.backwardEntries

end TypeScriptEngine.DependencyGraph
