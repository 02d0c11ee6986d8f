import TypeScriptEngine.Graph.Cycle
import TypeScriptEngine.Path.Set
import TypeScriptEngine.Reference

/-!
# The dependency graph

Which file refers to which.  The graph keeps two views of the same edges, and changes them together:
the edges of each file, in the order of its references, and for each file the set of those that
refer to it.  A file without edges, and one that nobody refers to, is in neither view.
-/

namespace TypeScriptEngine

/-- A resolved reference from one file to another. -/
structure Dependency where
  /-- The specifier as it is written. -/
  specifier : String
  /-- The file that it was resolved to. -/
  target : Path
  /-- Where the specifier stands in the referencing file. -/
  span : Span
  kind : ReferenceKind
deriving Repr

/-- The edges between files, seen from both ends. -/
structure DependencyGraph where
  /-- The edges of each file. -/
  forward : List (Path × List Dependency)
  /-- The files that refer to each file, in ascending order. -/
  backward : List (Path × List Path)
deriving Repr

namespace DependencyGraph

/-- The graph without edges. -/
def empty : DependencyGraph := ⟨[], []⟩

/-- The edges of a file, in the order of its references. -/
def dependencies (g : DependencyGraph) (file : Path) : List Dependency :=
  (Path.find? file g.forward).getD []

/-- The files that refer to a file, in ascending order. -/
def dependents (g : DependencyGraph) (file : Path) : List Path :=
  (Path.find? file g.backward).getD []

/-- Adds an edge behind those that a file has. -/
def addEdge (g : DependencyGraph) (source : Path) (d : Dependency) : DependencyGraph where
  forward := Path.alter source (fun edges => edges.getD [] ++ [d]) g.forward
  backward := Path.alter d.target (fun files => source.insertInto (files.getD [])) g.backward

/-- Takes a file out of the set of those that refer to a target. -/
def dropBackward (source target : Path) (backward : List (Path × List Path)) :
    List (Path × List Path) :=
  match Path.find? target backward with
  | none => backward
  | some files =>
    let files := files.filter fun file => !(file == source)
    if files.isEmpty then Path.removeFrom target backward
    else Path.alter target (fun _ => files) backward

/-- Removes the edges of a file. -/
def clearEdges (g : DependencyGraph) (source : Path) : DependencyGraph where
  forward := Path.removeFrom source g.forward
  backward := (g.dependencies source).foldl
    (fun backward d => dropBackward source d.target backward) g.backward

/-- Puts edges in the place of those that a file has. -/
def setEdges (g : DependencyGraph) (source : Path) (edges : List Dependency) : DependencyGraph :=
  edges.foldl (fun g d => g.addEdge source d) (g.clearEdges source)

/-- Takes the edges to a file out of those of another file. -/
def dropForward (target source : Path) (forward : List (Path × List Dependency)) :
    List (Path × List Dependency) :=
  match Path.find? source forward with
  | none => forward
  | some edges =>
    let edges := edges.filter fun d => !(d.target == target)
    if edges.isEmpty then Path.removeFrom source forward
    else Path.alter source (fun _ => edges) forward

/-- Removes a file: its edges, and those to it. -/
def removeFile (g : DependencyGraph) (file : Path) : DependencyGraph :=
  let g := g.clearEdges file
  { forward := (g.dependents file).foldl
      (fun forward source => dropForward file source forward) g.forward
    backward := Path.removeFrom file g.backward }

/-- The targets of each file. -/
def targets (g : DependencyGraph) : Graph.Adjacency Path :=
  g.forward.map fun (file, edges) => (file, edges.map Dependency.target)

/-- The files that a file refers to, directly or not, in ascending order. -/
def transitiveDependencies (g : DependencyGraph) (file : Path) : List Path :=
  Path.setOf (Graph.reachable g.targets file)

/-- The files that refer to a file, directly or not, in ascending order.  The file itself is among
them if it lies on a cycle. -/
def transitiveDependents (g : DependencyGraph) (file : Path) : List Path :=
  Path.setOf (Graph.reachable g.backward file)

/-- A cycle of files, if there is one: each refers to the next, and the last one is the first. -/
def findCycle? (g : DependencyGraph) : Option (List Path) :=
  Graph.cycleFrom g.targets [] ((g.forward.map Prod.fst).mergeSort Path.le)

/-- Whether both views hold the same edges, and no empty entry that a target has. -/
def isConsistent (g : DependencyGraph) : Bool :=
  (g.forward.all fun (source, edges) =>
    edges.all fun d => Graph.isIn source (g.dependents d.target)) &&
  g.backward.all fun (target, files) =>
    !files.isEmpty && files.all fun source =>
      (g.dependencies source).any fun d => d.target == target

/-- The number of files with edges. -/
def size (g : DependencyGraph) : Nat := g.forward.length

end DependencyGraph

end TypeScriptEngine
