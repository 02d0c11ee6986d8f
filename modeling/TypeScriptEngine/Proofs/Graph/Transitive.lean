import TypeScriptEngine.Proofs.Graph.Reaching
import TypeScriptEngine.Proofs.Graph.Refinement
import TypeScriptEngine.Proofs.Graph.Rounds

/-! # Transitive dependencies and dependents

The two searches of a graph walk along different views of its edges.  After any sequence of
operations both of them find what can be reached in the one map that the operations make, and each of
them is over after finitely many rounds (`transitive_closures`).
-/

namespace TypeScriptEngine.DependencyGraph

open Relation TypeScriptEngine.Graph TypeScriptEngine.Path

/-- A file has an edge to another one, in whatever way both are spelled. -/
def LinksTo (edges : EdgeMap) (s t : Path) : Prop := ∃ d ∈ edges s, (d.target == t) = true

/-- A path of one or more edges leads from a file to another one. -/
def PathTo (edges : EdgeMap) (s t : Path) : Prop := TransGen (LinksTo edges) s t

variable {g : DependencyGraph} {edges : EdgeMap} {s t : Path}

namespace Shows

theorem leads_targets (h : g.Shows edges) : Leads g.targets = LinksTo edges := by
  funext s t
  refine propext (leads_targets_iff.trans ?_)
  rw [h.dependencies]
  rfl

/-- The other view has the same edges, turned around. -/
theorem leads_backward (h : g.Shows edges) : Leads g.backward = Function.swap (LinksTo edges) := by
  funext t s
  refine propext (h.coherent.leads_backward_iff.trans ?_)
  rw [h.leads_targets]

/-- **The search along the edges finds what a file leads to.** -/
theorem isIn_transitiveDependencies_iff (h : g.Shows edges) :
    isIn t (g.transitiveDependencies s) = true ↔ PathTo edges s t := by
  rw [transitiveDependencies, isIn_setOf, isIn_reachable_iff, h.leads_targets]
  rfl

/-- **The search against the edges finds what leads to a file.** -/
theorem isIn_transitiveDependents_iff (h : g.Shows edges) :
    isIn s (g.transitiveDependents t) = true ↔ PathTo edges s t := by
  rw [transitiveDependents, isIn_setOf, isIn_reachable_iff, h.leads_backward, transGen_swap]
  rfl

end Shows

/-- **Both closures are reachability.**  Whatever operations were carried out, the transitive
dependencies of a file are, without repetition, the files to which a path of one or more edges leads
from it, so that the file itself is one of them just if it lies on a cycle.  Its transitive
dependents are the files from which such a path leads to it, so that a file is a dependent of another
one just if that one is a dependency of it.  Neither search takes more rounds than it has edges to
begin with and the graph has edges. -/
theorem transitive_closures (ops : List Operation) (file : Path) :
    let g := run ops
    let edges := runOnMap ops
    (Ascending (g.transitiveDependencies file) ∧
      ∀ t, isIn t (g.transitiveDependencies file) = true ↔ PathTo edges file t) ∧
    (Ascending (g.transitiveDependents file) ∧
      ∀ s, isIn s (g.transitiveDependents file) = true ↔ PathTo edges s file) ∧
    (∀ other, isIn other (g.transitiveDependents file) = isIn file (g.transitiveDependencies other)) ∧
    (∃ n ≤ (g.dependencies file).length + edgeCount g.targets, ∃ found,
      (Worklist.round g.targets)^[n] (.start g.targets file) = ⟨found, []⟩ ∧
      g.transitiveDependencies file = Path.setOf found.reverse) ∧
    (∃ n ≤ (g.dependents file).length + edgeCount g.backward, ∃ found,
      (Worklist.round g.backward)^[n] (.start g.backward file) = ⟨found, []⟩ ∧
      g.transitiveDependents file = Path.setOf found.reverse) := by
  intro g edges
  have h : g.Shows edges := shows_empty.foldl ops
  refine ⟨⟨ascending_setOf _, fun t => h.isIn_transitiveDependencies_iff⟩,
    ⟨ascending_setOf _, fun s => h.isIn_transitiveDependents_iff⟩, fun other => ?_, ?_, ?_⟩
  · exact Bool.eq_iff_iff.mpr
      (h.isIn_transitiveDependents_iff.trans h.isIn_transitiveDependencies_iff.symm)
  · obtain ⟨n, hn, hrounds⟩ := exists_rounds g.targets file
    rw [successors_targets, List.length_map] at hn
    exact ⟨n, hn, _, hrounds, congrArg Path.setOf (List.reverse_reverse _).symm⟩
  · obtain ⟨n, hn, hrounds⟩ := exists_rounds g.backward file
    exact ⟨n, hn, _, hrounds, congrArg Path.setOf (List.reverse_reverse _).symm⟩

end TypeScriptEngine.DependencyGraph
