import TypeScriptEngine.Proofs.Graph.Closure
import TypeScriptEngine.Proofs.Graph.Views
import TypeScriptEngine.Proofs.Path.Normal

/-! # Who depends on whom

`RefersTo` is one edge of a dependency graph, and a file depends on another one if a path of edges
leads there.  Both searches of the graph find exactly that (`isIn_transitiveDependencies`,
`isIn_transitiveDependents`), if targets are known by their normal paths.
-/

namespace TypeScriptEngine.DependencyGraph

open Relation TypeScriptEngine.Graph TypeScriptEngine.Path

/-- A file refers to another one. -/
def RefersTo (g : DependencyGraph) (s t : Path) : Prop := ∃ d ∈ g.dependencies s, d.target = t

/-- A file refers to another one, directly or not. -/
def DependsOn (g : DependencyGraph) (s t : Path) : Prop := TransGen g.RefersTo s t

/-- Edges lead to normal paths. -/
def NormalTargets (g : DependencyGraph) : Prop :=
  ∀ s, ∀ d ∈ g.dependencies s, d.target.IsNormal

variable {g : DependencyGraph} {s s' t : Path}

/-- A graph does not see how the file at the start of a path is spelled. -/
theorem DependsOn.congr_left (h : g.DependsOn s t) (he : (s == s') = true) : g.DependsOn s' t := by
  obtain ⟨m, ⟨d, hd, hm⟩, hrest⟩ := TransGen.head'_iff.mp h
  exact TransGen.head' ⟨d, dependencies_congr he g ▸ hd, hm⟩ hrest

/-! ## The two views as finite graphs -/

theorem successors_targets (g : DependencyGraph) (s : Path) :
    successors g.targets s = (g.dependencies s).map Dependency.target := by
  unfold successors targets dependencies find?
  rw [List.find?_map, Function.comp_def]
  cases g.forward.find? fun entry => entry.1 == s <;> rfl

theorem leads_targets_iff : Leads g.targets s t ↔ ∃ d ∈ g.dependencies s, (d.target == t) = true := by
  unfold Leads
  rw [successors_targets, isIn_iff]
  constructor
  · rintro ⟨p, hp, he⟩
    obtain ⟨d, hd, rfl⟩ := List.mem_map.mp hp
    exact ⟨d, hd, he⟩
  · rintro ⟨d, hd, he⟩
    exact ⟨d.target, List.mem_map_of_mem hd, he⟩

/-- The reverse view turns the edges around. -/
theorem Coherent.leads_backward_iff (h : g.Coherent) :
    Leads g.backward t s ↔ Leads g.targets s t := by
  have hmirror : isIn s (successors g.backward t) =
      (g.dependencies s).any fun d => d.target == t := h.mirror s t
  rw [leads_targets_iff, Leads, hmirror, List.any_eq_true]

theorem transGen_leads_iff (hg : g.NormalTargets) (ht : t.IsNormal) :
    TransGen (Leads g.targets) s t ↔ g.DependsOn s t := by
  constructor
  · intro h
    induction h using TransGen.head_induction_on with
    | single hedge =>
      obtain ⟨d, hd, he⟩ := leads_targets_iff.mp hedge
      exact .single ⟨d, hd, (hg _ d hd).eq_of_beq ht he⟩
    | head hedge _ ih =>
      obtain ⟨d, hd, he⟩ := leads_targets_iff.mp hedge
      exact .head ⟨d, hd, rfl⟩ (ih.congr_left (BEq.symm he))
  · intro h
    refine TransGen.mono (fun a b => ?_) _ _ h
    rintro ⟨d, hd, rfl⟩
    exact leads_targets_iff.mpr ⟨d, hd, BEq.rfl⟩

/-! ## The searches -/

/-- **The files that a file depends on.** -/
theorem isIn_transitiveDependencies (hg : g.NormalTargets) (ht : t.IsNormal) :
    isIn t (g.transitiveDependencies s) = true ↔ g.DependsOn s t := by
  rw [transitiveDependencies, isIn_setOf, isIn_reachable_iff, transGen_leads_iff hg ht]

/-- **The files that depend on a file.** -/
theorem Coherent.isIn_transitiveDependents (h : g.Coherent) (hg : g.NormalTargets)
    (ht : t.IsNormal) : isIn s (g.transitiveDependents t) = true ↔ g.DependsOn s t := by
  have hswap : Leads g.backward = Function.swap (Leads g.targets) := by
    funext a b
    exact propext h.leads_backward_iff
  rw [transitiveDependents, isIn_setOf, isIn_reachable_iff, hswap, transGen_swap,
    transGen_leads_iff hg ht]

theorem isNormal_of_mem_transitiveDependencies (hg : g.NormalTargets)
    (h : t ∈ g.transitiveDependencies s) : t.IsNormal := by
  obtain ⟨p, hp⟩ := exists_mem_successors (mem_of_mem_setOf h)
  rw [successors_targets] at hp
  obtain ⟨d, hd, rfl⟩ := List.mem_map.mp hp
  exact hg p d hd

/-- Equal dependencies make equal lists. -/
theorem transitiveDependencies_congr {g' : DependencyGraph} (hg : g.NormalTargets)
    (hg' : g'.NormalTargets) (h : ∀ t, g.DependsOn s t ↔ g'.DependsOn s t) :
    g.transitiveDependencies s = g'.transitiveDependencies s := by
  refine eq_of_isIn_iff (ascending_setOf _) (ascending_setOf _) ?_ fun q => Bool.eq_iff_iff.mpr ?_
  · intro p hp q hq he
    exact (isNormal_of_mem_transitiveDependencies hg hp).eq_of_beq
      (isNormal_of_mem_transitiveDependencies hg' hq) he
  · constructor
    · intro hin
      obtain ⟨t, ht, he⟩ := isIn_iff.mp hin
      have hnormal := isNormal_of_mem_transitiveDependencies hg ht
      have hdep := (h t).mp ((isIn_transitiveDependencies hg hnormal).mp (isIn_of_mem ht))
      exact isIn_of_beq he ((isIn_transitiveDependencies hg' hnormal).mpr hdep)
    · intro hin
      obtain ⟨t, ht, he⟩ := isIn_iff.mp hin
      have hnormal := isNormal_of_mem_transitiveDependencies hg' ht
      have hdep := (h t).mpr ((isIn_transitiveDependencies hg' hnormal).mp (isIn_of_mem ht))
      exact isIn_of_beq he ((isIn_transitiveDependencies hg hnormal).mpr hdep)

theorem exists_mem_dependents (h : s ∈ g.transitiveDependents t) : ∃ p, s ∈ g.dependents p :=
  exists_mem_successors (mem_of_mem_setOf h)

end TypeScriptEngine.DependencyGraph
