import TypeScriptEngine.Proofs.Workspace.Level

/-! # Taking files out again

A workspace is `WellKept` if its edges lead from tracked files to tracked files and its times are
those of tracked files.  A load leaves a workspace that `Extends` the one it began with: there are
new files behind the old ones, and only the new files and the root of the load have new edges.  Then
taking out the new files gives back what there was (`Extends.restored`): no file that stays has an
edge to a new one, because none had an edge to a file that was not tracked.
-/

namespace TypeScriptEngine

open TypeScriptEngine.Graph TypeScriptEngine.Path DependencyGraph

namespace Workspace

/-! ## Equal workspaces -/

/-- The same files, in the same order, and the same edges and times for every path. -/
structure Same (w w' : Workspace) : Prop where
  files : w'.files = w.files
  forward : ∀ p, find? p w'.graph.forward = find? p w.graph.forward
  backward : ∀ p, find? p w'.graph.backward = find? p w.graph.backward
  times : ∀ p, find? p w'.declarationTimes = find? p w.declarationTimes

theorem Same.refl (w : Workspace) : w.Same w := ⟨rfl, fun _ => rfl, fun _ => rfl, fun _ => rfl⟩

variable {w w' l : Workspace} {root : Path} {taken : List SourceText}

theorem Same.dependencies (h : w.Same w') (p : Path) :
    w'.graph.dependencies p = w.graph.dependencies p := by
  unfold DependencyGraph.dependencies
  rw [h.forward]

theorem Same.dependents (h : w.Same w') (p : Path) :
    w'.graph.dependents p = w.graph.dependents p := by
  unfold DependencyGraph.dependents
  rw [h.backward]

/-! ## The invariant -/

/-- What every workspace of an instance satisfies. -/
structure WellKept (w : Workspace) : Prop where
  files : w.files.WellKept
  graph : w.graph.Coherent
  /-- The reverse view lists files by their normal paths. -/
  dependents : ∀ t, ∀ p ∈ w.graph.dependents t, p.IsNormal
  /-- Edges start at tracked files. -/
  sources : ∀ p, w.graph.dependencies p ≠ [] → w.files.contains p = true
  /-- Edges lead to tracked files. -/
  targets : ∀ p, ∀ d ∈ w.graph.dependencies p,
    d.target.IsNormal ∧ w.files.contains d.target = true
  /-- Times are noted of tracked files. -/
  times : ∀ p, find? p w.declarationTimes ≠ none → w.files.contains p = true

theorem wellKept_empty : empty.WellKept where
  files := FileStore.wellKept_empty
  graph := coherent_empty
  dependents := fun _ _ h => by contradiction
  sources := fun _ h => absurd rfl h
  targets := fun _ _ h => by contradiction
  times := fun _ h => absurd rfl h

/-- Nothing is known about a file that is not tracked. -/
theorem WellKept.dependencies_eq_nil (hw : w.WellKept) {p : Path}
    (hp : w.files.contains p = false) : w.graph.dependencies p = [] := by
  by_contra hne
  rw [hw.sources p hne] at hp
  contradiction

theorem WellKept.find?_times_eq_none (hw : w.WellKept) {p : Path}
    (hp : w.files.contains p = false) : find? p w.declarationTimes = none := by
  by_contra hne
  rw [hw.times p hne] at hp
  contradiction

/-- **Equal edges make equal graphs:** the reverse views agree when the forward views do. -/
theorem Same.of_dependencies (hw : w.WellKept) (hfiles : w'.files = w.files)
    (hgraph : w'.graph.Coherent) (hdependents : ∀ t, ∀ p ∈ w'.graph.dependents t, p.IsNormal)
    (hdependencies : ∀ p, w'.graph.dependencies p = w.graph.dependencies p)
    (htimes : ∀ p, find? p w'.declarationTimes = find? p w.declarationTimes) : w.Same w' := by
  have hviews := hgraph.ext hw.graph
    (fun t p hp q hq he => (hdependents t p hp).eq_of_beq (hw.dependents t q hq) he) hdependencies
  exact ⟨hfiles, fun p => (hviews p).1, fun p => (hviews p).2, htimes⟩

/-- A coherent graph with the same edges makes the workspace well-kept again. -/
theorem Same.wellKept (h : w.Same w') (hw : w.WellKept) (hgraph : w'.graph.Coherent) :
    w'.WellKept where
  files := h.files ▸ hw.files
  graph := hgraph
  dependents := fun t p hp => hw.dependents t p (h.dependents t ▸ hp)
  sources := fun p hp => h.files ▸ hw.sources p (h.dependencies p ▸ hp)
  targets := fun p d hd => h.files ▸ hw.targets p d (h.dependencies p ▸ hd)
  times := fun p hp => h.files ▸ hw.times p (h.times p ▸ hp)

/-! ## Removing several files -/

theorem coherent_rollBack (h : w.graph.Coherent) (ps : List Path) :
    (w.rollBack ps).graph.Coherent := by
  induction ps generalizing w with
  | nil => exact h
  | cons p ps ih => exact ih (h.removeFile p)

theorem mem_dependents_rollBack (h : w.graph.Coherent) {ps : List Path} {t p : Path}
    (hp : p ∈ (w.rollBack ps).graph.dependents t) : p ∈ w.graph.dependents t := by
  induction ps generalizing w with
  | nil => exact hp
  | cons q ps ih =>
    have hp : p ∈ (w.graph.removeFile q).dependents t := ih (h.removeFile q) hp
    rw [h.dependents_removeFile] at hp
    split at hp
    · contradiction
    · exact (List.mem_filter.mp hp).1

theorem dependencies_rollBack (h : w.graph.Coherent) (ps : List Path) (p : Path) :
    (w.rollBack ps).graph.dependencies p =
      if isIn p ps then [] else (w.graph.dependencies p).filter fun d => !isIn d.target ps := by
  induction ps generalizing w with
  | nil => simp [rollBack, isIn]
  | cons q ps ih =>
    show ((w.remove q).rollBack ps).graph.dependencies p = _
    rw [ih (h.removeFile q)]
    show (if isIn p ps then [] else ((w.graph.removeFile q).dependencies p).filter _) = _
    rw [h.dependencies_removeFile]
    by_cases hq : (q == p) = true
    · simp [isIn, hq]
    · simp only [isIn, List.any_cons, hq, Bool.false_or, Bool.false_eq_true, if_false,
        List.filter_filter]
      congr 2
      funext d
      rw [Bool.and_comm, ← Bool.not_or, BEq.comm]

theorem find?_times_rollBack (ps : List Path) (p : Path) :
    find? p (w.rollBack ps).declarationTimes =
      if isIn p ps then none else find? p w.declarationTimes := by
  induction ps generalizing w with
  | nil => rfl
  | cons q ps ih =>
    show find? p ((w.remove q).rollBack ps).declarationTimes = _
    rw [ih]
    show (if isIn p ps then none else find? p (removeFrom q w.declarationTimes)) = _
    rw [find?_removeFrom]
    by_cases hq : (q == p) = true
    · simp [isIn, hq]
    · simp [isIn, hq]

theorem files_rollBack {ps : List Path} (hps : ∀ p ∈ ps, p.IsNormal) :
    (w.rollBack ps).files = ⟨w.files.files.filter fun file => !isIn file.path ps⟩ := by
  induction ps generalizing w with
  | nil => simp [rollBack, isIn]
  | cons q ps ih =>
    show ((w.remove q).rollBack ps).files = _
    rw [ih fun p hp => hps p (List.mem_cons_of_mem _ hp)]
    show FileStore.mk ((w.files.files.filter fun file => !(file.path == q.normalize)).filter _) = _
    rw [List.filter_filter, hps q (List.mem_cons_self ..)]
    congr 2
    funext file
    simp only [isIn, List.any_cons]
    rw [Bool.and_comm, ← Bool.not_or, BEq.comm]

/-! ## Extensions -/

/-- The workspace `l` has the files `taken` behind those of `w`, and otherwise differs from it only
in the edges of the file `root`. -/
structure Extends (w : Workspace) (root : Path) (taken : List SourceText) (l : Workspace) :
    Prop where
  separate : Separate taken
  fresh : ∀ s ∈ taken, w.files.contains s.path = false
  files : l.files = ⟨w.files.files ++ taken.map SourceText.file⟩
  graph : l.graph.Coherent
  dependents : ∀ t, ∀ p ∈ l.graph.dependents t, p.IsNormal
  dependencies : ∀ p, (root == p) = false → isIn p (taken.map SourceText.path) = false →
    l.graph.dependencies p = w.graph.dependencies p
  times : ∀ p, isIn p (taken.map SourceText.path) = false →
    find? p l.declarationTimes = find? p w.declarationTimes

/-- The workspace `r` differs from `w` at most in the edges of the file `root`. -/
structure Restored (w : Workspace) (root : Path) (r : Workspace) : Prop where
  files : r.files = w.files
  graph : r.graph.Coherent
  dependents : ∀ t, ∀ p ∈ r.graph.dependents t, p.IsNormal
  dependencies : ∀ p, (root == p) = false → r.graph.dependencies p = w.graph.dependencies p
  times : ∀ p, find? p r.declarationTimes = find? p w.declarationTimes

/-- The new files of an extension are listed by their normal paths, and are not among the old. -/
theorem Extends.not_contains_of_isIn (h : Extends w root taken l) {p : Path}
    (hp : isIn p (taken.map SourceText.path) = true) : w.files.contains p = false := by
  obtain ⟨s, hs, he⟩ := isIn_paths_iff.mp hp
  rw [← FileStore.contains_congr he]
  exact h.fresh s hs

theorem Extends.isIn_eq_false (h : Extends w root taken l) {p : Path}
    (hp : w.files.contains p = true) : isIn p (taken.map SourceText.path) = false := by
  by_contra hin
  rw [h.not_contains_of_isIn (Bool.not_eq_false _ ▸ hin)] at hp
  contradiction

/-- **Taking out the new files gives back what there was,** but for the edges of the root. -/
theorem Extends.restored (h : Extends w root taken l) (hw : w.WellKept) :
    Restored w root (l.rollBack (taken.map SourceText.path)) where
  files := by
    have hnormal : ∀ p ∈ taken.map SourceText.path, p.IsNormal := by
      intro p hp
      obtain ⟨s, hs, rfl⟩ := List.mem_map.mp hp
      exact h.separate.normal s hs
    rw [files_rollBack hnormal, h.files, List.filter_append]
    have hold : w.files.files.filter (fun file => !isIn file.path (taken.map SourceText.path)) =
        w.files.files := by
      refine List.filter_eq_self.mpr fun file hfile => ?_
      rw [h.isIn_eq_false (hw.files.contains_of_mem hfile)]
      rfl
    have hnew : (taken.map SourceText.file).filter
        (fun file => !isIn file.path (taken.map SourceText.path)) = [] := by
      refine List.filter_eq_nil_iff.mpr fun file hfile => ?_
      obtain ⟨s, hs, rfl⟩ := List.mem_map.mp hfile
      rw [SourceText.file, FileStore.newFile_path, h.separate.normal s hs,
        isIn_of_mem (List.mem_map_of_mem hs)]
      simp
    rw [hold, hnew, List.append_nil]
  graph := coherent_rollBack h.graph _
  dependents := fun t p hp => h.dependents t p (mem_dependents_rollBack h.graph hp)
  dependencies := by
    intro p hroot
    rw [dependencies_rollBack h.graph]
    split
    · rename_i hin
      exact (hw.dependencies_eq_nil (h.not_contains_of_isIn hin)).symm
    · rename_i hout
      rw [h.dependencies p hroot (Bool.not_eq_true _ ▸ hout)]
      -- no old edge led to a file that was not tracked
      refine List.filter_eq_self.mpr fun d hd => ?_
      rw [h.isIn_eq_false (hw.targets p d hd).2]
      rfl
  times := by
    intro p
    rw [find?_times_rollBack]
    split
    · rename_i hin
      exact (hw.find?_times_eq_none (h.not_contains_of_isIn hin)).symm
    · rename_i hout
      exact h.times p (Bool.not_eq_true _ ▸ hout)

/-- Giving the root its edges back makes the workspaces equal. -/
theorem Restored.same_setEdges {r : Workspace} (h : Restored w root r) (hw : w.WellKept)
    (hroot : root.IsNormal) :
    w.Same { r with graph := r.graph.setEdges root (w.graph.dependencies root) } := by
  refine Same.of_dependencies hw h.files (h.graph.setEdges _ _) ?_ ?_ h.times
  · intro t p hp
    rcases h.graph.mem_dependents_setEdges hp with rfl | hp
    · exact hroot
    · exact h.dependents t p hp
  · intro p
    show (r.graph.setEdges root _).dependencies p = _
    rw [dependencies_setEdges]
    split
    · rename_i hp
      exact dependencies_congr hp _
    · rename_i hp
      exact h.dependencies p (Bool.not_eq_true _ ▸ hp)

/-- If the root itself was taken in, nothing is left of it. -/
theorem Extends.same_rollBack (h : Extends w root taken l) (hw : w.WellKept)
    (hroot : isIn root (taken.map SourceText.path) = true) :
    w.Same (l.rollBack (taken.map SourceText.path)) := by
  have hr := h.restored hw
  refine Same.of_dependencies hw hr.files hr.graph hr.dependents ?_ hr.times
  intro p
  by_cases hp : (root == p) = true
  · rw [← dependencies_congr hp, ← dependencies_congr hp, dependencies_rollBack h.graph, hroot]
    exact (hw.dependencies_eq_nil (h.not_contains_of_isIn hroot)).symm
  · exact hr.dependencies p (Bool.not_eq_true _ ▸ hp)

end Workspace

end TypeScriptEngine
