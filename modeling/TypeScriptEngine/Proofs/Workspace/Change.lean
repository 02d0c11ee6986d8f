import TypeScriptEngine.Proofs.Graph.Reaching
import TypeScriptEngine.Proofs.Workspace.Step

/-! # Which files a change concerns

A step gives some of the tracked files other texts and other edges, and takes in new ones; all other
tracked files stay as they are (`ChangesOnly`).  None of the files that stay refers to a new one.  So
along a path that starts at a file that stays, the first file that changed is reached by edges that
are there before and after the step (`exists_first_changed`): the dependents of the changed files
can be read off either graph, and a file that depends on none of them depends on the same files as
before (`ChangesOnly.dependsOn_iff`).
-/

namespace TypeScriptEngine

open Relation TypeScriptEngine.Graph TypeScriptEngine.Path DependencyGraph

namespace Workspace

variable {env : Surroundings} {w w' w'' : Workspace} {changed : Path → Prop} {p q t : Path}

theorem WellKept.normalTargets (hw : w.WellKept) : w.graph.NormalTargets :=
  fun s d hd => (hw.targets s d hd).1

/-- The path is the normal path of a tracked file. -/
structure Tracks (w : Workspace) (p : Path) : Prop where
  normal : p.IsNormal
  tracked : w.files.contains p = true

theorem WellKept.tracks_of_mem (hw : w.WellKept) {file : TrackedFile}
    (hf : file ∈ w.files.files) : w.Tracks file.path :=
  ⟨hw.files.normal file hf, hw.files.contains_of_mem hf⟩

/-- Whatever a file refers to is tracked. -/
theorem WellKept.tracks_of_refersTo (hw : w.WellKept) (h : w.graph.RefersTo p t) : w.Tracks t := by
  obtain ⟨d, hd, rfl⟩ := h
  exact ⟨(hw.targets p d hd).1, (hw.targets p d hd).2⟩

/-! ## Files that stay -/

/-- Of the files that `w` tracks, those that are not `changed` are the same in `w'`. -/
structure ChangesOnly (changed : Path → Prop) (w w' : Workspace) : Prop where
  files : ∀ p, w.Tracks p → ¬ changed p → w'.files.get? p = w.files.get? p
  dependencies : ∀ p, w.Tracks p → ¬ changed p →
    w'.graph.dependencies p = w.graph.dependencies p

theorem ChangesOnly.refl (changed : Path → Prop) (w : Workspace) : ChangesOnly changed w w :=
  ⟨fun _ _ _ => rfl, fun _ _ _ => rfl⟩

theorem ChangesOnly.tracks (h : ChangesOnly changed w w') (hp : w.Tracks p) (hc : ¬ changed p) :
    w'.Tracks p := by
  refine ⟨hp.normal, ?_⟩
  have htracked := hp.tracked
  unfold FileStore.contains at htracked ⊢
  rwa [h.files p hp hc]

/-- Fewer files that stay. -/
theorem ChangesOnly.mono {changed' : Path → Prop} (h : ChangesOnly changed w w')
    (hle : ∀ p, changed p → changed' p) : ChangesOnly changed' w w' :=
  ⟨fun p hp hc => h.files p hp fun hp' => hc (hle p hp'),
    fun p hp hc => h.dependencies p hp fun hp' => hc (hle p hp')⟩

theorem ChangesOnly.trans (h : ChangesOnly changed w w') (h' : ChangesOnly changed w' w'') :
    ChangesOnly changed w w'' where
  files := fun p hp hc => (h'.files p (h.tracks hp hc) hc).trans (h.files p hp hc)
  dependencies := fun p hp hc =>
    (h'.dependencies p (h.tracks hp hc) hc).trans (h.dependencies p hp hc)

theorem ChangesOnly.refersTo_iff (h : ChangesOnly changed w w') (hp : w.Tracks p)
    (hc : ¬ changed p) : w'.graph.RefersTo p t ↔ w.graph.RefersTo p t := by
  unfold RefersTo
  rw [h.dependencies p hp hc]

/-! ## The steps -/

/-- Linking new files behind a root changes the root only. -/
theorem Linked.changesOnly {root : SourceText} {new : List SourceText}
    (h : Linked env w root new w') (hroot : root.path.IsNormal) :
    ChangesOnly (· = root.path) w w' where
  files := by
    intro p hp _
    rw [h.extension.files]
    exact FileStore.get?_append hp.tracked _
  dependencies := by
    intro p hp hne
    refine h.extension.dependencies p ?_ (h.extension.isIn_eq_false hp.tracked)
    by_contra he
    exact hne (hroot.eq_of_beq hp.normal (Bool.not_eq_false _ ▸ he)).symm

/-- Another text for a file that may have changed anyway. -/
theorem ChangesOnly.setText (h : ChangesOnly (· = q) w w') {disk : Disk}
    (hq : q.IsNormal) (htracked : w'.files.contains q = true) (text : String) :
    ChangesOnly (· = q) w (w'.setText disk q text) where
  files := by
    intro p hp hne
    rw [setText_files, FileStore.get?_upsert_of_ne htracked, h.files p hp hne]
    rw [hq, hp.normal]
    exact fun he => hne he.symm
  dependencies := by
    intro p hp hne
    rw [setText_graph, h.dependencies p hp hne]

/-- **A file that is read again is the only one that changes.** -/
theorem changesOnly_reloaded (hw : w.WellKept) (hp : w.Tracks p) {text : String}
    (h : (w.refresh env p text).result = .ok ()) :
    ChangesOnly (· = p) w ((w.refresh env p text).state.setText env.disk p text) := by
  obtain ⟨taken, hlinked⟩ := linked_of_refreshed hw hp.tracked h
  rw [hp.normal] at hlinked
  exact (hlinked.changesOnly hp.normal).setText hp.normal hlinked.tracked text

/-! ## Paths to files that changed -/

/-- **On the way to a file that changed, the first one that did is reached both before and after.**
The edges up to there are those of files that stay. -/
theorem exists_first_changed (hw : w.WellKept) (hp : w.Tracks p) (hc : ¬ changed p)
    (h : ChangesOnly changed w w') (ht : changed t) (hpath : w'.graph.DependsOn p t) :
    ∃ r, changed r ∧ ∀ w'', ChangesOnly changed w w'' → w''.graph.DependsOn p r := by
  -- on the path, from its start
  induction hpath using TransGen.head_induction_on with
  | @single p hedge =>
    refine ⟨t, ht, fun w'' h'' => .single ?_⟩
    exact (h''.refersTo_iff hp hc).mpr ((h.refersTo_iff hp hc).mp hedge)
  | @head p m hedge _ ih =>
    have hold := (h.refersTo_iff hp hc).mp hedge
    by_cases hm : changed m
    · exact ⟨m, hm, fun w'' h'' => .single ((h''.refersTo_iff hp hc).mpr hold)⟩
    · obtain ⟨r, hr, hall⟩ := ih (hw.tracks_of_refersTo hold) hm
      exact ⟨r, hr, fun w'' h'' => .head ((h''.refersTo_iff hp hc).mpr hold) (hall w'' h'')⟩

/-! ## Files that depend on nothing that changed -/

/-- The file stays, and so does all that it depends on. -/
structure Untouched (changed : Path → Prop) (w w' : Workspace) (p : Path) : Prop where
  tracks : w.Tracks p
  unchanged : ¬ changed p
  independent : ∀ r, changed r → ¬ w'.graph.DependsOn p r

variable (h : ChangesOnly changed w w') (hw : w.WellKept)

include h hw

theorem Untouched.step (hp : Untouched changed w w' p) (hedge : w.graph.RefersTo p q) :
    Untouched changed w w' q := by
  have hedge' := (h.refersTo_iff hp.tracks hp.unchanged).mpr hedge
  refine ⟨hw.tracks_of_refersTo hedge, fun hc => ?_, fun r hr hpath => ?_⟩
  · exact hp.independent q hc (.single hedge')
  · exact hp.independent r hr (.head hedge' hpath)

/-- Whatever it depends on stays. -/
theorem Untouched.of_dependsOn (hp : Untouched changed w w' p) (hpath : w.graph.DependsOn p q) :
    Untouched changed w w' q := by
  induction hpath with
  | single hedge => exact hp.step h hw hedge
  | tail _ hedge ih => exact ih.step h hw hedge

/-- **It depends on the same files as before.** -/
theorem Untouched.dependsOn_iff (hp : Untouched changed w w' p) :
    w'.graph.DependsOn p t ↔ w.graph.DependsOn p t := by
  constructor
  · intro hpath
    induction hpath using TransGen.head_induction_on with
    | single hedge => exact .single ((h.refersTo_iff hp.tracks hp.unchanged).mp hedge)
    | head hedge _ ih =>
      have hold := (h.refersTo_iff hp.tracks hp.unchanged).mp hedge
      exact .head hold (ih (hp.step h hw hold))
  · intro hpath
    induction hpath using TransGen.head_induction_on with
    | single hedge => exact .single ((h.refersTo_iff hp.tracks hp.unchanged).mpr hedge)
    | head hedge _ ih =>
      exact .head ((h.refersTo_iff hp.tracks hp.unchanged).mpr hedge) (ih (hp.step h hw hedge))

/-- The list of the files that it depends on is the same. -/
theorem Untouched.transitiveDependencies_eq (hw' : w'.WellKept)
    (hp : Untouched changed w w' p) :
    w'.graph.transitiveDependencies p = w.graph.transitiveDependencies p :=
  transitiveDependencies_congr hw'.normalTargets hw.normalTargets fun _ => hp.dependsOn_iff h hw

end Workspace

end TypeScriptEngine
