import TypeScriptEngine.Proofs.Workspace.Loading

/-! # What tracking a file does

`ensure` and `refresh` either link the root of a load and all files behind it (`Linked`), or fail
and leave the workspace as it was (`ensure_cases`, `refresh_cases`).  Both are the unbounded loop of
`Loads`.  The invariant `WellKept` survives both, and the edges stay those of the texts.
-/

namespace TypeScriptEngine

open TypeScriptEngine.Graph TypeScriptEngine.Path DependencyGraph

namespace Workspace

variable {env : Surroundings} {w w' l : Workspace} {root : SourceText} {disk : Disk}
  {new taken : List SourceText}

/-! ## Keeping the invariant -/

/-- More files, and times of tracked files only, keep the invariant. -/
theorem WellKept.of_files (hw : w.WellKept) (hfiles : w'.files.WellKept)
    (hgraph : w'.graph = w.graph)
    (hmono : ∀ p, w.files.contains p = true → w'.files.contains p = true)
    (htimes : ∀ p, find? p w'.declarationTimes ≠ none → w'.files.contains p = true) :
    w'.WellKept where
  files := hfiles
  graph := hgraph ▸ hw.graph
  dependents := hgraph ▸ hw.dependents
  sources := fun p hp => hmono p (hw.sources p (hgraph ▸ hp))
  targets := fun p d hd => (hw.targets p d (hgraph ▸ hd)).imp_right (hmono _)
  times := htimes

/-- Times are noted of the path that is recorded, and of those that had one. -/
theorem find?_recordTime_ne_none {p q : Path}
    (h : find? q (w.recordTime disk p).declarationTimes ≠ none) :
    (p == q) = true ∨ find? q w.declarationTimes ≠ none := by
  cases hpq : p == q with
  | true => exact Or.inl rfl
  | false =>
    rw [find?_recordTime hpq] at h
    exact Or.inr h

theorem WellKept.recordTime (hw : w.WellKept) {p : Path} (hp : w.files.contains p = true) :
    (w.recordTime disk p).WellKept := by
  refine hw.of_files ?_ (recordTime_graph w disk p) ?_ ?_
  · exact recordTime_files w disk p ▸ hw.files
  · exact fun q hq => recordTime_files w disk p ▸ hq
  · intro q hq
    rw [recordTime_files]
    rcases find?_recordTime_ne_none hq with he | hq
    · exact FileStore.contains_congr he _ ▸ hp
    · exact hw.times q hq

theorem WellKept.insertNew (hw : w.WellKept) (disk : Disk)
    (hroot : w.files.contains root.path = false) :
    (w.insertNew disk root).WellKept ∧
      (w.insertNew disk root).files.contains root.path = true := by
  have hfiles : w.files.insertNew root.path root.text = ⟨w.files.files ++ [root.file]⟩ :=
    FileStore.insertNew_of_not_contains hroot root.text
  have hcontains : FileStore.contains ⟨w.files.files ++ [root.file]⟩ root.path = true := by
    rw [SourceText.file, FileStore.contains_append_newFile, BEq.rfl, Bool.or_true]
  refine ⟨?_, by rw [insertNew_files, hfiles, hcontains]⟩
  refine WellKept.recordTime (w := { w with files := w.files.insertNew root.path root.text }) ?_
    (hfiles ▸ hcontains)
  refine hw.of_files (hw.files.insertNew _ _) rfl ?_ ?_
  all_goals
    intro p hp
    show (w.files.insertNew root.path root.text).contains p = true
    rw [hfiles, FileStore.contains_append, Bool.or_eq_true]
  · exact Or.inl hp
  · exact Or.inl (hw.times p hp)

/-- Sets the text of a file, and notes when it was changed. -/
def setText (w : Workspace) (disk : Disk) (p : Path) (text : String) : Workspace :=
  { w with files := w.files.upsert p text }.recordTime disk p

@[simp] theorem setText_files (w : Workspace) (disk : Disk) (p : Path) (text : String) :
    (w.setText disk p text).files = w.files.upsert p text :=
  recordTime_files _ _ _

@[simp] theorem setText_graph (w : Workspace) (disk : Disk) (p : Path) (text : String) :
    (w.setText disk p text).graph = w.graph :=
  recordTime_graph _ _ _

theorem WellKept.setText (hw : w.WellKept) {p : Path} (hp : w.files.contains p = true)
    (text : String) : (w.setText disk p text).WellKept := by
  have hcontains := FileStore.contains_upsert hp text
  refine WellKept.recordTime (w := { w with files := w.files.upsert p text }) ?_
    ((hcontains p).trans hp)
  refine hw.of_files (hw.files.upsert p text) rfl ?_ ?_
  · exact fun q hq => (hcontains q).trans hq
  · exact fun q hq => (hcontains q).trans (hw.times q hq)

/-! ## Linked workspaces -/

/-- The workspace `w'` has the files `new` behind those of `w`; these and the root have the edges of
their texts, which lead to tracked files. -/
structure Linked (env : Surroundings) (w : Workspace) (root : SourceText) (new : List SourceText)
    (w' : Workspace) : Prop where
  extension : Extends w root.path new w'
  tracked : w'.files.contains root.path = true
  resolves : ∀ s, s = root ∨ s ∈ new → s.Resolves env.resolve
  linked : ∀ s, s = root ∨ s ∈ new → w'.graph.dependencies s.path = s.edges env.resolve
  closed : ∀ s, s = root ∨ s ∈ new →
    ∀ d ∈ s.edges env.resolve, w'.files.contains d.target = true

theorem Linked.wellKept (h : Linked env w root new w') (hw : w.WellKept) : w'.WellKept := by
  have hmono := fun p => h.extension.contains_of_contains (p := p)
  have hnewContains : ∀ s ∈ new, w'.files.contains s.path = true := fun s hs =>
    (h.extension.contains_iff (h.extension.separate.normal s hs)).mpr
      (Or.inr (List.mem_map_of_mem hs))
  -- a file with other edges than before is the root or a new one
  have hcases : ∀ p, w'.graph.dependencies p = w.graph.dependencies p ∨
      ∃ s, (s = root ∨ s ∈ new) ∧ (s.path == p) = true := by
    intro p
    cases hroot : root.path == p with
    | true => exact Or.inr ⟨root, Or.inl rfl, hroot⟩
    | false =>
      cases hin : isIn p (new.map SourceText.path) with
      | true =>
        obtain ⟨s, hs, he⟩ := isIn_paths_iff.mp hin
        exact Or.inr ⟨s, Or.inr hs, he⟩
      | false => exact Or.inl (h.extension.dependencies p hroot hin)
  refine ⟨h.extension.wellKept_files hw.files, h.extension.graph, h.extension.dependents,
    ?_, ?_, ?_⟩
  · intro p hp
    rcases hcases p with he | ⟨s, hs, he⟩
    · exact hmono p (hw.sources p (he ▸ hp))
    · rw [← FileStore.contains_congr he]
      rcases hs with rfl | hs
      · exact h.tracked
      · exact hnewContains s hs
  · intro p d hd
    rcases hcases p with he | ⟨s, hs, he⟩
    · exact (hw.targets p d (he ▸ hd)).imp_right (hmono _)
    · rw [← dependencies_congr he, h.linked s hs] at hd
      exact ⟨SourceText.isNormal_target_of_mem_edges hd, h.closed s hs d hd⟩
  · intro p hp
    cases hin : isIn p (new.map SourceText.path) with
    | true =>
      obtain ⟨s, hs, he⟩ := isIn_paths_iff.mp hin
      exact FileStore.contains_congr he _ ▸ hnewContains s hs
    | false => exact hmono p (hw.times p (h.extension.times p hin ▸ hp))

/-! ## A load from its beginning -/

variable {before : List Path}

/-- **`load` is the loop over all levels.** -/
theorem loads_load (hw : w.WellKept) (hnormal : root.path.IsNormal)
    (hroot : w.files.contains root.path = true) :
    Loads env [root] ⟨w, before, [], none⟩ (load env w before root) :=
  (progress_start hw).loads hnormal hroot (by simp)

theorem load_outcome (env : Surroundings) (before : List Path) (hw : w.WellKept)
    (hnormal : root.path.IsNormal) (hroot : w.files.contains root.path = true) :
    (∃ taken, Progress env w root before (root :: taken) [] taken (load env w before root)) ∨
      ∃ taken, Failed env w root before taken (load env w before root) :=
  (loads_load hw hnormal hroot).outcome hnormal hroot (progress_start hw)

/-- What a load that ends well has linked. -/
theorem Progress.toLinked {l : Loading} (h : Progress env w root before (root :: taken) [] taken l)
    (hroot : w.files.contains root.path = true) : Linked env w root taken l.workspace where
  extension := h.extension
  tracked := h.extension.contains_of_contains hroot
  resolves := fun s hs => h.resolves s (List.mem_cons.mpr hs)
  linked := fun s hs => h.linked s (List.mem_cons.mpr hs)
  closed := fun s hs => h.closed s (List.mem_cons.mpr hs)

/-- An extension of a workspace that has just taken in the root extends the one without it. -/
theorem Extends.of_insertNew (h : Extends (w.insertNew disk root) root.path taken l)
    (hw : w.WellKept) (hnormal : root.path.IsNormal)
    (hroot : w.files.contains root.path = false) :
    Extends w root.path (root :: taken) l where
  separate := h.separate_cons hnormal (hw.insertNew disk hroot).2
  fresh := by
    intro s hs
    rcases List.mem_cons.mp hs with rfl | hs
    · exact hroot
    · have := h.fresh s hs
      rw [insertNew_files, FileStore.insertNew_of_not_contains hroot,
        FileStore.contains_append] at this
      exact (Bool.or_eq_false_iff.mp this).1
  files := by
    rw [h.files, insertNew_files, FileStore.insertNew_of_not_contains hroot, List.map_cons,
      List.append_assoc]
    rfl
  graph := h.graph
  dependents := h.dependents
  dependencies := by
    intro p hp hout
    rw [List.map_cons] at hout
    rw [h.dependencies p hp (Bool.or_eq_false_iff.mp hout).2, insertNew_graph]
  times := by
    intro p hout
    rw [List.map_cons] at hout
    obtain ⟨hp, hout⟩ := Bool.or_eq_false_iff.mp hout
    exact (h.times p hout).trans (find?_recordTime hp)

/-- A load of a new file has linked it, together with the files behind it. -/
theorem Progress.toLinked_cons {l : Loading}
    (h : Progress env (w.insertNew disk root) root before (root :: taken) [] taken l)
    (hw : w.WellKept) (hnormal : root.path.IsNormal)
    (hroot : w.files.contains root.path = false) :
    Linked env w root (root :: taken) l.workspace := by
  have hlinked := h.toLinked (hw.insertNew disk hroot).2
  have hmem : ∀ s, s = root ∨ s ∈ root :: taken → s = root ∨ s ∈ taken := by
    rintro s (rfl | hs)
    · exact Or.inl rfl
    · exact List.mem_cons.mp hs
  exact ⟨h.extension.of_insertNew hw hnormal hroot, hlinked.tracked,
    fun s hs => hlinked.resolves s (hmem s hs), fun s hs => hlinked.linked s (hmem s hs),
    fun s hs => hlinked.closed s (hmem s hs)⟩

/-- Whether the root itself counts as new makes no difference to what lies behind it. -/
theorem behind_insertNew_iff (disk : Disk) (hnormal : root.path.IsNormal)
    (hroot : w.files.contains root.path = false) {p : Path} :
    Behind env (w.insertNew disk root) root p ↔ Behind env w root p := by
  have hcontains : ∀ q, (w.insertNew disk root).files.contains q =
      (w.files.contains q || root.path.normalize == q.normalize) := by
    intro q
    rw [insertNew_files, FileStore.insertNew_of_not_contains hroot,
      FileStore.contains_append_newFile]
  constructor
  · intro hp
    induction hp with
    | root => exact .root
    | step _ htext hd hnew ih =>
      rw [hcontains] at hnew
      exact .step ih htext hd (Bool.or_eq_false_iff.mp hnew).1
  · intro hp
    induction hp with
    | root => exact .root
    | @step p text d _ htext hd hnew ih =>
      have hd' : d.target.IsNormal := SourceText.isNormal_target_of_mem_edges hd
      cases he : root.path == d.target with
      | true => exact hnormal.eq_of_beq hd' he ▸ .root
      | false =>
        refine .step ih htext hd ?_
        rw [hcontains, hnew, hnormal, hd', he]
        rfl

theorem stuck_insertNew_iff (disk : Disk) (hnormal : root.path.IsNormal)
    (hroot : w.files.contains root.path = false) :
    Stuck env (w.insertNew disk root) root ↔ Stuck env w root :=
  exists_congr fun _ => and_congr_left' (behind_insertNew_iff disk hnormal hroot)

/-! ## The two operations -/

/-- A file that is tracked is not looked at again. -/
theorem ensure_of_contains {p : Path} (hp : w.files.contains p = true) (text : String) :
    w.ensure env p text = .pure w () := by
  rw [← FileStore.contains_normalize] at hp
  simp only [ensure, hp, if_true]

/-- The load of a file that is not tracked. -/
def firstLoad (env : Surroundings) (w : Workspace) (root : SourceText) : Loading :=
  load env (w.insertNew env.disk root) [root.path] root

theorem ensure_of_failure_none {p : Path} (hp : w.files.contains p = false) (text : String)
    (h : (firstLoad env w ⟨p.normalize, text⟩).failure = none) :
    w.ensure env p text = ⟨(firstLoad env w ⟨p.normalize, text⟩).workspace,
      (firstLoad env w ⟨p.normalize, text⟩).accesses, .ok ()⟩ := by
  rw [← FileStore.contains_normalize] at hp
  unfold firstLoad at h ⊢
  simp only [ensure, hp, h, Bool.false_eq_true, if_false]

theorem ensure_of_failure {p : Path} (hp : w.files.contains p = false) (text : String)
    {e : EngineError} (h : (firstLoad env w ⟨p.normalize, text⟩).failure = some e) :
    w.ensure env p text = ⟨(firstLoad env w ⟨p.normalize, text⟩).workspace.rollBack
      (firstLoad env w ⟨p.normalize, text⟩).inserted,
      (firstLoad env w ⟨p.normalize, text⟩).accesses, .error e⟩ := by
  rw [← FileStore.contains_normalize] at hp
  unfold firstLoad at h ⊢
  simp only [ensure, hp, h, Bool.false_eq_true, if_false]

/-- The operation failed in a load, and the workspace is what it was. -/
structure Undone (w : Workspace) (o : Outcome Workspace Unit) : Prop where
  failure : ∃ e, o.result = .error e ∧ e.IsLoadFailure
  same : w.Same o.state
  graph : o.state.graph.Coherent

theorem Undone.wellKept {o : Outcome Workspace Unit} (h : Undone w o) (hw : w.WellKept) :
    o.state.WellKept :=
  h.same.wellKept hw h.graph

/-- **Tracking a new file links it and all files behind it, or changes nothing.** -/
theorem ensure_cases (env : Surroundings) (hw : w.WellKept) {p : Path}
    (hp : w.files.contains p = false) (text : String) :
    (∃ taken, Progress env (w.insertNew env.disk ⟨p.normalize, text⟩) ⟨p.normalize, text⟩
        [p.normalize] (⟨p.normalize, text⟩ :: taken) [] taken
        (firstLoad env w ⟨p.normalize, text⟩) ∧
      w.ensure env p text = ⟨(firstLoad env w ⟨p.normalize, text⟩).workspace,
        (firstLoad env w ⟨p.normalize, text⟩).accesses, .ok ()⟩) ∨
    (Undone w (w.ensure env p text) ∧ Stuck env w ⟨p.normalize, text⟩) := by
  have hroot : w.files.contains (⟨p.normalize, text⟩ : SourceText).path = false := by
    rw [FileStore.contains_normalize, hp]
  have hnormal : (⟨p.normalize, text⟩ : SourceText).path.IsNormal := isNormal_normalize p
  obtain ⟨hw', htracked⟩ := hw.insertNew env.disk hroot
  rcases load_outcome env [p.normalize] hw' hnormal htracked with
    ⟨taken, h⟩ | ⟨taken, h⟩
  · exact Or.inl ⟨taken, h, ensure_of_failure_none hp text h.failure⟩
  · obtain ⟨e, he, hload⟩ := h.failure
    have hextension := h.extension.of_insertNew hw hnormal hroot
    have hinserted : (firstLoad env w ⟨p.normalize, text⟩).inserted =
        ((⟨p.normalize, text⟩ : SourceText) :: taken).map SourceText.path := h.inserted
    rw [ensure_of_failure hp text he, hinserted]
    have hstuck := (stuck_insertNew_iff env.disk hnormal hroot).mp h.stuck
    refine Or.inr ⟨⟨⟨e, rfl, hload⟩, ?_, ?_⟩, hstuck⟩
    · exact hextension.same_rollBack hw (isIn_of_mem (List.mem_cons_self ..))
    · exact coherent_rollBack hextension.graph _

/-- **Giving a tracked file other references links it and all new files behind it, or changes
nothing.** -/
theorem refresh_cases (hw : w.WellKept) {p : Path} (hp : w.files.contains p = true)
    (text : String) :
    (∃ taken, Progress env w ⟨p.normalize, text⟩ [] (⟨p.normalize, text⟩ :: taken) [] taken
        (load env w [] ⟨p.normalize, text⟩) ∧
      w.refresh env p text = ⟨(load env w [] ⟨p.normalize, text⟩).workspace,
        (load env w [] ⟨p.normalize, text⟩).accesses, .ok ()⟩) ∨
    Undone w (w.refresh env p text) := by
  have hroot : w.files.contains (⟨p.normalize, text⟩ : SourceText).path = true := by
    rw [FileStore.contains_normalize, hp]
  have hnormal : (⟨p.normalize, text⟩ : SourceText).path.IsNormal := isNormal_normalize p
  rcases load_outcome env [] hw hnormal hroot with ⟨taken, h⟩ | ⟨taken, h⟩
  · refine Or.inl ⟨taken, h, ?_⟩
    simp only [refresh, h.failure]
  · obtain ⟨e, he, hload⟩ := h.failure
    have hinserted : (load env w [] ⟨p.normalize, text⟩).inserted =
        taken.map SourceText.path := h.inserted
    have hrestored := h.extension.restored hw
    refine Or.inr ?_
    simp only [refresh, he, hinserted]
    exact ⟨⟨e, rfl, hload⟩, hrestored.same_setEdges hw hnormal, hrestored.graph.setEdges _ _⟩

end Workspace

end TypeScriptEngine
