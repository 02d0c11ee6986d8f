import TypeScriptEngine.Proofs.Workspace.Operations

/-! # What happens to a workspace

`Step` lists everything that an instance does to its workspace.  Each step keeps the workspace
`WellKept`, never loses a file (`Step.kept`), and leaves it `Faithful`: every file has the edges of
the text that is stored for it.
-/

namespace TypeScriptEngine

open TypeScriptEngine.Graph TypeScriptEngine.Path DependencyGraph

namespace Workspace

variable {env : Surroundings} {w w' : Workspace} {resolve : Resolver}

/-- One change of a workspace, in some surroundings. -/
inductive Step (env : Surroundings) (w : Workspace) : Workspace → Prop where
  /-- A file was tracked, or could not be. -/
  | ensured (p : Path) (text : String) : Step env w (w.ensure env p text).state
  /-- A tracked file did not get other references. -/
  | refused {p : Path} {text : String} (hp : w.files.contains p = true)
      (h : (w.refresh env p text).result ≠ .ok ()) : Step env w (w.refresh env p text).state
  /-- A tracked file got another text, and its references. -/
  | reloaded {p : Path} {text : String} (hp : w.files.contains p = true)
      (h : (w.refresh env p text).result = .ok ()) :
      Step env w ((w.refresh env p text).state.setText env.disk p text)
  /-- A tracked file got the text that it had. -/
  | rewritten {p : Path} {file : TrackedFile} (hp : w.files.get? p = some file) :
      Step env w (w.setText env.disk p file.text)
  /-- The time of a tracked file was noted. -/
  | noted {p : Path} (hp : w.files.contains p = true) : Step env w (w.recordTime env.disk p)

theorem contains_of_get? {store : FileStore} {p : Path} {file : TrackedFile}
    (h : store.get? p = some file) : store.contains p = true := by
  unfold FileStore.contains
  rw [h]
  rfl

/-- What becomes of a workspace in which a file is tracked. -/
theorem ensure_state_cases (hw : w.WellKept) (env : Surroundings) (p : Path) (text : String) :
    (w.ensure env p text).state = w ∨
      (∃ new, w.files.contains p = false ∧
        Linked env w ⟨p.normalize, text⟩ new (w.ensure env p text).state) ∨
      Undone w (w.ensure env p text) := by
  cases hp : w.files.contains p with
  | true =>
    rw [ensure_of_contains hp]
    exact Or.inl rfl
  | false =>
    rcases ensure_cases env hw hp text with ⟨taken, h, he⟩ | ⟨hundone, _⟩
    · rw [he]
      have hroot : w.files.contains (⟨p.normalize, text⟩ : SourceText).path = false := by
        rw [FileStore.contains_normalize, hp]
      exact Or.inr (Or.inl ⟨_, rfl, h.toLinked_cons hw (isNormal_normalize p) hroot⟩)
    · exact Or.inr (Or.inr hundone)

/-- A refresh that is refused is undone. -/
theorem undone_of_refused (hw : w.WellKept) {p : Path} {text : String}
    (hp : w.files.contains p = true) (h : (w.refresh env p text).result ≠ .ok ()) :
    Undone w (w.refresh env p text) := by
  rcases refresh_cases hw hp text with ⟨_, _, he⟩ | hundone
  · rw [he] at h
    exact absurd rfl h
  · exact hundone

/-- A refresh that is not refused is a load that ends well. -/
theorem progress_of_refreshed (hw : w.WellKept) {p : Path} {text : String}
    (hp : w.files.contains p = true) (h : (w.refresh env p text).result = .ok ()) :
    ∃ taken l, Progress env w ⟨p.normalize, text⟩ [] (⟨p.normalize, text⟩ :: taken) [] taken l ∧
      (w.refresh env p text).state = l.workspace := by
  rcases refresh_cases hw hp text with ⟨taken, hload, he⟩ | hundone
  · exact ⟨taken, _, hload, congrArg Outcome.state he⟩
  · obtain ⟨e, he, _⟩ := hundone.failure
    rw [h] at he
    contradiction

theorem linked_of_refreshed (hw : w.WellKept) {p : Path} {text : String}
    (hp : w.files.contains p = true) (h : (w.refresh env p text).result = .ok ()) :
    ∃ taken, Linked env w ⟨p.normalize, text⟩ taken (w.refresh env p text).state := by
  obtain ⟨taken, l, hload, he⟩ := progress_of_refreshed hw hp h
  rw [he]
  exact ⟨taken, hload.toLinked ((FileStore.contains_normalize w.files p).trans hp)⟩

/-! ## Well-kept workspaces -/

/-- **Every step keeps the invariant.** -/
theorem Step.wellKept (h : Step env w w') (hw : w.WellKept) : w'.WellKept := by
  cases h with
  | ensured p text =>
    rcases ensure_state_cases hw env p text with he | ⟨new, _, hlinked⟩ | hundone
    · rw [he]
      exact hw
    · exact hlinked.wellKept hw
    · exact hundone.wellKept hw
  | refused hp h => exact (undone_of_refused hw hp h).wellKept hw
  | reloaded hp h =>
    obtain ⟨taken, hlinked⟩ := linked_of_refreshed hw hp h
    exact (hlinked.wellKept hw).setText (hlinked.extension.contains_of_contains hp) _
  | rewritten hp => exact hw.setText (contains_of_get? hp) _
  | noted hp => exact hw.recordTime hp

/-! ## Files stay -/

/-- The file is still there: with its text if it has its version, and otherwise with a later one. -/
def Kept (file : TrackedFile) (store : FileStore) : Prop :=
  ∃ file' ∈ store.files, file'.path = file.path ∧ file.version ≤ file'.version ∧
    (file'.version = file.version → file'.text = file.text)

theorem Kept.of_mem {file : TrackedFile} {store : FileStore} (h : file ∈ store.files) :
    Kept file store :=
  ⟨file, h, rfl, Nat.le_refl _, fun _ => rfl⟩

theorem Kept.upsert {file : TrackedFile} {store : FileStore} (h : file ∈ store.files) {p : Path}
    (hp : store.contains p = true) (text : String) : Kept file (store.upsert p text) := by
  rw [FileStore.upsert_of_contains hp]
  refine ⟨_, List.mem_map_of_mem h, FileStore.updated_path p text file, ?_⟩
  unfold FileStore.updated
  split
  · -- the version has grown
    refine ⟨Nat.le_succ _, fun he => ?_⟩
    exact absurd he (Nat.succ_ne_self _)
  · exact ⟨Nat.le_refl _, fun _ => rfl⟩

theorem Extends.mem {root : Path} {taken : List SourceText} {l : Workspace}
    (h : Extends w root taken l) {file : TrackedFile} (hf : file ∈ w.files.files) :
    file ∈ l.files.files := by
  rw [h.files]
  exact List.mem_append_left _ hf

/-- **No step loses a file,** and a text changes only together with its version. -/
theorem Step.kept (h : Step env w w') (hw : w.WellKept) {file : TrackedFile}
    (hf : file ∈ w.files.files) : Kept file w'.files := by
  cases h with
  | ensured p text =>
    rcases ensure_state_cases hw env p text with he | ⟨new, _, hlinked⟩ | hundone
    · rw [he]
      exact .of_mem hf
    · exact .of_mem (hlinked.extension.mem hf)
    · exact .of_mem (hundone.same.files ▸ hf)
  | refused hp h => exact .of_mem ((undone_of_refused hw hp h).same.files ▸ hf)
  | reloaded hp h =>
    obtain ⟨taken, hlinked⟩ := linked_of_refreshed hw hp h
    rw [setText_files]
    exact .upsert (hlinked.extension.mem hf) (hlinked.extension.contains_of_contains hp) _
  | rewritten hp =>
    rw [setText_files]
    exact .upsert hf (contains_of_get? hp) _
  | noted hp =>
    rw [recordTime_files]
    exact .of_mem hf

theorem Step.contains (h : Step env w w') (hw : w.WellKept) {p : Path}
    (hp : w.files.contains p = true) : w'.files.contains p = true := by
  obtain ⟨file, hf, hpath⟩ := hw.files.contains_iff.mp hp
  obtain ⟨file', hf', hpath', _⟩ := h.kept hw hf
  exact (h.wellKept hw).files.contains_iff.mpr ⟨file', hf', hpath'.trans hpath⟩

/-! ## Faithful workspaces -/

/-- A file as a source with the text that is stored. -/
def source (file : TrackedFile) : SourceText := ⟨file.path, file.text⟩

/-- Every file has the edges of the text that is stored for it. -/
def Faithful (resolve : Resolver) (w : Workspace) : Prop :=
  ∀ file ∈ w.files.files, (source file).Resolves resolve ∧
    w.graph.dependencies file.path = (source file).edges resolve

theorem faithful_empty : empty.Faithful resolve := fun _ h => by contradiction

theorem Same.faithful (h : w.Same w') (hf : w.Faithful resolve) : w'.Faithful resolve := by
  intro file hfile
  rw [h.dependencies]
  exact hf file (h.files ▸ hfile)

theorem source_file {s : SourceText} (hs : s.path.IsNormal) : source s.file = s := by
  unfold source SourceText.file FileStore.newFile
  rw [hs]

/-- In a linked workspace only the root can have edges of another text than the stored one. -/
theorem Linked.faithful_of_mem {root : SourceText} {new : List SourceText}
    (h : Linked env w root new w') (hw : w.WellKept) (hf : w.Faithful env.resolve)
    {file : TrackedFile} (hfile : file ∈ w'.files.files) :
    (file ∈ w.files.files ∧ (root.path == file.path) = true) ∨
      ((source file).Resolves env.resolve ∧
        w'.graph.dependencies file.path = (source file).edges env.resolve) := by
  rw [h.extension.files] at hfile
  rcases List.mem_append.mp hfile with hold | hnew
  · cases hroot : root.path == file.path with
    | true => exact Or.inl ⟨hold, rfl⟩
    | false =>
      have hout := h.extension.isIn_eq_false (hw.files.contains_of_mem hold)
      rw [h.extension.dependencies file.path hroot hout]
      exact Or.inr (hf file hold)
  · obtain ⟨s, hs, rfl⟩ := List.mem_map.mp hnew
    have hnormal := h.extension.separate.normal s hs
    have hpath : s.file.path = s.path := hnormal
    rw [source_file hnormal, hpath]
    exact Or.inr ⟨h.resolves s (Or.inr hs), h.linked s (Or.inr hs)⟩

/-- The root has the edges of the text that it gets. -/
theorem Linked.faithful_setText {p : Path} {text : String} {new : List SourceText}
    (h : Linked env w ⟨p.normalize, text⟩ new w') (hw : w.WellKept)
    (hf : w.Faithful env.resolve) : (w'.setText env.disk p text).Faithful env.resolve := by
  intro file hfile
  have htracked : w'.files.contains p = true :=
    (FileStore.contains_normalize w'.files p).symm.trans h.tracked
  rw [setText_files, FileStore.upsert_of_contains htracked] at hfile
  obtain ⟨old, hold, rfl⟩ := List.mem_map.mp hfile
  rw [setText_graph, FileStore.updated_path]
  unfold FileStore.updated
  split
  · rename_i he
    have hpath : old.path = p.normalize :=
      ((h.wellKept hw).files.normal old hold).eq_of_beq (isNormal_normalize p) he
    have hsource : source { old with text, version := old.version + 1 } = ⟨p.normalize, text⟩ :=
      congrArg (SourceText.mk · text) hpath
    have hlinked := h.linked ⟨p.normalize, text⟩ (Or.inl rfl)
    rw [hsource, hpath]
    exact ⟨h.resolves ⟨p.normalize, text⟩ (Or.inl rfl), hlinked⟩
  · rename_i hne
    rcases h.faithful_of_mem hw hf hold with ⟨_, he⟩ | hfaithful
    · exact absurd (BEq.symm he) hne
    · exact hfaithful

/-- A text that stays the same keeps its edges. -/
theorem Faithful.setText_same (hf : w.Faithful resolve) (hw : w.WellKept) {disk : Disk}
    {p : Path} {file : TrackedFile} (hp : w.files.get? p = some file) :
    (w.setText disk p file.text).Faithful resolve := by
  obtain ⟨hmem, hpath⟩ := hw.files.get?_eq_some_iff.mp hp
  intro file' hfile'
  rw [setText_files, FileStore.upsert_of_contains (contains_of_get? hp)] at hfile'
  obtain ⟨old, hold, rfl⟩ := List.mem_map.mp hfile'
  rw [setText_graph, FileStore.updated_path]
  unfold FileStore.updated
  split
  · rename_i he
    have hold' := (hw.files.normal old hold).eq_of_beq (isNormal_normalize p) he
    obtain rfl := hw.files.eq_of_path_eq hold hmem (hold'.trans hpath.symm)
    exact hf old hold
  · exact hf old hold

/-- **Every step leaves each file the edges of its text,** if the resolver stays the same. -/
theorem Step.faithful (h : Step env w w') (hw : w.WellKept) (hf : w.Faithful env.resolve) :
    w'.Faithful env.resolve := by
  cases h with
  | ensured p text =>
    rcases ensure_state_cases hw env p text with he | ⟨new, hp, hlinked⟩ | hundone
    · rw [he]
      exact hf
    · intro file hfile
      rcases hlinked.faithful_of_mem hw hf hfile with ⟨hold, he⟩ | hfaithful
      · -- the root was not tracked
        rw [← FileStore.contains_normalize] at hp
        rw [FileStore.beq_eq_false hp (hw.files.contains_of_mem hold)] at he
        contradiction
      · exact hfaithful
    · exact hundone.same.faithful hf
  | refused hp h => exact (undone_of_refused hw hp h).same.faithful hf
  | reloaded hp h =>
    obtain ⟨taken, hlinked⟩ := linked_of_refreshed hw hp h
    exact hlinked.faithful_setText hw hf
  | rewritten hp => exact hf.setText_same hw hp
  | noted hp =>
    intro file hfile
    rw [recordTime_files] at hfile
    rw [recordTime_graph]
    exact hf file hfile

end Workspace

end TypeScriptEngine
