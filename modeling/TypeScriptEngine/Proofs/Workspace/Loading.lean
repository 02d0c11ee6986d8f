import TypeScriptEngine.Proofs.Disk.Spelling
import TypeScriptEngine.Proofs.Workspace.RollBack

/-! # What a load does

`Progress` is the invariant of the loop: the files that were linked so far, and those of the level
that comes next, are the root and the files that were taken in, in order; each of them lies `Behind`
the root; and those that were linked have the edges of their texts.  A level that goes through keeps
it (`Progress.advance`), so that a load ends with all files linked, or fails with an extension that
can be taken back (`Loads.outcome`).  The loop ends, since every level but the last takes in files
and there are finitely many (`Progress.loads`).
-/

namespace TypeScriptEngine

open TypeScriptEngine.Graph TypeScriptEngine.Path DependencyGraph

/-! ## Files behind a file -/

namespace SourceText

/-- What a load sees as the text of a file: its root has the text that was given, and the others are
read from the file tree. -/
def textIn (root : SourceText) (disk : Disk) (p : Path) : Except DiskError String :=
  if p == root.path then .ok root.text else disk.read p

/-- What the resolver is asked for the references of a text: a directory and a specifier each. -/
def questions (s : SourceText) : List (Path × String) :=
  s.references.map fun r => (s.directory, ResolveRequest.askedSpecifier s.directory r)

end SourceText

/-- **The files behind a root,** along the edges of texts and past files that are there already. -/
inductive Behind (env : Surroundings) (w : Workspace) (root : SourceText) : Path → Prop where
  | root : Behind env w root root.path
  | step {p : Path} {text : String} {d : Dependency} (hp : Behind env w root p)
      (htext : root.textIn env.disk p = .ok text)
      (hd : d ∈ SourceText.edges ⟨p, text⟩ env.resolve)
      (hnew : w.files.contains d.target = false) : Behind env w root d.target

/-- Some file behind the root cannot be read, or has a reference that leads nowhere. -/
def Stuck (env : Surroundings) (w : Workspace) (root : SourceText) : Prop :=
  ∃ p, Behind env w root p ∧
    ∀ text, root.textIn env.disk p = .ok text → ¬ SourceText.Resolves ⟨p, text⟩ env.resolve

/-- The file that was read. -/
def Access.read? : Access → Option Path
  | .read path => some path
  | .resolve .. => none

/-- The question to the resolver. -/
def Access.question? : Access → Option (Path × String)
  | .resolve context specifier => some (context, specifier)
  | .read _ => none

theorem filterMap_read?_read (ps : List Path) :
    (ps.map Access.read).filterMap Access.read? = ps := by
  rw [List.filterMap_map]
  exact List.filterMap_some

theorem filterMap_question?_read (ps : List Path) :
    (ps.map Access.read).filterMap Access.question? = [] := by
  rw [List.filterMap_map]
  exact List.filterMap_eq_nil_iff.mpr fun _ _ => rfl

theorem filterMap_read?_asking (requests : List ResolveRequest) :
    (requests.map Surroundings.askingOf).filterMap Access.read? = [] := by
  rw [List.filterMap_map]
  exact List.filterMap_eq_nil_iff.mpr fun _ _ => rfl

theorem filterMap_question?_asking (level : List SourceText) :
    ((level.flatMap ResolveRequest.ofSource).map Surroundings.askingOf).filterMap
      Access.question? = level.flatMap SourceText.questions := by
  rw [List.filterMap_map, List.filterMap_flatMap]
  congr 1
  funext s
  rw [SourceText.ofSource_eq, List.filterMap_map, SourceText.questions]
  exact congrFun (List.filterMap_eq_map (f := fun r => (s.directory, ResolveRequest.askedSpecifier
    s.directory r))) s.references

namespace Workspace

variable {env : Surroundings} {w l : Workspace} {root : Path} {level taken : List SourceText}

/-! ## Extensions, again -/

theorem Separate.append {ss ts : List SourceText} (hs : Separate ss) (ht : Separate ts)
    (hdisjoint : ∀ t ∈ ts, t.path ∉ ss.map SourceText.path) : Separate (ss ++ ts) where
  normal := by
    intro s hmem
    rcases List.mem_append.mp hmem with hmem | hmem
    · exact hs.normal s hmem
    · exact ht.normal s hmem
  distinct := by
    rw [List.map_append]
    refine List.nodup_append.mpr ⟨hs.distinct, ht.distinct, ?_⟩
    rintro p hp q hq rfl
    obtain ⟨t, ht, rfl⟩ := List.mem_map.mp hq
    exact hdisjoint t ht hp

/-- What an extension contains. -/
theorem Extends.contains_iff (h : Extends w root taken l) {p : Path} (hp : p.IsNormal) :
    l.files.contains p = true ↔
      w.files.contains p = true ∨ p ∈ taken.map SourceText.path := by
  rw [h.files, FileStore.contains_append, Bool.or_eq_true, List.any_map, List.any_eq_true]
  refine or_congr Iff.rfl ⟨?_, ?_⟩
  · rintro ⟨s, hs, he⟩
    have hs' := h.separate.normal s hs
    have he : (s.path == p) = true := by
      simpa [SourceText.file, show s.path.normalize = s.path from hs',
        show p.normalize = p from hp] using he
    rw [← hs'.eq_of_beq hp he]
    exact List.mem_map_of_mem hs
  · intro hmem
    obtain ⟨s, hs, rfl⟩ := List.mem_map.mp hmem
    exact ⟨s, hs, by simp [SourceText.file]⟩

theorem Extends.wellKept_files (h : Extends w root taken l) (hw : w.files.WellKept) :
    l.files.WellKept where
  normal := by
    intro file hfile
    rw [h.files] at hfile
    rcases List.mem_append.mp hfile with hfile | hfile
    · exact hw.normal file hfile
    · obtain ⟨s, _, rfl⟩ := List.mem_map.mp hfile
      exact FileStore.isNormal_newFile s.path s.text
  declared := by
    intro file hfile
    rw [h.files] at hfile
    rcases List.mem_append.mp hfile with hfile | hfile
    · exact hw.declared file hfile
    · obtain ⟨s, _, rfl⟩ := List.mem_map.mp hfile
      rfl
  distinct := by
    have hpaths : (taken.map SourceText.file).map TrackedFile.path =
        taken.map SourceText.path := by
      rw [List.map_map]
      exact List.map_congr_left fun s hs => h.separate.normal s hs
    rw [h.files, List.map_append, hpaths]
    refine List.nodup_append.mpr ⟨hw.distinct, h.separate.distinct, ?_⟩
    rintro p hp q hq rfl
    obtain ⟨file, hfile, rfl⟩ := List.mem_map.mp hp
    obtain ⟨s, hs, he⟩ := List.mem_map.mp hq
    have hfresh := h.fresh s hs
    rw [he, hw.contains_of_mem hfile] at hfresh
    contradiction

theorem Extends.contains_of_contains (h : Extends w root taken l) {p : Path}
    (hp : w.files.contains p = true) : l.files.contains p = true := by
  rw [h.files, FileStore.contains_append, hp, Bool.true_or]

theorem Extends.not_contains (h : Extends w root taken l) {p : Path}
    (hp : l.files.contains p = false) : w.files.contains p = false := by
  by_contra hc
  rw [h.contains_of_contains (Bool.not_eq_false _ ▸ hc)] at hp
  contradiction

/-- A tracked root is none of the files that were taken in. -/
theorem Extends.separate_cons {root : SourceText} (h : Extends w root.path taken l)
    (hnormal : root.path.IsNormal) (hroot : w.files.contains root.path = true) :
    Separate (root :: taken) where
  normal := by
    intro s hs
    rcases List.mem_cons.mp hs with rfl | hs
    · exact hnormal
    · exact h.separate.normal s hs
  distinct := by
    refine List.nodup_cons.mpr ⟨fun hmem => ?_, h.separate.distinct⟩
    obtain ⟨s, hs, he⟩ := List.mem_map.mp hmem
    rw [← he, h.fresh s hs] at hroot
    contradiction

/-- Connecting files of the extension leaves an extension. -/
theorem Extends.connect (h : Extends w root taken l) (hroot : root.IsNormal)
    (hlevel : ∀ s ∈ level, s.path = root ∨ s ∈ taken)
    (resolved : List (ResolveRequest × Path)) :
    Extends w root taken (l.connect level resolved) where
  separate := h.separate
  fresh := h.fresh
  files := h.files
  graph := coherent_connect h.graph level resolved
  dependents := by
    intro t p hp
    rcases mem_dependents_connect h.graph hp with hp | hp
    · obtain ⟨s, hs, rfl⟩ := List.mem_map.mp hp
      rcases hlevel s hs with he | hs
      · exact he ▸ hroot
      · exact h.separate.normal s hs
    · exact h.dependents t p hp
  dependencies := by
    intro p hp hout
    have hnot : isIn p (level.map SourceText.path) = false := by
      by_contra hin
      obtain ⟨s, hs, he⟩ := isIn_paths_iff.mp (Bool.not_eq_false _ ▸ hin)
      rcases hlevel s hs with hs | hs
      · rw [← hs, he] at hp
        contradiction
      · rw [isIn_paths_iff.mpr ⟨s, hs, he⟩] at hout
        contradiction
    rw [dependencies_connect, hnot]
    exact h.dependencies p hp hout
  times := h.times

/-- Taking in more files leaves an extension. -/
theorem Extends.insertAll {sources : List SourceText} (h : Extends w root taken l)
    (hs : Separate sources) (hnew : ∀ s ∈ sources, l.files.contains s.path = false)
    (disk : Disk) : Extends w root (taken ++ sources) (l.insertAll disk sources) where
  separate := by
    refine h.separate.append hs fun s hmem hin => ?_
    have := (h.contains_iff (hs.normal s hmem)).mpr (Or.inr hin)
    rw [hnew s hmem] at this
    contradiction
  fresh := by
    intro s hmem
    rcases List.mem_append.mp hmem with hmem | hmem
    · exact h.fresh s hmem
    · exact h.not_contains (hnew s hmem)
  files := by
    rw [insertAll_files hs hnew, h.files, List.map_append, List.append_assoc]
  graph := insertAll_graph l disk sources ▸ h.graph
  dependents := by
    rw [insertAll_graph]
    exact h.dependents
  dependencies := by
    intro p hp hout
    rw [List.map_append, isIn, List.any_append] at hout
    rw [insertAll_graph]
    exact h.dependencies p hp (Bool.or_eq_false_iff.mp hout).1
  times := by
    intro p hout
    rw [List.map_append, isIn, List.any_append] at hout
    obtain ⟨htaken, hsources⟩ := Bool.or_eq_false_iff.mp hout
    exact (find?_insertAll hsources).trans (h.times p htaken)

/-! ## The invariant -/

/-- How far a load of the files behind `root` into `w` has come: the files `seen` are linked, those
of `level` come next, and `taken` were taken in.  The load began with `before` as the list of files
to take out again. -/
structure Progress (env : Surroundings) (w : Workspace) (root : SourceText) (before : List Path)
    (seen level taken : List SourceText) (l : Loading) : Prop where
  order : seen ++ level = root :: taken
  extension : Extends w root.path taken l.workspace
  texts : ∀ s ∈ taken, env.disk.read s.path = .ok s.text
  behind : ∀ s ∈ taken, Behind env w root s.path
  /-- The times of the files that were taken in are noted. -/
  times : ∀ s ∈ taken, find? s.path l.workspace.declarationTimes =
    (timeOf env.disk s.path).or (find? s.path w.declarationTimes)
  resolves : ∀ s ∈ seen, s.Resolves env.resolve
  linked : ∀ s ∈ seen, l.workspace.graph.dependencies s.path = s.edges env.resolve
  closed : ∀ s ∈ seen, ∀ d ∈ s.edges env.resolve, l.workspace.files.contains d.target = true
  /-- Every file that was taken in was read once. -/
  reads : l.accesses.filterMap Access.read? = taken.map SourceText.path
  /-- Every reference of a linked file was resolved once. -/
  asked : l.accesses.filterMap Access.question? = seen.flatMap SourceText.questions
  inserted : l.inserted = before ++ taken.map SourceText.path
  failure : l.failure = none

variable {root : SourceText} {before : List Path} {seen sources : List SourceText}
  {l l' : Loading}

/-- A load begins with its root. -/
theorem progress_start (hw : w.WellKept) : Progress env w root before [] [root] []
    ⟨w, before, [], none⟩ where
  order := rfl
  extension :=
    { separate := ⟨fun _ h => by contradiction, List.nodup_nil⟩
      fresh := fun _ h => by contradiction
      files := by simp
      graph := hw.graph
      dependents := hw.dependents
      dependencies := fun _ _ _ => rfl
      times := fun _ _ => rfl }
  texts := fun _ h => by contradiction
  behind := fun _ h => by contradiction
  times := fun _ h => by contradiction
  resolves := fun _ h => by contradiction
  linked := fun _ h => by contradiction
  closed := fun _ h => by contradiction
  reads := rfl
  asked := rfl
  inserted := (List.append_nil before).symm
  failure := rfl

namespace Progress

variable (h : Progress env w root before seen level taken l)

include h

theorem level_cases {s : SourceText} (hs : s ∈ level) : s = root ∨ s ∈ taken := by
  have hmem : s ∈ seen ++ level := List.mem_append_right _ hs
  rw [h.order] at hmem
  exact List.mem_cons.mp hmem

/-- The text that a load sees of one of its files. -/
theorem textIn_eq (hroot : w.files.contains root.path = true) {s : SourceText}
    (hs : s = root ∨ s ∈ taken) : root.textIn env.disk s.path = .ok s.text := by
  unfold SourceText.textIn
  rcases hs with rfl | hs
  · rw [if_pos BEq.rfl]
  · rw [FileStore.beq_eq_false (h.extension.fresh s hs) hroot]
    exact h.texts s hs

theorem behind_of_mem {s : SourceText} (hs : s = root ∨ s ∈ taken) :
    Behind env w root s.path := by
  rcases hs with rfl | hs
  · exact .root
  · exact h.behind s hs

theorem separate (hnormal : root.path.IsNormal) (hroot : w.files.contains root.path = true) :
    Separate (seen ++ level) :=
  h.order ▸ h.extension.separate_cons hnormal hroot

end Progress

namespace Progress

variable (h : Progress env w root before seen level taken l)

include h

/-- The files of a level differ from each other and from those that were linked before. -/
theorem separate_level (hnormal : root.path.IsNormal)
    (hroot : w.files.contains root.path = true) :
    Separate level ∧ ∀ s ∈ seen, isIn s.path (level.map SourceText.path) = false := by
  have hsep := h.separate hnormal hroot
  have hdistinct := hsep.distinct
  rw [List.map_append] at hdistinct
  obtain ⟨_, hlevel, hdisjoint⟩ := List.nodup_append.mp hdistinct
  refine ⟨⟨fun s hs => hsep.normal s (List.mem_append_right _ hs), hlevel⟩, fun s hs => ?_⟩
  by_contra hin
  obtain ⟨t, ht, he⟩ := isIn_paths_iff.mp (Bool.not_eq_false _ ▸ hin)
  have he := (hsep.normal t (List.mem_append_right _ ht)).eq_of_beq
    (hsep.normal s (List.mem_append_left _ hs)) he
  exact hdisjoint s.path (List.mem_map_of_mem hs) t.path (List.mem_map_of_mem ht) he.symm

theorem extension_advance (ha : Advance env level sources l l') (hnormal : root.path.IsNormal) :
    Extends w root.path (taken ++ sources) l'.workspace := by
  obtain ⟨resolved, _, hworkspace⟩ := ha.workspace
  rw [hworkspace]
  refine (h.extension.connect hnormal (fun s hs => ?_) resolved).insertAll ha.separate
    (fun _ => ha.fresh) env.disk
  exact (h.level_cases hs).imp_left (congrArg SourceText.path)

/-- The files of the next level lie behind the root. -/
theorem behind_advance (ha : Advance env level sources l l')
    (hroot : w.files.contains root.path = true) {t : SourceText} (ht : t ∈ sources) :
    Behind env w root t.path := by
  obtain ⟨⟨s, hs, d, hd, he⟩, hfresh⟩ := (ha.wanted t.path).mp (List.mem_map_of_mem ht)
  have hs := h.level_cases hs
  rw [← he] at hfresh ⊢
  exact .step (h.behind_of_mem hs) (h.textIn_eq hroot hs) hd (h.extension.not_contains hfresh)

theorem times_advance (ha : Advance env level sources l l') :
    ∀ s ∈ taken ++ sources, find? s.path l'.workspace.declarationTimes =
      (timeOf env.disk s.path).or (find? s.path w.declarationTimes) := by
  obtain ⟨resolved, _, hworkspace⟩ := ha.workspace
  -- the files of the next level are none of those that were taken in before
  have hfresh : ∀ t ∈ sources, isIn t.path (taken.map SourceText.path) = false := by
    intro t ht
    by_contra hin
    obtain ⟨u, hu, he⟩ := isIn_paths_iff.mp (Bool.not_eq_false _ ▸ hin)
    have hnormal := ha.separate.normal t ht
    have he := (h.extension.separate.normal u hu).eq_of_beq hnormal he
    have hin := (h.extension.contains_iff hnormal).mpr (Or.inr (he ▸ List.mem_map_of_mem hu))
    rw [ha.fresh ht] at hin
    contradiction
  intro s hs
  rw [hworkspace]
  rcases List.mem_append.mp hs with hs | hs
  · rw [find?_insertAll]
    · exact h.times s hs
    · by_contra hin
      obtain ⟨t, ht, he⟩ := isIn_paths_iff.mp (Bool.not_eq_false _ ▸ hin)
      have hout := hfresh t ht
      rw [isIn_paths_iff.mpr ⟨s, hs, BEq.symm he⟩] at hout
      contradiction
  · rw [find?_insertAll_of_mem ha.separate hs]
    congr 1
    exact h.extension.times s.path (hfresh s hs)

end Progress

/-- **A level that goes through keeps the invariant.** -/
theorem Progress.advance (h : Progress env w root before seen level taken l)
    (ha : Advance env level sources l l') (hnormal : root.path.IsNormal)
    (hroot : w.files.contains root.path = true) :
    Progress env w root before (seen ++ level) sources (taken ++ sources) l' where
  order := by
    rw [h.order, List.cons_append]
  extension := h.extension_advance ha hnormal
  texts := by
    intro s hs
    rcases List.mem_append.mp hs with hs | hs
    · exact h.texts s hs
    · exact ha.texts s hs
  behind := by
    intro s hs
    rcases List.mem_append.mp hs with hs | hs
    · exact h.behind s hs
    · exact h.behind_advance ha hroot hs
  times := h.times_advance ha
  resolves := by
    intro s hs
    rcases List.mem_append.mp hs with hs | hs
    · exact h.resolves s hs
    · exact ha.resolves s hs
  linked := by
    intro s hs
    obtain ⟨hlevel, hseen⟩ := h.separate_level hnormal hroot
    rcases List.mem_append.mp hs with hs | hs
    · -- a file that was linked before is not linked again
      rw [ha.dependencies_of_not_isIn (hseen s hs)]
      exact h.linked s hs
    · exact ha.dependencies_of_mem hlevel hs
  closed := by
    intro s hs d hd
    rcases List.mem_append.mp hs with hs | hs
    · exact ha.contains (h.closed s hs d hd)
    · exact ha.contains_target hs hd
  reads := by
    rw [ha.accesses, List.filterMap_append, List.filterMap_append, h.reads,
      filterMap_read?_asking, filterMap_read?_read, List.append_nil, List.map_append]
  asked := by
    rw [ha.accesses, List.filterMap_append, List.filterMap_append, h.asked,
      filterMap_question?_asking, filterMap_question?_read, List.append_nil,
      List.flatMap_append]
  inserted := by
    rw [ha.inserted, h.inserted, List.map_append, List.append_assoc]
  failure := by
    rw [ha.failure, h.failure]

/-- A load that failed.  It can be taken back, and its failure is one of the texts or the
resolver. -/
structure Failed (env : Surroundings) (w : Workspace) (root : SourceText) (before : List Path)
    (taken : List SourceText) (l : Loading) : Prop where
  extension : Extends w root.path taken l.workspace
  inserted : l.inserted = before ++ taken.map SourceText.path
  failure : ∃ e, l.failure = some e ∧ e.IsLoadFailure
  stuck : Stuck env w root

/-- **A level that breaks down leaves an extension.** -/
theorem Progress.failed (h : Progress env w root before seen level taken l)
    (hb : Breakdown env level l l') (hnormal : root.path.IsNormal)
    (hroot : w.files.contains root.path = true) : Failed env w root before taken l' where
  extension := by
    rcases hb.workspace with he | ⟨resolved, he⟩
    · exact he ▸ h.extension
    · rw [he]
      refine h.extension.connect hnormal (fun s hs => ?_) resolved
      exact (h.level_cases hs).imp_left (congrArg SourceText.path)
  inserted := hb.inserted.trans h.inserted
  failure := hb.failure
  stuck := by
    rcases hb.cause with ⟨s, hs, hresolves⟩ | ⟨s, hs, d, hd, hnew, cause, hcause⟩
    · have hs' := h.level_cases hs
      refine ⟨s.path, h.behind_of_mem hs', fun text htext => ?_⟩
      rw [h.textIn_eq hroot hs'] at htext
      obtain rfl := Except.ok.inj htext
      exact hresolves
    · have hs' := h.level_cases hs
      have hfresh := h.extension.not_contains hnew
      refine ⟨d.target, .step (h.behind_of_mem hs') (h.textIn_eq hroot hs') hd hfresh, ?_⟩
      intro text htext
      rw [SourceText.textIn, FileStore.beq_eq_false hfresh hroot, hcause] at htext
      contradiction

/-! ## A whole load -/

/-- **A load links all files, or fails.** -/
theorem Loads.outcome (h : Loads env level l l') (hnormal : root.path.IsNormal)
    (hroot : w.files.contains root.path = true)
    (hp : Progress env w root before seen level taken l) :
    (∃ taken', Progress env w root before (root :: taken') [] taken' l') ∨
      ∃ taken', Failed env w root before taken' l' := by
  -- on the run, for any point of the load that it starts from
  induction h generalizing seen taken with
  | done l =>
    have horder := hp.order
    rw [List.append_nil] at horder
    exact Or.inl ⟨taken, horder ▸ hp⟩
  | @level level l l' hne rest ih =>
    rcases advance_cases env level l with ⟨hb, hnil⟩ | ha
    · rw [hnil] at rest
      cases rest with
      | done => exact Or.inr ⟨taken, hp.failed hb hnormal hroot⟩
      | level hne _ => exact absurd rfl hne
    · exact ih (hp.advance ha hnormal hroot)

/-- The files that a load has taken in are no more than the file tree has spellings. -/
theorem Progress.length_le (h : Progress env w root before seen level taken l) :
    taken.length ≤ env.disk.spellingBound := by
  rw [← List.length_map (f := SourceText.path)]
  refine Disk.length_le_spellingBound h.extension.separate.distinct ?_ ?_
  · intro p hp
    obtain ⟨s, hs, rfl⟩ := List.mem_map.mp hp
    exact h.extension.separate.normal s hs
  · intro p hp
    obtain ⟨s, hs, rfl⟩ := List.mem_map.mp hp
    exact ⟨s.text, h.texts s hs⟩

/-- **The loop ends before the fuel does:** every level but the last takes in a file. -/
theorem Progress.loads {fuel : Nat} (h : Progress env w root before seen level taken l)
    (hnormal : root.path.IsNormal) (hroot : w.files.contains root.path = true)
    (hfuel : env.disk.spellingBound < fuel + taken.length) :
    Loads env level l (loadLevels env fuel level l) := by
  induction fuel generalizing seen level taken l with
  | zero =>
    -- as many files as the tree has spellings have been taken in, and one more
    exact absurd h.length_le (by omega)
  | succ fuel ih =>
    by_cases hne : level = []
    · subst hne
      rw [loadLevels_nil]
      exact .done l
    · rw [loadLevels_eq env fuel hne]
      refine .level hne ?_
      rcases advance_cases env level l with ⟨_, hnil⟩ | ha
      · rw [hnil, loadLevels_nil]
        exact .done _
      · by_cases hnext : (l.advance env level).2 = []
        · rw [hnext, loadLevels_nil]
          exact .done _
        · -- the next level has taken in at least one file for the fuel of this one
          refine ih (h.advance ha hnormal hroot) ?_
          have := List.length_pos_iff.mpr hnext
          rw [List.length_append]
          omega

/-- **A load that ends well has found every file behind its root.** -/
theorem Progress.complete (h : Progress env w root before (root :: taken) [] taken l)
    (hroot : w.files.contains root.path = true) {p : Path} (hp : Behind env w root p) :
    ∃ s, (s = root ∨ s ∈ taken) ∧ s.path = p := by
  induction hp with
  | root => exact ⟨root, Or.inl rfl, rfl⟩
  | @step p text d _ htext hd hnew ih =>
    obtain ⟨s, hs, rfl⟩ := ih
    rw [h.textIn_eq hroot hs] at htext
    obtain rfl := Except.ok.inj htext
    have hclosed := h.closed s (List.mem_cons.mpr hs) d hd
    -- a tracked target that was not there before was taken in
    rcases (h.extension.contains_iff (SourceText.isNormal_target_of_mem_edges hd)).mp hclosed
      with hc | hc
    · rw [hnew] at hc
      contradiction
    · obtain ⟨t, ht, he⟩ := List.mem_map.mp hc
      exact ⟨t, Or.inr ht, he⟩

/-- A load that ends well was not stuck. -/
theorem Progress.not_stuck (h : Progress env w root before (root :: taken) [] taken l)
    (hroot : w.files.contains root.path = true) : ¬ Stuck env w root := by
  rintro ⟨p, hp, hstuck⟩
  obtain ⟨s, hs, rfl⟩ := h.complete hroot hp
  exact hstuck s.text (h.textIn_eq hroot hs) (h.resolves s (List.mem_cons.mpr hs))

end Workspace

end TypeScriptEngine
