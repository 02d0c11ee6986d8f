import TypeScriptEngine.Proofs.FileStore
import TypeScriptEngine.Proofs.Workspace.Edges

/-! # One level of a load

`advance` is one level of `loadLevels`: the references of the level are resolved, its edges are put
into the graph, and the files of the next level are read and taken in.  It either breaks down, and
then has taken in nothing (`Breakdown`), or it goes through (`Advance`).  `Loads` is the loop over
all levels without a bound on their number, and `loadLevels_eq` says that `loadLevels` takes its
steps for as long as it has fuel.
-/

namespace TypeScriptEngine

open TypeScriptEngine.Graph TypeScriptEngine.Path DependencyGraph

/-- The failures of a load: a reference that leads nowhere, or a file that cannot be read. -/
def EngineError.IsLoadFailure : EngineError → Prop
  | .unresolved .. | .unreadable .. => True
  | _ => False

instance : DecidablePred EngineError.IsLoadFailure := fun e =>
  match e with
  | .unresolved .. | .unreadable .. => isTrue trivial
  | .config .. | .conflictingOptions .. | .unknownCompiler .. | .noOutput ..
  | .referencedOutputMissing .. => isFalse fun h => h

/-- The file that a source comes in as. -/
def SourceText.file (s : SourceText) : TrackedFile := FileStore.newFile s.path s.text

namespace Workspace

variable {env : Surroundings} {w : Workspace} {disk : Disk}

/-! ## Taking in files -/

@[simp] theorem recordTime_files (w : Workspace) (disk : Disk) (p : Path) :
    (w.recordTime disk p).files = w.files := by
  unfold recordTime
  split
  · split <;> rfl
  · rfl

@[simp] theorem recordTime_graph (w : Workspace) (disk : Disk) (p : Path) :
    (w.recordTime disk p).graph = w.graph := by
  unfold recordTime
  split
  · split <;> rfl
  · rfl

/-- Only the time of the path itself is noted. -/
theorem find?_recordTime {p q : Path} (h : (p == q) = false) :
    find? q (w.recordTime disk p).declarationTimes = find? q w.declarationTimes := by
  unfold recordTime
  split
  · split
    · rw [find?_alter, h]
      rfl
    · rfl
  · rfl

/-- The time that is noted of a file that is read. -/
def timeOf (disk : Disk) (p : Path) : Option Nat :=
  if p.isDeclaration then disk.modified? p else none

/-- A file for which there is no time keeps the one that was noted. -/
theorem find?_recordTime_self (w : Workspace) (disk : Disk) (p : Path) :
    find? p (w.recordTime disk p).declarationTimes =
      (timeOf disk p).or (find? p w.declarationTimes) := by
  unfold recordTime timeOf
  split
  · split
    · rename_i time htime
      rw [htime, find?_alter, if_pos BEq.rfl]
      rfl
    · rename_i htime
      rw [htime]
      rfl
  · rfl

@[simp] theorem insertNew_files (w : Workspace) (disk : Disk) (s : SourceText) :
    (w.insertNew disk s).files = w.files.insertNew s.path s.text :=
  recordTime_files _ _ _

@[simp] theorem insertNew_graph (w : Workspace) (disk : Disk) (s : SourceText) :
    (w.insertNew disk s).graph = w.graph :=
  recordTime_graph _ _ _

/-- Takes in files in order. -/
def insertAll (w : Workspace) (disk : Disk) (sources : List SourceText) : Workspace :=
  sources.foldl (fun w source => w.insertNew disk source) w

theorem insertAll_graph (w : Workspace) (disk : Disk) (sources : List SourceText) :
    (w.insertAll disk sources).graph = w.graph := by
  induction sources generalizing w with
  | nil => rfl
  | cons s sources ih => exact (ih _).trans (insertNew_graph w disk s)

/-- New files come in behind those that are there. -/
theorem insertAll_files {sources : List SourceText} (hs : Separate sources)
    (hw : ∀ s ∈ sources, w.files.contains s.path = false) :
    (w.insertAll disk sources).files = ⟨w.files.files ++ sources.map SourceText.file⟩ := by
  -- each file that comes in leaves those behind it new, since their paths differ
  induction sources generalizing w with
  | nil => simp [insertAll]
  | cons s sources ih =>
    have hdistinct : s.path ∉ sources.map SourceText.path := (List.nodup_cons.mp hs.distinct).1
    have hnew : w.files.insertNew s.path s.text = ⟨w.files.files ++ [s.file]⟩ :=
      FileStore.insertNew_of_not_contains (hw s (List.mem_cons_self ..)) s.text
    have htail : ∀ t ∈ sources, (w.insertNew disk s).files.contains t.path = false := by
      intro t ht
      rw [insertNew_files, hnew, SourceText.file, FileStore.contains_append_newFile,
        hw t (List.mem_cons_of_mem _ ht), Bool.false_or]
      by_contra hb
      rw [hs.normal s (List.mem_cons_self ..), hs.normal t (List.mem_cons_of_mem _ ht)] at hb
      have he := (hs.normal s (List.mem_cons_self ..)).eq_of_beq
        (hs.normal t (List.mem_cons_of_mem _ ht)) (by simpa using hb)
      exact hdistinct (he ▸ List.mem_map_of_mem ht)
    have hsep : Separate sources :=
      ⟨fun t ht => hs.normal t (List.mem_cons_of_mem _ ht), (List.nodup_cons.mp hs.distinct).2⟩
    show ((w.insertNew disk s).insertAll disk sources).files = _
    rw [ih hsep htail, insertNew_files, hnew]
    simp

theorem find?_insertAll {sources : List SourceText} {p : Path}
    (h : isIn p (sources.map SourceText.path) = false) :
    find? p (w.insertAll disk sources).declarationTimes = find? p w.declarationTimes := by
  induction sources generalizing w with
  | nil => rfl
  | cons s sources ih =>
    obtain ⟨hs, h⟩ := Bool.or_eq_false_iff.mp (show (s.path == p ||
      isIn p (sources.map SourceText.path)) = false from h)
    exact (ih h).trans (find?_recordTime hs)

/-- The times of the files that come in are noted. -/
theorem find?_insertAll_of_mem {sources : List SourceText} (hs : Separate sources)
    {s : SourceText} (hmem : s ∈ sources) :
    find? s.path (w.insertAll disk sources).declarationTimes =
      (timeOf disk s.path).or (find? s.path w.declarationTimes) := by
  induction sources generalizing w with
  | nil => contradiction
  | cons t sources ih =>
    obtain ⟨hnot, hdistinct⟩ := List.nodup_cons.mp hs.distinct
    have hsep : Separate sources := ⟨fun u hu => hs.normal u (List.mem_cons_of_mem _ hu), hdistinct⟩
    -- no other file that comes in has the path of the first
    have hne : ∀ u ∈ sources, (t.path == u.path) = false := by
      intro u hu
      by_contra hb
      have he := (hs.normal t (List.mem_cons_self ..)).eq_of_beq
        (hs.normal u (List.mem_cons_of_mem _ hu)) (Bool.not_eq_false _ ▸ hb)
      exact hnot (he ▸ List.mem_map_of_mem hu)
    show find? s.path ((w.insertNew disk t).insertAll disk sources).declarationTimes = _
    rcases List.mem_cons.mp hmem with rfl | hmem
    · rw [find?_insertAll]
      · exact find?_recordTime_self _ disk s.path
      · by_contra hin
        obtain ⟨u, hu, he⟩ := isIn_paths_iff.mp (Bool.not_eq_false _ ▸ hin)
        rw [BEq.comm, hne u hu] at he
        contradiction
    · rw [ih hsep hmem]
      congr 1
      exact find?_recordTime (hne s hmem)

/-! ## The step -/

/-- One level of a load: what becomes of the load, and the files of the next level.  There are none
if the level breaks down. -/
def Loading.advance (l : Loading) (env : Surroundings) (level : List SourceText) :
    Loading × List SourceText :=
  let (asked, resolved) := env.resolveAll (level.flatMap ResolveRequest.ofSource)
  match resolved with
  | .error e => ({ l.log asked with failure := some e }, [])
  | .ok resolved =>
    let connected := { l.log asked with workspace := l.workspace.connect level resolved }
    let (read, sources) := env.readAll (l.workspace.wanted resolved)
    match sources with
    | .error e => ({ connected.log read with failure := some e }, [])
    | .ok sources => ((connected.log read).insertAll env.disk sources, sources)

section Equations

variable {level sources : List SourceText} {asked read : List Access}
  {resolved : List (ResolveRequest × Path)} {e : EngineError}

theorem advance_of_unresolved (l : Loading)
    (h : env.resolveAll (level.flatMap ResolveRequest.ofSource) = (asked, .error e)) :
    l.advance env level = ({ l.log asked with failure := some e }, []) := by
  unfold Loading.advance
  rw [h]

theorem advance_of_unreadable (l : Loading)
    (h : env.resolveAll (level.flatMap ResolveRequest.ofSource) = (asked, .ok resolved))
    (hread : env.readAll (l.workspace.wanted resolved) = (read, .error e)) :
    l.advance env level =
      ({ (l.log (asked ++ read)) with
          workspace := l.workspace.connect level resolved, failure := some e }, []) := by
  unfold Loading.advance
  simp only [h, hread, Loading.log, List.append_assoc]

theorem advance_of_read (l : Loading)
    (h : env.resolveAll (level.flatMap ResolveRequest.ofSource) = (asked, .ok resolved))
    (hread : env.readAll (l.workspace.wanted resolved) = (read, .ok sources)) :
    l.advance env level =
      ({ (l.log (asked ++ read)) with
          workspace := (l.workspace.connect level resolved).insertAll env.disk sources
          inserted := l.inserted ++ sources.map SourceText.path }, sources) := by
  unfold Loading.advance
  simp only [h, hread, Loading.log, List.append_assoc, Loading.insertAll, insertAll]

end Equations

/-- **The loop over all levels,** however many there are. -/
inductive Loads (env : Surroundings) : List SourceText → Loading → Loading → Prop where
  | done (l : Loading) : Loads env [] l l
  | level {level : List SourceText} {l l' : Loading} (hne : level ≠ [])
      (rest : Loads env (l.advance env level).2 (l.advance env level).1 l') : Loads env level l l'

theorem loadLevels_nil (env : Surroundings) (fuel : Nat) (l : Loading) :
    loadLevels env fuel [] l = l := by
  cases fuel <;> rfl

/-- With fuel left, the load takes the step of the loop. -/
theorem loadLevels_eq (env : Surroundings) (fuel : Nat) {level : List SourceText}
    (hne : level ≠ []) (l : Loading) :
    loadLevels env (fuel + 1) level l =
      loadLevels env fuel (l.advance env level).2 (l.advance env level).1 := by
  rw [loadLevels]
  · cases hresolve : env.resolveAll (level.flatMap ResolveRequest.ofSource) with
    | mk asked resolved =>
    cases resolved with
    | error e =>
      rw [advance_of_unresolved l hresolve, loadLevels_nil]
    | ok resolved =>
      cases hread : env.readAll (l.workspace.wanted resolved) with
      | mk read sources =>
      cases sources with
      | error e =>
        rw [advance_of_unreadable l hresolve hread, loadLevels_nil]
        simp only [Loading.log, hread, List.append_assoc]
      | ok sources =>
        rw [advance_of_read l hresolve hread]
        simp only [Loading.log, hread, List.append_assoc, Loading.insertAll, insertAll]
  · exact hne

/-! ## What a step does -/

variable {level sources : List SourceText} {l l' : Loading}

/-- A level that broke down.  It has taken in nothing, though its edges may be in the graph. -/
structure Breakdown (env : Surroundings) (level : List SourceText) (l l' : Loading) : Prop where
  failure : ∃ e, l'.failure = some e ∧ e.IsLoadFailure
  inserted : l'.inserted = l.inserted
  workspace : l'.workspace = l.workspace ∨
    ∃ resolved, l'.workspace = l.workspace.connect level resolved
  /-- A reference leads nowhere, or a file that is referred to cannot be read. -/
  cause : (∃ s ∈ level, ¬ s.Resolves env.resolve) ∨
    ∃ s ∈ level, ∃ d ∈ s.edges env.resolve, l.workspace.files.contains d.target = false ∧
      ∃ cause, env.disk.read d.target = .error cause

/-- A level that went through, with the files of the next level. -/
structure Advance (env : Surroundings) (level sources : List SourceText) (l l' : Loading) :
    Prop where
  resolves : ∀ s ∈ level, s.Resolves env.resolve
  /-- The next level is read from the file tree. -/
  texts : ∀ s ∈ sources, env.disk.read s.path = .ok s.text
  /-- It is of the files that the level refers to and that are not there. -/
  wanted : ∀ t, t ∈ sources.map SourceText.path ↔
    (∃ s ∈ level, ∃ d ∈ s.edges env.resolve, d.target = t) ∧
      l.workspace.files.contains t = false
  separate : Separate sources
  workspace : ∃ resolved, ResolvedLevel env level resolved ∧
    l'.workspace = (l.workspace.connect level resolved).insertAll env.disk sources
  inserted : l'.inserted = l.inserted ++ sources.map SourceText.path
  /-- Every reference is resolved once, and every file of the next level is read once. -/
  accesses : l'.accesses = l.accesses ++
    (level.flatMap ResolveRequest.ofSource).map Surroundings.askingOf ++
    (sources.map SourceText.path).map .read
  failure : l'.failure = l.failure

/-- **A level breaks down or goes through.** -/
theorem advance_cases (env : Surroundings) (level : List SourceText) (l : Loading) :
    (Breakdown env level l (l.advance env level).1 ∧ (l.advance env level).2 = []) ∨
      Advance env level (l.advance env level).2 l (l.advance env level).1 := by
  cases hresolve : env.resolveAll (level.flatMap ResolveRequest.ofSource) with
  | mk asked resolved =>
  have hasked := Surroundings.resolveAll_eq hresolve
  cases resolved with
  | error e =>
    rw [advance_of_unresolved l hresolve]
    obtain ⟨request, hrequest, cause, hcause, rfl⟩ := hasked
    obtain ⟨s, hs, hsource⟩ := List.mem_flatMap.mp hrequest
    rw [SourceText.ofSource_eq] at hsource
    obtain ⟨r, hr, rfl⟩ := List.mem_map.mp hsource
    refine Or.inl ⟨⟨⟨_, rfl, by trivial⟩, rfl, Or.inl rfl, Or.inl ⟨s, hs, ?_⟩⟩, rfl⟩
    intro hresolves
    obtain ⟨target, htarget⟩ := hresolves r hr
    rw [SourceText.answer, hcause] at htarget
    contradiction
  | ok resolved =>
    have hlevel : ResolvedLevel env level resolved := ⟨hasked.2.1, hasked.2.2⟩
    cases hread : env.readAll (l.workspace.wanted resolved) with
    | mk read sources =>
    have hreads := Surroundings.readAll_eq hread
    cases sources with
    | error e =>
      rw [advance_of_unreadable l hresolve hread]
      obtain ⟨path, hpath, cause, hcause, rfl⟩ := hreads
      obtain ⟨⟨s, hs, d, hd, rfl⟩, hnew⟩ := (mem_wanted hlevel).mp hpath
      exact Or.inl ⟨⟨⟨_, rfl, by trivial⟩, rfl, Or.inr ⟨resolved, rfl⟩,
        Or.inr ⟨s, hs, d, hd, hnew, cause, hcause⟩⟩, rfl⟩
    | ok sources =>
      rw [advance_of_read l hresolve hread]
      obtain ⟨haccesses, hpaths, htexts⟩ := hreads
      refine Or.inr ⟨hlevel.resolves, htexts, ?_, ⟨?_, ?_⟩, ⟨resolved, hlevel, rfl⟩, rfl, ?_, rfl⟩
      · intro t
        rw [hpaths]
        exact mem_wanted hlevel
      · intro s hs
        have hmem := List.mem_map_of_mem (f := SourceText.path) hs
        rw [hpaths] at hmem
        obtain ⟨⟨_, _, d, hd, ht⟩, _⟩ := (mem_wanted hlevel).mp hmem
        exact ht ▸ SourceText.isNormal_target_of_mem_edges hd
      · rw [hpaths]
        exact nodup_wanted _ _
      · rw [haccesses, hpaths, hasked.1, List.append_assoc]
        rfl

namespace Advance

variable (h : Advance env level sources l l')

include h

theorem fresh {s : SourceText} (hs : s ∈ sources) :
    l.workspace.files.contains s.path = false :=
  ((h.wanted s.path).mp (List.mem_map_of_mem hs)).2

theorem files : l'.workspace.files = ⟨l.workspace.files.files ++ sources.map SourceText.file⟩ := by
  obtain ⟨resolved, _, hworkspace⟩ := h.workspace
  rw [hworkspace]
  exact insertAll_files (w := l.workspace.connect level resolved) h.separate fun _ => h.fresh

theorem contains {p : Path} (hp : l.workspace.files.contains p = true) :
    l'.workspace.files.contains p = true := by
  rw [h.files, FileStore.contains_append, Bool.or_eq_true]
  exact Or.inl hp

/-- A file that is not of the level keeps its edges. -/
theorem dependencies_of_not_isIn {p : Path}
    (hp : isIn p (level.map SourceText.path) = false) :
    l'.workspace.graph.dependencies p = l.workspace.graph.dependencies p := by
  obtain ⟨resolved, _, hworkspace⟩ := h.workspace
  rw [hworkspace, insertAll_graph, dependencies_connect, hp]
  rfl

/-- A file of the level gets the edges of its text. -/
theorem dependencies_of_mem (hlevel : Separate level) {s : SourceText} (hs : s ∈ level) :
    l'.workspace.graph.dependencies s.path = s.edges env.resolve := by
  obtain ⟨resolved, hresolved, hworkspace⟩ := h.workspace
  rw [hworkspace, insertAll_graph, dependencies_connect, isIn_of_mem (List.mem_map_of_mem hs)]
  exact edgesOf_resolved hresolved hlevel hs

/-- The targets of the level are there: they were before, or they have been read. -/
theorem contains_target {s : SourceText} (hs : s ∈ level) {d : Dependency}
    (hd : d ∈ s.edges env.resolve) : l'.workspace.files.contains d.target = true := by
  cases hc : l.workspace.files.contains d.target with
  | true => exact h.contains hc
  | false =>
    obtain ⟨t, ht, he⟩ := List.mem_map.mp ((h.wanted d.target).mpr ⟨⟨s, hs, d, hd, rfl⟩, hc⟩)
    rw [h.files, FileStore.contains_append, Bool.or_eq_true, List.any_map]
    refine Or.inr (List.any_eq_true.mpr ⟨t, ht, ?_⟩)
    show (t.path.normalize == d.target.normalize) = true
    rw [he]
    exact BEq.rfl

end Advance

end Workspace

end TypeScriptEngine
