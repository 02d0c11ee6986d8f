import TypeScriptEngine.Proofs.Engine.Reachable

/-! # What an instance tracks

The main results about the workspace of a reachable instance: its edges are those of the texts that
it stores (`edges_of_texts`), a step that fails in a load leaves the workspace as it was
(`failed_load_restores`), and tracking a new file takes in the files behind it and nothing else
(`ensure_takes_in_behind`).
-/

namespace TypeScriptEngine.Instance

open TypeScriptEngine.Graph TypeScriptEngine.Path Workspace

variable {allowed : Surroundings → Prop} {resolve : Resolver} {i : Instance}

/-! ## Edges and texts -/

/-- **The graph is that of the stored texts.**  Its two views agree, its edges lead from tracked
files to tracked files, and the edges of each file are those of the references in its text, in
order. -/
theorem edges_of_texts (h : Reachable (fun env => env.resolve = resolve) i) :
    i.workspace.graph.isConsistent = true ∧
    (∀ s t, isIn s (i.workspace.graph.dependents t) =
      (i.workspace.graph.dependencies s).any fun d => d.target == t) ∧
    (∀ s, ∀ d ∈ i.workspace.graph.dependencies s, i.tracks s = true ∧ i.tracks d.target = true) ∧
    ∀ file ∈ i.workspace.files.files, (source file).Resolves resolve ∧
      i.workspace.graph.dependencies file.path = (source file).edges resolve := by
  have hw := h.wellKept
  refine ⟨hw.graph.isConsistent, hw.graph.mirror, fun s d hd => ?_, h.faithful⟩
  exact ⟨hw.sources s (List.ne_nil_of_mem hd), (hw.targets s d hd).2⟩

/-- After a file of the small project has been built, which has one edge. -/
theorem edges_of_texts_smallBuild :
    ∃ i, smallBuild = .ok i ∧ i.tracks ⟨"/p/b.ts"⟩ = true ∧
      (i.workspace.graph.dependencies ⟨"/p/a.ts"⟩).length = 1 ∧
      i.workspace.graph.isConsistent = true ∧
      ∀ file ∈ i.workspace.files.files,
        i.workspace.graph.dependencies file.path = (source file).edges smallProject.resolve := by
  obtain ⟨i, hi, h, _⟩ := reachable_smallBuild (fun env => env.resolve = smallProject.resolve) rfl
  have hchecks : (smallBuild.toOption.any fun i => i.tracks ⟨"/p/b.ts"⟩ &&
      (i.workspace.graph.dependencies ⟨"/p/a.ts"⟩).length == 1) = true := by decide +kernel
  rw [hi] at hchecks
  obtain ⟨htracks, hlength⟩ := Bool.and_eq_true _ _ ▸ hchecks
  have hedges := edges_of_texts h
  exact ⟨i, hi, htracks, beq_iff_eq.mp hlength, hedges.1,
    fun file hfile => (hedges.2.2.2 file hfile).2⟩

/-! ## Failures -/

/-- A step that gives a tracked file another text fails only by a refresh that was undone. -/
theorem same_of_reload_error {env : Surroundings} (hw : i.workspace.WellKept) {p : Path}
    (hp : i.tracks p = true) {text : String} {e : EngineError}
    (h : (i.refresh env p text).result = .error e) :
    i.workspace.Same (i.refresh env p text).state.workspace := by
  have hresult : (i.workspace.refresh env p text).result = .error e := h
  refine (undone_of_refused hw hp fun hok => ?_).same
  rw [hresult] at hok
  contradiction

theorem same_of_ensure_error {env : Surroundings} (hw : i.workspace.WellKept) {p : Path}
    {text : String} {e : EngineError} (h : (i.ensure env p text).result = .error e) :
    i.workspace.Same (i.ensure env p text).state.workspace := by
  have hresult : (i.workspace.ensure env p text).result = .error e := h
  cases hp : i.workspace.files.contains p with
  | true =>
    rw [ensure_of_contains hp] at hresult
    contradiction
  | false =>
    rcases ensure_cases env hw hp text with ⟨_, _, he⟩ | ⟨hundone, _⟩
    · rw [he] at hresult
      contradiction
    · exact hundone.same

theorem same_of_takeIn_error {env : Surroundings} {r : CompileRequest}
    (hw : i.workspace.WellKept) {e : EngineError} (h : (i.takeIn env r).result = .error e) :
    i.workspace.Same (i.takeIn env r).state.workspace := by
  unfold takeIn at h ⊢
  split at h
  · exact same_of_ensure_error hw h
  · rename_i file hfile
    simp only at h ⊢
    split at h
    · rw [Outcome.result_andThen_of_ok rfl] at h
      contradiction
    · rename_i htext
      rw [if_neg htext]
      cases hrefresh : (i.refresh env r.file r.text).result with
      | ok _ =>
        rw [Outcome.result_andThen_of_ok hrefresh] at h
        contradiction
      | error e' =>
        rw [Outcome.andThen_of_error hrefresh]
        exact same_of_reload_error hw (contains_of_get? hfile) hrefresh

/-- What is emitted fails with a missing output only. -/
theorem produce_error {r : CompileRequest} {e : EngineError}
    (h : (i.produce r).1 = .error e) : ¬ e.IsLoadFailure := by
  unfold produce at h
  simp only at h
  split at h
  · contradiction
  · split at h
    · contradiction
    · obtain rfl := Except.error.inj h
      exact fun hf => hf

/-- A file of another project is missed by its own name. -/
theorem compileOwned_error {env : Surroundings} {reference : ProjectReference}
    {r : CompileRequest} {e : EngineError}
    (h : (i.compileOwned env reference r).result = .error e) : ¬ e.IsLoadFailure := by
  unfold compileOwned at h
  simp only at h
  cases hread : env.disk.read (reference.outputOf r.file) with
  | error cause =>
    rw [hread] at h
    obtain rfl := Except.error.inj h
    exact fun hf => hf
  | ok code =>
    rw [hread] at h
    simp only at h
    generalize i.checkMap env.disk (reference.outputOf r.file) reference = checked at h
    generalize finishMap r _ = finished at h
    cases h

theorem same_of_compile_error {env : Surroundings} {r : CompileRequest}
    (hw : i.workspace.WellKept) {e : EngineError} (h : (i.compile env r).result = .error e)
    (he : e.IsLoadFailure) : i.workspace.Same (i.compile env r).state.workspace := by
  unfold compile at h ⊢
  split at h
  · exact absurd he (compileOwned_error h)
  · cases htake : (i.takeIn env r).result with
    | ok _ =>
      rw [Outcome.result_andThen_of_ok htake] at h
      exact absurd he (produce_error h)
    | error e' =>
      rw [Outcome.andThen_of_error htake]
      exact same_of_takeIn_error hw htake

theorem same_of_notifyChanged_error {env : Surroundings} {p : Path}
    (hw : i.workspace.WellKept) {e : EngineError}
    (h : (i.notifyChanged env p).result = .error e) :
    i.workspace.Same (i.notifyChanged env p).state.workspace := by
  unfold notifyChanged at h ⊢
  simp only at h ⊢
  split at h
  · contradiction
  · rename_i htracked
    rw [if_neg htracked]
    rw [Bool.not_eq_true', Bool.not_eq_false] at htracked
    split at h
    · exact .refl _
    · rename_i text _
      rw [Outcome.result_andThen_of_ok rfl] at h
      rw [Outcome.state_andThen_of_ok rfl]
      cases hrefresh : (i.refresh env p.normalize text).result with
      | ok _ =>
        rw [Outcome.result_andThen_of_ok hrefresh] at h
        contradiction
      | error e' =>
        rw [Outcome.andThen_of_error hrefresh]
        exact same_of_reload_error hw htracked hrefresh

/-- **A load that fails changes nothing.**  Neither the files, nor the edges from or to any file,
nor the noted times differ after tracking a file, after giving a tracked file other references,
after building a file, or after being told of a change, if that failed because of a reference that
leads nowhere or a file that cannot be read. -/
theorem failed_load_restores (h : Reachable allowed i) (env : Surroundings) :
    (∀ p text e, (i.ensure env p text).result = .error e →
      i.workspace.Same (i.ensure env p text).state.workspace) ∧
    (∀ p text e, i.tracks p = true → (i.refresh env p text).result = .error e →
      i.workspace.Same (i.refresh env p text).state.workspace) ∧
    (∀ r e, (i.compile env r).result = .error e → e.IsLoadFailure →
      i.workspace.Same (i.compile env r).state.workspace) ∧
    ∀ p e, (i.notifyChanged env p).result = .error e → e.IsLoadFailure →
      i.workspace.Same (i.notifyChanged env p).state.workspace := by
  have hw := h.wellKept
  refine ⟨?_, ?_, ?_, ?_⟩
  · exact fun p text e he => same_of_ensure_error hw he
  · exact fun p text e hp he => same_of_reload_error hw hp he
  · exact fun r e he hload => same_of_compile_error hw he hload
  · exact fun p e he _ => same_of_notifyChanged_error hw he

/-- Whether a result is a failure of a load. -/
def failsToLoad {α : Type} : Except EngineError α → Bool
  | .error e => decide e.IsLoadFailure
  | .ok _ => false

theorem exists_of_failsToLoad {α : Type} {result : Except EngineError α}
    (h : failsToLoad result = true) : ∃ e, result = .error e ∧ e.IsLoadFailure := by
  cases result with
  | ok _ => contradiction
  | error e => exact ⟨e, rfl, of_decide_eq_true h⟩

/-- Where nothing is found any more, an instance that has built the small project cannot track a new
file, give one other references, build it again or read it again, and nothing changes. -/
theorem failed_load_restores_smallBuild :
    ∃ i, smallBuild = .ok i ∧
      failsToLoad (i.ensure deadEnds ⟨"/p/c.ts"⟩ "import './b';").result = true ∧
      failsToLoad (i.compile deadEnds
        ⟨⟨"/p/a.ts"⟩, "import './c';", ⟨"/p"⟩, none⟩).result = true ∧
      failsToLoad (i.notifyChanged deadEnds ⟨"/p/b.ts"⟩).result = true ∧
      i.workspace.Same (i.ensure deadEnds ⟨"/p/c.ts"⟩ "import './b';").state.workspace ∧
      i.workspace.Same (i.compile deadEnds
        ⟨⟨"/p/a.ts"⟩, "import './c';", ⟨"/p"⟩, none⟩).state.workspace ∧
      i.workspace.Same (i.notifyChanged deadEnds ⟨"/p/b.ts"⟩).state.workspace := by
  obtain ⟨i, hi, h, _⟩ := reachable_smallBuild (fun _ => True) trivial
  have hfails : (smallBuild.toOption.any fun i =>
      failsToLoad (i.ensure deadEnds ⟨"/p/c.ts"⟩ "import './b';").result &&
      failsToLoad (i.compile deadEnds
        ⟨⟨"/p/a.ts"⟩, "import './c';", ⟨"/p"⟩, none⟩).result &&
      failsToLoad (i.notifyChanged deadEnds ⟨"/p/b.ts"⟩).result) = true := by decide +kernel
  rw [hi] at hfails
  obtain ⟨hboth, hnotify⟩ := Bool.and_eq_true _ _ ▸ hfails
  obtain ⟨hensure, hcompile⟩ := Bool.and_eq_true _ _ ▸ hboth
  obtain ⟨e, he, _⟩ := exists_of_failsToLoad hensure
  obtain ⟨e', he', hload'⟩ := exists_of_failsToLoad hcompile
  obtain ⟨e'', he'', hload''⟩ := exists_of_failsToLoad hnotify
  have hrestores := failed_load_restores h deadEnds
  exact ⟨i, hi, hensure, hcompile, hnotify, hrestores.1 _ _ e he,
    hrestores.2.2.1 _ e' he' hload', hrestores.2.2.2 _ e'' he'' hload''⟩

/-! ## First loads -/

/-- Tracking a new file has taken in `root` and the files `new` behind it. -/
structure TookIn (env : Surroundings) (i : Instance) (root : SourceText) (new : List SourceText)
    (o : Outcome Instance Unit) : Prop where
  /-- The new files stand behind the old ones, with their texts and at version zero. -/
  files : o.state.workspace.files.files =
    i.workspace.files.files ++ (root :: new).map SourceText.file
  distinct : ((root :: new).map SourceText.path).Nodup
  untracked : ∀ s ∈ root :: new, i.tracks s.path = false
  /-- They are the files behind the root, no more and no fewer. -/
  behind : ∀ p, p ∈ (root :: new).map SourceText.path ↔ Behind env i.workspace root p
  texts : ∀ s ∈ new, env.disk.read s.path = .ok s.text
  /-- Each was read once. -/
  reads : o.accesses.filterMap Access.read? = new.map SourceText.path
  /-- Each reference of each was resolved once. -/
  questions : o.accesses.filterMap Access.question? = (root :: new).flatMap SourceText.questions
  /-- The files that were tracked before keep their edges. -/
  edges : ∀ p, i.tracks p = true →
    o.state.workspace.graph.dependencies p = i.workspace.graph.dependencies p

/-- A load of a new file that ends well takes in the file and those behind it. -/
theorem tookIn_of_progress {env : Surroundings} {root : SourceText} {before : List Path}
    {taken : List SourceText} {l : Loading} (hw : i.workspace.WellKept)
    (hnormal : root.path.IsNormal) (hroot : i.tracks root.path = false)
    (h : Progress env (i.workspace.insertNew env.disk root) root before (root :: taken) [] taken
      l) : TookIn env i root taken ⟨i.withWorkspace l.workspace, l.accesses, .ok ()⟩ := by
  have hextension := h.extension.of_insertNew hw hnormal hroot
  have htracked := (hw.insertNew env.disk hroot).2
  refine ⟨congrArg FileStore.files hextension.files, hextension.separate.distinct,
    hextension.fresh, fun p => ?_, h.texts, h.reads, h.asked, fun p hp => ?_⟩
  · rw [← behind_insertNew_iff env.disk hnormal hroot]
    constructor
    · intro hp
      obtain ⟨s, hs, rfl⟩ := List.mem_map.mp hp
      exact h.behind_of_mem (List.mem_cons.mp hs)
    · intro hp
      obtain ⟨s, hs, rfl⟩ := h.complete htracked hp
      exact List.mem_map_of_mem (List.mem_cons.mpr hs)
  · exact hextension.dependencies p (FileStore.beq_eq_false hroot hp)
      (hextension.isIn_eq_false hp)

/-- **Tracking a new file takes in what lies behind it.**  The loop over the levels of references
comes to an end, whatever the file tree and the resolver are, and if it ends well then the new files
are exactly the file and those behind it. -/
theorem ensure_takes_in_behind (h : Reachable allowed i) (env : Surroundings) {p : Path}
    (hp : i.tracks p = false) (text : String) :
    (∃ l, Loads env [⟨p.normalize, text⟩]
        ⟨i.workspace.insertNew env.disk ⟨p.normalize, text⟩, [p.normalize], [], none⟩ l ∧
      i.ensure env p text =
        match l.failure with
        | none => ⟨i.withWorkspace l.workspace, l.accesses, .ok ()⟩
        | some e => ⟨i.withWorkspace (l.workspace.rollBack l.inserted), l.accesses, .error e⟩) ∧
    ((i.ensure env p text).result = .ok () →
      ∃ new, TookIn env i ⟨p.normalize, text⟩ new (i.ensure env p text)) := by
  have hw := h.wellKept
  have hnormal : (⟨p.normalize, text⟩ : SourceText).path.IsNormal := isNormal_normalize p
  have hroot : i.tracks (⟨p.normalize, text⟩ : SourceText).path = false :=
    (FileStore.contains_normalize _ p).trans hp
  obtain ⟨hw', htracked⟩ := hw.insertNew env.disk hroot
  constructor
  · refine ⟨firstLoad env i.workspace ⟨p.normalize, text⟩, loads_load hw' hnormal htracked, ?_⟩
    unfold Instance.ensure
    cases hfailure : (firstLoad env i.workspace ⟨p.normalize, text⟩).failure with
    | none =>
      rw [ensure_of_failure_none hp text hfailure]
      rfl
    | some e =>
      rw [ensure_of_failure hp text hfailure]
      rfl
  · intro hok
    have hresult : (i.workspace.ensure env p text).result = .ok () := hok
    rcases ensure_cases env hw hp text with ⟨taken, hload, he⟩ | ⟨hundone, _⟩
    · refine ⟨taken, ?_⟩
      unfold Instance.ensure
      rw [he]
      exact tookIn_of_progress hw hnormal hroot hload
    · obtain ⟨e, he, _⟩ := hundone.failure
      rw [hresult] at he
      contradiction

/-- In a new instance for the small project, a file that refers to the one of the project is tracked
together with it. -/
theorem ensure_takes_in_behind_smallProject :
    ∃ i, smallStart = .ok i ∧ i.tracks ⟨"/p/a.ts"⟩ = false ∧
      (i.ensure smallProject ⟨"/p/a.ts"⟩ "import './b';").result = .ok () ∧
      ∃ new, new.length = 1 ∧ TookIn smallProject i ⟨Path.normalize ⟨"/p/a.ts"⟩, "import './b';"⟩
        new (i.ensure smallProject ⟨"/p/a.ts"⟩ "import './b';") := by
  obtain ⟨i, hi, h, _⟩ := reachable_smallStart (fun _ => True)
  have hchecks : (smallStart.toOption.any fun i => !i.tracks ⟨"/p/a.ts"⟩ &&
      (i.ensure smallProject ⟨"/p/a.ts"⟩ "import './b';").result.isOk &&
      ((i.ensure smallProject ⟨"/p/a.ts"⟩ "import './b';").accesses.filterMap
        Access.read?).length == 1) = true := by decide +kernel
  rw [hi] at hchecks
  obtain ⟨hboth, hreads⟩ := Bool.and_eq_true _ _ ▸ hchecks
  obtain ⟨hnew, hok⟩ := Bool.and_eq_true _ _ ▸ hboth
  have hnew : i.tracks ⟨"/p/a.ts"⟩ = false := Bool.not_eq_true' _ ▸ hnew
  have hok : (i.ensure smallProject ⟨"/p/a.ts"⟩ "import './b';").result = .ok () := by
    cases hresult : (i.ensure smallProject ⟨"/p/a.ts"⟩ "import './b';").result with
    | ok _ => rfl
    | error e =>
      rw [hresult] at hok
      contradiction
  obtain ⟨new, htook⟩ := (ensure_takes_in_behind h smallProject hnew "import './b';").2 hok
  refine ⟨i, hi, hnew, hok, new, ?_, htook⟩
  rw [htook.reads, List.length_map] at hreads
  exact beq_iff_eq.mp hreads

/-- **Tracking a new file succeeds if nothing behind it is amiss,** and only then. -/
theorem ensure_ok_iff (h : Reachable allowed i) (env : Surroundings) {p : Path}
    (hp : i.tracks p = false) (text : String) :
    (i.ensure env p text).result = .ok () ↔ ¬ Stuck env i.workspace ⟨p.normalize, text⟩ := by
  have hw := h.wellKept
  have hnormal : (⟨p.normalize, text⟩ : SourceText).path.IsNormal := isNormal_normalize p
  have hroot : i.workspace.files.contains (⟨p.normalize, text⟩ : SourceText).path = false :=
    (FileStore.contains_normalize _ p).trans hp
  show (i.workspace.ensure env p text).result = .ok () ↔ _
  rcases ensure_cases env hw hp text with ⟨taken, hload, he⟩ | ⟨hundone, hstuck⟩
  · rw [he, ← stuck_insertNew_iff env.disk hnormal hroot]
    exact ⟨fun _ => hload.not_stuck (hw.insertNew env.disk hroot).2, fun _ => rfl⟩
  · obtain ⟨e, he, _⟩ := hundone.failure
    rw [he]
    exact ⟨fun hok => by contradiction, fun hfree => absurd hstuck hfree⟩

end TypeScriptEngine.Instance
