import TypeScriptEngine.Proofs.Engine.Answers
import TypeScriptEngine.Proofs.Service.Locality
import TypeScriptEngine.Proofs.Workspace.Change

/-! # Which answers a change makes stale

A declaration file that is read again, or built, can change the answers about the files that depend
on it.  The host is told which ones these are: the files that depend on it in the graph behind the
step (`mem_otherDependents_iff`).  That graph is enough, although the step may add and drop edges of
the file: a file that depended on it before the step still does, because a path to the file takes
only edges of files that stay.  For all others the answers are the same as before
(`invalidation_is_exact`).
-/

namespace TypeScriptEngine

open TypeScriptEngine.Graph TypeScriptEngine.Path DependencyGraph Workspace

@[simp] theorem Outcome.pure_state {σ α : Type} (state : σ) (a : α) :
    (Outcome.pure state a).state = state := rfl

namespace Instance

variable {allowed : Surroundings → Prop} {env : Surroundings} {i i' : Instance} {p t : Path}

/-! ## Reported files -/

/-- **The reported files are those that depend on the file,** itself excepted. -/
theorem mem_otherDependents_iff (hw : i.workspace.WellKept) (ht : t.IsNormal) :
    p ∈ i.otherDependents t ↔ p.IsNormal ∧ p ≠ t ∧ i.workspace.graph.DependsOn p t := by
  have hiff := hw.graph.isIn_transitiveDependents (s := p) hw.normalTargets ht
  have hnormal : ∀ q ∈ i.workspace.graph.transitiveDependents t, q.IsNormal := by
    intro q hq
    obtain ⟨s, hs⟩ := exists_mem_dependents hq
    exact hw.dependents s q hs
  unfold otherDependents
  rw [List.mem_filter, Bool.not_eq_true']
  constructor
  · rintro ⟨hp, hne⟩
    refine ⟨hnormal p hp, ?_, hiff.mp (isIn_of_mem hp)⟩
    rintro rfl
    rw [BEq.rfl] at hne
    contradiction
  · rintro ⟨hp, hne, hpath⟩
    obtain ⟨q, hq, he⟩ := isIn_iff.mp (hiff.mpr hpath)
    obtain rfl := (hnormal q hq).eq_of_beq hp he
    refine ⟨hq, ?_⟩
    by_contra hb
    exact hne (hp.eq_of_beq ht (Bool.not_eq_false _ ▸ hb))

/-! ## Steps that change one file -/

/-- A tracked file can be read again, and its references lead somewhere. -/
structure Reloads (env : Surroundings) (i : Instance) (p : Path) (text : String) : Prop where
  tracked : i.tracks p = true
  read : env.disk.read p = .ok text
  refreshed : (i.workspace.refresh env p text).result = .ok ()

/-- The instance with another text for a file, and with the references of that text. -/
def reloaded (i : Instance) (env : Surroundings) (p : Path) (text : String) : Instance :=
  i.withWorkspace ((i.workspace.refresh env p text).state.setText env.disk p text)

/-- What the host is told about a file that was read again. -/
def invalidationOf (i : Instance) (p : Path) : Invalidation :=
  ⟨p, i.versionOf p, i.otherDependents p⟩

/-- What becomes of a file that can be read again. -/
theorem Reloads.notifyChanged_eq {text : String} (h : Reloads env i p.normalize text) :
    (i.notifyChanged env p).state = i.reloaded env p.normalize text ∧
      (i.notifyChanged env p).result =
        .ok (some ((i.reloaded env p.normalize text).invalidationOf p.normalize)) := by
  have hrefresh : (i.refresh env p.normalize text).result = .ok () := h.refreshed
  unfold notifyChanged
  simp only [h.tracked, h.read, Bool.not_true, Bool.false_eq_true, if_false]
  rw [Outcome.state_andThen_of_ok rfl, Outcome.result_andThen_of_ok rfl,
    Outcome.state_andThen_of_ok hrefresh, Outcome.result_andThen_of_ok hrefresh]
  exact ⟨rfl, rfl⟩

/-- There is something to tell of tracked files only. -/
theorem tracks_of_notified {found : Invalidation}
    (h : (i.notifyChanged env p).result = .ok (some found)) : i.tracks p.normalize = true := by
  by_contra htracked
  unfold notifyChanged at h
  simp only [Bool.not_eq_true _ ▸ htracked, Bool.not_false, if_true] at h
  cases h

/-- A tracked file for which nothing fails could be read again. -/
theorem exists_reloads {found : Option Invalidation} (htracked : i.tracks p.normalize = true)
    (h : (i.notifyChanged env p).result = .ok found) : ∃ text, Reloads env i p.normalize text := by
  unfold notifyChanged at h
  simp only [htracked, Bool.not_true, Bool.false_eq_true, if_false] at h
  split at h
  · contradiction
  · rename_i text htext
    refine ⟨text, htracked, htext, ?_⟩
    rw [Outcome.result_andThen_of_ok rfl] at h
    cases hrefresh : (i.refresh env p.normalize text).result with
    | error e =>
      rw [Outcome.andThen_of_error hrefresh] at h
      contradiction
    | ok a => exact hrefresh

@[simp] theorem workspace_withWorkspace (i : Instance) (w : Workspace) :
    (i.withWorkspace w).workspace = w := rfl

theorem refresh_state (i : Instance) (env : Surroundings) (p : Path) (text : String) :
    (i.refresh env p text).state =
      i.withWorkspace (i.workspace.refresh env p text).state := rfl

theorem store_withWorkspace (i : Instance) (w : Workspace) (disk : Disk) (p : Path)
    (text : String) :
    (i.withWorkspace w).store disk p text = i.withWorkspace (w.setText disk p text) := rfl

theorem workspace_store (i : Instance) (disk : Disk) (p : Path) (text : String) :
    (i.store disk p text).workspace = i.workspace.setText disk p text := rfl

theorem files_store (i : Instance) (disk : Disk) (p : Path) (text : String) :
    (i.store disk p text).workspace.files = i.workspace.files.upsert p text := by
  rw [workspace_store, setText_files]

/-- Tracking a file changes no other. -/
theorem changesOnly_ensure (hw : i.workspace.WellKept) (hp : p.IsNormal) {text : String}
    (hnew : i.workspace.files.contains p = false)
    (h : (i.workspace.ensure env p text).result = .ok ()) :
    ChangesOnly (· = p) i.workspace (i.workspace.ensure env p text).state := by
  rcases ensure_cases env hw hnew text with ⟨taken, hload, he⟩ | ⟨hundone, _⟩
  · rw [he]
    rw [hp] at hload ⊢
    exact (hload.toLinked_cons hw hp hnew).changesOnly hp
  · obtain ⟨e, he, _⟩ := hundone.failure
    rw [h] at he
    contradiction

/-- **Taking in the text of a file changes that file only.** -/
theorem changesOnly_takeIn {r : CompileRequest} (hw : i.workspace.WellKept)
    (h : (i.takeIn env r).result = .ok ()) :
    ChangesOnly (· = r.file) i.workspace (i.takeIn env r).state.workspace := by
  have hnormal : r.file.IsNormal := isNormal_normalize _
  unfold takeIn at h ⊢
  cases hfile : i.workspace.files.get? r.file with
  | none =>
    rw [hfile] at h
    have hnew : i.workspace.files.contains r.file = false := by
      unfold FileStore.contains
      rw [hfile]
      rfl
    exact changesOnly_ensure hw hnormal hnew h
  | some file =>
    have htracked := contains_of_get? hfile
    rw [hfile] at h
    simp only at h ⊢
    by_cases htext : file.text = r.text
    · rw [if_pos htext, Outcome.state_andThen_of_ok rfl, Outcome.pure_state, workspace_store]
      exact (ChangesOnly.refl _ i.workspace).setText hnormal htracked r.text
    · rw [if_neg htext] at h ⊢
      cases hrefresh : (i.refresh env r.file r.text).result with
      | error e =>
        rw [Outcome.andThen_of_error hrefresh] at h
        cases h
      | ok a =>
        rw [Outcome.state_andThen_of_ok hrefresh]
        rw [refresh_state, Outcome.pure_state, store_withWorkspace, workspace_withWorkspace]
        exact changesOnly_reloaded hw ⟨hnormal, htracked⟩ hrefresh

/-- Emitting and checking leave the workspace alone. -/
theorem workspace_produce (i : Instance) (r : CompileRequest) :
    (i.produce r).2.workspace = i.workspace := by
  unfold produce
  simp only
  repeat' split
  all_goals rfl

/-- What depends on a declaration file is reported with it; for a source nothing is. -/
theorem affected_produce {r : CompileRequest} {output : CompileOutput}
    (h : (i.produce r).1 = .ok output) :
    output.affected =
      if r.file.isDeclaration then (i.produce r).2.otherDependents r.file else [] := by
  unfold otherDependents
  rw [workspace_produce]
  unfold produce at h
  simp only at h
  split at h
  · obtain rfl := Except.ok.inj h
    rfl
  · split at h
    · rename_i hdeclaration
      obtain rfl := Except.ok.inj h
      rw [if_pos hdeclaration]
      rfl
    · cases h

/-- **A build changes one file,** if no referenced project owns it.  If it is a declaration file its
dependents behind the build are reported, and otherwise nothing is. -/
theorem changesOnly_compile {r : CompileRequest} {output : CompileOutput}
    (hw : i.workspace.WellKept) (howner : i.owner? r.file = none)
    (h : (i.compile env r).result = .ok output) :
    ChangesOnly (· = r.file) i.workspace (i.compile env r).state.workspace ∧
      output.affected =
        if r.file.isDeclaration then (i.compile env r).state.otherDependents r.file else [] := by
  unfold compile at h ⊢
  rw [howner] at h ⊢
  simp only at h ⊢
  cases htake : (i.takeIn env r).result with
  | error e =>
    rw [Outcome.andThen_of_error htake] at h
    cases h
  | ok a =>
    rw [Outcome.result_andThen_of_ok htake] at h
    rw [Outcome.state_andThen_of_ok htake]
    refine ⟨?_, affected_produce h⟩
    rw [workspace_produce]
    exact changesOnly_takeIn hw htake

/-- The host has had a file read again or built, and is told which other files are concerned.  What
is built is a declaration file that no referenced project owns. -/
inductive Reports (env : Surroundings) (i : Instance) : HostStep → Path → List Path → Prop where
  | notified {path : Path} {found : Invalidation}
      (h : (i.notifyChanged env path).result = .ok (some found)) :
      Reports env i (.notifyChanged path) path.normalize found.dependents
  | built {r : CompileRequest} {output : CompileOutput} (hdeclaration : r.file.isDeclaration = true)
      (howner : i.owner? r.file = none) (h : (i.compile env r).result = .ok output) :
      Reports env i (.compile r) r.file output.affected

variable {step : HostStep} {reported : List Path}

theorem Reports.normal (h : Reports env i step p reported) : p.IsNormal := by
  cases h with
  | notified _ => exact isNormal_normalize _
  | built _ _ _ => exact isNormal_normalize _

/-- **A step that reports changes one file, and reports the dependents behind it.** -/
theorem Reports.changesOnly (h : Reports env i step p reported) (hw : i.workspace.WellKept) :
    ChangesOnly (· = p) i.workspace (i.after env step).workspace ∧
      reported = (i.after env step).otherDependents p := by
  cases h with
  | @notified path found h =>
    obtain ⟨text, hreloads⟩ := exists_reloads (tracks_of_notified h) h
    obtain ⟨hstate, hresult⟩ := hreloads.notifyChanged_eq
    obtain rfl := Option.some.inj (Except.ok.inj (hresult.symm.trans h))
    show ChangesOnly _ _ (i.notifyChanged env path).state.workspace ∧ _ =
      (i.notifyChanged env path).state.otherDependents _
    rw [hstate]
    exact ⟨changesOnly_reloaded hw ⟨isNormal_normalize path, hreloads.tracked⟩ hreloads.refreshed,
      rfl⟩
  | @built r output hdeclaration howner h =>
    obtain ⟨hchanges, haffected⟩ := changesOnly_compile hw howner h
    rw [if_pos hdeclaration] at haffected
    exact ⟨hchanges, haffected⟩

/-! ## Equal answers -/

/-- What a step leaves of an instance: its settings, its compiler, and what the service sees of
them. -/
structure SameSession (i i' : Instance) : Prop where
  settings : i'.settings = i.settings
  compiler : i'.compiler = i.compiler
  options : i'.options = i.options
  currentDir : i'.currentDir = i.currentDir
  libraries : i'.libraries = i.libraries

theorem Move.sameSession (h : Move env i i') : SameSession i i' := by
  cases h <;> exact ⟨rfl, rfl, rfl, rfl, rfl⟩

theorem sameSession_after (i : Instance) (env : Surroundings) (hw : i.workspace.WellKept)
    (step : HostStep) : SameSession i (i.after env step) := by
  refine (moves_induction (P := SameSession i) ?_ (moves_after i env hw step) hw
    ⟨rfl, rfl, rfl, rfl, rfl⟩).2
  intro j j' hmove _ hj
  have hmove := hmove.sameSession
  exact ⟨hmove.settings.trans hj.settings, hmove.compiler.trans hj.compiler,
    hmove.options.trans hj.options, hmove.currentDir.trans hj.currentDir,
    hmove.libraries.trans hj.libraries⟩

/-- The service says the same about a file: it emits the same code, and finds the same faults. -/
structure SameAnswers (i i' : Instance) (p : Path) : Prop where
  emitted : (i'.ask (i'.compiler.service.emit i'.hostView p)).1 =
    (i.ask (i.compiler.service.emit i.hostView p)).1
  syntactic : (i'.ask (i'.compiler.service.syntacticDiagnostics i'.hostView p)).1 =
    (i.ask (i.compiler.service.syntacticDiagnostics i.hostView p)).1
  semantic : (i'.ask (i'.compiler.service.semanticDiagnostics i'.hostView p)).1 =
    (i.ask (i.compiler.service.semanticDiagnostics i.hostView p)).1

/-- A file that stays, with all that it depends on, is shown to the service as before. -/
theorem showsAlike_of_untouched {changed : Path → Prop} (hsession : SameSession i i')
    (h : ChangesOnly changed i.workspace i'.workspace) (hw : i.workspace.WellKept)
    (hw' : i'.workspace.WellKept) (hp : Untouched changed i.workspace i'.workspace p) :
    Builtin.ShowsAlike i.hostView i'.hostView p where
  options := hsession.options
  currentDir := hsession.currentDir
  libraries := hsession.libraries
  file := h.files p hp.tracks hp.unchanged
  dependencies := hp.transitiveDependencies_eq h hw hw'
  others := by
    intro q hq _
    have hnormal := isNormal_of_mem_transitiveDependencies hw.normalTargets hq
    have hpath := (isIn_transitiveDependencies hw.normalTargets hnormal).mp (isIn_of_mem hq)
    have huntouched := hp.of_dependsOn h hw hpath
    exact h.files q huntouched.tracks huntouched.unchanged

theorem sameAnswers_of_showsAlike (hcompiler : i.compiler = builtinCompiler)
    (hsession : SameSession i i') (hw : i.workspace.WellKept) (hw' : i'.workspace.WellKept)
    (hsound : Builtin.Sound i.hostView i.cache) (hsound' : Builtin.Sound i'.hostView i'.cache)
    (h : Builtin.ShowsAlike i.hostView i'.hostView p) : SameAnswers i i' p := by
  have hcompiler' : i'.compiler = builtinCompiler := hsession.compiler.trans hcompiler
  constructor <;> rw [hcompiler, hcompiler']
  · exact (h.emit hw.files hw'.files).answer_eq hsound hsound'
  · exact (h.syntacticDiagnostics hw.files hw'.files).answer_eq hsound hsound'
  · exact (h.semanticDiagnostics hw.files hw'.files).answer_eq hsound hsound'

/-- **What is reported is what has to be looked at again.**  When a declaration file has been read
again or built, the reported files are exactly the others that depend on it now; and for each file
that was tracked before, is not that file and is not reported, the built-in service has the same
answers as before. -/
theorem invalidation_is_exact (h : Reachable allowed i) (henv : allowed env)
    (hreports : Reports env i step p reported) :
    (∀ q, q ∈ reported ↔
      q.IsNormal ∧ q ≠ p ∧ (i.after env step).workspace.graph.DependsOn q p) ∧
    (i.compiler = builtinCompiler →
      ∀ file ∈ i.workspace.files.files, file.path ≠ p → file.path ∉ reported →
        SameAnswers i (i.after env step) file.path) := by
  have hw := h.wellKept
  have h' := h.after henv step
  have hw' := h'.wellKept
  have hsession := sameSession_after i env hw step
  obtain ⟨hchanges, rfl⟩ := hreports.changesOnly hw
  have hreported := fun q => mem_otherDependents_iff (p := q) hw' hreports.normal
  refine ⟨hreported, fun hcompiler file hfile hne hout => ?_⟩
  have htracks := hw.tracks_of_mem hfile
  have huntouched : Untouched (· = p) i.workspace (i.after env step).workspace file.path := by
    refine ⟨htracks, hne, ?_⟩
    rintro r rfl hpath
    exact hout ((hreported _).mpr ⟨htracks.normal, hne, hpath⟩)
  exact sameAnswers_of_showsAlike hcompiler hsession hw hw' (h.sound hcompiler)
    (h'.sound (hsession.compiler.trans hcompiler))
    (showsAlike_of_untouched hsession hchanges hw hw' huntouched)

/-- A tree with declarations of the given text in a directory of their own, and others that are
empty.  From the top of the tree specifiers lead to the first, and from there to the others. -/
def declaredProject (text : String) : Surroundings where
  disk := ⟨[], [(["p"], .directory 0), (["p", "q"], .directory 0),
    (["p", "q", "g.d.ts"], .file (some text) 0), (["p", "h.d.ts"], .file (some "") 0)]⟩
  resolve context _ := .ok (if context == ⟨"/p"⟩ then ⟨"/p/q/g.d.ts"⟩ else ⟨"/p/h.d.ts"⟩)

/-- The instance that has built a file that refers to the declarations. -/
def declaredBuild : Except EngineError Instance :=
  smallStart.map fun i => i.after (declaredProject "import '../h';")
    (.compile ⟨⟨"/p/a.ts"⟩, "import './q/g';", ⟨"/p"⟩, none⟩)

theorem reachable_declaredBuild (allowed : Surroundings → Prop)
    (h : allowed (declaredProject "import '../h';")) :
    ∃ i, declaredBuild = .ok i ∧ Reachable allowed i ∧ i.compiler = builtinCompiler := by
  obtain ⟨i, hstart, hi, hcompiler⟩ := reachable_smallStart allowed
  refine ⟨_, by rw [declaredBuild, hstart]; rfl, hi.after h _, ?_⟩
  rw [compiler_after _ _ hi.wellKept]
  exact hcompiler

/-- When the declarations drop their reference and declare a name, the file that refers to them is
reported, and those that they referred to keep their answers. -/
theorem invalidation_is_exact_declaredBuild :
    ∃ i found, declaredBuild = .ok i ∧
      (i.notifyChanged (declaredProject "declare let x: number;") ⟨"/p/q/g.d.ts"⟩).result =
        .ok (some found) ∧
      (⟨"/p/a.ts"⟩ : Path) ∈ found.dependents ∧
      i.tracks ⟨"/p/h.d.ts"⟩ = true ∧
      SameAnswers i (i.after (declaredProject "declare let x: number;")
        (.notifyChanged ⟨"/p/q/g.d.ts"⟩)) ⟨"/p/h.d.ts"⟩ := by
  obtain ⟨i, hi, h, hcompiler⟩ := reachable_declaredBuild (fun _ => True) trivial
  have hchecks : (declaredBuild.toOption.any fun i =>
      let x := i.notifyChanged (declaredProject "declare let x: number;") ⟨"/p/q/g.d.ts"⟩
      x.result.toOption.any Option.isSome &&
        (x.state.workspace.graph.dependencies ⟨"/p/a.ts"⟩).any (·.target == ⟨"/p/q/g.d.ts"⟩) &&
        (x.state.workspace.graph.dependencies ⟨"/p/h.d.ts"⟩).isEmpty &&
        i.tracks ⟨"/p/h.d.ts"⟩) = true := by decide +kernel
  rw [hi] at hchecks
  simp only [Except.toOption, Option.any_some, Bool.and_eq_true] at hchecks
  obtain ⟨⟨⟨hfound, hrefers⟩, hnone⟩, htracks⟩ := hchecks
  cases hresult : (i.notifyChanged (declaredProject "declare let x: number;")
      ⟨"/p/q/g.d.ts"⟩).result with
  | error e =>
    rw [hresult] at hfound
    contradiction
  | ok found =>
    cases found with
    | none =>
      rw [hresult] at hfound
      contradiction
    | some found =>
      obtain ⟨hreported, hanswers⟩ :=
        invalidation_is_exact h trivial (.notified hresult)
      have hnormal : (⟨"/p/q/g.d.ts"⟩ : Path).normalize = ⟨"/p/q/g.d.ts"⟩ := rfl
      rw [hnormal] at hreported hanswers
      have hafter : Reachable (fun _ => True) (i.after (declaredProject "declare let x: number;")
          (.notifyChanged ⟨"/p/q/g.d.ts"⟩)) := h.after trivial _
      have hw' := hafter.wellKept
      obtain ⟨d, hd, hbeq⟩ := List.any_eq_true.mp hrefers
      have htarget := (hw'.targets _ d hd).1.eq_of_beq hnormal hbeq
      obtain ⟨file, hfile, hpath⟩ := h.wellKept.files.contains_iff.mp htracks
      have hother : (⟨"/p/h.d.ts"⟩ : Path).normalize = ⟨"/p/h.d.ts"⟩ := rfl
      rw [hother] at hpath
      refine ⟨i, found, hi, hresult, (hreported _).mpr ⟨rfl, by simp, .single ⟨d, hd, htarget⟩⟩,
        htracks, ?_⟩
      rw [← hpath]
      refine hanswers hcompiler file hfile ?_ ?_
      · rw [hpath]
        simp
      · rw [hpath, hreported]
        rintro ⟨_, _, hpath⟩
        -- the other declarations refer to nothing
        obtain ⟨_, ⟨d, hd, _⟩, _⟩ := Relation.TransGen.head'_iff.mp hpath
        exact List.ne_nil_of_mem hd (List.isEmpty_iff.mp hnone)

end Instance

end TypeScriptEngine
