import TypeScriptEngine.Engine.Registry
import TypeScriptEngine.Proofs.Engine.Mirror
import TypeScriptEngine.Proofs.Workspace.Targets

/-! # Declaration files of referenced projects

A step has no code to give if none is emitted, or if a referenced project owns the file and has not
written its code (`LacksCode`).  The two cases do not treat declaration files alike.  Of those that
are emitted none is expected to have code.  Of those that are owned all are, so that such a step
fails just if the referenced project has not written what no emission ever writes
(`declaration_fails_iff`, `declaration_missed`).
-/

namespace TypeScriptEngine

open TypeScriptEngine.Path

/-- The failures for lack of code: none was emitted, or a referenced project has not written it. -/
def EngineError.LacksCode : EngineError → Prop
  | .noOutput _ | .referencedOutputMissing .. => True
  | _ => False

instance : DecidablePred EngineError.LacksCode := fun e =>
  match e with
  | .noOutput _ | .referencedOutputMissing .. => isTrue trivial
  | .config .. | .conflictingOptions .. | .unknownCompiler .. | .unresolved ..
  | .unreadable .. => isFalse fun h => h

theorem EngineError.LacksCode.not_isLoadFailure {e : EngineError} (h : e.LacksCode) :
    ¬ e.IsLoadFailure := by
  cases e <;> first | exact h.elim | exact fun hf => hf

/-- Declaration files count as sources of a project. -/
theorem Config.isSource_of_isDeclaration {p : Path} (h : p.isDeclaration = true) :
    isSource p = true := by
  obtain ⟨name, hname, hdeclared⟩ := (Option.any_eq_true _ _).mp h
  have hextension : ∀ extension : String, name.endsWith (".d" ++ "." ++ extension) = true →
      '.' ∉ extension.toList → p.extension? = some extension := fun _ hends hdot => by
    rw [extension?, hname, Option.bind_some, splitName_of_endsWith hends (by decide) hdot,
      Option.map_some, String.ofList_toList]
  unfold isSource
  simp only [isDeclarationName, Bool.or_eq_true] at hdeclared
  obtain (hts | hmts) | hcts := hdeclared
  · rw [hextension "ts" hts (by decide)]
    rfl
  · rw [hextension "mts" hmts (by decide)]
    rfl
  · rw [hextension "cts" hcts (by decide)]
    rfl

namespace Workspace

variable {env : Surroundings} {w : Workspace}

/-- A load fails for no other reason than that it cannot go on. -/
theorem isLoadFailure_of_loadLevels {fuel : Nat} {level : List SourceText} {l : Loading}
    {e : EngineError} (hl : ∀ e, l.failure = some e → e.IsLoadFailure)
    (h : (loadLevels env fuel level l).failure = some e) : e.IsLoadFailure := by
  induction fuel generalizing level l with
  | zero =>
    cases level with
    | nil => exact hl e h
    | cons s level =>
      obtain rfl := Option.some.inj h
      trivial
  | succ fuel ih =>
    cases level with
    | nil => exact hl e h
    | cons s level =>
      rw [loadLevels_eq env fuel (List.cons_ne_nil s level)] at h
      refine ih (fun e he => ?_) h
      rcases advance_cases env (s :: level) l with ⟨hbroken, -⟩ | hadvance
      · obtain ⟨e', he', hload⟩ := hbroken.failure
        rw [he] at he'
        obtain rfl := Option.some.inj he'
        exact hload
      · exact hl e (hadvance.failure ▸ he)

theorem isLoadFailure_of_load {inserted : List Path} {root : SourceText} {e : EngineError}
    (h : (load env w inserted root).failure = some e) : e.IsLoadFailure :=
  isLoadFailure_of_loadLevels (fun _ he => by contradiction) h

theorem isLoadFailure_of_ensure {p : Path} {text : String} {e : EngineError}
    (h : (w.ensure env p text).result = .error e) : e.IsLoadFailure := by
  unfold ensure at h
  simp only at h
  split at h
  · contradiction
  · split at h
    · contradiction
    · rename_i e' he'
      obtain rfl := Except.error.inj h
      exact isLoadFailure_of_load he'

theorem isLoadFailure_of_refresh {p : Path} {text : String} {e : EngineError}
    (h : (w.refresh env p text).result = .error e) : e.IsLoadFailure := by
  unfold refresh at h
  simp only at h
  split at h
  · contradiction
  · rename_i e' he'
    obtain rfl := Except.error.inj h
    exact isLoadFailure_of_load he'

end Workspace

namespace Instance

variable {i : Instance} {env : Surroundings} {r : CompileRequest}

theorem isLoadFailure_of_takeIn {e : EngineError} (h : (i.takeIn env r).result = .error e) :
    e.IsLoadFailure := by
  unfold takeIn at h
  split at h
  · exact Workspace.isLoadFailure_of_ensure (w := i.workspace) h
  · rename_i file hfile
    simp only at h
    split at h
    · rw [Outcome.result_andThen_of_ok rfl] at h
      contradiction
    · cases hrefresh : (i.refresh env r.file r.text).result with
      | ok _ =>
        rw [Outcome.result_andThen_of_ok hrefresh] at h
        contradiction
      | error e' =>
        rw [Outcome.andThen_of_error hrefresh] at h
        obtain rfl := Except.error.inj h
        exact Workspace.isLoadFailure_of_refresh (w := i.workspace) hrefresh

theorem loadConfig_error {disk : Disk} {config : Option Path} {context : Path} {e : EngineError}
    (h : loadConfig disk config context = .error e) : ∃ path reason, e = .config path reason := by
  unfold loadConfig at h
  split at h
  · contradiction
  · split at h
    · contradiction
    · exact ⟨_, _, (Except.error.inj h).symm⟩

theorem layoutOf_error {disk : Disk} {compiler : Compiler} {config : Option Path} {context : Path}
    {references : List Path} {e : EngineError}
    (h : layoutOf disk compiler config context references = .error e) :
    ∃ path reason, e = .config path reason := by
  unfold layoutOf at h
  split at h
  · contradiction
  · split at h
    · contradiction
    · exact ⟨_, _, (Except.error.inj h).symm⟩

/-- What keeps an instance from being made is in its configuration. -/
theorem create_error {disk : Disk} {settings : BuildSettings} {compiler : Compiler}
    {file context : Path} {e : EngineError}
    (h : create disk settings compiler file context = .error e) :
    ∃ path reason, e = .config path reason := by
  unfold create at h
  simp only [bind, Except.bind, pure, Except.pure, throw, throwThe, MonadExceptOf.throw] at h
  split at h
  · rename_i hload
    exact Except.error.inj h ▸ loadConfig_error hload
  split at h
  · split at h
    · rename_i hlayout
      exact Except.error.inj h ▸ layoutOf_error hlayout
    · split at h
      · contradiction
      · exact ⟨_, _, (Except.error.inj h).symm⟩
  · exact ⟨_, _, (Except.error.inj h).symm⟩

theorem compiler_takeIn (i : Instance) (env : Surroundings) (r : CompileRequest) :
    (i.takeIn env r).state.compiler = i.compiler := by
  unfold takeIn
  split
  · rfl
  · simp only
    split
    · rfl
    · cases hrefresh : (i.refresh env r.file r.text).result with
      | ok _ =>
        rw [Outcome.state_andThen_of_ok hrefresh]
        rfl
      | error e =>
        rw [Outcome.andThen_of_error hrefresh]
        rfl

/-- The built-in compiler emits nothing for a declaration file, whatever is known of it. -/
theorem outputs_of_declaration (host : HostView) (cache : ServiceCache) {p : Path}
    (h : p.isDeclaration = true) : ((Builtin.service.emit host p).run cache).1.outputs = [] := by
  show ((Builtin.emit host p).run cache).1.outputs = []
  unfold Builtin.emit
  rw [if_pos h]
  rfl

theorem codeAndMap?_of_declaration (hcompiler : i.compiler = builtinCompiler) {p : Path}
    (h : p.isDeclaration = true) :
    codeAndMap? (i.ask (i.compiler.service.emit i.hostView p)).1 = none := by
  have houtputs : ((i.compiler.service.emit i.hostView p).run i.cache).1.outputs = [] := by
    rw [hcompiler]
    exact outputs_of_declaration i.hostView i.cache h
  show codeAndMap? ((i.compiler.service.emit i.hostView p).run i.cache).1 = none
  unfold codeAndMap? Emission.find?
  rw [houtputs]
  rfl

/-- A declaration file is never without output, but only by the built-in compiler it is sure to have
no code. -/
theorem produced_of_declaration (hdeclaration : r.file.isDeclaration = true) :
    ∃ output, (i.produce r).1 = .ok output ∧ (i.compiler = builtinCompiler →
      output.code = "" ∧ output.sourceMap = none ∧ output.warnings = []) := by
  unfold produce
  simp only
  split
  · rename_i code map hcode
    refine ⟨_, rfl, fun hcompiler => ?_⟩
    rw [codeAndMap?_of_declaration hcompiler hdeclaration] at hcode
    contradiction
  · rw [if_pos hdeclaration]
    exact ⟨_, rfl, fun _ => ⟨rfl, rfl, rfl⟩⟩

/-- A declaration file that no referenced project owns cannot be loaded, or has an output. -/
theorem compile_of_unowned_declaration (i : Instance) (env : Surroundings)
    (hdeclaration : r.file.isDeclaration = true) (howner : i.owner? r.file = none) :
    (∃ e, (i.compile env r).result = .error e ∧ e.IsLoadFailure) ∨
      ∃ output, (i.compile env r).result = .ok output ∧ (i.compiler = builtinCompiler →
        output.code = "" ∧ output.sourceMap = none ∧ output.warnings = []) := by
  rw [compile_of_unowned env howner]
  cases htake : (i.takeIn env r).result with
  | error e =>
    rw [Outcome.andThen_of_error htake]
    exact .inl ⟨e, rfl, isLoadFailure_of_takeIn htake⟩
  | ok _ =>
    rw [Outcome.result_andThen_of_ok htake]
    obtain ⟨output, hok, hbuiltin⟩ :=
      produced_of_declaration (i := (i.takeIn env r).state) hdeclaration
    exact .inr ⟨output, hok, fun h => hbuiltin ((i.compiler_takeIn env r).trans h)⟩

/-- The code of an owned file is missed if it cannot be read. -/
theorem result_compileOwned_of_error {reference : ProjectReference} {cause : DiskError}
    (h : env.disk.read (reference.outputOf r.file) = .error cause) :
    (i.compileOwned env reference r).result =
      .error (.referencedOutputMissing r.file (reference.outputOf r.file)) := by
  unfold compileOwned
  simp only
  generalize reference.outputOf r.file = built at h
  rw [h]

theorem composite_of_owner? {file : Path} {reference : ProjectReference}
    (h : i.owner? file = some reference) :
    ∃ references, i.layout = .composite references ∧
      references.find? (fun reference => reference.owns file) = some reference := by
  unfold owner? at h
  split at h
  · contradiction
  · rename_i references hlayout
    exact ⟨references, hlayout, h⟩

end Instance

namespace Registry

variable {registry : Registry} {env : Surroundings} {settings : BuildSettings} {r : CompileRequest}

theorem ensureInstance_error {disk : Disk} {file context : Path} {e : EngineError}
    (h : registry.ensureInstance disk settings file context = .error e) : ¬ e.LacksCode := by
  unfold ensureInstance at h
  simp only at h
  split at h
  · split at h
    · contradiction
    · obtain rfl := Except.error.inj h
      exact fun hf => hf
  · split at h
    · obtain rfl := Except.error.inj h
      exact fun hf => hf
    · simp only [bind, Except.bind] at h
      split at h
      · rename_i hcreate
        obtain rfl := Except.error.inj h
        obtain ⟨path, reason, rfl⟩ := Instance.create_error hcreate
        exact fun hf => hf
      · contradiction

theorem result_compile {i : Instance} {registry' : Registry}
    (h : registry.ensureInstance env.disk settings r.path r.context = .ok (i, registry')) :
    (registry.compile env settings r).result = (i.compile env r).result := by
  unfold compile
  rw [h]
  rfl

/-- A step is for a file that a referenced project owns, and whose code at `built` cannot be
read. -/
def MissesCode (registry : Registry) (env : Surroundings) (settings : BuildSettings)
    (r : CompileRequest) (built : Path) : Prop :=
  ∃ i registry' references reference cause,
    registry.ensureInstance env.disk settings r.path r.context = .ok (i, registry') ∧
    i.layout = .composite references ∧
    references.find? (fun reference => reference.owns r.file) = some reference ∧
    reference.outputOf r.file = built ∧ env.disk.read built = .error cause

theorem compile_of_missesCode {built : Path} (h : registry.MissesCode env settings r built) :
    (registry.compile env settings r).result =
      .error (.referencedOutputMissing r.file built) := by
  obtain ⟨i, registry', references, reference, cause, hensure, hlayout, howner, rfl, hread⟩ := h
  have howner : i.owner? r.file = some reference := by
    unfold Instance.owner?
    rw [hlayout]
    exact howner
  rw [result_compile hensure, Instance.compile_of_owned env howner]
  exact Instance.result_compileOwned_of_error hread

/-- A step for a declaration file lacks code in no other way. -/
theorem missesCode_of_lacksCode (hdeclaration : r.file.isDeclaration = true) {e : EngineError}
    (he : (registry.compile env settings r).result = .error e) (hlacks : e.LacksCode) :
    ∃ built, e = .referencedOutputMissing r.file built ∧
      registry.MissesCode env settings r built := by
  cases hensure : registry.ensureInstance env.disk settings r.path r.context with
  | error e' =>
    unfold compile at he
    rw [hensure] at he
    obtain rfl := Except.error.inj he
    exact absurd hlacks (ensureInstance_error hensure)
  | ok found =>
    obtain ⟨i, registry'⟩ := found
    rw [result_compile hensure] at he
    cases howner : i.owner? r.file with
    | none =>
      rcases i.compile_of_unowned_declaration env hdeclaration howner with
        ⟨e', he', hload⟩ | ⟨output, hok, _⟩
      · obtain rfl := Except.error.inj (he'.symm.trans he)
        exact absurd hload hlacks.not_isLoadFailure
      · exact absurd (hok.symm.trans he) nofun
    | some reference =>
      obtain ⟨references, hlayout, hfind⟩ := Instance.composite_of_owner? howner
      rw [Instance.compile_of_owned env howner] at he
      cases hread : env.disk.read (reference.outputOf r.file) with
      | error cause =>
        rw [Instance.result_compileOwned_of_error hread] at he
        exact ⟨_, (Except.error.inj he).symm, i, registry', references, reference, cause,
          hensure, hlayout, hfind, rfl, hread⟩
      | ok code =>
        obtain ⟨output, hok⟩ := (Instance.exists_compiledOwned_iff (i := i)).mpr ⟨code, hread⟩
        exact absurd (hok.symm.trans he) nofun

/-- **What becomes of a declaration file.**  A step for it lacks code just if a referenced project
owns the file and its code cannot be read.  In every other instance the step fails in a load, or has
an output, which is blank by the built-in compiler.  Yet projects count such a file among their
sources, and emit nothing for it. -/
theorem declaration_fails_iff (registry : Registry) (env : Surroundings) (settings : BuildSettings)
    (hdeclaration : r.file.isDeclaration = true) :
    (∀ e, ((registry.compile env settings r).result = .error e ∧ e.LacksCode) ↔
      ∃ built, e = .referencedOutputMissing r.file built ∧
        registry.MissesCode env settings r built) ∧
    (∀ i registry',
      registry.ensureInstance env.disk settings r.path r.context = .ok (i, registry') →
      i.owner? r.file = none →
      (∃ e, (registry.compile env settings r).result = .error e ∧ e.IsLoadFailure) ∨
      ∃ output, (registry.compile env settings r).result = .ok output ∧
        (i.compiler = builtinCompiler →
          output.code = "" ∧ output.sourceMap = none ∧ output.warnings = [])) ∧
    Config.isSource r.file = true ∧
    ∀ host cache, ((Builtin.service.emit host r.file).run cache).1.outputs = [] := by
  refine ⟨fun e => ⟨fun ⟨he, hlacks⟩ => missesCode_of_lacksCode hdeclaration he hlacks, ?_⟩,
    fun i registry' hensure howner => ?_, Config.isSource_of_isDeclaration hdeclaration,
    fun host cache => Instance.outputs_of_declaration host cache hdeclaration⟩
  · rintro ⟨built, rfl, hmisses⟩
    exact ⟨compile_of_missesCode hmisses, trivial⟩
  · rw [result_compile hensure]
    exact i.compile_of_unowned_declaration env hdeclaration howner

/-- A project that refers to another one, which has a declaration file only. -/
def referringProject : Surroundings where
  disk := ⟨["p"], [(["p"], .directory 0), (["p", "app"], .directory 0),
    (["p", "lib"], .directory 0),
    (["p", "app", "tsconfig.json"],
      .file (some "\x7bfiles: [], references: [\x7bpath: '../lib'\x7d]\x7d") 0),
    (["p", "lib", "tsconfig.json"], .file (some "\x7bfiles: ['x.d.ts']\x7d") 0),
    (["p", "lib", "x.d.ts"], .file (some "") 0)]⟩
  resolve _ specifier := .ok ⟨specifier⟩

/-- A step for its declaration file. -/
def declarationStep : CompileRequest := ⟨⟨"lib/x.d.ts"⟩, "", ⟨"/p"⟩, none⟩

/-- Settings by which the step belongs to one of the two projects. -/
def settingsOf (config : String) : BuildSettings := ⟨{ configFileName := config }, none⟩

def stepIn (config : String) : Except EngineError CompileOutput :=
  (empty.compile referringProject (settingsOf config) declarationStep).result

/-- Whether a step fails for lack of code. -/
def lacksCode : Except EngineError CompileOutput → Bool
  | .error e => decide e.LacksCode
  | .ok _ => false

theorem lacksCode_referring : lacksCode (stepIn "app/tsconfig.json") = true := by decide +kernel

theorem declaration_fails_iff_referring :
    declarationStep.file.isDeclaration = true ∧
      ∃ built, empty.MissesCode referringProject (settingsOf "app/tsconfig.json") declarationStep
        built := by
  have hdeclaration : declarationStep.file.isDeclaration = true := by decide +kernel
  obtain ⟨hiff, -⟩ := declaration_fails_iff empty referringProject (settingsOf "app/tsconfig.json")
    hdeclaration
  have hlacks := lacksCode_referring
  cases hstep : stepIn "app/tsconfig.json" with
  | ok output =>
    rw [hstep] at hlacks
    contradiction
  | error e =>
    rw [hstep] at hlacks
    obtain ⟨built, -, hmisses⟩ := (hiff e).mp ⟨hstep, of_decide_eq_true hlacks⟩
    exact ⟨hdeclaration, built, hmisses⟩

/-- **A declaration file lacks code in one project and not in the other.**  The project that has it
gives a blank output, but the one that refers to it fails. -/
theorem declaration_missed :
    declarationStep.file.isDeclaration = true ∧
      (stepIn "lib/tsconfig.json").toOption.map CompileOutput.code = some "" ∧
      lacksCode (stepIn "app/tsconfig.json") = true :=
  ⟨by decide +kernel, by decide +kernel, lacksCode_referring⟩

end Registry

end TypeScriptEngine
