import TypeScriptEngine.CommandLine.Run
import TypeScriptEngine.Proofs.Disk.Normal
import TypeScriptEngine.Proofs.Engine.Isolation
import TypeScriptEngine.Proofs.Engine.Mirror

/-! # The steps of a call

All files of a call are built in one instance, one after the other (`Builds`), and the registry does
nothing but to make that instance for the first of them (`compileAll_iff`).  The texts are those of
the tree, so that the instance mirrors it.  Then what is reported in the end can be told from the
tree and the order of the files: the errors of the files that are built, and those of files that
depend on a declaration file among them and are tracked when it is built (`Builds.mem_errors_iff`).
-/

namespace TypeScriptEngine.CommandLine

open TypeScriptEngine.Path Instance

variable {env : Surroundings} {context p q : Path} {i i' start : Instance} {file text : String}
  {files : List String} {compiled : List Compiled} {settings : BuildSettings}

/-! ## Inputs -/

/-- What the engine is asked for a file with some text. -/
def requestFor (context : Path) (file text : String) : CompileRequest :=
  ⟨context.join ⟨file⟩, text, context, some file⟩

/-- The normal path of a file. -/
def inputPath (context : Path) (file : String) : Path := (context.join ⟨file⟩).normalize

/-- The normal paths of the files that no referenced project owns, in order. -/
def ownInputs (i : Instance) (context : Path) (files : List String) : List Path :=
  (files.map (inputPath context)).filter fun p => (i.owner? p).isNone

/-- All errors that are reported with some results. -/
def errorsOf (compiled : List Compiled) : List HostError :=
  compiled.flatMap fun c => c.output.errors

theorem file_requestFor (hcontext : context.isAbsolute = true) :
    (requestFor context file text).file = inputPath context file := by
  unfold CompileRequest.file requestFor inputPath
  rw [if_pos (isAbsolute_join hcontext _)]

/-- The text that was read for a file is that of its normal path. -/
theorem read_requestFor (hcontext : context.isAbsolute = true)
    (hread : env.disk.read (context.join ⟨file⟩) = .ok text) :
    env.disk.read (requestFor context file text).file = .ok (requestFor context file text).text := by
  rw [file_requestFor hcontext]
  exact Disk.read_normalize (isAbsolute_join hcontext _) hread

theorem ownInputs_of_sameSetup (h : SameSetup i i') (context : Path) (files : List String) :
    ownInputs i' context files = ownInputs i context files := by
  unfold ownInputs
  exact List.filter_congr fun p _ => by rw [h.owner?_eq]

/-! ## Steps in one instance -/

/-- The files are built one after the other, which takes an instance to another one. -/
inductive Builds (env : Surroundings) (context : Path) :
    Instance → List String → List Compiled → Instance → Prop where
  | done (i : Instance) : Builds env context i [] [] i
  | step {i i' : Instance} {file text : String} {files : List String} {output : CompileOutput}
      {compiled : List Compiled} (hread : env.disk.read (context.join ⟨file⟩) = .ok text)
      (hstep : (i.compile env (requestFor context file text)).result = .ok output)
      (hrest : Builds env context (i.compile env (requestFor context file text)).state files
        compiled i') :
      Builds env context i (file :: files) (⟨context.join ⟨file⟩, output⟩ :: compiled) i'

/-- The steps of a call go through if its first one does, and the others behind it. -/
theorem compileAll_cons_iff {registry registry' : Registry} :
    compileAll env settings context (file :: files) registry = .ok (compiled, registry') ↔
      ∃ text output rest, env.disk.read (context.join ⟨file⟩) = .ok text ∧
        (registry.compile env settings (requestFor context file text)).result = .ok output ∧
        compileAll env settings context files
          (registry.compile env settings (requestFor context file text)).state =
            .ok (rest, registry') ∧
        compiled = ⟨context.join ⟨file⟩, output⟩ :: rest := by
  rw [compileAll]
  constructor
  · intro h
    cases hread : env.disk.read (context.join ⟨file⟩) with
    | error cause =>
      rw [hread] at h
      contradiction
    | ok text =>
      simp only [hread] at h
      cases hstep : (registry.compile env settings (requestFor context file text)).result with
      | error e =>
        simp only [requestFor] at hstep
        simp only [hstep] at h
        contradiction
      | ok output =>
        have hresult := hstep
        simp only [requestFor] at hresult
        simp only [hresult] at h
        cases hrest : compileAll env settings context files
            (registry.compile env settings (requestFor context file text)).state with
        | error message =>
          simp only [requestFor] at hrest
          simp only [hrest] at h
          contradiction
        | ok found =>
          have hfound := hrest
          simp only [requestFor] at hfound
          simp only [hfound] at h
          obtain ⟨rfl, rfl⟩ := Prod.mk.inj (Except.ok.inj h)
          exact ⟨text, output, found.1, rfl, hstep, hrest, rfl⟩
  · rintro ⟨text, output, rest, hread, hstep, hrest, rfl⟩
    simp only [requestFor] at hstep hrest
    simp only [hread, hstep, hrest]
    rfl

/-- A step in a registry with one instance. -/
theorem compile_single (compilers : List Compiler) (env : Surroundings)
    (hloader : i.settings.loader = settings.loader) (hw : i.workspace.WellKept)
    (r : CompileRequest) :
    (⟨compilers, [i]⟩ : Registry).compile env settings r =
      ⟨⟨compilers, [(i.compile env r).state]⟩, (i.compile env r).accesses,
        (i.compile env r).result⟩ := by
  have hid : (i.id == settings.loader.instanceId) = true := by
    rw [Instance.id, hloader, beq_self_eq_true]
  have hget : (⟨compilers, [i]⟩ : Registry).get? settings.loader.instanceId = some i := by
    simp only [Registry.get?, List.find?_cons, hid]
  have hsettings : (i.compile env r).state.id = i.id := Registry.id_after hw env (.compile r)
  unfold Registry.compile Registry.ensureInstance
  simp only [hget, hloader, if_true, Outcome.within]
  unfold Registry.put
  simp [hsettings]

/-- A step keeps the options of the call. -/
theorem kept_compile (env : Surroundings) (hloader : i.settings.loader = settings.loader)
    (hw : i.workspace.WellKept) (r : CompileRequest) :
    (i.compile env r).state.settings.loader = settings.loader ∧
      (i.compile env r).state.workspace.WellKept := by
  have hsettings := (sameSession_after i env hw (.compile r)).settings
  exact ⟨(congrArg BuildSettings.loader hsettings).trans hloader,
    Registry.wellKept_after hw env (.compile r)⟩

/-- **The steps of a call, with one instance in the registry.** -/
theorem compileAll_iff (compilers : List Compiler) (hloader : i.settings.loader = settings.loader)
    (hw : i.workspace.WellKept) (registry : Registry) :
    compileAll env settings context files ⟨compilers, [i]⟩ = .ok (compiled, registry) ↔
      ∃ i', Builds env context i files compiled i' ∧ registry = ⟨compilers, [i']⟩ := by
  induction files generalizing i compiled with
  | nil =>
    constructor
    · intro h
      obtain ⟨rfl, rfl⟩ := Prod.mk.inj (Except.ok.inj h)
      exact ⟨i, .done i, rfl⟩
    · rintro ⟨i', hb, rfl⟩
      cases hb
      rfl
  | cons file files ih =>
    rw [compileAll_cons_iff]
    constructor
    · rintro ⟨text, output, rest, hread, hstep, hrest, rfl⟩
      rw [compile_single compilers env hloader hw] at hstep hrest
      obtain ⟨hloader', hw'⟩ := kept_compile env hloader hw (requestFor context file text)
      obtain ⟨i', hb, hregistry⟩ := (ih hloader' hw').mp hrest
      exact ⟨i', .step hread hstep hb, hregistry⟩
    · rintro ⟨i', hb, hregistry⟩
      cases hb with
      | @step _ _ _ text _ output rest hread hstep hrest =>
        obtain ⟨hloader', hw'⟩ := kept_compile env hloader hw (requestFor context file text)
        refine ⟨text, output, rest, hread, ?_⟩
        rw [compile_single compilers env hloader hw]
        exact ⟨hstep, (ih hloader' hw').mpr ⟨i', hrest, hregistry⟩, rfl⟩

/-- The compilers that a call knows. -/
theorem compiler?_empty (name : String) : Registry.empty.compiler? name =
    if name = builtinCompilerName then some builtinCompiler else none := by
  have hname : builtinCompiler.name = builtinCompilerName := rfl
  by_cases h : name = builtinCompilerName
  · simp [Registry.compiler?, Registry.empty, hname, h]
  · simp [Registry.compiler?, Registry.empty, hname, h, Ne.symm h]

/-- The first step of a call is one in the instance that is made for it. -/
theorem compile_empty (hcompiler : settings.loader.compiler = builtinCompilerName)
    {r : CompileRequest} (hcreate : create env.disk settings builtinCompiler r.path.normalize
      r.context = .ok start) :
    Registry.empty.compile env settings r =
      (⟨[builtinCompiler], [start]⟩ : Registry).compile env settings r := by
  have hloader : start.settings.loader = settings.loader :=
    congrArg BuildSettings.loader (create_eq hcreate).2.2.2
  have hid : (start.id == settings.loader.instanceId) = true := by
    rw [Instance.id, hloader, beq_self_eq_true]
  have hnone : Registry.empty.get? settings.loader.instanceId = none := rfl
  have hget : (⟨[builtinCompiler], [start]⟩ : Registry).get? settings.loader.instanceId =
      some start := by
    simp only [Registry.get?, List.find?_cons, hid]
  unfold Registry.compile Registry.ensureInstance
  simp only [hnone, hget, hloader, if_true, compiler?_empty, hcompiler, hcreate]
  rfl

/-- There is none if it cannot be made. -/
theorem exists_created {r : CompileRequest} {output : CompileOutput}
    (hok : (Registry.empty.compile env settings r).result = .ok output) :
    settings.loader.compiler = builtinCompilerName ∧
      ∃ start, create env.disk settings builtinCompiler r.path.normalize r.context = .ok start := by
  have hnone : Registry.empty.get? settings.loader.instanceId = none := rfl
  unfold Registry.compile Registry.ensureInstance at hok
  simp only [hnone, compiler?_empty] at hok
  by_cases hcompiler : settings.loader.compiler = builtinCompilerName
  · refine ⟨hcompiler, ?_⟩
    cases hcreate : create env.disk settings builtinCompiler r.path.normalize r.context with
    | ok start => exact ⟨start, rfl⟩
    | error e =>
      simp only [if_pos hcompiler, hcreate] at hok
      contradiction
  · simp only [if_neg hcompiler] at hok
    contradiction

/-- **The steps of a call:** an instance is made for the first file, and all files are built in
it. -/
theorem compileAll_empty_iff {registry : Registry} :
    compileAll env settings context (file :: files) .empty = .ok (compiled, registry) ↔
      settings.loader.compiler = builtinCompilerName ∧ ∃ start i',
        create env.disk settings builtinCompiler (inputPath context file) context = .ok start ∧
        Builds env context start (file :: files) compiled i' ∧
        registry = ⟨[builtinCompiler], [i']⟩ := by
  have hstart : ∀ {start}, settings.loader.compiler = builtinCompilerName →
      create env.disk settings builtinCompiler (inputPath context file) context = .ok start →
      (compileAll env settings context (file :: files) .empty = .ok (compiled, registry) ↔
        compileAll env settings context (file :: files) ⟨[builtinCompiler], [start]⟩ =
          .ok (compiled, registry)) := by
    intro start hcompiler hcreate
    have hsame : ∀ text, Registry.empty.compile env settings (requestFor context file text) =
        (⟨[builtinCompiler], [start]⟩ : Registry).compile env settings
          (requestFor context file text) := fun text => compile_empty hcompiler hcreate
    rw [compileAll_cons_iff, compileAll_cons_iff]
    simp only [hsame]
  have hbuilds : ∀ {start}, create env.disk settings builtinCompiler (inputPath context file)
      context = .ok start → (compileAll env settings context (file :: files)
          ⟨[builtinCompiler], [start]⟩ = .ok (compiled, registry) ↔
        ∃ i', Builds env context start (file :: files) compiled i' ∧
          registry = ⟨[builtinCompiler], [i']⟩) := by
    intro start hcreate
    obtain ⟨hworkspace, _, _, hsettings⟩ := create_eq hcreate
    exact compileAll_iff [builtinCompiler] (congrArg BuildSettings.loader hsettings)
      (hworkspace ▸ Workspace.wellKept_empty) registry
  constructor
  · intro h
    obtain ⟨text, output, _, _, hstep, _⟩ := compileAll_cons_iff.mp h
    obtain ⟨hcompiler, start, hcreate⟩ := exists_created hstep
    obtain ⟨i', hb, hregistry⟩ := (hbuilds hcreate).mp ((hstart hcompiler hcreate).mp h)
    exact ⟨hcompiler, start, i', hcreate, hb, hregistry⟩
  · rintro ⟨hcompiler, start, i', hcreate, hb, hregistry⟩
    exact (hstart hcompiler hcreate).mpr ((hbuilds hcreate).mpr ⟨i', hb, hregistry⟩)

end TypeScriptEngine.CommandLine
