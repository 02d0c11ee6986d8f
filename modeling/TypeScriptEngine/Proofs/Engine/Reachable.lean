import Mathlib.Logic.Relation
import TypeScriptEngine.Engine.Change
import TypeScriptEngine.Engine.Compile
import TypeScriptEngine.Proofs.Workspace.Step
import TypeScriptEngine.Service.Builtin

/-! # Runs of an instance

A host builds files, tells of changes, and asks for a scan of the declarations (`HostStep`), each
time in surroundings of its own.  All that these steps do to an instance is a sequence of moves
(`Instance.moves_after`): steps of its workspace, questions to its service, and notes about
referenced projects.  So an invariant of the moves holds of every instance that is `Reachable`.
-/

namespace TypeScriptEngine

/-- What a host asks of an instance. -/
inductive HostStep where
  | compile (r : CompileRequest)
  | notifyChanged (path : Path)
  | rescan

namespace Outcome

variable {σ α β : Type} {x : Outcome σ α} {next : σ → α → Outcome σ β}

theorem state_andThen_of_ok {a : α} (h : x.result = .ok a) :
    (x.andThen next).state = (next x.state a).state := by
  unfold andThen
  rw [h]

theorem andThen_of_error {e : EngineError} (h : x.result = .error e) :
    x.andThen next = ⟨x.state, x.accesses, .error e⟩ := by
  unfold andThen
  rw [h]

theorem result_andThen_of_ok {a : α} (h : x.result = .ok a) :
    (x.andThen next).result = (next x.state a).result := by
  unfold andThen
  rw [h]

end Outcome

namespace Instance

open Relation

/-- The instance after a step. -/
def after (i : Instance) (env : Surroundings) : HostStep → Instance
  | .compile r => (i.compile env r).state
  | .notifyChanged path => (i.notifyChanged env path).state
  | .rescan => (i.rescan env).state

/-- One change of an instance, in some surroundings. -/
inductive Move (env : Surroundings) (i : Instance) : Instance → Prop where
  | workspace {w : Workspace} (h : Workspace.Step env i.workspace w) :
      Move env i (i.withWorkspace w)
  | emitted (path : Path) : Move env i (i.ask (i.compiler.service.emit i.hostView path)).2
  | diagnosed (path : Path) : Move env i (i.ask (i.collectDiagnostics path)).2
  | checked (projects : List Path) : Move env i { i with checkedProjects := projects }

variable {env : Surroundings} {i i' : Instance}

/-- The workspace takes a step or stays. -/
theorem Move.workspace_cases (h : Move env i i') :
    i'.workspace = i.workspace ∨ Workspace.Step env i.workspace i'.workspace := by
  cases h with
  | workspace h => exact Or.inr h
  | emitted _ => exact Or.inl rfl
  | diagnosed _ => exact Or.inl rfl
  | checked _ => exact Or.inl rfl

theorem Move.wellKept (h : Move env i i') (hw : i.workspace.WellKept) :
    i'.workspace.WellKept := by
  rcases h.workspace_cases with he | hs
  · rw [he]
    exact hw
  · exact hs.wellKept hw

theorem Move.tracks (h : Move env i i') (hw : i.workspace.WellKept) {p : Path}
    (hp : i.tracks p = true) : i'.tracks p = true := by
  unfold Instance.tracks at hp ⊢
  rcases h.workspace_cases with he | hs
  · rw [he]
    exact hp
  · exact hs.contains hw hp

/-- An invariant of the moves is one of their sequences. -/
theorem moves_induction {P : Instance → Prop}
    (hP : ∀ {i i'}, Move env i i' → i.workspace.WellKept → P i → P i')
    (h : ReflTransGen (Move env) i i') (hw : i.workspace.WellKept) (hi : P i) :
    i'.workspace.WellKept ∧ P i' := by
  induction h with
  | refl => exact ⟨hw, hi⟩
  | tail _ hmove ih => exact ⟨hmove.wellKept ih.1, hP hmove ih.1 ih.2⟩

/-! ## The steps of a host are moves -/

theorem moves_ensure (i : Instance) (env : Surroundings) (p : Path) (text : String) :
    Move env i (i.ensure env p text).state :=
  .workspace (.ensured p text)

/-- A file is given another text, or keeps the one it has. -/
theorem moves_reload (i : Instance) (env : Surroundings) {p : Path} (hp : i.tracks p = true)
    (text : String) :
    Move env i ((i.refresh env p text).andThen fun i _ =>
      .pure (i.store env.disk p text) ()).state := by
  cases h : (i.workspace.refresh env p text).result with
  | error e =>
    have hresult : (i.refresh env p text).result = .error e := h
    rw [Outcome.andThen_of_error hresult]
    exact .workspace (.refused hp fun hok => by rw [h] at hok; contradiction)
  | ok a =>
    have hresult : (i.refresh env p text).result = .ok a := h
    rw [Outcome.state_andThen_of_ok hresult]
    exact .workspace (.reloaded hp h)

theorem moves_takeIn (i : Instance) (env : Surroundings) (r : CompileRequest) :
    Move env i (i.takeIn env r).state := by
  unfold takeIn
  split
  · exact moves_ensure i env r.file r.text
  · rename_i file hfile
    split
    · rename_i htext
      show Move env i (i.store env.disk r.file r.text)
      rw [← htext]
      exact .workspace (.rewritten hfile)
    · exact moves_reload i env (Workspace.contains_of_get? hfile) r.text

theorem moves_produce (i : Instance) (env : Surroundings) (r : CompileRequest) :
    ReflTransGen (Move env) i (i.produce r).2 := by
  have hmoves : ReflTransGen (Move env) i
      ((i.ask (i.compiler.service.emit i.hostView r.file)).2.ask
        ((i.ask (i.compiler.service.emit i.hostView r.file)).2.collectDiagnostics r.file)).2 :=
    (ReflTransGen.single (.emitted r.file)).tail (.diagnosed r.file)
  unfold produce
  simp only
  split
  · exact hmoves
  · split
    · exact hmoves
    · exact hmoves

theorem moves_compile (i : Instance) (env : Surroundings) (r : CompileRequest) :
    ReflTransGen (Move env) i (i.compile env r).state := by
  unfold compile
  split
  · rename_i reference _
    unfold compileOwned
    simp only
    split
    · exact .refl
    · show ReflTransGen (Move env) i (i.checkMap env.disk (reference.outputOf r.file) reference).2
      unfold checkMap
      split
      · exact .refl
      · exact .single (.checked _)
  · have htake : ReflTransGen (Move env) i (i.takeIn env r).state := .single (moves_takeIn i env r)
    cases h : (i.takeIn env r).result with
    | error e =>
      rw [Outcome.andThen_of_error h]
      exact htake
    | ok a =>
      rw [Outcome.state_andThen_of_ok h]
      exact htake.trans (moves_produce _ env r)

theorem moves_notifyChanged (i : Instance) (env : Surroundings) (p : Path) :
    ReflTransGen (Move env) i (i.notifyChanged env p).state := by
  unfold notifyChanged
  simp only
  split
  · exact .refl
  · rename_i htracked
    rw [Bool.not_eq_true', Bool.not_eq_false] at htracked
    split
    · exact .refl
    · rename_i text _
      have hreload := moves_reload i env htracked text
      rw [Outcome.state_andThen_of_ok rfl]
      cases h : (i.refresh env p.normalize text).result with
      | error e =>
        rw [Outcome.andThen_of_error h] at hreload ⊢
        exact .single hreload
      | ok a =>
        rw [Outcome.state_andThen_of_ok h] at hreload ⊢
        exact .single hreload

theorem moves_rescanFiles (env : Surroundings) (ps : List Path) (i : Instance)
    (hw : i.workspace.WellKept) (hps : ∀ p ∈ ps, i.tracks p = true) :
    ReflTransGen (Move env) i (rescanFiles env ps i).state := by
  -- on the files that are left, for whatever instance the ones before have led to
  induction ps generalizing i with
  | nil => exact .refl
  | cons p ps ih =>
    have htail : ∀ q ∈ ps, i.tracks q = true := fun q hq => hps q (List.mem_cons_of_mem _ hq)
    -- the other files are still tracked after whatever is done for this one
    have hrest : ∀ i', ReflTransGen (Move env) i i' →
        ReflTransGen (Move env) i (rescanFiles env ps i').state := by
      intro i' hmoves
      obtain ⟨hw', htail'⟩ := moves_induction
        (P := fun i => ∀ q ∈ ps, i.tracks q = true)
        (fun hmove hw hP q hq => hmove.tracks hw (hP q hq)) hmoves hw htail
      exact hmoves.trans (ih i' hw' htail')
    unfold rescanFiles
    split
    · exact hrest i .refl
    · split
      · exact hrest _ (.single (.workspace (.noted (hps p (List.mem_cons_self ..)))))
      · split
        · exact hrest i .refl
        · have hnotify := moves_notifyChanged i env p
          cases h : (i.notifyChanged env p).result with
          | error e =>
            rw [Outcome.andThen_of_error h]
            exact hnotify
          | ok found =>
            rw [Outcome.state_andThen_of_ok h]
            exact hrest _ hnotify

/-- **All that a step of a host does are moves.** -/
theorem moves_after (i : Instance) (env : Surroundings) (hw : i.workspace.WellKept)
    (step : HostStep) : ReflTransGen (Move env) i (i.after env step) := by
  cases step with
  | compile r => exact moves_compile i env r
  | notifyChanged p => exact moves_notifyChanged i env p
  | rescan =>
    refine moves_rescanFiles env _ i hw fun p hp => ?_
    obtain ⟨file, hfile, rfl⟩ := List.mem_map.mp hp
    exact hw.files.contains_of_mem (List.mem_filter.mp hfile).1

/-! ## Reachable instances -/

/-- The instances that a host can get to, in surroundings that are allowed. -/
inductive Reachable (allowed : Surroundings → Prop) : Instance → Prop where
  | created {disk : Disk} {settings : BuildSettings} {compiler : Compiler} {file context : Path}
      {i : Instance} (h : create disk settings compiler file context = .ok i) :
      Reachable allowed i
  | after {i : Instance} {env : Surroundings} (h : Reachable allowed i) (henv : allowed env)
      (step : HostStep) : Reachable allowed (i.after env step)

variable {allowed : Surroundings → Prop}

theorem create_eq {disk : Disk} {settings : BuildSettings} {compiler : Compiler}
    {file context : Path} (h : create disk settings compiler file context = .ok i) :
    i.workspace = .empty ∧ i.cache = .empty ∧ i.compiler = compiler ∧ i.settings = settings := by
  unfold create at h
  simp only [bind, Except.bind, pure, Except.pure, throw, throwThe, MonadExceptOf.throw] at h
  repeat' split at h
  all_goals first
    | contradiction
    | (obtain rfl := Except.ok.inj h
       exact ⟨rfl, rfl, rfl, rfl⟩)

/-- **An invariant of new instances and of the moves holds of every reachable instance.** -/
theorem Reachable.induction {P : Instance → Prop}
    (hcreated : ∀ i : Instance, i.workspace = .empty → i.cache = .empty → P i)
    (hmove : ∀ {env i i'}, allowed env → Move env i i' → i.workspace.WellKept → P i → P i')
    (h : Reachable allowed i) : i.workspace.WellKept ∧ P i := by
  induction h with
  | created h =>
    obtain ⟨hworkspace, hcache, _⟩ := create_eq h
    refine ⟨?_, hcreated _ hworkspace hcache⟩
    rw [hworkspace]
    exact Workspace.wellKept_empty
  | after _ henv step ih =>
    exact moves_induction (fun hm => hmove henv hm) (moves_after _ _ ih.1 step) ih.1 ih.2

theorem Reachable.wellKept (h : Reachable allowed i) : i.workspace.WellKept :=
  (h.induction (P := fun _ => True) (fun _ _ _ => trivial) fun _ _ _ _ => trivial).1

/-- With one resolver, every file has the edges of its text. -/
theorem Reachable.faithful {resolve : Resolver}
    (h : Reachable (fun env => env.resolve = resolve) i) : i.workspace.Faithful resolve := by
  refine (h.induction (P := fun i => i.workspace.Faithful resolve) ?_ ?_).2
  · intro i hworkspace _
    rw [hworkspace]
    exact Workspace.faithful_empty
  · intro env i i' henv hmove hw hf
    rcases hmove.workspace_cases with he | hs
    · rw [he]
      exact hf
    · subst henv
      exact hs.faithful hw hf

/-- The compiler of an instance stays the same. -/
theorem compiler_after (i : Instance) (env : Surroundings) (hw : i.workspace.WellKept)
    (step : HostStep) : (i.after env step).compiler = i.compiler := by
  refine (moves_induction (P := fun j => j.compiler = i.compiler) ?_ (moves_after i env hw step)
    hw rfl).2
  intro j j' hmove _ hj
  cases hmove <;> exact hj

/-! ## New instances -/

section Creation

variable {disk : Disk} {settings : BuildSettings} {compiler : Compiler} {file context : Path}

/-- Where no configuration is found, an instance is made just if its own options and patterns are
valid. -/
theorem isOk_create
    (hlocate : Config.locate? disk file context settings.loader.configFileName = none) :
    (create disk settings compiler file context).isOk =
      ((CompilerOptions.resolve settings.loader.queryPatch {} context).isOk &&
        (DiagnosticFilter.ofTexts settings.loader.ignoreDiagnostics
          settings.loader.reportFiles).isOk) := by
  have hconfig : loadConfig disk none context = .ok none := rfl
  have hlayout : layoutOf disk compiler none context [] = .ok .single := rfl
  unfold create
  simp only [hlocate, hconfig, Option.elim_none, bind, Except.bind]
  cases CompilerOptions.resolve settings.loader.queryPatch {} context with
  | error e => rfl
  | ok options =>
    simp only [hlayout]
    cases DiagnosticFilter.ofTexts settings.loader.ignoreDiagnostics
      settings.loader.reportFiles <;> rfl

/-- An instance that can be made is reachable. -/
theorem reachable_of_isOk (h : (create disk settings compiler file context).isOk = true)
    (allowed : Surroundings → Prop) :
    ∃ i, create disk settings compiler file context = .ok i ∧ Reachable allowed i ∧
      i.compiler = compiler := by
  cases hcreate : create disk settings compiler file context with
  | error e =>
    rw [hcreate] at h
    contradiction
  | ok i => exact ⟨i, rfl, .created hcreate, (create_eq hcreate).2.2.1⟩

end Creation

/-! ## A small project -/

/-- A tree with one file, which every specifier leads to. -/
def smallProject : Surroundings where
  disk := ⟨[], [(["p"], .directory 0), (["p", "b.ts"], .file (some "") 0)]⟩
  resolve _ _ := .ok ⟨"/p/b.ts"⟩

/-- Surroundings in which nothing is found. -/
def deadEnds : Surroundings where
  disk := ⟨[], []⟩
  resolve context specifier := .error (.notFound specifier context)

/-- A new instance for the project. -/
def smallStart : Except EngineError Instance :=
  create smallProject.disk ⟨{}, none⟩ builtinCompiler ⟨"/p/a.ts"⟩ ⟨"/p"⟩

/-- The instance after it has built a file that refers to the one of the project. -/
def smallBuild : Except EngineError Instance :=
  smallStart.map fun i =>
    i.after smallProject (.compile ⟨⟨"/p/a.ts"⟩, "import './b';", ⟨"/p"⟩, none⟩)

theorem isOk_create_smallProject (settings : BuildSettings) (compiler : Compiler)
    (hname : settings.loader.configFileName = "tsconfig.json") :
    (create smallProject.disk settings compiler ⟨"/p/a.ts"⟩ ⟨"/p"⟩).isOk =
      ((CompilerOptions.resolve settings.loader.queryPatch {} ⟨"/p"⟩).isOk &&
        (DiagnosticFilter.ofTexts settings.loader.ignoreDiagnostics
          settings.loader.reportFiles).isOk) := by
  have hnone : (Config.locate? smallProject.disk ⟨"/p/a.ts"⟩ ⟨"/p"⟩ "tsconfig.json").isNone = true := by
    decide +kernel
  refine isOk_create ?_
  rw [hname]
  exact Option.isNone_iff_eq_none.mp hnone

theorem reachable_smallStart (allowed : Surroundings → Prop) :
    ∃ i, smallStart = .ok i ∧ Reachable allowed i ∧ i.compiler = builtinCompiler :=
  reachable_of_isOk ((isOk_create_smallProject _ _ rfl).trans (by decide)) allowed

theorem reachable_smallBuild (allowed : Surroundings → Prop) (h : allowed smallProject) :
    ∃ i, smallBuild = .ok i ∧ Reachable allowed i ∧ i.compiler = builtinCompiler := by
  obtain ⟨i, hstart, hi, hcompiler⟩ := reachable_smallStart allowed
  refine ⟨_, by rw [smallBuild, hstart]; rfl, hi.after h _, ?_⟩
  rw [compiler_after i _ hi.wellKept]
  exact hcompiler

end Instance

end TypeScriptEngine
