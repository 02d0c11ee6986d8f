import TypeScriptEngine.Proofs.CommandLine.Steps

/-! # The order of the files of a call

A check reports for every file of the call the errors of that file, and with a declaration file also
those of the files that depend on it and are tracked by then.  So a file that is not among those of
the call is reported on if it is `Seen`: if some file up to a declaration file that it depends on has
brought it in.  That is all that the order of the files changes (`check_order`).
-/

namespace TypeScriptEngine.CommandLine

open TypeScriptEngine.Path Instance

variable {env : Surroundings} {context p q : Path} {i i' start : Instance} {file text : String}
  {files : List String} {compiled : List Compiled} {settings : BuildSettings}

/-! ## What is seen -/

/-- A file is brought in by building some files: it is one of them, or one of them depends on it. -/
def BroughtIn (env : Surroundings) (order : List Path) (q : Path) : Prop :=
  ∃ p ∈ order, q = p ∨ env.DependsOn p q

/-- A file depends on a declaration file of the order, and is tracked when that one is built, from
the beginning or because it has been brought in. -/
def SeenFrom (env : Surroundings) (tracked : Path → Prop) (order : List Path) (q : Path) : Prop :=
  ∃ before p after, order = before ++ p :: after ∧ p.isDeclaration = true ∧ env.DependsOn q p ∧
    (tracked q ∨ BroughtIn env (before ++ [p]) q)

/-- **A file is seen in an order of files:** it depends on a declaration file of the order, and the
files up to that one have brought it in. -/
def Seen (env : Surroundings) (order : List Path) (q : Path) : Prop :=
  ∃ before p after, order = before ++ p :: after ∧ p.isDeclaration = true ∧ env.DependsOn q p ∧
    BroughtIn env (before ++ [p]) q

theorem broughtIn_cons_iff {order : List Path} :
    BroughtIn env (p :: order) q ↔ (q = p ∨ env.DependsOn p q) ∨ BroughtIn env order q := by
  unfold BroughtIn
  simp only [List.mem_cons, exists_eq_or_imp]

theorem broughtIn_singleton_iff : BroughtIn env [p] q ↔ q = p ∨ env.DependsOn p q := by
  unfold BroughtIn
  simp only [List.mem_singleton, exists_eq_left]

theorem broughtIn_append_iff {order order' : List Path} :
    BroughtIn env (order ++ order') q ↔ BroughtIn env order q ∨ BroughtIn env order' q := by
  unfold BroughtIn
  simp only [List.mem_append, or_and_right, exists_or]

theorem seenFrom_false_iff {order : List Path} :
    SeenFrom env (fun _ => False) order q ↔ Seen env order q := by
  simp only [SeenFrom, Seen, false_or]

/-- The first file is tracked, with what it depends on, when the others are built. -/
theorem seenFrom_cons_iff {tracked : Path → Prop} {order : List Path} :
    SeenFrom env tracked (p :: order) q ↔
      (p.isDeclaration = true ∧ env.DependsOn q p ∧
        (tracked q ∨ q = p ∨ env.DependsOn p q)) ∨
      SeenFrom env (fun q => tracked q ∨ q = p ∨ env.DependsOn p q) order q := by
  constructor
  · rintro ⟨before, p', after, horder, hdeclaration, hpath, hq⟩
    cases before with
    | nil =>
      obtain ⟨rfl, rfl⟩ := List.cons.inj horder
      rw [List.nil_append, broughtIn_singleton_iff] at hq
      exact .inl ⟨hdeclaration, hpath, hq⟩
    | cons first before =>
      obtain ⟨rfl, rfl⟩ := List.cons.inj horder
      rw [List.cons_append, broughtIn_cons_iff, ← or_assoc] at hq
      exact .inr ⟨before, p', after, rfl, hdeclaration, hpath, hq⟩
  · rintro (⟨hdeclaration, hpath, hq⟩ | ⟨before, p', after, rfl, hdeclaration, hpath, hq⟩)
    · refine ⟨[], p, order, rfl, hdeclaration, hpath, ?_⟩
      rwa [List.nil_append, broughtIn_singleton_iff]
    · refine ⟨p :: before, p', after, rfl, hdeclaration, hpath, ?_⟩
      rwa [List.cons_append, broughtIn_cons_iff, ← or_assoc]

/-- **The files that are reported on:** those of the order, and those that are seen. -/
def ReportedFrom (env : Surroundings) (tracked : Path → Prop) (order : List Path) (q : Path) :
    Prop := q ∈ order ∨ SeenFrom env tracked order q

theorem reportedFrom_cons_iff {tracked : Path → Prop} {order : List Path} :
    ReportedFrom env tracked (p :: order) q ↔
      (q = p ∨ p.isDeclaration = true ∧ env.DependsOn q p ∧
        (tracked q ∨ q = p ∨ env.DependsOn p q)) ∨
      ReportedFrom env (fun q => tracked q ∨ q = p ∨ env.DependsOn p q) order q := by
  unfold ReportedFrom
  rw [List.mem_cons, seenFrom_cons_iff]
  tauto

/-! ## Own files -/

theorem ownInputs_cons (i : Instance) (context : Path) (file : String) (files : List String) :
    ownInputs i context (file :: files) =
      ownInputs i context [file] ++ ownInputs i context files := by
  unfold ownInputs
  rw [← List.filter_append, ← List.map_append]
  rfl

theorem ownInputs_singleton (howner : i.owner? (inputPath context file) = none) :
    ownInputs i context [file] = [inputPath context file] := by
  simp [ownInputs, howner]

theorem ownInputs_singleton_of_owned {reference : ProjectReference}
    (howner : i.owner? (inputPath context file) = some reference) :
    ownInputs i context [file] = [] := by
  simp [ownInputs, howner]

/-! ## Runs -/

namespace Builds

/-- An instance that mirrors the tree does so behind the steps, with the same setup. -/
theorem mirrors (hb : Builds env context i files compiled i')
    (hcontext : context.isAbsolute = true) (h : Mirrors env i) :
    Mirrors env i' ∧ SameSetup i i' := by
  induction hb with
  | done i => exact ⟨h, .refl i⟩
  | step hread hstep _ ih =>
    have hafter := h.compile (read_requestFor hcontext hread) hstep
    obtain ⟨hmirrors, hsetup⟩ := ih hafter
    exact ⟨hmirrors, (sameSetup_after _ env h.wellKept (.compile _)).trans hsetup⟩

/-- What is tracked behind a step.  A file that a referenced project owns is not taken in. -/
theorem tracks_step_iff {output : CompileOutput} (hcontext : context.isAbsolute = true)
    (h : Mirrors env i) (hread : env.disk.read (context.join ⟨file⟩) = .ok text)
    (hstep : (i.compile env (requestFor context file text)).result = .ok output) :
    (i.compile env (requestFor context file text)).state.workspace.Tracks q ↔
      i.workspace.Tracks q ∨ BroughtIn env (ownInputs i context [file]) q := by
  have htext := read_requestFor hcontext hread
  have hfile := @file_requestFor context file text hcontext
  cases howner : i.owner? (requestFor context file text).file with
  | none =>
    rw [hfile] at howner
    rw [ownInputs_singleton howner, h.tracks_compile_iff htext (hfile ▸ howner) hstep, hfile]
    exact or_congr Iff.rfl broughtIn_singleton_iff.symm
  | some reference =>
    rw [compile_of_owned env howner, workspace_compileOwned]
    rw [hfile] at howner
    rw [ownInputs_singleton_of_owned howner]
    exact ⟨.inl, fun hq => hq.resolve_right fun ⟨_, hmem, _⟩ => List.not_mem_nil hmem⟩

/-- **What is tracked behind the steps:** what was tracked before, and what the files have brought
in. -/
theorem tracks_iff (hb : Builds env context i files compiled i')
    (hcontext : context.isAbsolute = true) (h : Mirrors env i) :
    i'.workspace.Tracks q ↔
      i.workspace.Tracks q ∨ BroughtIn env (ownInputs i context files) q := by
  induction hb with
  | done i => exact ⟨.inl, fun hq => hq.resolve_right fun ⟨_, hmem, _⟩ => List.not_mem_nil hmem⟩
  | @step i _ first text files output _ hread hstep _ ih =>
    have hsetup := sameSetup_after i env h.wellKept (.compile (requestFor context first text))
    rw [ih (h.compile (read_requestFor hcontext hread) hstep),
      tracks_step_iff hcontext h hread hstep, or_assoc]
    refine or_congr Iff.rfl ?_
    have hrest : ownInputs (i.compile env (requestFor context first text)).state context files =
        ownInputs i context files := ownInputs_of_sameSetup hsetup context files
    rw [hrest, ownInputs_cons i context first files, broughtIn_append_iff]

/-- The steps go through in any instance of the setup, if each of them has in some. -/
theorem exists_of_buildable (hcontext : context.isAbsolute = true)
    (hfiles : ∀ file ∈ files, ∃ i text output, Mirrors env i ∧ SameSetup start i ∧
      env.disk.read (context.join ⟨file⟩) = .ok text ∧
      (i.compile env (requestFor context file text)).result = .ok output)
    (h : Mirrors env i) (hsetup : SameSetup start i) :
    ∃ compiled i', Builds env context i files compiled i' := by
  induction files generalizing i with
  | nil => exact ⟨[], i, .done i⟩
  | cons file files ih =>
    obtain ⟨j, text, _, hj, hsetup', hread, hok⟩ := hfiles file (List.mem_cons_self ..)
    have htext := read_requestFor hcontext hread
    obtain ⟨output, hstep⟩ := hj.exists_compiled htext h (hsetup'.symm.trans hsetup) hok
    obtain ⟨compiled, i', hb⟩ := ih (fun file hfile => hfiles file (List.mem_cons_of_mem _ hfile))
      (h.compile htext hstep) (hsetup.trans (sameSetup_after i env h.wellKept (.compile _)))
    exact ⟨_, i', .step hread hstep hb⟩

/-- Each step of a run goes through in some instance of the setup. -/
theorem buildable (hb : Builds env context i files compiled i')
    (hcontext : context.isAbsolute = true) (h : Mirrors env i) (hsetup : SameSetup start i) :
    ∀ file ∈ files, ∃ i text output, Mirrors env i ∧ SameSetup start i ∧
      env.disk.read (context.join ⟨file⟩) = .ok text ∧
      (i.compile env (requestFor context file text)).result = .ok output := by
  induction hb with
  | done i => exact fun _ hfile => absurd hfile List.not_mem_nil
  | @step i _ first text files output _ hread hstep _ ih =>
    intro file hfile
    rcases List.mem_cons.mp hfile with rfl | hfile
    · exact ⟨i, text, output, h, hsetup, hread, hstep⟩
    · exact ih (h.compile (read_requestFor hcontext hread) hstep)
        (hsetup.trans (sameSetup_after i env h.wellKept (.compile _))) file hfile

/-- **Any order of the files can be built, if one can.** -/
theorem exists_of_perm {files' : List String} (hb : Builds env context start files compiled i')
    (hperm : files'.Perm files) (hcontext : context.isAbsolute = true) (h : Mirrors env start) :
    ∃ compiled' i'', Builds env context start files' compiled' i'' :=
  exists_of_buildable hcontext
    (fun file hfile => hb.buildable hcontext h (.refl start) file (hperm.mem_iff.mp hfile)) h
    (.refl start)

/-! ## Errors of a run -/

/-- What is reported on is tracked behind the steps. -/
theorem tracks_of_reported (hb : Builds env context i files compiled i')
    (hcontext : context.isAbsolute = true) (h : Mirrors env i)
    (hq : ReportedFrom env i.workspace.Tracks (ownInputs i context files) q) :
    i'.workspace.Tracks q := by
  rw [hb.tracks_iff hcontext h]
  rcases hq with hq | ⟨before, p, after, horder, _, _, hq | hq⟩
  · exact .inr ⟨q, hq, .inl rfl⟩
  · exact .inl hq
  · rw [horder, ← List.singleton_append, ← List.append_assoc]
    exact .inr (broughtIn_append_iff.mpr (.inl hq))

/-- The errors of a step are those of the options and of the files that are reported with its own,
as they are found in the end. -/
theorem mem_errors_step_iff {output : CompileOutput} (hcontext : context.isAbsolute = true)
    (h : Mirrors env i) (hread : env.disk.read (context.join ⟨file⟩) = .ok text)
    (hstep : (i.compile env (requestFor context file text)).result = .ok output)
    (hrest : Builds env context (i.compile env (requestFor context file text)).state files compiled
      i') (howner : i.owner? (inputPath context file) = none) (e : HostError) :
    e ∈ output.errors ↔ e ∈ i.optionErrors context ∨ ∃ q,
      (q = inputPath context file ∨ (inputPath context file).isDeclaration = true ∧
        env.DependsOn q (inputPath context file) ∧
        (i.compile env (requestFor context file text)).state.workspace.Tracks q) ∧
      e ∈ i'.errorsIn context q := by
  have htext := read_requestFor hcontext hread
  have hafter := h.compile htext hstep
  obtain ⟨hafter', hsetup⟩ := hrest.mirrors hcontext hafter
  have hsame : ∀ q, (i.compile env (requestFor context file text)).state.workspace.Tracks q →
      i'.errorsIn context q =
        (i.compile env (requestFor context file text)).state.errorsIn context q := fun q hq =>
    hafter.errorsIn_eq hafter' hsetup hq ((hrest.tracks_iff hcontext hafter).mpr (.inl hq)) context
  have hfile := @file_requestFor context file text hcontext
  rw [← hfile] at howner ⊢
  have hown := (h.tracks_compile_iff htext howner hstep).mpr (.inr (.inl rfl))
  rw [h.mem_errors_compile_iff htext howner hstep]
  refine or_congr Iff.rfl (exists_congr fun q => and_congr_right fun hq => ?_)
  have htracks : (i.compile env (requestFor context file text)).state.workspace.Tracks q := by
    rcases hq with rfl | ⟨_, _, hq⟩
    · exact hown
    · exact hq
  rw [hsame q htracks]
  rfl

/-- **The errors of a run** are those of the options and of the files that are reported on, as they
are found in the end. -/
theorem mem_errors_iff (hb : Builds env context i files compiled i')
    (hcontext : context.isAbsolute = true) (h : Mirrors env i) (e : HostError) :
    e ∈ errorsOf compiled ↔
      ownInputs i context files ≠ [] ∧ e ∈ i.optionErrors context ∨
      ∃ q, ReportedFrom env i.workspace.Tracks (ownInputs i context files) q ∧
        e ∈ i'.errorsIn context q := by
  induction hb with
  | done i => simp [errorsOf, ReportedFrom, ownInputs, SeenFrom]
  | @step i i' first text files output compiled hread hstep hrest ih =>
    have htext := read_requestFor hcontext hread
    have hsetup : SameSetup i (i.compile env (requestFor context first text)).state :=
      sameSetup_after i env h.wellKept (.compile (requestFor context first text))
    have hfile := @file_requestFor context first text hcontext
    have hcompiled : e ∈ errorsOf (⟨context.join ⟨first⟩, output⟩ :: compiled) ↔
        e ∈ output.errors ∨ e ∈ errorsOf compiled := List.mem_append
    rw [hcompiled, ih (h.compile htext hstep), ownInputs_of_sameSetup hsetup,
      hsetup.optionErrors_eq h.compiler, ownInputs_cons i context first files]
    cases howner : i.owner? (inputPath context first) with
    | some reference =>
      rw [ownInputs_singleton_of_owned howner]
      rw [← hfile] at howner
      have hworkspace : (i.compile env (requestFor context first text)).state.workspace =
          i.workspace := by
        rw [compile_of_owned env howner, workspace_compileOwned]
      rw [compile_of_owned env howner] at hstep
      rw [errors_compileOwned hstep, hworkspace]
      simp
    | none =>
      have htracks : (i.compile env (requestFor context first text)).state.workspace.Tracks =
          fun q => i.workspace.Tracks q ∨ q = inputPath context first ∨
            env.DependsOn (inputPath context first) q :=
        funext fun q => propext (hfile ▸ h.tracks_compile_iff htext (hfile ▸ howner) hstep)
      rw [mem_errors_step_iff hcontext h hread hstep hrest howner, htracks,
        ownInputs_singleton howner, List.singleton_append]
      constructor
      · rintro ((ho | ⟨q, hq, he⟩) | ⟨_, ho⟩ | ⟨q, hq, he⟩)
        · exact .inl ⟨List.cons_ne_nil _ _, ho⟩
        · exact .inr ⟨q, reportedFrom_cons_iff.mpr (.inl hq), he⟩
        · exact .inl ⟨List.cons_ne_nil _ _, ho⟩
        · exact .inr ⟨q, reportedFrom_cons_iff.mpr (.inr hq), he⟩
      · rintro (⟨_, ho⟩ | ⟨q, hq, he⟩)
        · exact .inl (.inl ho)
        · rcases reportedFrom_cons_iff.mp hq with hq | hq
          · exact .inl (.inr ⟨q, hq, he⟩)
          · exact .inr (.inr ⟨q, hq, he⟩)

/-! ## Two orders -/

section TwoOrders

variable {files' : List String} {compiled' : List Compiled} {i'' : Instance}
  (hb : Builds env context start files compiled i')
  (hb' : Builds env context start files' compiled' i'') (hperm : files'.Perm files)
  (hcontext : context.isAbsolute = true) (h : Mirrors env start)
  (hempty : start.workspace = .empty)

include hb hcontext h hempty

omit hb hcontext h in
theorem reportedFrom_of_empty_iff {order : List Path} :
    ReportedFrom env start.workspace.Tracks order q ↔ q ∈ order ∨ Seen env order q := by
  have hnone : start.workspace.Tracks = fun _ => False := by
    funext q
    rw [hempty]
    exact eq_false fun hq => Bool.false_ne_true hq.tracked
  unfold ReportedFrom
  rw [hnone, seenFrom_false_iff]

/-- What a run that begins with a new instance reports on is tracked in the end. -/
theorem tracks_of_empty (hq : q ∈ ownInputs start context files ∨
    Seen env (ownInputs start context files) q) : i'.workspace.Tracks q :=
  hb.tracks_of_reported hcontext h ((reportedFrom_of_empty_iff hempty).mpr hq)

/-- The errors of such a run. -/
theorem mem_errors_of_empty_iff (e : HostError) :
    e ∈ errorsOf compiled ↔
      ownInputs start context files ≠ [] ∧ e ∈ start.optionErrors context ∨
      ∃ q, (q ∈ ownInputs start context files ∨ Seen env (ownInputs start context files) q) ∧
        e ∈ i'.errorsIn context q := by
  rw [hb.mem_errors_iff hcontext h]
  simp only [reportedFrom_of_empty_iff hempty]

include hb' hperm

/-- **An error is missing in another order if it is in a file that is seen only in the first.** -/
theorem not_mem_errors_iff {e : HostError} (he : e ∈ errorsOf compiled) :
    e ∉ errorsOf compiled' ↔ ∃ q, e.file = some q.text ∧
      q ∉ ownInputs start context files ∧ Seen env (ownInputs start context files) q ∧
      ¬ Seen env (ownInputs start context files') q := by
  obtain ⟨hmirrors, hsetup⟩ := hb.mirrors hcontext h
  obtain ⟨hmirrors', hsetup'⟩ := hb'.mirrors hcontext h
  have hmem : ∀ q, q ∈ ownInputs start context files' ↔ q ∈ ownInputs start context files :=
    fun q => ((hperm.map _).filter _).mem_iff
  rw [hb'.mem_errors_of_empty_iff hcontext h hempty]
  rcases (hb.mem_errors_of_empty_iff hcontext h hempty e).mp he with ⟨hne, ho⟩ | ⟨q, hq, heq⟩
  · -- the errors of the options are reported in every order
    have hfile := file_of_mem_optionErrors h.compiler ho
    obtain ⟨p, hp⟩ := List.exists_mem_of_ne_nil _ hne
    constructor
    · intro hout
      exact absurd (.inl ⟨List.ne_nil_of_mem ((hmem p).mpr hp), ho⟩) hout
    · rintro ⟨q, hq, _⟩
      rw [hfile] at hq
      contradiction
  · have htracks := hb.tracks_of_empty hcontext h hempty hq
    have hfile := hmirrors.reachable.file_of_mem_errorsIn hmirrors.compiler htracks.tracked heq
    constructor
    · intro hout
      -- the file would be reported on with the same errors
      have hunseen : ¬ (q ∈ ownInputs start context files' ∨
          Seen env (ownInputs start context files') q) := by
        intro hq'
        have htracks' := hb'.tracks_of_empty hcontext h hempty hq'
        refine hout (.inr ⟨q, hq', ?_⟩)
        rw [hmirrors.errorsIn_eq hmirrors' (hsetup.symm.trans hsetup') htracks htracks']
        exact heq
      obtain ⟨hown, hseen⟩ := not_or.mp hunseen
      rw [hmem] at hown
      exact ⟨q, hfile, hown, hq.resolve_left hown, hseen⟩
    · rintro ⟨q', hfile', hown, _, hseen⟩ (⟨_, ho⟩ | ⟨p, hp, hep⟩)
      · rw [file_of_mem_optionErrors h.compiler ho] at hfile'
        contradiction
      · have htracks' := hb'.tracks_of_empty hcontext h hempty hp
        have hfile'' := hmirrors'.reachable.file_of_mem_errorsIn hmirrors'.compiler
          htracks'.tracked hep
        have hpath : p = q' := by
          have htext := Option.some.inj (hfile''.symm.trans hfile')
          cases p
          cases q'
          exact congrArg Path.mk htext
        subst hpath
        rcases hp with hp | hp
        · exact hown ((hmem p).mp hp)
        · exact hseen hp

end TwoOrders

end Builds

/-! ## Checks -/

/-- What the steps of a call find around them. -/
def surroundings (disk : Disk) : Surroundings :=
  ⟨disk, (ModuleResolver.ofBase disk (workingPath disk)).resolve disk⟩

theorem isAbsolute_workingPath (disk : Disk) : (workingPath disk).isAbsolute = true := by
  unfold workingPath isAbsolute
  rw [String.toList_append]
  rfl

/-- The steps of a call with some files. -/
theorem compileIn_iff {disk : Disk} {options : LoaderOptions} {registry : Registry} :
    compileIn disk options (file :: files) = .ok (compiled, registry) ↔
      options.compiler = builtinCompilerName ∧ ∃ start i',
        create disk ⟨options, none⟩ builtinCompiler (inputPath (workingPath disk) file)
          (workingPath disk) = .ok start ∧
        Builds (surroundings disk) (workingPath disk) start (file :: files) compiled i' ∧
        registry = ⟨[builtinCompiler], [i']⟩ :=
  compileAll_empty_iff

theorem code_reportErrors (run : Run) (errors : List HostError) :
    (reportErrors run errors).code = run.code := by
  unfold reportErrors
  induction errors generalizing run with
  | nil => rfl
  | cons e errors ih => exact ih _

/-- The exit code of a check tells whether there are errors. -/
theorem code_check {disk : Disk} {a : Arguments} {options : LoaderOptions} {registry : Registry}
    (hoptions : loaderOptions a = .ok options)
    (hcompiled : compileIn disk options a.operands = .ok (compiled, registry))
    (hget : (registry.get? options.instanceId).isSome = true) :
    (check disk a).code = if (errorsOf compiled).isEmpty then 0 else 1 := by
  obtain ⟨i, hget⟩ := Option.isSome_iff_exists.mp hget
  unfold check withCompiled
  simp only [hoptions, hcompiled, hget, bind, Except.bind, pure, Except.pure]
  unfold errorsOf
  split
  · split
    · rfl
    · exact code_reportErrors _ _
  · rfl

/-- The options of the steps are read off the options of the call. -/
theorem loaderOptions_congr {a a' : Arguments} (h : a'.options = a.options) :
    loaderOptions a' = loaderOptions a := by
  unfold loaderOptions Arguments.has Arguments.value?
  rw [h]

/-- The file that an instance is made for is looked at for its configuration only. -/
theorem create_congr {disk : Disk} (settings : BuildSettings) (compiler : Compiler)
    {file file' : Path} (h : Config.locate? disk file' context settings.loader.configFileName =
      Config.locate? disk file context settings.loader.configFileName) :
    create disk settings compiler file' context = create disk settings compiler file context := by
  unfold create
  simp only [h]

/-- The registry has the instance of the call then. -/
theorem isSome_get?_of_builds {disk : Disk} {options : LoaderOptions}
    (hcreate : create disk ⟨options, none⟩ builtinCompiler p context = .ok start)
    (hsetup : SameSetup start i) :
    ((⟨[builtinCompiler], [i]⟩ : Registry).get? options.instanceId).isSome = true := by
  have hsettings : i.settings.loader = options :=
    congrArg BuildSettings.loader (hsetup.settings.trans (create_eq hcreate).2.2.2)
  have hid : (i.id == options.instanceId) = true := by
    rw [Instance.id, hsettings, beq_self_eq_true]
  simp only [Registry.get?, List.find?_cons, hid]
  rfl

/-- **If some files compile, they do so in every order** whose first file has the same
configuration: in both orders the steps begin with one instance. -/
theorem runs_of_perm {disk : Disk} {options : LoaderOptions} {file file' : String}
    {files operands operands' : List String} {files' : List String} {registry : Registry}
    (hperm : operands'.Perm operands) (hfiles : operands = file :: files)
    (hfiles' : operands' = file' :: files')
    (hconfig : Config.locate? disk (inputPath (workingPath disk) file') (workingPath disk)
        options.configFileName =
      Config.locate? disk (inputPath (workingPath disk) file) (workingPath disk)
        options.configFileName)
    (hcompiled : compileIn disk options operands = .ok (compiled, registry)) :
    ∃ start i' compiled' i'',
      create disk ⟨options, none⟩ builtinCompiler (inputPath (workingPath disk) file)
        (workingPath disk) = .ok start ∧
      Builds (surroundings disk) (workingPath disk) start operands compiled i' ∧
      registry = ⟨[builtinCompiler], [i']⟩ ∧
      Builds (surroundings disk) (workingPath disk) start operands' compiled' i'' ∧
      compileIn disk options operands' = .ok (compiled', ⟨[builtinCompiler], [i'']⟩) := by
  subst hfiles hfiles'
  obtain ⟨hcompiler, start, i', hcreate, hb, hregistry⟩ := compileIn_iff.mp hcompiled
  obtain ⟨compiled', i'', hb'⟩ := hb.exists_of_perm hperm (isAbsolute_workingPath disk)
    (Mirrors.of_create hcreate (surroundings disk))
  refine ⟨start, i', compiled', i'', hcreate, hb, hregistry, hb', compileIn_iff.mpr ?_⟩
  exact ⟨hcompiler, start, i'', (create_congr ⟨options, none⟩ _ hconfig).trans hcreate, hb', rfl⟩

/-- **What the order of the files of a check changes.**  If some files compile, and the first file
of another order has the same configuration, then that order compiles too.  Of the errors that are
reported, those are missing in the other order that are in a file that is not among the files of the
call, and is seen in the one order but not in the other.  So if the same files are seen the errors
are the same, and so is the exit code. -/
theorem check_order {disk : Disk} {a a' : Arguments} {options : LoaderOptions}
    {file file' : String} {files files' : List String} {registry : Registry}
    (hsame : a'.options = a.options) (hperm : a'.operands.Perm a.operands)
    (hfiles : a.operands = file :: files) (hfiles' : a'.operands = file' :: files')
    (hconfig : Config.locate? disk (inputPath (workingPath disk) file') (workingPath disk)
        options.configFileName =
      Config.locate? disk (inputPath (workingPath disk) file) (workingPath disk)
        options.configFileName)
    (hoptions : loaderOptions a = .ok options)
    (hcompiled : compileIn disk options a.operands = .ok (compiled, registry)) :
    ∃ start compiled' registry',
      create disk ⟨options, none⟩ builtinCompiler (inputPath (workingPath disk) file)
        (workingPath disk) = .ok start ∧
      loaderOptions a' = .ok options ∧
      compileIn disk options a'.operands = .ok (compiled', registry') ∧
      let own := ownInputs start (workingPath disk)
      let sees := Seen (surroundings disk)
      (∀ e ∈ errorsOf compiled, e ∉ errorsOf compiled' ↔ ∃ q, e.file = some q.text ∧
        q ∉ own a.operands ∧ sees (own a.operands) q ∧ ¬ sees (own a'.operands) q) ∧
      (∀ e ∈ errorsOf compiled', e ∉ errorsOf compiled ↔ ∃ q, e.file = some q.text ∧
        q ∉ own a'.operands ∧ sees (own a'.operands) q ∧ ¬ sees (own a.operands) q) ∧
      ((∀ q, q ∉ own a.operands → (sees (own a.operands) q ↔ sees (own a'.operands) q)) →
        (∀ e, e ∈ errorsOf compiled ↔ e ∈ errorsOf compiled') ∧
        (check disk a').code = (check disk a).code) := by
  obtain ⟨start, i', compiled', i'', hcreate, hb, rfl, hb', hcompiled'⟩ :=
    runs_of_perm hperm hfiles hfiles' hconfig hcompiled
  have hcontext := isAbsolute_workingPath disk
  have h := Mirrors.of_create hcreate (surroundings disk)
  have hempty := (create_eq hcreate).1
  have hoptions' := (loaderOptions_congr hsame).trans hoptions
  have hmissing := fun e he => hb.not_mem_errors_iff hb' hperm hcontext h hempty (e := e) he
  have hmissing' := fun e he => hb'.not_mem_errors_iff hb hperm.symm hcontext h hempty (e := e) he
  refine ⟨start, compiled', _, hcreate, hoptions', hcompiled', hmissing, hmissing', fun hseen => ?_⟩
  have hown : ∀ q, q ∈ ownInputs start (workingPath disk) a'.operands ↔
      q ∈ ownInputs start (workingPath disk) a.operands := fun q =>
    ((hperm.map _).filter _).mem_iff
  have hall : ∀ e, e ∈ errorsOf compiled ↔ e ∈ errorsOf compiled' := by
    intro e
    constructor
    · intro he
      by_contra hout
      obtain ⟨q, _, hq, hsees, hunseen⟩ := (hmissing e he).mp hout
      exact hunseen ((hseen q hq).mp hsees)
    · intro he
      by_contra hout
      obtain ⟨q, _, hq, hsees, hunseen⟩ := (hmissing' e he).mp hout
      exact hunseen ((hseen q (fun hmem => hq ((hown q).mpr hmem))).mpr hsees)
  have hnone : (errorsOf compiled').isEmpty = (errorsOf compiled).isEmpty := by
    rw [Bool.eq_iff_iff, List.isEmpty_iff, List.isEmpty_iff, List.eq_nil_iff_forall_not_mem,
      List.eq_nil_iff_forall_not_mem]
    exact forall_congr' fun e => not_congr (hall e).symm
  refine ⟨hall, ?_⟩
  rw [code_check hoptions' hcompiled' (isSome_get?_of_builds hcreate (hb'.mirrors hcontext h).2),
    code_check hoptions hcompiled (isSome_get?_of_builds hcreate (hb.mirrors hcontext h).2), hnone]

/-- No file is seen if there is no declaration file. -/
theorem not_seen_of_sources {order : List Path} (h : ∀ p ∈ order, p.isDeclaration = false) :
    ¬ Seen env order q := by
  rintro ⟨before, p, after, rfl, hdeclaration, _⟩
  rw [h p (List.mem_append_right _ (List.mem_cons_self ..))] at hdeclaration
  contradiction

/-- Whether a file of a tree compiles in the instance that is made for some file. -/
def compilesFor (disk : Disk) (first file : String) : Bool :=
  match disk.read ((workingPath disk).join ⟨file⟩), create disk ⟨{}, none⟩ builtinCompiler
      (inputPath (workingPath disk) first) (workingPath disk) with
  | .ok text, .ok i =>
    (i.compile (surroundings disk) (requestFor (workingPath disk) file text)).result.isOk
  | _, _ => false

/-- If each of some files compiles in the instance that is made for the first, they compile in
turn. -/
theorem exists_run {disk : Disk} (h : (file :: files).all (compilesFor disk file) = true) :
    ∃ compiled registry start i',
      compileIn disk {} (file :: files) = .ok (compiled, registry) ∧
      create disk ⟨{}, none⟩ builtinCompiler (inputPath (workingPath disk) file)
        (workingPath disk) = .ok start ∧
      Builds (surroundings disk) (workingPath disk) start (file :: files) compiled i' ∧
      (check disk ⟨[], file :: files⟩).code = if (errorsOf compiled).isEmpty then 0 else 1 := by
  cases hcreate : create disk ⟨{}, none⟩ builtinCompiler (inputPath (workingPath disk) file)
      (workingPath disk) with
  | error e =>
    have hfirst := List.all_eq_true.mp h file (List.mem_cons_self ..)
    unfold compilesFor at hfirst
    rw [hcreate] at hfirst
    split at hfirst <;> contradiction
  | ok start =>
    have hmirrors := Mirrors.of_create hcreate (surroundings disk)
    have hbuildable : ∀ other ∈ file :: files, ∃ i text output,
        Mirrors (surroundings disk) i ∧ SameSetup start i ∧
        disk.read ((workingPath disk).join ⟨other⟩) = .ok text ∧
        (i.compile (surroundings disk) (requestFor (workingPath disk) other text)).result =
          .ok output := by
      intro other hother
      have hcompiles := List.all_eq_true.mp h other hother
      unfold compilesFor at hcompiles
      rw [hcreate] at hcompiles
      split at hcompiles
      · rename_i text _ hread hstart
        obtain rfl := Except.ok.inj hstart
        cases hstep : (start.compile (surroundings disk)
            (requestFor (workingPath disk) other text)).result with
        | error e =>
          rw [hstep] at hcompiles
          contradiction
        | ok output => exact ⟨start, text, output, hmirrors, .refl start, hread, hstep⟩
      · contradiction
    obtain ⟨compiled, i', hb⟩ := Builds.exists_of_buildable (isAbsolute_workingPath disk)
      hbuildable hmirrors (.refl start)
    have hcompiled : compileIn disk {} (file :: files) =
        .ok (compiled, ⟨[builtinCompiler], [i']⟩) :=
      compileIn_iff.mpr ⟨rfl, start, i', hcreate, hb, rfl⟩
    have hsetup := (hb.mirrors (isAbsolute_workingPath disk) hmirrors).2
    exact ⟨compiled, _, start, i', hcompiled, rfl, hb,
      code_check (a := ⟨[], file :: files⟩) rfl hcompiled (isSome_get?_of_builds hcreate hsetup)⟩

/-- A tree with two sources, of which the first one declares a name twice. -/
def redeclaring : Disk where
  workingDir := ["p"]
  entries := [(["p"], .directory 0),
    (["p", "c.ts"], .file (some "let x;\nlet x;\n") 0), (["p", "e.ts"], .file (some "let y;\n") 0)]

/-- For the two sources, either order reports the same. -/
theorem check_order_redeclaring :
    ∃ compiled registry compiled' registry',
      compileIn redeclaring {} ["c.ts", "e.ts"] = .ok (compiled, registry) ∧
      compileIn redeclaring {} ["e.ts", "c.ts"] = .ok (compiled', registry') ∧
      (∀ e, e ∈ errorsOf compiled ↔ e ∈ errorsOf compiled') ∧
      (check redeclaring ⟨[], ["e.ts", "c.ts"]⟩).code =
        (check redeclaring ⟨[], ["c.ts", "e.ts"]⟩).code := by
  obtain ⟨compiled, registry, _, _, hcompiled, _⟩ :=
    @exists_run "c.ts" ["e.ts"] redeclaring (by decide +kernel)
  let first : Arguments := ⟨[], ["c.ts", "e.ts"]⟩
  let second : Arguments := ⟨[], ["e.ts", "c.ts"]⟩
  have hnone : ∀ file ∈ first.operands, (Config.locate? redeclaring
      (inputPath (workingPath redeclaring) file) (workingPath redeclaring)
      ({} : LoaderOptions).configFileName).isNone = true := by decide +kernel
  have hconfig := (Option.isNone_iff_eq_none.mp (hnone "e.ts" (by decide))).trans
    (Option.isNone_iff_eq_none.mp (hnone "c.ts" (by decide))).symm
  obtain ⟨start, compiled', registry', _, _, hcompiled', _, _, hsame⟩ :=
    check_order (show second.options = first.options from rfl)
      (show second.operands.Perm first.operands from List.Perm.swap ..) rfl rfl hconfig rfl
      hcompiled
  have hsources : ∀ files, (∀ file ∈ files,
      (inputPath (workingPath redeclaring) file).isDeclaration = false) →
      ∀ p ∈ ownInputs start (workingPath redeclaring) files, p.isDeclaration = false := by
    intro files hfiles p hp
    obtain ⟨file, hfile, rfl⟩ := List.mem_map.mp (List.mem_filter.mp hp).1
    exact hfiles file hfile
  have hfirst := hsources first.operands (by decide +kernel)
  have hsecond := hsources second.operands (by decide +kernel)
  obtain ⟨hall, hcode⟩ := hsame fun q _ =>
    iff_of_false (not_seen_of_sources hfirst) (not_seen_of_sources hsecond)
  exact ⟨compiled, registry, compiled', registry', hcompiled, hcompiled', hall, hcode⟩

/-! ## Orders that differ -/

/-- Whether a text is that of a module without faults. -/
def isQuiet (p : Path) (text : String) : Bool :=
  TokenStream.isModule (Scan.ofText text).tokens &&
    (Check.syntactic (Scan.ofText text).tokens).isEmpty &&
    (Builtin.declarationFaults p (FileStore.newFile p text) []).isEmpty

theorem errorsIn_of_isQuiet (h : Mirrors env i) (hp : i.workspace.Tracks p)
    (hread : env.disk.read p = .ok text) (hquiet : isQuiet p text = true) :
    i.errorsIn context p = [] := by
  obtain ⟨file, hget, htext, _⟩ := h.exists_file hp
  obtain rfl := Except.ok.inj (hread.symm.trans htext)
  unfold isQuiet at hquiet
  simp only [Bool.and_eq_true, List.isEmpty_iff] at hquiet
  obtain ⟨⟨hmodule, hsyntactic⟩, hdeclared⟩ := hquiet
  have hdeclared : Builtin.declarationFaults p file [] = [] := hdeclared
  unfold errorsIn
  rw [h.reachable.syntacticFaults_eq h.compiler hget, h.reachable.semanticFaults_eq h.compiler hget,
    hsyntactic, Builtin.declarationFaults_of_module hmodule _ [], hdeclared]
  rfl

/-- A run reports nothing if it is about modules without faults, and no other file is seen. -/
theorem errorsOf_eq_nil (hb : Builds env context start files compiled i')
    (hcontext : context.isAbsolute = true) (h : Mirrors env start)
    (hempty : start.workspace = .empty) (hoptions : start.optionErrors context = [])
    (hunseen : ∀ q, ¬ Seen env (ownInputs start context files) q)
    (hquiet : ∀ p ∈ ownInputs start context files,
      ∃ text, env.disk.read p = .ok text ∧ isQuiet p text = true) : errorsOf compiled = [] := by
  refine List.eq_nil_iff_forall_not_mem.mpr fun e he => ?_
  rcases (hb.mem_errors_of_empty_iff hcontext h hempty e).mp he with ⟨_, ho⟩ | ⟨q, hq, he⟩
  · rw [hoptions] at ho
    exact List.not_mem_nil ho
  · have htracks := hb.tracks_of_empty hcontext h hempty hq
    obtain ⟨text, hread, htext⟩ := hquiet q (hq.resolve_right (hunseen q))
    rw [errorsIn_of_isQuiet (hb.mirrors hcontext h).1 htracks hread htext] at he
    exact List.not_mem_nil he

/-- A fault in the text of a file is an error, if nothing is left out. -/
theorem exists_mem_errorsIn (h : Mirrors env i) (hp : i.workspace.Tracks p)
    (hread : env.disk.read p = .ok text) (hignored : i.filter.ignored = [])
    (hpatterns : i.filter.patterns = [])
    (hfault : (Check.syntactic (Scan.ofText text).tokens).isEmpty = false) :
    ∃ e, e ∈ i.errorsIn context p := by
  obtain ⟨file, hget, htext, _⟩ := h.exists_file hp
  obtain rfl := Except.ok.inj (hread.symm.trans htext)
  have hallows : ∀ d, i.filter.allows context d = true := by
    intro d
    simp [DiagnosticFilter.allows, DiagnosticFilter.reportsFile, hignored, hpatterns]
  obtain ⟨f, hf⟩ := List.exists_mem_of_ne_nil _ (List.isEmpty_eq_false_iff.mp hfault)
  refine ⟨_, List.mem_map_of_mem (List.mem_filter.mpr
    ⟨List.mem_append_left _ ?_, hallows (f.toDiagnostic ⟨p, file.text⟩)⟩)⟩
  rw [h.reachable.syntacticFaults_eq h.compiler hget]
  exact List.mem_map_of_mem hf

/-- An instance builds some files itself, and leaves no errors out. -/
def reportsAll (i : Instance) (context : Path) (files : List String) : Bool :=
  files.all (fun file => (i.owner? (inputPath context file)).isNone) &&
    i.filter.ignored.isEmpty && i.filter.patterns.isEmpty

theorem ownInputs_of_reportsAll (h : reportsAll i context files = true) :
    ownInputs i context files = files.map (inputPath context) := by
  unfold reportsAll at h
  simp only [Bool.and_eq_true, List.all_eq_true] at h
  obtain ⟨⟨howner, _⟩, _⟩ := h
  unfold ownInputs
  rw [List.filter_eq_self]
  intro p hp
  obtain ⟨file, hfile, rfl⟩ := List.mem_map.mp hp
  exact howner file hfile

/-- Whether something holds of the instance that is made for a file. -/
def madeWith (disk : Disk) (file : String) (holds : Instance → Bool) : Bool :=
  (create disk ⟨{}, none⟩ builtinCompiler (inputPath (workingPath disk) file)
    (workingPath disk)).toOption.any holds

theorem holds_of_madeWith {disk : Disk} {holds : Instance → Bool}
    (h : madeWith disk file holds = true)
    (hcreate : create disk ⟨{}, none⟩ builtinCompiler (inputPath (workingPath disk) file)
      (workingPath disk) = .ok start) : holds start = true := by
  rwa [madeWith, hcreate] at h

/-- Whether something holds of the text of a file. -/
def textWith (disk : Disk) (p : Path) (holds : String → Bool) : Bool :=
  (disk.read p).toOption.any holds

theorem exists_text {disk : Disk} {holds : String → Bool} (h : textWith disk p holds = true) :
    ∃ text, disk.read p = .ok text ∧ holds text = true := by
  unfold textWith at h
  cases hread : disk.read p with
  | error e =>
    rw [hread] at h
    contradiction
  | ok text => exact ⟨text, rfl, by rwa [hread] at h⟩

/-- Of two orders of files that compile, one reports an error that the other does not. -/
def OrderMatters (disk : Disk) (files files' : List String) : Prop :=
  ∃ compiled registry compiled' registry', compileIn disk {} files = .ok (compiled, registry) ∧
    compileIn disk {} files' = .ok (compiled', registry') ∧
    (∃ e ∈ errorsOf compiled, e ∉ errorsOf compiled') ∧
    (check disk ⟨[], files⟩).code = 1 ∧ (check disk ⟨[], files'⟩).code = 0

theorem orderMatters_of_runs {disk : Disk} {file' : String} {files' : List String}
    (hfiles : (file :: files).all (compilesFor disk file) = true)
    (hfiles' : (file' :: files').all (compilesFor disk file') = true)
    (herror : ∀ {compiled start i'}, create disk ⟨{}, none⟩ builtinCompiler
        (inputPath (workingPath disk) file) (workingPath disk) = .ok start →
      Builds (surroundings disk) (workingPath disk) start (file :: files) compiled i' →
      ∃ e, e ∈ errorsOf compiled)
    (hnothing : ∀ {compiled start i'}, create disk ⟨{}, none⟩ builtinCompiler
        (inputPath (workingPath disk) file') (workingPath disk) = .ok start →
      Builds (surroundings disk) (workingPath disk) start (file' :: files') compiled i' →
      errorsOf compiled = []) : OrderMatters disk (file :: files) (file' :: files') := by
  obtain ⟨compiled, registry, _, _, hcompiled, hcreate, hb, hcode⟩ := exists_run hfiles
  obtain ⟨compiled', registry', _, _, hcompiled', hcreate', hb', hcode'⟩ := exists_run hfiles'
  obtain ⟨e, he⟩ := herror hcreate hb
  have hempty := hnothing hcreate' hb'
  refine ⟨compiled, registry, compiled', registry', hcompiled, hcompiled', ⟨e, he, ?_⟩, ?_, ?_⟩
  · rw [hempty]
    exact List.not_mem_nil
  · rw [hcode, if_neg (by simpa using List.ne_nil_of_mem he)]
  · rw [hcode', hempty]
    rfl

/-! ### A file that is seen in one order only -/

/-- The files that a file refers to. -/
def targetsIn (env : Surroundings) (p : Path) : Option (List String) :=
  (env.disk.read p).toOption.map fun text =>
    (SourceText.edges ⟨p, text⟩ env.resolve).map fun d => d.target.text

theorem exists_edges_of_targetsIn {targets : List String} (h : targetsIn env p = some targets) :
    ∃ text, env.disk.read p = .ok text ∧
      ((SourceText.edges ⟨p, text⟩ env.resolve).map fun d => d.target.text) = targets := by
  unfold targetsIn at h
  cases hread : env.disk.read p with
  | error e =>
    rw [hread] at h
    contradiction
  | ok text =>
    rw [hread] at h
    exact ⟨text, rfl, Option.some.inj h⟩

theorem refersTo_of_targetsIn (h : targetsIn env p = some [q.text]) : env.RefersTo p q := by
  obtain ⟨text, hread, htargets⟩ := exists_edges_of_targetsIn h
  obtain ⟨d, hd, he⟩ := List.map_eq_singleton_iff.mp htargets
  refine ⟨text, hread, d, hd ▸ List.mem_singleton_self d, ?_⟩
  cases hq : d.target
  rw [hq] at he
  exact congrArg Path.mk he

theorem not_dependsOn_of_targetsIn (h : targetsIn env p = some []) : ¬ env.DependsOn p q := by
  intro hpath
  obtain ⟨text, hread, htargets⟩ := exists_edges_of_targetsIn h
  obtain ⟨_, ⟨text', hread', d, hd, _⟩, _⟩ := Relation.TransGen.head'_iff.mp hpath
  obtain rfl := Except.ok.inj (hread.symm.trans hread')
  rw [List.map_eq_nil_iff.mp htargets] at hd
  exact List.not_mem_nil hd

/-- A tree with a module that refers to a file with an open bracket, which refers to
declarations. -/
def unbalanced : Disk where
  workingDir := ["p"]
  entries := [(["p"], .directory 0),
    (["p", "m.ts"], .file (some "/// <reference path='b.ts'/>\nexport \x7b\x7d;\n") 0),
    (["p", "b.ts"], .file (some "/// <reference path='a.d.ts'/>\nlet x = (1;\n") 0),
    (["p", "a.d.ts"], .file (some "export \x7b\x7d;\n") 0)]

/-- What is computed of its files, and of the instances that are made for the one and for the
other order. -/
theorem computed_unbalanced :
    (targetsIn (surroundings unbalanced) ⟨"/p/m.ts"⟩ = some ["/p/b.ts"] ∧
      targetsIn (surroundings unbalanced) ⟨"/p/b.ts"⟩ = some ["/p/a.d.ts"] ∧
      targetsIn (surroundings unbalanced) ⟨"/p/a.d.ts"⟩ = some []) ∧
    (Path.isDeclaration ⟨"/p/m.ts"⟩ = false ∧ Path.isDeclaration ⟨"/p/a.d.ts"⟩ = true) ∧
    textWith unbalanced ⟨"/p/b.ts"⟩ (fun text =>
      !(Check.syntactic (Scan.ofText text).tokens).isEmpty) = true ∧
    (textWith unbalanced ⟨"/p/m.ts"⟩ (isQuiet ⟨"/p/m.ts"⟩) = true ∧
      textWith unbalanced ⟨"/p/a.d.ts"⟩ (isQuiet ⟨"/p/a.d.ts"⟩) = true) ∧
    (madeWith unbalanced "m.ts"
        (reportsAll · (workingPath unbalanced) ["m.ts", "a.d.ts"]) = true ∧
      madeWith unbalanced "a.d.ts" (fun i =>
        reportsAll i (workingPath unbalanced) ["a.d.ts", "m.ts"] &&
          (i.optionErrors (workingPath unbalanced)).isEmpty) = true) ∧
    ["m.ts", "a.d.ts"].all (compilesFor unbalanced "m.ts") = true ∧
    ["a.d.ts", "m.ts"].all (compilesFor unbalanced "a.d.ts") = true := by decide +kernel

/-- The file with the bracket is seen if the module comes first, -/
theorem seen_unbalanced :
    Seen (surroundings unbalanced) [⟨"/p/m.ts"⟩, ⟨"/p/a.d.ts"⟩] ⟨"/p/b.ts"⟩ := by
  obtain ⟨⟨hmodule, hbracket, -⟩, ⟨-, hdeclaration⟩, -⟩ := computed_unbalanced
  exact ⟨[⟨"/p/m.ts"⟩], ⟨"/p/a.d.ts"⟩, [], rfl, hdeclaration,
    .single (refersTo_of_targetsIn hbracket), _, List.mem_cons_self ..,
    .inr (.single (refersTo_of_targetsIn hmodule))⟩

/-- and otherwise no file is. -/
theorem not_seen_unbalanced :
    ¬ Seen (surroundings unbalanced) [⟨"/p/a.d.ts"⟩, ⟨"/p/m.ts"⟩] q := by
  obtain ⟨⟨-, -, htargets⟩, ⟨hmodule, -⟩, -⟩ := computed_unbalanced
  have hnone : ∀ q, ¬ (surroundings unbalanced).DependsOn ⟨"/p/a.d.ts"⟩ q := fun q =>
    not_dependsOn_of_targetsIn htargets
  rintro ⟨before, p, after, horder, hdeclaration, hpath, hq⟩
  cases before with
  | nil =>
    obtain ⟨rfl, -⟩ := List.cons.inj horder
    rw [List.nil_append, broughtIn_singleton_iff] at hq
    rcases hq with rfl | hq
    · exact hnone _ hpath
    · exact hnone _ hq
  | cons first before =>
    -- the module is no declaration file
    obtain ⟨-, hrest⟩ := List.cons.inj horder
    have hp : p ∈ [(⟨"/p/m.ts"⟩ : Path)] := by
      rw [hrest]
      exact List.mem_append_right _ (List.mem_cons_self ..)
    rw [List.mem_singleton.mp hp, hmodule] at hdeclaration
    contradiction

theorem exists_error_unbalanced (hcreate : create unbalanced ⟨{}, none⟩ builtinCompiler
      (inputPath (workingPath unbalanced) "m.ts") (workingPath unbalanced) = .ok start)
    (hb : Builds (surroundings unbalanced) (workingPath unbalanced) start ["m.ts", "a.d.ts"]
      compiled i') : ∃ e, e ∈ errorsOf compiled := by
  obtain ⟨-, -, hopen, -, ⟨hmade, -⟩, -⟩ := computed_unbalanced
  have hcontext := isAbsolute_workingPath unbalanced
  have h := Mirrors.of_create hcreate (surroundings unbalanced)
  have hempty := (create_eq hcreate).1
  have hall := holds_of_madeWith hmade hcreate
  have hown : ownInputs start (workingPath unbalanced) ["m.ts", "a.d.ts"] =
      [⟨"/p/m.ts"⟩, ⟨"/p/a.d.ts"⟩] := ownInputs_of_reportsAll hall
  have hseen := hown ▸ seen_unbalanced
  unfold reportsAll at hall
  simp only [Bool.and_eq_true, List.isEmpty_iff] at hall
  obtain ⟨⟨_, hignored⟩, hpatterns⟩ := hall
  obtain ⟨hmirrors, hsetup⟩ := hb.mirrors hcontext h
  have htracks := hb.tracks_of_empty hcontext h hempty (.inr hseen)
  obtain ⟨text, hread, hfault⟩ := exists_text hopen
  obtain ⟨e, he⟩ := exists_mem_errorsIn hmirrors htracks hread (hsetup.filter ▸ hignored)
    (hsetup.filter ▸ hpatterns) (by simpa using hfault)
  exact ⟨e, (hb.mem_errors_of_empty_iff hcontext h hempty e).mpr (.inr ⟨_, .inr hseen, he⟩)⟩

theorem errorsOf_unbalanced (hcreate : create unbalanced ⟨{}, none⟩ builtinCompiler
      (inputPath (workingPath unbalanced) "a.d.ts") (workingPath unbalanced) = .ok start)
    (hb : Builds (surroundings unbalanced) (workingPath unbalanced) start ["a.d.ts", "m.ts"]
      compiled i') : errorsOf compiled = [] := by
  obtain ⟨-, -, -, ⟨hmodule, hdeclarations⟩, ⟨-, hmade⟩, -⟩ := computed_unbalanced
  obtain ⟨hall, hoptions⟩ := Bool.and_eq_true_iff.mp (holds_of_madeWith hmade hcreate)
  have hown : ownInputs start (workingPath unbalanced) ["a.d.ts", "m.ts"] =
      [⟨"/p/a.d.ts"⟩, ⟨"/p/m.ts"⟩] := ownInputs_of_reportsAll hall
  refine errorsOf_eq_nil hb (isAbsolute_workingPath unbalanced)
    (Mirrors.of_create hcreate (surroundings unbalanced)) (create_eq hcreate).1
    (List.isEmpty_iff.mp hoptions) (fun q => ?_) fun p hp => ?_
  · rw [hown]
    exact not_seen_unbalanced
  · rw [hown] at hp
    rcases List.mem_pair.mp hp with rfl | rfl
    · exact exists_text hdeclarations
    · exact exists_text hmodule

/-! ### A first file that has another configuration -/

/-- A tree with two modules, of which one lies next to a configuration with a module system that
is not emitted. -/
def configuredBelow : Disk where
  workingDir := ["p"]
  entries := [(["p"], .directory 0), (["p", "x.ts"], .file (some "export \x7b\x7d;\n") 0),
    (["p", "sub"], .directory 0), (["p", "sub", "y.ts"], .file (some "export \x7b\x7d;\n") 0),
    (["p", "sub", "tsconfig.json"],
      .file (some "\x7b\"compilerOptions\": \x7b\"module\": \"amd\"\x7d\x7d") 0)]

/-- What is computed of its files, and of the instances that are made for the one and for the
other order. -/
theorem computed_configuredBelow :
    (Path.isDeclaration ⟨"/p/x.ts"⟩ = false ∧ Path.isDeclaration ⟨"/p/sub/y.ts"⟩ = false) ∧
    (textWith configuredBelow ⟨"/p/x.ts"⟩ (isQuiet ⟨"/p/x.ts"⟩) = true ∧
      textWith configuredBelow ⟨"/p/sub/y.ts"⟩ (isQuiet ⟨"/p/sub/y.ts"⟩) = true) ∧
    (madeWith configuredBelow "sub/y.ts" (fun i =>
        reportsAll i (workingPath configuredBelow) ["sub/y.ts", "x.ts"] &&
          !(i.optionErrors (workingPath configuredBelow)).isEmpty) = true ∧
      madeWith configuredBelow "x.ts" (fun i =>
        reportsAll i (workingPath configuredBelow) ["x.ts", "sub/y.ts"] &&
          (i.optionErrors (workingPath configuredBelow)).isEmpty) = true) ∧
    ["sub/y.ts", "x.ts"].all (compilesFor configuredBelow "sub/y.ts") = true ∧
    ["x.ts", "sub/y.ts"].all (compilesFor configuredBelow "x.ts") = true := by decide +kernel

theorem exists_error_configuredBelow (hcreate : create configuredBelow ⟨{}, none⟩ builtinCompiler
      (inputPath (workingPath configuredBelow) "sub/y.ts") (workingPath configuredBelow) =
        .ok start)
    (hb : Builds (surroundings configuredBelow) (workingPath configuredBelow) start
      ["sub/y.ts", "x.ts"] compiled i') : ∃ e, e ∈ errorsOf compiled := by
  obtain ⟨-, -, ⟨hmade, -⟩, -⟩ := computed_configuredBelow
  have hcontext := isAbsolute_workingPath configuredBelow
  have h := Mirrors.of_create hcreate (surroundings configuredBelow)
  obtain ⟨hall, hoptions⟩ := Bool.and_eq_true_iff.mp (holds_of_madeWith hmade hcreate)
  rw [Bool.not_eq_true', List.isEmpty_eq_false_iff] at hoptions
  obtain ⟨e, he⟩ := List.exists_mem_of_ne_nil _ hoptions
  refine ⟨e, (hb.mem_errors_of_empty_iff hcontext h (create_eq hcreate).1 e).mpr (.inl ⟨?_, he⟩)⟩
  rw [ownInputs_of_reportsAll hall]
  exact List.cons_ne_nil _ _

theorem errorsOf_configuredBelow (hcreate : create configuredBelow ⟨{}, none⟩ builtinCompiler
      (inputPath (workingPath configuredBelow) "x.ts") (workingPath configuredBelow) = .ok start)
    (hb : Builds (surroundings configuredBelow) (workingPath configuredBelow) start
      ["x.ts", "sub/y.ts"] compiled i') : errorsOf compiled = [] := by
  obtain ⟨⟨hfirst, hsecond⟩, ⟨hx, hy⟩, ⟨-, hmade⟩, -⟩ := computed_configuredBelow
  obtain ⟨hall, hoptions⟩ := Bool.and_eq_true_iff.mp (holds_of_madeWith hmade hcreate)
  have hown : ownInputs start (workingPath configuredBelow) ["x.ts", "sub/y.ts"] =
      [⟨"/p/x.ts"⟩, ⟨"/p/sub/y.ts"⟩] := ownInputs_of_reportsAll hall
  refine errorsOf_eq_nil hb (isAbsolute_workingPath configuredBelow)
    (Mirrors.of_create hcreate (surroundings configuredBelow)) (create_eq hcreate).1
    (List.isEmpty_iff.mp hoptions) (fun q => ?_) fun p hp => ?_
  · rw [hown]
    refine not_seen_of_sources fun p hp => ?_
    rcases List.mem_pair.mp hp with rfl | rfl
    · exact hfirst
    · exact hsecond
  · rw [hown] at hp
    rcases List.mem_pair.mp hp with rfl | rfl
    · exact exists_text hx
    · exact exists_text hy

theorem orderMatters_unbalanced :
    OrderMatters unbalanced ["m.ts", "a.d.ts"] ["a.d.ts", "m.ts"] := by
  obtain ⟨-, -, -, -, -, hfiles, hfiles'⟩ := computed_unbalanced
  exact orderMatters_of_runs hfiles hfiles' (fun hcreate hb => exists_error_unbalanced hcreate hb)
    fun hcreate hb => errorsOf_unbalanced hcreate hb

theorem orderMatters_configuredBelow :
    OrderMatters configuredBelow ["sub/y.ts", "x.ts"] ["x.ts", "sub/y.ts"] := by
  obtain ⟨-, -, -, hfiles, hfiles'⟩ := computed_configuredBelow
  exact orderMatters_of_runs hfiles hfiles'
    (fun hcreate hb => exists_error_configuredBelow hcreate hb)
    fun hcreate hb => errorsOf_configuredBelow hcreate hb

/-- **The order of the files changes what is reported.**  The open bracket is an error if the module
comes before the declarations, and no error is reported if it comes behind them.  And the module
system is an error if the file next to the configuration comes first. -/
theorem order_changes_check :
    OrderMatters unbalanced ["m.ts", "a.d.ts"] ["a.d.ts", "m.ts"] ∧
    OrderMatters configuredBelow ["sub/y.ts", "x.ts"] ["x.ts", "sub/y.ts"] :=
  ⟨orderMatters_unbalanced, orderMatters_configuredBelow⟩

end TypeScriptEngine.CommandLine
