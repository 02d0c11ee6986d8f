import TypeScriptEngine.Proofs.Config.Layers
import TypeScriptEngine.Service.Builtin

/-! # The configuration of an instance

Loading the configuration of an instance comes to an end, fails with a cycle just if the chain of
files comes back to one of them, and gives the instance the options of the first layers that set
them, and the references of the first file (`configured_by_chain`).  A configuration that is found by
a relative path is the exception: an output directory in it is taken from its directory twice
(`relative_outDir_taken_twice`).
-/

namespace TypeScriptEngine

/-- The configuration files of the projects that an instance builds on. -/
def ProjectLayout.configs : ProjectLayout → List Path
  | .single => []
  | .composite references => references.map ProjectReference.config

namespace Instance

open Config

variable {disk : Disk} {settings : BuildSettings} {compiler : Compiler} {file context p : Path}
  {i : Instance}

/-- What an instance that has a configuration is made of. -/
theorem create_configured (hlocated : locate? disk file context settings.loader.configFileName = some p)
    (h : create disk settings compiler file context = .ok i) :
    ∃ project, load disk p = .ok project ∧
      CompilerOptions.resolve settings.loader.queryPatch project.options project.directory =
        .ok i.options ∧
      layoutOf disk compiler (some p) context project.references = .ok i.layout := by
  unfold create at h
  simp only [hlocated, bind, Except.bind, pure, Except.pure, throw, throwThe,
    MonadExceptOf.throw] at h
  cases hload : load disk p with
  | error e => simp [loadConfig, hload] at h
  | ok project =>
    simp only [loadConfig, hload, Option.elim_some] at h
    cases hoptions : CompilerOptions.resolve settings.loader.queryPatch project.options
        project.directory with
    | error e => simp [hoptions] at h
    | ok options =>
      simp only [hoptions] at h
      cases hlayout : layoutOf disk compiler (some p) context project.references with
      | error e => simp [hlayout] at h
      | ok layout =>
        simp only [hlayout] at h
        split at h
        · obtain rfl := Except.ok.inj h
          exact ⟨project, rfl, hoptions, hlayout⟩
        · contradiction

/-- A project that is referred to is known by its normal path. -/
theorem config_of_load {reference : ProjectReference}
    (h : ProjectReference.load disk p = .ok reference) : reference.config = p.normalize := by
  unfold ProjectReference.load at h
  simp only [bind, Except.bind, pure, Except.pure, throw, throwThe, MonadExceptOf.throw] at h
  cases hload : load disk p with
  | error e => simp [hload] at h
  | ok project =>
    obtain ⟨_, _, _, hpath, _⟩ := load_eq_ok hload
    simp only [hload] at h
    split at h
    · contradiction
    · split at h
      · contradiction
      · obtain rfl := Except.ok.inj h
        exact hpath

theorem configs_of_mapM {references : List Path} {projects : List ProjectReference}
    (h : references.mapM (ProjectReference.load disk) = .ok projects) :
    projects.map ProjectReference.config = references.map Path.normalize := by
  induction references generalizing projects with
  | nil =>
    obtain rfl := Except.ok.inj h
    rfl
  | cons reference references ih =>
    rw [List.mapM_cons] at h
    cases hreference : ProjectReference.load disk reference with
    | error e =>
      rw [hreference] at h
      cases h
    | ok project =>
      cases hrest : references.mapM (ProjectReference.load disk) with
      | error e =>
        rw [hreference, hrest] at h
        cases h
      | ok rest =>
        rw [hreference, hrest] at h
        obtain rfl := Except.ok.inj h
        rw [List.map_cons, List.map_cons, config_of_load hreference, ih hrest]

/-- An instance builds on the projects that are referred to, if its compiler can. -/
theorem configs_of_layoutOf {config : Option Path} {references : List Path} {layout : ProjectLayout}
    (h : layoutOf disk compiler config context references = .ok layout) :
    layout.configs =
      if compiler.supportsReferences then references.map Path.normalize else [] := by
  unfold layoutOf at h
  split at h
  · rename_i hnone
    obtain rfl := Except.ok.inj h
    rw [Bool.or_eq_true, List.isEmpty_iff, Bool.not_eq_true'] at hnone
    rcases hnone with rfl | hnone
    · exact (ite_self _).symm
    · rw [hnone]
      rfl
  · rename_i hsome
    rw [Bool.or_eq_true, not_or, Bool.not_eq_true', Bool.not_eq_false] at hsome
    cases hprojects : references.mapM (ProjectReference.load disk) with
    | error e =>
      rw [hprojects] at h
      cases h
    | ok projects =>
      rw [hprojects] at h
      obtain rfl := Except.ok.inj h
      rw [if_pos hsome.2]
      exact configs_of_mapM hprojects

/-- **The configuration of an instance, and what comes of it.**  Following the chain of files that
build on each other comes to an end, on any tree, and fails with a cycle just if a path is met again;
by absolute paths that means just if a file is met again.  An instance that is made from the
configuration has each option from the first layer that sets it: the shorthands of the host, the
options that it sets, and the files of the chain from the first one on.  An output directory that a
file sets is taken from the directory of that file; if the configuration was found by a relative
path, the outcome is taken from the directory of the configuration once more.  The projects that the
instance builds on are those that the first file refers to. -/
theorem configured_by_chain (disk : Disk) (p : Path) :
    Loads disk [] p.normalize (loadChain disk (disk.spellingBound + 1) [] p.normalize) ∧
    ((∃ q, load disk p = .error (.baseCycle q)) ↔
      ComesBack disk (fun a b => (a == b) = true) p.normalize) ∧
    (p.isAbsolute = true → ((∃ q, load disk p = .error (.baseCycle q)) ↔
      ComesBack disk (SameFile disk) p.normalize)) ∧
    ∀ (settings : BuildSettings) compiler file context i,
      locate? disk file context settings.loader.configFileName = some p →
      create disk settings compiler file context = .ok i →
      ∃ first rest references, Chain disk p.normalize (first :: rest) ∧
        let base := directoryOf p.normalize
        SetBy (settings.loader.layers base ++ (first :: rest).map (ConfigFile.layerFrom base))
          i.options ∧
        (p.isAbsolute = true →
          SetBy (settings.loader.layers base ++ (first :: rest).map ConfigFile.layer) i.options) ∧
        (first.record.references.getD []).mapM (referencedConfig disk base) = .ok references ∧
        i.layout.configs =
          if compiler.supportsReferences then references.map Path.normalize else [] := by
  refine ⟨loads_load disk p, load_cycle_iff disk p, fun hp => ?_, ?_⟩
  · rw [load_cycle_iff, comesBack_iff_sameFile hp]
  · intro settings compiler file context i hlocated hcreate
    obtain ⟨project, hload, hoptions, hlayout⟩ := create_configured hlocated hcreate
    obtain ⟨record, hchain, hreferences, _, hdirectory, hpatch⟩ := load_eq_ok hload
    have hloads := loads_load disk p
    rw [hchain] at hloads
    obtain ⟨first, rest, hfiles, _, hfirst, hmerged⟩ := hloads.exists_chain
    rw [hdirectory] at hoptions
    have hset := setBy_of_resolve (hpatch.trans hmerged) hoptions
    refine ⟨first, rest, project.references, hfiles, hset, fun hp => ?_, hfirst ▸ hreferences,
      configs_of_layoutOf hlayout⟩
    have hnamed := isNamed_of_mem_chain hfiles (Path.exists_ofNames hp)
    have hlayers : (first :: rest).map (ConfigFile.layerFrom (directoryOf p.normalize)) =
        (first :: rest).map ConfigFile.layer :=
      List.map_congr_left fun file hfile => (hnamed file hfile).layerFrom_eq _
    rwa [hlayers] at hset

/-- A project whose configuration builds on one in another directory, and refers to a project. -/
def chainedProject : Disk where
  workingDir := ["p"]
  entries := [(["p"], .directory 0), (["p", "conf"], .directory 0), (["q"], .directory 0),
    (["p", "tsconfig.json"], .file (some ("\x7bextends: './conf/base', " ++
      "compilerOptions: \x7bcomposite: true\x7d, references: [\x7bpath: '../q'\x7d]\x7d")) 0),
    (["p", "conf", "base.json"], .file (some
      "\x7bcompilerOptions: \x7boutDir: 'out', target: 'es2015'\x7d\x7d") 0),
    (["q", "tsconfig.json"], .file (some "\x7bfiles: []\x7d") 0)]

/-- What a host asks for that sets the shorthand for source maps. -/
def mappingSettings : BuildSettings := ⟨{ sourceMap := some true }, none⟩

/-- An instance for the project has an option of the host, the target and the output directory of the
second file, and declarations because the first file is of a composite project. -/
theorem configured_by_chain_chainedProject :
    ∃ i files, create chainedProject mappingSettings builtinCompiler ⟨"/p/a.ts"⟩ ⟨"/p"⟩ = .ok i ∧
      Chain chainedProject ⟨"/p/tsconfig.json"⟩ files ∧
      SetBy (mappingSettings.loader.layers ⟨"/p"⟩ ++ files.map ConfigFile.layer) i.options ∧
      i.options.sourceMap = true ∧ i.options.target = .es2015 ∧
      i.options.outDir.map Path.text = some "/p/conf/out" ∧ i.options.declaration = true ∧
      i.layout.configs.map Path.text = ["/q/tsconfig.json"] := by
  have hlocated : (locate? chainedProject ⟨"/p/a.ts"⟩ ⟨"/p"⟩ "tsconfig.json").map Path.text =
      some "/p/tsconfig.json" := by decide +kernel
  obtain ⟨p, hlocated, hp⟩ := Option.map_eq_some_iff.mp hlocated
  obtain rfl : p = ⟨"/p/tsconfig.json"⟩ := congrArg Path.mk hp
  have hchecks : ((create chainedProject mappingSettings builtinCompiler ⟨"/p/a.ts"⟩
      ⟨"/p"⟩).toOption.any fun i => i.options.sourceMap && i.options.target == .es2015 &&
        i.options.outDir.map Path.text == some "/p/conf/out" && i.options.declaration &&
        i.layout.configs.map Path.text == ["/q/tsconfig.json"]) = true := by
    decide +kernel
  cases hcreate : create chainedProject mappingSettings builtinCompiler ⟨"/p/a.ts"⟩ ⟨"/p"⟩ with
  | error e =>
    rw [hcreate] at hchecks
    cases hchecks
  | ok i =>
    rw [hcreate] at hchecks
    simp only [Except.toOption, Option.any_some, Bool.and_eq_true, beq_iff_eq] at hchecks
    obtain ⟨⟨⟨⟨hmap, htarget⟩, houtDir⟩, hdeclaration⟩, hconfigs⟩ := hchecks
    obtain ⟨_, _, _, hinstance⟩ := configured_by_chain chainedProject ⟨"/p/tsconfig.json"⟩
    obtain ⟨first, rest, _, hchain, _, hset, _⟩ :=
      hinstance mappingSettings builtinCompiler ⟨"/p/a.ts"⟩ ⟨"/p"⟩ i hlocated hcreate
    exact ⟨i, first :: rest, rfl, hchain, hset rfl, hmap, htarget, houtDir, hdeclaration, hconfigs⟩

/-- A directory whose configuration names an output directory, seen from above it. -/
def relativeProject : Disk where
  workingDir := ["w"]
  entries := [(["w"], .directory 0), (["w", "src"], .directory 0),
    (["w", "src", "tsconfig.json"], .file (some "\x7bcompilerOptions: \x7boutDir: 'out'\x7d\x7d") 0)]

/-- What its configuration says. -/
def relativeRecord : ConfigRecord := ⟨none, { outDir := some "out" }, none, none, none, none⟩

/-- **By a relative path the output directory is taken twice.**  The only layer that sets it means
the directory `src/out`, but the instance has another one. -/
theorem relative_outDir_taken_twice :
    ∃ i, create relativeProject ⟨{}, none⟩ builtinCompiler ⟨"src/a.ts"⟩ ⟨"/w"⟩ = .ok i ∧
      i.config.map Path.text = some "src/tsconfig.json" ∧
      Chain relativeProject ⟨"src/tsconfig.json"⟩ [⟨⟨"src/tsconfig.json"⟩, relativeRecord⟩] ∧
      (ConfigFile.outDir ⟨⟨"src/tsconfig.json"⟩, relativeRecord⟩).map Path.text = some "src/out" ∧
      i.options.outDir.map Path.text = some "src/src/out" ∧
      ¬ SetBy (LoaderOptions.layers {} ⟨"src"⟩ ++
        [ConfigFile.layer ⟨⟨"src/tsconfig.json"⟩, relativeRecord⟩]) i.options := by
  have hchecks : ((create relativeProject ⟨{}, none⟩ builtinCompiler ⟨"src/a.ts"⟩
      ⟨"/w"⟩).toOption.any fun i => i.config.map Path.text == some "src/tsconfig.json" &&
        i.options.outDir.map Path.text == some "src/src/out") = true := by
    decide +kernel
  have hstated : stated? relativeProject ⟨"src/tsconfig.json"⟩ = some relativeRecord := by
    decide +kernel
  have hdir : (ConfigFile.outDir ⟨⟨"src/tsconfig.json"⟩, relativeRecord⟩).map Path.text =
      some "src/out" := by decide +kernel
  cases hcreate : create relativeProject ⟨{}, none⟩ builtinCompiler ⟨"src/a.ts"⟩ ⟨"/w"⟩ with
  | error e =>
    rw [hcreate] at hchecks
    cases hchecks
  | ok i =>
    rw [hcreate] at hchecks
    simp only [Except.toOption, Option.any_some, Bool.and_eq_true, beq_iff_eq] at hchecks
    obtain ⟨hconfig, houtDir⟩ := hchecks
    refine ⟨i, rfl, hconfig, .last hstated rfl, hdir, houtDir, fun hset => ?_⟩
    have hsame : i.options.outDir =
        ConfigFile.outDir ⟨⟨"src/tsconfig.json"⟩, relativeRecord⟩ := hset.outDir
    rw [hsame, hdir] at houtDir
    exact absurd houtDir (by decide)

end Instance

end TypeScriptEngine
