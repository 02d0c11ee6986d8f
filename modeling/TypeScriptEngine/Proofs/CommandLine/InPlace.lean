import TypeScriptEngine.Proofs.CommandLine.Order
import TypeScriptEngine.Proofs.Options.Output
import TypeScriptEngine.Proofs.Resolution.InPlace

/-! # Building in place

Without an output directory the code of a source is written into the directory of the source, with
the stem of its name (`CompilerOptions.outputPath_in_place`).  So a build of sources leaves a tree with
code and maps beside these sources, also if it stops before the end (`builtInPlace_build`).  What is
resolved in this tree is what was resolved before, unless a reference asks for a path that the build
has made a file (`targets_of_build`).  The name of emitted code is such a path: it means the source
until the code is there, and the code from then on (`target_lost_by_build`).
-/

namespace TypeScriptEngine

open TypeScriptEngine.Path Segment

/-! ## Outputs beside their inputs -/

namespace CompilerOptions

variable {options : CompilerOptions} {input project : Path}

/-- Without an output directory, an output has the names of its input, up to the extension. -/
theorem outputPath_in_place (hdir : options.outDir = none) (hproject : project.isAbsolute = true)
    (hinput : input.isAbsolute = true) :
    options.outputPath input project = ofNames (options.emittedNames input.names) := by
  have hrerooted : rerooted project project input = input.names := by
    obtain ⟨common, habove, hbelow⟩ := exists_common project.names input.names
    rw [rerooted]
    generalize apart project.names input.names = sides at habove hbelow ⊢
    rw [habove, hbelow, List.rdrop, List.length_append, Nat.add_sub_cancel, List.take_left]
  -- the output directory is the project's own
  have hown : options.outputPath input project =
      { options with outDir := some project }.outputPath input project := by
    unfold outputPath
    rw [hdir]
    rfl
  rw [hown, outputPath_eq rfl hproject hproject hinput, hrerooted]
  rfl

end CompilerOptions

namespace CommandLine

open Disk Instance Resolution

variable {i start : Instance} {compiled : List Compiled} {c : Compiled} {disk before : Disk}
  {run : Run} {p context : Path} {file : String} {files : List String}

/-- A file that is compiled is a source that a tree holds. -/
structure IsSourceOf (disk : Disk) (c : Compiled) : Prop where
  isAbsolute : c.path.isAbsolute = true
  tracked : isTracked c.path.normalize = true
  readable : ∃ text, disk.read c.path = .ok text

/-- **The names of a source and of its code:** they differ in the extension of the last one. -/
theorem IsSourceOf.exists_names (h : IsSourceOf disk c) (options : CompilerOptions) :
    ∃ directory stem source code, source ∈ ["ts", "tsx"] ∧ code ∈ ["js", "jsx"] ∧
      c.path.normalize = ofNames (directory ++ [stem ++ "." ++ source]) ∧
      (∀ n ∈ directory ++ [stem ++ "." ++ source], IsName n) ∧
      options.emittedNames c.path.names = directory ++ [stem ++ "." ++ code] := by
  obtain ⟨hnames, hnormal⟩ := normalize_eq_ofNames h.isAbsolute
  obtain ⟨name, source, hfile, hsource, hname⟩ := exists_name_of_isTracked h.tracked
  rw [hnormal] at hfile ⊢
  rcases List.eq_nil_or_concat c.path.names with hnil | ⟨directory, last, hconcat⟩
  · rw [hnil, fileName?_ofNames_nil] at hfile
    contradiction
  · rw [List.concat_eq_append] at hconcat
    rw [hconcat] at hnames hfile ⊢
    obtain rfl := Option.some.inj ((fileName?_ofNames_concat hnames).symm.trans hfile)
    have hjson : last.endsWith ".json" = false := by
      have hapart : ∀ source ∈ ["ts", "tsx"], ¬ ".json".toList <:+ ("." ++ source).toList ∧
          ¬ ("." ++ source).toList <:+ ".json".toList := by decide
      obtain ⟨hjs, hsj⟩ := hapart _ hsource
      have hends := endsWith_append_self (stemOf last) ("." ++ source)
      rw [← String.append_assoc, ← hname] at hends
      exact endsWith_eq_false hends hjs hsj
    have hcode : options.outputExtension last ∈ ["js", "jsx"] := by
      rcases options.outputExtension_cases last with he | he <;> rw [he] <;> decide
    refine ⟨directory, stemOf last, source, options.outputExtension last, hsource, hcode, ?_, ?_, ?_⟩
    · rw [← hname]
    · rw [← hname]
      exact hnames
    · rw [CompilerOptions.emittedNames_concat, CompilerOptions.emittedName, hjson]
      rfl

/-- The path of a file that a build in place may write. -/
def IsOutput (before : Disk) (p : Path) : Prop :=
  ∃ names, (∀ n ∈ names, IsName n) ∧ p = ofNames names ∧ before.IsEmitted names

/-- **Where the code of a source is written:** in the directory of the source. -/
theorem IsSourceOf.exists_output (h : IsSourceOf before c) (hdir : i.options.outDir = none)
    (hcurrent : i.currentDir.isAbsolute = true) :
    ∃ directory source name, before.isFile (ofNames (directory ++ [source])) = true ∧
      (∀ n ∈ directory ++ [source], IsName n) ∧ (∀ n ∈ directory ++ [name], IsName n) ∧
      i.options.outputPath c.path i.currentDir = ofNames (directory ++ [name]) ∧
      IsOutput before (ofNames (directory ++ [name])) ∧
      IsOutput before (mapPath (ofNames (directory ++ [name]))) := by
  obtain ⟨directory, stem, source, code, hsource, hcode, hnormal, hnames, hemitted⟩ :=
    h.exists_names i.options
  obtain ⟨text, hread⟩ := h.readable
  have hfile := isFile_of_read (Disk.read_normalize h.isAbsolute hread)
  rw [hnormal] at hfile
  have hdirectory : ∀ n ∈ directory, IsName n := fun n hn => hnames n (List.mem_append_left _ hn)
  have hoffered : ∀ n ∈ i.options.emittedNames c.path.names, IsName n :=
    i.options.isName_emittedNames (normalize_eq_ofNames h.isAbsolute).1
  rw [hemitted] at hoffered
  have hname : IsName (stem ++ "." ++ code) := hoffered _ (by simp)
  -- the map has the name of the code, with its extension behind
  have hmap : IsName (stem ++ "." ++ code ++ ".map") := by
    have hlength : ".map".toList.length = 4 := rfl
    refine isName_of_length ?_ ?_
    · rw [String.toList_append, List.length_append]
      omega
    · rw [String.toList_append, List.mem_append, not_or]
      exact ⟨hname.2.2.2, by decide⟩
  have hmapPath := text_append_ofNames directory hname hmap
  have hextensions : ∀ code ∈ ["js", "jsx"],
      code ∈ codeExtensions ∧ code ++ ".map" ∈ codeExtensions := by decide
  obtain ⟨hcode, hcodeMap⟩ := hextensions code hcode
  refine ⟨directory, _, _, hfile, hnames, hoffered, ?_, ?_, ?_⟩
  · rw [CompilerOptions.outputPath_in_place hdir hcurrent h.isAbsolute, hemitted]
  · exact ⟨_, hoffered, rfl, directory, stem, code, source, hcode, hsource, rfl, hfile⟩
  · refine ⟨_, isName_concat hdirectory hmap, hmapPath, directory, stem, code ++ ".map", source,
      hcodeMap, hsource, ?_, hfile⟩
    rw [String.append_assoc, String.append_assoc]

/-! ## Writing -/

/-- What a step has left behind, whether it went through or not. -/
def leftBy : Except Run Run → Run
  | .ok run | .error run => run

/-- **Writing outputs beside sources is part of a build in place.** -/
theorem builtInPlace_writeAll {outputs : List (Path × String)}
    (houtputs : ∀ output ∈ outputs, IsOutput before output.1) (h : BuiltInPlace before run.disk) :
    BuiltInPlace before (leftBy (writeAll outputs run)).disk := by
  induction outputs generalizing run with
  | nil => exact h
  | cons output outputs ih =>
    obtain ⟨path, text⟩ := output
    obtain ⟨names, hnames, rfl, hemitted⟩ := houtputs _ (List.mem_cons_self ..)
    rw [writeAll, writeFile]
    cases hwrite : run.disk.write 0 (ofNames names) (some text) with
    | error cause => exact h
    | ok disk =>
      have hwritten : WrittenAt before.IsEmitted run.disk disk :=
        (writtenAt_write hnames hwrite).mono fun place hplace => hplace ▸ hemitted
      have hrun : BuiltInPlace before ({ run with disk } : Run).disk := h.trans hwritten
      exact ih (fun o ho => houtputs o (List.mem_cons_of_mem _ ho)) hrun

theorem builtInPlace_writeOutput (hc : IsSourceOf before c) (hdir : i.options.outDir = none)
    (hcurrent : i.currentDir.isAbsolute = true) (h : BuiltInPlace before run.disk) :
    BuiltInPlace before (leftBy (writeOutput i c run)).disk := by
  obtain ⟨directory, source, name, hfile, hsource, hname, hplace, hcode, hmap⟩ :=
    hc.exists_output hdir hcurrent
  have hparent : (ofNames (directory ++ [name])).parent? = some (ofNames directory) :=
    parent?_ofNames (fun n hn => hname n (List.mem_append_left _ hn)) (hname name (by simp))
  have houtputs : ∀ output ∈ filesOf (ofNames (directory ++ [name])) c.output,
      IsOutput before output.1 := by
    unfold filesOf
    split
    · simpa using hcode
    · simpa using ⟨hmap, hcode⟩
  unfold writeOutput makeDirectoryOf
  simp only [hplace, hparent]
  cases hmade : run.disk.makeDirectories 0 (ofNames directory) with
  | error cause => exact h
  | ok disk =>
    obtain rfl := makeDirectories_eq hsource (h.isFile_of_isFile hfile) hmade
    exact builtInPlace_writeAll houtputs h

theorem disk_reportErrors (run : Run) (errors : List HostError) :
    (reportErrors run errors).disk = run.disk := by
  unfold reportErrors
  induction errors generalizing run with
  | nil => rfl
  | cons e errors ih => exact ih _

/-- The run after the errors and the warnings of an output are reported. -/
def reported (output : CompileOutput) (run : Run) : Run :=
  let run := reportErrors run output.errors
  let run := if output.errors.isEmpty then run else run.failed
  output.warnings.foldl (fun run w => run.complain ("warning: " ++ w)) run

theorem buildOutputs_cons (toStdout : Bool) : buildOutputs i toStdout (c :: compiled) run =
    if toStdout then
      buildOutputs i toStdout compiled ((reported c.output run).print c.output.code)
    else writeOutput i c (reported c.output run) >>= buildOutputs i toStdout compiled := rfl

theorem disk_reported (output : CompileOutput) (run : Run) :
    (reported output run).disk = run.disk := by
  have hwarn (warnings : List String) (run : Run) :
      (warnings.foldl (fun run w => run.complain ("warning: " ++ w)) run).disk = run.disk := by
    induction warnings generalizing run with
    | nil => rfl
    | cons w warnings ih => exact ih _
  unfold reported
  rw [hwarn]
  split
  · exact disk_reportErrors _ _
  · exact disk_reportErrors _ _

/-- **A build of sources without an output directory is one in place,** also if it stops before all
outputs are written. -/
theorem builtInPlace_buildOutputs (hdir : i.options.outDir = none)
    (hcurrent : i.currentDir.isAbsolute = true) (toStdout : Bool)
    (hcompiled : ∀ c ∈ compiled, IsSourceOf before c) (h : BuiltInPlace before run.disk) :
    BuiltInPlace before (leftBy (buildOutputs i toStdout compiled run)).disk := by
  induction compiled generalizing run with
  | nil => exact h
  | cons c compiled ih =>
    have hrest := fun c' hc' => hcompiled c' (List.mem_cons_of_mem _ hc')
    have h' : BuiltInPlace before (reported c.output run).disk := (disk_reported c.output run) ▸ h
    rw [buildOutputs_cons]
    split
    · have hprinted : BuiltInPlace before
          ((reported c.output run).print c.output.code).disk := h'
      exact ih hrest hprinted
    · have hwritten := builtInPlace_writeOutput (hcompiled c (List.mem_cons_self ..)) hdir hcurrent h'
      cases hwrite : writeOutput i c (reported c.output run) with
      | error run' =>
        rw [hwrite] at hwritten
        exact hwritten
      | ok run' =>
        rw [hwrite] at hwritten
        have hrun : BuiltInPlace before run'.disk := hwritten
        exact ih hrest hrun

/-! ## The command -/

/-- A call that builds in place: all its files are sources, and no output directory is configured
for the instance that builds them. -/
structure IsInPlace (disk : Disk) (a : Arguments) : Prop where
  sources : ∀ file ∈ a.operands, isTracked (inputPath (workingPath disk) file) = true
  outDir : ∀ {options : LoaderOptions} {file : String} {i : Instance},
    loaderOptions a = .ok options → a.operands.head? = some file →
      create disk ⟨options, none⟩ builtinCompiler (inputPath (workingPath disk) file)
        (workingPath disk) = .ok i → i.options.outDir = none

theorem currentDir_of_create {settings : BuildSettings} {compiler : Compiler}
    (h : create disk settings compiler p context = .ok i) : i.currentDir = context := by
  unfold create at h
  simp only [bind, Except.bind, pure, Except.pure, throw, throwThe, MonadExceptOf.throw] at h
  repeat' split at h
  all_goals first
    | contradiction
    | (obtain rfl := Except.ok.inj h
       rfl)

/-- What was built was read. -/
theorem Builds.isSourceOf {env : Surroundings} (hb : Builds env context start files compiled i)
    (hcontext : context.isAbsolute = true)
    (hfiles : ∀ file ∈ files, isTracked (inputPath context file) = true) :
    ∀ c ∈ compiled, IsSourceOf env.disk c := by
  induction hb with
  | done i => simp
  | step hread hstep hrest ih =>
    intro c hc
    rcases List.mem_cons.mp hc with rfl | hc
    · exact ⟨isAbsolute_join hcontext _, hfiles _ (List.mem_cons_self ..), _, hread⟩
    · exact ih (fun file hfile => hfiles file (List.mem_cons_of_mem _ hfile)) c hc

/-- **What a build leaves if its files are sources and no output directory is configured:** the tree
with code and maps beside these sources. -/
theorem builtInPlace_build {a : Arguments} (h : IsInPlace disk a) :
    BuiltInPlace disk (build disk a).disk := by
  have hstart := WrittenAt.refl disk.IsEmitted disk
  unfold build withCompiled
  simp only
  cases hoptions : loaderOptions a with
  | error message => exact hstart
  | ok options =>
    cases hcompiled : compileIn disk options a.operands with
    | error message =>
      simp only [hcompiled, bind, Except.bind]
      exact hstart
    | ok result =>
      obtain ⟨compiled, registry⟩ := result
      simp only [hcompiled, bind, Except.bind, pure, Except.pure]
      cases hget : registry.get? options.instanceId with
      | none => exact hstart
      | some i =>
        cases hoperands : a.operands with
        | nil =>
          rw [hoperands] at hcompiled
          obtain ⟨rfl, rfl⟩ := Prod.mk.inj (Except.ok.inj hcompiled)
          contradiction
        | cons file files =>
          rw [hoperands] at hcompiled
          obtain ⟨-, start, i', hcreate, hb, rfl⟩ := compileIn_iff.mp hcompiled
          have hcontext := isAbsolute_workingPath disk
          have hsetup := (hb.mirrors hcontext (Mirrors.of_create hcreate _)).2
          have hi : i' = i := by
            have hmem := List.mem_of_find?_eq_some hget
            exact (List.mem_singleton.mp hmem).symm
          subst hi
          refine builtInPlace_buildOutputs ?_ ?_ _ ?_ hstart
          · rw [hsetup.options]
            exact h.outDir hoptions (by rw [hoperands]; rfl) hcreate
          · rw [hsetup.currentDir, currentDir_of_create hcreate]
            exact hcontext
          · exact hb.isSourceOf hcontext (hoperands ▸ h.sources)

/-- **What the name of emitted code means, and what a build in place changes of that.**  In every
tree that holds a source, the name of its code means a file: a source if nothing is there that the
name may mean as it is, and the code itself if it is there without files that have its name and one
more extension.  A build of sources without an output directory writes code and maps beside these
sources only.  So it changes no source and no project, and no target and no edge of a reference but
those that ask for a path which the build has made a file: the path that a specifier is, or one that may
be tried in a package that it names. -/
theorem targets_of_build {a : Arguments} (h : IsInPlace disk a) :
    (∀ (tree : Disk) (resolver : ModuleResolver) (names : List String) (stem : String),
      (∀ n ∈ names, IsName n) → IsName stem →
      (∃ p ∈ sourcesOf names stem, tree.isFile p = true) →
      ∃ target, resolver.resolve tree (ofNames names) ("./" ++ (stem ++ ".js")) = .ok target ∧
        (candidates (ofNames (names ++ [stem ++ ".js"])) ++ sourcesOf names stem).find?
          tree.isFile = some target ∧
        ((∀ p ∈ candidates (ofNames (names ++ [stem ++ ".js"])), tree.isFile p = false) →
          target ∈ sourcesOf names stem ∧ isTracked target = true) ∧
        (tree.isFile (ofNames (names ++ [stem ++ ".js"])) = true →
          (∀ e ∈ extensions,
            tree.isFile (withSuffix (ofNames (names ++ [stem ++ ".js"])) e) = false) →
          target = ofNames (names ++ [stem ++ ".js"]) ∧ isTracked target = false)) ∧
    BuiltInPlace disk (build disk a).disk ∧
    (∀ p, isTracked p = true → ∀ text,
      (build disk a).disk.read p = .ok text ↔ disk.read p = .ok text) ∧
    (∀ base : Path, base.isAbsolute = true →
      ModuleResolver.ofBase (build disk a).disk base = ModuleResolver.ofBase disk base) ∧
    (∀ (resolver : ModuleResolver) (directory : Path) (specifier : String),
      directory.isAbsolute = true →
      (∀ target ∈ resolver.asked disk directory specifier,
        ¬ IsNewFile disk (build disk a).disk target.normalize) →
      resolver.resolve (build disk a).disk directory specifier =
        resolver.resolve disk directory specifier) ∧
    (∀ (resolver : ModuleResolver) (s : SourceText), s.directory.isAbsolute = true →
      (∀ r ∈ s.references,
        ∀ target ∈ resolver.asked disk s.directory (ResolveRequest.askedSpecifier s.directory r),
          ¬ IsNewFile disk (build disk a).disk target.normalize) →
      s.edges (resolver.resolve (build disk a).disk) = s.edges (resolver.resolve disk)) := by
  have hbuilt := builtInPlace_build h
  refine ⟨?_, hbuilt, ?_, ?_, ?_, ?_⟩
  · intro tree resolver names stem hnames hstem hsource
    exact resolve_emitted_name resolver tree hnames hstem hsource
  · intro p hp text
    exact read_iff_of_isTracked hbuilt hp text
  · intro base hbase
    exact ModuleResolver.ofBase_eq hbuilt hbase
  · intro resolver directory specifier hdirectory hnew
    exact ModuleResolver.resolve_eq hbuilt hdirectory hnew
  · intro resolver s hdirectory hnew
    exact SourceText.edges_eq hbuilt hdirectory hnew

/-! ### Two sources and a package -/

/-- A text that refers to a path. -/
def referringText (path : String) : String := "/// <reference path='" ++ path ++ "'/>\n"

/-- A text that refers to a path, a built-in module and a package. -/
def directingText (path : String) : String :=
  referringText path ++ "/// <reference types='fs'/>\n/// <reference types='lib'/>\n"

/-- A tree with a source of some text, beside another source and a package of declarations. -/
def beside (text : String) : Disk where
  workingDir := ["p"]
  entries := [(["p"], .directory 0), (["p", "a.ts"], .file (some "") 0),
    (["p", "b.ts"], .file (some text) 0), (["p", "node_modules"], .directory 0),
    (["p", "node_modules", "lib"], .directory 0),
    (["p", "node_modules", "lib", "index.d.ts"], .file (some "") 0)]

/-- The call that builds the other source. -/
def buildFirst : Arguments := ⟨[], ["a.ts"]⟩

theorem isInPlace_beside {text : String}
    (h : madeWith (beside text) "a.ts" (fun i => i.options.outDir.isNone) = true) :
    IsInPlace (beside text) buildFirst where
  sources := by
    intro file hfile
    obtain rfl := List.mem_singleton.mp hfile
    have hplace : workingPath (beside text) = workingPath (beside "") := rfl
    rw [hplace]
    decide +kernel
  outDir := by
    intro options file i hoptions hfile hcreate
    obtain rfl := Except.ok.inj hoptions
    obtain rfl := Option.some.inj hfile
    exact Option.isNone_iff_eq_none.mp (holds_of_madeWith h hcreate)

/-- References to the source itself, to a built-in module and to a package stay, and the name of the
code means the source before the build and the code behind it. -/
theorem targets_of_build_referring :
    let source : SourceText := ⟨⟨"/p/b.ts"⟩, directingText "a.ts"⟩
    let before := beside (directingText "a.ts")
    let after := (build before buildFirst).disk
    IsInPlace before buildFirst ∧
      (∃ target, ModuleResolver.unbounded.resolve before (ofNames ["p"]) ("./" ++ ("a" ++ ".js")) =
        .ok target ∧ isTracked target = true) ∧
      (∃ target, ModuleResolver.unbounded.resolve after (ofNames ["p"]) ("./" ++ ("a" ++ ".js")) =
        .ok target ∧ isTracked target = false) ∧
      after.read ⟨"/p/b.ts"⟩ = .ok (directingText "a.ts") ∧
      (ModuleResolver.unbounded.resolve after ⟨"/p"⟩ "lib").toOption.map Path.text =
        some "/p/node_modules/lib/index.d.ts" ∧
      source.edges (ModuleResolver.unbounded.resolve after) =
        source.edges (ModuleResolver.unbounded.resolve before) := by
  intro source before after
  have hplace : IsInPlace before buildFirst := isInPlace_beside (by decide +kernel)
  obtain ⟨hmeans, -, hread, -, htargets, hedges⟩ := targets_of_build hplace
  have hnames : ∀ n ∈ ["p"], IsName n := by
    intro n hn
    rw [List.mem_singleton.mp hn]
    refine ⟨?_, ?_, ?_, ?_⟩ <;> decide
  have hstem : IsName "a" := by refine ⟨?_, ?_, ?_, ?_⟩ <;> decide
  have hsources : ∀ tree : Disk, tree.isFile (ofNames (["p"] ++ ["a" ++ "." ++ "ts"])) = true →
      ∃ p ∈ sourcesOf ["p"] "a", tree.isFile p = true := fun tree hfile =>
    ⟨_, List.mem_cons_self .., hfile⟩
  obtain ⟨target, htarget, -, hfirst, -⟩ := hmeans before .unbounded ["p"] "a" hnames
    hstem (hsources _ (by decide +kernel))
  obtain ⟨code, hcode, -, -, hlast⟩ := hmeans after .unbounded
    ["p"] "a" hnames hstem (hsources _ (by decide +kernel))
  refine ⟨hplace, ⟨target, htarget, (hfirst (by decide +kernel)).2⟩,
    ⟨code, hcode, (hlast (by decide +kernel) (by decide +kernel)).2⟩,
    (hread _ (by decide +kernel) _).mpr (by decide +kernel), ?_, ?_⟩
  · rw [htargets .unbounded ⟨"/p"⟩ "lib" (by decide +kernel) (by decide +kernel)]
    decide +kernel
  · exact hedges .unbounded _ (by decide +kernel) (by decide +kernel)

/-- **A reference to the code is lost:** it means the source before the build, and the code, which
is not tracked, behind it. -/
theorem target_lost_by_build :
    let before := beside (referringText "a.js")
    let after := (build before buildFirst).disk
    IsInPlace before buildFirst ∧
      (ModuleResolver.unbounded.resolve before ⟨"/p"⟩ "./a.js").toOption.map
          (fun p => (p.text, isTracked p)) = some ("/p/a.ts", true) ∧
      (ModuleResolver.unbounded.resolve after ⟨"/p"⟩ "./a.js").toOption.map
          (fun p => (p.text, isTracked p)) = some ("/p/a.js", false) ∧
      targetsIn (surroundings before) ⟨"/p/b.ts"⟩ = some ["/p/a.ts"] ∧
      targetsIn (surroundings after) ⟨"/p/b.ts"⟩ = some [] := by
  refine ⟨isInPlace_beside (by decide +kernel), ?_, ?_, ?_, ?_⟩ <;> decide +kernel

end CommandLine

end TypeScriptEngine
