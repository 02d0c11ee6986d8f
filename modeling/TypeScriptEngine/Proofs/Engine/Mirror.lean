import TypeScriptEngine.Proofs.Engine.Code
import TypeScriptEngine.Proofs.Engine.Reporting

/-! # Instances that show a file tree

If a host builds the files of a tree as they are, and the tree and the resolver stay the same, then
the instance `Mirrors` the tree: each of its files has the text of the tree.  Then what is tracked
behind a build is what was tracked before, the file, and what the file depends on in the tree
(`Mirrors.tracks_compile_iff`).  And two such instances with one setup find the same errors in each
file that both of them track (`Mirrors.errorsIn_eq`), and can build the same files
(`Mirrors.exists_compiled`), however they have come about.
-/

namespace TypeScriptEngine

open Relation TypeScriptEngine.Path DependencyGraph

namespace Surroundings

/-- The text that the tree has for a file refers to another file. -/
def RefersTo (env : Surroundings) (p q : Path) : Prop :=
  ∃ text, env.disk.read p = .ok text ∧
    ∃ d ∈ SourceText.edges ⟨p, text⟩ env.resolve, d.target = q

/-- **In the tree, a file depends on another one,** directly or through others. -/
def DependsOn (env : Surroundings) (p q : Path) : Prop := TransGen env.RefersTo p q

end Surroundings

namespace Instance

open Builtin Workspace

variable {env : Surroundings} {start i i' : Instance} {context p q : Path} {r : CompileRequest}

/-! ## One setup -/

/-- The two instances differ only in what they have seen. -/
structure SameSetup (i i' : Instance) : Prop extends SameSession i i' where
  layout : i'.layout = i.layout
  filter : i'.filter = i.filter
  style : i'.style = i.style

theorem SameSetup.refl (i : Instance) : SameSetup i i := ⟨⟨rfl, rfl, rfl, rfl, rfl⟩, rfl, rfl, rfl⟩

theorem SameSetup.symm (h : SameSetup i i') : SameSetup i' i :=
  ⟨⟨h.settings.symm, h.compiler.symm, h.options.symm, h.currentDir.symm, h.libraries.symm⟩,
    h.layout.symm, h.filter.symm, h.style.symm⟩

theorem SameSetup.trans {i'' : Instance} (h : SameSetup i i') (h' : SameSetup i' i'') :
    SameSetup i i'' :=
  ⟨⟨h'.settings.trans h.settings, h'.compiler.trans h.compiler, h'.options.trans h.options,
      h'.currentDir.trans h.currentDir, h'.libraries.trans h.libraries⟩,
    h'.layout.trans h.layout, h'.filter.trans h.filter, h'.style.trans h.style⟩

theorem Move.sameSetup (h : Move env i i') : SameSetup i i' := by
  cases h <;> exact ⟨⟨rfl, rfl, rfl, rfl, rfl⟩, rfl, rfl, rfl⟩

theorem sameSetup_after (i : Instance) (env : Surroundings) (hw : i.workspace.WellKept)
    (step : HostStep) : SameSetup i (i.after env step) :=
  (moves_induction (P := SameSetup i) (fun hmove _ hj => hj.trans hmove.sameSetup)
    (moves_after i env hw step) hw (.refl i)).2

theorem SameSetup.owner?_eq (h : SameSetup i i') (p : Path) : i'.owner? p = i.owner? p := by
  unfold owner?
  rw [h.layout]

theorem SameSetup.report_eq (h : SameSetup i i') (context : Path) (ds : List Diagnostic) :
    i'.report context ds = i.report context ds := by
  unfold report
  rw [h.filter, h.style]

theorem SameSetup.optionErrors_eq (h : SameSetup i i') (hcompiler : i.compiler = builtinCompiler)
    (context : Path) : i'.optionErrors context = i.optionErrors context := by
  have hoptions : i'.compiler.service.optionsDiagnostics i'.hostView =
      i.compiler.service.optionsDiagnostics i.hostView := by
    rw [h.compiler, hcompiler]
    exact congrArg (fun options : CompilerOptions => options.module.diagnostics) h.options
  unfold optionErrors
  rw [h.report_eq, hoptions]

/-! ## Texts of the tree -/

/-- The built-in compiler works on files with the texts that the tree has. -/
structure Mirrors (env : Surroundings) (i : Instance) : Prop where
  reachable : Reachable (fun e => e.resolve = env.resolve) i
  compiler : i.compiler = builtinCompiler
  texts : ∀ file ∈ i.workspace.files.files, env.disk.read file.path = .ok file.text

namespace Mirrors

/-- A new instance has no files yet. -/
theorem of_create {disk : Disk} {settings : BuildSettings} {file context : Path}
    (h : create disk settings builtinCompiler file context = .ok i) (env : Surroundings) :
    Mirrors env i := by
  obtain ⟨hworkspace, _, hcompiler, _⟩ := create_eq h
  refine ⟨.created h, hcompiler, fun file hfile => ?_⟩
  rw [hworkspace] at hfile
  contradiction

variable (h : Mirrors env i)

include h

theorem wellKept : i.workspace.WellKept := h.reachable.wellKept

theorem sound : Sound i.hostView i.cache := h.reachable.sound h.compiler

/-- A tracked file has the text of the tree, and the edges of that text. -/
theorem exists_file (hp : i.workspace.Tracks p) :
    ∃ file, i.workspace.files.get? p = some file ∧ env.disk.read p = .ok file.text ∧
      SourceText.Resolves ⟨p, file.text⟩ env.resolve ∧
      i.workspace.graph.dependencies p = SourceText.edges ⟨p, file.text⟩ env.resolve := by
  obtain ⟨file, hget⟩ := Option.isSome_iff_exists.mp hp.tracked
  obtain ⟨hmem, hpath⟩ := h.wellKept.files.get?_eq_some_iff.mp hget
  rw [hp.normal] at hpath
  subst hpath
  exact ⟨file, hget, h.texts file hmem, h.reachable.faithful file hmem⟩

theorem refersTo_iff (hp : i.workspace.Tracks p) :
    i.workspace.graph.RefersTo p q ↔ env.RefersTo p q := by
  obtain ⟨file, _, htext, _, hedges⟩ := h.exists_file hp
  unfold RefersTo Surroundings.RefersTo
  rw [hedges]
  constructor
  · exact fun hd => ⟨file.text, htext, hd⟩
  · rintro ⟨text, htext', hd⟩
    obtain rfl := Except.ok.inj (htext.symm.trans htext')
    exact hd

/-- Whatever a tracked file depends on in the tree is tracked, and the graph says so. -/
theorem tracks_of_dependsOn (hp : i.workspace.Tracks p) (hpath : env.DependsOn p q) :
    i.workspace.Tracks q ∧ i.workspace.graph.DependsOn p q := by
  induction hpath with
  | single hedge =>
    have hedge := (h.refersTo_iff hp).mpr hedge
    exact ⟨h.wellKept.tracks_of_refersTo hedge, .single hedge⟩
  | tail _ hedge ih =>
    have hedge := (h.refersTo_iff ih.1).mpr hedge
    exact ⟨h.wellKept.tracks_of_refersTo hedge, ih.2.tail hedge⟩

theorem dependsOn_iff (hp : i.workspace.Tracks p) :
    i.workspace.graph.DependsOn p q ↔ env.DependsOn p q := by
  refine ⟨fun hpath => ?_, fun hpath => (h.tracks_of_dependsOn hp hpath).2⟩
  induction hpath using TransGen.head_induction_on with
  | single hedge => exact .single ((h.refersTo_iff hp).mp hedge)
  | head hedge _ ih =>
    exact .head ((h.refersTo_iff hp).mp hedge) (ih (h.wellKept.tracks_of_refersTo hedge))

/-- Only tracked files have dependencies in the graph. -/
theorem tracks_of_graph (hp : p.IsNormal) (hpath : i.workspace.graph.DependsOn p q) :
    i.workspace.Tracks p := by
  obtain ⟨_, ⟨d, hd, _⟩, _⟩ := TransGen.head'_iff.mp hpath
  exact ⟨hp, h.wellKept.sources p (List.ne_nil_of_mem hd)⟩

end Mirrors

/-! ## Errors -/

namespace Mirrors

variable (h : Mirrors env i) (h' : Mirrors env i')

include h h'

theorem namesIn_eq (hp : i.workspace.Tracks p) (hp' : i'.workspace.Tracks p) :
    namesIn i'.hostView p = namesIn i.hostView p := by
  obtain ⟨file, hget, htext, _⟩ := h.exists_file hp
  obtain ⟨file', hget', htext', _⟩ := h'.exists_file hp'
  have hget : i.hostView.files.get? p = some file := hget
  have hget' : i'.hostView.files.get? p = some file' := hget'
  unfold namesIn
  rw [hget, hget', Option.elim_some, Option.elim_some,
    Except.ok.inj (htext'.symm.trans htext)]

theorem transitiveDependencies_eq (hp : i.workspace.Tracks p) (hp' : i'.workspace.Tracks p) :
    i'.workspace.graph.transitiveDependencies p = i.workspace.graph.transitiveDependencies p :=
  transitiveDependencies_congr h'.wellKept.normalTargets h.wellKept.normalTargets fun _ =>
    (h'.dependsOn_iff hp').trans (h.dependsOn_iff hp).symm

/-- A file of the tree has the same faults wherever it is tracked. -/
theorem faults_eq (hlibraries : i'.libraries = i.libraries) (hp : i.workspace.Tracks p)
    (hp' : i'.workspace.Tracks p) :
    i'.syntacticFaults p = i.syntacticFaults p ∧ i'.semanticFaults p = i.semanticFaults p := by
  obtain ⟨file, hget, htext, _⟩ := h.exists_file hp
  obtain ⟨file', hget', htext', _⟩ := h'.exists_file hp'
  have he : file'.text = file.text := Except.ok.inj (htext'.symm.trans htext)
  -- the names that the file sees are those of the same other files
  have hnames : ((i'.workspace.graph.transitiveDependencies p).filter
        fun q => !(q == p)).flatMap (namesIn i'.hostView) =
      ((i.workspace.graph.transitiveDependencies p).filter
        fun q => !(q == p)).flatMap (namesIn i.hostView) := by
    rw [h.transitiveDependencies_eq h' hp hp']
    refine List.flatMap_congr fun q hq => ?_
    have hq := (List.mem_filter.mp hq).1
    have hnormal := isNormal_of_mem_transitiveDependencies h.wellKept.normalTargets hq
    have hpath := (h.dependsOn_iff hp).mp
      ((isIn_transitiveDependencies h.wellKept.normalTargets hnormal).mp (isIn_of_mem hq))
    exact h.namesIn_eq h' (h.tracks_of_dependsOn hp hpath).1 (h'.tracks_of_dependsOn hp' hpath).1
  rw [h.reachable.syntacticFaults_eq h.compiler hget,
    h'.reachable.syntacticFaults_eq h'.compiler hget',
    h.reachable.semanticFaults_eq h.compiler hget,
    h'.reachable.semanticFaults_eq h'.compiler hget', hnames, hlibraries]
  unfold diagnosticsOf declarationFaults freshScan
  simp only [he, and_self]

/-- **A file of the tree has the same errors wherever it is tracked.** -/
theorem errorsIn_eq (hsetup : SameSetup i i') (hp : i.workspace.Tracks p)
    (hp' : i'.workspace.Tracks p) (context : Path) :
    i'.errorsIn context p = i.errorsIn context p := by
  obtain ⟨hsyntactic, hsemantic⟩ := h.faults_eq h' hsetup.libraries hp hp'
  unfold errorsIn
  rw [hsyntactic, hsemantic, hsetup.report_eq]

end Mirrors

/-! ## Parts of a build -/

theorem compile_of_unowned (env : Surroundings) (howner : i.owner? r.file = none) :
    i.compile env r = (i.takeIn env r).andThen fun i _ => ⟨(i.produce r).2, [], (i.produce r).1⟩ := by
  unfold compile
  rw [howner]

theorem compile_of_owned (env : Surroundings) {reference : ProjectReference}
    (howner : i.owner? r.file = some reference) :
    i.compile env r = i.compileOwned env reference r := by
  unfold compile
  rw [howner]

/-- A file that no referenced project owns is built by taking in its text and emitting it. -/
theorem parts_of_compiled (howner : i.owner? r.file = none) {output : CompileOutput}
    (hok : (i.compile env r).result = .ok output) :
    (i.takeIn env r).result = .ok () ∧ ((i.takeIn env r).state.produce r).1 = .ok output ∧
      (i.compile env r).state = ((i.takeIn env r).state.produce r).2 := by
  rw [compile_of_unowned env howner] at hok ⊢
  cases htake : (i.takeIn env r).result with
  | error e =>
    rw [Outcome.andThen_of_error htake] at hok
    contradiction
  | ok _ =>
    rw [Outcome.result_andThen_of_ok htake] at hok
    exact ⟨rfl, hok, Outcome.state_andThen_of_ok htake⟩

theorem workspace_compileOwned (i : Instance) (env : Surroundings) (reference : ProjectReference)
    (r : CompileRequest) : (i.compileOwned env reference r).state.workspace = i.workspace := by
  unfold compileOwned
  simp only
  split
  · rfl
  · unfold checkMap
    split <;> rfl

/-- A file of another project is built if the output of that project is there. -/
theorem exists_compiledOwned_iff {reference : ProjectReference} :
    (∃ output, (i.compileOwned env reference r).result = .ok output) ↔
      ∃ text, env.disk.read (reference.outputOf r.file) = .ok text := by
  unfold compileOwned
  simp only
  cases env.disk.read (reference.outputOf r.file) with
  | error e => exact ⟨fun ⟨_, h⟩ => by contradiction, fun ⟨_, h⟩ => by contradiction⟩
  | ok text => exact ⟨fun _ => ⟨text, rfl⟩, fun _ => ⟨_, rfl⟩⟩

/-- No errors are reported for it. -/
theorem errors_compileOwned {reference : ProjectReference} {output : CompileOutput}
    (h : (i.compileOwned env reference r).result = .ok output) : output.errors = [] := by
  unfold compileOwned at h
  simp only at h
  cases hread : env.disk.read (reference.outputOf r.file) with
  | error e =>
    rw [hread] at h
    contradiction
  | ok text =>
    rw [hread] at h
    obtain rfl := Except.ok.inj h
    rfl

/-- Emitting and checking change what is remembered, and nothing else. -/
theorem state_produce (i : Instance) (r : CompileRequest) :
    (i.produce r).2 = { i with
      cache := ((i.collectDiagnostics r.file).run
        ((i.compiler.service.emit i.hostView r.file).run i.cache).2).2 } := by
  unfold produce
  simp only
  repeat' split
  all_goals rfl

/-- So they change no errors. -/
theorem errorsIn_produce (hcompiler : i.compiler = builtinCompiler) (hw : i.workspace.WellKept)
    (hsound : Sound i.hostView i.cache) (r : CompileRequest) (context p : Path) :
    (i.produce r).2.errorsIn context p = i.errorsIn context p := by
  have hemitted := (steady_service_emit hw hcompiler r.file).sound hsound
  have hsound' := (steady_collectDiagnostics hw hcompiler r.file).sound hemitted
  have hsyntactic : Steady i.hostView (i.compiler.service.syntacticDiagnostics i.hostView p) := by
    rw [hcompiler]
    exact steady_syntacticDiagnostics hw.files p
  have hsemantic : Steady i.hostView (i.compiler.service.semanticDiagnostics i.hostView p) := by
    rw [hcompiler]
    exact steady_semanticDiagnostics hw.files p
  rw [state_produce]
  exact congrArg (i.report context) (congrArg₂ (· ++ ·)
    ((hsyntactic.eq_fresh hsound').trans (hsyntactic.eq_fresh hsound).symm)
    ((hsemantic.eq_fresh hsound').trans (hsemantic.eq_fresh hsound).symm))

/-! ## Builds of the tree -/

theorem isNormal_file (r : CompileRequest) : r.file.IsNormal := isNormal_normalize _

/-- A load sees the texts of the tree, if its root has the text of the tree. -/
theorem textIn_eq_read (root : SourceText) (hroot : root.path.IsNormal) (hp : p.IsNormal)
    (htext : env.disk.read root.path = .ok root.text) :
    root.textIn env.disk p = env.disk.read p := by
  unfold SourceText.textIn
  split
  · rename_i he
    rw [hp.eq_of_beq hroot he, htext]
  · rfl

/-- What lies behind a file of the tree is what the file depends on. -/
theorem dependsOn_of_behind {w : Workspace} {root : SourceText} (h : Behind env w root p)
    (hroot : root.path.IsNormal) (htext : env.disk.read root.path = .ok root.text) :
    p.IsNormal ∧ (p = root.path ∨ env.DependsOn root.path p) := by
  induction h with
  | root => exact ⟨hroot, .inl rfl⟩
  | @step p text d _ hread hd _ ih =>
    have hedge : env.RefersTo p d.target :=
      ⟨text, textIn_eq_read root hroot ih.1 htext ▸ hread, d, hd, rfl⟩
    refine ⟨SourceText.isNormal_target_of_mem_edges hd, .inr ?_⟩
    rcases ih.2 with rfl | hpath
    · exact .single hedge
    · exact hpath.tail hedge

/-- What is taken in with a file is the file and what it depends on. -/
theorem dependsOn_of_tookIn (htext : env.disk.read r.file = .ok r.text) {new : List SourceText} {o : Outcome Instance Unit}
    (htook : TookIn env i ⟨r.file.normalize, r.text⟩ new o)
    (hp : p ∈ ((⟨r.file.normalize, r.text⟩ :: new : List SourceText)).map SourceText.path) :
    p.IsNormal ∧ (p = r.file ∨ env.DependsOn r.file p) := by
  have hbehind := (htook.behind p).mp hp
  rw [isNormal_file r] at hbehind
  exact dependsOn_of_behind hbehind (isNormal_file r) htext

/-- The outputs for code depend on the options and the directory of the host. -/
theorem outputsOf_congr {host host' : HostView} (hoptions : host'.options = host.options)
    (hdirectory : host'.currentDir = host.currentDir) {code : List Char} :
    outputsOf host' p code = outputsOf host p code := by
  unfold outputsOf
  rw [hoptions, hdirectory]

/-- A build gives an output if there is code, or for a declaration file. -/
theorem exists_produced_iff : (∃ output, (i.produce r).1 = .ok output) ↔
    r.file.isDeclaration = true ∨
      (codeAndMap? (i.ask (i.compiler.service.emit i.hostView r.file)).1).isSome = true := by
  unfold produce
  simp only
  cases hcode : codeAndMap? (i.ask (i.compiler.service.emit i.hostView r.file)).1 with
  | some found => exact ⟨fun _ => .inr rfl, fun _ => ⟨_, rfl⟩⟩
  | none =>
    cases r.file.isDeclaration with
    | true => exact ⟨fun _ => .inl rfl, fun _ => ⟨_, rfl⟩⟩
    | false => exact ⟨fun ⟨_, h⟩ => by contradiction, fun h => by rcases h with h | h <;> contradiction⟩

namespace Mirrors

variable (h : Mirrors env i) (htext : env.disk.read r.file = .ok r.text)

include h htext

/-- A tracked file keeps its text and is not read again; any other file is loaded. -/
theorem takeIn_cases :
    i.workspace.Tracks r.file ∧
        i.takeIn env r = .pure (i.store env.disk r.file r.text) () ∨
      i.tracks r.file = false ∧ i.takeIn env r = i.ensure env r.file r.text := by
  unfold takeIn
  cases hget : i.workspace.files.get? r.file with
  | none =>
    refine .inr ⟨?_, rfl⟩
    rw [tracks, FileStore.contains, hget]
    rfl
  | some file =>
    obtain ⟨hmem, hpath⟩ := h.wellKept.files.get?_eq_some_iff.mp hget
    rw [isNormal_file r] at hpath
    have hsame : file.text = r.text :=
      Except.ok.inj ((h.texts file hmem).symm.trans (hpath ▸ htext))
    refine .inl ⟨⟨isNormal_file r, contains_of_get? hget⟩, ?_⟩
    simp only [if_pos hsame]
    rfl

/-- What is taken in has the texts of the tree. -/
theorem texts_takeIn (hok : (i.takeIn env r).result = .ok ()) :
    ∀ file ∈ (i.takeIn env r).state.workspace.files.files,
      env.disk.read file.path = .ok file.text := by
  rcases h.takeIn_cases htext with ⟨htracks, he⟩ | ⟨hnew, he⟩
  · rw [he]
    intro file hfile
    rw [Outcome.pure_state, files_store, FileStore.upsert_of_contains htracks.tracked] at hfile
    obtain ⟨old, hold, rfl⟩ := List.mem_map.mp hfile
    unfold FileStore.updated
    split
    · rename_i hpath
      rw [isNormal_file r] at hpath
      rw [show old.path = r.file from (h.wellKept.files.normal old hold).eq_of_beq
        (isNormal_file r) hpath]
      exact htext
    · exact h.texts old hold
  · rw [he] at hok ⊢
    obtain ⟨new, htook⟩ := (ensure_takes_in_behind h.reachable env hnew r.text).2 hok
    rw [htook.files]
    intro file hfile
    rcases List.mem_append.mp hfile with hfile | hfile
    · exact h.texts file hfile
    · obtain ⟨s, hs, rfl⟩ := List.mem_map.mp hfile
      have hnormal : s.path.IsNormal :=
        (dependsOn_of_tookIn htext htook (List.mem_map_of_mem hs)).1
      have hread : env.disk.read s.path = .ok s.text := by
        rcases List.mem_cons.mp hs with rfl | hs
        · exact (isNormal_file r).symm ▸ htext
        · exact htook.texts s hs
      rw [SourceText.file, FileStore.newFile_path, hnormal]
      exact hread

/-- Nothing is tracked then but what was tracked before, the file, and what it depends on. -/
theorem of_tracks_takeIn (hok : (i.takeIn env r).result = .ok ())
    (hq : (i.takeIn env r).state.workspace.Tracks q) :
    i.workspace.Tracks q ∨ q = r.file ∨ env.DependsOn r.file q := by
  rcases h.takeIn_cases htext with ⟨htracks, he⟩ | ⟨hnew, he⟩
  · rw [he] at hq
    refine .inl ⟨hq.normal, ?_⟩
    have htracked := hq.tracked
    rwa [Outcome.pure_state, files_store, FileStore.contains_upsert htracks.tracked] at htracked
  · rw [he] at hok hq
    obtain ⟨new, htook⟩ := (ensure_takes_in_behind h.reachable env hnew r.text).2 hok
    have hw' : (i.ensure env r.file r.text).state.workspace.WellKept :=
      (moves_ensure i env r.file r.text).wellKept h.wellKept
    obtain ⟨file, hfile, hpath⟩ := List.mem_map.mp
      ((hw'.files.contains_iff_mem hq.normal).mp hq.tracked)
    rw [htook.files] at hfile
    rcases List.mem_append.mp hfile with hfile | hfile
    · exact .inl (hpath ▸ h.wellKept.tracks_of_mem hfile)
    · obtain ⟨s, hs, rfl⟩ := List.mem_map.mp hfile
      have hbehind := dependsOn_of_tookIn htext htook (List.mem_map_of_mem hs)
      have hs : q = s.path := by
        rw [← hpath, SourceText.file, FileStore.newFile_path, hbehind.1]
      exact .inr (hs ▸ hbehind.2)

omit htext in
/-- The file that is built is tracked then. -/
theorem tracks_takeIn (hok : (i.takeIn env r).result = .ok ()) :
    (i.takeIn env r).state.workspace.Tracks r.file := by
  obtain ⟨file, hget, _⟩ := get?_takeIn h.reachable hok
  exact ⟨isNormal_file r, contains_of_get? hget⟩

variable {output : CompileOutput}

/-- **An instance that builds a file of the tree still mirrors it.** -/
theorem compile (hok : (i.compile env r).result = .ok output) :
    Mirrors env (i.compile env r).state where
  reachable := h.reachable.after rfl (.compile r)
  compiler := (compiler_after i env h.wellKept (.compile r)).trans h.compiler
  texts := by
    cases howner : i.owner? r.file with
    | some reference =>
      rw [compile_of_owned env howner, workspace_compileOwned]
      exact h.texts
    | none =>
      obtain ⟨htaken, _, hstate⟩ := parts_of_compiled howner hok
      rw [hstate, workspace_produce]
      exact h.texts_takeIn htext htaken

/-- **What is tracked behind a build:** what was tracked before, the file, and what it depends on in
the tree. -/
theorem tracks_compile_iff (howner : i.owner? r.file = none)
    (hok : (i.compile env r).result = .ok output) :
    (i.compile env r).state.workspace.Tracks q ↔
      i.workspace.Tracks q ∨ q = r.file ∨ env.DependsOn r.file q := by
  have hafter := h.compile htext hok
  obtain ⟨htaken, _, hstate⟩ := parts_of_compiled howner hok
  have hworkspace : (i.compile env r).state.workspace = (i.takeIn env r).state.workspace := by
    rw [hstate, workspace_produce]
  have hfile : (i.compile env r).state.workspace.Tracks r.file :=
    hworkspace ▸ h.tracks_takeIn htaken
  constructor
  · intro hq
    exact h.of_tracks_takeIn htext htaken (hworkspace ▸ hq)
  · rintro (hq | rfl | hpath)
    · refine ⟨hq.normal, ?_⟩
      rw [hworkspace]
      exact (moves_takeIn i env r).tracks h.wellKept hq.tracked
    · exact hfile
    · exact (hafter.tracks_of_dependsOn hfile hpath).1

/-- **The errors that are reported with a build:** those of the options, of the file, and for a
declaration file of each tracked file that depends on it in the tree. -/
theorem mem_errors_compile_iff (howner : i.owner? r.file = none)
    (hok : (i.compile env r).result = .ok output) (e : HostError) :
    e ∈ output.errors ↔ e ∈ i.optionErrors r.context ∨ ∃ q,
      (q = r.file ∨ r.file.isDeclaration = true ∧ env.DependsOn q r.file ∧
        (i.compile env r).state.workspace.Tracks q) ∧
      e ∈ (i.compile env r).state.errorsIn r.context q := by
  have hafter := h.compile htext hok
  obtain ⟨htaken, hproduced, hstate⟩ := parts_of_compiled howner hok
  have hmove := moves_takeIn i env r
  have hsetup := hmove.sameSetup
  have hw := hmove.wellKept h.wellKept
  have hcompiler := hsetup.compiler.trans h.compiler
  have hsound := hmove.remembersSoundly h.wellKept (fun _ => h.sound) hcompiler
  have hworkspace : (i.compile env r).state.workspace = (i.takeIn env r).state.workspace := by
    rw [hstate, workspace_produce]
  have hfile : (i.compile env r).state.workspace.Tracks r.file :=
    hworkspace ▸ h.tracks_takeIn htaken
  have herrors : ∀ q, (i.takeIn env r).state.errorsIn r.context q =
      (i.compile env r).state.errorsIn r.context q := by
    intro q
    rw [hstate, errorsIn_produce hcompiler hw hsound]
  have hoptions := hsetup.optionErrors_eq h.compiler r.context
  have hreported : ∀ q, q ∈ (i.takeIn env r).state.reportedWith r.file ↔
      q = r.file ∨ r.file.isDeclaration = true ∧ env.DependsOn q r.file ∧
        (i.compile env r).state.workspace.Tracks q := by
    intro q
    rw [mem_reportedWith_iff hw (hworkspace ▸ hfile), ← hworkspace]
    constructor
    · rintro (rfl | ⟨hdeclaration, hnormal, _, hpath⟩)
      · exact .inl rfl
      · have htracks := hafter.tracks_of_graph hnormal hpath
        exact .inr ⟨hdeclaration, (hafter.dependsOn_iff htracks).mp hpath, htracks⟩
    · rintro (rfl | ⟨hdeclaration, hpath, htracks⟩)
      · exact .inl rfl
      · by_cases he : q = r.file
        · exact .inl he
        · exact .inr ⟨hdeclaration, htracks.normal, he, (hafter.dependsOn_iff htracks).mpr hpath⟩
  rw [errors_produce hcompiler hw.files hsound hproduced, List.mem_append, List.mem_flatMap,
    hoptions]
  simp only [herrors, hreported]

omit htext in
/-- What is emitted for the file is its code, with the names that the options give. -/
theorem emission_taken (hok : (i.takeIn env r).result = .ok ())
    (hsource : r.file.isDeclaration = false) :
    ((i.takeIn env r).state.ask ((i.takeIn env r).state.compiler.service.emit
        (i.takeIn env r).state.hostView r.file)).1 =
      ⟨outputsOf i.hostView r.file (codeFor i.options r), false⟩ := by
  have hmove := moves_takeIn i env r
  have hsession := hmove.sameSession
  have hcompiler := hsession.compiler.trans h.compiler
  have hsound := hmove.remembersSoundly h.wellKept (fun _ => h.sound) hcompiler
  obtain ⟨file, hget, hstored⟩ := get?_takeIn h.reachable hok
  have houtputs : outputsOf (i.takeIn env r).state.hostView r.file (codeFor i.options r) =
      outputsOf i.hostView r.file (codeFor i.options r) :=
    outputsOf_congr hsession.options hsession.currentDir
  rw [emission_of_stored hcompiler (hmove.wellKept h.wellKept).files hsound hsource hget hstored,
    hsession.options, houtputs]

/-- **A file of the tree that one instance has built can be built by another one of that setup.**
Nothing behind it is amiss, since the first one tracks all of it now. -/
theorem exists_compiled (h' : Mirrors env i') (hsetup : SameSetup i i')
    (hok : (i.compile env r).result = .ok output) :
    ∃ output', (i'.compile env r).result = .ok output' := by
  have hafter := h.compile htext hok
  have howner' := hsetup.owner?_eq r.file
  cases howner : i.owner? r.file with
  | some reference =>
    rw [compile_of_owned env (howner'.trans howner)]
    rw [compile_of_owned env howner] at hok
    exact exists_compiledOwned_iff.mpr (exists_compiledOwned_iff.mp ⟨output, hok⟩)
  | none =>
    obtain ⟨htaken, hproduced, _⟩ := parts_of_compiled howner hok
    have hfile : (i.compile env r).state.workspace.Tracks r.file :=
      (h.tracks_compile_iff htext howner hok).mpr (.inr (.inl rfl))
    have htaken' : (i'.takeIn env r).result = .ok () := by
      rcases h'.takeIn_cases htext with ⟨_, he⟩ | ⟨hnew, he⟩
      · rw [he]
        rfl
      · rw [he, ensure_ok_iff h'.reachable env hnew, isNormal_file r]
        rintro ⟨p, hbehind, hstuck⟩
        obtain ⟨hnormal, hp⟩ := dependsOn_of_behind hbehind (isNormal_file r) htext
        have htracks : (i.compile env r).state.workspace.Tracks p := by
          rcases hp with rfl | hpath
          · exact hfile
          · exact (hafter.tracks_of_dependsOn hfile hpath).1
        obtain ⟨file, _, hread, hresolves, _⟩ := hafter.exists_file htracks
        have hsees := textIn_eq_read ⟨r.file, r.text⟩ (isNormal_file r) hnormal htext
        exact hstuck file.text (hsees.trans hread) hresolves
    rw [compile_of_unowned env (howner'.trans howner), Outcome.result_andThen_of_ok htaken']
    refine exists_produced_iff.mpr ?_
    cases hsource : r.file.isDeclaration with
    | true => exact .inl rfl
    | false =>
      have hcode := (exists_produced_iff.mp ⟨output, hproduced⟩).resolve_left (by simp [hsource])
      rw [h.emission_taken htaken hsource] at hcode
      have houtputs : outputsOf i'.hostView r.file (codeFor i.options r) =
          outputsOf i.hostView r.file (codeFor i.options r) :=
        outputsOf_congr hsetup.options hsetup.currentDir
      refine .inr ?_
      rwa [h'.emission_taken htaken' hsource, hsetup.options, houtputs]

end Mirrors

end Instance

end TypeScriptEngine
