import TypeScriptEngine.Proofs.Engine.Invalidation

/-! # What building a source makes stale

A build of a declaration file tells the host which other files it concerns.  A build of any other
source tells nothing of the kind, although the names that the source declares count in the scripts
that depend on it.  The files that it can concern are found in the graph: the text of another file
has the faults that it had before, and its declarations have others only if the file is a script
that depends on the source (`source_build_concerns_dependents`).
-/

namespace TypeScriptEngine.Instance

open TypeScriptEngine.Graph TypeScriptEngine.Path DependencyGraph Workspace Builtin

variable {allowed : Surroundings → Prop} {env : Surroundings} {i i' : Instance} {p : Path}

/-- What the service finds wrong with the text of a file. -/
def syntacticFaults (i : Instance) (p : Path) : List Diagnostic :=
  (i.ask (i.compiler.service.syntacticDiagnostics i.hostView p)).1

/-- What the service finds wrong with the declarations of a file. -/
def semanticFaults (i : Instance) (p : Path) : List Diagnostic :=
  (i.ask (i.compiler.service.semanticDiagnostics i.hostView p)).1

/-- Two instances of the built-in compiler with sound memories, the second one later than the
first. -/
structure Later (i i' : Instance) : Prop where
  compiler : i.compiler = builtinCompiler
  session : SameSession i i'
  store : i.workspace.files.WellKept
  store' : i'.workspace.files.WellKept
  sound : Sound i.hostView i.cache
  sound' : Sound i'.hostView i'.cache

theorem Reachable.later_after (h : Reachable allowed i) (henv : allowed env)
    (hcompiler : i.compiler = builtinCompiler) (step : HostStep) : Later i (i.after env step) := by
  have h' := h.after henv step
  have hsession := sameSession_after i env h.wellKept step
  exact ⟨hcompiler, hsession, h.wellKept.files, h'.wellKept.files, h.sound hcompiler,
    h'.sound (hsession.compiler.trans hcompiler)⟩

/-- The faults of a text are those of the file alone. -/
theorem Later.syntacticFaults_eq (h : Later i i')
    (hget : i'.workspace.files.get? p = i.workspace.files.get? p) :
    i'.syntacticFaults p = i.syntacticFaults p := by
  unfold syntacticFaults
  rw [h.session.compiler, h.compiler]
  exact (@alike_syntacticDiagnostics i.hostView i'.hostView p h.store h.store' hget).answer_eq
    h.sound h.sound'

/-- So are those of the declarations of a module. -/
theorem Later.semanticFaults_eq_of_module (h : Later i i') {file : TrackedFile}
    (hget : i.workspace.files.get? p = some file) (hget' : i'.workspace.files.get? p = some file)
    (hmodule : TokenStream.isModule (Scan.ofText file.text).tokens = true) :
    i'.semanticFaults p = i.semanticFaults p := by
  unfold semanticFaults
  rw [h.session.compiler, h.compiler]
  exact (@alike_semanticDiagnostics_of_module i.hostView i'.hostView p h.store h.store' file hget
    hget' hmodule).answer_eq h.sound h.sound'

/-- **A build of a source that is not a declaration file reports no other file.**  Of those that were
tracked before it, each one has the same faults in its text as before; and if it has other faults in
its declarations, it is a script and depends on the source in the graph behind the build. -/
theorem source_build_concerns_dependents (h : Reachable allowed i) (henv : allowed env)
    {r : CompileRequest} {output : CompileOutput} (hsource : r.file.isDeclaration = false)
    (howner : i.owner? r.file = none) (hbuilt : (i.compile env r).result = .ok output) :
    output.affected = [] ∧
    (i.compiler = builtinCompiler →
      ∀ file ∈ i.workspace.files.files, file.path ≠ r.file →
        (i.after env (.compile r)).syntacticFaults file.path = i.syntacticFaults file.path ∧
        ((i.after env (.compile r)).semanticFaults file.path ≠ i.semanticFaults file.path →
          (i.after env (.compile r)).workspace.graph.DependsOn file.path r.file ∧
            TokenStream.isModule (Scan.ofText file.text).tokens = false)) := by
  have hw := h.wellKept
  obtain ⟨hchanges, haffected⟩ := changesOnly_compile hw howner hbuilt
  rw [hsource] at haffected
  refine ⟨haffected, fun hcompiler file hfile hne => ?_⟩
  have hlater := h.later_after henv hcompiler (.compile r)
  have htracks := hw.tracks_of_mem hfile
  have hget : i.workspace.files.get? file.path = some file :=
    hw.files.get?_eq_some_iff.mpr ⟨hfile, htracks.normal.symm⟩
  have hsame : (i.after env (.compile r)).workspace.files.get? file.path =
      i.workspace.files.get? file.path := hchanges.files _ htracks hne
  refine ⟨hlater.syntacticFaults_eq hsame, fun hdiffer => ⟨?_, ?_⟩⟩
  · -- a file that does not depend on the source stays, with all that it depends on
    by_contra hpath
    have huntouched : Untouched (· = r.file) i.workspace
        (i.after env (.compile r)).workspace file.path :=
      ⟨htracks, hne, fun s hs => hs ▸ hpath⟩
    have hw' := (h.after henv (.compile r)).wellKept
    have halike := showsAlike_of_untouched hlater.session hchanges hw hw' huntouched
    exact hdiffer (sameAnswers_of_showsAlike hcompiler hlater.session hw hw' hlater.sound
      hlater.sound' halike).semantic
  · by_contra hmodule
    exact hdiffer (hlater.semanticFaults_eq_of_module hget (hsame.trans hget)
      (Bool.not_eq_false _ ▸ hmodule))

/-! ## A script and the source it refers to -/

theorem Reachable.semanticFaults_eq (h : Reachable allowed i)
    (hcompiler : i.compiler = builtinCompiler) {file : TrackedFile}
    (hget : i.workspace.files.get? p = some file) :
    i.semanticFaults p = diagnosticsOf p (freshScan file) (declarationFaults p file
      (namesOf i.libraries ++ ((i.workspace.graph.transitiveDependencies p).filter
        fun q => !(q == p)).flatMap (namesIn i.hostView))) := by
  unfold semanticFaults
  rw [hcompiler]
  exact ((steady_semanticDiagnostics h.wellKept.files p).eq_fresh (h.sound hcompiler)).trans
    (semanticDiagnostics_fresh h.wellKept.files hget)

/-- A file with code is built. -/
theorem exists_produced {r : CompileRequest} (hcompiler : i.compiler = builtinCompiler)
    (hstore : i.workspace.files.WellKept) (hsound : Sound i.hostView i.cache)
    (hcode : (codeAndMap? ((Builtin.emit i.hostView r.file).run .empty).1).isSome = true) :
    ∃ output, (i.produce r).1 = .ok output := by
  rw [← (steady_emit hstore r.file).eq_fresh hsound] at hcode
  obtain ⟨⟨code, map⟩, hcode⟩ := Option.isSome_iff_exists.mp hcode
  unfold produce
  simp only [ask_emit hcompiler, hcode]
  exact ⟨_, rfl⟩

theorem hostView_produce (i : Instance) (r : CompileRequest) :
    (i.produce r).2.hostView = i.hostView := by
  unfold produce
  simp only
  repeat' split
  all_goals rfl

/-- A file that refers to one other, which refers to none, depends on that one. -/
theorem transitiveDependencies_of_single {g : DependencyGraph} {q : Path}
    (hp : (g.dependencies p).map Dependency.target = [q]) (hq : g.dependencies q = []) :
    g.transitiveDependencies p = [q] := by
  have hclosure : Graph.closure g.targets [] [q] = [q] := by
    rw [Graph.closure, if_neg (by simp [isIn])]
    split
    · rw [Graph.closure]
    · rename_i t ts hnext
      rw [successors_targets, hq] at hnext
      contradiction
  unfold transitiveDependencies reachable
  rw [successors_targets, hp, hclosure]
  rfl

/-- Whether the names of the second file are faults of the first, which refers to it alone. -/
def clashes (host : HostView) (p q : Path) : Bool :=
  (host.files.get? p).any fun file =>
    !(declarationFaults p file (namesOf host.libraries ++ namesIn host q)).isEmpty

theorem Reachable.semanticFaults_isEmpty (h : Reachable allowed i)
    (hcompiler : i.compiler = builtinCompiler) {q : Path}
    (hp : (i.workspace.graph.dependencies p).map Dependency.target = [q])
    (hq : i.workspace.graph.dependencies q = []) (hne : (q == p) = false)
    (htracked : i.tracks p = true) : (i.semanticFaults p).isEmpty = !clashes i.hostView p q := by
  obtain ⟨file, hget⟩ := Option.isSome_iff_exists.mp htracked
  have hget' : i.hostView.files.get? p = some file := hget
  rw [h.semanticFaults_eq hcompiler hget, transitiveDependencies_of_single hp hq]
  unfold clashes
  rw [hget', List.filter_singleton, hne, Option.any_some, Bool.not_not, Bool.not_false, cond_true,
    List.flatMap_singleton]
  exact List.isEmpty_map ..

/-- The instance, without libraries, that has built a script that refers to the file of the project
and declares a name. -/
def scriptBuild : Except EngineError Instance :=
  (create smallProject.disk ⟨{ compilerOptions := { noLib := some true } }, none⟩ builtinCompiler
    ⟨"/p/a.ts"⟩ ⟨"/p"⟩).map fun i => i.after smallProject
      (.compile ⟨⟨"/p/a.ts"⟩, "/// <reference path='b.ts'/>\nlet x;", ⟨"/p"⟩, none⟩)

/-- The build that makes the file of the project declare that name too. -/
def clash : CompileRequest := ⟨⟨"/p/b.ts"⟩, "var x;", ⟨"/p"⟩, none⟩

theorem script_ne_clash : (⟨"/p/a.ts"⟩ : Path) ≠ clash.file := by
  have hfile : clash.file = ⟨"/p/b.ts"⟩ := rfl
  rw [hfile]
  simp

theorem reachable_scriptBuild :
    ∃ i, scriptBuild = .ok i ∧ Reachable (fun _ => True) i ∧ i.compiler = builtinCompiler := by
  have hok := isOk_create_smallProject
    ⟨{ compilerOptions := { noLib := some true } }, none⟩ builtinCompiler rfl
  obtain ⟨i, hcreate, hi, hcompiler⟩ := reachable_of_isOk (hok.trans (by decide)) (fun _ => True)
  refine ⟨_, by rw [scriptBuild, hcreate]; rfl, hi.after trivial _, ?_⟩
  rw [compiler_after i _ hi.wellKept]
  exact hcompiler

/-- The script refers to the file of the project alone, and that one to nothing. -/
def isPair (g : DependencyGraph) : Bool :=
  (g.dependencies ⟨"/p/a.ts"⟩).map (fun d => d.target.text) == ["/p/b.ts"] &&
    (g.dependencies ⟨"/p/b.ts"⟩).isEmpty

theorem of_isPair {g : DependencyGraph} (h : isPair g = true) :
    (g.dependencies ⟨"/p/a.ts"⟩).map Dependency.target = [⟨"/p/b.ts"⟩] ∧
      g.dependencies ⟨"/p/b.ts"⟩ = [] := by
  unfold isPair at h
  rw [Bool.and_eq_true, beq_iff_eq, List.isEmpty_iff] at h
  refine ⟨?_, h.2⟩
  obtain ⟨d, hd, htext⟩ := List.map_eq_singleton_iff.mp h.1
  rw [hd, List.map_singleton, ← htext]

/-- The build gives the script a fault that it did not have. -/
theorem exists_clash :
    ∃ i output, scriptBuild = .ok i ∧ Reachable (fun _ => True) i ∧
      i.compiler = builtinCompiler ∧ i.owner? clash.file = none ∧
      (i.compile smallProject clash).result = .ok output ∧
      (i.workspace.files.get? clash.file).any (fun file => file.text != clash.text) = true ∧
      i.tracks ⟨"/p/a.ts"⟩ = true ∧ (i.semanticFaults ⟨"/p/a.ts"⟩).isEmpty = true ∧
      ((i.after smallProject (.compile clash)).semanticFaults ⟨"/p/a.ts"⟩).isEmpty = false := by
  obtain ⟨i, hbuild, hi, hcompiler⟩ := reachable_scriptBuild
  have hchecks : (scriptBuild.toOption.any fun i =>
      let j := (i.takeIn smallProject clash).state
      (i.owner? clash.file).isNone && (i.takeIn smallProject clash).result.toOption.isSome &&
        (codeAndMap? ((Builtin.emit j.hostView clash.file).run .empty).1).isSome &&
        (i.workspace.files.get? clash.file).any (fun file => file.text != clash.text) &&
        i.tracks ⟨"/p/a.ts"⟩ && j.tracks ⟨"/p/a.ts"⟩ && isPair i.workspace.graph &&
        isPair j.workspace.graph && !clashes i.hostView ⟨"/p/a.ts"⟩ ⟨"/p/b.ts"⟩ &&
        clashes j.hostView ⟨"/p/a.ts"⟩ ⟨"/p/b.ts"⟩) = true := by decide +kernel
  rw [hbuild] at hchecks
  simp only [Except.toOption, Option.any_some, Bool.and_eq_true, Option.isNone_iff_eq_none,
    Bool.not_eq_true'] at hchecks
  obtain ⟨⟨⟨⟨⟨⟨⟨⟨⟨howner, htake⟩, hcode⟩, htext⟩, htracked⟩, htracked'⟩, hpair⟩, hpair'⟩,
    hclear⟩, hclash⟩ := hchecks
  have hmove := moves_takeIn i smallProject clash
  have hcompiler' := hmove.sameSession.compiler.trans hcompiler
  obtain ⟨output, houtput⟩ := exists_produced hcompiler' (hmove.wellKept hi.wellKept).files
    (hmove.remembersSoundly hi.wellKept (fun _ => hi.sound hcompiler) hcompiler') hcode
  obtain ⟨_, htaken⟩ := Option.isSome_iff_exists.mp htake
  have hok : (i.takeIn smallProject clash).result = .ok () := by
    cases hresult : (i.takeIn smallProject clash).result with
    | error e =>
      rw [hresult] at htaken
      contradiction
    | ok _ => rfl
  have hcompile : (i.compile smallProject clash).result = .ok output ∧
      (i.compile smallProject clash).state =
        ((i.takeIn smallProject clash).state.produce clash).2 := by
    unfold compile
    rw [howner]
    simp only
    rw [Outcome.result_andThen_of_ok hok, Outcome.state_andThen_of_ok hok]
    exact ⟨houtput, rfl⟩
  have hview : (i.after smallProject (.compile clash)).hostView =
      (i.takeIn smallProject clash).state.hostView := by
    show (i.compile smallProject clash).state.hostView = _
    rw [hcompile.2, hostView_produce]
  refine ⟨i, output, hbuild, hi, hcompiler, howner, hcompile.1, htext, htracked, ?_, ?_⟩
  · obtain ⟨hscript, hsource⟩ := of_isPair hpair
    rw [hi.semanticFaults_isEmpty hcompiler hscript hsource (by decide) htracked, hclear]
    rfl
  · obtain ⟨hscript, hsource⟩ := of_isPair hpair'
    have hi' : Reachable (fun _ => True) (i.after smallProject (.compile clash)) :=
      hi.after trivial _
    have hgraph : (i.after smallProject (.compile clash)).workspace.graph =
        (i.takeIn smallProject clash).state.workspace.graph := congrArg HostView.graph hview
    have hfiles : (i.after smallProject (.compile clash)).workspace.files =
        (i.takeIn smallProject clash).state.workspace.files := congrArg HostView.files hview
    rw [← hgraph] at hscript hsource
    unfold tracks at htracked'
    rw [← hfiles] at htracked'
    rw [hi'.semanticFaults_isEmpty ((compiler_after i _ hi.wellKept _).trans hcompiler) hscript
      hsource (by decide) htracked', hview, hclash]
    rfl

/-- **A build of a source can give another file a fault that it does not report:** the script had no
fault in its declarations, has one behind the build of the source that it refers to, and is not
among the affected files. -/
theorem source_build_reports_nothing :
    ∃ i output, scriptBuild = .ok i ∧ Reachable (fun _ => True) i ∧ i.compiler = builtinCompiler ∧
      clash.file.isDeclaration = false ∧ i.owner? clash.file = none ∧
      (i.workspace.files.get? clash.file).any (fun file => file.text != clash.text) = true ∧
      (i.compile smallProject clash).result = .ok output ∧
      i.tracks ⟨"/p/a.ts"⟩ = true ∧ (⟨"/p/a.ts"⟩ : Path) ≠ clash.file ∧
      (i.after smallProject (.compile clash)).semanticFaults ⟨"/p/a.ts"⟩ ≠
        i.semanticFaults ⟨"/p/a.ts"⟩ ∧
      (⟨"/p/a.ts"⟩ : Path) ∉ output.affected := by
  obtain ⟨i, output, hbuild, hi, hcompiler, howner, hbuilt, htext, htracked, hclear, hfaults⟩ :=
    exists_clash
  have hsource : clash.file.isDeclaration = false := by decide +kernel
  have hdiffer : (i.after smallProject (.compile clash)).semanticFaults ⟨"/p/a.ts"⟩ ≠
      i.semanticFaults ⟨"/p/a.ts"⟩ := by
    intro he
    rw [he, hclear] at hfaults
    contradiction
  obtain ⟨_, haffected⟩ := changesOnly_compile hi.wellKept howner hbuilt
  rw [hsource] at haffected
  refine ⟨i, output, hbuild, hi, hcompiler, hsource, howner, htext, hbuilt, htracked,
    script_ne_clash, hdiffer, ?_⟩
  rw [haffected]
  exact List.not_mem_nil

/-- The script whose faults have changed depends on the source. -/
theorem source_build_concerns_dependents_scriptBuild :
    ∃ i output, scriptBuild = .ok i ∧ (i.compile smallProject clash).result = .ok output ∧
      output.affected = [] ∧
      (i.after smallProject (.compile clash)).workspace.graph.DependsOn ⟨"/p/a.ts"⟩ clash.file := by
  obtain ⟨i, output, hbuild, hi, hcompiler, howner, hbuilt, _, htracked, hclear, hfaults⟩ :=
    exists_clash
  obtain ⟨haffected, hconcerns⟩ :=
    source_build_concerns_dependents hi trivial (by decide +kernel) howner hbuilt
  obtain ⟨file, hfile, hpath⟩ := hi.wellKept.files.contains_iff.mp htracked
  have hnormal : (⟨"/p/a.ts"⟩ : Path).normalize = ⟨"/p/a.ts"⟩ := rfl
  rw [hnormal] at hpath
  have hconcerned := (hconcerns hcompiler file hfile (hpath ▸ script_ne_clash)).2
  rw [hpath] at hconcerned
  refine ⟨i, output, hbuild, hbuilt, haffected, (hconcerned fun he => ?_).1⟩
  rw [he, hclear] at hfaults
  contradiction

end TypeScriptEngine.Instance
