import TypeScriptEngine.Proofs.Engine.SourceBuild

/-! # What a build reports

A build reports the errors of the options and then, file by file, those of the files that are
reported with the one that was built (`errors_produce`): the file itself, and for a declaration file
the others that depend on it (`mem_reportedWith_iff`).  Each error of a file names that file.
-/

namespace TypeScriptEngine.Instance

open TypeScriptEngine.Path Builtin

variable {allowed : Surroundings → Prop} {env : Surroundings} {i i' : Instance}
  {context p q : Path}

/-! ## Errors of a file -/

theorem report_append (i : Instance) (context : Path) (ds ds' : List Diagnostic) :
    i.report context (ds ++ ds') = i.report context ds ++ i.report context ds' := by
  unfold report reportDiagnostics
  rw [List.filter_append, List.map_append]

theorem report_flatMap (i : Instance) (context : Path) {α : Type} (as : List α)
    (f : α → List Diagnostic) :
    i.report context (as.flatMap f) = as.flatMap fun a => i.report context (f a) := by
  induction as with
  | nil => rfl
  | cons a as ih => rw [List.flatMap_cons, report_append, ih, List.flatMap_cons]

/-- The errors of the options of an instance. -/
def optionErrors (i : Instance) (context : Path) : List HostError :=
  i.report context (i.compiler.service.optionsDiagnostics i.hostView)

/-- The errors of a file. -/
def errorsIn (i : Instance) (context p : Path) : List HostError :=
  i.report context (i.syntacticFaults p ++ i.semanticFaults p)

theorem syntacticDiagnostics_fresh {host : HostView} {file : TrackedFile}
    (hget : host.files.get? p = some file) :
    ((syntacticDiagnostics host p).run .empty).1 =
      diagnosticsOf p (freshScan file) (Check.syntactic (Scan.ofText file.text).tokens) := by
  obtain ⟨cache, hscan⟩ : ∃ cache, (scan? host p).run .empty = (some (freshScan file), cache) := by
    unfold scan?
    rw [hget]
    exact ⟨_, rfl⟩
  unfold syntacticDiagnostics
  rw [StateT.run_bind, hscan]
  rfl

theorem Reachable.syntacticFaults_eq (h : Reachable allowed i)
    (hcompiler : i.compiler = builtinCompiler) {file : TrackedFile}
    (hget : i.workspace.files.get? p = some file) :
    i.syntacticFaults p =
      diagnosticsOf p (freshScan file) (Check.syntactic (Scan.ofText file.text).tokens) := by
  unfold syntacticFaults
  rw [hcompiler]
  exact ((steady_syntacticDiagnostics h.wellKept.files p).eq_fresh (h.sound hcompiler)).trans
    (syntacticDiagnostics_fresh hget)

/-- What is found in a file is tied to it. -/
theorem file_of_mem_diagnosticsOf {scan : CachedScan} {findings : List Finding} {d : Diagnostic}
    (h : d ∈ diagnosticsOf p scan findings) : d.file.map (fun file => file.path.text) =
      some p.text := by
  obtain ⟨f, _, rfl⟩ := List.mem_map.mp h
  rfl

/-- **The errors of a file name it.** -/
theorem Reachable.file_of_mem_errorsIn (h : Reachable allowed i)
    (hcompiler : i.compiler = builtinCompiler) (htracked : i.tracks p = true) {e : HostError}
    (he : e ∈ i.errorsIn context p) : e.file = some p.text := by
  obtain ⟨file, hget⟩ := Option.isSome_iff_exists.mp htracked
  have hget : i.workspace.files.get? p = some file := hget
  obtain ⟨d, hd, rfl⟩ := List.mem_map.mp he
  have hd := (List.mem_filter.mp hd).1
  rw [h.syntacticFaults_eq hcompiler hget, h.semanticFaults_eq hcompiler hget] at hd
  rcases List.mem_append.mp hd with hd | hd
  · exact file_of_mem_diagnosticsOf hd
  · exact file_of_mem_diagnosticsOf hd

/-- The errors of the options name no file. -/
theorem file_of_mem_optionErrors (hcompiler : i.compiler = builtinCompiler) {e : HostError}
    (he : e ∈ i.optionErrors context) : e.file = none := by
  obtain ⟨d, hd, rfl⟩ := List.mem_map.mp he
  have hd := (List.mem_filter.mp hd).1
  rw [hcompiler] at hd
  have hd : d ∈ i.options.module.diagnostics := hd
  unfold ModuleKind.diagnostics at hd
  split at hd
  · contradiction
  · obtain rfl := List.mem_singleton.mp hd
    rfl

/-! ## Errors of a build -/

/-- The diagnostics of several files are those of each, whatever is remembered between them. -/
theorem run_diagnosticsOfAll {host : HostView} (hstore : host.files.WellKept)
    {cache' : ServiceCache} (hc' : Sound host cache') (ps : List Path) {cache : ServiceCache}
    (hc : Sound host cache) :
    ((diagnosticsOfAll Builtin.service host ps).run cache).1 = ps.flatMap fun p =>
      ((syntacticDiagnostics host p).run cache').1 ++
        ((semanticDiagnostics host p).run cache').1 := by
  induction ps generalizing cache with
  | nil => rfl
  | cons p ps ih =>
    have hsyntactic := steady_syntacticDiagnostics hstore p
    have hsemantic := steady_semanticDiagnostics hstore p
    have hc₁ := hsyntactic.sound hc
    have hrun : ((diagnosticsOfAll Builtin.service host (p :: ps)).run cache).1 =
        ((syntacticDiagnostics host p).run cache).1 ++
          ((semanticDiagnostics host p).run ((syntacticDiagnostics host p).run cache).2).1 ++
          ((diagnosticsOfAll Builtin.service host ps).run
            ((semanticDiagnostics host p).run
              ((syntacticDiagnostics host p).run cache).2).2).1 := rfl
    rw [hrun, ih (hsemantic.sound hc₁), List.flatMap_cons, hsyntactic.eq_fresh hc,
      hsyntactic.eq_fresh hc', hsemantic.eq_fresh hc₁, hsemantic.eq_fresh hc']

/-- **A build reports the errors of the options and of the files that are reported with its
own.** -/
theorem errors_produce {r : CompileRequest} {output : CompileOutput}
    (hcompiler : i.compiler = builtinCompiler) (hstore : i.workspace.files.WellKept)
    (hsound : Sound i.hostView i.cache) (h : (i.produce r).1 = .ok output) :
    output.errors = i.optionErrors r.context ++
      (i.reportedWith r.file).flatMap (i.errorsIn r.context) := by
  have hsteady : Steady i.hostView (i.compiler.service.emit i.hostView r.file) := by
    rw [service_emit hcompiler]
    exact steady_emit hstore r.file
  have hsound' := hsteady.sound hsound
  have hdiagnostics : output.errors = i.report r.context
      (((i.collectDiagnostics r.file).run
        ((i.compiler.service.emit i.hostView r.file).run i.cache).2).1) := by
    unfold produce at h
    simp only at h
    split at h
    · obtain rfl := Except.ok.inj h
      rfl
    · split at h
      · obtain rfl := Except.ok.inj h
        rfl
      · cases h
  have hcollect : ∀ cache, ((i.collectDiagnostics r.file).run cache).1 =
      i.compiler.service.optionsDiagnostics i.hostView ++
        ((diagnosticsOfAll i.compiler.service i.hostView (i.reportedWith r.file)).run cache).1 :=
    fun _ => rfl
  have hfiles : ((diagnosticsOfAll i.compiler.service i.hostView (i.reportedWith r.file)).run
      ((i.compiler.service.emit i.hostView r.file).run i.cache).2).1 =
      (i.reportedWith r.file).flatMap fun p => i.syntacticFaults p ++ i.semanticFaults p := by
    unfold syntacticFaults semanticFaults
    rw [hcompiler] at hsound' ⊢
    exact run_diagnosticsOfAll hstore hsound _ hsound'
  rw [hdiagnostics, hcollect, hfiles, report_append, report_flatMap]
  rfl

/-- The files that are reported with a tracked file. -/
theorem mem_reportedWith_iff (hw : i.workspace.WellKept) (hp : i.workspace.Tracks p) :
    q ∈ i.reportedWith p ↔
      q = p ∨ p.isDeclaration = true ∧ q.IsNormal ∧ q ≠ p ∧ i.workspace.graph.DependsOn q p := by
  obtain ⟨file, hget⟩ := Option.isSome_iff_exists.mp hp.tracked
  obtain ⟨hmem, hpath⟩ := hw.files.get?_eq_some_iff.mp hget
  have hdeclared : file.isDeclaration = p.isDeclaration := by
    rw [hw.files.declared file hmem, hpath, hp.normal]
  unfold reportedWith
  rw [hget, Option.any_some, hdeclared]
  cases hdeclaration : p.isDeclaration with
  | true =>
    rw [if_pos rfl, List.mem_cons, mem_otherDependents_iff hw hp.normal]
    exact or_congr Iff.rfl ⟨fun h => ⟨rfl, h⟩, And.right⟩
  | false =>
    rw [if_neg (by decide), List.mem_singleton]
    exact ⟨Or.inl, fun h => h.resolve_right fun ⟨hc, _⟩ => by contradiction⟩

end TypeScriptEngine.Instance
