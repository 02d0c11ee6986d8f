import TypeScriptEngine.Proofs.Service.Memory

/-! # What an answer depends on

The built-in service looks at one file, and for the names that are declared elsewhere at the files
that it depends on.  So if two hosts show these in the same way (`ShowsAlike`), they get the same
answers about the file (`Alike.answer_eq`), whatever else is in their stores and graphs.
-/

namespace TypeScriptEngine.Builtin

variable {host host' : HostView} {α β : Type} {p : Path}

/-! ## Equal answers -/

/-- Over sound memories, the two questions have the same answer. -/
def Alike (host host' : HostView) (question question' : Asking α) : Prop :=
  ∃ answer,
    (∀ cache, Sound host cache →
      (question.run cache).1 = answer ∧ Sound host (question.run cache).2) ∧
    ∀ cache, Sound host' cache →
      (question'.run cache).1 = answer ∧ Sound host' (question'.run cache).2

theorem Alike.answer_eq {question question' : Asking α} (h : Alike host host' question question')
    {cache cache' : ServiceCache} (hc : Sound host cache) (hc' : Sound host' cache') :
    (question'.run cache').1 = (question.run cache).1 := by
  obtain ⟨_, h₁, h₂⟩ := h
  rw [(h₁ cache hc).1, (h₂ cache' hc').1]

/-- Steady questions are alike if services without a memory answer them alike. -/
theorem Alike.of_fresh {question question' : Asking α} (h : Steady host question)
    (h' : Steady host' question') (he : (question'.run .empty).1 = (question.run .empty).1) :
    Alike host host' question question' := by
  obtain ⟨answer, hanswer⟩ := h
  obtain ⟨answer', hanswer'⟩ := h'
  obtain rfl : answer' = answer := by
    rw [← (hanswer .empty (sound_empty host)).1, ← (hanswer' .empty (sound_empty host')).1, he]
  exact ⟨answer', hanswer, hanswer'⟩

theorem alike_pure (host host' : HostView) (a : α) : Alike host host' (pure a) (pure a) :=
  ⟨a, fun _ hc => ⟨rfl, hc⟩, fun _ hc => ⟨rfl, hc⟩⟩

theorem Alike.bind {question question' : Asking α} {next next' : α → Asking β}
    (h : Alike host host' question question')
    (hnext : ∀ a, Alike host host' (next a) (next' a)) :
    Alike host host' (question >>= next) (question' >>= next') := by
  obtain ⟨a, ha, ha'⟩ := h
  obtain ⟨b, hb, hb'⟩ := hnext a
  refine ⟨b, fun cache hc => ?_, fun cache hc => ?_⟩
  · obtain ⟨hanswer, hsound⟩ := ha cache hc
    have hrun : (question >>= next).run cache =
        (next (question.run cache).1).run (question.run cache).2 := rfl
    rw [hrun, hanswer]
    exact hb _ hsound
  · obtain ⟨hanswer, hsound⟩ := ha' cache hc
    have hrun : (question' >>= next').run cache =
        (next' (question'.run cache).1).run (question'.run cache).2 := rfl
    rw [hrun, hanswer]
    exact hb' _ hsound

/-! ## Faults of declarations -/

/-- The global names that a file declares. -/
def namesIn (host : HostView) (p : Path) : List String :=
  (host.files.get? p).elim [] fun file => Binding.globals (Scan.ofText file.text).tokens

/-- What is wrong with the declarations of a file at a path, given the names from elsewhere. -/
def declarationFaults (p : Path) (file : TrackedFile) (ambient : List String) : List Finding :=
  (Check.redeclarations (Scan.ofText file.text).tokens fun name => ambient.contains name) ++
    if p.isDeclaration then [] else Check.erasability (Scan.ofText file.text).tokens

theorem run_scan? (hstore : host.files.WellKept) {cache : ServiceCache} (hc : Sound host cache) :
    ((scan? host p).run cache).1 = (host.files.get? p).map freshScan := by
  rw [(steady_scan? hstore p).eq_fresh hc]
  unfold scan?
  cases host.files.get? p <;> rfl

theorem run_libraryNames {cache : ServiceCache} (hc : Sound host cache) :
    ((libraryNames host).run cache).1 = namesOf host.libraries := by
  rw [(steady_libraryNames host).eq_fresh hc]
  rfl

theorem run_globalNames (hstore : host.files.WellKept) (ps : List Path) {cache : ServiceCache}
    (hc : Sound host cache) : ((globalNames host ps).run cache).1 = ps.flatMap (namesIn host) := by
  induction ps generalizing cache with
  | nil => rfl
  | cons p ps ih =>
    have hrun : ((globalNames host (p :: ps)).run cache).1 =
        (((scan? host p).run cache).1.elim [] fun scan => Binding.globals scan.scan.tokens) ++
          ((globalNames host ps).run ((scan? host p).run cache).2).1 := rfl
    rw [hrun, ih ((steady_scan? hstore p).sound hc), run_scan? hstore hc, Option.elim_map]
    rfl

/-- **The faults of the declarations of a file** are found with the names of the libraries and of
the files that it depends on. -/
theorem semanticDiagnostics_fresh (hstore : host.files.WellKept) {file : TrackedFile}
    (hget : host.files.get? p = some file) :
    ((semanticDiagnostics host p).run .empty).1 = diagnosticsOf p (freshScan file)
      (declarationFaults p file (namesOf host.libraries ++
        ((host.graph.transitiveDependencies p).filter fun q => !(q == p)).flatMap
          (namesIn host))) := by
  obtain ⟨cache, hscan⟩ : ∃ cache, (scan? host p).run .empty = (some (freshScan file), cache) := by
    unfold scan?
    rw [hget]
    exact ⟨_, rfl⟩
  have hc : Sound host cache := by
    have h := (steady_scan? hstore p).sound (sound_empty host)
    rwa [hscan] at h
  have hambient : ((ambientNames host p).run cache).1 = namesOf host.libraries ++
      ((host.graph.transitiveDependencies p).filter fun q => !(q == p)).flatMap (namesIn host) := by
    rw [← run_libraryNames hc,
      ← run_globalNames hstore _ ((steady_libraryNames host).sound hc)]
    rfl
  rw [← hambient]
  unfold semanticDiagnostics
  rw [StateT.run_bind, hscan]
  rfl

/-- In a module the names that are declared elsewhere do not count. -/
theorem declarationFaults_of_module {file : TrackedFile}
    (hmodule : TokenStream.isModule (Scan.ofText file.text).tokens = true)
    (ambient ambient' : List String) :
    declarationFaults p file ambient = declarationFaults p file ambient' := by
  unfold declarationFaults Check.redeclarations
  rw [if_pos hmodule, if_pos hmodule]

/-! ## Hosts that show a file alike -/

/-- The two hosts show a file, and the files that it depends on, in the same way. -/
structure ShowsAlike (host host' : HostView) (p : Path) : Prop where
  options : host'.options = host.options
  currentDir : host'.currentDir = host.currentDir
  libraries : host'.libraries = host.libraries
  file : host'.files.get? p = host.files.get? p
  dependencies : host'.graph.transitiveDependencies p = host.graph.transitiveDependencies p
  others : ∀ q ∈ host.graph.transitiveDependencies p, (q == p) = false →
    host'.files.get? q = host.files.get? q

variable (hstore : host.files.WellKept) (hstore' : host'.files.WellKept)

include hstore hstore'

theorem alike_scan? (hget : host'.files.get? p = host.files.get? p) :
    Alike host host' (scan? host p) (scan? host' p) := by
  refine .of_fresh (steady_scan? hstore p) (steady_scan? hstore' p) ?_
  unfold scan?
  simp only [StateT.run, hget]

/-- What is wrong with the text of a file depends on that file only. -/
theorem alike_syntacticDiagnostics (hget : host'.files.get? p = host.files.get? p) :
    Alike host host' (syntacticDiagnostics host p) (syntacticDiagnostics host' p) := by
  unfold syntacticDiagnostics
  refine (alike_scan? hstore hstore' hget).bind fun scan => ?_
  cases scan with
  | none => exact alike_pure host host' _
  | some scan => exact alike_pure host host' _

/-- What is wrong with the declarations of a module depends on that file only. -/
theorem alike_semanticDiagnostics_of_module {file : TrackedFile}
    (hget : host.files.get? p = some file) (hget' : host'.files.get? p = some file)
    (hmodule : TokenStream.isModule (Scan.ofText file.text).tokens = true) :
    Alike host host' (semanticDiagnostics host p) (semanticDiagnostics host' p) := by
  refine .of_fresh (steady_semanticDiagnostics hstore p) (steady_semanticDiagnostics hstore' p) ?_
  rw [semanticDiagnostics_fresh hstore hget, semanticDiagnostics_fresh hstore' hget']
  exact congrArg _ (declarationFaults_of_module hmodule _ _)

omit hstore hstore' in
theorem alike_libraryNames (hlibraries : host'.libraries = host.libraries) :
    Alike host host' (libraryNames host) (libraryNames host') := by
  refine .of_fresh (steady_libraryNames host) (steady_libraryNames host') ?_
  unfold libraryNames
  simp only [StateT.run, hlibraries]

theorem alike_globalNames {ps : List Path}
    (hget : ∀ q ∈ ps, host'.files.get? q = host.files.get? q) :
    Alike host host' (globalNames host ps) (globalNames host' ps) := by
  induction ps with
  | nil => exact alike_pure host host' _
  | cons q ps ih =>
    unfold globalNames
    refine (alike_scan? hstore hstore' (hget q (List.mem_cons_self ..))).bind fun _ => ?_
    exact (ih fun r hr => hget r (List.mem_cons_of_mem _ hr)).bind fun _ => alike_pure host host' _

namespace ShowsAlike

variable (h : ShowsAlike host host' p)

include h

theorem ambientNames : Alike host host' (ambientNames host p) (ambientNames host' p) := by
  unfold Builtin.ambientNames
  rw [h.dependencies]
  refine (alike_libraryNames h.libraries).bind fun _ => ?_
  refine (alike_globalNames hstore hstore' fun q hq => ?_).bind fun _ => alike_pure host host' _
  obtain ⟨hq, hne⟩ := List.mem_filter.mp hq
  exact h.others q hq (Bool.not_eq_true' _ ▸ hne)

theorem emit : Alike host host' (emit host p) (emit host' p) := by
  unfold Builtin.emit outputsOf
  rw [h.options, h.currentDir]
  split
  · exact alike_pure host host' _
  · refine (alike_scan? hstore hstore' h.file).bind fun scan => ?_
    cases scan with
    | none => exact alike_pure host host' _
    | some scan => exact alike_pure host host' _

theorem syntacticDiagnostics :
    Alike host host' (syntacticDiagnostics host p) (syntacticDiagnostics host' p) :=
  alike_syntacticDiagnostics hstore hstore' h.file

theorem semanticDiagnostics :
    Alike host host' (semanticDiagnostics host p) (semanticDiagnostics host' p) := by
  unfold Builtin.semanticDiagnostics
  refine (alike_scan? hstore hstore' h.file).bind fun scan => ?_
  cases scan with
  | none => exact alike_pure host host' _
  | some scan =>
    exact (h.ambientNames hstore hstore').bind fun _ => alike_pure host host' _

end ShowsAlike

end TypeScriptEngine.Builtin
