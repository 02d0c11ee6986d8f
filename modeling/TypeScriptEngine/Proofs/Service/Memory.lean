import TypeScriptEngine.Proofs.FileStore
import TypeScriptEngine.Proofs.Path.Set
import TypeScriptEngine.Service.Builtin

/-! # What the built-in service remembers

A memory is `Sound` for a store if every scan in it was made of a file that is still in the store,
at the version it has now or an earlier one.  Questions to the built-in service are `Steady`: over a
sound memory their answer does not depend on what is remembered, and they leave the memory sound.
-/

namespace TypeScriptEngine.Builtin

open TypeScriptEngine.Path

/-- The scan of a file as it is. -/
def freshScan (file : TrackedFile) : CachedScan := ⟨file.version, file.text, .ofText file.text⟩

/-- The global names of some libraries. -/
def namesOf (libraries : List LibraryFile) : List String :=
  libraries.flatMap fun lib => Binding.globals (Scan.ofText lib.text).tokens

/-- What is remembered was found in the files as they are, or as they were at earlier versions. -/
structure Sound (host : HostView) (cache : ServiceCache) : Prop where
  scans : ∀ p scan, find? p cache.scans = some scan →
    ∃ file ∈ host.files.files, (file.path == p) = true ∧ scan.version ≤ file.version ∧
      (scan.version = file.version → scan = freshScan file)
  libraryNames : ∀ names, cache.libraryNames = some names → names = namesOf host.libraries

/-- The answer does not depend on what is remembered, and the memory stays sound. -/
def Steady (host : HostView) {α : Type} (question : Asking α) : Prop :=
  ∃ answer, ∀ cache, Sound host cache →
    (question.run cache).1 = answer ∧ Sound host (question.run cache).2

variable {host : HostView} {α β : Type}

theorem sound_empty (host : HostView) : Sound host .empty where
  scans := fun _ _ h => by contradiction
  libraryNames := fun _ h => by contradiction

theorem Steady.sound {question : Asking α} (h : Steady host question) {cache : ServiceCache}
    (hc : Sound host cache) : Sound host (question.run cache).2 := by
  obtain ⟨_, hanswer⟩ := h
  exact (hanswer cache hc).2

/-- A service with a sound memory answers as one that has just been made. -/
theorem Steady.eq_fresh {question : Asking α} (h : Steady host question) {cache : ServiceCache}
    (hc : Sound host cache) : (question.run cache).1 = (question.run .empty).1 := by
  obtain ⟨_, hanswer⟩ := h
  rw [(hanswer cache hc).1, (hanswer .empty (sound_empty host)).1]

theorem steady_pure (host : HostView) (a : α) : Steady host (pure a) :=
  ⟨a, fun _ hc => ⟨rfl, hc⟩⟩

/-- **One question after another.** -/
theorem Steady.bind {question : Asking α} {next : α → Asking β} (h : Steady host question)
    (hnext : ∀ a, Steady host (next a)) : Steady host (question >>= next) := by
  obtain ⟨a, ha⟩ := h
  obtain ⟨b, hb⟩ := hnext a
  refine ⟨b, fun cache hc => ?_⟩
  obtain ⟨hanswer, hsound⟩ := ha cache hc
  have hrun : (question >>= next).run cache =
      (next (question.run cache).1).run (question.run cache).2 := rfl
  rw [hrun, hanswer]
  exact hb _ hsound

/-! ## The two things that are remembered -/

/-- Remembering the scan of a file as it is keeps the memory sound. -/
theorem Sound.remember {cache : ServiceCache} (hc : Sound host cache) {file : TrackedFile}
    (hf : file ∈ host.files.files) : Sound host { cache with
      scans := alter file.path (fun _ => freshScan file) cache.scans } where
  scans := by
    intro p scan hscan
    change find? p (alter file.path (fun _ => freshScan file) cache.scans) = some scan at hscan
    rw [find?_alter] at hscan
    split at hscan
    · rename_i hp
      obtain rfl := Option.some.inj hscan
      exact ⟨file, hf, hp, Nat.le_refl _, fun _ => rfl⟩
    · exact hc.scans p scan hscan
  libraryNames := hc.libraryNames

/-- **A scan that is remembered at the version of a file is the scan of that file.** -/
theorem steady_scan? (hstore : host.files.WellKept) (p : Path) : Steady host (scan? host p) := by
  refine ⟨(host.files.get? p).map freshScan, fun cache hc => ?_⟩
  unfold scan?
  cases hget : host.files.get? p with
  | none => exact ⟨rfl, hc⟩
  | some file =>
    obtain ⟨hmem, _⟩ := hstore.get?_eq_some_iff.mp hget
    cases hfind : (find? file.path cache.scans).filter fun scan =>
        scan.version == file.version with
    | none =>
      simp only [StateT.run, hfind]
      exact ⟨rfl, hc.remember hmem⟩
    | some scan =>
      simp only [StateT.run, hfind]
      refine ⟨?_, hc⟩
      obtain ⟨hscan, hversion⟩ := Option.filter_eq_some_iff.mp hfind
      obtain ⟨file', hmem', hpath, _, hfresh⟩ := hc.scans file.path scan hscan
      -- the scan was made of the same file
      have he := (hstore.normal file' hmem').eq_of_beq (hstore.normal file hmem) hpath
      obtain rfl := hstore.eq_of_path_eq hmem' hmem he
      exact congrArg some (hfresh (beq_iff_eq.mp hversion))

theorem steady_libraryNames (host : HostView) : Steady host (libraryNames host) := by
  refine ⟨namesOf host.libraries, fun cache hc => ?_⟩
  unfold libraryNames
  cases hnames : cache.libraryNames with
  | none =>
    simp only [StateT.run, hnames]
    refine ⟨rfl, hc.scans, fun names h => ?_⟩
    exact (Option.some.inj h).symm
  | some names =>
    simp only [StateT.run, hnames]
    exact ⟨hc.libraryNames names hnames, hc⟩

/-! ## Questions -/

theorem steady_globalNames (hstore : host.files.WellKept) (ps : List Path) :
    Steady host (globalNames host ps) := by
  induction ps with
  | nil => exact steady_pure host _
  | cons p ps ih =>
    unfold globalNames
    exact (steady_scan? hstore p).bind fun _ => ih.bind fun _ => steady_pure host _

theorem steady_ambientNames (hstore : host.files.WellKept) (p : Path) :
    Steady host (ambientNames host p) := by
  unfold ambientNames
  refine (steady_libraryNames host).bind fun _ => ?_
  exact (steady_globalNames hstore _).bind fun _ => steady_pure host _

theorem steady_syntacticDiagnostics (hstore : host.files.WellKept) (p : Path) :
    Steady host (syntacticDiagnostics host p) := by
  unfold syntacticDiagnostics
  refine (steady_scan? hstore p).bind fun scan => ?_
  cases scan with
  | none => exact steady_pure host _
  | some scan => exact steady_pure host _

theorem steady_semanticDiagnostics (hstore : host.files.WellKept) (p : Path) :
    Steady host (semanticDiagnostics host p) := by
  unfold semanticDiagnostics
  refine (steady_scan? hstore p).bind fun scan => ?_
  cases scan with
  | none => exact steady_pure host _
  | some scan => exact (steady_ambientNames hstore p).bind fun _ => steady_pure host _

theorem steady_emit (hstore : host.files.WellKept) (p : Path) : Steady host (emit host p) := by
  unfold emit
  split
  · exact steady_pure host _
  · refine (steady_scan? hstore p).bind fun scan => ?_
    cases scan with
    | none => exact steady_pure host _
    | some scan => exact steady_pure host _

end TypeScriptEngine.Builtin
