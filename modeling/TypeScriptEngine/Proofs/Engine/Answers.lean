import TypeScriptEngine.Proofs.Engine.Reachable
import TypeScriptEngine.Proofs.Service.Memory

/-! # Answers over a run

Versions start again at zero when a file is taken out and tracked anew.  That would make an old scan
pass for one of the new file, but no file that was ever scanned is taken out: only a load that fails
takes files out, and those are files that it has just taken in, before anybody could ask about them.
So the memory of a service stays `Sound` over every run (`Reachable.sound`), and the built-in
service always answers as one without a memory (`answers_as_fresh`).
-/

namespace TypeScriptEngine.Instance

open Builtin TypeScriptEngine.Path

variable {allowed : Surroundings → Prop} {env : Surroundings} {i i' : Instance}

/-- A step of the workspace keeps what is remembered sound: no file is lost, and none gets another
text at the version it has. -/
theorem sound_of_step {w : Workspace} (hstep : Workspace.Step env i.workspace w)
    (hw : i.workspace.WellKept) (h : Sound i.hostView i.cache) :
    Sound (i.withWorkspace w).hostView i.cache where
  scans := by
    intro p scan hscan
    obtain ⟨file, hfile, hpath, hversion, hfresh⟩ := h.scans p scan hscan
    obtain ⟨file', hfile', hpath', hversion', htext⟩ := hstep.kept hw hfile
    refine ⟨file', hfile', hpath' ▸ hpath, Nat.le_trans hversion hversion', fun he => ?_⟩
    -- if the version is that of the scan it has not grown, and the text is the same
    have hsame : file'.version = file.version := Nat.le_antisymm (he ▸ hversion) hversion'
    rw [hfresh (he.trans hsame), freshScan, freshScan, hsame, htext hsame]
  libraryNames := h.libraryNames

theorem steady_diagnosticsOfAll {host : HostView} (hstore : host.files.WellKept)
    (ps : List Path) : Steady host (diagnosticsOfAll Builtin.service host ps) := by
  induction ps with
  | nil => exact steady_pure host _
  | cons p ps ih =>
    unfold diagnosticsOfAll
    refine (steady_syntacticDiagnostics hstore p).bind fun _ => ?_
    refine (steady_semanticDiagnostics hstore p).bind fun _ => ?_
    exact ih.bind fun _ => steady_pure host _

theorem steady_collectDiagnostics (hw : i.workspace.WellKept)
    (hcompiler : i.compiler = builtinCompiler) (p : Path) :
    Steady i.hostView (i.collectDiagnostics p) := by
  unfold collectDiagnostics
  rw [hcompiler]
  exact (steady_diagnosticsOfAll hw.files _).bind fun _ => steady_pure _ _

theorem service_emit (hcompiler : i.compiler = builtinCompiler) :
    i.compiler.service.emit = Builtin.emit := by
  rw [hcompiler]
  rfl

theorem ask_fst {β : Type} (i : Instance) (question : Asking β) :
    (i.ask question).1 = (question.run i.cache).1 := rfl

theorem ask_emit (hcompiler : i.compiler = builtinCompiler) (p : Path) :
    (i.ask (i.compiler.service.emit i.hostView p)).1 =
      ((Builtin.emit i.hostView p).run i.cache).1 := by
  rw [service_emit hcompiler, ask_fst]

theorem steady_service_emit (hw : i.workspace.WellKept) (hcompiler : i.compiler = builtinCompiler)
    (p : Path) : Steady i.hostView (i.compiler.service.emit i.hostView p) := by
  rw [service_emit hcompiler]
  exact steady_emit hw.files p

/-- An instance of the built-in compiler remembers nothing that is out of date. -/
def RemembersSoundly (i : Instance) : Prop :=
  i.compiler = builtinCompiler → Sound i.hostView i.cache

/-- **No move lets the memory of the service get out of date.** -/
theorem Move.remembersSoundly (h : Move env i i') (hw : i.workspace.WellKept)
    (hi : i.RemembersSoundly) : i'.RemembersSoundly := by
  cases h with
  | workspace hstep => exact fun hcompiler => sound_of_step hstep hw (hi hcompiler)
  | emitted p => exact fun hcompiler => (steady_service_emit hw hcompiler p).sound (hi hcompiler)
  | diagnosed p =>
    exact fun hcompiler => (steady_collectDiagnostics hw hcompiler p).sound (hi hcompiler)
  | checked projects => exact hi

theorem Reachable.sound (h : Reachable allowed i) (hcompiler : i.compiler = builtinCompiler) :
    Sound i.hostView i.cache := by
  refine (h.induction (P := RemembersSoundly) ?_ ?_).2 hcompiler
  · intro i _ hcache _
    rw [hcache]
    exact sound_empty i.hostView
  · exact fun _ hmove hw hi => hmove.remembersSoundly hw hi

/-- **The built-in service always answers as one that has just been made,** whatever has been built,
changed and failed before: it emits the same code for every file, and finds the same faults. -/
theorem answers_as_fresh (h : Reachable allowed i) (hcompiler : i.compiler = builtinCompiler)
    (p : Path) :
    (i.ask (i.compiler.service.emit i.hostView p)).1 =
      ((Builtin.service.emit i.hostView p).run .empty).1 ∧
    (i.ask (i.compiler.service.syntacticDiagnostics i.hostView p)).1 =
      ((Builtin.service.syntacticDiagnostics i.hostView p).run .empty).1 ∧
    (i.ask (i.compiler.service.semanticDiagnostics i.hostView p)).1 =
      ((Builtin.service.semanticDiagnostics i.hostView p).run .empty).1 := by
  have hsound := h.sound hcompiler
  have hstore := h.wellKept.files
  rw [hcompiler]
  exact ⟨(steady_emit hstore p).eq_fresh hsound,
    (steady_syntacticDiagnostics hstore p).eq_fresh hsound,
    (steady_semanticDiagnostics hstore p).eq_fresh hsound⟩

/-- The instance that has built the small project, after a file could not be built at first and was
then built with another text. -/
def smallRetry : Except EngineError Instance :=
  smallBuild.map fun i =>
    (i.after deadEnds (.compile ⟨⟨"/p/c.ts"⟩, "import './b';", ⟨"/p"⟩, none⟩)).after smallProject
      (.compile ⟨⟨"/p/c.ts"⟩, "import './b'; let c = 1;", ⟨"/p"⟩, none⟩)

/-- The file that was taken out and tracked anew gets the answers of its present text. -/
theorem answers_as_fresh_smallRetry :
    ∃ i, smallRetry = .ok i ∧
      (i.ask (i.compiler.service.emit i.hostView ⟨"/p/c.ts"⟩)).1 =
        ((Builtin.service.emit i.hostView ⟨"/p/c.ts"⟩).run .empty).1 ∧
      (i.ask (i.compiler.service.syntacticDiagnostics i.hostView ⟨"/p/c.ts"⟩)).1 =
        ((Builtin.service.syntacticDiagnostics i.hostView ⟨"/p/c.ts"⟩).run .empty).1 ∧
      (i.ask (i.compiler.service.semanticDiagnostics i.hostView ⟨"/p/c.ts"⟩)).1 =
        ((Builtin.service.semanticDiagnostics i.hostView ⟨"/p/c.ts"⟩).run .empty).1 := by
  obtain ⟨i, hbuild, hi, hcompiler⟩ := reachable_smallBuild (fun _ => True) trivial
  have hfailed : Reachable (fun _ => True) (i.after deadEnds
      (.compile ⟨⟨"/p/c.ts"⟩, "import './b';", ⟨"/p"⟩, none⟩)) := hi.after trivial _
  refine ⟨_, by rw [smallRetry, hbuild]; rfl, answers_as_fresh (hfailed.after trivial _) ?_ _⟩
  rw [compiler_after _ _ hfailed.wellKept, compiler_after _ _ hi.wellKept]
  exact hcompiler

end TypeScriptEngine.Instance
