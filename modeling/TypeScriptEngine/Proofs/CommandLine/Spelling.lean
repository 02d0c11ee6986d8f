import TypeScriptEngine.Proofs.CommandLine.Order
import TypeScriptEngine.Proofs.Path.Canonical

/-! # Spellings of an input

A step takes the normal path of its file, so that any two spellings of an operand of `graph` leave
the same graph or fail alike (`EndsLike`).  But the graph is then asked for the path as it is
spelled.  Its files are listed by their normal paths, and paths are the same if their segments are,
so that what is printed is told by one thing: whether the spelling has a segment `..`
(`graph_by_spelling`, `edges_lost_by_spelling`).
-/

namespace TypeScriptEngine

open TypeScriptEngine.Graph TypeScriptEngine.Path

namespace Path

variable {p q : Path}

/-- What is the same as a normal path from the root goes up nowhere. -/
theorem up_not_mem_of_beq (h : p.isAbsolute = true) (hq : q.IsNormal) (he : (p == q) = true) :
    .up ∉ p.segments := by
  intro hup
  rw [beq_iff.mp he] at hup
  obtain ⟨before, after, hsegments⟩ := List.append_of_mem hup
  have hroot : .root ∈ q.segments := beq_iff.mp he ▸ root_mem_segments_iff.mpr h
  rw [root_mem_segments_iff, (hq.parents hsegments).1] at hroot
  contradiction

theorem exists_names {segments : List Segment} (h : ∀ s ∈ segments, s.Plain)
    (hup : .up ∉ segments) :
    ∃ names : List String, (∀ name ∈ names, Segment.IsName name) ∧ segments = names.map .name := by
  induction segments with
  | nil => exact ⟨[], by simp, rfl⟩
  | cons s segments ih =>
    rw [List.mem_cons, not_or] at hup
    obtain ⟨names, hnames, rfl⟩ := ih (fun s hs => h s (List.mem_cons_of_mem _ hs)) hup.2
    have hs := h s (List.mem_cons_self ..)
    cases s with
    | name text => exact ⟨text :: names, List.forall_mem_cons.mpr ⟨hs, hnames⟩, rfl⟩
    | up => exact absurd rfl hup.1
    | root | here => exact hs.elim

/-- **A path from the root is the same as its normal form just if it goes up nowhere.** -/
theorem beq_normalize_iff (h : p.isAbsolute = true) :
    (p == p.normalize) = true ↔ .up ∉ p.segments := by
  refine ⟨up_not_mem_of_beq h (isNormal_normalize p), fun hup => beq_iff.mpr ?_⟩
  obtain ⟨cs, -, hsegments⟩ := exists_partsOf h
  rw [hsegments, List.mem_cons, not_or] at hup
  obtain ⟨names, hnames, hparts⟩ := exists_names (fun s => plain_of_mem_partsOf) hup.2
  rw [hparts] at hsegments
  rw [segments_normalize, hsegments, normalSegments_of_settled (settled_root hnames),
    if_neg (List.cons_ne_nil _ _)]

end Path

namespace DependencyGraph

variable {g : DependencyGraph} {p q : Path}

theorem transitiveDependencies_of_beq (h : (p == q) = true) (g : DependencyGraph) :
    g.transitiveDependencies p = g.transitiveDependencies q := by
  unfold transitiveDependencies reachable
  rw [successors_congr h]

theorem transitiveDependencies_of_nil (h : g.dependencies p = []) :
    g.transitiveDependencies p = [] := by
  unfold transitiveDependencies reachable
  rw [successors_targets, h, List.map_nil, Graph.closure]
  rfl

end DependencyGraph

namespace Workspace

variable {w : Workspace} {p : Path}

/-- Files with edges are listed by their normal paths. -/
theorem WellKept.exists_normal (hw : w.WellKept) (h : w.graph.dependencies p ≠ []) :
    ∃ q, q.IsNormal ∧ (p == q) = true := by
  obtain ⟨d, hd⟩ := List.exists_mem_of_ne_nil _ h
  have hin : isIn p (w.graph.dependents d.target) = true := by
    rw [hw.graph.mirror]
    exact List.any_eq_true.mpr ⟨d, hd, BEq.rfl⟩
  obtain ⟨q, hq, he⟩ := isIn_iff.mp hin
  exact ⟨q, hw.dependents _ q hq, BEq.symm he⟩

/-- **The edges by a spelling:** those of the file, or none if the spelling goes up somewhere. -/
theorem WellKept.dependencies_spelled (hw : w.WellKept) (h : p.isAbsolute = true) :
    w.graph.dependencies p =
        (if .up ∈ p.segments then [] else w.graph.dependencies p.normalize) ∧
      w.graph.transitiveDependencies p =
        if .up ∈ p.segments then [] else w.graph.transitiveDependencies p.normalize := by
  split
  · rename_i hup
    have hnone : w.graph.dependencies p = [] := by
      by_contra hne
      obtain ⟨q, hq, he⟩ := hw.exists_normal hne
      exact up_not_mem_of_beq h hq he hup
    exact ⟨hnone, DependencyGraph.transitiveDependencies_of_nil hnone⟩
  · rename_i hup
    have he := (beq_normalize_iff h).mpr hup
    exact ⟨DependencyGraph.dependencies_congr he _,
      DependencyGraph.transitiveDependencies_of_beq he _⟩

end Workspace

/-! ## Steps for one file -/

/-- Two steps for one file, which may be spelled and named in different ways. -/
structure CompileRequest.SameFile (r r' : CompileRequest) : Prop where
  path : r'.path.normalize = r.path.normalize
  file : r'.file = r.file
  text : r'.text = r.text
  context : r'.context = r.context

/-- Two operations leave the same state, and fail alike. -/
structure Outcome.EndsLike {σ α : Type} (x y : Outcome σ α) : Prop where
  state : y.state = x.state
  failure : ∀ e, y.result = .error e ↔ x.result = .error e

theorem Outcome.EndsLike.exists_ok {σ α : Type} {x y : Outcome σ α} (h : x.EndsLike y) {a : α}
    (hx : x.result = .ok a) : ∃ b, y.result = .ok b := by
  cases hy : y.result with
  | ok b => exact ⟨b, rfl⟩
  | error e => exact absurd (hx.symm.trans ((h.failure e).mp hy)) nofun

namespace Instance

variable {i : Instance} {env : Surroundings} {r r' : CompileRequest}

theorem takeIn_of_sameFile (h : r.SameFile r') (i : Instance) (env : Surroundings) :
    i.takeIn env r' = i.takeIn env r := by
  unfold takeIn
  rw [h.file, h.text]

theorem produce_eq_error_iff {e : EngineError} :
    (i.produce r).1 = .error e ↔
      codeAndMap? (i.ask (i.compiler.service.emit i.hostView r.file)).1 = none ∧
      r.file.isDeclaration = false ∧ e = .noOutput r.file := by
  unfold produce
  simp only
  cases hcode : codeAndMap? (i.ask (i.compiler.service.emit i.hostView r.file)).1 with
  | some found => exact ⟨fun h => by contradiction, fun h => by cases h.1⟩
  | none =>
    cases r.file.isDeclaration with
    | true => exact ⟨fun h => by contradiction, fun h => by cases h.2.1⟩
    | false => exact ⟨fun h => ⟨rfl, rfl, (Except.error.inj h).symm⟩, fun h => h.2.2 ▸ rfl⟩

theorem endsLike_produce (h : r.SameFile r') (i : Instance) :
    (i.produce r').2 = (i.produce r).2 ∧
      ∀ e, (i.produce r').1 = .error e ↔ (i.produce r).1 = .error e := by
  refine ⟨?_, fun e => ?_⟩
  · rw [state_produce, state_produce, h.file]
  · rw [produce_eq_error_iff, produce_eq_error_iff, h.file]

theorem endsLike_compileOwned (h : r.SameFile r') (i : Instance) (env : Surroundings)
    (reference : ProjectReference) :
    (i.compileOwned env reference r).EndsLike (i.compileOwned env reference r') := by
  unfold compileOwned
  simp only [h.file]
  cases env.disk.read (reference.outputOf r.file) with
  | error cause => exact ⟨rfl, fun _ => Iff.rfl⟩
  | ok code => exact ⟨rfl, fun _ => ⟨fun he => by contradiction, fun he => by contradiction⟩⟩

/-- **The steps for a file end alike,** however it is spelled. -/
theorem endsLike_compile (h : r.SameFile r') (i : Instance) (env : Surroundings) :
    (i.compile env r).EndsLike (i.compile env r') := by
  cases howner : i.owner? r.file with
  | some reference =>
    rw [compile_of_owned env howner, compile_of_owned env (h.file ▸ howner)]
    exact endsLike_compileOwned h i env reference
  | none =>
    rw [compile_of_unowned env howner, compile_of_unowned env (h.file ▸ howner),
      takeIn_of_sameFile h]
    cases htake : (i.takeIn env r).result with
    | error e =>
      rw [Outcome.andThen_of_error htake, Outcome.andThen_of_error htake]
      exact ⟨rfl, fun _ => Iff.rfl⟩
    | ok _ =>
      obtain ⟨hstate, hfailure⟩ := endsLike_produce h (i.takeIn env r).state
      constructor
      · rw [Outcome.state_andThen_of_ok htake, Outcome.state_andThen_of_ok htake]
        exact hstate
      · intro e
        rw [Outcome.result_andThen_of_ok htake, Outcome.result_andThen_of_ok htake]
        exact hfailure e

end Instance

namespace Registry

theorem endsLike_compile {r r' : CompileRequest} (h : r.SameFile r') (registry : Registry)
    (env : Surroundings) (settings : BuildSettings) :
    (registry.compile env settings r).EndsLike (registry.compile env settings r') := by
  have hensure : registry.ensureInstance env.disk settings r'.path r'.context =
      registry.ensureInstance env.disk settings r.path r.context := by
    unfold ensureInstance
    rw [h.path, h.context]
  unfold compile
  rw [hensure]
  cases registry.ensureInstance env.disk settings r.path r.context with
  | error e => exact ⟨rfl, fun _ => Iff.rfl⟩
  | ok found =>
    have hends := Instance.endsLike_compile h found.1 env
    exact ⟨congrArg found.2.put hends.state, hends.failure⟩

end Registry

namespace CommandLine

/-! ## Calls -/

/-- A call of the command for one operand. -/
def graphOf (disk : Disk) (a : Arguments) (file : String) : Run :=
  graph disk { a with operands := [file] }

/-- The step that such a call takes, with the text that has been read. -/
def graphStep (disk : Disk) (options : LoaderOptions) (file text : String) :
    Outcome Registry CompileOutput :=
  Registry.empty.compile (surroundings disk) ⟨options, none⟩
    (requestFor (workingPath disk) file text)

/-- What the graph says of a file, given its edges and the number of files behind them. -/
def edgesText (path : Path) (edges : List Dependency) (reachable : Nat) : String :=
  path.text ++ "\n" ++
    String.join (edges.map fun edge =>
      "  " ++ edge.specifier ++ " -> " ++ edge.target.text ++ "\n") ++
    "\n" ++ toString reachable ++ " file(s) reachable\n"

theorem graphText_eq (g : DependencyGraph) (path : Path) :
    graphText g path =
      edgesText path (g.dependencies path) (g.transitiveDependencies path).length := rfl

/-- What a call prints once its file has been read. -/
theorem graphOf_eq {disk : Disk} {a : Arguments} {file text : String} {options : LoaderOptions}
    (hoptions : loaderOptions a = .ok options)
    (hread : disk.read ((workingPath disk).join ⟨file⟩) = .ok text) :
    graphOf disk a file =
      match (graphStep disk options file text).result with
      | .error e => ⟨disk, 1, "", (e.toHostError (workingPath disk)).render none ++ "\n"⟩
      | .ok _ =>
        match (graphStep disk options file text).state.get? options.instanceId with
        | none => ⟨disk, 1, "", ""⟩
        | some i => ⟨disk, 0, graphText i.workspace.graph ((workingPath disk).join ⟨file⟩) ++
            cycleText i.workspace.graph, ""⟩ := by
  have hoptions : loaderOptions { a with operands := [file] } = .ok options := hoptions
  unfold graphOf graph withCompiled compileIn
  simp only [hoptions, bind, Except.bind, pure, Except.pure, compileAll, hread]
  unfold graphStep surroundings requestFor
  generalize Registry.empty.compile _ _ _ = step
  obtain ⟨registry, accesses, result⟩ := step
  cases result with
  | error e => simp [Run.complain, Run.failed, Run.start]
  | ok output =>
    simp only
    cases registry.get? options.instanceId with
    | none => rfl
    | some i => simp [Run.print, Run.start]

theorem graphOf_of_options_error {disk : Disk} {a : Arguments} {message : String}
    (h : loaderOptions a = .error message) (file : String) :
    graphOf disk a file = ⟨disk, 1, "", message ++ "\n"⟩ := by
  have hoptions : loaderOptions { a with operands := [file] } = .error message := h
  unfold graphOf graph withCompiled
  simp [hoptions, bind, Except.bind, Run.complain, Run.failed, Run.start]

/-- The instance behind a step of a call. -/
theorem wellKept_graphStep {disk : Disk} {options : LoaderOptions} {file text id : String}
    {i : Instance} (h : (graphStep disk options file text).state.get? id = some i) :
    i.workspace.WellKept := by
  have hkept := (Registry.wellKept_of_no_instances [builtinCompiler]).answer (surroundings disk)
    (.compile ⟨options, none⟩ (requestFor (workingPath disk) file text))
  exact hkept.workspaces i (Registry.mem_of_get? h)

/-! ## Spellings -/

/-- An operand spells a path: it leads to a file, and this is its normal path. -/
structure Spells (disk : Disk) (n : Path) (file : String) : Prop where
  normal : inputPath (workingPath disk) file = n
  readable : ∃ text, disk.read ((workingPath disk).join ⟨file⟩) = .ok text

/-- Spellings of a file are read alike. -/
theorem Spells.read {disk : Disk} {n : Path} {file : String} (h : Spells disk n file) :
    ∃ text, disk.read n = .ok text ∧ disk.read ((workingPath disk).join ⟨file⟩) = .ok text := by
  obtain ⟨text, hread⟩ := h.readable
  refine ⟨text, ?_, hread⟩
  rw [← h.normal]
  exact Disk.read_normalize (isAbsolute_join (isAbsolute_workingPath disk) _) hread

/-- The steps for two spellings end alike. -/
theorem endsLike_graphStep {disk : Disk} {n : Path} {file file' : String} (h : Spells disk n file)
    (h' : Spells disk n file') (options : LoaderOptions) (text : String) :
    (graphStep disk options file text).EndsLike (graphStep disk options file' text) := by
  have hsame : (requestFor (workingPath disk) file text).SameFile
      (requestFor (workingPath disk) file' text) := by
    have hnormal := h'.normal.trans h.normal.symm
    refine ⟨hnormal, ?_, rfl, rfl⟩
    rw [file_requestFor (isAbsolute_workingPath disk),
      file_requestFor (isAbsolute_workingPath disk)]
    exact hnormal
  exact Registry.endsLike_compile hsame _ _ _

/-- **What `graph` prints by the spellings of a file.**  Either all calls fail with one message, or
they leave one graph.  Then the cycle is the same by all spellings, and so are the edges and the
number of files behind them, but for spellings with a segment `..`, by which the file has none. -/
theorem graph_by_spelling (disk : Disk) (a : Arguments) (n : Path) :
    (∃ message, ∀ file, Spells disk n file → graphOf disk a file = ⟨disk, 1, "", message⟩) ∨
    ∃ g : DependencyGraph, ∀ file, Spells disk n file →
      graphOf disk a file = ⟨disk, 0,
        (if .up ∈ ((workingPath disk).join ⟨file⟩).segments then
          edgesText ((workingPath disk).join ⟨file⟩) [] 0
        else
          edgesText ((workingPath disk).join ⟨file⟩) (g.dependencies n)
            (g.transitiveDependencies n).length) ++ cycleText g, ""⟩ := by
  cases hoptions : loaderOptions a with
  | error message => exact .inl ⟨_, fun file _ => graphOf_of_options_error hoptions file⟩
  | ok options =>
  by_cases hspelled : ∃ file, Spells disk n file
  · obtain ⟨first, hfirst⟩ := hspelled
    obtain ⟨text, hn, -⟩ := hfirst.read
    have hcall : ∀ file, Spells disk n file →
        disk.read ((workingPath disk).join ⟨file⟩) = .ok text ∧
        (graphStep disk options first text).EndsLike (graphStep disk options file text) := by
      intro file hfile
      obtain ⟨text', hn', hread⟩ := hfile.read
      obtain rfl := Except.ok.inj (hn.symm.trans hn')
      exact ⟨hread, endsLike_graphStep hfirst hfile options text⟩
    cases hresult : (graphStep disk options first text).result with
    | error e =>
      refine .inl ⟨(e.toHostError (workingPath disk)).render none ++ "\n", fun file hfile => ?_⟩
      obtain ⟨hread, hends⟩ := hcall file hfile
      rw [graphOf_eq hoptions hread, (hends.failure e).mpr hresult]
    | ok output =>
      cases hget : (graphStep disk options first text).state.get? options.instanceId with
      | none =>
        refine .inl ⟨"", fun file hfile => ?_⟩
        obtain ⟨hread, hends⟩ := hcall file hfile
        obtain ⟨output', hresult'⟩ := hends.exists_ok hresult
        rw [graphOf_eq hoptions hread, hresult', hends.state]
        simp only [hget]
      | some i =>
        refine .inr ⟨i.workspace.graph, fun file hfile => ?_⟩
        obtain ⟨hread, hends⟩ := hcall file hfile
        obtain ⟨output', hresult'⟩ := hends.exists_ok hresult
        have habsolute := isAbsolute_join (isAbsolute_workingPath disk) ⟨file⟩
        obtain ⟨hedges, hbehind⟩ := (wellKept_graphStep hget).dependencies_spelled habsolute
        have hnormal : ((workingPath disk).join ⟨file⟩).normalize = n := hfile.normal
        rw [graphOf_eq hoptions hread, hresult', hends.state]
        simp only [hget, graphText_eq, hedges, hbehind, hnormal]
        split <;> rfl
  · exact .inl ⟨"", fun file hfile => absurd ⟨file, hfile⟩ hspelled⟩

/-- A text that refers to a source in another directory. -/
def spelledText : String := "/// <reference path='src/dep.ts'/>\n"

/-- A project with such a text. -/
def spelledProject : Disk where
  workingDir := ["p"]
  entries := [(["p"], .directory 0), (["p", "src"], .directory 0),
    (["p", "main.ts"], .file (some spelledText) 0), (["p", "src", "dep.ts"], .file (some "") 0)]

/-- A call of the command without options. -/
def plainGraph (file : String) : Run := graphOf spelledProject ⟨[], []⟩ file

theorem spells_of_checks {disk : Disk} {n : Path} {file : String}
    (hnormal : (inputPath (workingPath disk) file).text = n.text)
    (hread : (disk.read ((workingPath disk).join ⟨file⟩)).isOk = true) : Spells disk n file := by
  refine ⟨congrArg Path.mk hnormal, ?_⟩
  cases h : disk.read ((workingPath disk).join ⟨file⟩) with
  | ok text => exact ⟨text, rfl⟩
  | error e =>
    rw [h] at hread
    contradiction

theorem spells_main : Spells spelledProject ⟨"/p/main.ts"⟩ "main.ts" :=
  spells_of_checks (by decide +kernel) (by decide +kernel)

theorem spells_main_up : Spells spelledProject ⟨"/p/main.ts"⟩ "src/../main.ts" :=
  spells_of_checks (by decide +kernel) (by decide +kernel)

/-- Whether the source has one edge in a graph, to a file without edges. -/
def isSpelledGraph (g : DependencyGraph) : Bool :=
  match g.dependencies ⟨"/p/main.ts"⟩ with
  | [d] => d.specifier == "src/dep.ts" && d.target.text == "/p/src/dep.ts" &&
      (g.dependencies d.target).isEmpty && (g.dependencies ⟨"/p/src/../main.ts"⟩).isEmpty
  | _ => false

theorem graphText_of_isSpelledGraph {g : DependencyGraph} (h : isSpelledGraph g = true) :
    graphText g ⟨"/p/main.ts"⟩ =
        "/p/main.ts\n  src/dep.ts -> /p/src/dep.ts\n\n1 file(s) reachable\n" ∧
      graphText g ⟨"/p/src/../main.ts"⟩ = "/p/src/../main.ts\n\n0 file(s) reachable\n" := by
  unfold isSpelledGraph at h
  split at h
  · rename_i d hd
    simp only [Bool.and_eq_true, beq_iff_eq, List.isEmpty_iff] at h
    obtain ⟨⟨⟨hspecifier, htarget⟩, hnone⟩, hup⟩ := h
    constructor
    · have hone : (g.dependencies ⟨"/p/main.ts"⟩).map Dependency.target = [d.target] := by
        rw [hd]
        rfl
      rw [graphText_eq, hd, Instance.transitiveDependencies_of_single hone hnone]
      simp only [edgesText, List.map_cons, List.map_nil, List.length_singleton, hspecifier, htarget]
      decide +kernel
    · rw [graphText_eq, hup, DependencyGraph.transitiveDependencies_of_nil hup]
      rfl
  · contradiction

/-- The two calls leave such a graph. -/
theorem exists_spelledGraph : ∃ g, isSpelledGraph g = true ∧
    plainGraph "main.ts" =
      ⟨spelledProject, 0, graphText g ⟨"/p/main.ts"⟩ ++ cycleText g, ""⟩ ∧
    plainGraph "src/../main.ts" =
      ⟨spelledProject, 0, graphText g ⟨"/p/src/../main.ts"⟩ ++ cycleText g, ""⟩ := by
  have hoptions : loaderOptions ⟨[], []⟩ = .ok {} := rfl
  have hread : spelledProject.read ((workingPath spelledProject).join ⟨"main.ts"⟩) =
      .ok spelledText := rfl
  have hread' : spelledProject.read ((workingPath spelledProject).join ⟨"src/../main.ts"⟩) =
      .ok spelledText := rfl
  have hends := endsLike_graphStep spells_main spells_main_up {} spelledText
  have hchecks : ((graphStep spelledProject {} "main.ts" spelledText).result.isOk &&
      ((graphStep spelledProject {} "main.ts" spelledText).state.get? "default").any
        fun i => isSpelledGraph i.workspace.graph) = true := by decide +kernel
  rw [Bool.and_eq_true] at hchecks
  obtain ⟨hok, hany⟩ := hchecks
  obtain ⟨i, hget, hgraph⟩ := (Option.any_eq_true _ _).mp hany
  cases hresult : (graphStep spelledProject {} "main.ts" spelledText).result with
  | error e =>
    rw [hresult] at hok
    contradiction
  | ok output =>
    obtain ⟨output', hresult'⟩ := hends.exists_ok hresult
    refine ⟨i.workspace.graph, hgraph, ?_, ?_⟩
    · unfold plainGraph
      rw [graphOf_eq hoptions hread, hresult]
      simp only [hget]
      rfl
    · unfold plainGraph
      rw [graphOf_eq hoptions hread', hresult', hends.state]
      simp only [hget]
      rfl

theorem graph_by_spelling_main :
    (Spells spelledProject ⟨"/p/main.ts"⟩ "main.ts" ∧
      Spells spelledProject ⟨"/p/main.ts"⟩ "src/../main.ts") ∧
    ∃ g : DependencyGraph,
      plainGraph "main.ts" = ⟨spelledProject, 0,
        edgesText ⟨"/p/main.ts"⟩ (g.dependencies ⟨"/p/main.ts"⟩)
          (g.transitiveDependencies ⟨"/p/main.ts"⟩).length ++ cycleText g, ""⟩ ∧
      plainGraph "src/../main.ts" =
        ⟨spelledProject, 0, edgesText ⟨"/p/src/../main.ts"⟩ [] 0 ++ cycleText g, ""⟩ := by
  refine ⟨⟨spells_main, spells_main_up⟩, ?_⟩
  rcases graph_by_spelling spelledProject ⟨[], []⟩ ⟨"/p/main.ts"⟩ with ⟨message, hfail⟩ | ⟨g, hall⟩
  · obtain ⟨g, -, hgraph, -⟩ := exists_spelledGraph
    have hcode := congrArg Run.code (hgraph.symm.trans (hfail _ spells_main))
    contradiction
  · exact ⟨g, hall _ spells_main, hall _ spells_main_up⟩

/-- **Edges are lost by a spelling.**  The two operands spell one file, but only by the first one it
refers to another file. -/
theorem edges_lost_by_spelling :
    Spells spelledProject ⟨"/p/main.ts"⟩ "main.ts" ∧
    Spells spelledProject ⟨"/p/main.ts"⟩ "src/../main.ts" ∧
    ∃ cycle, (plainGraph "main.ts").out =
        "/p/main.ts\n  src/dep.ts -> /p/src/dep.ts\n\n1 file(s) reachable\n" ++ cycle ∧
      (plainGraph "src/../main.ts").out =
        "/p/src/../main.ts\n\n0 file(s) reachable\n" ++ cycle := by
  refine ⟨spells_main, spells_main_up, ?_⟩
  obtain ⟨g, hg, hgraph, hgraph'⟩ := exists_spelledGraph
  obtain ⟨hmain, hup⟩ := graphText_of_isSpelledGraph hg
  refine ⟨cycleText g, ?_, ?_⟩
  · rw [hgraph, hmain]
  · rw [hgraph', hup]

end CommandLine

end TypeScriptEngine
