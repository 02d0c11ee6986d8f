import TypeScriptEngine.Diagnostic.Report
import TypeScriptEngine.Disk.Basic
import TypeScriptEngine.Resolution.Manifest

/-!
# Operations of the engine

An operation works on some state, in the surroundings of a file tree and a resolver.  An `Outcome`
tells the state that it leaves behind, which it does also when it fails, and what it has asked of
its surroundings on the way.
-/

/-! ## Failures of a build step

What keeps a step from giving a result at all.  What is wrong with a source is a diagnostic, and no
failure.
-/

namespace TypeScriptEngine

/-- Why a step failed. -/
inductive EngineError where
  /-- The configuration at a path cannot be used. -/
  | config (path : Path) (reason : String)
  /-- There is an instance of that name with other settings. -/
  | conflictingOptions (instanceId : String)
  | unknownCompiler (name : String)
  /-- A reference of a file leads nowhere. -/
  | unresolved (specifier : String) (source : Path) (cause : ResolveError)
  | unreadable (path : Path) (cause : DiskError)
  | noOutput (path : Path)
  /-- A referenced project has not been built. -/
  | referencedOutputMissing (input output : Path)
deriving Repr

namespace EngineError

/-- The wording of the error. -/
def message : EngineError → String
  | config path reason => "error while reading config " ++ path.text ++ ": " ++ reason
  | conflictingOptions id => "instance '" ++ id ++ "' already exists with different options"
  | unknownCompiler name => "could not load compiler '" ++ name ++ "'"
  | unresolved specifier source cause =>
    "cannot resolve '" ++ specifier ++ "' imported from " ++ source.text ++ ": " ++ cause.message
  | unreadable path cause => "cannot read " ++ path.text ++ ": " ++ cause.message
  | noOutput path => "no output produced for " ++ path.text
  | referencedOutputMissing input output =>
    "could not find output file " ++ output.text ++ " for " ++ input.text ++
      " from a referenced project; build the referenced project first"

/-- The file that the error is about. -/
def path? : EngineError → Option Path
  | config path _ | unreadable path _ | noOutput path => some path
  | unresolved _ source _ => some source
  | referencedOutputMissing input _ => some input
  | conflictingOptions _ | unknownCompiler _ => none

/-- The error as the host gets it. -/
def toHostError (e : EngineError) (context : Path) : HostError :=
  .ofEngine e.message (e.path?.map Path.text) context

end EngineError

/-! ## What operations leave behind -/

/-- What the engine finds around it. -/
structure Surroundings where
  disk : Disk
  /-- The file that a specifier means, seen from a directory. -/
  resolve : Path → String → Except ResolveError Path

/-- What is asked of the surroundings. -/
inductive Access where
  | resolve (context : Path) (specifier : String)
  | read (path : Path)
deriving Repr

/-- What becomes of an operation. -/
structure Outcome (σ α : Type) where
  /-- The state behind the operation. -/
  state : σ
  /-- What was asked, in order. -/
  accesses : List Access
  result : Except EngineError α

namespace Outcome

variable {σ τ α β : Type}

/-- A result for which nothing had to be asked. -/
def pure (state : σ) (a : α) : Outcome σ α := ⟨state, [], .ok a⟩

/-- A failure before anything was asked. -/
def fail (state : σ) (e : EngineError) : Outcome σ α := ⟨state, [], .error e⟩

/-- One operation after the other.  The second one is left out if the first one fails. -/
def andThen (x : Outcome σ α) (next : σ → α → Outcome σ β) : Outcome σ β :=
  match x.result with
  | .error e => ⟨x.state, x.accesses, .error e⟩
  | .ok a =>
    let y := next x.state a
    ⟨y.state, x.accesses ++ y.accesses, y.result⟩

/-- An operation on a part of a larger state. -/
def within (x : Outcome σ α) (embed : σ → τ) : Outcome τ α := ⟨embed x.state, x.accesses, x.result⟩

/-- An operation whose result is a function of that of another one. -/
def map (f : α → β) (x : Outcome σ α) : Outcome σ β := ⟨x.state, x.accesses, x.result.map f⟩

end Outcome

end TypeScriptEngine
