import TypeScriptEngine.Engine.Change
import TypeScriptEngine.Engine.Compile
import TypeScriptEngine.Service.Builtin

/-!
# The registry

The instances of a host, by their names, and the compilers that it can make instances with.  A step
names its instance; the first step that does makes it, and all others have to agree with it on the
settings.
-/

namespace TypeScriptEngine

/-- The instances of a host. -/
structure Registry where
  /-- The compilers; of those with one name the first one counts. -/
  compilers : List Compiler
  /-- The instances, of which there is one for each name. -/
  instances : List Instance

namespace Registry

/-- A registry that knows the built-in compiler. -/
def empty : Registry := ⟨[builtinCompiler], []⟩

/-- Adds a compiler, in the place of one of that name. -/
def register (registry : Registry) (compiler : Compiler) : Registry :=
  { registry with compilers := compiler :: registry.compilers }

/-- The compiler of a name. -/
def compiler? (registry : Registry) (name : String) : Option Compiler :=
  registry.compilers.find? fun compiler => compiler.name == name

/-- The instance of a name. -/
def get? (registry : Registry) (id : String) : Option Instance :=
  registry.instances.find? fun i => i.id == id

/-- The names of the instances, in ascending order. -/
def ids (registry : Registry) : List String :=
  (registry.instances.map Instance.id).mergeSort fun a b => decide (a ≤ b)

/-- Puts an instance in the place of the one of its name. -/
def put (registry : Registry) (i : Instance) : Registry :=
  { registry with
    instances := registry.instances.map fun other => if other.id == i.id then i else other }

/-- **The instance for a step on a file,** which is made if there is none of that name. -/
def ensureInstance (registry : Registry) (disk : Disk) (settings : BuildSettings)
    (file context : Path) : Except EngineError (Instance × Registry) :=
  let loader := settings.loader
  match registry.get? loader.instanceId with
  | some i =>
    if i.settings.loader = loader then .ok (i, registry)
    else .error (.conflictingOptions loader.instanceId)
  | none =>
    match registry.compiler? loader.compiler with
    | none => .error (.unknownCompiler loader.compiler)
    | some compiler => do
      let i ← Instance.create disk settings compiler file.normalize context
      return (i, { registry with instances := registry.instances ++ [i] })

/-- A build step in the instance that it names. -/
def compile (registry : Registry) (env : Surroundings) (settings : BuildSettings)
    (r : CompileRequest) : Outcome Registry CompileOutput :=
  match registry.ensureInstance env.disk settings r.path r.context with
  | .error e => .fail registry e
  | .ok (i, registry) => (i.compile env r).within registry.put

/-- Tells some instances that a file has changed.  A failure in one of them does not keep the others
from being told. -/
def notifyAll (env : Surroundings) (path : Path) : List String → Registry →
    Registry × List Access × List (String × Except EngineError Invalidation)
  | [], registry => (registry, [], [])
  | id :: ids, registry =>
    match registry.get? id with
    | none => notifyAll env path ids registry
    | some i =>
      let told := i.notifyChanged env path
      let (registry, accesses, results) := notifyAll env path ids (registry.put told.state)
      let found := match told.result with
        | .ok none => []
        | .ok (some invalidation) => [(id, .ok invalidation)]
        | .error e => [(id, .error e)]
      (registry, told.accesses ++ accesses, found ++ results)

/-- **Tells all instances that track a file that it has changed.** -/
def notifyChanged (registry : Registry) (env : Surroundings) (path : Path) :
    Registry × List Access × List (String × Except EngineError Invalidation) :=
  notifyAll env path registry.ids registry

end Registry

end TypeScriptEngine
