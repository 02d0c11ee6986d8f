import TypeScriptEngine.Options.Compiler

/-!
# Loader options

What a host passes along with every build step.  Two steps may share an instance only if their
settings agree.
-/

namespace TypeScriptEngine

/-- The name of the compiler that comes with the engine. -/
def builtinCompilerName : String := "tsincr"

/-- The options of a build step. -/
structure LoaderOptions where
  /-- The instance that the step belongs to. -/
  instanceId : String := "default"
  /-- Shorthands for the compiler options of the same name, which they override. -/
  target : Option String := none
  module : Option String := none
  sourceMap : Option Bool := none
  /-- Whether the creation of an instance is kept from the log. -/
  silent : Bool := false
  compiler : String := builtinCompilerName
  /-- A bare file name is looked for upwards from the compiled file; a path is taken from the build
  context. -/
  configFileName : String := "tsconfig.json"
  compilerOptions : OptionsPatch := {}
  /-- Codes of diagnostics that are never reported. -/
  ignoreDiagnostics : List Nat := []
  /-- Patterns for the files whose diagnostics are reported. -/
  reportFiles : List String := []
  colors : Bool := true
deriving DecidableEq, Repr, Inhabited

/-- The layer of compiler options that a host sets. -/
def LoaderOptions.queryPatch (options : LoaderOptions) : OptionsPatch :=
  OptionsPatch.or
    { target := options.target, module := options.module, sourceMap := options.sourceMap }
    options.compilerOptions

end TypeScriptEngine
