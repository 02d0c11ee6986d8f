import TypeScriptEngine.Json.Basic
import TypeScriptEngine.Options.Loader

/-!
# Options in JSON

The records in which hosts and configuration files write options.
-/

namespace TypeScriptEngine

open Json (optional defaulted)

/-- The keys of a layer of compiler options, in order. -/
def OptionsPatch.keys : List String :=
  ["target", "module", "sourceMap", "outDir", "noLib", "jsx", "declaration", "composite"]

/-- The layer of compiler options of a JSON value. -/
def OptionsPatch.ofJson? (dialect : Json.Dialect) (json : Json) : Option OptionsPatch := do
  let fields ← json.fields? dialect keys
  let target ← optional fields "target" Json.asString?
  let module ← optional fields "module" Json.asString?
  let sourceMap ← optional fields "sourceMap" Json.asBool?
  let outDir ← optional fields "outDir" Json.asString?
  let noLib ← optional fields "noLib" Json.asBool?
  let jsx ← optional fields "jsx" Json.asString?
  let declaration ← optional fields "declaration" Json.asBool?
  let composite ← optional fields "composite" Json.asBool?
  return { target, module, sourceMap, outDir, noLib, jsx, declaration, composite }

/-- The keys of the options of a build step, in order. -/
def LoaderOptions.keys : List String :=
  ["instance", "target", "module", "sourceMap", "silent", "compiler", "configFileName",
    "compilerOptions", "ignoreDiagnostics", "reportFiles", "colors"]

/-- The options of a build step of a JSON value. -/
def LoaderOptions.ofJson? (json : Json) : Option LoaderOptions := do
  let fields ← json.fields? .strict keys
  let standard : LoaderOptions := {}
  let instanceId ← defaulted fields "instance" standard.instanceId Json.asString?
  let target ← optional fields "target" Json.asString?
  let module ← optional fields "module" Json.asString?
  let sourceMap ← optional fields "sourceMap" Json.asBool?
  let silent ← defaulted fields "silent" standard.silent Json.asBool?
  let compiler ← defaulted fields "compiler" standard.compiler Json.asString?
  let configFileName ← defaulted fields "configFileName" standard.configFileName Json.asString?
  let compilerOptions ← defaulted fields "compilerOptions" {} (OptionsPatch.ofJson? .strict)
  let ignoreDiagnostics ← defaulted fields "ignoreDiagnostics" [] (Json.listOf Json.asNat32?)
  let reportFiles ← defaulted fields "reportFiles" [] (Json.listOf Json.asString?)
  let colors ← defaulted fields "colors" standard.colors Json.asBool?
  return { instanceId, target, module, sourceMap, silent, compiler, configFileName,
           compilerOptions, ignoreDiagnostics, reportFiles, colors }

end TypeScriptEngine
