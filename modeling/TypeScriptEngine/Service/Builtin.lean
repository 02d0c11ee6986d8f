import TypeScriptEngine.Check.Brackets
import TypeScriptEngine.Check.Erasability
import TypeScriptEngine.Check.Scopes
import TypeScriptEngine.Emit.Program
import TypeScriptEngine.Library.Text
import TypeScriptEngine.Options.Loader
import TypeScriptEngine.Service.Host
import TypeScriptEngine.SourceMap.Basic

/-!
# The built-in compiler

It works on one file at a time, and on its tokens.  Its diagnostics are about pieces of text that
are no tokens, brackets that do not fit, names that are declared twice, and syntax that has no
erasable form.  Its code is the text without the types, line for line.
-/

namespace TypeScriptEngine.Builtin

/-! ## Libraries -/

/-- The directory that the bundled libraries seem to lie in. -/
def libraryRoot : Path := ⟨"/__tsincr__/lib"⟩

/-- A bundled library. -/
def library (name : String) (lines : List String) : LibraryFile where
  path := libraryRoot.join ⟨name⟩
  text := String.join (lines.map fun line => line ++ "\n")

/-- The libraries that go with some options. -/
def libraries (options : CompilerOptions) : List LibraryFile :=
  if options.noLib then []
  else
    library "lib.es5.d.ts" Library.es5Lines ::
      if options.target.isLegacy then [] else [library "lib.es2015.d.ts" Library.es2015Lines]

/-! ## Scans -/

/-- The scan of a file, made anew if the file has another version than the scan that is
remembered. -/
def scan? (host : HostView) (path : Path) : Asking (Option CachedScan) := fun cache =>
  match host.files.get? path with
  | none => (none, cache)
  | some file =>
    match (Path.find? file.path cache.scans).filter fun scan => scan.version == file.version with
    | some scan => (some scan, cache)
    | none =>
      let scan : CachedScan := ⟨file.version, file.text, .ofText file.text⟩
      (some scan, { cache with scans := Path.alter file.path (fun _ => scan) cache.scans })

/-- The global names of the libraries, which are found out once. -/
def libraryNames (host : HostView) : Asking (List String) := fun cache =>
  match cache.libraryNames with
  | some names => (names, cache)
  | none =>
    let names := host.libraries.flatMap fun lib => Binding.globals (Scan.ofText lib.text).tokens
    (names, { cache with libraryNames := some names })

/-- The global names of some files. -/
def globalNames (host : HostView) : List Path → Asking (List String)
  | [] => pure []
  | path :: paths => do
    let scan ← scan? host path
    let names ← globalNames host paths
    return (scan.elim [] fun scan => Binding.globals scan.scan.tokens) ++ names

/-- The global names that a file sees: those of the libraries, and of the other files that it
depends on. -/
def ambientNames (host : HostView) (path : Path) : Asking (List String) := do
  let libraries ← libraryNames host
  let others := (host.graph.transitiveDependencies path).filter fun file => !(file == path)
  return libraries ++ (← globalNames host others)

/-! ## Diagnostics -/

/-- The diagnostics of the findings in a scanned file. -/
def diagnosticsOf (path : Path) (scan : CachedScan) (findings : List Finding) : List Diagnostic :=
  findings.map (Finding.toDiagnostic ⟨path, scan.text⟩)

/-- What is wrong with the text of a file, whatever it means. -/
def syntacticDiagnostics (host : HostView) (path : Path) : Asking (List Diagnostic) := do
  match ← scan? host path with
  | none => return []
  | some scan => return diagnosticsOf path scan (Check.syntactic scan.scan.tokens)

/-- What is wrong with the declarations of a file.  A declaration file has no code to begin with, so
that nothing in it has to be erasable. -/
def semanticDiagnostics (host : HostView) (path : Path) : Asking (List Diagnostic) := do
  match ← scan? host path with
  | none => return []
  | some scan =>
    let ambient ← ambientNames host path
    let tokens := scan.scan.tokens
    let redeclared := Check.redeclarations tokens fun name => ambient.contains name
    let fixed := if path.isDeclaration then [] else Check.erasability tokens
    return diagnosticsOf path scan (redeclared ++ fixed)

/-! ## Code -/

/-- The code of a scanned file. -/
def codeOf (options : CompilerOptions) (scan : CachedScan) : List Char :=
  Emit.program (.of options.module options.target) scan.scan.tokens scan.text.toList

/-- The map from emitted code to the file at `path`. -/
def mapFile (output path : Path) (code : List Char) : OutputFile where
  name := ⟨output.text ++ ".map"⟩
  text := (SourceMap.linePreserving (output.fileName?.getD "")
    (Path.relativeTo ((output.parent?).getD ⟨"/"⟩) path).slashed
    (Text.lineBreaks code + 1)).print

/-- The outputs for code, with a map if the options ask for one. -/
def outputsOf (host : HostView) (path : Path) (code : List Char) : List OutputFile :=
  let output := host.options.outputPath path host.currentDir
  if host.options.sourceMap then
    let map := mapFile output path code
    let url := "\n//# sourceMappingURL=" ++ (map.name.fileName?).getD ""
    [⟨output, String.ofList code ++ url⟩, map]
  else [⟨output, String.ofList code⟩]

/-- Emits a file.  Declaration files and files that are not known have no code. -/
def emit (host : HostView) (path : Path) : Asking Emission := do
  if path.isDeclaration then return ⟨[], true⟩
  match ← scan? host path with
  | none => return ⟨[], true⟩
  | some scan => return ⟨outputsOf host path (codeOf host.options scan), false⟩

/-- The service of the built-in compiler. -/
def service : LanguageService where
  optionsDiagnostics host := host.options.module.diagnostics
  syntacticDiagnostics := syntacticDiagnostics
  semanticDiagnostics := semanticDiagnostics
  emit := emit

end TypeScriptEngine.Builtin

namespace TypeScriptEngine

/-- The compiler that comes with the engine. -/
def builtinCompiler : Compiler where
  name := builtinCompilerName
  version := "0.1.0"
  supportsReferences := true
  libraries := Builtin.libraries
  service := Builtin.service

end TypeScriptEngine
