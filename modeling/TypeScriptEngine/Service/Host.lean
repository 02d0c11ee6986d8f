import TypeScriptEngine.Diagnostic.Basic
import TypeScriptEngine.FileStore
import TypeScriptEngine.Graph.Dependency
import TypeScriptEngine.Options.Compiler

/-!
# Language services

The seam between the engine and a compiler.  The engine owns the texts, and shows them to a service
as a `HostView` with every question.  Between questions a service may remember scans; a scan is good
for as long as the file keeps the version that it was made from.
-/

namespace TypeScriptEngine

/-- A declaration file of the standard library. -/
structure LibraryFile where
  path : Path
  text : String
deriving Repr

/-- What a service sees of an instance. -/
structure HostView where
  files : FileStore
  graph : DependencyGraph
  options : CompilerOptions
  currentDir : Path
  libraries : List LibraryFile
deriving Repr

/-- A file that an emission writes. -/
structure OutputFile where
  name : Path
  text : String
deriving Repr

/-- The result of emitting a file. -/
structure Emission where
  outputs : List OutputFile
  /-- Whether there is nothing to emit. -/
  skipped : Bool
deriving Repr

/-- The first output whose name ends with a suffix. -/
def Emission.find? (e : Emission) (suffix : String) : Option OutputFile :=
  e.outputs.find? fun file => file.name.text.endsWith suffix

/-- A text that was scanned at some version of its file. -/
structure CachedScan where
  version : Nat
  text : String
  scan : Scan
deriving Repr

/-- What a service remembers. -/
structure ServiceCache where
  scans : List (Path × CachedScan)
  /-- The global names of the libraries, once they are known. -/
  libraryNames : Option (List String)
deriving Repr

/-- Nothing is remembered yet. -/
def ServiceCache.empty : ServiceCache := ⟨[], none⟩

/-- A question to a service, which may remember something. -/
abbrev Asking := StateM ServiceCache

/-- The answers of a compiler about the files of an instance. -/
structure LanguageService where
  optionsDiagnostics : HostView → List Diagnostic
  syntacticDiagnostics : HostView → Path → Asking (List Diagnostic)
  semanticDiagnostics : HostView → Path → Asking (List Diagnostic)
  emit : HostView → Path → Asking Emission

/-- A compiler that instances can be created with. -/
structure Compiler where
  name : String
  version : String
  /-- Whether it can build against the output of referenced projects. -/
  supportsReferences : Bool
  /-- The libraries that go with some options. -/
  libraries : CompilerOptions → List LibraryFile
  service : LanguageService

end TypeScriptEngine
