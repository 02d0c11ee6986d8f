import TypeScriptEngine.Engine.Instance
import TypeScriptEngine.SourceMap.Basic

/-!
# Build steps

A step compiles one file: it takes the text of the host into the workspace, emits the code, and
reports the diagnostics.  A file that a referenced project owns is not compiled; its code is read
from the output of that project.
-/

namespace TypeScriptEngine

/-- What a host wants to have compiled. -/
structure CompileRequest where
  path : Path
  text : String
  /-- The directory that relative paths are taken from. -/
  context : Path
  /-- The name that the host has for the file, which the source map gets. -/
  request : Option String
deriving Repr

/-- The normal absolute path of the file. -/
def CompileRequest.file (r : CompileRequest) : Path :=
  (if r.path.isAbsolute then r.path else r.context.join r.path).normalize

/-- The name of the source in the source map. -/
def CompileRequest.sourceName (r : CompileRequest) : String := r.request.getD r.file.slashed

/-- What a host gets. -/
structure CompileOutput where
  code : String := ""
  sourceMap : Option SourceMap := none
  errors : List HostError := []
  warnings : List String := []
  /-- The files that depend on a declaration file, whose diagnostics may have changed with it. -/
  affected : List Path := []
deriving Repr

/-- A text with line feeds in the place of the pairs of a carriage return and a line feed. -/
def unifyLineEnds : List Char → List Char
  | '\r' :: '\n' :: cs => '\n' :: unifyLineEnds cs
  | c :: cs => c :: unifyLineEnds cs
  | [] => []

/-- The code as the host gets it: without the lines that name a map. -/
def finishCode (code : String) : String :=
  String.ofList (unifyLineEnds (SourceMap.stripUrl code.toList))

/-- The map as the host gets it: with the text of the host as its only source.  If it cannot be
read there is a warning. -/
def finishMap (r : CompileRequest) : Option String → Option SourceMap × List String
  | none => (none, [])
  | some text =>
    match SourceMap.parse? text with
    | some map => (some (map.withSource r.sourceName r.text), [])
    | none =>
      (none, ["failed to parse source map for " ++ r.sourceName ++ ": not a source map in JSON"])

namespace Instance

/-! ## Output of referenced projects -/

/-- The path of the map of some code. -/
def mapPath (code : Path) : Path := ⟨code.text ++ ".map"⟩

/-- The warning if the output of a referenced project has no map. -/
def missingMapWarning (code : Path) (reference : ProjectReference) : String :=
  "Could not find source map file for referenced project output " ++ code.text ++
    ". Ensure the 'sourceMap' compiler option is enabled in " ++ reference.config.text ++
    " to ensure tsincr can map project references to the appropriate source files."

/-- Looks once for each referenced project whether its output has a map. -/
def checkMap (i : Instance) (disk : Disk) (code : Path) (reference : ProjectReference) :
    Option String × Instance :=
  if i.checkedProjects.any (· == reference.config) then (none, i)
  else
    (if disk.isFile (mapPath code) then none else some (missingMapWarning code reference),
      { i with checkedProjects := reference.config :: i.checkedProjects })

/-- Takes a file from the output of the project that owns it. -/
def compileOwned (i : Instance) (env : Surroundings) (reference : ProjectReference)
    (r : CompileRequest) : Outcome Instance CompileOutput :=
  let built := reference.outputOf r.file
  match env.disk.read built with
  | .error _ => ⟨i, [.read built], .error (.referencedOutputMissing r.file built)⟩
  | .ok code =>
    let (missing, i) := i.checkMap env.disk built reference
    let (sourceMap, warnings) := finishMap r (env.disk.read (mapPath built)).toOption
    let output : CompileOutput :=
      { code := finishCode code, sourceMap, warnings := missing.toList ++ warnings }
    ⟨i, [.read built, .read (mapPath built)], .ok output⟩

/-! ## Sources -/

/-- **Takes the text of the host into the workspace.**  A file that was there keeps its references
if its text is the same. -/
def takeIn (i : Instance) (env : Surroundings) (r : CompileRequest) : Outcome Instance Unit :=
  match i.workspace.files.get? r.file with
  | none => i.ensure env r.file r.text
  | some file =>
    let refreshed :=
      if file.text = r.text then Outcome.pure i () else i.refresh env r.file r.text
    refreshed.andThen fun i _ => .pure (i.store env.disk r.file r.text) ()

/-- The code of an emission, and its map. -/
def codeAndMap? (e : Emission) : Option (String × Option String) :=
  ((e.find? ".js").or (e.find? ".jsx")).map fun code =>
    (code.text, ((e.find? ".js.map").or (e.find? ".jsx.map")).map OutputFile.text)

/-- Emits a file of the workspace, and reports its diagnostics.  Only a declaration file may be
without code. -/
def produce (i : Instance) (r : CompileRequest) : Except EngineError CompileOutput × Instance :=
  let (emission, i) := i.ask (i.compiler.service.emit i.hostView r.file)
  let (diagnostics, i) := i.ask (i.collectDiagnostics r.file)
  let errors := i.report r.context diagnostics
  let affected := if r.file.isDeclaration then i.otherDependents r.file else []
  match codeAndMap? emission with
  | some (code, map) =>
    let (sourceMap, warnings) := finishMap r map
    (.ok { code := finishCode code, sourceMap, errors, warnings, affected }, i)
  | none =>
    if r.file.isDeclaration then (.ok { errors, affected }, i)
    else (.error (.noOutput r.file), i)

/-- **A build step.** -/
def compile (i : Instance) (env : Surroundings) (r : CompileRequest) :
    Outcome Instance CompileOutput :=
  match i.owner? r.file with
  | some reference => i.compileOwned env reference r
  | none =>
    (i.takeIn env r).andThen fun i _ =>
      let (result, i) := i.produce r
      ⟨i, [], result⟩

end Instance

end TypeScriptEngine
