import TypeScriptEngine.Config.Sources
import TypeScriptEngine.Engine.Workspace
import TypeScriptEngine.Options.Loader
import TypeScriptEngine.Service.Host

/-!
# Instances

An instance is a session of a compiler with options of its own.  It owns its workspace and what its
service remembers, and shares nothing with other instances.
-/

namespace TypeScriptEngine

/-- What a host asks for with every step. -/
structure BuildSettings where
  loader : LoaderOptions
  /-- The wording of the host for messages.  It is no setting that instances differ in. -/
  wording : Option (ErrorFacts → Palette → String) := none

/-- Whether an instance builds on the output of other projects. -/
inductive ProjectLayout where
  | single
  /-- The files that one of the projects owns are taken from its output. -/
  | composite (references : List ProjectReference)
deriving Repr

/-- A session of a compiler. -/
structure Instance where
  settings : BuildSettings
  compiler : Compiler
  options : CompilerOptions
  /-- The configuration file, if there is one. -/
  config : Option Path
  layout : ProjectLayout
  filter : DiagnosticFilter
  style : ErrorStyle
  libraries : List LibraryFile
  /-- The context of the step that made the instance. -/
  currentDir : Path
  workspace : Workspace
  /-- What the service remembers. -/
  cache : ServiceCache
  /-- The referenced projects whose source maps have been looked for. -/
  checkedProjects : List Path

namespace Instance

/-- The name of an instance. -/
def id (i : Instance) : String := i.settings.loader.instanceId

/-! ## Making an instance -/

/-- The error for a configuration that cannot be used. -/
def configError (config : Option Path) (context : Path) (e : ConfigError) : EngineError :=
  .config ((e.path?.or config).getD context) e.message

/-- The configuration of the instance for a file, if there is one. -/
def loadConfig (disk : Disk) (config : Option Path) (context : Path) :
    Except EngineError (Option ProjectConfig) :=
  match config with
  | none => .ok none
  | some path =>
    match Config.load disk path with
    | .ok project => .ok (some project)
    | .error e => .error (configError config context e)

/-- The projects that a configuration refers to, if the compiler can build on them. -/
def layoutOf (disk : Disk) (compiler : Compiler) (config : Option Path) (context : Path)
    (references : List Path) : Except EngineError ProjectLayout :=
  if references.isEmpty || !compiler.supportsReferences then .ok .single
  else
    match references.mapM (ProjectReference.load disk) with
    | .ok references => .ok (.composite references)
    | .error e => .error (configError config context e)

/-- **Makes an instance** for a step on a file. -/
def create (disk : Disk) (settings : BuildSettings) (compiler : Compiler) (file context : Path) :
    Except EngineError Instance := do
  let loader := settings.loader
  let config := Config.locate? disk file context loader.configFileName
  let place := config.getD context
  let project ← loadConfig disk config context
  let projectOptions := project.elim {} ProjectConfig.options
  let base := project.elim context ProjectConfig.directory
  let options ← match CompilerOptions.resolve loader.queryPatch projectOptions base with
    | .ok options => pure options
    | .error e => throw (.config place e.message)
  let layout ← layoutOf disk compiler config context (project.elim [] ProjectConfig.references)
  let filter ← match DiagnosticFilter.ofTexts loader.ignoreDiagnostics loader.reportFiles with
    | .ok filter => pure filter
    | .error e => throw (.config place e.message)
  return {
    settings, compiler, options, config, layout, filter
    style := ⟨⟨loader.colors⟩, settings.wording⟩
    libraries := if options.noLib then [] else compiler.libraries options
    currentDir := context
    workspace := .empty
    cache := .empty
    checkedProjects := [] }

/-! ## Questions -/

/-- Whether the instance tracks a file. -/
def tracks (i : Instance) (path : Path) : Bool := i.workspace.files.contains path

/-- What the service sees of the instance. -/
def hostView (i : Instance) : HostView where
  files := i.workspace.files
  graph := i.workspace.graph
  options := i.options
  currentDir := i.currentDir
  libraries := i.libraries

/-- The referenced project that owns a file. -/
def owner? (i : Instance) (file : Path) : Option ProjectReference :=
  match i.layout with
  | .single => none
  | .composite references => references.find? fun reference => reference.owns file

/-- The files, other than the file itself, that refer to it, directly or not. -/
def otherDependents (i : Instance) (path : Path) : List Path :=
  (i.workspace.graph.transitiveDependents path).filter fun file => !(file == path)

/-- Asks the service something. -/
def ask {α : Type} (i : Instance) (question : Asking α) : α × Instance :=
  let (answer, cache) := question.run i.cache
  (answer, { i with cache })

/-- The diagnostics of several files. -/
def diagnosticsOfAll (service : LanguageService) (host : HostView) :
    List Path → Asking (List Diagnostic)
  | [] => pure []
  | path :: paths => do
    let syntactic ← service.syntacticDiagnostics host path
    let semantic ← service.semanticDiagnostics host path
    return syntactic ++ semantic ++ (← diagnosticsOfAll service host paths)

/-- The files whose diagnostics are reported with a file: those that depend on a declaration file
are reported with it. -/
def reportedWith (i : Instance) (path : Path) : List Path :=
  if (i.workspace.files.get? path).any TrackedFile.isDeclaration then path :: i.otherDependents path
  else [path]

/-- The diagnostics of a file, after those of the options. -/
def collectDiagnostics (i : Instance) (path : Path) : Asking (List Diagnostic) := do
  let host := i.hostView
  let service := i.compiler.service
  let ofFiles ← diagnosticsOfAll service host (i.reportedWith path)
  return service.optionsDiagnostics host ++ ofFiles

/-- Diagnostics as the host gets them. -/
def report (i : Instance) (context : Path) (diagnostics : List Diagnostic) : List HostError :=
  reportDiagnostics i.filter i.style context diagnostics

/-! ## The workspace -/

/-- The instance with another workspace. -/
def withWorkspace (i : Instance) (workspace : Workspace) : Instance := { i with workspace }

/-- Tracks a file and everything it refers to. -/
def ensure (i : Instance) (env : Surroundings) (path : Path) (text : String) :
    Outcome Instance Unit :=
  (i.workspace.ensure env path text).within i.withWorkspace

/-- Gives a file the references of another text. -/
def refresh (i : Instance) (env : Surroundings) (path : Path) (text : String) :
    Outcome Instance Unit :=
  (i.workspace.refresh env path text).within i.withWorkspace

/-- Sets the text of a file. -/
def store (i : Instance) (disk : Disk) (path : Path) (text : String) : Instance :=
  let files := i.workspace.files.upsert path text
  i.withWorkspace ({ i.workspace with files }.recordTime disk path)

end Instance

end TypeScriptEngine
