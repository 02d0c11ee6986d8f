import TypeScriptEngine.Engine.Outcome
import TypeScriptEngine.FileStore
import TypeScriptEngine.Graph.Dependency

/-!
# Workspaces

The part of an instance that grows with the files it sees: their texts, the graph of their
references, and the times at which declaration files were changed when they were read.

The files behind a file are loaded level by level (`loadLevels`): the references of all files of a
level are resolved in order, their edges are put into the graph, and the targets that are not
tracked yet are read and make up the next level.  If something fails on the way, the files that were
taken in are removed again (`rollBack`).
-/

namespace TypeScriptEngine

/-- The files that an instance tracks, and what it knows about them. -/
structure Workspace where
  files : FileStore
  graph : DependencyGraph
  /-- For declaration files, when the text that was read had been changed. -/
  declarationTimes : List (Path × Nat)
deriving Repr

/-- A file with a text. -/
structure SourceText where
  path : Path
  text : String
deriving Repr

/-- A reference of a file, with what the resolver is asked for it. -/
structure ResolveRequest where
  source : Path
  /-- The directory of the file. -/
  context : Path
  specifier : String
  reference : Reference
deriving Repr

namespace ResolveRequest

/-- What the resolver is asked for a reference.  The path of a directive is taken from the directory
of the file. -/
def askedSpecifier (context : Path) (reference : Reference) : String :=
  match reference.kind with
  | .module => reference.specifier
  | .directive =>
    let path : Path := ⟨reference.specifier⟩
    if path.isAbsolute then reference.specifier else (context.join path).normalize.text

/-- The requests for the references of a file, in order. -/
def ofSource (source : SourceText) : List ResolveRequest :=
  let context := (source.path.parent?).getD ⟨""⟩
  (FileReferences.ofText source.text).references.map fun reference =>
    { source := source.path, context, reference
      specifier := askedSpecifier context reference }

/-- The edge to the target of a request. -/
def edgeTo (request : ResolveRequest) (target : Path) : Dependency where
  specifier := request.reference.specifier
  target := target
  span := request.reference.span
  kind := request.reference.kind

end ResolveRequest

/-- Whether the engine tracks a target.  Other targets are passed over. -/
def isTracked (target : Path) : Bool :=
  match target.extension? with
  | some extension => extension == "ts" || extension == "tsx"
  | none => false

namespace Surroundings

/-- Resolves requests in order, up to the first that fails. -/
def resolveAll (env : Surroundings) :
    List ResolveRequest → List Access × Except EngineError (List (ResolveRequest × Path))
  | [] => ([], .ok [])
  | request :: requests =>
    let access := Access.resolve request.context request.specifier
    match env.resolve request.context request.specifier with
    | .error cause =>
      ([access], .error (.unresolved request.reference.specifier request.source cause))
    | .ok target =>
      let (accesses, resolved) := env.resolveAll requests
      (access :: accesses, resolved.map ((request, target.normalize) :: ·))

/-- Reads files in order, up to the first that fails. -/
def readAll (env : Surroundings) :
    List Path → List Access × Except EngineError (List SourceText)
  | [] => ([], .ok [])
  | path :: paths =>
    match env.disk.read path with
    | .error cause => ([.read path], .error (.unreadable path cause))
    | .ok text =>
      let (accesses, sources) := env.readAll paths
      (.read path :: accesses, sources.map (⟨path, text⟩ :: ·))

end Surroundings

namespace Workspace

/-- A workspace without files. -/
def empty : Workspace := ⟨.empty, .empty, []⟩

/-- Notes when a declaration file was changed, as far as the file tree tells. -/
def recordTime (w : Workspace) (disk : Disk) (path : Path) : Workspace :=
  if path.isDeclaration then
    match disk.modified? path with
    | some time =>
      { w with declarationTimes := Path.alter path (fun _ => time) w.declarationTimes }
    | none => w
  else w

/-- Takes in a new file. -/
def insertNew (w : Workspace) (disk : Disk) (source : SourceText) : Workspace :=
  let files := w.files.insertNew source.path source.text
  { w with files }.recordTime disk source.path

/-- The edges of a file, given the targets of the requests of a level. -/
def edgesOf (path : Path) (resolved : List (ResolveRequest × Path)) : List Dependency :=
  (resolved.filter fun entry => entry.1.source == path && isTracked entry.2).map fun entry =>
    entry.1.edgeTo entry.2

/-- Puts the edges of the files of a level into the graph. -/
def connect (w : Workspace) (level : List SourceText) (resolved : List (ResolveRequest × Path)) :
    Workspace :=
  let connectOne (graph : DependencyGraph) (source : SourceText) :=
    graph.setEdges source.path (edgesOf source.path resolved)
  { w with graph := level.foldl connectOne w.graph }

/-- The targets of a level that have to be read, in ascending order. -/
def wanted (w : Workspace) (resolved : List (ResolveRequest × Path)) : List Path :=
  Path.setOf ((resolved.map Prod.snd).filter fun target =>
    isTracked target && !w.files.contains target)

/-- Takes out a file, with its edges and those to it. -/
def remove (w : Workspace) (path : Path) : Workspace where
  files := w.files.remove path
  graph := w.graph.removeFile path
  declarationTimes := Path.removeFrom path w.declarationTimes

/-- Takes out the files that were taken in. -/
def rollBack (w : Workspace) (inserted : List Path) : Workspace := inserted.foldl remove w

/-! ## Loading -/

/-- How far a load has come. -/
structure Loading where
  workspace : Workspace
  /-- The files that were taken in, in order. -/
  inserted : List Path
  /-- What was asked, in order. -/
  accesses : List Access
  /-- What the load failed with. -/
  failure : Option EngineError

namespace Loading

/-- The load after it has asked something. -/
def log (l : Loading) (accesses : List Access) : Loading :=
  { l with accesses := l.accesses ++ accesses }

/-- The load after it has taken in files. -/
def insertAll (l : Loading) (disk : Disk) (sources : List SourceText) : Loading :=
  { l with
    workspace := sources.foldl (fun w source => w.insertNew disk source) l.workspace
    inserted := l.inserted ++ sources.map SourceText.path }

end Loading

/-- Loads what the files of a level refer to, level by level.  Every level but the first is of files
that were not tracked before, so that there are at most `fuel` of them. -/
def loadLevels (env : Surroundings) : Nat → List SourceText → Loading → Loading
  | _, [], l => l
  | 0, source :: _, l => { l with failure := some (.unreadable source.path .nameTooLong) }
  | fuel + 1, level, l =>
    let (accesses, resolved) := env.resolveAll (level.flatMap ResolveRequest.ofSource)
    let l := l.log accesses
    match resolved with
    | .error e => { l with failure := some e }
    | .ok resolved =>
      let wanted := l.workspace.wanted resolved
      let l := { l with workspace := l.workspace.connect level resolved }
      let (accesses, sources) := env.readAll wanted
      let l := l.log accesses
      match sources with
      | .error e => { l with failure := some e }
      | .ok sources => loadLevels env fuel sources (l.insertAll env.disk sources)

/-- Loads what a file refers to, into a workspace where `inserted` has just been taken in. -/
def load (env : Surroundings) (w : Workspace) (inserted : List Path) (source : SourceText) :
    Loading :=
  loadLevels env (env.disk.spellingBound + 2) [source] ⟨w, inserted, [], none⟩

/-- **Tracks a file and everything it refers to.**  A file that is tracked already is not looked at
again.  If the load fails nothing is taken in. -/
def ensure (w : Workspace) (env : Surroundings) (path : Path) (text : String) :
    Outcome Workspace Unit :=
  let path := path.normalize
  if w.files.contains path then .pure w ()
  else
    let source : SourceText := ⟨path, text⟩
    let l := load env (w.insertNew env.disk source) [path] source
    match l.failure with
    | none => ⟨l.workspace, l.accesses, .ok ()⟩
    | some e => ⟨l.workspace.rollBack l.inserted, l.accesses, .error e⟩

/-- **Gives a file the references of another text,** and tracks what it refers to now.  What it does
not refer to any more stays tracked.  If the load fails the file keeps the references it had. -/
def refresh (w : Workspace) (env : Surroundings) (path : Path) (text : String) :
    Outcome Workspace Unit :=
  let path := path.normalize
  let previous := w.graph.dependencies path
  let l := load env w [] ⟨path, text⟩
  match l.failure with
  | none => ⟨l.workspace, l.accesses, .ok ()⟩
  | some e =>
    let w := l.workspace.rollBack l.inserted
    ⟨{ w with graph := w.graph.setEdges path previous }, l.accesses, .error e⟩

end Workspace

end TypeScriptEngine
