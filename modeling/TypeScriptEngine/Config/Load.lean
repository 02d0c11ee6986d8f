import TypeScriptEngine.Config.Basic
import TypeScriptEngine.Disk.Basic

/-!
# Loading configurations

A `ProjectConfig` is a configuration file with all that it builds on.  Of the files of the chain the
first one that says something wins; the projects that it refers to are those of the file itself.
-/

/-! ## Finding configuration files

By a bare name a configuration is looked for upwards from a file; a path is taken from the context.
A configuration that another one builds on is found beside it, or in `node_modules`.
-/

namespace TypeScriptEngine.Config

/-- The file name of a configuration. -/
def standardName : String := "tsconfig.json"

/-- The first file of a name in a directory or above it. -/
def find? (disk : Disk) (directory : Path) (name : String) : Option Path :=
  (directory.ancestors.map fun dir => dir.join ⟨name⟩).find? disk.isFile

/-- The configuration for a file. -/
def locate? (disk : Disk) (file context : Path) (name : String) : Option Path :=
  let path : Path := ⟨name⟩
  if path.isAbsolute ∨ 1 < path.segments.length then
    let path := (context.join path).normalize
    if disk.isFile path then some path else none
  else file.parent?.bind fun directory => find? disk directory name

/-- The directory of a file. -/
def directoryOf (path : Path) : Path := (path.parent?).getD ⟨""⟩

/-- The files that a path to a base may mean: itself, with the extension of JSON, or the
configuration in it. -/
def baseCandidates (path : Path) : List Path :=
  let path := path.normalize
  [path] ++ (if path.extension? = some "json" then [] else [⟨path.text ++ ".json"⟩]) ++
    [path.join ⟨standardName⟩]

/-- The places where the base of a configuration in a directory may be. -/
def basePaths (directory : Path) (name : String) : List Path :=
  if name.startsWith "." || (⟨name⟩ : Path).isAbsolute then [directory.join ⟨name⟩]
  else directory.ancestors.map fun dir => (dir.join ⟨"node_modules"⟩).join ⟨name⟩

/-- The file that a configuration in a directory builds on. -/
def findBase? (disk : Disk) (directory : Path) (name : String) : Option Path :=
  ((basePaths directory name).flatMap baseCandidates).find? disk.isFile

end TypeScriptEngine.Config

/-! ## Loading -/

namespace TypeScriptEngine

/-- A configuration that is loaded. -/
structure ProjectConfig where
  path : Path
  /-- The directory of the file. -/
  directory : Path
  options : OptionsPatch
  files : Option (List String)
  included : Option (List String)
  excluded : Option (List String)
  /-- The configuration files of the projects that it refers to. -/
  references : List Path
deriving Repr

namespace Config

/-- What a configuration file says itself. -/
def readRecord (disk : Disk) (path : Path) : Except ConfigError ConfigRecord :=
  match disk.read path with
  | .error cause => .error (.unreadable path cause)
  | .ok text =>
    match ConfigRecord.ofText? text with
    | none => .error (.malformed path .notRecord)
    | some record => .ok (record.inDirectory (directoryOf path))

/-- What a configuration file says together with those that it builds on.  `visited` are the files
that led to it; a chain of more than `fuel` files has to come back to one of them. -/
def loadChain (disk : Disk) : Nat → List Path → Path → Except ConfigError ConfigRecord
  | 0, _, path => .error (.baseCycle path)
  | fuel + 1, visited, path =>
    if visited.any (· == path) then .error (.baseCycle path)
    else
      match readRecord disk path with
      | .error e => .error e
      | .ok record =>
        match record.base with
        | none => .ok record
        | some name =>
          match findBase? disk (directoryOf path) name with
          | none => .error (.baseNotFound name (directoryOf path))
          | some base => (loadChain disk fuel (path :: visited) base).map record.laidOver

/-- The configuration file of a project that is referred to from a directory. -/
def referencedConfig (disk : Disk) (directory : Path) (reference : String) :
    Except ConfigError Path :=
  let target := (directory.join ⟨reference⟩).normalize
  let config := if disk.isDirectory target then target.join ⟨standardName⟩ else target
  if disk.isFile config then .ok config else .error (.referenceNotFound config)

/-- Loads a configuration. -/
def load (disk : Disk) (path : Path) : Except ConfigError ProjectConfig := do
  let path := path.normalize
  let directory := directoryOf path
  let record ← loadChain disk (disk.spellingBound + 1) [] path
  let references ← (record.references.getD []).mapM (referencedConfig disk directory)
  return {
    path, directory, references
    options := record.options
    files := record.files
    included := record.included
    excluded := record.excluded }

end Config

end TypeScriptEngine
