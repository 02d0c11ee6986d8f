import TypeScriptEngine.Disk.Basic
import TypeScriptEngine.Glob.Pattern
import TypeScriptEngine.Json.Relaxed
import TypeScriptEngine.Options.Record

/-!
# Configuration files

A `ConfigRecord` is what one configuration file says.  Where it names another file that it builds
on, the records are laid over each other: what the file says itself comes first.
-/

namespace TypeScriptEngine

/-- What is wrong with the content of a configuration file. -/
inductive ConfigFault where
  /-- The text is not the JSON of a record. -/
  | notRecord
  | unknownOption (cause : UnknownOptionValue)
deriving DecidableEq, Repr

/-- The wording of a fault. -/
def ConfigFault.message : ConfigFault → String
  | notRecord => "not a configuration in JSON"
  | unknownOption cause => cause.message

/-- Why a project cannot be configured. -/
inductive ConfigError where
  | unreadable (path : Path) (cause : DiskError)
  | malformed (path : Path) (fault : ConfigFault)
  /-- The file that a configuration in a directory builds on cannot be found. -/
  | baseNotFound (name : String) (directory : Path)
  /-- A configuration builds on itself. -/
  | baseCycle (path : Path)
  | referenceNotFound (path : Path)
  | badPattern (pattern : String) (cause : GlobError)
deriving Repr

namespace ConfigError

/-- The wording of the error. -/
def message : ConfigError → String
  | unreadable path cause => "failed to read " ++ path.text ++ ": " ++ cause.message
  | malformed path fault => "failed to parse " ++ path.text ++ ": " ++ fault.message
  | baseNotFound name directory =>
    "failed to resolve extends '" ++ name ++ "' from " ++ directory.text
  | baseCycle path => "cycle detected while resolving extends: " ++ path.text
  | referenceNotFound path => "referenced project " ++ path.text ++ " does not exist"
  | badPattern pattern cause => "invalid glob pattern '" ++ pattern ++ "': " ++ cause.message

/-- The file or directory that the error is about. -/
def path? : ConfigError → Option Path
  | unreadable path _ | malformed path _ | baseCycle path | referenceNotFound path => some path
  | baseNotFound _ directory => some directory
  | badPattern _ _ => none

end ConfigError

/-- What a configuration file says. -/
structure ConfigRecord where
  /-- The configuration that it builds on. -/
  base : Option String
  options : OptionsPatch
  files : Option (List String)
  included : Option (List String)
  excluded : Option (List String)
  /-- The paths of the projects that it refers to. -/
  references : Option (List String)
deriving DecidableEq, Repr

namespace ConfigRecord

open Json (optional defaulted required)

/-- The keys of a configuration, in order. -/
def keys : List String :=
  ["extends", "compilerOptions", "files", "include", "exclude", "references"]

/-- The path of a reference. -/
def referenceOf? (json : Json) : Option String := do
  required (← json.fields? .relaxed ["path"]) "path" Json.asString?

/-- The record of a JSON value. -/
def ofJson? (json : Json) : Option ConfigRecord := do
  let fields ← json.fields? .relaxed keys
  let base ← optional fields "extends" Json.asString?
  let options ← defaulted fields "compilerOptions" {} (OptionsPatch.ofJson? .relaxed)
  let files ← optional fields "files" (Json.listOf Json.asString?)
  let included ← optional fields "include" (Json.listOf Json.asString?)
  let excluded ← optional fields "exclude" (Json.listOf Json.asString?)
  let references ← optional fields "references" (Json.listOf referenceOf?)
  return { base, options, files, included, excluded, references }

/-- The record of a text. -/
def ofText? (text : String) : Option ConfigRecord := (Json.parseRelaxed? text).bind ofJson?

/-- The record with a relative output directory taken from the directory of its file. -/
def inDirectory (record : ConfigRecord) (directory : Path) : ConfigRecord :=
  let outDir := record.options.outDir.map fun dir =>
    if (⟨dir⟩ : Path).isAbsolute then dir else (directory.join ⟨dir⟩).normalize.text
  { record with options := { record.options with outDir } }

/-- A record laid over the one that it builds on.  References are not handed on. -/
def laidOver (record base : ConfigRecord) : ConfigRecord where
  base := none
  options := record.options.or base.options
  files := record.files.or base.files
  included := record.included.or base.included
  excluded := record.excluded.or base.excluded
  references := record.references

end ConfigRecord

end TypeScriptEngine
