import TypeScriptEngine.Disk.Basic
import TypeScriptEngine.Json.Basic
import TypeScriptEngine.Json.Reader

/-!
# Package manifests

What the file `package.json` of a package says about its entry points.
-/

/-! ## Failed resolutions -/

namespace TypeScriptEngine

/-- Why a specifier leads to no file. -/
inductive ResolveError where
  /-- There is no such module, seen from a directory. -/
  | notFound (specifier : String) (context : Path)
  | unreadable (path : Path) (cause : DiskError)
  /-- The manifest of a package is not the JSON of one. -/
  | badManifest (path : Path)
deriving Repr

/-- The wording of the error. -/
def ResolveError.message : ResolveError → String
  | notFound specifier context => "Cannot find module '" ++ specifier ++ "' from '" ++
      context.text ++ "'"
  | unreadable path cause => "failed to read " ++ path.text ++ ": " ++ cause.message
  | badManifest path => "failed to parse " ++ path.text ++ ": not a package manifest in JSON"

/-! ## Manifests -/

/-- The entry points of the root of a package. -/
structure RootExport where
  types : Option String
  default : Option String
deriving DecidableEq, Repr

/-- A package manifest. -/
structure Manifest where
  name : String
  version : String
  main : Option String
  types : Option String
  /-- An older name of the field `types`. -/
  typings : Option String
  module : Option String
  exports : Option Json
  /-- The packages that it needs, with their versions. -/
  dependencies : List (String × String)
  devDependencies : List (String × String)
deriving Repr

namespace Json

/-- How deep arrays and objects may lie in each other in a value that is kept. -/
def maxNesting : Nat := 126

mutual

/-- Whether arrays and objects lie in each other no deeper than some number of levels. -/
def nestsWithin (levels : Nat) : Json → Bool
  | array items => 0 < levels && nestAllWithin (levels - 1) items
  | object fields => 0 < levels && nestFieldsWithin (levels - 1) fields
  | _ => true

/-- Whether this is so for several values. -/
def nestAllWithin (levels : Nat) : List Json → Bool
  | [] => true
  | item :: items => nestsWithin levels item && nestAllWithin levels items

/-- Whether this is so for the values of several fields. -/
def nestFieldsWithin (levels : Nat) : List (String × Json) → Bool
  | [] => true
  | (_, value) :: fields => nestsWithin levels value && nestFieldsWithin levels fields

end

/-- Any value that can be kept. -/
def readable? (value : Json) : Option Json :=
  if value.nestsWithin maxNesting && value.isReadable then some value else none

/-- An object whose values are strings.  Of a key that is there more than once the last value
counts. -/
def stringMap? : Json → Option (List (String × String))
  | object fields => fields.foldlM (fun map (key, value) => do
      let text ← value.asString?
      return (map.filter fun entry => entry.1 != key) ++ [(key, text)]) []
  | _ => none

end Json

namespace Manifest

open Json (optional defaulted)

/-- The keys of a manifest, in order. -/
def keys : List String :=
  ["name", "version", "main", "types", "typings", "module", "exports", "dependencies",
    "devDependencies"]

/-- The manifest of a JSON value. -/
def ofJson? (json : Json) : Option Manifest := do
  let fields ← json.fields? .strict keys
  let name ← defaulted fields "name" "" Json.asString?
  let version ← defaulted fields "version" "" Json.asString?
  let main ← optional fields "main" Json.asString?
  let types ← optional fields "types" Json.asString?
  let typings ← optional fields "typings" Json.asString?
  let module ← optional fields "module" Json.asString?
  let exports ← optional fields "exports" Json.readable?
  let dependencies ← defaulted fields "dependencies" [] Json.stringMap?
  let devDependencies ← defaulted fields "devDependencies" [] Json.stringMap?
  return { name, version, main, types, typings, module, exports, dependencies, devDependencies }

/-- Reads a manifest. -/
def read (disk : Disk) (path : Path) : Except ResolveError Manifest :=
  match disk.read path with
  | .error cause => .error (.unreadable path cause)
  | .ok text =>
    match (Json.parse? text).bind ofJson? with
    | none => .error (.badManifest path)
    | some manifest => .ok manifest

/-- The declaration file of the package. -/
def typesEntry (manifest : Manifest) : Option String := manifest.types.or manifest.typings

/-- The entry points that an export names: a file, or conditions with files. -/
def rootExportOf? : Json → Option RootExport
  | .string target => some ⟨none, some target⟩
  | .object fields =>
    let target? (key : String) := ((Json.object fields).get? key).bind Json.asString?
    some ⟨target? "types", (target? "default").or ((target? "import").or (target? "require"))⟩
  | _ => none

/-- The entry points of the root: the export of the path `.`, or the only export. -/
def rootExport? (manifest : Manifest) : Option RootExport :=
  manifest.exports.bind fun exports => rootExportOf? ((exports.get? ".").getD exports)

/-- The entry points, in the order in which they are tried. -/
def entries (manifest : Manifest) : List String :=
  let root := manifest.rootExport?
  [manifest.typesEntry, root.bind RootExport.types, root.bind RootExport.default,
    manifest.main].filterMap id

end Manifest

end TypeScriptEngine
