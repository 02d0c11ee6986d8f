import TypeScriptEngine.Json.Basic
import TypeScriptEngine.Json.Printer
import TypeScriptEngine.Json.Reader
import TypeScriptEngine.Text.Blank
import TypeScriptEngine.Text.Split

/-!
# Source maps

A source map, of version 3 of the format, says where in the sources the parts of an emitted file
come from.  The emitter keeps every line where it was, so its maps lead from each line to the line
of the same number.
-/

/-! ## Variable-length quantities

The numbers in the mappings of a source map.  A number becomes a word whose lowest bit is its sign,
and the word is written in digits of five bits, the lowest first; a sixth bit says that another
digit follows.  Words have 64 bits: a number whose magnitude does not fit into 62 of them has none
that could be written.
-/

namespace TypeScriptEngine.Vlq

/-- The digits of base 64. -/
def alphabet : List Char :=
  "ABCDEFGHIJKLMNOPQRSTUVWXYZabcdefghijklmnopqrstuvwxyz0123456789+/".toList

/-- The character of a digit. -/
def digitChar (n : Nat) : Char := alphabet.getD n 'A'

/-- A number with its sign in the lowest bit. -/
def wordOf (value : Int64) : Int64 :=
  if value < 0 then ((-value) <<< 1) ||| 1 else value <<< 1

/-- The digits of a word, each with the bit that says whether another one follows. -/
def digits (word : Nat) : List Nat :=
  if word < 32 then [word] else (32 + word % 32) :: digits (word / 32)

/-- The text of a number.  A word that came out negative has no last digit, and so no text. -/
def encode? (value : Int64) : Option (List Char) :=
  let word := wordOf value
  if word < 0 then none else some ((digits word.toNatClampNeg).map digitChar)

end TypeScriptEngine.Vlq

/-! ## Maps -/

namespace TypeScriptEngine

/-- A source map. -/
structure SourceMap where
  version : Nat
  /-- The emitted file. -/
  file : Option String
  sourceRoot : Option String
  sources : List String
  /-- The texts of the sources, as far as they are known. -/
  sourcesContent : Option (List (Option String))
  names : List String
  /-- The segments, line by line. -/
  mappings : String
deriving DecidableEq, Repr

namespace SourceMap

/-- The segment of the first line, or of any other one: it starts at column zero of the emitted line
and leads to column zero of the source line behind the last one mapped. -/
def lineSegment (isFirst : Bool) : List Char :=
  [0, 0, if isFirst then 0 else 1, 0].flatMap fun (n : Int64) => (Vlq.encode? n).getD []

/-- Mappings from each of some lines to the same line. -/
def lineMappings : Nat → List Char
  | 0 => []
  | n + 1 => lineSegment true ++ (List.replicate n (';' :: lineSegment false)).flatten

/-- A map from each of some lines to the same line of a single source. -/
def linePreserving (file source : String) (lines : Nat) : SourceMap where
  version := 3
  file := some file
  sourceRoot := none
  sources := [source]
  sourcesContent := none
  names := []
  mappings := String.ofList (lineMappings lines)

/-- The map with a single source, whose text it holds. -/
def withSource (map : SourceMap) (source content : String) : SourceMap :=
  { map with sources := [source], sourcesContent := some [some content], sourceRoot := none }

/-! ## The JSON form -/

/-- An optional field, left out if there is no value. -/
def optionalField {α : Type} (key : String) (write : α → Json) (value : Option α) :
    List (String × Json) :=
  (value.map fun value => (key, write value)).toList

/-- Texts as an array. -/
def stringArray (texts : List String) : Json := .array (texts.map .string)

/-- The JSON form of a map. -/
def toJson (map : SourceMap) : Json :=
  .object (
    [("version", .integer map.version)] ++
    optionalField "file" .string map.file ++
    optionalField "sourceRoot" .string map.sourceRoot ++
    [("sources", stringArray map.sources)] ++
    optionalField "sourcesContent"
      (fun texts => .array (texts.map fun text => (text.map .string).getD .null))
      map.sourcesContent ++
    [("names", stringArray map.names), ("mappings", .string map.mappings)])

/-- The text of a map. -/
def print (map : SourceMap) : String := map.toJson.compact

/-- The keys of a map, in order. -/
def keys : List String :=
  ["version", "file", "sourceRoot", "sources", "sourcesContent", "names", "mappings"]

/-- The map of a JSON value. -/
def ofJson? (json : Json) : Option SourceMap := do
  let fields ← json.fields? .strict keys
  let version ← Json.required fields "version" Json.asNat32?
  let file ← Json.optional fields "file" Json.asString?
  let sourceRoot ← Json.optional fields "sourceRoot" Json.asString?
  let sources ← Json.required fields "sources" (Json.listOf Json.asString?)
  let sourcesContent ← Json.optional fields "sourcesContent"
    (Json.listOf (Json.nullable Json.asString?))
  let names ← Json.defaulted fields "names" [] (Json.listOf Json.asString?)
  let mappings ← Json.required fields "mappings" Json.asString?
  return { version, file, sourceRoot, sources, sourcesContent, names, mappings }

/-- The map of a text. -/
def parse? (text : String) : Option SourceMap := (Json.parse? text).bind ofJson?

/-! ## The comment that names a map -/

/-- How a line begins that names the map of a file. -/
def urlComment : List Char := "//# sourceMappingURL=".toList

/-- Whether a line names a map. -/
def isUrlLine (line : List Char) : Bool := urlComment.isPrefixOf (Text.trimStart line)

/-- A text without the lines that name a map. -/
def stripUrl (text : List Char) : List Char :=
  ((Text.fullLines text).filter fun line => !isUrlLine line).flatten

end SourceMap

end TypeScriptEngine
