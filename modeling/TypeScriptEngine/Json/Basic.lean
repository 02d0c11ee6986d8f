/-!
# JSON values

Objects keep their fields in the order in which they are written, and may hold a key more than
once; readers that mind say so.
-/

namespace TypeScriptEngine

/-- A JSON value. -/
inductive Json where
  | null
  | bool (value : Bool)
  /-- A number written without fraction and exponent. -/
  | integer (value : Int)
  /-- Any other number, as it is written. -/
  | fraction (text : String)
  | string (text : String)
  /-- A string whose escapes name no characters, an object with such a key, or a number that no
  reader could hold.  It may stand where nobody reads it. -/
  | unreadable
  | array (items : List Json)
  | object (fields : List (String × Json))
deriving Repr, Inhabited

namespace Json

/-- The two dialects: the strict one, and the relaxed one of configuration files. -/
inductive Dialect where
  | strict | relaxed
deriving DecidableEq, Repr

mutual

/-- Whether a value can be read with all its parts. -/
def isReadable : Json → Bool
  | unreadable => false
  | array items => areReadable items
  | object fields => areFieldsReadable fields
  | _ => true

/-- Whether several values can be read. -/
def areReadable : List Json → Bool
  | [] => true
  | item :: items => isReadable item && areReadable items

/-- Whether the values of several fields can be read. -/
def areFieldsReadable : List (String × Json) → Bool
  | [] => true
  | (_, value) :: fields => isReadable value && areFieldsReadable fields

end

/-- The value of a key of an object.  Of a key that is there more than once, the last value. -/
def get? (key : String) : Json → Option Json
  | object fields => (fields.reverse.find? fun field => field.1 == key).map Prod.snd
  | _ => none

/-- The text of a string. -/
def asString? : Json → Option String
  | string text => some text
  | _ => none

/-- The value of a Boolean. -/
def asBool? : Json → Option Bool
  | bool value => some value
  | _ => none

/-- The items of an array. -/
def asArray? : Json → Option (List Json)
  | array items => some items
  | _ => none

/-- A number without sign that fits into 32 bits. -/
def asNat32? : Json → Option Nat
  | integer (.ofNat n) => if n < Nat.pow 2 32 then some n else none
  | _ => none

end Json

end TypeScriptEngine

/-! ## Records

Fixed sets of fields are written as objects, or as arrays with the fields in order.  A known key of
an object must not be there twice; unknown keys are passed over.  A field may be left out if it has
a default; `null` is a value like any other, which only optional fields take.

The dialects differ in what they pass over.  The strict one looks at no value of an unknown key, and
has no place for items beyond the last field.  The relaxed one needs values that can be read at all
keys, and looks at no item beyond the last field.
-/

namespace TypeScriptEngine.Json

/-- The fields of a record, by key. -/
abbrev Fields := String → Option Json

/-- Whether the fields of an object with other keys than the given ones may be passed over. -/
def mayPassOver (dialect : Dialect) (keys : List String) (fields : List (String × Json)) : Bool :=
  dialect = .strict || areFieldsReadable (fields.filter fun field => !keys.contains field.1)

/-- The fields of a record with the given keys. -/
def fields? (dialect : Dialect) (keys : List String) : Json → Option Fields
  | object fields =>
    if keys.any fun key => 1 < (fields.filter fun field => field.1 == key).length then none
    else if mayPassOver dialect keys fields then
      some fun key => (fields.find? fun field => field.1 == key).map Prod.snd
    else none
  | array items =>
    if dialect = .strict ∧ keys.length < items.length then none
    else some fun key => ((keys.zip items).find? fun field => field.1 == key).map Prod.snd
  | _ => none

variable {α : Type}

/-- A field that must be there. -/
def required (fields : Fields) (key : String) (read? : Json → Option α) : Option α :=
  (fields key).bind read?

/-- A field with a default for when it is left out. -/
def defaulted (fields : Fields) (key : String) (default : α) (read? : Json → Option α) :
    Option α :=
  match fields key with
  | none => some default
  | some value => read? value

/-- A value or `null`. -/
def nullable (read? : Json → Option α) : Json → Option (Option α)
  | null => some none
  | value => (read? value).map some

/-- A field that may be left out or `null`. -/
def optional (fields : Fields) (key : String) (read? : Json → Option α) : Option (Option α) :=
  defaulted fields key none (nullable read?)

/-- An array of values of one kind. -/
def listOf (read? : Json → Option α) (value : Json) : Option (List α) :=
  value.asArray?.bind fun items => items.mapM read?

end TypeScriptEngine.Json
