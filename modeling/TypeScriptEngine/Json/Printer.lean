import TypeScriptEngine.Json.Basic

/-!
# Printing JSON

Two forms: the compact one, without any white space, and the indented one, with two spaces for each
level.  Strings escape quotes, backslashes and control characters, and nothing else.
-/

namespace TypeScriptEngine.Json

/-- A hexadecimal digit in lower case. -/
def hexDigit (n : Nat) : Char :=
  if n < 10 then Char.ofNat ('0'.toNat + n) else Char.ofNat ('a'.toNat + (n - 10))

/-- A character as it stands in a string literal. -/
def escapeChar (c : Char) : List Char :=
  if c = '"' then ['\\', '"']
  else if c = '\\' then ['\\', '\\']
  else if c = '\x08' then ['\\', 'b']
  else if c = '\x0c' then ['\\', 'f']
  else if c = '\n' then ['\\', 'n']
  else if c = '\r' then ['\\', 'r']
  else if c = '\t' then ['\\', 't']
  else if c.toNat < 0x20 then
    ['\\', 'u', '0', '0', hexDigit (c.toNat / 16), hexDigit (c.toNat % 16)]
  else [c]

/-- A string literal. -/
def quote (text : String) : List Char := '"' :: text.toList.flatMap escapeChar ++ ['"']

/-- A value without parts. -/
def scalar : Json → List Char
  | null => "null".toList
  | bool true => "true".toList
  | bool false => "false".toList
  | integer n => (toString n).toList
  | fraction text => text.toList
  | string text => quote text
  | _ => []

mutual

/-- The compact form of a value. -/
def compactChars : Json → List Char
  | array [] => ['[', ']']
  | array (item :: items) => '[' :: compactChars item ++ compactItems items
  | object [] => ['{', '}']
  | object ((key, value) :: fields) =>
    '{' :: quote key ++ ':' :: compactChars value ++ compactFields fields
  | value => scalar value

/-- The further items of an array, and its end. -/
def compactItems : List Json → List Char
  | [] => [']']
  | item :: items => ',' :: compactChars item ++ compactItems items

/-- The further fields of an object, and its end. -/
def compactFields : List (String × Json) → List Char
  | [] => ['}']
  | (key, value) :: fields =>
    ',' :: quote key ++ ':' :: compactChars value ++ compactFields fields

end

/-- The compact form of a value. -/
def compact (value : Json) : String := String.ofList (compactChars value)

/-- A new line at a level. -/
def newLine (level : Nat) : List Char := '\n' :: List.replicate (2 * level) ' '

mutual

/-- The indented form of a value at a level. -/
def indentedChars (level : Nat) : Json → List Char
  | array [] => ['[', ']']
  | array (item :: items) =>
    '[' :: newLine (level + 1) ++ indentedChars (level + 1) item ++ indentedItems level items
  | object [] => ['{', '}']
  | object ((key, value) :: fields) =>
    '{' :: newLine (level + 1) ++ quote key ++ ':' :: ' ' ::
      indentedChars (level + 1) value ++ indentedFields level fields
  | value => scalar value

/-- The further items of an array at a level, and its end. -/
def indentedItems (level : Nat) : List Json → List Char
  | [] => newLine level ++ [']']
  | item :: items =>
    ',' :: newLine (level + 1) ++ indentedChars (level + 1) item ++ indentedItems level items

/-- The further fields of an object at a level, and its end. -/
def indentedFields (level : Nat) : List (String × Json) → List Char
  | [] => newLine level ++ ['}']
  | (key, value) :: fields =>
    ',' :: newLine (level + 1) ++ quote key ++ ':' :: ' ' ::
      indentedChars (level + 1) value ++ indentedFields level fields

end

/-- The indented form of a value. -/
def indented (value : Json) : String := String.ofList (indentedChars 0 value)

end TypeScriptEngine.Json
