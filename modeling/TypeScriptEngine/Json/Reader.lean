import TypeScriptEngine.Json.Token

/-!
# Reading JSON

A value is put together from tokens by a machine with a stack: the arrays and objects that are open,
the innermost first.  Each token is one step; there is a value if the machine is done after the last
one.  The relaxed dialect also takes a comma before a closing bracket, and names as keys.
-/

namespace TypeScriptEngine.Json

/-- An open array or object.  What it holds so far comes in reverse order. -/
inductive Frame where
  | array (items : List Json)
  /-- The value of `key` is still to come.  There are no fields any more once a key cannot be
  read. -/
  | object (fields : Option (List (String × Json))) (key : String)
deriving Repr

/-- What may come next. -/
inductive Awaiting where
  | value
  | itemOrEnd
  | key
  | keyOrEnd
  | colon
  | separator
deriving DecidableEq, Repr

/-- A state of the reader. -/
inductive ReadState where
  | awaiting (what : Awaiting) (stack : List Frame)
  | done (value : Json)
deriving Repr

namespace ReadState

/-- Takes a complete value. -/
def put (value : Json) : List Frame → ReadState
  | [] => .done value
  | .array items :: stack => .awaiting .separator (.array (value :: items) :: stack)
  | .object fields key :: stack =>
    .awaiting .separator (.object (fields.map ((key, value) :: ·)) "" :: stack)

/-- The value of a name without quotes. -/
def wordValue? (name : String) : Option Json :=
  if name = "Infinity" ∨ name = "NaN" then some (.fraction name) else JsonToken.constant? name

/-- Takes the beginning of a value, or a value without parts. -/
def begin? (stack : List Frame) : JsonToken → Option ReadState
  | .scalar value => some (put value stack)
  | .text content => some (put (content.elim .unreadable .string) stack)
  | .word (some name) false => (wordValue? name).map (put · stack)
  | .openBracket => some (.awaiting .itemOrEnd (.array [] :: stack))
  | .openBrace => some (.awaiting .keyOrEnd (.object (some []) "" :: stack))
  | _ => none

/-- Closes the innermost array or object. -/
def close? : List Frame → JsonToken → Option ReadState
  | .array items :: stack, .closeBracket => some (put (.array items.reverse) stack)
  | .object fields _ :: stack, .closeBrace =>
    some (put (fields.elim .unreadable fun fields => .object fields.reverse) stack)
  | _, _ => none

/-- The key that a token is; there is none inside if the key cannot be read. -/
def keyOf? : JsonToken → Option (Option String)
  | .text content => some content
  | .word name _ => some name
  | _ => none

/-- Takes a key. -/
def key? : List Frame → JsonToken → Option ReadState
  | .object fields _ :: stack, token => (keyOf? token).map fun key =>
    .awaiting .colon (.object (key.bind fun _ => fields) (key.getD "") :: stack)
  | _, _ => none

/-- What comes after a comma. -/
def afterComma? (dialect : Dialect) : List Frame → Option ReadState
  | .array items :: stack =>
    some (.awaiting (if dialect = .relaxed then .itemOrEnd else .value) (.array items :: stack))
  | .object fields key :: stack =>
    some (.awaiting (if dialect = .relaxed then .keyOrEnd else .key) (.object fields key :: stack))
  | [] => none

/-- One step of the reader. -/
def step? (dialect : Dialect) (state : ReadState) (token : JsonToken) : Option ReadState :=
  match state with
  | .done _ => none
  | .awaiting .value stack => begin? stack token
  | .awaiting .itemOrEnd stack => (begin? stack token).or (close? stack token)
  | .awaiting .key stack => key? stack token
  | .awaiting .keyOrEnd stack => (key? stack token).or (close? stack token)
  | .awaiting .colon stack =>
    match token with
    | .colon => some (.awaiting .value stack)
    | _ => none
  | .awaiting .separator stack =>
    match token with
    | .comma => afterComma? dialect stack
    | token => close? stack token

/-- The value, if it is complete. -/
def value? : ReadState → Option Json
  | .done value => some value
  | _ => none

end ReadState

/-- The value that tokens spell. -/
def ofTokens? (dialect : Dialect) (tokens : List JsonToken) : Option Json :=
  (tokens.foldlM (ReadState.step? dialect) (.awaiting .value [])).bind ReadState.value?

/-- The value of a strict JSON text. -/
def parse? (text : String) : Option Json :=
  (JsonToken.ofText? text.toList).bind (ofTokens? .strict)

end TypeScriptEngine.Json
