import TypeScriptEngine.Json.Number
import TypeScriptEngine.Token.Escape

/-!
# JSON tokens

Reading JSON goes in two steps.  Here a text is cut into tokens, strings and numbers among them; a
value is put together from the tokens in a second step.
-/

namespace TypeScriptEngine

/-- A token of a JSON text. -/
inductive JsonToken where
  | openBracket | closeBracket | openBrace | closeBrace | colon | comma
  /-- A number or a constant. -/
  | scalar (value : Json)
  /-- A string; it has no content if its escapes name no characters. -/
  | text (content : Option String)
  /-- A name without quotes.  It may be a key, and a constant if no part of it is escaped. -/
  | word (name : Option String) (escaped : Bool)
deriving Repr

namespace JsonToken

/-- The tokens of one character. -/
def ofPunctuation? : Char → Option JsonToken
  | '[' => some openBracket
  | ']' => some closeBracket
  | '{' => some openBrace
  | '}' => some closeBrace
  | ':' => some colon
  | ',' => some comma
  | _ => none

/-- How many characters precede the quote that closes a string. -/
def quotedLength? (quote : Char) : List Char → Option Nat
  | [] => none
  | '\\' :: _ :: rest => (quotedLength? quote rest).map (· + 2)
  | c :: rest => if c = quote then some 0 else (quotedLength? quote rest).map (· + 1)

/-- The number that hexadecimal digits name. -/
def hexValue? (digits : List Char) : Option Nat :=
  digits.foldlM (fun n c => (Escape.hexDigit? c).map (16 * n + ·)) 0

/-- The number of the four hexadecimal digits at the head of a text. -/
def fourHex? (cs : List Char) : Option Nat :=
  if 4 ≤ cs.length then hexValue? (cs.take 4) else none

/-- The twenty bits that two surrogates hold together. -/
def surrogateBits (high low : Nat) : Nat := (high - 0xD800) * 0x400 + (low - 0xDC00)

/-- The character that two surrogates name together. -/
def ofSurrogates (high low : Nat) : Char := Char.ofNat (0x10000 + surrogateBits high low)

/-- Whether a number is one of the first halves of a pair of surrogates. -/
def isHighSurrogate (n : Nat) : Bool := 0xD800 ≤ n && n < 0xDC00

/-- Whether a number is one of the second halves of a pair of surrogates. -/
def isLowSurrogate (n : Nat) : Bool := 0xDC00 ≤ n && n < 0xE000

/-- The content of a string, or the news that it has none because a surrogate stands alone. -/
abbrev Content := Option (List Char)

/-- Content with a character before it. -/
def Content.cons (c : Char) (content : Content) : Content := content.map (c :: ·)

/-- The escapes of a single letter. -/
def simpleEscape? : Char → Option Char
  | '"' => some '"'
  | '\\' => some '\\'
  | '/' => some '/'
  | 'b' => some '\x08'
  | 'f' => some '\x0c'
  | 'n' => some '\n'
  | 'r' => some '\r'
  | 't' => some '\t'
  | _ => none

/-- The second half of a pair of surrogates, at the head of a text. -/
def lowSurrogate? : List Char → Option Nat
  | '\\' :: 'u' :: rest => (fourHex? rest).bind fun n => if isLowSurrogate n then some n else none
  | _ => none

/-- The content of a string, given the text between its quotes.  There is none if the text holds an
escape or a character that does not belong into a string. -/
def content? (cs : List Char) : Option Content :=
  match cs with
  | [] => some (some [])
  | '\\' :: 'u' :: rest =>
    match fourHex? rest with
    | none => none
    | some n =>
      let rest := rest.drop 4
      if isHighSurrogate n then
        match lowSurrogate? rest with
        | some m => (content? (rest.drop 6)).map (Content.cons (ofSurrogates n m))
        | none => (content? rest).map fun _ => none
      else if isLowSurrogate n then (content? rest).map fun _ => none
      else (content? rest).map (Content.cons (Char.ofNat n))
  | '\\' :: c :: rest =>
    (simpleEscape? c).bind fun c => (content? rest).map (Content.cons c)
  | ['\\'] => none
  | c :: rest => if c.toNat < 0x20 then none else (content? rest).map (Content.cons c)
termination_by cs.length
decreasing_by all_goals grind

/-- The text of some content. -/
def Content.text (content : Content) : Option String := content.map String.ofList

/-- The constant of a name. -/
def constant? : String → Option Json
  | "null" => some .null
  | "true" => some (.bool true)
  | "false" => some (.bool false)
  | _ => none

/-- The white space between tokens. -/
def isSpace (c : Char) : Bool := c == ' ' || c == '\t' || c == '\n' || c == '\r'

/-- A token and the number of its characters beyond the first. -/
structure Cut where
  token : JsonToken
  further : Nat
deriving Repr

/-- The token that begins with `c`. -/
def cut? (c : Char) (rest : List Char) : Option Cut :=
  match ofPunctuation? c with
  | some t => some ⟨t, 0⟩
  | none =>
    if c = '"' then do
      let n ← quotedLength? '"' rest
      let content ← content? (rest.take n)
      return ⟨text content.text, n + 1⟩
    else if c.isAlpha then
      let tail := rest.takeWhile Char.isAlpha
      (constant? (String.ofList (c :: tail))).map fun value => ⟨scalar value, tail.length⟩
    else
      (numberParts? (c :: rest)).map fun parts =>
        ⟨scalar (numberOf (c :: rest) parts), parts.length - 1⟩

/-- The tokens of a strict JSON text. -/
def ofText? (cs : List Char) : Option (List JsonToken) :=
  match cs with
  | [] => some []
  | c :: rest =>
    if isSpace c then ofText? rest
    else (cut? c rest).bind fun cut => (ofText? (rest.drop cut.further)).map (cut.token :: ·)
termination_by cs.length
decreasing_by all_goals simp only [List.length_drop, List.length_cons]; omega

end JsonToken

end TypeScriptEngine
