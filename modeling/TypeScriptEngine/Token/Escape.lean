/-!
# Escapes in string literals

The content that a string literal denotes.  A backslash gives the next character a meaning of its
own: a control character, a code point in hexadecimal digits, or, before a line break, nothing.
-/

namespace TypeScriptEngine.Escape

/-- The value of a hexadecimal digit. -/
def hexDigit? (c : Char) : Option Nat :=
  if '0' ≤ c && c ≤ '9' then some (c.toNat - '0'.toNat)
  else if 'a' ≤ c && c ≤ 'f' then some (c.toNat - 'a'.toNat + 10)
  else if 'A' ≤ c && c ≤ 'F' then some (c.toNat - 'A'.toNat + 10)
  else none

/-- The character of a code point; what is no character becomes the replacement character. -/
def ofCodePoint (n : Nat) : Char :=
  if n.isValidChar then Char.ofNat n else '\uFFFD'

/-- What a backslash makes of the single character after it. -/
def ofLetter : Char → Char
  | 'n' => '\n'
  | 'r' => '\r'
  | 't' => '\t'
  | 'b' => '\x08'
  | 'f' => '\x0c'
  | 'v' => '\x0b'
  | '0' => '\x00'
  | c => c

mutual

/-- The content of a string literal, given the text between its quotes. -/
def decode : List Char → List Char
  | [] => []
  | '\\' :: 'u' :: rest => decodeHex 4 0 rest
  | '\\' :: 'x' :: rest => decodeHex 2 0 rest
  | '\\' :: '\r' :: '\n' :: rest => decode rest
  | '\\' :: '\r' :: rest => decode rest
  | '\\' :: '\n' :: rest => decode rest
  | '\\' :: c :: rest => ofLetter c :: decode rest
  | ['\\'] => []
  | c :: rest => c :: decode rest

/-- A code point of at most `n` further hexadecimal digits, after digits of value `code`. -/
def decodeHex (n code : Nat) : List Char → List Char
  | [] => [ofCodePoint code]
  | c :: rest =>
    match n, hexDigit? c with
    | n + 1, some d => decodeHex n (16 * code + d) rest
    | _, _ => ofCodePoint code :: decode (c :: rest)
end

end TypeScriptEngine.Escape
