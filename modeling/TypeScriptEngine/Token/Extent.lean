import TypeScriptEngine.Text.Letter

/-!
# How far a literal reaches

For each form of literal and comment that has an end of its own: how many characters of the text
after its opening belong to it.  Only lengths are computed here; the scanner takes that many
characters, so that no form of literal can lose a part of the text.
-/

namespace TypeScriptEngine.Extent

/-- The extent of a form that may lack its end. -/
structure Bounded where
  /-- The number of characters that belong to it. -/
  length : Nat
  /-- Whether the end was found. -/
  closed : Bool
deriving DecidableEq, Repr

/-- The same ending, further away. -/
def Bounded.after (b : Bounded) (n : Nat) : Bounded := { b with length := n + b.length }

/-- A block comment after its opening: up to and including the first star with a slash. -/
def blockComment : List Char → Bounded
  | [] => ⟨0, false⟩
  | '*' :: '/' :: _ => ⟨2, true⟩
  | _ :: rest => (blockComment rest).after 1

/-- A string literal after its opening quote: up to and including the closing quote.  A line feed
ends it unclosed, unless a backslash stands before it. -/
def string (quote : Char) : List Char → Bounded
  | [] => ⟨0, false⟩
  | '\\' :: '\r' :: '\n' :: rest => (string quote rest).after 3
  | '\\' :: _ :: rest => (string quote rest).after 2
  | c :: rest =>
    if c == quote then ⟨1, true⟩
    else if c == '\n' then ⟨0, false⟩
    else (string quote rest).after 1

/-- How a piece of a template ends. -/
inductive TemplateEnd where
  /-- At the closing backtick. -/
  | closed
  /-- At the opening of a substitution. -/
  | substitution
  /-- At the end of the text. -/
  | unterminated
deriving DecidableEq, Repr

/-- A piece of a template after its opening backtick, or after the brace that closes a
substitution. -/
def template : List Char → Nat × TemplateEnd
  | [] => (0, .unterminated)
  | '$' :: '{' :: _ => (2, .substitution)
  | '\\' :: _ :: rest => let (n, e) := template rest; (n + 2, e)
  | c :: rest =>
    if c == '\x60' then (1, .closed)
    else let (n, e) := template rest; (n + 1, e)

/-- The body of a regular expression after its opening slash: up to and including the closing
slash, which does not count inside a character class. -/
def regexBody (inClass : Bool) : List Char → Bounded
  | [] => ⟨0, false⟩
  | '\n' :: _ => ⟨0, false⟩
  | ['\\'] => ⟨1, false⟩
  | '\\' :: '\n' :: _ => ⟨1, false⟩
  | '\\' :: _ :: rest => (regexBody inClass rest).after 2
  | '[' :: rest => (regexBody true rest).after 1
  | ']' :: rest => (regexBody false rest).after 1
  | '/' :: rest => if inClass then (regexBody inClass rest).after 1 else ⟨1, true⟩
  | _ :: rest => (regexBody inClass rest).after 1

/-- A regular expression after its opening slash, flags included. -/
def regex (cs : List Char) : Bounded :=
  let body := regexBody false cs
  if body.closed then
    ⟨body.length + ((cs.drop body.length).takeWhile Text.isNamePart).length, true⟩
  else body

/-- The leading characters with a property. -/
def run (p : Char → Bool) (cs : List Char) : Nat := (cs.takeWhile p).length

/-- Digits of a decimal number, and their separator. -/
def isDigitPart (c : Char) : Bool := c.isDigit || c == '_'

/-- What may follow the radix of a number. -/
def isRadixPart (c : Char) : Bool := c.isAlphanum || c == '_'

/-- The letters that name a radix after a leading zero. -/
def isRadixMark (c : Char) : Bool :=
  c == 'x' || c == 'X' || c == 'o' || c == 'O' || c == 'b' || c == 'B'

/-- The suffix of a big integer. -/
def bigSuffix : List Char → Nat
  | 'n' :: _ => 1
  | _ => 0

/-- The exponent of a number. -/
def exponent : List Char → Nat
  | c :: rest =>
    if c == 'e' || c == 'E' then
      let sign := match rest with
        | '+' :: _ => 1
        | '-' :: _ => 1
        | _ => 0
      1 + sign + run isDigitPart (rest.drop sign)
    else 0
  | [] => 0

/-- The fraction of a number. -/
def fraction : List Char → Nat
  | '.' :: rest => 1 + run isDigitPart rest
  | _ => 0

/-- A number without radix: digits, fraction, exponent, suffix. -/
def decimal (cs : List Char) : Nat :=
  let whole := run isDigitPart cs
  let cs := cs.drop whole
  let part := fraction cs
  let cs := cs.drop part
  let power := exponent cs
  whole + part + power + bigSuffix (cs.drop power)

/-- A number from its first character on. -/
def number : List Char → Nat
  | '0' :: c :: rest =>
    if isRadixMark c then 2 + run isRadixPart rest else decimal ('0' :: c :: rest)
  | cs => decimal cs

end TypeScriptEngine.Extent
