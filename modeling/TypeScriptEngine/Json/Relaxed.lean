import TypeScriptEngine.Json.Reader
import TypeScriptEngine.Text.Blank
import TypeScriptEngine.Text.Mark

/-!
# Relaxed JSON

The dialect of configuration files: comments, strings in single quotes, names without quotes,
hexadecimal numbers, numbers with a sign or with a bare point, and the names of infinity and of what
is no number.  Some numbers can be written but not be read: an integer of more than 64 bits, a
hexadecimal number of more than 32 bits or with a sign, and infinity with a plus.  So can strings
and names that hold one half of a pair of surrogates without the other.
-/

namespace TypeScriptEngine

namespace JsonToken

open Extent (run)

/-- The characters that end a line. -/
def isLineEnd (c : Char) : Bool := c == '\n' || c == '\r' || c == '\u2028' || c == '\u2029'

/-- The white space of the relaxed dialect: that of Unicode but for the next-line control, and the
byte order mark. -/
def isRelaxedSpace (c : Char) : Bool := (Text.isBlank c && c != '\u0085') || c == '\ufeff'

/-- The escapes of a single letter in the relaxed dialect.  A character without an escape of its own
stands for itself, but a digit does not. -/
def relaxedEscape? : Char → Option Char
  | 'b' => some '\x08'
  | 'f' => some '\x0c'
  | 'n' => some '\n'
  | 'r' => some '\r'
  | 't' => some '\t'
  | 'v' => some '\x0b'
  | '0' => some '\x00'
  | c => if c.isDigit then none else some c

/-- The length of the escaped line ends at the head of a text. -/
def continuations : List Char → Nat
  | '\\' :: '\r' :: '\n' :: rest => continuations rest + 3
  | '\\' :: c :: rest => if isLineEnd c then continuations rest + 2 else 0
  | _ => 0

/-- The character that two surrogates name together in the relaxed dialect.  The bit of value 65536
is set in what they hold, and not added to it, so that for a character of an even plane the one at
the same place of the plane below is taken. -/
def ofSurrogatesRelaxed (high low : Nat) : Char :=
  Char.ofNat (0x10000 ||| surrogateBits high low)

/-- What the four hexadecimal digits at the head of a text stand for, and the length of the escape
from there on.  The second half of a pair of surrogates is looked for `gap` characters behind the
first. -/
def relaxedUnicode? (gap : Nat) (cs : List Char) : Option (Option Char × Nat) :=
  (fourHex? cs).map fun n =>
    if isHighSurrogate n then
      match lowSurrogate? (cs.drop (4 + gap)) with
      | some m => (some (ofSurrogatesRelaxed n m), 4 + gap + 6)
      | none => (none, 4)
    else if isLowSurrogate n then (none, 4)
    else (some (Char.ofNat n), 4)

/-- Content with what an escape stands for before it. -/
def Content.consUnicode (c : Option Char) (content : Content) : Content :=
  c.bind fun c => content.cons c

/-- The content of a string of the relaxed dialect, given the text between its quotes.  Escaped line
ends stand for nothing, also between the halves of a pair of surrogates. -/
def relaxedContent? (cs : List Char) : Option Content :=
  match cs with
  | [] => some (some [])
  | '\\' :: '\r' :: '\n' :: rest => relaxedContent? rest
  | '\\' :: 'u' :: rest =>
    (relaxedUnicode? (continuations (rest.drop 4)) rest).bind fun (c, n) =>
      (relaxedContent? (rest.drop n)).map (Content.consUnicode c)
  | '\\' :: 'x' :: rest =>
    if 2 ≤ rest.length then
      (hexValue? (rest.take 2)).bind fun n =>
        (relaxedContent? (rest.drop 2)).map (Content.cons (Char.ofNat n))
    else none
  | '\\' :: c :: rest =>
    if isLineEnd c then relaxedContent? rest
    else (relaxedEscape? c).bind fun c => (relaxedContent? rest).map (Content.cons c)
  | ['\\'] => none
  | c :: rest => if isLineEnd c then none else (relaxedContent? rest).map (Content.cons c)
termination_by cs.length
decreasing_by all_goals grind

/-- The length of the whole part of a decimal number: a zero, or digits that begin with another one,
or nothing. -/
def relaxedWhole : List Char → Nat
  | '0' :: _ => 1
  | cs => run Char.isDigit cs

/-- The length of an exponent that has a digit; there may be none. -/
def relaxedExponent (cs : List Char) : Nat := (exponent? cs).getD 0

/-- The parts of an unsigned decimal number at the head of a text. -/
def relaxedParts? (cs : List Char) : Option NumberParts :=
  let whole := relaxedWhole cs
  let fraction := match cs.drop whole with
    | '.' :: rest => 1 + run Char.isDigit rest
    | _ => 0
  if whole = 0 ∧ fraction ≤ 1 then none
  else some ⟨whole, fraction, relaxedExponent (cs.drop (whole + fraction))⟩

/-- The length of the hexadecimal number at the head of a text. -/
def hexLength? : List Char → Option Nat
  | '0' :: x :: rest =>
    let n := run (fun c => (Escape.hexDigit? c).isSome) rest
    if (x = 'x' ∨ x = 'X') ∧ 0 < n then some (2 + n) else none
  | _ => none

/-- A name for a number that is none of the finite ones. -/
def specialLength? (cs : List Char) : Option Nat :=
  if "Infinity".toList.isPrefixOf cs then some 8
  else if "NaN".toList.isPrefixOf cs then some 3
  else none

/-- A number that can be written but not be read, of some length. -/
def unreadableNumber (length : Nat) : Json × Nat := (.unreadable, length)

/-- An unsigned decimal number in the relaxed dialect, and its length. -/
def decimalNumber? (negative : Bool) (cs : List Char) : Option (Json × Nat) :=
  (relaxedParts? cs).map fun parts =>
    if parts.isInteger then
      let n := decimalValue (cs.take parts.length)
      if n < Nat.pow 2 63 ∨ (negative ∧ n = Nat.pow 2 63) then
        (.integer (if negative then -(n : Int) else n), parts.length)
      else unreadableNumber parts.length
    else if (parts.exact cs).isInfinite then unreadableNumber parts.length
    else (.fraction (String.ofList (cs.take parts.length)), parts.length)

/-- A number without sign in the relaxed dialect, and its length. -/
def unsignedNumber? (cs : List Char) : Option (Json × Nat) :=
  match hexLength? cs with
  | some n => (hexValue? ((cs.take n).drop 2)).map fun value =>
    if value < Nat.pow 2 32 then (.integer value, n) else unreadableNumber n
  | none => decimalNumber? false cs

/-- A number in the relaxed dialect, and its length. -/
def signedNumber? : List Char → Option (Json × Nat)
  | '-' :: cs =>
    match specialLength? cs, hexLength? cs with
    | some n, _ => some (.fraction (String.ofList ('-' :: cs.take n)), n + 1)
    | none, some n => some (unreadableNumber (n + 1))
    | none, none => (decimalNumber? true cs).map fun (value, n) => (value, n + 1)
  | '+' :: cs =>
    match (specialLength? cs).or (hexLength? cs) with
    | some n => some (unreadableNumber (n + 1))
    | none => (decimalNumber? false cs).map fun (value, n) => (value, n + 1)
  | cs => unsignedNumber? cs

/-- Whether a character may begin a name without quotes. -/
def isWordStart (c : Char) : Bool := Text.isLetter c || c == '$' || c == '_'

/-- Whether a character may go on with a name without quotes. -/
def isWordPart (c : Char) : Bool :=
  isWordStart c || Text.isJoining c || c == '\u200c' || c == '\u200d'

/-- A name without quotes. -/
structure Word where
  /-- The name, with its escapes replaced. -/
  content : Content
  escaped : Bool
  /-- The number of its characters as it is written. -/
  length : Nat
deriving Repr

/-- What goes on with a name, or begins it.  Escapes are not held to the characters of names, and no
line end is escaped in a name. -/
def word? (first : Bool) (cs : List Char) : Option Word :=
  match cs with
  | '\\' :: 'u' :: rest =>
    (relaxedUnicode? 0 rest).bind fun (c, n) =>
      (word? false (rest.drop n)).map fun word =>
        ⟨word.content.consUnicode c, true, word.length + n + 2⟩
  | c :: rest =>
    if (if first then isWordStart c else isWordPart c) then
      (word? false rest).map fun word => ⟨word.content.cons c, word.escaped, word.length + 1⟩
    else if first then none else some ⟨some [], false, 0⟩
  | [] => if first then none else some ⟨some [], false, 0⟩
termination_by cs.length
decreasing_by all_goals grind

/-- The token of the relaxed dialect that begins with `c`. -/
def relaxedCut? (c : Char) (rest : List Char) : Option Cut :=
  match ofPunctuation? c with
  | some t => some ⟨t, 0⟩
  | none =>
    if c = '"' ∨ c = '\'' then do
      let n ← quotedLength? c rest
      let content ← relaxedContent? (rest.take n)
      return ⟨text content.text, n + 1⟩
    else if c.isDigit ∨ c = '+' ∨ c = '-' ∨ c = '.' then
      (signedNumber? (c :: rest)).map fun (value, n) => ⟨scalar value, n - 1⟩
    else (word? true (c :: rest)).map fun w => ⟨word w.content.text w.escaped, w.length - 1⟩

/-- The length of a comment that begins with a slash, beyond the slash. -/
def commentLength? : List Char → Option Nat
  | '/' :: rest => some (1 + run (fun c => !isLineEnd c) rest)
  | '*' :: rest =>
    let b := Extent.blockComment rest
    if b.closed then some (1 + b.length) else none
  | _ => none

/-- The tokens of a relaxed JSON text. -/
def ofRelaxed? (cs : List Char) : Option (List JsonToken) :=
  match cs with
  | [] => some []
  | c :: rest =>
    if isRelaxedSpace c then ofRelaxed? rest
    else if c = '/' then (commentLength? rest).bind fun n => ofRelaxed? (rest.drop n)
    else (relaxedCut? c rest).bind fun cut =>
      (ofRelaxed? (rest.drop cut.further)).map (cut.token :: ·)
termination_by cs.length
decreasing_by all_goals simp only [List.length_drop, List.length_cons]; omega

end JsonToken

/-- The value of a relaxed JSON text. -/
def Json.parseRelaxed? (text : String) : Option Json :=
  (JsonToken.ofRelaxed? text.toList).bind (Json.ofTokens? .relaxed)

end TypeScriptEngine
