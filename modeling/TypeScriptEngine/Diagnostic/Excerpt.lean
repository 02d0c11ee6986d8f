import TypeScriptEngine.Diagnostic.Report
import TypeScriptEngine.Text.Blank
import TypeScriptEngine.Text.Width

/-!
# Excerpts

An error drawn below the line of the source that it is about:

```
[TS1109] Error: Expression expected.
   ╭─[ /proj/a.ts:1:9 ]
   │
 1 │ let x = ;
   │         ┬
   │         ╰── Expression expected.
───╯
```

The error is marked over its width on the terminal, up to the end of the line; its content hangs
from the middle of the mark.  An error of no width is marked by a bar.
-/

namespace TypeScriptEngine.Excerpt

/-! ## Lines -/

/-- Whether a character ends a line on the terminal. -/
def isLineEnd (c : Char) : Bool :=
  c == '\r' || c == '\n' || c == '\x0b' || c == '\x0c' || c.toNat == 0x85 || c.toNat == 0x2028 ||
    c.toNat == 0x2029

/-- The lines of a text with their ends.  A carriage return and a line feed end one line. -/
def lines : List Char → List (List Char)
  | [] => []
  | '\r' :: '\n' :: cs => ['\r', '\n'] :: lines cs
  | c :: cs =>
    if isLineEnd c then [c] :: lines cs
    else match lines cs with
      | [] => [[c]]
      | line :: rest => (c :: line) :: rest

/-- A line that an offset lies in. -/
structure Line where
  /-- The number of the line, counted from one. -/
  number : Nat
  text : List Char
  /-- The number of bytes from the start of the line to the offset. -/
  offset : Nat
deriving Repr

/-- The line of an offset.  The end of the text belongs to the last line. -/
def lineAt (number offset : Nat) : List (List Char) → Line
  | [] => ⟨number, [], 0⟩
  | [line] => ⟨number, line, offset⟩
  | line :: next :: rest =>
    if offset < Text.byteLength line then ⟨number, line, offset⟩
    else lineAt (number + 1) (offset - Text.byteLength line) (next :: rest)

/-! ## Drawing -/

/-- What is drawn for a character: itself, or spaces for white space. -/
def drawChar (column : Nat) (c : Char) : List Char :=
  if c = '\t' then List.replicate ((column / 4 + 1) * 4 - column) ' '
  else if Text.isBlank c then [' ']
  else [c]

/-- The number of columns of a character. -/
def columns (column : Nat) (c : Char) : Nat :=
  if c = '\t' then (column / 4 + 1) * 4 - column
  else if Text.isBlank c then 1
  else Text.width c

/-- A sign that fills the width of a character. -/
structure Cell where
  sign : Char
  /-- What fills the columns behind the first one. -/
  fill : Char
deriving DecidableEq, Repr

/-- A cell drawn over some columns. -/
def Cell.draw (cell : Cell) : Nat → List Char
  | 0 => []
  | width + 1 => cell.sign :: List.replicate width cell.fill

/-- The mark of an error in its line, counted in characters. -/
structure Mark where
  start : Nat
  length : Nat
deriving DecidableEq, Repr

/-- The character from which the content hangs. -/
def Mark.middle (m : Mark) : Nat := m.start + m.length / 2

/-- The cell of the mark below a character. -/
def Mark.cell (m : Mark) (i : Nat) : Cell :=
  let marked := m.start ≤ i && i < m.start + m.length
  if i = m.middle then if marked then ⟨'┬', '─'⟩ else ⟨'│', ' '⟩
  else if marked then ⟨'─', '─'⟩
  else ⟨' ', ' '⟩

/-- The cell of the line that leads to the content, below a character. -/
def Mark.leader (m : Mark) (i : Nat) : Cell :=
  if i = m.middle then ⟨'╰', '─'⟩ else if m.middle < i then ⟨'─', '─'⟩ else ⟨' ', ' '⟩

/-- A row of cells below a line, two characters longer than the mark. -/
def Mark.row (m : Mark) (cs : List Char) (cell : Nat → Cell) : List Char :=
  (List.range (m.start + m.length + 2)).flatMap fun i => (cell i).draw (cs[i]?.elim 1 (columns i))

/-- The kind of an error. -/
def kindName : Severity → String
  | .error => "Error"
  | .warning => "Warning"
  | .message => "Advice"

/-- The first line: code, kind and content. -/
def headline (facts : ErrorFacts) : String :=
  "[TS" ++ toString facts.code ++ "] " ++ kindName facts.severity ++ ": " ++ facts.content ++ "\n"

/-- Repeats a text. -/
def repeated (n : Nat) (text : String) : String := String.join (List.replicate n text)

/-- The excerpt of a line with a mark. -/
def body (facts : ErrorFacts) (file : String) (number : Nat) (line : List Char) (m : Mark) :
    String :=
  let digits := toString number
  let width := digits.length
  let margin := repeated (width + 2) " " ++ "│"
  let line := Text.trimEnd line
  let drawn := (line.mapIdx drawChar).flatten
  repeated (width + 2) " " ++ "╭─[ " ++ file ++ ":" ++ digits ++ ":" ++ toString (m.start + 1) ++
    " ]\n" ++
    margin ++ "\n" ++
    " " ++ digits ++ " │ " ++ String.ofList drawn ++ "\n" ++
    margin ++ " " ++ String.ofList (m.row line m.cell) ++ "\n" ++
    margin ++ " " ++ String.ofList (m.row line m.leader) ++ " " ++ facts.content ++ "\n" ++
    repeated (width + 2) "─" ++ "╯\n"

/-- The bytes of a source that an error is drawn at.  An error of no width is given one byte, if
there is one. -/
def drawnSpan (span : Span) (size : Nat) : Span where
  start := min span.start size
  stop := min (max span.stop (span.start + 1)) (max size span.start)

/-- An error drawn at some bytes of a source.  If they do not lie in it there is no excerpt. -/
def draw (facts : ErrorFacts) (file : String) (source : List Char) (span : Span) : String :=
  let size := Text.byteLength source
  let span := drawnSpan span size
  if size < span.stop then headline facts
  else
    let line := lineAt 1 span.start (lines source)
    let (before, marked) := Text.splitBytes line.offset line.text
    let mark := (Text.splitBytes span.length marked).1
    headline facts ++ body facts file line.number line.text ⟨before.length, mark.length⟩

end TypeScriptEngine.Excerpt

namespace TypeScriptEngine

/-- **An error with an excerpt of its source.**  Without a source, or if it is not tied to a file,
it is the message alone. -/
def HostError.render (e : HostError) (source : Option String) : String :=
  match e.file, e.span, source with
  | some file, some span, some source => Excerpt.draw e.facts file source.toList span
  | _, _, _ => e.message

end TypeScriptEngine
