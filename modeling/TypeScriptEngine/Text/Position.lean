import TypeScriptEngine.Text.Bytes

/-!
# Positions

Lines and characters for byte offsets.  A `LineIndex` holds where the lines of a text start; the
position of an offset is found from the last line that starts at or before it.
-/

namespace TypeScriptEngine.Text

/-- A line and a character in it, both counted from zero. -/
structure Position where
  line : Nat
  character : Nat
deriving DecidableEq, Repr

/-- The byte offsets at which the lines of a text start. -/
structure LineIndex where
  starts : List Nat
deriving DecidableEq, Repr

namespace LineIndex

/-- The offsets behind the line feeds of a text that begins at `pos`. -/
def startsAfter (pos : Nat) : List Char → List Nat
  | [] => []
  | c :: cs =>
    let next := pos + c.utf8Size
    if c = '\n' then next :: startsAfter next cs else startsAfter next cs

/-- The line starts of a text. -/
def ofText (cs : List Char) : LineIndex := ⟨0 :: startsAfter 0 cs⟩

/-- The number of lines. -/
def lineCount (index : LineIndex) : Nat := index.starts.length

/-- An offset moved back to the end of the text, or to the start of the character that it lies
in. -/
def clamp (cs : List Char) (offset : Nat) : Nat := byteLength (splitBytes offset cs).1

/-- The position of an offset. -/
def position (index : LineIndex) (cs : List Char) (offset : Nat) : Position :=
  let offset := clamp cs offset
  let reached := index.starts.takeWhile (· ≤ offset)
  let lineStart := reached.getLast?.getD 0
  ⟨reached.length - 1, (sliceBytes lineStart offset cs).length⟩

end LineIndex

/-- The position of an offset in a text. -/
def positionOf (cs : List Char) (offset : Nat) : Position :=
  (LineIndex.ofText cs).position cs offset

end TypeScriptEngine.Text
