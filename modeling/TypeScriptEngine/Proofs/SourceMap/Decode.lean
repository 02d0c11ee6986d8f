import Mathlib.Algebra.Group.Nat.Defs
import TypeScriptEngine.Proofs.Text.Split
import TypeScriptEngine.SourceMap.Basic

/-! # Reading mappings back

`SourceMap.decode?` reads the mappings of a source map as the format has it: lines are separated by
semicolons and segments by commas, and the fields of a segment are variable-length quantities, each
of which but the column counts from the same field of the segment before, on whatever line that is.
What the emitter writes is read as one segment for each line, from its beginning to the beginning of
the source line of the same number (`decode?_lineMappings`).
-/

namespace TypeScriptEngine

namespace Vlq

/-- The digit that a character stands for. -/
def digitOf? (c : Char) : Option Nat := alphabet.findIdx? (· == c)

/-- The number of a word, which has its sign in the lowest bit. -/
def numberOf (word : Nat) : Int := if word % 2 = 1 then -((word / 2 : Nat) : Int) else (word / 2 : Nat)

/-- The numbers of a text, where the digits of lower place than `shift` of the first one are those
of `word`. -/
def decodeFrom? (shift word : Nat) : List Char → Option (List Int)
  | [] => if shift = 0 then some [] else none
  | c :: cs => do
    let digit ← digitOf? c
    if digit < 32 then
      let rest ← decodeFrom? 0 0 cs
      return numberOf (word + digit * 2 ^ shift) :: rest
    else decodeFrom? (shift + 5) (word + (digit - 32) * 2 ^ shift) cs

/-- The numbers of a text. -/
def decode? (cs : List Char) : Option (List Int) := decodeFrom? 0 0 cs

end Vlq

namespace SourceMap

/-- Where a part of an emitted line comes from. -/
structure Origin where
  /-- The number of the source in the list of sources. -/
  source : Int
  line : Int
  column : Int
deriving DecidableEq, Repr

/-- A part of an emitted line, up to the next one. -/
structure Segment where
  /-- Where it begins. -/
  column : Int
  origin : Option Origin
  /-- The number of the original name in the list of names. -/
  name : Option Int
deriving DecidableEq, Repr

/-- The fields of the last segments that had them. -/
structure Fields where
  column : Int
  origin : Origin
  name : Int
deriving DecidableEq, Repr

/-- The fields before the first segment. -/
def Fields.initial : Fields := ⟨0, ⟨0, 0, 0⟩, 0⟩

/-- The segment that some numbers stand for, behind others. -/
def Fields.next? (last : Fields) : List Int → Option (Segment × Fields)
  | [column] =>
    let fields := { last with column := last.column + column }
    some (⟨fields.column, none, none⟩, fields)
  | [column, source, line, sourceColumn] =>
    let origin : Origin := ⟨last.origin.source + source, last.origin.line + line,
      last.origin.column + sourceColumn⟩
    let fields := { last with column := last.column + column, origin }
    some (⟨fields.column, some origin, none⟩, fields)
  | [column, source, line, sourceColumn, name] =>
    let origin : Origin := ⟨last.origin.source + source, last.origin.line + line,
      last.origin.column + sourceColumn⟩
    let fields : Fields := ⟨last.column + column, origin, last.name + name⟩
    some (⟨fields.column, some origin, some fields.name⟩, fields)
  | _ => none

/-- The segments of a line, and the fields behind them. -/
def decodeSegments? (last : Fields) : List (List Char) → Option (List Segment × Fields)
  | [] => some ([], last)
  | text :: texts => do
    let (segment, fields) ← last.next? (← Vlq.decode? text)
    let (segments, fields) ← decodeSegments? fields texts
    return (segment :: segments, fields)

/-- The segments of each line.  Columns begin anew on each of them. -/
def decodeLines? (last : Fields) : List (List Char) → Option (List (List Segment))
  | [] => some []
  | text :: texts => do
    let segments := if text = [] then [] else Text.splitOn ',' text
    let (segments, fields) ← decodeSegments? { last with column := 0 } segments
    let lines ← decodeLines? fields texts
    return segments :: lines

/-- **The segments that mappings stand for,** line by line. -/
def decode? (mappings : List Char) : Option (List (List Segment)) :=
  decodeLines? .initial (Text.splitOn ';' mappings)

/-! ## The mappings of the emitter -/

/-- The only segment of a line that comes from the source line of the same number. -/
def sameLine (n : Nat) : Segment := ⟨0, some ⟨0, n, 0⟩, none⟩

theorem lineSegment_eq (isFirst : Bool) :
    lineSegment isFirst = ['A', 'A', if isFirst then 'A' else 'C', 'A'] := by
  cases isFirst <;> decide +kernel

/-- The numbers of a segment: how far its line lies behind the last one, and zeros. -/
theorem decode?_lineSegment (isFirst : Bool) :
    Vlq.decode? (lineSegment isFirst) = some [0, 0, if isFirst then 0 else 1, 0] := by
  rw [lineSegment_eq]
  cases isFirst <;> decide +kernel

theorem not_mem_lineSegment (isFirst : Bool) :
    ';' ∉ lineSegment isFirst ∧ ',' ∉ lineSegment isFirst := by
  rw [lineSegment_eq]
  cases isFirst <;> decide

theorem decodeLines?_lineSegment (isFirst : Bool) (last : Nat) (lines : List (List Char)) :
    decodeLines? ⟨0, ⟨0, last, 0⟩, 0⟩ (lineSegment isFirst :: lines) =
      let line := last + if isFirst then 0 else 1
      (decodeLines? ⟨0, ⟨0, line, 0⟩, 0⟩ lines).map ([sameLine line] :: ·) := by
  have hne : lineSegment isFirst ≠ [] := by
    rw [lineSegment_eq]
    exact List.cons_ne_nil _ _
  have hsplit := Text.splitOn_of_not_mem (not_mem_lineSegment isFirst).2
  rw [decodeLines?]
  simp only [if_neg hne, hsplit, decodeSegments?, decode?_lineSegment]
  cases isFirst
  all_goals
    simp only [Fields.next?, sameLine]
    exact Option.map_eq_bind.symm

theorem decodeLines?_replicate (last n : Nat) :
    decodeLines? ⟨0, ⟨0, last, 0⟩, 0⟩ (List.replicate n (lineSegment false)) =
      some ((List.range' (last + 1) n).map fun k => [sameLine k]) := by
  induction n generalizing last with
  | zero => rfl
  | succ n ih =>
    rw [List.replicate_succ, decodeLines?_lineSegment]
    show (decodeLines? ⟨0, ⟨0, (last + 1 : Nat), 0⟩, 0⟩ _).map _ = _
    rw [ih, List.range'_succ]
    rfl

/-- **The mappings of the emitter lead from each line to the same line:** each has one segment, from
its beginning to the beginning of the source line of its number. -/
theorem decode?_lineMappings (n : Nat) :
    decode? (lineMappings (n + 1)) = some ((List.range (n + 1)).map fun k => [sameLine k]) := by
  have hlines : lineMappings (n + 1) = lineSegment true ++
      (List.replicate n (lineSegment false)).flatMap fun segment => ';' :: segment := by
    rw [lineMappings, List.flatMap_def, List.map_replicate]
  have hsplit : Text.splitOn ';' (lineMappings (n + 1)) =
      lineSegment true :: List.replicate n (lineSegment false) := by
    rw [hlines]
    refine Text.splitOn_append_flatMap (not_mem_lineSegment true).1 fun segment hmem => ?_
    rw [List.eq_of_mem_replicate hmem]
    exact (not_mem_lineSegment false).1
  rw [decode?, hsplit]
  show decodeLines? ⟨0, ⟨0, (0 : Nat), 0⟩, 0⟩ _ = _
  rw [decodeLines?_lineSegment]
  show (decodeLines? ⟨0, ⟨0, (0 : Nat), 0⟩, 0⟩ _).map _ = _
  rw [decodeLines?_replicate, List.range_eq_range', List.range'_succ]
  rfl

end SourceMap

end TypeScriptEngine
