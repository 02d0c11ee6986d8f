/-!
# Spans

A `Span` is a range of byte positions in a source text, from `start` up to but not including
`stop`.  A span whose end lies before its start is empty.
-/

namespace TypeScriptEngine

/-- A byte range in a source text. -/
structure Span where
  start : Nat
  stop : Nat
deriving DecidableEq, Repr, Inhabited

namespace Span

/-- The number of bytes covered. -/
def length (s : Span) : Nat := s.stop - s.start

/-- Whether the span covers no byte. -/
def isEmpty (s : Span) : Bool := s.stop ≤ s.start

/-- The least span that covers both. -/
def hull (s t : Span) : Span where
  start := min s.start t.start
  stop := max s.stop t.stop

/-- The span without its first and last byte, which for a literal are its quotes. -/
def unquoted (s : Span) : Span :=
  if 2 ≤ s.length then ⟨s.start + 1, s.stop - 1⟩ else s

end Span

end TypeScriptEngine
