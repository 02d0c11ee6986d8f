import TypeScriptEngine.Path.Basic
import TypeScriptEngine.Span
import TypeScriptEngine.Text.Position

/-!
# Diagnostics

What a compiler finds wrong: a numbered finding with a message, as a rule tied to a range of a file.
-/

namespace TypeScriptEngine

/-- How a compiler classes a finding. -/
inductive DiagnosticCategory where
  | warning | error | suggestion | message
deriving DecidableEq, Repr

/-- How grave an error is to the host. -/
inductive Severity where
  | error | warning | message
deriving DecidableEq, Repr

/-- The name of a severity. -/
def Severity.name : Severity → String
  | error => "error"
  | warning => "warning"
  | message => "message"

/-- Suggestions are no more than messages to the host. -/
def DiagnosticCategory.severity : DiagnosticCategory → Severity
  | error => .error
  | warning => .warning
  | suggestion | message => .message

/-- A message with messages that explain it. -/
inductive MessageChain where
  | node (text : String) (next : List MessageChain)
deriving Repr

namespace MessageChain

mutual

/-- The lines of a chain: each with its depth. -/
def linesAt (depth : Nat) : MessageChain → List (Nat × String)
  | node text next => (depth, text) :: linesOfAll (depth + 1) next

/-- The lines of several chains of one depth. -/
def linesOfAll (depth : Nat) : List MessageChain → List (Nat × String)
  | [] => []
  | chain :: chains => linesAt depth chain ++ linesOfAll depth chains

end

/-- A line, after a line break and two spaces for each level if it is not the first. -/
def indent (newLine : String) (depth : Nat) (text : String) : String :=
  if depth = 0 then text
  else newLine ++ String.ofList (List.replicate (2 * depth) ' ') ++ text

/-- A chain as one text, in which each part stands on a line of its own. -/
def flatten (newLine : String) (chain : MessageChain) : String :=
  String.join ((linesAt 0 chain).map fun (depth, text) => indent newLine depth text)

/-- A message without explanations. -/
def ofText (text : String) : MessageChain := node text []

end MessageChain

/-- The file that a diagnostic points into, with the text that it was found in. -/
structure DiagnosticFile where
  path : Path
  text : String
deriving Repr

/-- A finding of a compiler. -/
structure Diagnostic where
  code : Nat
  category : DiagnosticCategory
  message : MessageChain
  file : Option DiagnosticFile
  /-- The first byte it is about; without a file this means nothing. -/
  start : Nat
  /-- How many bytes it is about. -/
  length : Nat
deriving Repr

namespace Diagnostic

/-- A finding that is not tied to a file. -/
def global (code : Nat) (category : DiagnosticCategory) (message : MessageChain) : Diagnostic where
  code := code
  category := category
  message := message
  file := none
  start := 0
  length := 0

/-- The same finding, tied to a range of a file. -/
def inFile (d : Diagnostic) (file : DiagnosticFile) (span : Span) : Diagnostic :=
  { d with file := some file, start := span.start, length := span.length }

/-- The position of the first byte, for a finding in a file. -/
def position? (d : Diagnostic) : Option Text.Position :=
  d.file.map fun file => Text.positionOf file.text.toList d.start

/-- The range of bytes it is about. -/
def span (d : Diagnostic) : Span := ⟨d.start, d.start + d.length⟩

end Diagnostic

end TypeScriptEngine
