import TypeScriptEngine.Diagnostic.Basic
import TypeScriptEngine.Glob.Match
import TypeScriptEngine.Path.Normal

/-!
# Errors for the host

A `HostError` is what the host is told: a diagnostic, or a failure of the engine itself, with its
place counted from one and a finished message.  A host that has its own wording for messages gives
it as the `wording` of an `ErrorStyle`.
-/

/-! ## Filtering diagnostics

Which diagnostics reach the host.  Some codes are ignored everywhere.  Patterns choose files by
their path below the build context: a file is reported if one of the patterns includes it and none,
marked with an exclamation mark, excludes it.  With excluding patterns alone every other file is
reported, and a diagnostic without a file is not subject to patterns.
-/

namespace TypeScriptEngine

/-- A file pattern that cannot be read. -/
structure ReportPatternError where
  /-- The pattern with its mark. -/
  pattern : String
  cause : GlobError
deriving DecidableEq, Repr

/-- The wording of the error. -/
def ReportPatternError.message (e : ReportPatternError) : String :=
  "invalid reportFiles pattern '" ++ e.pattern ++ "': " ++ e.cause.message

/-- A file pattern. -/
structure ReportPattern where
  /-- Whether it tells which files are not reported. -/
  excludes : Bool
  tokens : List GlobToken
deriving Repr

namespace ReportPattern

/-- Reads a pattern. -/
def ofText (pattern : String) : Except ReportPatternError ReportPattern :=
  let (excludes, cs) := match pattern.toList with
    | '!' :: cs => (true, cs)
    | cs => (false, cs)
  match Glob.ofText (String.ofList (Glob.withoutHere cs)) with
  | .ok tokens => .ok ⟨excludes, tokens⟩
  | .error cause => .error ⟨pattern, cause⟩

/-- Whether a path matches; wildcards do not match slashes. -/
def isMatch (pattern : ReportPattern) (path : String) : Bool :=
  Glob.matchesText true pattern.tokens path

end ReportPattern

/-- Which diagnostics reach the host. -/
structure DiagnosticFilter where
  /-- The codes that are never reported. -/
  ignored : List Nat
  patterns : List ReportPattern
deriving Repr

namespace DiagnosticFilter

/-- A filter of codes and patterns. -/
def ofTexts (ignored : List Nat) (patterns : List String) :
    Except ReportPatternError DiagnosticFilter := do
  return ⟨ignored, ← patterns.mapM ReportPattern.ofText⟩

/-- Whether a file is reported, given its path below the build context. -/
def reportsFile (filter : DiagnosticFilter) (path : String) : Bool :=
  let (excluding, including) := filter.patterns.partition ReportPattern.excludes
  (including.isEmpty || including.any fun pattern => pattern.isMatch path) &&
    !excluding.any fun pattern => pattern.isMatch path

/-- Whether a diagnostic is reported in a build context. -/
def allows (filter : DiagnosticFilter) (context : Path) (d : Diagnostic) : Bool :=
  !filter.ignored.contains d.code &&
    d.file.all fun file => filter.reportsFile (Path.relativeTo context file.path).slashed

end DiagnosticFilter

/-! ## Errors -/

/-- A line and a character in it, both counted from one. -/
structure Location where
  line : Nat
  character : Nat
deriving DecidableEq, Repr

/-- What there is to say about an error. -/
structure ErrorFacts where
  code : Nat
  severity : Severity
  /-- The message of the diagnostic, with its explanations. -/
  content : String
  /-- The file, or the empty text. -/
  file : String
  /-- The line, or zero without a file. -/
  line : Nat
  /-- The character, or zero without a file. -/
  character : Nat
  /-- The directory of the build. -/
  context : String
deriving DecidableEq, Repr

/-- An error as the host gets it. -/
structure HostError where
  facts : ErrorFacts
  /-- The finished message. -/
  message : String
  file : Option String
  location : Option Location
  /-- The bytes of the file that the error is about. -/
  span : Option Span
deriving DecidableEq, Repr

/-- An error of the engine itself. -/
def HostError.ofEngine (message : String) (file : Option String) (context : Path) : HostError where
  facts :=
    { code := 0, severity := .error, content := message, file := file.getD "", line := 0
      character := 0, context := context.text }
  message := message
  file := file
  location := none
  span := none

/-! ## Messages -/

/-- The colours of messages. -/
inductive Color where
  | red | yellow | blue | cyan | grey
deriving DecidableEq, Repr

/-- The number of a colour in the control sequence of a terminal. -/
def Color.number : Color → String
  | red => "31"
  | yellow => "33"
  | blue => "34"
  | cyan => "36"
  | grey => "38;5;8"

/-- The colour of a severity. -/
def Severity.color : Severity → Color
  | error => .red
  | warning => .yellow
  | message => .blue

/-- The name of a severity in capital letters. -/
def Severity.capitals : Severity → String
  | error => "ERROR"
  | warning => "WARNING"
  | message => "MESSAGE"

/-- Whether messages are coloured. -/
structure Palette where
  enabled : Bool
deriving DecidableEq, Repr

/-- A piece of a message in a colour. -/
def Palette.paint (palette : Palette) (color : Color) (text : String) : String :=
  if palette.enabled then "\x1b[" ++ color.number ++ "m" ++ text ++ "\x1b[0m" else text

/-- How errors are worded. -/
structure ErrorStyle where
  palette : Palette
  /-- The wording of the host, which takes the place of the standard one. -/
  wording : Option (ErrorFacts → Palette → String)

/-- The standard wording: severity and place in the first line, code and content in the second. -/
def ErrorFacts.standardWording (facts : ErrorFacts) (palette : Palette) : String :=
  let color := facts.severity.color
  let place :=
    if facts.file.isEmpty then ""
    else palette.paint color " in " ++ palette.paint .cyan
      (facts.file ++ "(" ++ toString facts.line ++ "," ++ toString facts.character ++ ")")
  palette.paint .grey "[tsincr] " ++ palette.paint color facts.severity.capitals ++ place ++ "\n" ++
    palette.paint color ("      TS" ++ toString facts.code ++ ": " ++ facts.content)

/-- The message for an error. -/
def ErrorStyle.message (style : ErrorStyle) (facts : ErrorFacts) : String :=
  (style.wording.getD ErrorFacts.standardWording) facts style.palette

/-! ## Diagnostics -/

/-- A diagnostic as the host gets it. -/
def HostError.ofDiagnostic (style : ErrorStyle) (context : Path) (d : Diagnostic) : HostError :=
  let location : Option Location := d.position?.map fun p => ⟨p.line + 1, p.character + 1⟩
  let file := d.file.map fun file => file.path.text
  let facts : ErrorFacts :=
    { code := d.code, severity := d.category.severity, content := d.message.flatten "\n"
      file := file.getD "", line := location.elim 0 Location.line
      character := location.elim 0 Location.character, context := context.text }
  { facts, message := style.message facts, file, location, span := d.file.map fun _ => d.span }

/-- The diagnostics that a filter lets through, in their order. -/
def reportDiagnostics (filter : DiagnosticFilter) (style : ErrorStyle) (context : Path)
    (diagnostics : List Diagnostic) : List HostError :=
  (diagnostics.filter (filter.allows context)).map (HostError.ofDiagnostic style context)

end TypeScriptEngine
