import TypeScriptEngine.Diagnostic.Basic
import TypeScriptEngine.Options.Language
import TypeScriptEngine.Token.Kind

/-!
# Findings of the checker

What the checker can find wrong in a file, with the number and the wording of each finding.
-/

namespace TypeScriptEngine

/-- What can be wrong with a file. -/
inductive FindingCause where
  /-- A piece of text is no token. -/
  | lexical (cause : LexicalFault)
  /-- A bracket is closed by another one, or not at all. -/
  | closerExpected (opener : TokenKind)
  /-- A closing bracket has no opening one. -/
  | unopenedCloser
  /-- A block-scoped name is declared where it is declared already. -/
  | redeclared (name : String)
  /-- Syntax that is not erased with the types. -/
  | notErasable
deriving DecidableEq, Repr

namespace FindingCause

/-- The spelling of the closer of a bracket. -/
def closerText : TokenKind → String
  | .lparen => ")"
  | .lbracket => "]"
  | _ => "\x7d"

/-- The number of a lexical fault. -/
def lexicalCode : LexicalFault → Nat
  | .unterminatedString => 1002
  | .unterminatedComment => 1010
  | .unterminatedTemplate => 1160
  | .unterminatedRegex => 1161
  | .invalidCharacter => 1127

/-- The number of a finding. -/
def code : FindingCause → Nat
  | lexical cause => lexicalCode cause
  | closerExpected _ => 1005
  | unopenedCloser => 1128
  | redeclared _ => 2451
  | notErasable => 1294

/-- The wording of a finding. -/
def message : FindingCause → String
  | lexical cause => cause.message
  | closerExpected opener => "'" ++ closerText opener ++ "' expected."
  | unopenedCloser => "Declaration or statement expected."
  | redeclared name => "Cannot redeclare block-scoped variable '" ++ name ++ "'."
  | notErasable => "This syntax is not allowed when 'erasableSyntaxOnly' is enabled."

end FindingCause

/-- A finding and the bytes it is about. -/
structure Finding where
  cause : FindingCause
  span : Span
deriving DecidableEq, Repr

/-- The diagnostic of a finding in a file. -/
def Finding.toDiagnostic (file : DiagnosticFile) (f : Finding) : Diagnostic :=
  (Diagnostic.global f.cause.code .error (.ofText f.cause.message)).inFile file f.span

/-- The diagnostics of the options themselves: the module system must have an emitter. -/
def ModuleKind.diagnostics (m : ModuleKind) : List Diagnostic :=
  if m.isSupported then []
  else [.global 6046 .error (.ofText
    ("Argument for '--module' option must be: 'none', 'commonjs', 'es2015', 'esnext'. '" ++
      m.displayName ++ "' is not supported."))]

end TypeScriptEngine
