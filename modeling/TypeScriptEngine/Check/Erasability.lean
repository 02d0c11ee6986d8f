import TypeScriptEngine.Check.Finding
import TypeScriptEngine.Token.Statement

/-!
# Syntax that cannot be erased

Some syntax has types and code at once, so that removing the types does not leave a program:
enumerations, namespaces that hold values, and constructor parameters that declare properties.
What is declared as ambient has no code and is left alone.
-/

namespace TypeScriptEngine.Check

open TokenStream (headKind bracketSpan? memberLength)

/-- How many tokens stand between the bracket at the head of a stream and its closer.  A bracket
that is not closed reaches to the end of the text. -/
def bracketBody (ts : TokenStream) : Nat := (bracketSpan? ts).elim (ts.length - 2) (· - 1)

/-- The modifiers of parameters in a parameter list of `n` tokens. -/
def parameterProperties (atStart : Bool) (n : Nat) (ts : TokenStream) : List Span :=
  match n, ts with
  | 0, _ | _, [] => []
  | n + 1, t :: rest =>
    if atStart && t.kind.isMemberModifier then t.span :: parameterProperties false n rest
    else if t.kind = .comma then parameterProperties true n rest
    else if t.kind.isOpener then
      match bracketSpan? (t :: rest) with
      | some c => parameterProperties false (n - c) (rest.drop c)
      | none => []
    else parameterProperties false n rest
termination_by ts.length
decreasing_by all_goals simp only [List.length_drop, List.length_cons]; omega

/-- Words whose declarations have a value. -/
def declaresValue : TokenKind → Bool
  | .kwVar | .kwLet | .kwConst | .kwFunction | .kwClass | .kwEnum => true
  | _ => false

/-- Whether a declaration is ambient, given the two tokens before it, the nearer one first. -/
def isAmbientAfter (previous before : TokenKind) : Bool :=
  previous == .kwDeclare ||
    ((previous == .kwConst || previous == .kwExport) && before == .kwDeclare)

/-- The places in a stream that cannot be erased, given the kinds of the two tokens before it. -/
def nonErasable (previous before : TokenKind) (ts : TokenStream) : List Span :=
  match ts with
  | [] => []
  | t :: rest =>
    let declares := !previous.isDot && (headKind rest).isName && !isAmbientAfter previous before
    if t.kind = .kwEnum ∧ declares then t.span :: nonErasable t.kind previous rest
    else if (t.kind = .kwNamespace ∨ t.kind = .kwModule) ∧ declares then
      let name := 1 + memberLength (rest.drop 1)
      let block := rest.drop name
      if headKind block = .lbrace then
        let body := bracketBody block
        let here := if ((block.drop 1).take body).any fun u => declaresValue u.kind then [t.span]
          else []
        here ++ nonErasable .rbrace .eof (block.drop (body + 2))
      else nonErasable t.kind previous rest
    else if t.kind = .identifier ∧ t.value = "constructor" ∧ headKind rest = .lparen then
      parameterProperties true (bracketBody rest) (rest.drop 1) ++ nonErasable t.kind previous rest
    else nonErasable t.kind previous rest
termination_by ts.length
decreasing_by all_goals grind

/-- The findings on syntax that cannot be erased. -/
def erasability (ts : TokenStream) : List Finding :=
  (nonErasable .eof .eof ts).map fun span => ⟨.notErasable, span⟩

end TypeScriptEngine.Check
