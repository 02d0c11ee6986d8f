import TypeScriptEngine.Check.Finding
import TypeScriptEngine.Token.Stream

/-!
# Faults and brackets

The findings that need no more than the token list: one for each piece of text that is no token, and
one for the first bracket that does not fit.
-/

namespace TypeScriptEngine.Check

/-- The findings in a stream, in which the brackets `opened` are open, innermost first.  After a
bracket that does not fit (`failed`) brackets are not looked at any more. -/
def bracketFindings (opened : List TokenKind) (failed : Bool) : TokenStream → List Finding
  | [] => []
  | t :: rest =>
    if t.kind.isOpener then bracketFindings (t.kind :: opened) failed rest
    else if t.kind.isCloser && !failed then
      match opened with
      | [] => ⟨.unopenedCloser, t.span⟩ :: bracketFindings [] true rest
      | opener :: opened =>
        if opener.closer? = some t.kind then bracketFindings opened false rest
        else ⟨.closerExpected opener, t.span⟩ :: bracketFindings opened true rest
    else match t.kind with
      | .fault cause => ⟨.lexical cause, t.span⟩ :: bracketFindings opened failed rest
      | .eof =>
        if failed then bracketFindings opened failed rest
        else (opened.head?.map fun o => ⟨.closerExpected o, t.span⟩).toList ++
          bracketFindings opened failed rest
      | _ => bracketFindings opened failed rest

/-- The findings that a text has whatever it means. -/
def syntactic (ts : TokenStream) : List Finding := bracketFindings [] false ts

end TypeScriptEngine.Check
