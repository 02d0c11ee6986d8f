import TypeScriptEngine.Span
import TypeScriptEngine.Token.Kind

/-!
# Tokens and comments

What scanning a source text yields: the tokens, the last of which is the end of the text, and the
comments, which are kept apart.
-/

namespace TypeScriptEngine

/-- A token of a source text. -/
structure Token where
  kind : TokenKind
  /-- The bytes the token covers. -/
  span : Span
  /-- The unescaped content of a string literal, the message of a fault, and otherwise the source
  text of the token. -/
  value : String
  /-- The source text of the token. -/
  source : String
  /-- Whether a line break separates the token from the one before it.  The first token always
  counts as being on a new line. -/
  lineBefore : Bool
deriving DecidableEq, Repr

/-- Whether a token stands for a piece of text that is none. -/
def Token.isFault (t : Token) : Bool :=
  match t.kind with
  | .fault _ => true
  | _ => false

/-- A comment of a source text. -/
structure Comment where
  kind : CommentKind
  /-- The bytes the comment covers, delimiters included. -/
  span : Span
  /-- The text between the delimiters. -/
  text : String
deriving DecidableEq, Repr

end TypeScriptEngine
