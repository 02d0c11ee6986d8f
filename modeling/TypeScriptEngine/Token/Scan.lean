import TypeScriptEngine.Text.Bytes
import TypeScriptEngine.Token.Basic
import TypeScriptEngine.Token.Escape
import TypeScriptEngine.Token.Piece

/-!
# Scanning

`Scan.ofText` yields the tokens and the comments of a text.  It lays the pieces of the text end to
end, which gives each its span, and closes with the token for the end of the text.
-/

namespace TypeScriptEngine

/-- The tokens and comments of a text. -/
structure Scan where
  tokens : List Token
  comments : List Comment
deriving DecidableEq, Repr

namespace Piece

/-- The text without its first `n` and its last `m` characters. -/
def inner (n m : Nat) (cs : List Char) : List Char :=
  (cs.drop n).take (cs.length - n - m)

/-- What a token stands for. -/
def value (kind : TokenKind) (text : List Char) : String :=
  match kind with
  | .stringLiteral => String.ofList (Escape.decode (inner 1 1 text))
  | .fault cause => cause.message
  | _ => String.ofList text

/-- What a comment says: the text between its delimiters.  A line comment loses the carriage
returns at its end. -/
def remark (kind : CommentKind) (text : List Char) : String :=
  match kind with
  | .line => String.ofList ((text.drop 2).reverse.dropWhile (· == '\r')).reverse
  | .block => String.ofList (inner 2 2 text)

end Piece

namespace Scan

/-- Lays pieces end to end, the first one at byte `pos`.  The flag tells whether a line break
precedes the next token. -/
def layOut (pos : Nat) (lineBefore : Bool) : List Piece → Scan
  | [] => ⟨[⟨.eof, ⟨pos, pos⟩, "", "", lineBefore⟩], []⟩
  | p :: ps =>
    let stop := pos + Text.byteLength p.text
    match p.kind with
    | .blank => layOut stop (lineBefore || p.text.contains '\n') ps
    | .comment kind =>
      let rest := layOut stop (lineBefore || p.text.contains '\n') ps
      { rest with comments := ⟨kind, ⟨pos, stop⟩, Piece.remark kind p.text⟩ :: rest.comments }
    | .token kind =>
      let rest := layOut stop false ps
      let token : Token :=
        ⟨kind, ⟨pos, stop⟩, Piece.value kind p.text, String.ofList p.text, lineBefore⟩
      { rest with tokens := token :: rest.tokens }

/-- The tokens and comments of a text. -/
def ofText (text : String) : Scan :=
  layOut 0 true (pieces .initial text.toList)

/-- A scan ends with the token for the end of the text. -/
theorem layOut_getLast? (pos : Nat) (lineBefore : Bool) (ps : List Piece) :
    (layOut pos lineBefore ps).tokens.getLast?.map Token.kind = some .eof := by
  fun_induction layOut pos lineBefore ps with
  | case1 => rfl
  | case2 => assumption
  | case3 => assumption
  | case4 pos lineBefore p ps stop kind h rest token ih =>
    simp only [List.getLast?_cons, Option.map_some]
    cases hl : rest.tokens.getLast? <;> simp_all [rest]

end Scan

end TypeScriptEngine
