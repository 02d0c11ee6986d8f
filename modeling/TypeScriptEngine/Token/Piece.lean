import TypeScriptEngine.Text.Blank
import TypeScriptEngine.Token.Extent
import TypeScriptEngine.Token.Kind

/-!
# Cutting a text into pieces

The scanner is lossless: it cuts a text into `Piece`s (runs of white space, comments and tokens),
and the pieces, put together again, are the text (`flatten_pieces`).  No piece is empty
(`text_ne_nil_of_mem_pieces`).

Two things cannot be seen from the next characters alone and are kept in a `ScanState`: what has
been opened and not closed, which decides whether a closing brace continues a template; and whether
a slash would begin a regular expression.
-/

namespace TypeScriptEngine

/-- What is open at some point of a text. -/
inductive Opening where
  | brace
  /-- A substitution of a template. -/
  | substitution
deriving DecidableEq, Repr

/-- What the scanner knows of the text it has read. -/
structure ScanState where
  /-- The open braces and substitutions, innermost first. -/
  openings : List Opening
  /-- Whether a slash begins a regular expression. -/
  regexAllowed : Bool
deriving DecidableEq, Repr

/-- At the beginning of a text nothing is open, and a slash begins a regular expression. -/
def ScanState.initial : ScanState := ⟨[], true⟩

/-- The kind of a piece of text. -/
inductive PieceKind where
  | blank
  | comment (kind : CommentKind)
  | token (kind : TokenKind)
deriving DecidableEq, Repr

/-- A piece of a text. -/
structure Piece where
  kind : PieceKind
  text : List Char
deriving DecidableEq, Repr

/-- The kind of the next piece, and how many characters it has after its first. -/
structure Lexeme where
  kind : PieceKind
  further : Nat
deriving DecidableEq, Repr

namespace Lexeme

/-- The operators and delimiters of several characters, longer ones first.  There is none that
begins with a closing angle bracket except the unsigned shift assignment, so that type argument
lists close one level at a time. -/
def longOperators : List (List Char × TokenKind) :=
  [(['>', '>', '>', '='], .operator), (['.', '.', '.'], .ellipsis),
   (['=', '=', '='], .operator), (['!', '=', '='], .operator), (['*', '*', '='], .operator),
   (['&', '&', '='], .operator), (['|', '|', '='], .operator), (['?', '?', '='], .operator),
   (['<', '<', '='], .operator), (['=', '>'], .arrow), (['?', '.'], .questionDot),
   (['=', '='], .operator), (['!', '='], .operator), (['<', '='], .operator),
   (['&', '&'], .operator), (['|', '|'], .operator), (['?', '?'], .operator),
   (['+', '+'], .operator), (['-', '-'], .operator), (['+', '='], .operator),
   (['-', '='], .operator), (['*', '='], .operator), (['/', '='], .operator),
   (['%', '='], .operator), (['&', '='], .operator), (['|', '='], .operator),
   (['^', '='], .operator), (['*', '*'], .operator), (['<', '<'], .operator)]

/-- The kind of a single character that stands for itself. -/
def ofCharacter : Char → TokenKind
  | '(' => .lparen
  | ')' => .rparen
  | '{' => .lbrace
  | '}' => .rbrace
  | '[' => .lbracket
  | ']' => .rbracket
  | ';' => .semicolon
  | ',' => .comma
  | ':' => .colon
  | '?' => .question
  | '.' => .dot
  | '=' => .equals
  | '<' => .lt
  | '>' => .gt
  | '*' => .star
  | '|' => .pipe
  | '&' => .amp
  | '!' => .bang
  | '@' => .atSign
  | '+' | '-' | '/' | '%' | '^' | '~' | '#' => .operator
  | _ => .fault .invalidCharacter

/-- A question mark with a dot and a digit is a conditional before a number. -/
def isConditionalDot : List Char → Bool
  | '?' :: '.' :: d :: _ => d.isDigit
  | _ => false

/-- An operator, a delimiter or a character that has no place in a source text. -/
def punctuation (c : Char) (rest : List Char) : Lexeme :=
  if isConditionalDot (c :: rest) then ⟨.token .question, 0⟩
  else match longOperators.find? fun op => op.1.isPrefixOf (c :: rest) with
    | some (text, kind) => ⟨.token kind, text.length - 1⟩
    | none => ⟨.token (ofCharacter c), 0⟩

/-- A piece of a template, the first one or one that follows a substitution. -/
def template (first : Bool) (rest : List Char) : Lexeme :=
  let (n, ending) := Extent.template rest
  let kind : TokenKind := match ending with
    | .closed => if first then .templateLiteral else .templateTail
    | .substitution => if first then .templateHead else .templateMiddle
    | .unterminated => .fault .unterminatedTemplate
  ⟨.token kind, n⟩

/-- A form with an end, or the fault that the end is missing. -/
def bounded (kind : TokenKind) (missing : LexicalFault) (b : Extent.Bounded) : Lexeme :=
  ⟨.token (if b.closed then kind else .fault missing), b.length⟩

/-- A reserved word, a contextual word or an identifier. -/
def word (c : Char) (rest : List Char) : Lexeme :=
  let tail := rest.takeWhile Text.isNamePart
  ⟨.token (.ofWord (String.ofList (c :: tail))), tail.length⟩

/-- A token, which begins with `c` and is neither blank nor a comment. -/
def token (st : ScanState) (c : Char) (rest : List Char) : Lexeme :=
  if c == '"' || c == '\'' then
    bounded .stringLiteral .unterminatedString (Extent.string c rest)
  else if c == '\x60' then template true rest
  else if c == '}' && st.openings.head? == some .substitution then template false rest
  else if c.isDigit || (c == '.' && (rest.head?.any Char.isDigit)) then
    ⟨.token .numberLiteral, Extent.number (c :: rest) - 1⟩
  else if c == '/' && st.regexAllowed then
    bounded .regexLiteral .unterminatedRegex (Extent.regex rest)
  else if Text.isNameStart c then word c rest
  else punctuation c rest

/-- The next piece of a text that goes on with `c` and `rest`. -/
def next (st : ScanState) (c : Char) (rest : List Char) : Lexeme :=
  if Text.isBlank c then ⟨.blank, Extent.run Text.isBlank rest⟩
  else if c == '/' then
    match rest with
    | '/' :: _ => ⟨.comment .line, Extent.run (· != '\n') rest⟩
    | '*' :: body =>
      let b := Extent.blockComment body
      if b.closed then ⟨.comment .block, 1 + b.length⟩
      else ⟨.token (.fault .unterminatedComment), rest.length⟩
    | _ => token st c rest
  else token st c rest

end Lexeme

namespace ScanState

/-- What is open after a token. -/
def openingsAfter (openings : List Opening) : TokenKind → List Opening
  | .lbrace => .brace :: openings
  | .templateHead => .substitution :: openings
  | .rbrace | .templateTail => openings.tail
  | _ => openings

/-- The identifiers after which an expression begins. -/
def isExpressionWord (text : List Char) : Bool :=
  ["case", "do", "else", "in", "instanceof", "delete", "void", "throw", "yield", "await",
    "of"].contains (String.ofList text)

/-- Whether a slash after a token begins a regular expression: not after what can end an
expression. -/
def regexAllowedAfter (kind : TokenKind) (text : List Char) : Bool :=
  match kind with
  | .identifier => isExpressionWord text
  | .stringLiteral | .numberLiteral | .regexLiteral | .templateLiteral | .templateTail
  | .rparen | .rbracket | .rbrace => false
  | .operator => text != ['+', '+'] && text != ['-', '-']
  | kind => !kind.isContextual

/-- The state after a piece.  White space and comments leave it alone. -/
def after (st : ScanState) (p : Piece) : ScanState :=
  match p.kind with
  | .token kind => ⟨openingsAfter st.openings kind, regexAllowedAfter kind p.text⟩
  | _ => st

end ScanState

/-- Cuts a text into pieces. -/
def pieces (st : ScanState) : List Char → List Piece
  | [] => []
  | c :: rest =>
    let l := Lexeme.next st c rest
    let p : Piece := ⟨l.kind, c :: rest.take l.further⟩
    p :: pieces (st.after p) (rest.drop l.further)
termination_by cs => cs.length
decreasing_by simp only [List.length_drop, List.length_cons]; omega

/-- **Scanning is lossless.** -/
theorem flatten_pieces (st : ScanState) (cs : List Char) :
    ((pieces st cs).map Piece.text).flatten = cs := by
  fun_induction pieces st cs with
  | case1 => rfl
  | case2 st c rest l p ih => simp [p, ih]

/-- No piece is empty. -/
theorem text_ne_nil_of_mem_pieces {st : ScanState} {cs : List Char} {p : Piece}
    (h : p ∈ pieces st cs) : p.text ≠ [] := by
  fun_induction pieces st cs with
  | case1 => simp at h
  | case2 st c rest l q ih =>
    rcases List.mem_cons.1 h with h | h
    · simp [h, q]
    · exact ih h

end TypeScriptEngine
