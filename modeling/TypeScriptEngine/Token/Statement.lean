import TypeScriptEngine.Token.TypeExtent

/-!
# Statements

Where a statement starts and stops.  A statement ends at its semicolon, or at a line break if the
token before the break can end a statement and the token after it cannot go on with one.
-/

namespace TypeScriptEngine

/-- Whether a token can be the last one of an expression. -/
def Token.endsExpression (t : Token) : Bool :=
  t.kind.isName || match t.kind with
    | .stringLiteral | .numberLiteral | .regexLiteral | .templateLiteral | .templateTail
    | .rparen | .rbracket | .rbrace => true
    | .operator => t.value == "++" || t.value == "--"
    | _ => false

/-- Whether a token on a new line goes on with the expression of the line before. -/
def TokenKind.continuesExpression : TokenKind → Bool
  | .dot | .questionDot | .lparen | .lbracket | .operator | .arrow | .comma | .question | .colon
  | .equals | .pipe | .amp | .star | .lt | .gt | .kwAs | .kwSatisfies | .kwExtends
  | .kwImplements | .templateLiteral | .templateHead => true
  | _ => false

namespace TokenStream

/-- Whether a statement stops between a token and the stream after it, without a semicolon. -/
def breaksAfter (t : Token) (rest : TokenStream) : Bool :=
  headLineBefore rest && t.endsExpression && !(headKind rest).continuesExpression

/-- The number of open brackets after a token that does not end the statement. -/
def depthAfter (depth : Nat) (k : TokenKind) : Nat :=
  if k.isOpener then depth + 1 else if k.isCloser then depth - 1 else depth

/-- The tokens of the statement at the head of a stream, its semicolon included, after `depth`
brackets were opened in it.  A closing bracket that it did not open does not belong to it. -/
def statementLength (depth : Nat) : TokenStream → Nat
  | [] => 0
  | t :: rest =>
    if t.kind = .eof then 0
    else if t.kind.isCloser ∧ depth = 0 then 0
    else if t.kind = .semicolon ∧ depth = 0 then 1
    else if depthAfter depth t.kind = 0 ∧ breaksAfter t rest then 1
    else 1 + statementLength (depthAfter depth t.kind) rest

/-- The index just past the statement at `i`. -/
def pastStatement (ts : TokenStream) (i : Nat) : Nat := i + statementLength 0 (ts.drop i)

/-- Whether token `i` can be the last one of an expression. -/
def endsExpression (ts : TokenStream) (i : Nat) : Bool := (ts[i]?).elim false Token.endsExpression

/-- Whether token `i` begins a statement. -/
def startsStatement (ts : TokenStream) : Nat → Bool
  | 0 => true
  | i + 1 =>
    ts.kind i == .semicolon || ts.kind i == .lbrace || ts.kind i == .rbrace ||
      (ts.lineBefore (i + 1) && ts.endsExpression i)

/-- The words before a parenthesis that look like the name of a function and are none. -/
def isControlWord (word : String) : Bool :=
  ["if", "while", "for", "switch", "with", "catch", "return", "await", "typeof", "void", "delete",
    "in", "of", "instanceof"].contains word

/-- Whether the parenthesis at `i` follows the word `function`, with or without a name or a star in
between, or the word `catch`. -/
def followsFunctionWord (ts : TokenStream) : Nat → Bool
  | 0 => false
  | 1 => ts.kind 0 == .kwFunction || ts.isWord 0 "catch"
  | i + 2 =>
    ts.kind (i + 1) == .kwFunction || ts.isWord (i + 1) "catch" ||
      (ts.kind i == .kwFunction && ((ts.kind (i + 1)).isName || ts.kind (i + 1) == .star))

/-- Whether the token before `i` can be the name of a method, accessor or constructor, or close its
type parameters. -/
def followsMethodName (ts : TokenStream) : Nat → Bool
  | 0 => false
  | i + 1 => ((ts.kind i).isName || ts.kind i == .gt) && !isControlWord (ts.value i)

/-- Whether the parenthesis at `i` begins a parameter list, and not a call or a parenthesised
expression. -/
def isParameterList (ts : TokenStream) (i : Nat) : Bool :=
  match ts.matching? i with
  | none => false
  | some close =>
    let after := ts.pastAnnotationAt (close + 1)
    ts.followsFunctionWord i || ts.kind after == .arrow ||
      (ts.kind after == .lbrace && ts.followsMethodName i)

/-- Whether a stream holds an `import` or `export` of module level, after `depth` brackets were
opened and the token `previous`. -/
def hasModuleSyntax (previous : TokenKind) (depth : Nat) : TokenStream → Bool
  | [] => false
  | t :: rest =>
    if depth = 0 ∧ t.kind = .kwExport then true
    else if depth = 0 ∧ t.kind = .kwImport ∧ headKind rest ≠ .lparen ∧ headKind rest ≠ .dot ∧
        !previous.isDot then true
    else hasModuleSyntax t.kind (depthAfter depth t.kind) rest

/-- Whether a text is a module: one with an `import` or `export` outside all brackets. -/
def isModule (ts : TokenStream) : Bool := hasModuleSyntax .eof 0 ts

end TokenStream

end TypeScriptEngine
