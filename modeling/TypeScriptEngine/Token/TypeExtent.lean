import TypeScriptEngine.Token.Bracket

/-!
# The extent of a type

`typeLength` counts the tokens of the type at the head of a stream, and is zero where no type
begins.  A type is a union or intersection of operands, and may go on as a conditional type; an
operand is a primary type after type operators and before array or index brackets.  A bracket that
is not closed takes everything up to the end of the text.
-/

namespace TypeScriptEngine.TokenStream

/-- Whether a token is a type operator before the type that follows it. -/
def isTypeOperator (t : Token) (rest : TokenStream) : Bool :=
  match t.kind with
  | .kwKeyof | .kwReadonly | .kwNew => true
  | .kwAbstract => headKind rest == .kwNew
  | .identifier =>
    (t.value == "unique" || t.value == "infer" || t.value == "asserts") && (headKind rest).isName
  | _ => false

/-- The number of type operators at the head of a stream. -/
def typeOperators : TokenStream → Nat
  | [] => 0
  | t :: rest => if isTypeOperator t rest then typeOperators rest + 1 else 0

/-- The tokens of the members `.name` at the head of a stream. -/
def memberLength : TokenStream → Nat
  | dot :: name :: rest =>
    if dot.kind = .dot && name.kind.isName then memberLength rest + 2 else 0
  | _ => 0

/-- The tokens of a dotted name at the head of a stream. -/
def dottedLength : TokenStream → Nat
  | [] => 0
  | t :: rest => if t.kind.isName then memberLength rest + 1 else 0

/-- The tokens of a template up to and including its tail. -/
def templateLength (ts : TokenStream) : Nat :=
  (ts.takeWhile fun t => t.kind != .templateTail && t.kind != .eof).length + 1

/-- The tokens of array and index brackets at the head of a stream.  They must stand on the line of
the type that they belong to. -/
def indexLength (ts : TokenStream) : Nat :=
  match ts with
  | [] => 0
  | t :: rest =>
    if t.kind = .lbracket && !t.lineBefore then
      match bracketSpan? (t :: rest) with
      | some n => n + 1 + indexLength (rest.drop n)
      | none => rest.length
    else 0
termination_by ts.length
decreasing_by simp only [List.length_drop, List.length_cons]; omega

/-- Primary types of one token. -/
def isLiteralType : TokenKind → Bool
  | .stringLiteral | .numberLiteral | .templateLiteral => true
  | _ => false

/-- What follows a token behind the first `n` is shorter than the whole. -/
theorem length_lt_of_drop_eq_cons {ts : TokenStream} {n : Nat} {t : Token} {rest : TokenStream}
    (h : ts.drop n = t :: rest) : rest.length < ts.length := by
  have := congrArg List.length h
  simp only [List.length_drop, List.length_cons] at this
  omega

set_option linter.unusedVariables false in
mutual

/-- The number of tokens of the type at the head of a stream.  A leading bar or ampersand belongs to
it. -/
def typeLength (ts : TokenStream) : Nat :=
  match ts with
  | [] => 0
  | t :: rest =>
    if t.kind = .pipe ∨ t.kind = .amp then 1 + unionLength rest else unionLength (t :: rest)
termination_by (ts.length, 2)
decreasing_by
  · exact Prod.Lex.left _ _ (Nat.lt_succ_self _)
  · exact Prod.Lex.right _ (by decide)

/-- The tokens of operands joined by bars and ampersands, and of the conditional type that they may
begin. -/
def unionLength (ts : TokenStream) : Nat :=
  let n := operandLength ts
  if n = 0 then 0
  else match h : ts.drop n with
    | [] => n
    | t :: rest =>
      if t.kind = .pipe ∨ t.kind = .amp then n + 1 + unionLength rest
      else if t.kind = .kwExtends ∧ !t.lineBefore then n + 1 + conditionalLength rest
      else n
termination_by (ts.length, 1)
decreasing_by
  · exact Prod.Lex.right _ (by decide)
  all_goals exact Prod.Lex.left _ _ (length_lt_of_drop_eq_cons h)

/-- The tokens of a conditional type after its word `extends`: as many of the constraint, the two
marks and the two branches as there are. -/
def conditionalLength (ts : TokenStream) : Nat :=
  let n := typeLength ts
  match h : ts.drop n with
  | [] => n
  | mark :: rest =>
    if mark.kind = .question then
      let m := typeLength rest
      match h' : rest.drop m with
      | [] => n + 1 + m
      | mark :: rest => if mark.kind = .colon then n + 1 + m + 1 + typeLength rest else n + 1 + m
    else n
termination_by (ts.length, 3)
decreasing_by
  · exact Prod.Lex.right _ (by decide)
  · exact Prod.Lex.left _ _ (length_lt_of_drop_eq_cons h)
  · exact Prod.Lex.left _ _
      (Nat.lt_trans (length_lt_of_drop_eq_cons h') (length_lt_of_drop_eq_cons h))

/-- The tokens of one operand. -/
def operandLength (ts : TokenStream) : Nat :=
  let k := typeOperators ts
  match h : ts.drop k with
  | [] => 0
  | t :: rest =>
    if t.kind = .kwTypeof then
      let n := dottedLength rest
      k + 1 + n + indexLength (rest.drop n)
    else if t.kind = .lparen then
      match bracketSpan? (t :: rest) with
      | none => ts.length - 1
      | some n => k + 1 + n + arrowLength (rest.drop n)
    else if t.kind = .lt then
      match angleSpan? (t :: rest) with
      | none => 0
      | some n =>
        match bracketSpan? (rest.drop n) with
        | none => 0
        | some m => k + 1 + n + (m + 1) + arrowLength ((rest.drop n).drop (m + 1))
    else if t.kind = .lbrace ∨ t.kind = .lbracket then
      match bracketSpan? (t :: rest) with
      | none => ts.length - 1
      | some n => k + 1 + n + indexLength (rest.drop n)
    else if isLiteralType t.kind then k + 1 + indexLength rest
    else if t.kind = .templateHead then
      let n := templateLength (t :: rest)
      k + n + indexLength ((t :: rest).drop n)
    else if t.kind = .operator ∧ t.value = "-" ∧ headKind rest = .numberLiteral then
      k + 2 + indexLength (rest.drop 1)
    else if t.kind.isName then
      let n := dottedLength (t :: rest)
      let m := (angleSpan? ((t :: rest).drop n)).elim 0 (· + 1)
      k + n + m + predicateLength (rest.drop (n + m - 1))
    else 0
termination_by (ts.length, 0)
decreasing_by
  all_goals
    refine Prod.Lex.left _ _ ?_
    have := length_lt_of_drop_eq_cons h
    simp only [List.length_drop]
    omega

/-- The tokens after the parameters of a function type, or after a parenthesised type. -/
def arrowLength (ts : TokenStream) : Nat :=
  match ts with
  | [] => 0
  | t :: rest =>
    if t.kind = .arrow then 1 + typeLength rest else indexLength (t :: rest)
termination_by (ts.length, 0)
decreasing_by exact Prod.Lex.left _ _ (Nat.lt_succ_self _)

/-- The tokens after a type name: those of a type predicate, or of indices. -/
def predicateLength (ts : TokenStream) : Nat :=
  match ts with
  | [] => 0
  | t :: rest =>
    if t.kind = .identifier ∧ t.value = "is" ∧ !t.lineBefore then 1 + typeLength rest
    else indexLength (t :: rest)
termination_by (ts.length, 0)
decreasing_by exact Prod.Lex.left _ _ (Nat.lt_succ_self _)

end

/-- The index just past the type at `i`. -/
def pastType (ts : TokenStream) (i : Nat) : Nat := i + typeLength (ts.drop i)

/-- The index just past an annotation that begins at `i` with a colon, or `i` if there is none. -/
def pastAnnotationAt (ts : TokenStream) (i : Nat) : Nat :=
  if ts.kind i = .colon then ts.pastType (i + 1) else i

end TypeScriptEngine.TokenStream
