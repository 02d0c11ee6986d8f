import TypeScriptEngine.Token.Statement

/-!
# Declared names

The names that the declarations of a file bind.  Declarators are read off the tokens: in a list of
declarators a name is what stands at its head or behind a comma, outside all brackets.  A script
adds its top-level names to the global scope; a module adds only what stands in its
`declare global` blocks.

The functions take the stream from some token on and a number of tokens in it.  Brackets are matched
in the whole stream.
-/

namespace TypeScriptEngine

open TokenStream (headKind bracketSpan? angleSpan? statementLength)

/-- A declared name and where it stands. -/
structure Binding where
  name : String
  span : Span
deriving DecidableEq, Repr

namespace Binding

/-- The name that a token binds. -/
def ofToken (t : Token) : Binding := ⟨t.value, t.span⟩

/-- The names that a list of declarators of `n` tokens binds.  Binding patterns are passed over. -/
def ofDeclarators (expectName : Bool) (n : Nat) (ts : TokenStream) : List Binding :=
  match n, ts with
  | 0, _ | _, [] => []
  | n + 1, t :: rest =>
    if t.kind.isOpener then
      match bracketSpan? (t :: rest) with
      | some c => ofDeclarators false (n - c) (rest.drop c)
      | none => []
    else if t.kind = .lt then
      let c := (angleSpan? (t :: rest)).getD 0
      ofDeclarators false (n - c) (rest.drop c)
    else if t.kind = .comma then ofDeclarators true n rest
    else if expectName && t.kind.isName then ofToken t :: ofDeclarators false n rest
    else ofDeclarators false n rest
termination_by ts.length
decreasing_by all_goals simp only [List.length_drop, List.length_cons]; omega

/-- The names that the variable statement at the head of a stream binds. -/
def ofStatement (ts : TokenStream) : List Binding :=
  ofDeclarators true (statementLength 0 ts - 1) (ts.drop 1)

/-- The name of a function or class declaration, from the token after its first word on. -/
def ofDeclaration? (word : TokenKind) : TokenStream → Option Binding
  | t :: rest =>
    if t.kind.isName then some (ofToken t)
    else if word = .kwFunction ∧ t.kind = .star ∧ (headKind rest).isName then
      rest.head?.map ofToken
    else none
  | [] => none

/-- Whether a stream begins with the words and the brace of a `declare global` block. -/
def isGlobalBlock (ts : TokenStream) : Bool :=
  ts.kind 0 == .kwDeclare && ts.kind 1 == .kwGlobal && ts.kind 2 == .lbrace

/-- The names bound directly in the first `n` tokens of a stream.  Brackets are passed over, except
for those of `declare global`; statements outside such a block count only if asked for. -/
def directlyIn (statements : Bool) (n : Nat) (ts : TokenStream) : List Binding :=
  match n, ts with
  | 0, _ | _, [] => []
  | n + 1, t :: rest =>
    if isGlobalBlock (t :: rest) then
      match bracketSpan? (rest.drop 1) with
      | some c =>
        directlyIn true (c - 1) (rest.drop 2) ++
          directlyIn statements (n - (c + 2)) (rest.drop (c + 2))
      | none => directlyIn true (n - 2) (rest.drop 2)
    else if t.kind.isOpener then
      match bracketSpan? (t :: rest) with
      | some c => directlyIn statements (n - c) (rest.drop c)
      | none => []
    else if statements && t.kind.isVariableWord then
      let length := min (statementLength 0 (t :: rest)) (n + 1)
      ofDeclarators true (length - 1) rest ++
        directlyIn statements (n - (length - 1)) (rest.drop (length - 1))
    else if statements && (t.kind == .kwFunction || t.kind == .kwClass) then
      (ofDeclaration? t.kind rest).toList ++ directlyIn statements n rest
    else directlyIn statements n rest
termination_by ts.length
decreasing_by all_goals simp only [List.length_drop, List.length_cons]; omega

/-- The names that a file adds to the global scope. -/
def globals (ts : TokenStream) : List String :=
  (directlyIn (!ts.isModule) ts.last ts).map Binding.name

end Binding

end TypeScriptEngine
