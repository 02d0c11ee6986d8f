import TypeScriptEngine.Binding
import TypeScriptEngine.Check.Finding

/-!
# Scopes and redeclarations

Block-scoped names, collected for each pair of braces.  A name that a scope declares more than once
is redeclared at each of its places; so is a top-level name of a script that another file of the
global scope declares.
-/

namespace TypeScriptEngine.Check

open TokenStream (headKind)

/-- The region of a pair of braces, or of the whole file. -/
structure Scope where
  topLevel : Bool
  /-- The names declared with `let` and `const`, in source order. -/
  names : List Binding
  /-- How many parentheses and square brackets are open in it. -/
  nesting : Nat
deriving DecidableEq, Repr

/-- The scopes of a stream, given the innermost open scope and those around it.  A scope comes where
it is closed; those that are never closed come last, the outermost first.  Declarations in
parentheses do not belong to any scope. -/
def scopesFrom (current : Scope) (around : List Scope) : TokenStream → List Scope
  | [] => (current :: around).reverse
  | t :: rest =>
    match t.kind with
    | .lbrace => scopesFrom ⟨false, [], 0⟩ (current :: around) rest
    | .rbrace =>
      match around with
      | [] => scopesFrom current [] rest
      | outer :: around => current :: scopesFrom outer around rest
    | .lparen | .lbracket => scopesFrom { current with nesting := current.nesting + 1 } around rest
    | .rparen | .rbracket => scopesFrom { current with nesting := current.nesting - 1 } around rest
    | .kwLet | .kwConst =>
      if (headKind rest).isName ∧ current.nesting = 0 then
        let names := current.names ++ Binding.ofStatement (t :: rest)
        scopesFrom { current with names := names } around rest
      else scopesFrom current around rest
    | _ => scopesFrom current around rest

/-- The scopes of a file. -/
def scopes (ts : TokenStream) : List Scope := scopesFrom ⟨true, [], 0⟩ [] ts

/-- The declarations of a scope that are redeclarations, from left to right. -/
def Scope.redeclared (s : Scope) (isAmbient : String → Bool) : List Binding :=
  let isRedeclared (b : Binding) : Bool :=
    1 < (s.names.filter fun c => c.name == b.name).length || (s.topLevel && isAmbient b.name)
  (s.names.filter isRedeclared).mergeSort fun b c => b.span.start ≤ c.span.start

/-- The redeclarations in a file.  Names from other files count in scripts only. -/
def redeclarations (ts : TokenStream) (isAmbient : String → Bool) : List Finding :=
  let isAmbient := if ts.isModule then fun _ => false else isAmbient
  (scopes ts).flatMap fun s =>
    (s.redeclared isAmbient).map fun b => ⟨.redeclared b.name, b.span⟩

end TypeScriptEngine.Check
