import TypeScriptEngine.Emit.Draft

/-!
# Specifiers

The entries between the braces of an import or export list, and the names that they pair.
-/

namespace TypeScriptEngine.Emit

open TokenStream

/-- An entry of an import or export list, by token indices. -/
structure Specifier where
  /-- Its first token. -/
  first : Nat
  /-- The index behind it and its comma. -/
  stop : Nat
  name : Nat
  alias? : Option Nat
  /-- Whether it names a type. -/
  typeOnly : Bool
deriving DecidableEq, Repr

namespace Specifier

/-- The index of the next comma from `k` on, or `close`. -/
def nextComma (ts : TokenStream) (k close : Nat) : Nat :=
  if k < close ∧ ts.kind k ≠ .comma then nextComma ts (k + 1) close else k
termination_by close - k

theorem le_nextComma (ts : TokenStream) (k close : Nat) : k ≤ nextComma ts k close := by
  fun_induction nextComma ts k close <;> omega

/-- The entry that reaches from `first` to `stop`.  The word `type` marks a type, unless it is the
name itself: alone, or in `type as x`. -/
def ofRange (ts : TokenStream) (first stop close : Nat) : Specifier :=
  let length := stop - first
  let typeOnly := ts.kind first == .kwType && 2 ≤ length &&
    !(length == 3 && ts.kind (first + 1) == .kwAs)
  let name := if typeOnly then first + 1 else first
  { first, name, typeOnly
    stop := if stop < close then stop + 1 else stop
    alias? := if ts.kind (name + 1) = .kwAs ∧ name + 2 < stop then some (name + 2) else none }

/-- The entries from `first` on, in a list closed at `close`. -/
def list (ts : TokenStream) (first close : Nat) : List Specifier :=
  if first < close then
    let stop := nextComma ts first close
    let rest := list ts (stop + 1) close
    if first < stop then ofRange ts first stop close :: rest else rest
  else []
termination_by close - first
decreasing_by have := le_nextComma ts first close; omega

/-- The erasure of the entries that name types. -/
def eraseTypes (specifiers : List Specifier) : List Change :=
  (specifiers.filter (·.typeOnly)).map fun s => .erase s.first s.stop

/-- The name of each entry that names a value, with the name that it is given. -/
def values (ts : TokenStream) (specifiers : List Specifier) : List (String × String) :=
  (specifiers.filter fun s => !s.typeOnly).map fun s =>
    (ts.value s.name, ts.value (s.alias?.getD s.name))

end Specifier

/-! ## Generated names -/

/-- Whether a character may stand in a generated name. -/
def isPlainNamePart (c : Char) : Bool := c.isAlphanum || c == '_' || c == '$'

/-- The readable part of a name generated for a module: what its specifier says behind the last
slash and before the first dot, as far as a name can hold it. -/
def moduleNameStem (specifier : String) : String :=
  let file := (specifier.toList.reverse.takeWhile (· != '/')).reverse
  let cs := (file.takeWhile (· != '.')).map fun c => if isPlainNamePart c then c else '_'
  if cs = [] ∨ cs.head?.any Char.isDigit then String.ofList ('_' :: cs) else String.ofList cs

/-- The `n`th generated name, for a module. -/
def temporaryName (specifier : String) (n : Nat) : String :=
  moduleNameStem specifier ++ "_" ++ toString n

end TypeScriptEngine.Emit
