import TypeScriptEngine.Emit.Export

/-!
# Emitting a program

The walk over the tokens of a file.  Each token that no change has claimed is visited once, from
left to right; a visit proposes changes and tells where to go on.
-/

namespace TypeScriptEngine.Emit

open TokenStream

/-- The number of brackets that are open at token `i`. -/
def depthAt (ts : TokenStream) (i : Nat) : Nat :=
  (ts.take i).foldl (fun depth t => depthAfter depth t.kind) 0

/-- Erases the tokens from `i` up to `stop`. -/
def Step.erasing (i stop : Nat) : Step := ⟨[.erase i stop], stop⟩

/-- Proposes nothing more than the changes, and goes on with the token behind `i`. -/
def Step.proposing (changes : List Change) (i : Nat) : Step := ⟨changes, i + 1⟩

/-- What is proposed for the token at `i`. -/
def visit (goal : Goal) (ts : TokenStream) (d : Draft) (i : Nat) : Step :=
  let atStart := ts.startsStatement i
  let next := ts.kind (i + 1)
  let pass := Step.proposing [] i
  match ts.kind i with
  | .kwImport =>
    if atStart && depthAt ts i == 0 && next != .lparen && next != .dot then
      importDeclaration goal ts d.temporaries i
    else pass
  | .kwExport =>
    if atStart && depthAt ts i == 0 then exportDeclaration goal ts d.temporaries i else pass
  | .kwInterface =>
    if atStart && next.isName then .erasing i (interfaceEnd ts (i + 1)) else pass
  | .kwType =>
    if atStart && next.isName && (ts.kind (i + 2) == .equals || ts.kind (i + 2) == .lt) then
      .erasing i (typeAliasEnd ts i)
    else pass
  | .kwDeclare =>
    if atStart && !ts.lineBefore (i + 1) && startsDeclaration next then
      .erasing i (ts.pastStatement i)
    else pass
  | .kwAbstract => if next = .kwClass then .erasing i (i + 1) else pass
  | .kwFunction =>
    match overloadEnd? ts i with
    | some stop => if atStart then .erasing i stop else pass
    | none => pass
  | .kwClass => .proposing (classHeader ts i) i
  | .lbrace => if d.classBodies.contains i then .proposing (classBody ts i) i else pass
  | .lparen => if ts.isParameterList i then .proposing (parameters ts i) i else pass
  | .lt =>
    match typeArguments? ts i with
    | some stop => .erasing i stop
    | none => pass
  | .kwVar | .kwLet | .kwConst => .proposing (declarators ts i) i
  | .kwAs | .kwSatisfies =>
    if isTypeAssertion ts i then .erasing i (typeAssertionEnd ts i) else pass
  | .bang => if isNonNullAssertion ts i then .erasing i (i + 1) else pass
  | _ => pass

/-- The draft after the walk from token `i` on. -/
def walk (goal : Goal) (ts : TokenStream) (d : Draft) (i : Nat) : Draft :=
  if i < ts.last then
    if d.isClaimed i then walk goal ts d (i + 1)
    else
      let step := visit goal ts d i
      walk goal ts (d.applyAll ts step.changes) (max step.next (i + 1))
  else d
termination_by ts.last - i

/-- What marks the exports of a module as those of an ES module. -/
def moduleMarker : String :=
  "\"use strict\"; Object.defineProperty(exports, \"__esModule\", \x7b value: true \x7d); "

/-- The draft that the walk starts from. -/
def firstDraft (goal : Goal) (ts : TokenStream) : Draft :=
  let d := Draft.empty ts
  if goal.commonJs && ts.isModule then { d with edits := [⟨0, 0, moduleMarker.toList⟩] } else d

/-- **The code of a text**: the text without its types, in the form that the goal asks for. -/
def program (goal : Goal) (ts : TokenStream) (text : List Char) : List Char :=
  (walk goal ts (firstDraft goal ts) 0).finish text

end TypeScriptEngine.Emit
