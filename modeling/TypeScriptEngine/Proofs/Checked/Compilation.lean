import TypeScriptEngine.Check.Brackets
import TypeScriptEngine.Proofs.Checked.Declarations
import TypeScriptEngine.Proofs.Checked.Emission
import TypeScriptEngine.Proofs.Checked.Erasability
import TypeScriptEngine.Proofs.Checked.References
import TypeScriptEngine.Proofs.Checked.TypeExtent

/-! # Compilation

The checked forms, put together: a text is scanned, its references are read off, it is checked and
its code is emitted.  No text makes any of that fail (`compiles_without_fault`).

The check for brackets has no checked form of its own, as it uses none of the operations that can
fail: it goes over the tokens once, and the stack that it keeps answers that it is empty where
nothing is left to take from it.
-/

namespace TypeScriptEngine.Checked

open Check

/-- Looking around in a stream meets no fault. -/
structure Navigates (ts : TokenStream) : Prop where
  matching : ∀ i, matching? ts i = .ok (ts.matching? i)
  matchingAngle : ∀ i, matchingAngle? ts i = .ok (ts.matchingAngle? i)
  type : ∀ i, pastType ts i = .ok (ts.pastType i)
  statement : ∀ i, pastStatement ts i = .ok (ts.pastStatement i)
  statementStart : ∀ i, startsStatement ts i = .ok (ts.startsStatement i)
  parameterList : ∀ i, isParameterList ts i = .ok (ts.isParameterList i)
  dot : ∀ i, followsDot ts i = .ok (ts.followsDot i)
  module : isModule ts = .ok ts.isModule

/-- **No stream and no index makes the functions that look around fail.** -/
theorem navigates (ts : TokenStream) : Navigates ts where
  matching := matching?_eq ts
  matchingAngle := matchingAngle?_eq ts
  type := pastType_eq ts
  statement := pastStatement_eq ts
  statementStart := startsStatement_eq ts
  parameterList := isParameterList_eq ts
  dot := followsDot_eq ts
  module := isModule_eq ts

/-- What a compilation computes for a text. -/
structure Compilation where
  scan : Scan
  references : FileReferences
  /-- What is wrong with its brackets and tokens. -/
  syntactic : List Finding
  /-- The redeclared names and the syntax that cannot be erased. -/
  semantic : List Finding
  code : List Char

/-- Compiles a text, a declaration file or one with code.  Names that other files add to the global
scope count as ambient. -/
def compile (module : ModuleKind) (target : ScriptTarget) (isDeclaration : Bool)
    (isAmbient : String → Bool) (text : String) : Checked Compilation := do
  let scan ← scan text
  let references ← references text
  let redeclared ← redeclarations scan.tokens isAmbient
  let fixed ← if isDeclaration then pure [] else erasability scan.tokens
  let code ← program (.of module target) scan.tokens text.toList
  return ⟨scan, references, syntactic scan.tokens, redeclared ++ fixed, code⟩

/-- **Compiling a text meets no fault,** and yields what the definitions say.  Nor is there a fault
where the compilation looks around in the tokens, whatever index it starts from. -/
theorem compiles_without_fault (module : ModuleKind) (target : ScriptTarget)
    (isDeclaration : Bool) (isAmbient : String → Bool) (text : String) :
    let ts : TokenStream := (Scan.ofText text).tokens
    compile module target isDeclaration isAmbient text = .ok
      { scan := Scan.ofText text
        references := FileReferences.ofText text
        syntactic := Check.syntactic ts
        semantic := Check.redeclarations ts isAmbient ++
          if isDeclaration then [] else Check.erasability ts
        code := Emit.program (.of module target) ts text.toList } ∧
    Navigates ts ∧ ∀ i, lineBefore text.toList ts i = .ok (ts.lineBefore i) := by
  refine ⟨?_, navigates _, lineBefore_eq text⟩
  rw [compile, scan_eq, ok_bind, references_eq, ok_bind, redeclarations_eq, ok_bind, erasability_eq]
  cases isDeclaration with
  | true =>
    rw [if_pos rfl, pure_eq_ok, ok_bind, program_eq]
    rfl
  | false =>
    rw [if_neg Bool.false_ne_true, ok_bind, program_eq]
    rfl

end TypeScriptEngine.Checked
