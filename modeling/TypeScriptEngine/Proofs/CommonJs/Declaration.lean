import TypeScriptEngine.Emit.Import
import TypeScriptEngine.Emit.Specifier
import TypeScriptEngine.Proofs.CommonJs.Code
import TypeScriptEngine.Proofs.Grammar.Module

/-! # What imports and exports ask for

Import declarations and export lists, and what each of them asks for.  An import loads its module
once, and binds the default export, the module object and the values that it names; an export list
assigns the values that it names.  Entries that name types ask for nothing.  The statements for a
declaration (`Declaration.code`) do what it asks for and mention nothing else
(`Declaration.code_carries`), if the name that they may need for the module object is not one of the
names that the declaration binds.
-/

namespace TypeScriptEngine

/-- A string literal, as it is written. -/
def StringLiteral.written (s : StringLiteral) : String := String.ofList (Atom.string s).text

/-- The module that a string literal names. -/
def StringLiteral.specifier (s : StringLiteral) : String := (Atom.string s).toWord.value

namespace ModuleSyntax

open CommonJs
open Emit (Goal)

/-- A name that is not reserved. -/
structure LocalName where
  name : Name
  isName : name.atom.kind.isName = true

/-- An import declaration or an export list. -/
inductive Declaration where
  /-- `import default, … from "source";`, or `import "source";` where nothing is bound. -/
  | imports (default? : Option LocalName) (others? : Option Bindings) (source : StringLiteral)
  /-- `export { … };` and `export { … } from "source";` -/
  | exports (list : NamedList) (source? : Option StringLiteral)

/-! ## How declarations are written -/

/-- An atom of a declaration.  If it may not begin a line, then a line break before it ends the
declaration. -/
structure Slot where
  atom : Atom
  mayBreak : Bool

namespace Slot

def free (a : Atom) : Slot := ⟨a, true⟩

def tied (a : Atom) : Slot := ⟨a, false⟩

end Slot

/-- `from "source"`. -/
def fromSlots (source : StringLiteral) : List Slot :=
  [.tied Keyword.kwFrom.atom, .tied (.string source)]

def Bindings.slots : Bindings → List Slot
  | whole name => [.free (.sign .star), .free Keyword.kwAs.atom, .tied name.atom]
  | named list => list.atoms.map .free

namespace Declaration

/-- The word that a declaration begins with. -/
def keyword : Declaration → Keyword
  | imports .. => .kwImport
  | exports .. => .kwExport

/-- What stands between the first word and the semicolon. -/
def slots : Declaration → List Slot
  | imports none none source => [.free (.string source)]
  | imports (some n) none source => .free n.name.atom :: fromSlots source
  | imports none (some others) source => others.slots ++ fromSlots source
  | imports (some n) (some others) source =>
    .free n.name.atom :: .free (.sign .comma) :: (others.slots ++ fromSlots source)
  | exports list source? => list.atoms.map .free ++ source?.elim [] fromSlots

/-- A declaration without its semicolon. -/
def atoms (d : Declaration) : List Atom := d.keyword.atom :: d.slots.map Slot.atom

end Declaration

/-! ## What is asked for -/

def Name.text (n : Name) : String := String.ofList n.letters.text

/-- An entry of a list and the name that it is given. -/
def Specifier.pair (s : Specifier) : String × String := (s.name.text, (s.alias?.getD s.name).text)

/-- The entries that name values. -/
def NamedList.values (l : NamedList) : List (String × String) :=
  (l.specifiers.filter fun s => !s.typeOnly).map Specifier.pair

namespace Bindings

def values : Bindings → List (String × String)
  | whole _ => []
  | named list => list.values

/-- The name for the module object. -/
def whole? : Bindings → Option String
  | whole name => some name.text
  | named _ => none

end Bindings

/-- What an import binds. -/
def imported (default? : Option LocalName) (others? : Option Bindings) : Imported where
  default? := default?.map fun n => n.name.text
  whole? := others?.bind Bindings.whole?
  values := others?.elim [] Bindings.values

namespace Declaration

/-- The module that the declaration loads. -/
def source? : Declaration → Option StringLiteral
  | imports _ _ source => some source
  | exports _ source? => source?

/-- The names that the declaration binds, each with what it is bound to. -/
def bindings : Declaration → List (String × Value)
  | imports default? others? source =>
    (imported default? others?).bindings (.module source.written)
  | exports .. => []

/-- The properties of `exports` that the declaration assigns, each with its value. -/
def exported : Declaration → List (String × Value)
  | imports .. => []
  | exports list source? => exportedValues list.values (source?.map StringLiteral.written)

/-- The names of a declaration but for those of types. -/
def valueNames : Declaration → List String
  | imports default? others? _ => (imported default? others?).names
  | exports list _ => list.values.flatMap fun v => [v.1, v.2]

end Declaration

/-! ## Statements -/

namespace Declaration

/-- Whether the statements for a declaration need no name for the module object. -/
def isDirect (goal : Goal) : Declaration → Bool
  | imports default? others? _ => (imported default? others?).isDirect goal.destructuring
  | exports list source? => isDirectExport list.values (source?.map StringLiteral.written)

/-- The statements for a declaration, with a name for the module object. -/
def code (goal : Goal) (temporary : String) : Declaration → List Code
  | imports default? others? source =>
    (imported default? others?).code goal.destructuring source.written temporary
  | exports list source? => exportCode list.values (source?.map StringLiteral.written) temporary

/-- The name for the module object of a declaration, when a number of names have been generated. -/
def temporary (d : Declaration) (temporaries : Nat) : String :=
  Emit.temporaryName (d.source?.elim "" StringLiteral.specifier) (temporaries + 1)

end Declaration

/-- Statements do what a declaration asks for, with at most one more name, for the module object. -/
structure Carries (d : Declaration) (temporary? : Option String) (code : List Code) : Prop where
  /-- The module is loaded exactly once. -/
  required : (Code.run code).required = d.source?.toList.map StringLiteral.written
  /-- Each name is bound to its part of the module. -/
  bound : (Code.run code).bound = temporary?.toList.flatMap (fun n =>
    d.source?.toList.map fun source => (n, .module source.written)) ++ d.bindings
  /-- Each value is assigned to the property that it is exported as. -/
  exported : (Code.run code).exported = d.exported
  /-- Nothing but the values is mentioned. -/
  mentions : ∀ n ∈ code.flatMap Code.mentioned,
    n ∈ d.valueNames ∨ n = "default" ∨ n ∈ temporary?

/-- **The statements for a declaration do what it asks for,** if the declaration does not bind the
name for the module object. -/
theorem Declaration.code_carries (goal : Goal) (d : Declaration) {temporary : String}
    (hfresh : d.isDirect goal = false → temporary ∉ d.bindings.map Prod.fst) :
    Carries d (if d.isDirect goal then none else some temporary) (d.code goal temporary) := by
  have hmem : ∀ {b : Bool} {n : String}, n ∈ (if b then [] else [temporary]) →
      n ∈ if b then none else some temporary := by
    intro b n hn
    cases b with
    | true => contradiction
    | false => exact congrArg some (List.mem_singleton.mp hn).symm
  have hbound : ∀ (b : Bool) (source? : Option StringLiteral),
      (if b then [] else (source?.map StringLiteral.written).toList.map fun l => (temporary, Value.module l)) =
        (if b then none else some temporary).toList.flatMap fun n =>
          source?.toList.map fun source => (n, Value.module source.written) := by
    intro b source?
    cases b <;> cases source? <;> rfl
  cases d with
  | imports default? others? source =>
    have hrun := Imported.run_code hfresh
    refine ⟨congrArg Effects.required hrun, ?_, congrArg Effects.exported hrun, fun n hn => ?_⟩
    · exact (congrArg Effects.bound hrun).trans (congrArg (· ++ _) (hbound _ (some source)))
    · exact (Imported.mentioned_code n hn).imp_right (Or.imp_right hmem)
  | exports list source? =>
    have hrun := @run_exportCode list.values (source?.map StringLiteral.written) temporary
    refine ⟨(congrArg Effects.required hrun).trans ?_, ?_, congrArg Effects.exported hrun,
      fun n hn => ?_⟩
    · cases source? <;> rfl
    · exact ((congrArg Effects.bound hrun).trans (hbound _ source?)).trans (List.append_nil _).symm
    · exact (mentioned_exportCode n hn).imp_right fun hn => .inr (hmem hn)

end ModuleSyntax

end TypeScriptEngine
