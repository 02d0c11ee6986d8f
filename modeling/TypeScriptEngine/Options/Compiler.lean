import TypeScriptEngine.Options.Language
import TypeScriptEngine.Path.Normal

/-!
# Compiler options

Options are written in layers: an `OptionsPatch` sets some of them and leaves the others open.  The
layers are merged, the first one that sets an option wins (`OptionsPatch.or`), and what no layer
sets has a default (`CompilerOptions.resolve`).
-/

namespace TypeScriptEngine

/-- Compiler options as one layer writes them. -/
structure OptionsPatch where
  target : Option String := none
  module : Option String := none
  sourceMap : Option Bool := none
  outDir : Option String := none
  noLib : Option Bool := none
  jsx : Option String := none
  declaration : Option Bool := none
  composite : Option Bool := none
deriving DecidableEq, Repr, Inhabited

/-- The first layer, with its gaps filled by the second. -/
def OptionsPatch.or (p q : OptionsPatch) : OptionsPatch where
  target := p.target.or q.target
  module := p.module.or q.module
  sourceMap := p.sourceMap.or q.sourceMap
  outDir := p.outDir.or q.outDir
  noLib := p.noLib.or q.noLib
  jsx := p.jsx.or q.jsx
  declaration := p.declaration.or q.declaration
  composite := p.composite.or q.composite

/-- The empty layer changes nothing. -/
theorem OptionsPatch.or_empty (p : OptionsPatch) : p.or {} = p := by
  simp [OptionsPatch.or]

theorem OptionsPatch.or_assoc (p q r : OptionsPatch) : (p.or q).or r = p.or (q.or r) := by
  simp [OptionsPatch.or, Option.or_assoc]

/-- An option whose value is no name of that option. -/
structure UnknownOptionValue where
  option : String
  value : String
deriving DecidableEq, Repr

/-- The wording of the error. -/
def UnknownOptionValue.message (e : UnknownOptionValue) : String :=
  "unknown compilerOptions." ++ e.option ++ " '" ++ e.value ++ "'"

/-- The options of a compilation. -/
structure CompilerOptions where
  target : ScriptTarget := .es5
  module : ModuleKind := .commonJs
  sourceMap : Bool := false
  outDir : Option Path := none
  noLib : Bool := false
  jsx : Option JsxMode := none
  declaration : Bool := false
  composite : Bool := false
deriving Repr, Inhabited

namespace CompilerOptions

/-- Reads an option that is chosen by name; the default stands if it is not set. -/
def readName {α : Type} (option : String) (ofName? : String → Option α) (default : α) :
    Option String → Except UnknownOptionValue α
  | none => .ok default
  | some raw => match ofName? raw with
    | some value => .ok value
    | none => .error ⟨option, raw⟩

/-- The options of two layers, the first of which wins.  A relative output directory is taken from
the base directory, and a composite project emits declarations unless it is told not to. -/
def resolve (query project : OptionsPatch) (base : Path) :
    Except UnknownOptionValue CompilerOptions := do
  let merged := query.or project
  let target ← readName "target" ScriptTarget.ofName? .es5 merged.target
  let module ← readName "module" ModuleKind.ofName? .commonJs merged.module
  let jsx ← readName "jsx" (fun raw => (JsxMode.ofName? raw).map some) none merged.jsx
  let composite := merged.composite.getD false
  return {
    target, module, jsx, composite
    sourceMap := merged.sourceMap.getD false
    noLib := merged.noLib.getD false
    declaration := merged.declaration.getD composite
    outDir := merged.outDir.map fun dir => base.join ⟨dir⟩ }

/-- The extension of the emitted file of an input. -/
def outputExtension (options : CompilerOptions) (name : String) : String :=
  if name.endsWith ".tsx" && options.jsx == some .preserve then "jsx" else "js"

/-- Where the code of an input is written: at the place under the output directory that the input
has under the project directory.  Without an output directory it lies beside the input. -/
def outputPath (options : CompilerOptions) (input project : Path) : Path :=
  let relative := Path.relativeTo project input.normalize
  let output := ((options.outDir.getD project).join relative).normalize
  if output.text.endsWith ".json" then output
  else output.withExtension (options.outputExtension output.text)

end CompilerOptions

end TypeScriptEngine
