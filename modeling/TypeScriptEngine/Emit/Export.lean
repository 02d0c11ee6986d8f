import TypeScriptEngine.Binding
import TypeScriptEngine.Emit.Import
import TypeScriptEngine.Emit.Types

/-!
# Export declarations

What becomes of an `export` declaration.  Exported types and signatures without a body are erased.
With ES modules the rest stays, without the entries that name types; otherwise the word `export` is
removed, and assignments to `exports` follow the declaration or take its place.
-/

namespace TypeScriptEngine.Emit

open TokenStream

/-- An assignment that exports a value. -/
def exportAs (name value : String) : String := "exports." ++ name ++ " = " ++ value ++ ";"

/-- The end of an exported declaration that has no code, whatever the module system; `next` is the
index behind the word `export` at `i`. -/
def typeExportEnd? (ts : TokenStream) (i : Nat) : Option Nat :=
  let next := i + 1
  match ts.kind next with
  | .kwType =>
    if ts.kind (next + 1) = .lbrace ∨ ts.kind (next + 1) = .star then some (ts.pastStatement i)
    else if (ts.kind (next + 1)).isName then some (typeAliasEnd ts next)
    else none
  | .kwInterface => some (interfaceEnd ts (next + 1))
  | .kwDefault =>
    if ts.kind (next + 1) = .kwInterface then some (interfaceEnd ts (next + 2)) else none
  | .kwDeclare => some (ts.pastStatement i)
  | _ => none

/-- The word `function` at `k`, or behind the word `async` at `k`. -/
def functionWord? (ts : TokenStream) (k : Nat) : Option Nat :=
  if ts.kind k = .kwFunction then some k
  else if ts.kind k = .kwAsync ∧ ts.kind (k + 1) = .kwFunction then some (k + 1)
  else none

/-- The word `class` at `k`, or behind the word `abstract` at `k`. -/
def classWord? (ts : TokenStream) (k : Nat) : Option Nat :=
  if ts.kind k = .kwClass then some k
  else if ts.kind k = .kwAbstract ∧ ts.kind (k + 1) = .kwClass then some (k + 1)
  else none

/-- The index of the name of the function whose word is at `k`. -/
def functionName (ts : TokenStream) (k : Nat) : Nat :=
  if ts.kind (k + 1) = .star then k + 2 else k + 1

/-- The closing brace of the class whose word is at `k`. -/
def classClose? (ts : TokenStream) (k : Nat) : Option Nat :=
  (classBodyOpen? ts (k + 1)).bind ts.matching?

/-- The default export at `i`: a named function or class is exported behind its body, and any other
value is assigned. -/
def exportDefault (ts : TokenStream) (i : Nat) : List Change :=
  let value := i + 2
  let named := match functionWord? ts value with
    | some k => some (functionBodyClose? ts (k + 1), functionName ts k)
    | none => (classWord? ts value).map fun k => (classClose? ts k, k + 1)
  match named with
  | some (some close, name) =>
    if (ts.kind name).isName && ts.kind name != .kwImplements then
      [.erase i value, .insertAfter close (" " ++ exportAs "default" (ts.value name))]
    else [.replace i value "exports.default ="]
  | _ => [.replace i value "exports.default ="]

/-- The statements for an export list, with a generated name for the module object of its source.
The flag tells whether the name is needed. -/
def exportListStatements (goal : Goal) (ts : TokenStream) (names : List (String × String))
    (source? : Option Nat) (temporary : String) : String × Bool :=
  match source?, names with
  | none, _ => (" ".intercalate (names.map fun n => exportAs n.2 n.1), false)
  | some source, [] => (requireCall (ts.source source) ++ ";", false)
  | some source, _ =>
    let parts := declare goal temporary (requireCall (ts.source source)) ::
      names.map fun n => exportAs n.2 (temporary ++ "." ++ n.1)
    (" ".intercalate parts, true)

/-- The statement that exports all names of a module object but its default. -/
def exportAll (module : String) : String :=
  "Object.keys(" ++ module ++ ").forEach(function (k) \x7b if (k !== \"default\" && " ++
    "!Object.prototype.hasOwnProperty.call(exports, k)) exports[k] = " ++ module ++ "[k]; \x7d);"

/-- The export of everything at `i`, whose statement ends at `stop`. -/
def exportStar (goal : Goal) (ts : TokenStream) (temporaries i stop : Nat) : List Change :=
  let indices := (List.range (stop - (i + 1))).map (i + 1 + ·)
  match indices.find? fun k => ts.kind k == .stringLiteral with
  | none => [.claim i stop]
  | some source =>
    let call := requireCall (ts.source source)
    if ts.kind (i + 2) = .kwAs then
      [.replace i stop (exportAs (ts.value (i + 3)) call)]
    else
      let temporary := temporaryName (ts.value source) (temporaries + 1)
      [.useTemporary, .replace i stop (declare goal temporary call ++ " " ++ exportAll temporary)]

/-- The export list at `i`, whose statement ends at `stop`. -/
def exportList (goal : Goal) (ts : TokenStream) (temporaries i stop : Nat) : List Change :=
  let close := (ts.matching? (i + 1)).getD stop
  let source? := if ImportClause.isFromClause ts (close + 1) then some (close + 2) else none
  let names := Specifier.values ts (Specifier.list ts (i + 2) close)
  let specifier := source?.elim "" ts.value
  let (text, used) := exportListStatements goal ts names source?
    (temporaryName specifier (temporaries + 1))
  (if used then [.useTemporary] else []) ++ [.replace i stop text]

/-- The changes that export a declaration at `next` by an assignment behind token `close?`. -/
def exportBehind (ts : TokenStream) (i name : Nat) (close? : Option Nat) : List Change :=
  .erase i (i + 1) ::
    (close?.map fun close =>
      .insertAfter close (" " ++ exportAs (ts.value name) (ts.value name))).toList

/-- What becomes of an export without ES modules. -/
def exportCommonJs (goal : Goal) (ts : TokenStream) (temporaries i : Nat) : Step :=
  let next := i + 1
  match ts.kind next with
  | .kwConst | .kwLet | .kwVar =>
    let names := (Binding.ofStatement (ts.drop next)).map Binding.name
    let text := String.join (names.map fun name => " " ++ exportAs name name)
    ⟨[.erase i next, .insertAfter (ts.pastStatement next - 1) text], next⟩
  | .kwFunction | .kwAsync =>
    let k := (functionWord? ts next).getD next
    ⟨exportBehind ts i (functionName ts k) (functionBodyClose? ts (k + 1)), next⟩
  | .kwClass | .kwAbstract =>
    let k := if ts.kind next = .kwAbstract then next + 1 else next
    ⟨exportBehind ts i (k + 1) (classClose? ts k), next⟩
  | .kwDefault => ⟨exportDefault ts i, i + 2⟩
  | .equals => ⟨[.replace i (next + 1) "module.exports ="], next + 1⟩
  | .lbrace =>
    let stop := ts.pastStatement i
    ⟨exportList goal ts temporaries i stop, stop⟩
  | .star =>
    let stop := ts.pastStatement i
    ⟨exportStar goal ts temporaries i stop, stop⟩
  | _ => ⟨[.erase i next], next⟩

/-- What becomes of an export with ES modules. -/
def exportEsModule (ts : TokenStream) (i : Nat) : Step :=
  let next := i + 1
  let stop := ts.pastStatement i
  match ts.kind next with
  | .lbrace =>
    let close := (ts.matching? next).getD stop
    ⟨Specifier.eraseTypes (Specifier.list ts (next + 1) close) ++ [.claim i stop], stop⟩
  | .star => ⟨[.claim i stop], stop⟩
  | _ => ⟨[], next⟩

/-- What becomes of the export declaration at `i`, when `temporaries` names have been generated. -/
def exportDeclaration (goal : Goal) (ts : TokenStream) (temporaries i : Nat) : Step :=
  let erased? := (typeExportEnd? ts i).or ((functionWord? ts (i + 1)).bind (overloadEnd? ts))
  match erased? with
  | some stop => ⟨[.erase i stop], stop⟩
  | none =>
    if goal.commonJs then exportCommonJs goal ts temporaries i else exportEsModule ts i

end TypeScriptEngine.Emit
