import TypeScriptEngine.Emit.Specifier
import TypeScriptEngine.Options.Language

/-!
# Import declarations

What becomes of an `import` declaration.  One of types only is erased.  With ES modules the others
stay, without the entries that name types; otherwise the declaration becomes a call of `require`
whose result is bound to the imported names.
-/

/-! ## What is emitted

The settings of a compilation that the emitter looks at.
-/

namespace TypeScriptEngine.Emit

/-- The form of the emitted code. -/
structure Goal where
  /-- Whether module statements become calls of `require` and assignments to `exports`. -/
  commonJs : Bool
  /-- The word that declares generated names. -/
  declarator : String
  /-- Whether declarations may take an object apart. -/
  destructuring : Bool
deriving DecidableEq, Repr

/-- The form that a module system and a language level ask for. -/
def Goal.of (module : ModuleKind) (target : ScriptTarget) : Goal where
  commonJs := !module.isEsModule
  declarator := if target.isLegacy then "var" else "const"
  destructuring := !target.isLegacy

/-! ## Declarations -/

open TokenStream

/-- What is proposed for a construct, and the index behind it. -/
structure Step where
  changes : List Change
  next : Nat
deriving DecidableEq, Repr

/-- The parts of an import declaration, by token indices. -/
structure ImportClause where
  /-- The name for the default export. -/
  default? : Option Nat
  /-- The name for the whole module. -/
  whole? : Option Nat
  specifiers : List Specifier
  /-- The string literal that names the module. -/
  source? : Option Nat
deriving DecidableEq, Repr

namespace ImportClause

/-- Whether `from` and a string literal stand at `k`. -/
def isFromClause (ts : TokenStream) (k : Nat) : Bool :=
  ts.kind k == .kwFrom && ts.kind (k + 1) == .stringLiteral

/-- The parts of the declaration that goes on at `k`, behind the word `import`, and ends at
`stop`. -/
def read (ts : TokenStream) (k stop : Nat) : ImportClause :=
  if ts.kind k = .stringLiteral then ⟨none, none, [], some k⟩
  else
    let (default?, k) :=
      if (ts.kind k).isName && !isFromClause ts k then
        (some k, if ts.kind (k + 1) = .comma then k + 2 else k + 1)
      else (none, k)
    let (whole?, k) :=
      if ts.kind k = .star ∧ ts.kind (k + 1) = .kwAs then (some (k + 2), k + 3) else (none, k)
    let (specifiers, k) :=
      if ts.kind k = .lbrace then
        let close := (ts.matching? k).getD stop
        (Specifier.list ts (k + 1) close, close + 1)
      else ([], k)
    ⟨default?, whole?, specifiers, if isFromClause ts k then some (k + 1) else none⟩

end ImportClause

/-- A call that loads a module. -/
def requireCall (source : String) : String := "require(" ++ source ++ ")"

/-- A declaration of a name. -/
def declare (goal : Goal) (name value : String) : String :=
  goal.declarator ++ " " ++ name ++ " = " ++ value ++ ";"

/-- A declaration that takes the given names off a module object. -/
def destructure (goal : Goal) (names : List (String × String)) (module : String) : String :=
  if goal.destructuring then
    let field (n : String × String) := if n.1 = n.2 then n.1 else n.1 ++ ": " ++ n.2
    declare goal ("\x7b " ++ ", ".intercalate (names.map field) ++ " \x7d") module
  else
    let binding (n : String × String) := n.2 ++ " = " ++ module ++ "." ++ n.1
    goal.declarator ++ " " ++ ", ".intercalate (names.map binding) ++ ";"

/-- The statements that bind the names of an import, with a generated name for the module object.
Most imports do not need it; the flag tells whether this one does. -/
def requireStatements (goal : Goal) (ts : TokenStream) (clause : ImportClause) (source : Nat)
    (temporary : String) : String × Bool :=
  let call := requireCall (ts.source source)
  let names := Specifier.values ts clause.specifiers
  match clause.default?, clause.whole?, names with
  | none, none, [] => (call ++ ";", false)
  | some name, none, [] => (declare goal (ts.value name) (call ++ ".default"), false)
  | none, some name, [] => (declare goal (ts.value name) call, false)
  | default?, whole?, names =>
    if default?.isNone && whole?.isNone && goal.destructuring then
      (destructure goal names call, false)
    else
      let parts :=
        [declare goal temporary call] ++
        (default?.map fun name => declare goal (ts.value name) (temporary ++ ".default")).toList ++
        (whole?.map fun name => declare goal (ts.value name) temporary).toList ++
        (if names.isEmpty then [] else [destructure goal names temporary])
      (" ".intercalate parts, true)

/-- Whether the import declaration that goes on at `k` is one of types: the word `type` stands
there, and is not the name that is imported. -/
def isTypeImport (ts : TokenStream) (k : Nat) : Bool :=
  ts.kind k == .kwType && !ImportClause.isFromClause ts (k + 1) &&
    ts.kind (k + 1) != .comma && ts.kind (k + 1) != .equals

/-- The changes for an import that gives a name to a module or to a part of a namespace, with an
equals sign. -/
def importEquals (goal : Goal) (ts : TokenStream) (i stop : Nat) : List Change :=
  let isRequire := ts.kind (i + 3) == .kwRequire && ts.kind (i + 4) == .lparen &&
    ts.kind (i + 5) == .stringLiteral
  if goal.commonJs && isRequire then
    [.replace i stop (declare goal (ts.value (i + 1)) (requireCall (ts.source (i + 5))))]
  else [.replace i (i + 1) goal.declarator, .claim i (i + 3)]

/-- What becomes of the import declaration at `i`, when `temporaries` names have been generated. -/
def importDeclaration (goal : Goal) (ts : TokenStream) (temporaries i : Nat) : Step :=
  let stop := ts.pastStatement i
  let changes : List Change :=
    if isTypeImport ts (i + 1) then [.erase i stop]
    else if (ts.kind (i + 1)).isName && ts.kind (i + 2) == .equals then
      importEquals goal ts i stop
    else
      let clause := ImportClause.read ts (i + 1) stop
      match clause.source?, goal.commonJs with
      | some source, true =>
        let temporary := temporaryName (ts.value source) (temporaries + 1)
        let (text, used) := requireStatements goal ts clause source temporary
        (if used then [.useTemporary] else []) ++ [.replace i stop text]
      | none, true => [.claim i stop]
      | _, false => Specifier.eraseTypes clause.specifiers ++ [.claim i stop]
  ⟨changes, stop⟩

end TypeScriptEngine.Emit
