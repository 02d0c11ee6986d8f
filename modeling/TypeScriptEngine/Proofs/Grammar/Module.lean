import TypeScriptEngine.Proofs.Token.Rendered

/-! # Module syntax

Trees for the statements that make up the module syntax of a file, and the atoms that each is
written with.  The words that give a statement its form, `import` and `export` apart, are names as
well, so that `type`, `as`, `from` and `require` may stand wherever a name does.
-/

namespace TypeScriptEngine

theorem Escape.decode_of_not_mem {cs : List Char} (h : '\\' ∉ cs) : decode cs = cs := by
  induction cs with
  | nil => rw [decode]
  | cons c cs ih =>
    rw [List.mem_cons, not_or] at h
    have hc : c ≠ '\\' := h.1 ∘ Eq.symm
    rw [decode, ih h.2]
    all_goals
      intros
      contradiction

namespace ModuleSyntax

/-! ## Trees -/

/-- A word other than `import` and `export`. -/
structure Name where
  letters : Letters
  ne_import : String.ofList letters.text ≠ "import"
  ne_export : String.ofList letters.text ≠ "export"

/-- The name that a text is. -/
def Name.ofText (text : List Char) (hhead : text.head?.any Text.isNameStart = true := by decide)
    (htail : text.tail.all Text.isNamePart = true := by decide)
    (himport : String.ofList text ≠ "import" := by decide)
    (hexport : String.ofList text ≠ "export" := by decide) : Name :=
  ⟨⟨text, hhead, htail⟩, himport, hexport⟩

/-- The string literal that names a module, without backslashes. -/
structure Source where
  literal : StringLiteral
  noEscape : '\\' ∉ literal.text

/-- The source that a text names, in single quotes. -/
def Source.ofText (text : List Char)
    (hplain : text.all (fun c => c != '\'' && c != '\\' && c != '\n') = true := by decide) :
    Source :=
  ⟨⟨'\'', text, .inr rfl, quotable_of_plain hplain⟩, fun h => by
    have hc := List.all_eq_true.mp hplain _ h
    contradiction⟩

/-- An entry of an import or export list: a name that may be given another one, and may be marked as
that of a type. -/
structure Specifier where
  typeOnly : Bool
  name : Name
  alias? : Option Name

/-- The entries between braces; a comma may follow the last one. -/
structure NamedList where
  specifiers : List Specifier
  trailingComma : Bool

/-- What an import binds besides a default. -/
inductive Bindings where
  | whole (name : Name)
  | named (list : NamedList)

/-- What an import binds. -/
inductive Clause where
  | default (name : Name)
  | only (bindings : Bindings)
  | both (name : Name) (bindings : Bindings)

/-- A statement that ends in a semicolon. -/
inductive Statement where
  /-- `import … from "source";` and `import type … from "source";` -/
  | importFrom (typeOnly : Bool) (clause : Clause) (source : Source)
  /-- `import "source";` -/
  | importOnly (source : Source)
  /-- `import name = require("source");` -/
  | importRequire (name : Name) (source : Source)
  /-- `import("source");` -/
  | importCall (source : Source)
  /-- `export * from "source";` and `export * as name from "source";` -/
  | exportAll (alias? : Option Name) (source : Source)
  /-- `export { … } from "source";` and `export type { … } from "source";` -/
  | exportFrom (typeOnly : Bool) (list : NamedList) (source : Source)
  /-- `export { … };` and `export type { … };` -/
  | exportList (typeOnly : Bool) (list : NamedList)
  /-- `export const name = 1;` -/
  | exportConst (name : Name) (value : Digits)
  /-- `object.import("text");` -/
  | memberImport (object : Name) (argument : StringLiteral)
  /-- `import.meta.url;` -/
  | importMeta
  /-- `"text";` -/
  | text (literal : StringLiteral)

/-! ## Atoms -/

/-- The words that give a statement its form. -/
inductive Keyword where
  | kwImport | kwExport | kwFrom | kwAs | kwType | kwRequire | kwConst | metaName | urlName

namespace Keyword

def text : Keyword → List Char
  | kwImport => "import".toList
  | kwExport => "export".toList
  | kwFrom => "from".toList
  | kwAs => "as".toList
  | kwType => "type".toList
  | kwRequire => "require".toList
  | kwConst => "const".toList
  | metaName => "meta".toList
  | urlName => "url".toList

theorem starts (k : Keyword) : k.text.head?.any Text.isNameStart = true := by
  cases k <;> decide

theorem goesOn (k : Keyword) : k.text.tail.all Text.isNamePart = true := by
  cases k <;> decide

def letters (k : Keyword) : Letters := ⟨k.text, k.starts, k.goesOn⟩

@[simp] def kind : Keyword → TokenKind
  | kwImport => .kwImport
  | kwExport => .kwExport
  | kwFrom => .kwFrom
  | kwAs => .kwAs
  | kwType => .kwType
  | kwRequire => .kwRequire
  | kwConst => .kwConst
  | metaName => .identifier
  | urlName => .identifier

def atom (k : Keyword) : Atom := .word k.letters

end Keyword

def Name.atom (n : Name) : Atom := .word n.letters

def Source.atom (s : Source) : Atom := .string s.literal

@[simp] theorem Source.kind_atom (s : Source) : s.atom.kind = .stringLiteral := rfl

/-- The mark of a type. -/
def typeMark (typeOnly : Bool) : List Atom := if typeOnly then [Keyword.kwType.atom] else []

/-- `as name`. -/
def aliasAtoms : Option Name → List Atom
  | none => []
  | some name => [Keyword.kwAs.atom, name.atom]

/-- `from "source"`. -/
def fromClause (source : Source) : List Atom := [Keyword.kwFrom.atom, source.atom]

def Specifier.atoms (s : Specifier) : List Atom :=
  typeMark s.typeOnly ++ s.name.atom :: aliasAtoms s.alias?

namespace NamedList

/-- What stands between the braces. -/
def inner (l : NamedList) : List Atom :=
  [.sign .comma].intercalate (l.specifiers.map Specifier.atoms) ++
    if l.trailingComma then [.sign .comma] else []

def atoms (l : NamedList) : List Atom := .sign .lbrace :: (l.inner ++ [.sign .rbrace])

end NamedList

def Bindings.atoms : Bindings → List Atom
  | .whole name => .sign .star :: aliasAtoms (some name)
  | .named list => list.atoms

def Clause.atoms : Clause → List Atom
  | .default name => [name.atom]
  | .only bindings => bindings.atoms
  | .both name bindings => name.atom :: .sign .comma :: bindings.atoms

namespace Statement

/-- A statement without its semicolon. -/
def body : Statement → List Atom
  | importFrom typeOnly clause source =>
    Keyword.kwImport.atom :: (typeMark typeOnly ++ clause.atoms ++ fromClause source)
  | importOnly source => [Keyword.kwImport.atom, source.atom]
  | importRequire name source =>
    [Keyword.kwImport.atom, name.atom, .sign .equals, Keyword.kwRequire.atom, .sign .lparen,
      source.atom, .sign .rparen]
  | importCall source => [Keyword.kwImport.atom, .sign .lparen, source.atom, .sign .rparen]
  | exportAll alias? source =>
    Keyword.kwExport.atom :: .sign .star :: (aliasAtoms alias? ++ fromClause source)
  | exportFrom typeOnly list source =>
    Keyword.kwExport.atom :: (typeMark typeOnly ++ list.atoms ++ fromClause source)
  | exportList typeOnly list => Keyword.kwExport.atom :: (typeMark typeOnly ++ list.atoms)
  | exportConst name value =>
    [Keyword.kwExport.atom, Keyword.kwConst.atom, name.atom, .sign .equals, .number value]
  | memberImport object argument =>
    [object.atom, .sign .dot, Keyword.kwImport.atom, .sign .lparen, .string argument,
      .sign .rparen]
  | importMeta =>
    [Keyword.kwImport.atom, .sign .dot, Keyword.metaName.atom, .sign .dot, Keyword.urlName.atom]
  | text literal => [.string literal]

def atoms (s : Statement) : List Atom := s.body ++ [.sign .semicolon]

/-- The module that a statement refers to. -/
def source? : Statement → Option Source
  | importFrom _ _ source | importOnly source | importRequire _ source | importCall source
  | exportAll _ source | exportFrom _ _ source => some source
  | exportList .. | exportConst .. | memberImport .. | importMeta | text .. => none

end Statement

/-! ## Kinds of words -/

theorem Name.kind_ne_import (n : Name) : n.atom.kind ≠ .kwImport := fun h =>
  n.ne_import (TokenKind.eq_import_of_ofWord h)

theorem Name.kind_ne_export (n : Name) : n.atom.kind ≠ .kwExport := fun h =>
  n.ne_export (TokenKind.eq_of_ofWord h (by decide) (by decide))

/-- The kinds of token that name what is imported or exported: all but those that a search for the
source of a statement stops at. -/
def isClauseKind (k : TokenKind) : Bool :=
  match k with
  | .kwImport | .kwExport | .lparen | .dot | .equals | .semicolon | .eof | .stringLiteral => false
  | _ => true

/-- The kinds of token between the braces of a list. -/
def isListKind (k : TokenKind) : Bool := isClauseKind k && k != .lbrace && k != .rbrace

theorem isListKind_name (n : Name) : isListKind n.atom.kind = true := by
  have hall : ∀ word, ¬ (TokenKind.ofWord word = .kwImport ∨ TokenKind.ofWord word = .kwExport) →
      isListKind (.ofWord word) = true :=
    @TokenKind.ofWord_all (fun k => ¬ (k = .kwImport ∨ k = .kwExport) → isListKind k = true)
      (by decide) (by decide)
  exact hall _ (not_or.mpr ⟨n.kind_ne_import, n.kind_ne_export⟩)

/-- The kinds of token that begin no reference. -/
def isQuiet (k : TokenKind) : Bool := k != .kwImport && k != .kwExport

theorem isClauseKind_of_isListKind {k : TokenKind} (h : isListKind k = true) :
    isClauseKind k = true := by
  simp only [isListKind, Bool.and_eq_true] at h
  exact h.1.1

theorem isQuiet_of_isClauseKind {k : TokenKind} (h : isClauseKind k = true) : isQuiet k = true := by
  cases k <;> first | rfl | contradiction

section

variable {P : TokenKind → Prop} (hname : ∀ n : Name, P n.atom.kind) (htype : P .kwType)
  (has : P .kwAs)

include htype in
theorem forall_kind_typeMark (typeOnly : Bool) : ∀ a ∈ typeMark typeOnly, P a.kind := by
  cases typeOnly with
  | false => exact fun _ h => by contradiction
  | true => exact List.forall_mem_singleton.mpr htype

include hname has in
theorem forall_kind_aliasAtoms (alias? : Option Name) : ∀ a ∈ aliasAtoms alias?, P a.kind := by
  cases alias? with
  | none => exact fun _ h => by contradiction
  | some name =>
    exact List.forall_mem_cons.mpr ⟨has, List.forall_mem_singleton.mpr (hname name)⟩

include hname htype has in
/-- What holds of names and of the words of an entry holds of all of it. -/
theorem Specifier.forall_kind (s : Specifier) : ∀ a ∈ s.atoms, P a.kind :=
  List.forall_mem_append.mpr ⟨forall_kind_typeMark htype _,
    List.forall_mem_cons.mpr ⟨hname _, forall_kind_aliasAtoms hname has _⟩⟩

theorem forall_mem_intercalate {P : Atom → Prop} {sep : Atom} {xs : List (List Atom)} (hsep : P sep)
    (hxs : ∀ x ∈ xs, ∀ a ∈ x, P a) : ∀ a ∈ [sep].intercalate xs, P a := by
  induction xs with
  | nil => exact fun _ h => by contradiction
  | cons x xs ih =>
    obtain ⟨hx, hxs⟩ := List.forall_mem_cons.mp hxs
    cases xs with
    | nil => simpa using hx
    | cons y ys =>
      rw [List.intercalate_cons_cons, List.append_assoc]
      exact List.forall_mem_append.mpr ⟨hx, List.forall_mem_cons.mpr ⟨hsep, ih hxs⟩⟩

include hname htype has in
/-- What holds of names, of the words of entries and of commas holds of all that stands between the
braces of a list. -/
theorem NamedList.forall_kind (hcomma : P .comma) (l : NamedList) : ∀ a ∈ l.inner, P a.kind := by
  refine List.forall_mem_append.mpr ⟨@forall_mem_intercalate (fun a => P a.kind) _ _ hcomma ?_, ?_⟩
  · exact List.forall_mem_map.mpr fun s _ => s.forall_kind hname htype has
  · split
    · exact List.forall_mem_singleton.mpr hcomma
    · exact fun _ h => by contradiction

end

theorem isListKind_typeMark (typeOnly : Bool) : ∀ a ∈ typeMark typeOnly, isListKind a.kind = true :=
  @forall_kind_typeMark (isListKind · = true) rfl typeOnly

theorem isListKind_aliasAtoms (alias? : Option Name) :
    ∀ a ∈ aliasAtoms alias?, isListKind a.kind = true :=
  @forall_kind_aliasAtoms (isListKind · = true) isListKind_name rfl alias?

/-- Between the braces of a list there is no other brace, and nothing that ends a search. -/
theorem NamedList.isListKind_inner (l : NamedList) : ∀ a ∈ l.inner, isListKind a.kind = true :=
  @NamedList.forall_kind (isListKind · = true) isListKind_name rfl rfl rfl l

theorem NamedList.isClauseKind_atoms (l : NamedList) : ∀ a ∈ l.atoms, isClauseKind a.kind = true :=
  List.forall_mem_cons.mpr ⟨rfl, List.forall_mem_append.mpr
    ⟨fun a ha => isClauseKind_of_isListKind (l.isListKind_inner a ha),
      List.forall_mem_singleton.mpr rfl⟩⟩

theorem Name.isClauseKind (n : Name) : isClauseKind n.atom.kind = true :=
  isClauseKind_of_isListKind (isListKind_name n)

theorem Bindings.isClauseKind_atoms (b : Bindings) : ∀ a ∈ b.atoms, isClauseKind a.kind = true := by
  cases b with
  | whole name =>
    exact List.forall_mem_cons.mpr
      ⟨rfl, fun a ha => isClauseKind_of_isListKind (isListKind_aliasAtoms _ a ha)⟩
  | named list => exact list.isClauseKind_atoms

theorem Clause.isClauseKind_atoms (c : Clause) : ∀ a ∈ c.atoms, isClauseKind a.kind = true := by
  cases c with
  | default name => exact List.forall_mem_singleton.mpr name.isClauseKind
  | only bindings => exact bindings.isClauseKind_atoms
  | both name bindings =>
    exact List.forall_mem_cons.mpr ⟨name.isClauseKind,
      List.forall_mem_cons.mpr ⟨rfl, bindings.isClauseKind_atoms⟩⟩

theorem Clause.atoms_ne_nil (c : Clause) : c.atoms ≠ [] := by
  cases c with
  | default _ => exact List.cons_ne_nil _ _
  | only bindings => cases bindings <;> exact List.cons_ne_nil _ _
  | both _ _ => exact List.cons_ne_nil _ _

/-! ## The text of a source -/

/-- The module that a source names. -/
def Source.specifier (s : Source) : String := String.ofList s.literal.text

theorem Source.value_atom (s : Source) : s.atom.toWord.value = s.specifier := by
  have hinner : Piece.inner 1 1 s.atom.text = s.literal.text := by
    simp [Piece.inner, Source.atom, Atom.text]
  change String.ofList (Escape.decode (Piece.inner 1 1 s.atom.text)) = _
  rw [hinner, Escape.decode_of_not_mem s.noEscape]
  rfl

end ModuleSyntax

end TypeScriptEngine
