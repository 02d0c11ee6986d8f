import TypeScriptEngine.Proofs.Emit.Cut
import TypeScriptEngine.Proofs.Grammar.Type

/-! # Typed programs

Programs of variable statements and functions, with types.  Each construct gives its words as
segments, so that the words of types, type parameters and marks can be told from the others;
`Program.erase` takes the types out of the tree, and what it has left is what the segments keep
(`Program.words_erase`).
-/

namespace TypeScriptEngine.Grammar

open Emit

/-! ## Trees -/

/-- A name or a number. -/
inductive Value where
  | name (name : Name)
  | number (word : Word) (isNumber : word.kind = .numberLiteral)

/-- A variable, with its type and its initial value. -/
structure Declarator where
  name : Name
  type? : Option TypeExpr
  value? : Option Value

/-- A parameter, which may be optional, with its type and its default value. -/
structure Parameter where
  name : Name
  optional : Bool
  type? : Option TypeExpr
  value? : Option Value

/-- The words that declare variables. -/
inductive VariableWord where
  | var
  | let
  | const
deriving DecidableEq

/-- A statement: the declaration of variables, or of a function that returns a value. -/
inductive Statement where
  | declaration (word : VariableWord) (first : Declarator) (rest : List Declarator)
  | function (name : Name) (typeParameters? : Option TypeParameters) (parameters : List Parameter)
      (result? : Option TypeExpr) (value : Value)

/-- A program. -/
structure Program where
  statements : List Statement

/-! ## Words -/

def Value.word : Value → Word
  | name n => n.word
  | number w _ => w

def VariableWord.word : VariableWord → Word
  | var => .of .kwVar
  | «let» => .of .kwLet
  | const => .of .kwConst

/-- A value and the equals sign before it. -/
def valueWords : Option Value → List Word
  | none => []
  | some v => [.of .equals, v.word]

/-- A type and the colon before it. -/
def typeSegments : Option TypeExpr → List WordSegment
  | none => []
  | some t => [.cut (.of .colon :: t.words)]

/-- The mark of what is optional. -/
def markSegments : Bool → List WordSegment
  | false => []
  | true => [.cut [.of .question]]

/-- Type parameters and the angle brackets around them. -/
def typeParameterSegments : Option TypeParameters → List WordSegment
  | none => []
  | some ps => [.cut (.of .lt :: (ps.words ++ [.of .gt]))]

/-- Parts with commas between them. -/
def commaSeparated : List (List WordSegment) → List WordSegment
  | [] => []
  | [part] => part
  | part :: next :: parts => part ++ .kept [.of .comma] :: commaSeparated (next :: parts)

def Declarator.segments (d : Declarator) : List WordSegment :=
  .kept [d.name.word] :: (typeSegments d.type? ++ [.kept (valueWords d.value?)])

def Parameter.segments (p : Parameter) : List WordSegment :=
  .kept [p.name.word] ::
    (markSegments p.optional ++ (typeSegments p.type? ++ [.kept (valueWords p.value?)]))

/-- The body of a function. -/
def bodyWords (v : Value) : List Word :=
  [.of .lbrace, .of .kwReturn, v.word, .of .semicolon, .of .rbrace]

def Statement.segments : Statement → List WordSegment
  | declaration word first rest =>
    .kept [word.word] ::
      (commaSeparated ((first :: rest).map Declarator.segments) ++ [.kept [.of .semicolon]])
  | function name typeParameters? parameters result? value =>
    .kept [.of .kwFunction, name.word] :: (typeParameterSegments typeParameters? ++
      .kept [.of .lparen] :: (commaSeparated (parameters.map Parameter.segments) ++
        .kept [.of .rparen] :: (typeSegments result? ++ [.kept (bodyWords value)])))

def Program.segments (p : Program) : List WordSegment := p.statements.flatMap Statement.segments

/-- The words of a program. -/
def Program.words (p : Program) : List Word := allWords p.segments

/-! ## Programs without types -/

def Declarator.erase (d : Declarator) : Declarator := { d with type? := none }

def Parameter.erase (p : Parameter) : Parameter := { p with optional := false, type? := none }

def Statement.erase : Statement → Statement
  | declaration word first rest => declaration word first.erase (rest.map Declarator.erase)
  | function name _ parameters _ value =>
    function name none (parameters.map Parameter.erase) none value

/-- The program without type parameters, types and marks. -/
def Program.erase (p : Program) : Program := ⟨p.statements.map Statement.erase⟩

@[simp] theorem typeSegments_none : typeSegments none = [] := rfl

@[simp] theorem markSegments_false : markSegments false = [] := rfl

@[simp] theorem typeParameterSegments_none : typeParameterSegments none = [] := rfl

@[simp] theorem keptWords_typeSegments (type? : Option TypeExpr) :
    keptWords (typeSegments type?) = [] := by
  cases type? <;> rfl

@[simp] theorem keptWords_markSegments (optional : Bool) :
    keptWords (markSegments optional) = [] := by
  cases optional <;> rfl

@[simp] theorem keptWords_typeParameterSegments (ps? : Option TypeParameters) :
    keptWords (typeParameterSegments ps?) = [] := by
  cases ps? <;> rfl

theorem Declarator.words_erase (d : Declarator) :
    allWords d.erase.segments = keptWords d.segments := by
  simp [segments, erase, allWords, keptWords]

theorem Parameter.words_erase (p : Parameter) :
    allWords p.erase.segments = keptWords p.segments := by
  simp [segments, erase, allWords, keptWords]

theorem words_commaSeparated {α : Type} {f g : α → List WordSegment} (xs : List α)
    (h : ∀ x, allWords (g x) = keptWords (f x)) :
    allWords (commaSeparated (xs.map g)) = keptWords (commaSeparated (xs.map f)) := by
  induction xs with
  | nil => rfl
  | cons x xs ih =>
    cases xs with
    | nil => exact h x
    | cons y xs =>
      simp only [List.map_cons, commaSeparated, allWords_append, keptWords_append, allWords,
        keptWords, h x] at ih ⊢
      rw [ih]

theorem Statement.words_erase (s : Statement) :
    allWords s.erase.segments = keptWords s.segments := by
  cases s with
  | declaration word first rest =>
    have hparts := words_commaSeparated (first :: rest) Declarator.words_erase
    simp only [erase, segments, allWords, keptWords, allWords_append, keptWords_append, ← hparts]
    simp only [List.map_cons, List.map_map]
    rfl
  | function name typeParameters? parameters result? value =>
    have hparts := words_commaSeparated parameters Parameter.words_erase
    simp only [erase, segments, allWords, keptWords, allWords_append, keptWords_append, ← hparts,
      keptWords_typeSegments, keptWords_typeParameterSegments, List.map_map]
    rfl

/-- **The program without types has the words that are kept.** -/
theorem Program.words_erase (p : Program) : p.erase.words = keptWords p.segments := by
  obtain ⟨statements⟩ := p
  rw [words, segments, segments, erase]
  induction statements with
  | nil => rfl
  | cons s statements ih =>
    simp only [List.map_cons, List.flatMap_cons, allWords_append, keptWords_append,
      s.words_erase] at ih ⊢
    rw [ih]

/-! ## Orderly segments -/

theorem allWords_declarator (d : Declarator) : allWords d.segments =
    d.name.word :: (allWords (typeSegments d.type?) ++ valueWords d.value?) := by
  simp [Declarator.segments, allWords]

theorem cuts_declarator (d : Declarator) (k : Nat) :
    cuts k d.segments = cuts (k + 1) (typeSegments d.type?) := by
  simp [Declarator.segments, cuts]

theorem allWords_parameter (p : Parameter) : allWords p.segments = p.name.word ::
    (allWords (markSegments p.optional) ++
      (allWords (typeSegments p.type?) ++ valueWords p.value?)) := by
  simp [Parameter.segments, allWords]

theorem cuts_parameter (p : Parameter) (k : Nat) :
    cuts k p.segments = cuts (k + 1) (markSegments p.optional) ++
      cuts (k + 1 + (allWords (markSegments p.optional)).length) (typeSegments p.type?) := by
  simp [Parameter.segments, cuts]

theorem Value.kind_mem (v : Value) : v.word.kind ∈ [.identifier, .numberLiteral] := by
  cases v with
  | name n => exact List.mem_cons.mpr (.inl n.isIdentifier)
  | number w h => exact List.mem_cons_of_mem _ (List.mem_singleton.mpr h)

/-- Segments in which brackets are balanced, with quiet words kept and no empty cuts. -/
structure Orderly (segs : List WordSegment) : Prop where
  angled : Angled (allWords segs)
  quiet : ∀ w ∈ keptWords segs, isQuiet w.kind = true
  proper : Proper segs

namespace Orderly

variable {segs segs' : List WordSegment} {ws : List Word}

theorem nil : Orderly [] := ⟨.nil, fun _ h => by contradiction, proper_nil⟩

theorem append (h : Orderly segs) (h' : Orderly segs') : Orderly (segs ++ segs') where
  angled := allWords_append ▸ h.angled.append h'.angled
  quiet w hw := (List.mem_append.mp (keptWords_append ▸ hw)).elim (h.quiet w) (h'.quiet w)
  proper := h.proper.append h'.proper

theorem cut (h : Angled ws) (hne : ws ≠ []) : Orderly [.cut ws] where
  angled := h.append .nil
  quiet _ hw := by contradiction
  proper ws' hmem := by
    obtain rfl := WordSegment.cut.inj (List.mem_singleton.mp hmem)
    exact hne

theorem kept (h : ∀ w ∈ ws, w.kind.isPlain = true ∧ isQuiet w.kind = true) (h' : Orderly segs) :
    Orderly (.kept ws :: segs) where
  angled := by
    have hws : Angled ws := by
      induction ws with
      | nil => exact .nil
      | cons w ws ih =>
        have hmem := fun w' hw' => h w' (List.mem_cons_of_mem _ hw')
        exact .plain (h w (List.mem_cons_self ..)).1 (ih hmem)
    exact hws.append h'.angled
  quiet w hw := (List.mem_append.mp hw).elim (fun hw => (h w hw).2) (h'.quiet w)
  proper := h'.proper.kept

end Orderly

theorem Name.isQuiet (n : Name) : isQuiet n.word.kind = true := by
  rw [n.isIdentifier]
  rfl

theorem orderly_valueWords (value? : Option Value) : Orderly [.kept (valueWords value?)] := by
  have hall : ∀ k ∈ [TokenKind.identifier, .numberLiteral], k.isPlain = true ∧ isQuiet k = true := by
    decide
  refine .kept (fun w hw => ?_) .nil
  cases value? with
  | none => contradiction
  | some v =>
    rcases List.mem_cons.mp hw with rfl | hw
    · exact ⟨rfl, rfl⟩
    · rw [List.mem_singleton.mp hw]
      exact hall _ v.kind_mem

theorem orderly_typeSegments (type? : Option TypeExpr) : Orderly (typeSegments type?) := by
  cases type? with
  | none => exact .nil
  | some type => exact .cut (.plain rfl type.angled) (List.cons_ne_nil _ _)

theorem orderly_markSegments (optional : Bool) : Orderly (markSegments optional) := by
  cases optional with
  | false => exact .nil
  | true => exact .cut (.plain rfl .nil) (List.cons_ne_nil _ _)

theorem orderly_typeParameterSegments (ps? : Option TypeParameters) :
    Orderly (typeParameterSegments ps?) := by
  cases ps? with
  | none => exact .nil
  | some ps => exact .cut (.angles rfl rfl ps.angled .nil) (List.cons_ne_nil _ _)

theorem Declarator.orderly (d : Declarator) : Orderly d.segments :=
  .kept (List.forall_mem_singleton.mpr ⟨d.name.isPlain, d.name.isQuiet⟩)
    ((orderly_typeSegments d.type?).append (orderly_valueWords d.value?))

theorem Parameter.orderly (p : Parameter) : Orderly p.segments :=
  .kept (List.forall_mem_singleton.mpr ⟨p.name.isPlain, p.name.isQuiet⟩)
    ((orderly_markSegments p.optional).append
      ((orderly_typeSegments p.type?).append (orderly_valueWords p.value?)))

theorem orderly_commaSeparated {α : Type} {f : α → List WordSegment} (h : ∀ x, Orderly (f x))
    (xs : List α) : Orderly (commaSeparated (xs.map f)) := by
  induction xs with
  | nil => exact .nil
  | cons x xs ih =>
    cases xs with
    | nil => exact h x
    | cons y xs => exact (h x).append (.kept (List.forall_mem_singleton.mpr ⟨rfl, rfl⟩) ih)

theorem Statement.proper (s : Statement) : Proper s.segments := by
  cases s with
  | declaration word first rest =>
    exact .kept ((orderly_commaSeparated Declarator.orderly _).proper.append (.kept proper_nil))
  | function name typeParameters? parameters result? value =>
    exact .kept ((orderly_typeParameterSegments typeParameters?).proper.append
      (.kept ((orderly_commaSeparated Parameter.orderly _).proper.append
        (.kept ((orderly_typeSegments result?).proper.append (.kept proper_nil))))))

/-! ## A small program -/

/-- A function with a type parameter and an optional parameter, and a constant. -/
def smallProgram : Program :=
  let type : Operand := .name ⟨.ofText ['T'], []⟩
  let bound : Word := ⟨.stringLiteral, ['"', 'a', '"'],
    spells_quoted (List.forall_mem_singleton.mpr (by decide))⟩
  let one : Word := ⟨.numberLiteral, ['1'], spells_digits (by decide) (List.forall_mem_nil _)⟩
  ⟨[.function (.ofText ['f'])
      (some (.one (.ofText ['T']) (.present (.operand (.literal ⟨bound, .inl rfl⟩))) .absent))
      [⟨.ofText ['x'], true, some (.joined (.array type) .union (.operand type)), none⟩]
      (some (.function ⟨[], .function⟩ ⟨[], .nil⟩ (.operand type))) (.name (.ofText ['x'])),
    .declaration .const ⟨.ofText ['y'], some (.operand type), some (.number one rfl)⟩ []]⟩

end TypeScriptEngine.Grammar
