import TypeScriptEngine.Proofs.Token.Balance

/-! # Expressions

Trees for some of the expressions of JavaScript, and their words.  Angle brackets, question marks,
colons and parentheses stand in types too, so that an expression may hold something that reads as
type syntax; `Expr.isUnambiguous` tells from the tree whether it does not.
-/

namespace TypeScriptEngine.Grammar

open TokenStream

/-! ## Trees -/

/-- A word that can be a name. -/
structure Variable where
  word : Word
  isName : word.kind.isName = true
  ne_catch : word.value ≠ "catch"

/-- The name that a text is. -/
def Variable.ofText (text : List Char)
    (hname : (TokenKind.ofWord (String.ofList text)).isName = true := by decide)
    (hhead : text.head?.any Text.isNameStart = true := by decide)
    (htail : text.tail.all Text.isNamePart = true := by decide)
    (hcatch : Piece.value (TokenKind.ofWord (String.ofList text)) text ≠ "catch" := by decide) :
    Variable :=
  ⟨⟨_, text, spells_letters rfl hhead htail⟩, hname, hcatch⟩

mutual

/-- An expression. -/
inductive Expr where
  | conditional (test : Comparison) (positive negative : Expr)
  /-- A function of one parameter, which may be parenthesised. -/
  | function (parameter : Variable) (parenthesized : Bool) (body : Expr)
  | comparison (comparison : Comparison)

/-- A comparison, or what can stand on one side of it. -/
inductive Comparison where
  | less (left right : Primary)
  | greater (left right : Primary)
  | primary (primary : Primary)

/-- An operand. -/
inductive Primary where
  | name (name : Variable)
  | number (word : Word) (isNumber : word.kind = .numberLiteral)
  | parenthesized (expr : Expr)
  | call (function : Variable) (argument : Expr)

end

mutual

def Expr.words : Expr → List Word
  | .conditional test positive negative =>
    test.words ++ .of .question :: (positive.words ++ .of .colon :: negative.words)
  | .function parameter false body => parameter.word :: .of .arrow :: body.words
  | .function parameter true body =>
    .of .lparen :: parameter.word :: .of .rparen :: .of .arrow :: body.words
  | .comparison comparison => comparison.words

def Comparison.words : Comparison → List Word
  | .less left right => left.words ++ .of .lt :: right.words
  | .greater left right => left.words ++ .of .gt :: right.words
  | .primary primary => primary.words

def Primary.words : Primary → List Word
  | .name name => [name.word]
  | .number word _ => [word]
  | .parenthesized expr => .of .lparen :: (expr.words ++ [.of .rparen])
  | .call function argument =>
    function.word :: .of .lparen :: (argument.words ++ [.of .rparen])

end

/-- The words of the statement that gives the value of an expression to a variable. -/
def Expr.assigned (target : Variable) (e : Expr) : List Word :=
  target.word :: .of .equals :: (e.words ++ [.of .semicolon])

/-! ## Ambiguity -/

/-- What an expression has outside its parentheses: angle brackets, parentheses with all that is in
them, and other words. -/
inductive Item where
  | less
  | greater
  | group
  | other
deriving DecidableEq

mutual

def Expr.items : Expr → List Item
  | .conditional test positive negative =>
    test.items ++ .other :: (positive.items ++ .other :: negative.items)
  | .function _ false body => .other :: .other :: body.items
  | .function _ true body => .group :: .other :: body.items
  | .comparison comparison => comparison.items

def Comparison.items : Comparison → List Item
  | .less left right => left.items ++ .less :: right.items
  | .greater left right => left.items ++ .greater :: right.items
  | .primary primary => primary.items

def Primary.items : Primary → List Item
  | .name _ => [.other]
  | .number .. => [.other]
  | .parenthesized _ => [.group]
  | .call .. => [.other, .group]

end

/-- Whether parentheses stand behind the angle bracket that closes `depth + 1` open ones. -/
def closesBeforeGroup : Nat → List Item → Bool
  | _, [] => false
  | depth, .less :: items => closesBeforeGroup (depth + 1) items
  | 0, .greater :: items => items.head? == some .group
  | depth + 1, .greater :: items => closesBeforeGroup depth items
  | depth, .group :: items => closesBeforeGroup depth items
  | depth, .other :: items => closesBeforeGroup depth items

def Primary.isName : Primary → Bool
  | name _ => true
  | _ => false

def Primary.endsInGroup : Primary → Bool
  | parenthesized _ | call .. => true
  | _ => false

def Comparison.endsInGroup : Comparison → Bool
  | less _ right => right.endsInGroup
  | greater _ right => right.endsInGroup
  | primary p => p.endsInGroup

/-- Whether the last word of an expression is a closing parenthesis. -/
def Expr.endsInGroup : Expr → Bool
  | .conditional _ _ negative => negative.endsInGroup
  | .function _ _ body => body.endsInGroup
  | .comparison c => c.endsInGroup

/-- Whether an expression begins with a type and an arrow behind it: a function does if its
parameter reads as a type, or if it has parentheses around it and the body begins in this way. -/
def Expr.readsAsResult : Expr → Bool
  | .function parameter false _ =>
    parameter.word.kind != .kwKeyof && parameter.word.kind != .kwReadonly
  | .function _ true body => body.readsAsResult
  | _ => false

mutual

/-- **Nothing in the expression reads as type syntax,** where `after` is what comes behind it in the
same parentheses.  A name, an angle bracket and what it encloses would be taken for type arguments
if parentheses came next; and parentheses, a colon and a type for the head of a function if an arrow
came next. -/
def Expr.isUnambiguous (after : List Item) : Expr → Bool
  | .conditional test positive negative =>
    test.isUnambiguous (.other :: (positive.items ++ .other :: (negative.items ++ after))) &&
      (positive.isUnambiguous (.other :: (negative.items ++ after)) &&
        !(positive.endsInGroup && negative.readsAsResult)) &&
      negative.isUnambiguous after
  | .function _ _ body => body.isUnambiguous after
  | .comparison comparison => comparison.isUnambiguous after

def Comparison.isUnambiguous (after : List Item) : Comparison → Bool
  | .less left right =>
    left.isUnambiguous && !(left.isName && closesBeforeGroup 0 (right.items ++ after)) &&
      right.isUnambiguous
  | .greater left right => left.isUnambiguous && right.isUnambiguous
  | .primary primary => primary.isUnambiguous

def Primary.isUnambiguous : Primary → Bool
  | .name _ => true
  | .number .. => true
  | .parenthesized expr => expr.isUnambiguous []
  | .call _ argument => argument.isUnambiguous []

end

/-! ## Items -/

/-- The words are items. -/
inductive Spans : List Word → List Item → Prop where
  | nil : Spans [] []
  | less {w : Word} {ws : List Word} {items : List Item} (hw : w.kind = .lt) (h : Spans ws items) :
      Spans (w :: ws) (.less :: items)
  | greater {w : Word} {ws : List Word} {items : List Item} (hw : w.kind = .gt)
      (h : Spans ws items) : Spans (w :: ws) (.greater :: items)
  | group {inner ws : List Word} {items : List Item} (hinner : Balanced inner)
      (h : Spans ws items) : Spans (.of .lparen :: (inner ++ .of .rparen :: ws)) (.group :: items)
  | other {w : Word} {ws : List Word} {items : List Item} (hw : w.kind.isPlain = true)
      (h : Spans ws items) : Spans (w :: ws) (.other :: items)

namespace Spans

variable {ws ws' : List Word} {items items' : List Item}

theorem append (h : Spans ws items) (h' : Spans ws' items') :
    Spans (ws ++ ws') (items ++ items') := by
  induction h with
  | nil => exact h'
  | less hw _ ih => exact .less hw ih
  | greater hw _ ih => exact .greater hw ih
  | group hinner _ ih =>
    rw [List.cons_append, List.append_assoc]
    exact .group hinner ih
  | other hw _ ih => exact .other hw ih

theorem balanced (h : Spans ws items) : Balanced ws := by
  induction h with
  | nil => exact .nil
  | less hw _ ih => exact .plain (hw ▸ rfl) (hw ▸ rfl) ih
  | greater hw _ ih => exact .plain (hw ▸ rfl) (hw ▸ rfl) ih
  | group hinner _ ih => exact .group rfl hinner ih
  | other hw _ ih =>
    obtain ⟨hopen, hclose, _⟩ := TokenKind.of_isPlain hw
    exact .plain hopen hclose ih

end Spans

theorem isPlain_of_isName {k : TokenKind} (h : k.isName = true) : k.isPlain = true := by
  revert h
  cases k <;> simp [TokenKind.isName, TokenKind.isContextual, TokenKind.isPlain,
    TokenKind.isOpener, TokenKind.isCloser, endsTypeArguments]

mutual

theorem Expr.spans (e : Expr) : Spans e.words e.items := by
  cases e with
  | conditional test positive negative =>
    exact test.spans.append (.other rfl (positive.spans.append (.other rfl negative.spans)))
  | function parameter parenthesized body =>
    have hparameter := isPlain_of_isName parameter.isName
    cases parenthesized with
    | false => exact .other hparameter (.other rfl body.spans)
    | true => exact .group (Spans.other hparameter .nil).balanced (.other rfl body.spans)
  | comparison c => exact c.spans

theorem Comparison.spans (c : Comparison) : Spans c.words c.items := by
  cases c with
  | less left right => exact left.spans.append (.less rfl right.spans)
  | greater left right => exact left.spans.append (.greater rfl right.spans)
  | primary p => exact p.spans

theorem Primary.spans (p : Primary) : Spans p.words p.items := by
  cases p with
  | name name => exact .other (isPlain_of_isName name.isName) .nil
  | number word isNumber => exact .other (isNumber ▸ rfl) .nil
  | parenthesized e => exact .group e.spans.balanced .nil
  | call function argument =>
    exact .other (isPlain_of_isName function.isName) (.group argument.spans.balanced .nil)

end

section

variable {place : Nat → TokenPlace} {ws : List Word} {items : List Item} {t : Token}

/-- A group comes first if a parenthesis does. -/
theorem headKind_eq_lparen_iff (h : Spans ws items) (ht : t.kind ≠ .lparen) (k : Nat)
    (rest : TokenStream) :
    (headKind (stream place k ws ++ t :: rest) == .lparen) = (items.head? == some .group) := by
  cases h with
  | nil => simp [headKind, ht]
  | less hw _ => simp [headKind, hw]
  | greater hw _ => simp [headKind, hw]
  | group _ _ => rfl
  | other hw _ =>
    have hne := TokenKind.ne_of_true_of_false hw (rfl : TokenKind.isPlain .lparen = false)
    simp [headKind, hne]

/-- **The closing angle bracket that is found in words is the one that is found in their items.** -/
theorem angleOffset?_spans (h : Spans ws items) (ht : t.kind = .rparen ∨ t.kind = .semicolon)
    (k depth : Nat) (rest : TokenStream) :
    (angleOffset? depth (stream place k ws ++ t :: rest)).any (fun n =>
      headKind ((stream place k ws ++ t :: rest).drop (n + 1)) == .lparen) =
        closesBeforeGroup depth items := by
  have hpast : ∀ (m : Nat) (o : Option Nat) (t' : Token) (s s' : TokenStream), s.drop m = s' →
      (o.map (· + (m + 1))).any (fun n => headKind ((t' :: s).drop (n + 1)) == .lparen) =
        o.any (fun n => headKind (s'.drop (n + 1)) == .lparen) := by
    rintro m o t' s _ rfl
    rw [Option.any_map]
    congr 1
    funext n
    show (headKind ((t' :: s).drop (n + (m + 1) + 1)) == .lparen) = _
    rw [List.drop_succ_cons, List.drop_drop, Nat.add_left_comm]
  have hnext : ∀ (o : Option Nat) (t' : Token) (s : TokenStream),
      (o.map (· + 1)).any (fun n => headKind ((t' :: s).drop (n + 1)) == .lparen) =
        o.any (fun n => headKind (s.drop (n + 1)) == .lparen) :=
    fun o t' s => hpast 0 o t' s s rfl
  induction h generalizing k depth with
  | nil =>
    have hends : angleOffset? depth (t :: rest) = none := by
      have hall : ∀ kind ∈ [TokenKind.rparen, .semicolon], kind ≠ .lt ∧ kind ≠ .gt ∧
          kind.isOpener = false ∧ endsTypeArguments kind = true := by decide
      obtain ⟨hlt, hgt, hopen, hends⟩ := hall t.kind (by simpa using ht)
      cases depth <;>
        rw [angleOffset?, if_neg hlt, if_neg hgt, hopen, if_neg (by decide), if_pos hends]
    rw [stream_nil, List.nil_append, hends]
    rfl
  | less hw _ ih =>
    rw [stream_cons, List.cons_append, angleOffset?_lt hw, hnext, ih]
    rfl
  | @greater w ws items hw h ih =>
    rw [stream_cons, List.cons_append]
    cases depth with
    | zero =>
      rw [angleOffset?_gt hw, Option.any_some, List.drop_succ_cons, List.drop_zero]
      exact headKind_eq_lparen_iff h (by rcases ht with h | h <;> simp [h]) _ rest
    | succ depth =>
      rw [angleOffset?_gt_succ hw, hnext, ih]
      rfl
  | @group inner ws items hinner _ ih =>
    rw [stream_cons, stream_append, stream_cons, List.cons_append, List.append_assoc,
      List.cons_append, angleOffset?_group rfl hinner,
      hpast _ _ _ _ _ (drop_stream_append_cons _ _), ih]
    rfl
  | other hw _ ih =>
    rw [stream_cons, List.cons_append, angleOffset?_plain hw, hnext, ih]
    rfl

end

end TypeScriptEngine.Grammar
