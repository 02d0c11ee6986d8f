import TypeScriptEngine.Proofs.Token.Balance
import TypeScriptEngine.Proofs.Token.TypeExtent

/-! # Types

The grammar of types, as trees, and the words of a type.  Whatever follows a type in a declaration,
the type is read as exactly its own words (`TypeExpr.typeLength_eq`), and brackets and angle brackets
are balanced in it (`TypeExpr.angled`).
-/

namespace TypeScriptEngine.Grammar

open TokenStream

/-! ## Trees -/

/-- A plain name other than `this`. -/
structure Name where
  word : Word
  isIdentifier : word.kind = .identifier
  ne_this : word.value ≠ "this"

/-- The name that a text is. -/
def Name.ofText (text : List Char)
    (hkind : TokenKind.ofWord (String.ofList text) = .identifier := by decide)
    (hhead : text.head?.any Text.isNameStart = true := by decide)
    (htail : text.tail.all Text.isNamePart = true := by decide)
    (hthis : String.ofList text ≠ "this" := by decide) : Name :=
  ⟨⟨.identifier, text, spells_letters hkind hhead htail⟩, rfl, hthis⟩

/-- A name and the members that are picked from it. -/
structure DottedName where
  head : Name
  members : List Name

/-- Words between brackets, of which nothing is required but that their own brackets are balanced. -/
structure Contents where
  words : List Word
  balanced : Balanced words

/-- A string or a number. -/
structure Literal where
  word : Word
  isLiteral : word.kind = .stringLiteral ∨ word.kind = .numberLiteral

/-- What a function type is the type of. -/
inductive CallForm where
  | function
  | constructor
  | abstractConstructor
deriving DecidableEq

/-- The operators that go before a type. -/
inductive TypeOperator where
  | keyof
  | readonly
deriving DecidableEq

/-- What stands between two operands. -/
inductive Joint where
  | union
  | intersection
deriving DecidableEq

/-- What stands before the parameters of a function type. -/
structure FunctionHead where
  operators : List TypeOperator
  form : CallForm

mutual

/-- A type.  Trees follow the order in which a type is read: what is joined to an operand, or follows
an arrow or a colon, is a type in its own right. -/
inductive TypeExpr where
  | operand (operand : Operand)
  | joined (operand : Operand) (joint : Joint) (rest : TypeExpr)
  | function (head : FunctionHead) (parameters : Contents) (result : TypeExpr)
  | generic (head : FunctionHead) (typeParameters : TypeParameters) (parameters : Contents)
      (result : TypeExpr)
  | conditional (check : Operand) (bound positive negative : TypeExpr)

/-- A type that can be an operand as it is. -/
inductive Operand where
  | name (name : DottedName)
  | applied (name : DottedName) (arguments : TypeArguments)
  | literal (literal : Literal)
  | typeof (name : DottedName)
  | operator (operator : TypeOperator) (operand : Operand)
  | parenthesized (type : TypeExpr)
  | object (members : Contents)
  | tuple (elements : Contents)
  | array (element : Operand)
  | indexed (object : Operand) (index : TypeExpr)

/-- Type arguments. -/
inductive TypeArguments where
  | one (type : TypeExpr)
  | more (type : TypeExpr) (rest : TypeArguments)

/-- Type parameters, each with the type it extends and the one that it stands for otherwise. -/
inductive TypeParameters where
  | one (name : Name) (bound default : OptionalType)
  | more (name : Name) (bound default : OptionalType) (rest : TypeParameters)

/-- A type that may be missing. -/
inductive OptionalType where
  | absent
  | present (type : TypeExpr)

end

/-! ## Words -/

/-- The members of a dotted name. -/
def memberWords (members : List Name) : List Word := members.flatMap fun m => [.of .dot, m.word]

def DottedName.words (n : DottedName) : List Word := n.head.word :: memberWords n.members

/-- The words before the parameters of a function type. -/
def CallForm.words : CallForm → List Word
  | function => []
  | constructor => [.of .kwNew]
  | abstractConstructor => [.of .kwAbstract, .of .kwNew]

def TypeOperator.word : TypeOperator → Word
  | keyof => .of .kwKeyof
  | readonly => .of .kwReadonly

def FunctionHead.words (head : FunctionHead) : List Word :=
  head.operators.map TypeOperator.word ++ head.form.words

def Joint.word : Joint → Word
  | union => .of .pipe
  | intersection => .of .amp

mutual

def TypeExpr.words : TypeExpr → List Word
  | .operand operand => operand.words
  | .joined operand joint rest => operand.words ++ joint.word :: rest.words
  | .function head parameters result =>
    head.words ++ .of .lparen :: (parameters.words ++ .of .rparen :: .of .arrow :: result.words)
  | .generic head typeParameters parameters result =>
    head.words ++ .of .lt :: (typeParameters.words ++ .of .gt :: .of .lparen ::
      (parameters.words ++ .of .rparen :: .of .arrow :: result.words))
  | .conditional check bound positive negative =>
    check.words ++ .of .kwExtends :: (bound.words ++ .of .question ::
      (positive.words ++ .of .colon :: negative.words))

def Operand.words : Operand → List Word
  | .name name => name.words
  | .applied name arguments => name.words ++ .of .lt :: (arguments.words ++ [.of .gt])
  | .literal literal => [literal.word]
  | .typeof name => .of .kwTypeof :: name.words
  | .operator operator operand => operator.word :: operand.words
  | .parenthesized type => .of .lparen :: (type.words ++ [.of .rparen])
  | .object members => .of .lbrace :: (members.words ++ [.of .rbrace])
  | .tuple elements => .of .lbracket :: (elements.words ++ [.of .rbracket])
  | .array element => element.words ++ [.of .lbracket, .of .rbracket]
  | .indexed object index => object.words ++ .of .lbracket :: (index.words ++ [.of .rbracket])

def TypeArguments.words : TypeArguments → List Word
  | .one type => type.words
  | .more type rest => type.words ++ .of .comma :: rest.words

def TypeParameters.words : TypeParameters → List Word
  | .one name bound default =>
    name.word :: (bound.words (.of .kwExtends) ++ default.words (.of .equals))
  | .more name bound default rest =>
    name.word :: (bound.words (.of .kwExtends) ++ (default.words (.of .equals) ++
      .of .comma :: rest.words))

/-- The words of an optional type, with the word that introduces it. -/
def OptionalType.words (front : Word) : OptionalType → List Word
  | .absent => []
  | .present type => front :: type.words

end

/-! ## Brackets in types -/

theorem Name.isPlain (n : Name) : n.word.kind.isPlain = true := by
  rw [n.isIdentifier]
  rfl

theorem Name.isName (n : Name) : n.word.kind.isName = true := by
  rw [n.isIdentifier]
  rfl

theorem angled_memberWords (members : List Name) : Angled (memberWords members) := by
  induction members with
  | nil => exact .nil
  | cons m members ih => exact .plain rfl (.plain m.isPlain ih)

theorem DottedName.angled (n : DottedName) : Angled n.words :=
  .plain n.head.isPlain (angled_memberWords n.members)

theorem CallForm.angled (form : CallForm) : Angled form.words := by
  cases form with
  | function => exact .nil
  | constructor => exact .plain rfl .nil
  | abstractConstructor => exact .plain rfl (.plain rfl .nil)

theorem TypeOperator.isPlain (operator : TypeOperator) : operator.word.kind.isPlain = true := by
  cases operator <;> rfl

theorem Joint.isPlain (joint : Joint) : joint.word.kind.isPlain = true := by
  cases joint <;> rfl

theorem FunctionHead.angled (head : FunctionHead) : Angled head.words := by
  obtain ⟨operators, form⟩ := head
  rw [words]
  induction operators with
  | nil => exact form.angled
  | cons operator operators ih => exact .plain operator.isPlain ih

theorem Literal.isPlain (l : Literal) : l.word.kind.isPlain = true := by
  rcases l.isLiteral with h | h <;> rw [h] <;> rfl

mutual

/-- **Brackets and angle brackets are balanced in types.** -/
theorem TypeExpr.angled (type : TypeExpr) : Angled type.words := by
  cases type with
  | operand operand => exact operand.angled
  | joined operand joint rest => exact operand.angled.append (.plain joint.isPlain rest.angled)
  | function head parameters result =>
    exact head.angled.append (.group rfl parameters.balanced (.plain rfl result.angled))
  | generic head typeParameters parameters result =>
    exact head.angled.append (.angles rfl rfl typeParameters.angled
      (.group rfl parameters.balanced (.plain rfl result.angled)))
  | conditional check bound positive negative =>
    exact check.angled.append (.plain rfl (bound.angled.append
      (.plain rfl (positive.angled.append (.plain rfl negative.angled)))))

theorem Operand.angled (operand : Operand) : Angled operand.words := by
  cases operand with
  | name name => exact name.angled
  | applied name arguments => exact name.angled.append (.angles rfl rfl arguments.angled .nil)
  | literal literal => exact .plain literal.isPlain .nil
  | typeof name => exact .plain rfl name.angled
  | operator operator operand => exact .plain operator.isPlain operand.angled
  | parenthesized type => exact .group rfl type.angled.balanced .nil
  | object members => exact .group rfl members.balanced .nil
  | tuple elements => exact .group rfl elements.balanced .nil
  | array element => exact element.angled.append (.group rfl .nil .nil)
  | indexed object index => exact object.angled.append (.group rfl index.angled.balanced .nil)

theorem TypeArguments.angled (arguments : TypeArguments) : Angled arguments.words := by
  cases arguments with
  | one type => exact type.angled
  | more type rest => exact type.angled.append (.plain rfl rest.angled)

theorem TypeParameters.angled (parameters : TypeParameters) : Angled parameters.words := by
  cases parameters with
  | one name bound default =>
    exact .plain name.isPlain ((bound.angled rfl).append (default.angled rfl))
  | more name bound default rest =>
    exact .plain name.isPlain
      ((bound.angled rfl).append ((default.angled rfl).append (.plain rfl rest.angled)))

theorem OptionalType.angled {front : Word} (hfront : front.kind.isPlain = true)
    (type : OptionalType) : Angled (type.words front) := by
  cases type with
  | absent => exact .nil
  | present type => exact .plain hfront type.angled

end

/-! ## The extent of types -/

/-- The tokens that can follow a type in a declaration. -/
def endsType : TokenKind → Bool
  | .semicolon | .comma | .rparen | .rbracket | .lbrace | .gt | .equals | .question | .colon => true
  | _ => false

/-- The tokens that can follow an operand. -/
def followsOperand (k : TokenKind) : Bool :=
  endsType k || k == .lbracket || k == .pipe || k == .amp || k == .kwExtends

/-- What stands behind words ends the operand that they end in. -/
structure EndsOperand (ws : List Word) (rest : TokenStream) : Prop where
  ne_dot : headKind rest ≠ .dot
  ne_lt : headKind rest ≠ .lt
  ne_arrow : headKind rest ≠ .arrow
  predicate : predicateLength rest = indexLength rest
  /-- The last word is not read as an operator on what follows. -/
  operator : ∀ w p, [w] <:+ ws → w.kind = .identifier → isTypeOperator (w.token p) rest = false

/-- What stands behind words ends the type that they end in. -/
structure EndsType (ws : List Word) (rest : TokenStream) : Prop extends EndsOperand ws rest where
  ne_nil : rest ≠ []
  ne_lbracket : headKind rest ≠ .lbracket
  ne_joint : headKind rest ≠ .pipe ∧ headKind rest ≠ .amp
  extends_line : headKind rest = .kwExtends → headLineBefore rest = true

section

variable {place : Nat → TokenPlace} {k : Nat} {rest : TokenStream}

theorem ne_of_endsType {k j : TokenKind} (h : endsType k = true) (h' : endsType j = false) :
    k ≠ j := by
  rintro rfl
  exact Bool.false_ne_true (h' ▸ h)

theorem ne_of_followsOperand {k j : TokenKind} (h : followsOperand k = true)
    (h' : followsOperand j = false) : k ≠ j := by
  rintro rfl
  exact Bool.false_ne_true (h' ▸ h)

theorem isName_of_followsOperand {k : TokenKind} (h : followsOperand k = true) :
    k.isName = false := by
  revert h
  cases k <;> simp [followsOperand, endsType, TokenKind.isName, TokenKind.isContextual]

theorem followsOperand_of_endsType {k : TokenKind} (h : endsType k = true) :
    followsOperand k = true := by
  simp [followsOperand, h]

theorem EndsOperand.of_kind (h : followsOperand (headKind rest) = true) (ws : List Word) :
    EndsOperand ws rest where
  ne_dot := ne_of_followsOperand h rfl
  ne_lt := ne_of_followsOperand h rfl
  ne_arrow := ne_of_followsOperand h rfl
  predicate := predicateLength_of_ne (isName_of_followsOperand h)
  operator _ _ _ hw := isTypeOperator_of_identifier hw (isName_of_followsOperand h)

theorem EndsOperand.of_suffix {ws ws' : List Word} (h : EndsOperand ws rest) (hws : ws' <:+ ws) :
    EndsOperand ws' rest :=
  ⟨h.ne_dot, h.ne_lt, h.ne_arrow, h.predicate, fun w p hw => h.operator w p (hw.trans hws)⟩

theorem EndsType.of_kind (h : endsType (headKind rest) = true) (ws : List Word) :
    EndsType ws rest where
  toEndsOperand := .of_kind (followsOperand_of_endsType h) ws
  ne_nil hnil := by rw [hnil] at h; contradiction
  ne_lbracket := ne_of_endsType h rfl
  ne_joint := ⟨ne_of_endsType h rfl, ne_of_endsType h rfl⟩
  extends_line hkind := by rw [hkind] at h; contradiction

theorem EndsType.of_suffix {ws ws' : List Word} (h : EndsType ws rest) (hws : ws' <:+ ws) :
    EndsType ws' rest :=
  ⟨h.toEndsOperand.of_suffix hws, h.ne_nil, h.ne_lbracket, h.ne_joint, h.extends_line⟩

/-- The beginning of a statement ends a type, unless the last word of the type is an operator for the
word that follows. -/
theorem EndsType.of_statement {t : Token} {rest : TokenStream} {ws : List Word}
    (hkind : t.kind = .kwType ∨ t.kind = .kwExport ∨ t.kind = .kwConst ∨ t.kind = .eof)
    (hoperator : ∀ w p, [w] <:+ ws → w.kind = .identifier →
      isTypeOperator (w.token p) (t :: rest) = false) : EndsType ws (t :: rest) where
  ne_dot := by rcases hkind with h | h | h | h <;> simp [headKind, h]
  ne_lt := by rcases hkind with h | h | h | h <;> simp [headKind, h]
  ne_arrow := by rcases hkind with h | h | h | h <;> simp [headKind, h]
  predicate := by rcases hkind with h | h | h | h <;> rw [predicateLength, if_neg (by simp [h])]
  operator := hoperator
  ne_nil := List.cons_ne_nil _ _
  ne_lbracket := by rcases hkind with h | h | h | h <;> simp [headKind, h]
  ne_joint := by rcases hkind with h | h | h | h <;> simp [headKind, h]
  extends_line h := by rcases hkind with h' | h' | h' | h' <;> simp [headKind, h'] at h

theorem memberLength_memberWords (members : List Name) (k : Nat) (hdot : headKind rest ≠ .dot) :
    memberLength (stream place k (memberWords members) ++ rest) = (memberWords members).length := by
  induction members generalizing k with
  | nil => exact memberLength_of_ne hdot
  | cons m members ih =>
    have hwords : memberWords (m :: members) = .of .dot :: m.word :: memberWords members := rfl
    rw [hwords, stream_cons, stream_cons, List.cons_append, List.cons_append, memberLength,
      Word.token_kind, Word.token_kind, m.isName, if_pos (by rfl), ih]
    rfl

theorem DottedName.dottedLength_eq (n : DottedName) (k : Nat) (hdot : headKind rest ≠ .dot) :
    dottedLength (stream place k n.words ++ rest) = n.words.length := by
  rw [words, stream_cons, List.cons_append, dottedLength, Word.token_kind, if_pos n.head.isName,
    memberLength_memberWords n.members _ hdot]
  rfl

/-- A name is read with its members, its type arguments and what may follow them. -/
theorem DottedName.operandLength_eq (n : DottedName) (k : Nat)
    (hoperator : ∀ w p, [w] <:+ n.words → w.kind = .identifier →
      isTypeOperator (w.token p) rest = false) (hdot : headKind rest ≠ .dot) {m : Nat}
    (hm : (angleSpan? rest).elim 0 (· + 1) = m) :
    operandLength (stream place k n.words ++ rest) =
      n.words.length + m + predicateLength (rest.drop m) := by
  have hhead : isTypeOperator (n.head.word.token (place k))
      (stream place (k + 1) (memberWords n.members) ++ rest) = false := by
    cases hmembers : n.members with
    | nil =>
      refine hoperator _ _ ?_ n.head.isIdentifier
      rw [words, hmembers]
      exact List.suffix_refl _
    | cons m members => exact isTypeOperator_of_identifier n.head.isIdentifier rfl
  have hlength : dottedLength (stream place k n.words ++ rest) = n.words.length :=
    n.dottedLength_eq k hdot
  have hdrop : (stream place k n.words ++ rest).drop n.words.length = rest := drop_stream_append rest
  rw [words, stream_cons, List.cons_append] at hlength hdrop ⊢
  rw [operandLength_of_isName n.head.isName hhead hlength (hdrop ▸ hm), List.length_cons,
    show (memberWords n.members).length + 1 + m - 1 = (memberWords n.members).length + m by omega,
    ← List.drop_drop, drop_stream_append]

/-- The words of a function type before its parameters are type operators. -/
theorem CallForm.operandLength_eq (form : CallForm) (k : Nat) (h : operandLength rest ≠ 0) :
    operandLength (stream place k form.words ++ rest) = form.words.length + operandLength rest := by
  have hnew : ∀ (p : TokenPlace), operandLength ((Word.of .kwNew).token p :: rest) =
      operandLength rest + 1 := fun p => operandLength_operator rfl h
  cases form with
  | function => exact (Nat.zero_add _).symm
  | constructor => exact (hnew _).trans (Nat.add_comm _ _)
  | abstractConstructor =>
    refine (operandLength_operator rfl ?_).trans ?_
    · exact (hnew _).symm ▸ Nat.succ_ne_zero _
    · exact (congrArg (· + 1) (hnew _)).trans (Nat.add_comm _ 2)

theorem FunctionHead.operandLength_eq (head : FunctionHead) (k : Nat) (h : operandLength rest ≠ 0) :
    operandLength (stream place k head.words ++ rest) = head.words.length + operandLength rest := by
  obtain ⟨operators, form⟩ := head
  simp only [words]
  induction operators generalizing k with
  | nil => exact form.operandLength_eq k h
  | cons operator operators ih =>
    have hrest := ih (k + 1)
    rw [List.map_cons, List.cons_append, stream_cons, List.cons_append, operandLength_operator
      (by cases operator <;> rfl) (by rw [hrest]; omega), hrest, List.length_cons]
    omega

theorem Operand.words_ne_nil (operand : Operand) : operand.words ≠ [] := by
  cases operand <;> simp [Operand.words, DottedName.words]

section

variable {o c : Word} {inner : List Word}

/-- A parenthesised type that no arrow follows is read up to the end of its indices. -/
theorem operandLength_group (hkind : o.kind = .lparen ∨ o.kind = .lbrace ∨ o.kind = .lbracket)
    (hpair : o.kind.closer? = some c.kind) (hinner : Balanced inner)
    (hrest : headKind rest ≠ .arrow) (p p' : TokenPlace) :
    operandLength (o.token p :: (stream place k inner ++ c.token p' :: rest)) =
      inner.length + 2 + indexLength rest := by
  have hspan := bracketSpan?_group hpair hinner place k p p' rest
  rcases hkind with hkind | hkind
  · rw [operandLength_paren hkind hspan, drop_stream_append_cons, arrowLength_of_ne hrest]
    omega
  · rw [operandLength_bracket hkind hspan, drop_stream_append_cons]
    omega

/-- An index is read up to the end of those behind it. -/
theorem indexLength_group (hinner : Balanced inner) {p : TokenPlace} (hline : p.lineBefore = false)
    (p' : TokenPlace) :
    indexLength ((Word.of .lbracket).token p ::
        (stream place k inner ++ (Word.of .rbracket).token p' :: rest)) =
      inner.length + 2 + indexLength rest := by
  rw [indexLength_bracket rfl hline (bracketSpan?_group rfl hinner place k p p' rest),
    drop_stream_append_cons]

end

/-- **An operand is read as its words** and the indices that follow it. -/
theorem Operand.operandLength_eq (hflat : Flat place) (operand : Operand) {k : Nat} (hk : 0 < k)
    {rest : TokenStream} (hrest : EndsOperand operand.words rest) :
    operandLength (stream place k operand.words ++ rest) =
      operand.words.length + indexLength rest := by
  cases operand with
  | name name =>
    have hspan := angleSpan?_of_ne hrest.ne_lt
    rw [words, name.operandLength_eq k hrest.operator hrest.ne_dot
      (congrArg (·.elim 0 (· + 1)) hspan)]
    exact congrArg _ hrest.predicate
  | applied name arguments =>
    have hspan := fun p p' => angleSpan?_angles (l := .of .lt) (g := .of .gt) rfl rfl
      arguments.angled place (k + name.words.length + 1) p p' rest
    simp only [words, stream_append, stream_cons, stream_nil, List.append_assoc, List.cons_append,
      List.nil_append]
    rw [name.operandLength_eq k (fun _ _ _ hw => isTypeOperator_of_identifier hw rfl)
      (by simp [headKind]) (congrArg (·.elim 0 (· + 1)) (hspan _ _)), Option.elim_some,
      List.drop_succ_cons, drop_stream_append_cons, hrest.predicate]
    simp [Nat.add_assoc]
  | literal literal =>
    have hliteral : isLiteralType literal.word.kind = true := by
      rcases literal.isLiteral with h | h <;> rw [h] <;> rfl
    exact operandLength_literal hliteral
  | typeof name =>
    rw [words, stream_cons, List.cons_append, operandLength_typeof rfl, name.dottedLength_eq _ hrest.ne_dot,
      drop_stream_append, List.length_cons, Nat.add_comm 1]
  | operator operator operand =>
    have ih := operand.operandLength_eq hflat (Nat.succ_pos k)
      (hrest.of_suffix (List.suffix_cons _ _))
    have hpos := List.length_pos_of_ne_nil operand.words_ne_nil
    have hne : operandLength (stream place (k + 1) operand.words ++ rest) ≠ 0 := by
      rw [ih]
      omega
    rw [words, stream_cons, List.cons_append, operandLength_operator (by cases operator <;> rfl) hne,
      ih, List.length_cons]
    omega
  | parenthesized type =>
    simp only [words, stream_append, stream_cons, stream_nil, List.append_assoc, List.cons_append,
      List.nil_append]
    rw [operandLength_group (.inl rfl) rfl type.angled.balanced hrest.ne_arrow]
    simp
  | object members =>
    simp only [words, stream_append, stream_cons, stream_nil, List.append_assoc, List.cons_append,
      List.nil_append]
    rw [operandLength_group (.inr (.inl rfl)) rfl members.balanced hrest.ne_arrow]
    simp
  | tuple elements =>
    simp only [words, stream_append, stream_cons, stream_nil, List.append_assoc, List.cons_append,
      List.nil_append]
    rw [operandLength_group (.inr (.inr rfl)) rfl elements.balanced hrest.ne_arrow]
    simp
  | array element =>
    -- array brackets are an index that is empty
    have hline := hflat (k + element.words.length) (Nat.add_pos_left hk _)
    have hindex : indexLength (stream place (k + element.words.length)
        [.of .lbracket, .of .rbracket] ++ rest) = 2 + indexLength rest :=
      @indexLength_group place 0 rest [] .nil _ hline _
    rw [words, stream_append, List.append_assoc, element.operandLength_eq hflat hk (.of_kind rfl _), hindex]
    simp [Nat.add_assoc]
  | indexed object index =>
    simp only [words, stream_append, stream_cons, stream_nil, List.append_assoc, List.cons_append,
      List.nil_append]
    rw [object.operandLength_eq hflat hk (.of_kind rfl _), indexLength_group index.angled.balanced
      (hflat _ (Nat.add_pos_left hk object.words.length))]
    simp [Nat.add_assoc]

/-- An operand that ends the type. -/
theorem unionLength_of_operand {ws : List Word} (hws : ws ≠ []) (hrest : EndsType ws rest)
    (hlength : operandLength (stream place k ws ++ rest) = ws.length) :
    unionLength (stream place k ws ++ rest) = ws.length := by
  obtain ⟨t, rest, rfl⟩ := List.exists_cons_of_ne_nil hrest.ne_nil
  have hline : ¬ (t.kind = .kwExtends ∧ (!t.lineBefore) = true) := fun h => by
    have := hrest.extends_line h.1
    simp_all [headLineBefore]
  have hjoint : ¬ (t.kind = .pipe ∨ t.kind = .amp) := not_or.mpr hrest.ne_joint
  rw [unionLength_of_drop hlength (Nat.ne_of_gt (List.length_pos_of_ne_nil hws))
    (drop_stream_append _), if_neg hjoint, if_neg hline]

theorem typeLength_of_unionLength {ws : List Word} (hws : ws ≠ [])
    (h : unionLength (stream place k ws ++ rest) = ws.length) :
    typeLength (stream place k ws ++ rest) = ws.length := by
  rw [typeLength_of_ne_zero (by rw [h]; exact Nat.ne_of_gt (List.length_pos_of_ne_nil hws)), h]

section

variable {inner inner' : List Word}

/-- Parameters and the type behind the arrow are read together. -/
theorem operandLength_call (hinner : Balanced inner) (p p₁ p₂ : TokenPlace) (k : Nat) :
    operandLength ((Word.of .lparen).token p :: (stream place k inner ++
        (Word.of .rparen).token p₁ :: (Word.of .arrow).token p₂ :: rest)) =
      inner.length + 3 + typeLength rest := by
  rw [operandLength_paren rfl (bracketSpan?_group rfl hinner place k p p₁ _),
    drop_stream_append_cons, arrowLength_arrow rfl]
  omega

theorem operandLength_genericCall (hinner : Angled inner) (hinner' : Balanced inner')
    (p p₁ p₂ p₃ p₄ : TokenPlace) (k k' : Nat) :
    operandLength ((Word.of .lt).token p :: (stream place k inner ++ (Word.of .gt).token p₁ ::
        (Word.of .lparen).token p₂ :: (stream place k' inner' ++
          (Word.of .rparen).token p₃ :: (Word.of .arrow).token p₄ :: rest))) =
      inner.length + 2 + inner'.length + 3 + typeLength rest := by
  refine (operandLength_angle (m := inner'.length + 1) rfl
    (angleSpan?_angles rfl rfl hinner place k p p₁ _) ?_).trans ?_
  · rw [drop_stream_append_cons]
    exact bracketSpan?_group rfl hinner' place k' p₂ p₃ _
  · rw [drop_stream_append_cons, List.drop_succ_cons, drop_stream_append_cons, arrowLength_arrow rfl]
    omega

end

theorem TypeExpr.words_ne_nil (type : TypeExpr) : type.words ≠ [] := by
  cases type with
  | operand operand => exact operand.words_ne_nil
  | joined operand joint rest => simp [words]
  | function head parameters result => simp [words]
  | generic head typeParameters parameters result => simp [words]
  | conditional check bound positive negative => simp [words]

theorem TypeExpr.unionLength_eq (hflat : Flat place) (type : TypeExpr) {k : Nat} (hk : 0 < k)
    {rest : TokenStream} (hrest : EndsType type.words rest) :
    unionLength (stream place k type.words ++ rest) = type.words.length := by
  cases type with
  | operand operand =>
    have hlength := operand.operandLength_eq hflat hk hrest.toEndsOperand
    rw [indexLength_of_ne hrest.ne_lbracket, Nat.add_zero] at hlength
    exact unionLength_of_operand operand.words_ne_nil hrest hlength
  | joined operand joint type =>
    have hjoint : joint.word.kind = .pipe ∨ joint.word.kind = .amp := by
      cases joint <;> simp [Joint.word]
    have hlength : ∀ p rest', operandLength (stream place k operand.words ++
        joint.word.token p :: rest') = operand.words.length := by
      intro p rest'
      rw [operand.operandLength_eq hflat hk (.of_kind (by cases joint <;> rfl) _),
        indexLength_of_ne (by cases joint <;> simp [Joint.word, headKind]), Nat.add_zero]
    simp only [words, stream_append, stream_cons, List.append_assoc, List.cons_append]
    rw [unionLength_of_drop (hlength _ _)
      (Nat.ne_of_gt (List.length_pos_of_ne_nil operand.words_ne_nil)) (drop_stream_append _),
      Word.token_kind, if_pos hjoint, type.unionLength_eq hflat (Nat.succ_pos _)
        (hrest.of_suffix ⟨operand.words ++ [joint.word], by simp [words]⟩)]
    simp [Nat.add_assoc, Nat.add_comm, Nat.add_left_comm]
  | function head parameters result =>
    have hresult := typeLength_of_unionLength result.words_ne_nil
      (result.unionLength_eq hflat (Nat.succ_pos (k + head.words.length + 1 +
        parameters.words.length + 1)) (hrest.of_suffix ⟨head.words ++ .of .lparen ::
          (parameters.words ++ [.of .rparen, .of .arrow]), by simp [words]⟩))
    refine unionLength_of_operand (words_ne_nil _) hrest ?_
    simp only [words, stream_append, stream_cons, List.append_assoc, List.cons_append]
    rw [head.operandLength_eq k (by rw [operandLength_call parameters.balanced]; omega),
      operandLength_call parameters.balanced, hresult]
    simp only [List.length_append, List.length_cons]
    omega
  | generic head typeParameters parameters result =>
    have hresult := typeLength_of_unionLength result.words_ne_nil
      (result.unionLength_eq hflat (Nat.succ_pos (k + head.words.length + 1 +
        typeParameters.words.length + 1 + 1 + parameters.words.length + 1))
        (hrest.of_suffix ⟨head.words ++ .of .lt :: (typeParameters.words ++ .of .gt :: .of .lparen ::
          (parameters.words ++ [.of .rparen, .of .arrow])), by simp [words]⟩))
    refine unionLength_of_operand (words_ne_nil _) hrest ?_
    simp only [words, stream_append, stream_cons, List.append_assoc, List.cons_append]
    rw [head.operandLength_eq k
        (by rw [operandLength_genericCall typeParameters.angled parameters.balanced]; omega),
      operandLength_genericCall typeParameters.angled parameters.balanced, hresult]
    simp only [List.length_append, List.length_cons]
    omega
  | conditional check bound positive negative =>
    have hcheck : ∀ p rest', operandLength (stream place k check.words ++
        (Word.of .kwExtends).token p :: rest') = check.words.length := by
      intro p rest'
      rw [check.operandLength_eq hflat hk (.of_kind rfl _), indexLength_of_ne (by simp [headKind]), Nat.add_zero]
    have hbound : ∀ p rest', typeLength (stream place (k + check.words.length + 1) bound.words ++
        (Word.of .question).token p :: rest') = bound.words.length :=
      fun p rest' => typeLength_of_unionLength bound.words_ne_nil
        (bound.unionLength_eq hflat (Nat.succ_pos _) (.of_kind rfl _))
    have hpositive : ∀ p rest', typeLength (stream place
        (k + check.words.length + 1 + bound.words.length + 1) positive.words ++
          (Word.of .colon).token p :: rest') = positive.words.length :=
      fun p rest' => typeLength_of_unionLength positive.words_ne_nil
        (positive.unionLength_eq hflat (Nat.succ_pos _) (.of_kind rfl _))
    have hnegative := typeLength_of_unionLength negative.words_ne_nil
      (negative.unionLength_eq hflat (Nat.succ_pos (k + check.words.length + 1 +
        bound.words.length + 1 + positive.words.length))
        (hrest.of_suffix ⟨check.words ++ .of .kwExtends :: (bound.words ++ .of .question ::
          (positive.words ++ [.of .colon])), by simp [words]⟩))
    have hline := hflat (k + check.words.length) (Nat.add_pos_left hk _)
    simp only [words, stream_append, stream_cons, List.append_assoc, List.cons_append]
    rw [unionLength_of_drop (hcheck _ _)
        (Nat.ne_of_gt (List.length_pos_of_ne_nil check.words_ne_nil)) (drop_stream_append _),
      if_neg (by simp), if_pos ⟨rfl, by simp [hline, Word.token]⟩,
      conditionalLength_of_drop (by rw [hbound, drop_stream_append]) rfl
        (by rw [hpositive, drop_stream_append]) rfl, hbound, hpositive, hnegative]
    simp only [List.length_append, List.length_cons]
    omega

/-- **A type is read as its words,** before whatever ends it. -/
theorem TypeExpr.typeLength_of_ends (hflat : Flat place) (type : TypeExpr) (hk : 0 < k)
    (hrest : EndsType type.words rest) :
    typeLength (stream place k type.words ++ rest) = type.words.length :=
  typeLength_of_unionLength type.words_ne_nil (type.unionLength_eq hflat hk hrest)

theorem TypeExpr.typeLength_eq (hflat : Flat place) (type : TypeExpr) (hk : 0 < k)
    (hrest : endsType (headKind rest) = true) :
    typeLength (stream place k type.words ++ rest) = type.words.length :=
  type.typeLength_of_ends hflat hk (.of_kind hrest _)

end

end TypeScriptEngine.Grammar
