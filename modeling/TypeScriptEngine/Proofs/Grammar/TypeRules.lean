import TypeScriptEngine.Proofs.Grammar.Type
import TypeScriptEngine.Proofs.Grammar.Expression
import TypeScriptEngine.Proofs.Token.BracketStack

/-! # Types by the kinds of their tokens

A grammar of types in which every rule takes any type for its parts, so that a row of tokens may be
a type in several ways.  However it is one, the types of a stream are read as exactly their own
tokens, if they stand on one line before a token that ends types (`type_read_exactly`).

The length that is read does not stop at the end of a type if what follows goes on with it.  The
induction is therefore on all streams behind the type, and says how much of them is read along with
it (`furtherLength`).
-/

namespace TypeScriptEngine

open TokenStream

namespace TokenStream

/-! ## What is read behind an operand -/

/-- The tokens that are read behind an operand and its indices: a bar or an ampersand with the
operands behind it, or the rest of a conditional type. -/
def joinedLength : TokenStream → Nat
  | [] => 0
  | t :: rest =>
    if t.kind = .pipe ∨ t.kind = .amp then 1 + unionLength rest
    else if t.kind = .kwExtends ∧ !t.lineBefore then 1 + conditionalLength rest
    else 0

/-- The tokens that are read along with a type which they stand behind. -/
def furtherLength (rest : TokenStream) : Nat :=
  indexLength rest + joinedLength (rest.drop (indexLength rest))

variable {t : Token} {ts inner rest : TokenStream}

theorem joinedLength_joint (h : t.kind = .pipe ∨ t.kind = .amp) :
    joinedLength (t :: rest) = 1 + unionLength rest := if_pos h

theorem joinedLength_extends (h : t.kind = .kwExtends) (hline : t.lineBefore = false) :
    joinedLength (t :: rest) = 1 + conditionalLength rest := by
  rw [joinedLength, if_neg (by simp [h]), if_pos ⟨h, by simp [hline]⟩]

theorem joinedLength_of_ne (hpipe : headKind rest ≠ .pipe) (hamp : headKind rest ≠ .amp)
    (hextends : headKind rest ≠ .kwExtends) : joinedLength rest = 0 := by
  cases rest with
  | nil => rfl
  | cons t rest => exact (if_neg (not_or.mpr ⟨hpipe, hamp⟩)).trans (if_neg fun h => hextends h.1)

theorem furtherLength_of_ne (h : headKind rest ≠ .lbracket) :
    furtherLength rest = joinedLength rest := by
  rw [furtherLength, indexLength_of_ne h, Nat.zero_add, List.drop_zero]

theorem drop_append_cons (inner rest : TokenStream) (t : Token) :
    (inner ++ t :: rest).drop (inner.length + 1) = rest := by
  rw [← List.drop_drop, List.drop_left, List.drop_one, List.tail_cons]

/-- An index is read along with the type before it. -/
theorem furtherLength_index {o c : Token} (ho : o.kind = .lbracket) (hc : c.kind = .rbracket)
    (hline : o.lineBefore = false) (hinner : Bracketed inner) :
    furtherLength (o :: (inner ++ c :: rest)) = inner.length + 2 + furtherLength rest := by
  have hspan : bracketSpan? (o :: (inner ++ c :: rest)) = some (inner.length + 1) :=
    bracketSpan?_bracketed (by rw [ho, hc]; rfl) hinner rest
  have hindex : indexLength (o :: (inner ++ c :: rest)) = inner.length + 2 + indexLength rest := by
    rw [indexLength_bracket ho hline hspan, drop_append_cons]
  rw [furtherLength, hindex, furtherLength, show inner.length + 2 + indexLength rest =
    (inner.length + 1 + indexLength rest) + 1 by omega, List.drop_succ_cons, ← List.drop_drop,
    drop_append_cons]
  omega

/-- A conditional type is read part by part. -/
theorem conditionalLength_of_parts {q c : Token} {bound positive : TokenStream}
    (hq : q.kind = .question) (hc : c.kind = .colon)
    (hbound : typeLength (bound ++ q :: (positive ++ c :: rest)) = bound.length)
    (hpositive : typeLength (positive ++ c :: rest) = positive.length) :
    conditionalLength (bound ++ q :: (positive ++ c :: rest)) =
      bound.length + positive.length + 2 + typeLength rest := by
  rw [conditionalLength_of_drop (by rw [hbound, List.drop_left]) hq
    (by rw [hpositive, List.drop_left]) hc, hbound, hpositive]
  omega

theorem unionLength_eq (h : operandLength ts ≠ 0) :
    unionLength ts = operandLength ts + joinedLength (ts.drop (operandLength ts)) := by
  cases hdrop : ts.drop (operandLength ts) with
  | nil => exact unionLength_of_drop_nil rfl hdrop
  | cons t rest =>
    rw [unionLength_of_drop rfl h hdrop, joinedLength]
    repeat' split
    all_goals omega

theorem operandLength_ne_zero (h : unionLength ts ≠ 0) : operandLength ts ≠ 0 := by
  intro hzero
  apply h
  rw [unionLength]
  simp [hzero]

/-- A type operator goes before all operands of the type behind it. -/
theorem unionLength_operator (h : isTypeOperator t rest = true) (hrest : unionLength rest ≠ 0) :
    unionLength (t :: rest) = unionLength rest + 1 := by
  have hrest := operandLength_ne_zero hrest
  have hlength := operandLength_operator h hrest
  rw [unionLength_eq (hlength ▸ Nat.succ_ne_zero _), unionLength_eq hrest, hlength,
    List.drop_succ_cons]
  omega

/-- What stands behind a type: it does not go on with the name, the parameters or the word that the
type may end in, and what is read along with the type is read up to its end. -/
structure Bounds (rest : TokenStream) : Prop where
  ne_dot : headKind rest ≠ .dot
  ne_lt : headKind rest ≠ .lt
  ne_arrow : headKind rest ≠ .arrow
  ne_new : headKind rest ≠ .kwNew
  isName : (headKind rest).isName = false
  settled : joinedLength (rest.drop (furtherLength rest)) = 0

/-- The tokens that end the type before them. -/
def stopsType : TokenKind → Bool
  | .equals | .semicolon | .comma | .rparen | .rbracket | .rbrace | .lbrace | .gt | .question
  | .colon | .eof => true
  | _ => false

theorem furtherLength_of_stops (h : stopsType (headKind rest) = true) : furtherLength rest = 0 := by
  have hne : ∀ {k}, stopsType k = false → headKind rest ≠ k := TokenKind.ne_of_true_of_false h
  rw [furtherLength_of_ne (hne rfl), joinedLength_of_ne (hne rfl) (hne rfl) (hne rfl)]

theorem Bounds.of_stops (h : stopsType (headKind rest) = true) : Bounds rest := by
  have hne : ∀ {k}, stopsType k = false → headKind rest ≠ k := TokenKind.ne_of_true_of_false h
  refine ⟨hne rfl, hne rfl, hne rfl, hne rfl, ?_, ?_⟩
  · revert h
    cases headKind rest <;> simp [stopsType, TokenKind.isName, TokenKind.isContextual]
  · rw [furtherLength_of_stops h]
    exact joinedLength_of_ne (hne rfl) (hne rfl) (hne rfl)

variable {n : Nat}

/-- The tokens that a type goes on with. -/
def goesOn : TokenKind → Bool
  | .lbracket | .pipe | .amp | .kwExtends => true
  | _ => false

/-- What goes on with a type and is bounded in its turn. -/
theorem Bounds.of_goesOn (hkind : goesOn (headKind ts) = true)
    (hfurther : furtherLength ts = n + furtherLength rest) (hdrop : ts.drop n = rest)
    (hrest : Bounds rest) : Bounds ts := by
  have hne : ∀ {k}, goesOn k = false → headKind ts ≠ k := TokenKind.ne_of_true_of_false hkind
  refine ⟨hne rfl, hne rfl, hne rfl, hne rfl, ?_, ?_⟩
  · revert hkind
    cases headKind ts <;> simp [goesOn, TokenKind.isName, TokenKind.isContextual]
  · rw [hfurther, ← List.drop_drop, hdrop]
    exact hrest.settled

/-- An operand that is read up to the end of the indices behind it. -/
theorem unionLength_of_indices (hn : n ≠ 0) (hdrop : ts.drop n = rest)
    (h : operandLength ts = n + indexLength rest) : unionLength ts = n + furtherLength rest := by
  rw [unionLength_eq (by omega), h, ← List.drop_drop, hdrop, furtherLength]
  omega

/-- An operand that is read up to the end of what is read along with it. -/
theorem unionLength_of_further (hn : n ≠ 0) (hdrop : ts.drop n = rest)
    (hsettled : joinedLength (rest.drop (furtherLength rest)) = 0)
    (h : operandLength ts = n + furtherLength rest) : unionLength ts = n + furtherLength rest := by
  rw [unionLength_eq (by omega), h, ← List.drop_drop, hdrop, hsettled]
  rfl

end TokenStream

namespace Grammar

/-! ## The grammar -/

/-- Kinds of tokens in which brackets are balanced, and of which nothing else is required. -/
inductive Enclosed : List TokenKind → Prop where
  | nil : Enclosed []
  | plain {k : TokenKind} {ks : List TokenKind} (hopen : k.isOpener = false)
      (hclose : k.isCloser = false) (h : Enclosed ks) : Enclosed (k :: ks)
  | group {o c : TokenKind} {inner ks : List TokenKind} (hpair : o.closer? = some c)
      (hinner : Enclosed inner) (h : Enclosed ks) : Enclosed (o :: (inner ++ c :: ks))

/-- The kinds of the words before the parameters of a function type. -/
def CallForm.kinds : CallForm → List TokenKind
  | function => []
  | constructor => [.kwNew]
  | abstractConstructor => [.kwAbstract, .kwNew]

/-- The parts that the grammar has rules for. -/
inductive TypePart where
  /-- The members that are picked from a name. -/
  | members
  | type
  | arguments
  /-- What a type parameter extends, if it is given. -/
  | bound
  /-- What a type parameter stands for otherwise, if it is given. -/
  | default
  | parameters
deriving DecidableEq

/-- The rules of the grammar: the part is written with tokens of these kinds.  All rules take any
type for the types that they are made of. -/
inductive Derives : TypePart → List TokenKind → Prop where
  | noMember : Derives .members []
  | member {k : TokenKind} {ms : List TokenKind} (hname : k.isName = true)
      (hms : Derives .members ms) : Derives .members (.dot :: k :: ms)
  | name {k : TokenKind} {ms : List TokenKind} (hname : k.isName = true)
      (hword : k ≠ .kwKeyof ∧ k ≠ .kwReadonly) (hms : Derives .members ms) :
      Derives .type (k :: ms)
  | applied {k : TokenKind} {ms as : List TokenKind} (hname : k.isName = true)
      (hword : k ≠ .kwKeyof ∧ k ≠ .kwReadonly) (hms : Derives .members ms)
      (has : Derives .arguments as) : Derives .type (k :: (ms ++ .lt :: (as ++ [.gt])))
  | literal {k : TokenKind} (hk : k = .stringLiteral ∨ k = .numberLiteral) : Derives .type [k]
  | typeof {k : TokenKind} {ms : List TokenKind} (hname : k.isName = true)
      (hms : Derives .members ms) : Derives .type (.kwTypeof :: k :: ms)
  | operator {k : TokenKind} {ks : List TokenKind} (hk : k = .kwKeyof ∨ k = .kwReadonly)
      (h : Derives .type ks) : Derives .type (k :: ks)
  | parenthesized {ks : List TokenKind} (h : Derives .type ks) :
      Derives .type (.lparen :: (ks ++ [.rparen]))
  | function {ps ks : List TokenKind} (form : CallForm) (hps : Enclosed ps)
      (h : Derives .type ks) :
      Derives .type (form.kinds ++ .lparen :: (ps ++ .rparen :: .arrow :: ks))
  | generic {ts ps ks : List TokenKind} (form : CallForm) (hts : Derives .parameters ts)
      (hps : Enclosed ps) (h : Derives .type ks) :
      Derives .type
        (form.kinds ++ .lt :: (ts ++ .gt :: .lparen :: (ps ++ .rparen :: .arrow :: ks)))
  | object {ks : List TokenKind} (h : Enclosed ks) : Derives .type (.lbrace :: (ks ++ [.rbrace]))
  | tuple {ks : List TokenKind} (h : Enclosed ks) :
      Derives .type (.lbracket :: (ks ++ [.rbracket]))
  | array {ks : List TokenKind} (h : Derives .type ks) :
      Derives .type (ks ++ [.lbracket, .rbracket])
  | indexed {ks is : List TokenKind} (h : Derives .type ks) (his : Derives .type is) :
      Derives .type (ks ++ .lbracket :: (is ++ [.rbracket]))
  | joined {k : TokenKind} {ks ks' : List TokenKind} (hk : k = .pipe ∨ k = .amp)
      (h : Derives .type ks) (h' : Derives .type ks') : Derives .type (ks ++ k :: ks')
  | conditional {check bs ps ns : List TokenKind} (hcheck : Derives .type check)
      (hbs : Derives .type bs) (hps : Derives .type ps) (hns : Derives .type ns) :
      Derives .type (check ++ .kwExtends :: (bs ++ .question :: (ps ++ .colon :: ns)))
  | argument {ks : List TokenKind} (h : Derives .type ks) : Derives .arguments ks
  | arguments {ks as : List TokenKind} (h : Derives .type ks) (has : Derives .arguments as) :
      Derives .arguments (ks ++ .comma :: as)
  | noBound : Derives .bound []
  | bound {ks : List TokenKind} (h : Derives .type ks) : Derives .bound (.kwExtends :: ks)
  | noDefault : Derives .default []
  | default {ks : List TokenKind} (h : Derives .type ks) : Derives .default (.equals :: ks)
  | parameter {k : TokenKind} {bs ds : List TokenKind} (hname : k.isName = true)
      (hbs : Derives .bound bs) (hds : Derives .default ds) :
      Derives .parameters (k :: (bs ++ ds))
  | parameters {k : TokenKind} {bs ds ts : List TokenKind} (hname : k.isName = true)
      (hbs : Derives .bound bs) (hds : Derives .default ds) (hts : Derives .parameters ts) :
      Derives .parameters (k :: (bs ++ (ds ++ .comma :: ts)))

/-! ## Tokens of given kinds -/

/-- The token as one of another kind. -/
def Token.withKind (t : Token) (kind : TokenKind) : Token := { t with kind := kind }

@[simp] theorem Token.withKind_kind (t : Token) (kind : TokenKind) :
    (withKind t kind).kind = kind := rfl

/-- The tokens from token `k` on, as tokens of these kinds. -/
def row (here : Nat → Token) (k : Nat) : List TokenKind → TokenStream
  | [] => []
  | kind :: ks => Token.withKind (here k) kind :: row here (k + 1) ks

section

variable {here : Nat → Token} {k : Nat} {kind o c : TokenKind} {ks ks' : List TokenKind}

@[simp] theorem row_nil : row here k [] = [] := rfl

@[simp] theorem row_cons :
    row here k (kind :: ks) = Token.withKind (here k) kind :: row here (k + 1) ks := rfl

@[simp] theorem length_row : (row here k ks).length = ks.length := by
  induction ks generalizing k with
  | nil => rfl
  | cons kind ks ih => exact congrArg (· + 1) ih

@[simp] theorem row_append :
    row here k (ks ++ ks') = row here k ks ++ row here (k + ks.length) ks' := by
  induction ks generalizing k with
  | nil => rfl
  | cons kind ks ih =>
    rw [List.cons_append, row_cons, row_cons, ih, List.length_cons, List.cons_append,
      Nat.add_right_comm, Nat.add_assoc]

@[simp] theorem drop_row_append (rest : TokenStream) :
    (row here k ks ++ rest).drop ks.length = rest := by
  rw [List.drop_append_of_le_length (by simp), List.drop_of_length_le (by simp), List.nil_append]

theorem Enclosed.bracketed (h : Enclosed ks) (here : Nat → Token) (k : Nat) :
    Bracketed (row here k ks) := by
  induction h generalizing k with
  | nil => exact .nil
  | plain hopen hclose _ ih => exact .plain hopen hclose (ih (k + 1))
  | group hpair _ _ ihinner ih =>
    rw [row_cons, row_append, row_cons]
    exact .group hpair (ihinner _) (ih _)

end

section

variable {here : Nat → Token} {k : Nat} {part : TypePart} {ks : List TokenKind} {rest : TokenStream}

theorem CallForm.angleBracketed (form : CallForm) (here : Nat → Token) (k : Nat) :
    AngleBracketed (row here k form.kinds) := by
  cases form with
  | function => exact .nil
  | constructor => exact .plain rfl .nil
  | abstractConstructor => exact .plain rfl (.plain rfl .nil)

/-- **Brackets and angle brackets are balanced in all parts of types.** -/
theorem Derives.angleBracketed (h : Derives part ks) (here : Nat → Token) (k : Nat) :
    AngleBracketed (row here k ks) := by
  induction h generalizing k with
  | noMember | noBound | noDefault => exact .nil
  | member hname _ ih => exact .plain rfl (.plain (isPlain_of_isName hname) (ih _))
  | name hname _ _ ih => exact .plain (isPlain_of_isName hname) (ih _)
  | applied hname _ _ _ ihms ihas =>
    simp only [row_cons, row_append, row_nil]
    exact .plain (isPlain_of_isName hname) ((ihms _).append (.angles rfl rfl (ihas _) .nil))
  | literal hk => exact .plain (by rcases hk with rfl | rfl <;> rfl) .nil
  | typeof hname _ ih => exact .plain rfl (.plain (isPlain_of_isName hname) (ih _))
  | operator hk _ ih => exact .plain (by rcases hk with rfl | rfl <;> rfl) (ih _)
  | parenthesized _ ih =>
    simp only [row_cons, row_append, row_nil]
    exact .group rfl (ih _).bracketed .nil
  | function form hps _ ih =>
    simp only [row_cons, row_append]
    exact (form.angleBracketed ..).append (.group rfl (hps.bracketed ..) (.plain rfl (ih _)))
  | generic form _ hps _ ihts ih =>
    simp only [row_cons, row_append]
    exact (form.angleBracketed ..).append
      (.angles rfl rfl (ihts _) (.group rfl (hps.bracketed ..) (.plain rfl (ih _))))
  | object h | tuple h =>
    simp only [row_cons, row_append, row_nil]
    exact .group rfl (h.bracketed ..) .nil
  | array _ ih =>
    rw [row_append]
    exact (ih _).append (.group rfl .nil .nil)
  | indexed _ _ ih ihis =>
    simp only [row_cons, row_append, row_nil]
    exact (ih _).append (.group rfl (ihis _).bracketed .nil)
  | joined hk _ _ ih ih' =>
    rw [row_append]
    exact (ih _).append (.plain (by rcases hk with rfl | rfl <;> rfl) (ih' _))
  | conditional _ _ _ _ ihcheck ihbs ihps ihns =>
    simp only [row_cons, row_append]
    exact (ihcheck _).append
      (.plain rfl ((ihbs _).append (.plain rfl ((ihps _).append (.plain rfl (ihns _))))))
  | argument _ ih => exact ih k
  | arguments _ _ ih ihas =>
    rw [row_append]
    exact (ih _).append (.plain rfl (ihas _))
  | bound _ ih | default _ ih => exact .plain rfl (ih _)
  | parameter hname _ _ ihbs ihds =>
    rw [row_cons, row_append]
    exact .plain (isPlain_of_isName hname) ((ihbs _).append (ihds _))
  | parameters hname _ _ _ ihbs ihds ihts =>
    simp only [row_cons, row_append]
    exact .plain (isPlain_of_isName hname)
      ((ihbs _).append ((ihds _).append (.plain rfl (ihts _))))

/-! ## The extent of types -/

theorem Derives.ne_nil (h : Derives .type ks) : ks ≠ [] := by
  cases h <;> simp

theorem Derives.memberLength_eq (h : Derives .members ks) (hdot : headKind rest ≠ .dot) :
    memberLength (row here k ks ++ rest) = ks.length := by
  generalize hpart : TypePart.members = part at h
  induction h generalizing k with
  | noMember => exact memberLength_of_ne hdot
  | member hname _ ih =>
    rw [row_cons, row_cons, List.cons_append, List.cons_append, memberLength, Token.withKind_kind,
      Token.withKind_kind, hname, if_pos (by rfl), ih hpart]
    rfl
  | _ => contradiction

/-- A dotted name is read as its tokens. -/
theorem Derives.dottedLength_eq {kind : TokenKind} (hname : kind.isName = true)
    (h : Derives .members ks) (t : Token) (hdot : headKind rest ≠ .dot) :
    dottedLength (Token.withKind t kind :: (row here k ks ++ rest)) = ks.length + 1 := by
  rw [dottedLength, Token.withKind_kind, if_pos hname, h.memberLength_eq hdot]

/-- A name that no name follows is no operator. -/
theorem isTypeOperator_of_name {t : Token} (hname : t.kind.isName = true)
    (hword : t.kind ≠ .kwKeyof ∧ t.kind ≠ .kwReadonly) (hnew : headKind rest ≠ .kwNew)
    (hrest : (headKind rest).isName = false) : isTypeOperator t rest = false := by
  unfold isTypeOperator
  split
  · exact absurd ‹_› hword.1
  · exact absurd ‹_› hword.2
  · rename_i hkind
    rw [hkind] at hname
    contradiction
  · simpa using hnew
  · rw [hrest, Bool.and_false]
  · rfl

/-- A name is read with its members, its type arguments and the indices behind them. -/
theorem Derives.operandLength_name {kind : TokenKind} (hname : kind.isName = true)
    (hword : kind ≠ .kwKeyof ∧ kind ≠ .kwReadonly) (h : Derives .members ks) (t : Token)
    (hdot : headKind rest ≠ .dot) (hnew : headKind rest ≠ .kwNew)
    (hrest : (headKind rest).isName = false) {m : Nat}
    (hm : (angleSpan? rest).elim 0 (· + 1) = m) :
    operandLength (Token.withKind t kind :: (row here k ks ++ rest)) =
      ks.length + 1 + m + predicateLength (rest.drop m) := by
  have hbehind : headKind (row here k ks ++ rest) ≠ .kwNew ∧
      (headKind (row here k ks ++ rest)).isName = false := by
    cases h with
    | noMember => exact ⟨hnew, hrest⟩
    | member => exact ⟨by simp [headKind], rfl⟩
  have hdrop : (Token.withKind t kind :: (row here k ks ++ rest)).drop (ks.length + 1) = rest := by
    rw [List.drop_succ_cons, drop_row_append]
  rw [operandLength_of_isName hname (isTypeOperator_of_name hname hword hbehind.1 hbehind.2)
      (h.dottedLength_eq hname t hdot) (hdrop ▸ hm),
    show ks.length + 1 + m - 1 = ks.length + m by omega, ← List.drop_drop, drop_row_append]

/-- The words before the parameters of a function type are operators. -/
theorem CallForm.unionLength_eq (form : CallForm) (h : unionLength rest ≠ 0) :
    unionLength (row here k form.kinds ++ rest) = form.kinds.length + unionLength rest := by
  have hnew : ∀ t, unionLength (Token.withKind t .kwNew :: rest) = unionLength rest + 1 :=
    fun t => unionLength_operator rfl h
  cases form with
  | function => exact (Nat.zero_add _).symm
  | constructor => exact (hnew _).trans (Nat.add_comm _ _)
  | abstractConstructor =>
    refine (unionLength_operator rfl ?_).trans ?_
    · exact (hnew _).symm ▸ Nat.succ_ne_zero _
    · exact (congrArg (· + 1) (hnew _)).trans (Nat.add_comm _ 2)

/-- Brackets around tokens of some kinds. -/
theorem row_group (o c : TokenKind) : row here k (o :: (ks ++ [c])) ++ rest =
    Token.withKind (here k) o ::
      (row here (k + 1) ks ++ Token.withKind (here (k + 1 + ks.length)) c :: rest) := by
  simp

/-- A bracket that no arrow follows is read up to the end of the indices behind it. -/
theorem operandLength_enclosed {o c : Token} {inner : TokenStream}
    (hkind : o.kind = .lparen ∨ o.kind = .lbrace ∨ o.kind = .lbracket)
    (hpair : o.kind.closer? = some c.kind) (hinner : Bracketed inner)
    (harrow : headKind rest ≠ .arrow) :
    operandLength (o :: (inner ++ c :: rest)) = inner.length + 2 + indexLength rest := by
  have hspan := bracketSpan?_bracketed hpair hinner rest
  rcases hkind with hkind | hkind
  · rw [operandLength_paren hkind hspan, drop_append_cons, arrowLength_of_ne harrow]
    omega
  · rw [operandLength_bracket hkind hspan, drop_append_cons]
    omega

theorem operandLength_group_row {o c : TokenKind}
    (ho : o = .lparen ∨ o = .lbrace ∨ o = .lbracket) (hpair : o.closer? = some c)
    (hinner : Bracketed (row here (k + 1) ks)) (harrow : headKind rest ≠ .arrow) :
    operandLength (row here k (o :: (ks ++ [c])) ++ rest) =
      (o :: (ks ++ [c])).length + indexLength rest := by
  have hpair' : (Token.withKind (here k) o).kind.closer? =
      some (Token.withKind (here (k + 1 + ks.length)) c).kind := hpair
  rw [row_group, operandLength_enclosed ho hpair' hinner harrow]
  simp

/-- The parameters of a function type and the type behind its arrow are read together. -/
theorem operandLength_function {o c arrow : Token} {inner : TokenStream} (ho : o.kind = .lparen)
    (hc : c.kind = .rparen) (harrow : arrow.kind = .arrow) (hinner : Bracketed inner) :
    operandLength (o :: (inner ++ c :: arrow :: rest)) = inner.length + 3 + typeLength rest := by
  rw [operandLength_paren ho (bracketSpan?_bracketed (by rw [ho, hc]; rfl) hinner _),
    drop_append_cons, arrowLength_arrow harrow]
  omega

/-- So are type parameters in front of them. -/
theorem operandLength_generic {l g o c arrow : Token} {inner inner' : TokenStream}
    (hl : l.kind = .lt) (hg : g.kind = .gt) (ho : o.kind = .lparen) (hc : c.kind = .rparen)
    (harrow : arrow.kind = .arrow) (hinner : AngleBracketed inner) (hinner' : Bracketed inner') :
    operandLength (l :: (inner ++ g :: o :: (inner' ++ c :: arrow :: rest))) =
      inner.length + inner'.length + 5 + typeLength rest := by
  have hspan := angleSpan?_angleBracketed hl hg hinner (o :: (inner' ++ c :: arrow :: rest))
  have hparen := bracketSpan?_bracketed (o := o) (c := c) (by rw [ho, hc]; rfl) hinner'
    (arrow :: rest)
  rw [operandLength_angle (m := inner'.length + 1) hl hspan
      (by rw [drop_append_cons]; exact hparen), drop_append_cons, List.drop_succ_cons,
    drop_append_cons, arrowLength_arrow harrow]
  omega

/-- No token behind token `k` comes after a line break. -/
def OneLine (here : Nat → Token) (k : Nat) : Prop := ∀ j, k < j → (here j).lineBefore = false

theorem OneLine.mono (h : OneLine here k) {k' : Nat} (hk : k ≤ k') : OneLine here k' :=
  fun j hj => h j (Nat.lt_of_le_of_lt hk hj)

theorem Derives.typeLength_of_unionLength {n : Nat} (h : Derives .type ks)
    (hlength : unionLength (row here k ks ++ rest) = ks.length + n) :
    typeLength (row here k ks ++ rest) = ks.length + n := by
  have hpos := List.length_pos_of_ne_nil h.ne_nil
  rw [typeLength_of_ne_zero (by omega), hlength]

theorem Derives.typeLength_of_stops (h : Derives .type ks)
    (hlength : unionLength (row here k ks ++ rest) = ks.length + furtherLength rest)
    (hrest : stopsType (headKind rest) = true) :
    typeLength (row here k ks ++ rest) = ks.length := by
  rw [h.typeLength_of_unionLength hlength, furtherLength_of_stops hrest, Nat.add_zero]

/-- **A type is read as its own tokens** and those that are read along with it. -/
theorem Derives.unionLength_eq (h : Derives .type ks) (hline : OneLine here k)
    (hrest : Bounds rest) :
    unionLength (row here k ks ++ rest) = ks.length + furtherLength rest := by
  generalize hpart : TypePart.type = part at h
  induction h generalizing k rest with
  | name hname hword hms _ =>
    refine unionLength_of_indices (by simp) (drop_row_append rest) ?_
    rw [row_cons, List.cons_append, hms.operandLength_name hname hword _ hrest.ne_dot hrest.ne_new
        hrest.isName (m := 0) (by rw [angleSpan?_of_ne hrest.ne_lt]; rfl), List.drop_zero,
      predicateLength_of_ne hrest.isName]
    rfl
  | applied hname hword hms has _ _ =>
    refine unionLength_of_indices (by simp) (drop_row_append rest) ?_
    simp only [row_cons, row_append, row_nil, List.cons_append, List.append_assoc, List.nil_append]
    rw [hms.operandLength_name hname hword _ (by simp [headKind]) (by simp [headKind]) rfl
        (congrArg (·.elim 0 (· + 1)) (angleSpan?_angleBracketed rfl rfl (has.angleBracketed ..) _)),
      Option.elim_some, List.drop_succ_cons, drop_append_cons, predicateLength_of_ne hrest.isName]
    simp
    omega
  | literal hk =>
    refine unionLength_of_indices (by simp) (drop_row_append rest) ?_
    exact operandLength_literal (by rcases hk with rfl | rfl <;> rfl)
  | typeof hname hms _ =>
    refine unionLength_of_indices (by simp) (drop_row_append rest) ?_
    rw [row_cons, row_cons, List.cons_append, List.cons_append, operandLength_typeof rfl,
      hms.dottedLength_eq hname _ hrest.ne_dot, List.drop_succ_cons, drop_row_append]
    simp
    omega
  | operator hk h ih =>
    have ih := ih (hline.mono (Nat.le_succ k)) hrest hpart
    have hpos := List.length_pos_of_ne_nil h.ne_nil
    rw [row_cons, List.cons_append, unionLength_operator
      (by rcases hk with rfl | rfl <;> rfl) (by rw [ih]; omega), ih, List.length_cons]
    omega
  | parenthesized h _ =>
    refine unionLength_of_indices (by simp) (drop_row_append rest) ?_
    exact operandLength_group_row (.inl rfl) rfl (h.angleBracketed ..).bracketed hrest.ne_arrow
  | @function ps ks form hps h ih =>
    have hresult := fun j (hj : k ≤ j) =>
      h.typeLength_of_unionLength (ih (hline.mono hj) hrest hpart)
    have hlength : unionLength (row here (k + form.kinds.length)
        (.lparen :: (ps ++ .rparen :: .arrow :: ks)) ++ rest) =
          (TokenKind.lparen :: (ps ++ .rparen :: .arrow :: ks)).length + furtherLength rest := by
      refine unionLength_of_further (by simp) (drop_row_append rest) hrest.settled ?_
      simp only [row_cons, row_append, List.cons_append, List.append_assoc]
      rw [operandLength_function rfl rfl rfl (hps.bracketed ..),
        hresult _ (by omega)]
      simp
      omega
    rw [row_append, List.append_assoc, form.unionLength_eq (by rw [hlength]; simp), hlength,
      List.length_append, Nat.add_assoc]
  | @generic ts ps ks form hts hps h _ ih =>
    have hresult := fun j (hj : k ≤ j) =>
      h.typeLength_of_unionLength (ih (hline.mono hj) hrest hpart)
    have hlength : unionLength (row here (k + form.kinds.length)
        (.lt :: (ts ++ .gt :: .lparen :: (ps ++ .rparen :: .arrow :: ks))) ++ rest) =
          (TokenKind.lt :: (ts ++ .gt :: .lparen :: (ps ++ .rparen :: .arrow :: ks))).length +
            furtherLength rest := by
      refine unionLength_of_further (by simp) (drop_row_append rest) hrest.settled ?_
      simp only [row_cons, row_append, List.cons_append, List.append_assoc]
      rw [operandLength_generic rfl rfl rfl rfl rfl (hts.angleBracketed ..) (hps.bracketed ..),
        hresult _ (by omega)]
      simp
      omega
    rw [row_append, List.append_assoc, form.unionLength_eq (by rw [hlength]; simp), hlength,
      List.length_append, Nat.add_assoc]
  | object h =>
    refine unionLength_of_indices (by simp) (drop_row_append rest) ?_
    exact operandLength_group_row (.inr (.inl rfl)) rfl (h.bracketed ..) hrest.ne_arrow
  | tuple h =>
    refine unionLength_of_indices (by simp) (drop_row_append rest) ?_
    exact operandLength_group_row (.inr (.inr rfl)) rfl (h.bracketed ..) hrest.ne_arrow
  | @array ks h ih =>
    have hpos := List.length_pos_of_ne_nil h.ne_nil
    have hfurther : furtherLength (row here (k + ks.length) [.lbracket, .rbracket] ++ rest) =
        2 + furtherLength rest :=
      @furtherLength_index [] rest _ _ rfl rfl (hline _ (by omega)) .nil
    rw [row_append, List.append_assoc, ih hline (.of_goesOn rfl hfurther rfl hrest) hpart, hfurther,
      List.length_append, Nat.add_assoc]
    rfl
  | @indexed ks is h his ih _ =>
    have hpos := List.length_pos_of_ne_nil h.ne_nil
    have hat : (Token.withKind (here (k + ks.length)) .lbracket).lineBefore = false :=
      hline _ (by omega)
    have hfurther : furtherLength (row here (k + ks.length)
        (.lbracket :: (is ++ [.rbracket])) ++ rest) =
          (TokenKind.lbracket :: (is ++ [.rbracket])).length + furtherLength rest := by
      rw [row_group, furtherLength_index (by rfl) (by rfl) hat (his.angleBracketed ..).bracketed]
      simp
    rw [row_append, List.append_assoc,
      ih hline (.of_goesOn rfl hfurther (drop_row_append rest) hrest) hpart, hfurther,
      List.length_append, Nat.add_assoc]
  | @joined kind ks ks' hk h h' ih ih' =>
    have hgoesOn : goesOn (headKind (row here (k + ks.length) (kind :: ks') ++ rest)) = true := by
      rcases hk with rfl | rfl <;> rfl
    have hfurther : furtherLength (row here (k + ks.length) (kind :: ks') ++ rest) =
        (kind :: ks').length + furtherLength rest := by
      rw [furtherLength_of_ne (by rcases hk with rfl | rfl <;> simp [headKind]), row_cons,
        List.cons_append, joinedLength_joint hk, ih' (hline.mono (by omega)) hrest hpart,
        List.length_cons]
      omega
    rw [row_append, List.append_assoc,
      ih hline (.of_goesOn hgoesOn hfurther (drop_row_append rest) hrest) hpart, hfurther,
      List.length_append, Nat.add_assoc]
  | @conditional check bs ps ns hcheck hbs hps hns ihcheck ihbs ihps ihns =>
    have hpos := List.length_pos_of_ne_nil hcheck.ne_nil
    have hat : (Token.withKind (here (k + check.length)) .kwExtends).lineBefore = false :=
      hline _ (by omega)
    have hresult := fun j (hj : k ≤ j) =>
      hns.typeLength_of_unionLength (ihns (hline.mono hj) hrest hpart)
    have hfurther : furtherLength (row here (k + check.length)
        (.kwExtends :: (bs ++ .question :: (ps ++ .colon :: ns))) ++ rest) =
          (TokenKind.kwExtends :: (bs ++ .question :: (ps ++ .colon :: ns))).length +
            furtherLength rest := by
      rw [furtherLength_of_ne (by simp [headKind]), row_cons, List.cons_append,
        joinedLength_extends (by rfl) hat]
      simp only [row_cons, row_append, List.cons_append, List.append_assoc]
      rw [conditionalLength_of_parts rfl rfl, hresult _ (by omega)]
      · simp
        omega
      · rw [length_row]
        exact hbs.typeLength_of_stops
          (ihbs (hline.mono (by omega)) (.of_stops rfl) hpart) rfl
      · rw [length_row]
        exact hps.typeLength_of_stops
          (ihps (hline.mono (by omega)) (.of_stops rfl) hpart) rfl
    rw [row_append, List.append_assoc,
      ihcheck hline (.of_goesOn rfl hfurther (drop_row_append rest) hrest) hpart, hfurther,
      List.length_append, Nat.add_assoc]
  | _ => contradiction

end

section

variable {ts : TokenStream} {place : Nat → TokenPlace}

/-- All tokens are those of their own kinds. -/
theorem row_map_kind (us : TokenStream) (k : Nat) {here : Nat → Token}
    (h : ∀ n t, us[n]? = some t → here (k + n) = t) : row here k (us.map Token.kind) = us := by
  induction us generalizing k with
  | nil => rfl
  | cons t us ih =>
    have htail := ih (k + 1) fun n t ht => by
      rw [Nat.add_assoc, Nat.add_comm 1]
      exact h (n + 1) t ht
    rw [List.map_cons, row_cons, htail, show here k = t from h 0 t rfl]
    rfl

/-- Tokens on one line that have these kinds. -/
theorem exists_row {ks : List TokenKind} {i : Nat} (hkinds : ks <+: (ts.drop i).map Token.kind)
    (hline : ∀ j, i < j → j < i + ks.length → ts.lineBefore j = false) :
    ∃ here, ts.drop i = row here i ks ++ ts.drop (i + ks.length) ∧ OneLine here i := by
  have htake : ((ts.drop i).take ks.length).map Token.kind = ks := by
    rw [List.map_take, ← List.prefix_iff_eq_take.mp hkinds]
  have hdrop : (ts.drop i).take ks.length = (ts.take (i + ks.length)).drop i := by
    rw [List.drop_take, Nat.add_sub_cancel_left]
  -- what is not among the tokens counts as standing on the line
  let here j := (ts.take (i + ks.length)).getD j (endToken ⟨⟨0, 0⟩, false⟩)
  have hhere : ∀ j, here j = ((ts.take (i + ks.length))[j]?).getD (endToken ⟨⟨0, 0⟩, false⟩) :=
    fun j => List.getD_eq_getElem?_getD
  refine ⟨here, ?_, fun j hj => ?_⟩
  · have hrow : row here i (((ts.drop i).take ks.length).map Token.kind) =
        (ts.drop i).take ks.length := row_map_kind _ i fun n t ht => by
      rw [hdrop, List.getElem?_drop] at ht
      rw [hhere, ht, Option.getD_some]
    rw [htake] at hrow
    rw [hrow, ← List.drop_drop, List.take_append_drop]
  · rw [hhere, List.getElem?_take]
    split
    · have hat := hline j hj ‹_›
      rw [lineBefore] at hat
      cases hget : ts[j]? with
      | none => rfl
      | some t => rwa [hget] at hat
    · rfl

theorem map_kind_stream (ws : List Word) (k : Nat) :
    (stream place k ws).map Token.kind = ws.map Word.kind := by
  induction ws generalizing k with
  | nil => rfl
  | cons w ws ih => exact congrArg (w.kind :: ·) (ih (k + 1))

/-- The type at token `i` is read as exactly its own tokens. -/
theorem Derives.pastType_eq {ks : List TokenKind} {i : Nat} (h : Derives .type ks)
    (hkinds : ks <+: (ts.drop i).map Token.kind)
    (hline : ∀ j, i < j → j < i + ks.length → ts.lineBefore j = false)
    (hstop : stopsType (ts.kind (i + ks.length)) = true) : ts.pastType i = i + ks.length := by
  obtain ⟨here, hdrop, hline⟩ := exists_row hkinds hline
  rw [kind_eq_headKind_drop] at hstop
  rw [pastType, hdrop, h.typeLength_of_stops (h.unionLength_eq hline (.of_stops hstop)) hstop]

/-- What is read of printed words: their kinds, on one line, and what comes behind them. -/
theorem tokens_of_printed (front ws back : List Word) {ts : TokenStream}
    (hts : ts = (Scan.ofText (String.ofList (print (front ++ ws ++ back)))).tokens) :
    ws.map Word.kind <+: (ts.drop front.length).map Token.kind ∧
      (∀ j, 0 < j → j < front.length + ws.length → ts.lineBefore j = false) ∧
      ts.kind (front.length + ws.length) = (back.head?).elim .eof Word.kind := by
  obtain ⟨p, htokens⟩ := tokens_print (front ++ ws ++ back)
  rw [← hts] at htokens
  have hflat := flat_placeAt (front ++ ws ++ back)
  generalize placeAt (front ++ ws ++ back) = place at htokens hflat
  have hreads : Reads place ts 0 (front ++ ws) := Reads.left ⟨[endToken p], htokens⟩
  have hbehind : ts.drop (front.length + ws.length) =
      stream place (front.length + ws.length) back ++ [endToken p] := by
    rw [htokens, stream_append, List.append_assoc, ← List.length_append, drop_stream_append,
      Nat.zero_add]
  refine ⟨?_, fun j hj hlt => ?_, ?_⟩
  · obtain ⟨rest, hrest⟩ := hreads.right
    rw [Nat.zero_add] at hrest
    rw [hrest, List.map_append, map_kind_stream]
    exact List.prefix_append _ _
  · obtain ⟨w, _, hw⟩ := hreads.exists_mem_getElem? (Nat.zero_le j)
      (by rwa [List.length_append, Nat.zero_add])
    rw [lineBefore, hw]
    exact hflat j hj
  · rw [kind_eq_headKind_drop, hbehind]
    cases back <;> rfl

/-- **A type is read as exactly its own tokens.**  This holds of all tokens on one line that are of
the kinds of a type, in any stream, before every token that ends types; so it holds of the words of
a type in any text of words that are printed with spaces. -/
theorem type_read_exactly :
    (∀ (ts : TokenStream) (i : Nat) (ks : List TokenKind), Derives .type ks →
      ks <+: (ts.drop i).map Token.kind →
      (∀ j, i < j → j < i + ks.length → ts.lineBefore j = false) →
      stopsType (ts.kind (i + ks.length)) = true → ts.pastType i = i + ks.length) ∧
    ∀ front ws back : List Word, Derives .type (ws.map Word.kind) →
      (∀ w ∈ back.head?, stopsType w.kind = true) →
      pastType (Scan.ofText (String.ofList (print (front ++ ws ++ back)))).tokens front.length =
        front.length + ws.length := by
  refine ⟨fun ts i ks hks => hks.pastType_eq, fun front ws back hws hback => ?_⟩
  obtain ⟨hkinds, hline, hbehind⟩ := tokens_of_printed front ws back rfl
  rw [hws.pastType_eq hkinds, List.length_map]
  · intro j hj hlt
    exact hline j (Nat.zero_lt_of_lt hj) (by rwa [List.length_map] at hlt)
  · rw [List.length_map, hbehind]
    cases hhead : back.head? with
    | none => rfl
    | some w => exact hback w hhead

end

/-- A type in parentheses: a union of a name that is applied to two types, one of them conditional,
and of a type of constructors. -/
def nestedType : List Word :=
  let type := (Name.ofText ['K']).word
  let key := (Name.ofText ['k']).word
  let seven : Word := ⟨.numberLiteral, ['7'], spells_digits (by decide) (List.forall_mem_nil _)⟩
  let quoted : Word := ⟨.stringLiteral, ['"', 'k', '"'],
    spells_quoted (List.forall_mem_singleton.mpr (by decide))⟩
  let applied : List Word := [type, .of .dot, key, .of .lt, .of .kwKeyof, type, .of .lbracket,
    .of .rbracket, .of .comma, type, .of .kwExtends, type, .of .question, seven, .of .colon, type,
    .of .gt]
  let constructors : List Word := [.of .kwAbstract, .of .kwNew, .of .lparen, key, .of .colon, type,
    .of .rparen, .of .arrow, .of .lbrace, key, .of .colon, .of .lbracket, type, .of .rbracket,
    .of .rbrace, .of .lbracket, quoted, .of .rbracket]
  .of .lparen :: (applied ++ .of .pipe :: (constructors ++ [.of .rparen]))

theorem derives_nestedType : Derives .type (nestedType.map Word.kind) := by
  have hname : Derives .type [.identifier] := .name rfl (by decide) .noMember
  have hkeyof := Derives.operator (.inl rfl) (.array hname)
  have hconditional := Derives.conditional hname hname (.literal (.inr rfl)) hname
  have happlied := Derives.applied (k := .identifier) rfl (by decide)
    (.member (k := .identifier) rfl .noMember) (.arguments hkeyof (.argument hconditional))
  have hparameters : Enclosed [.identifier, .colon, .identifier] :=
    .plain rfl rfl (.plain rfl rfl (.plain rfl rfl .nil))
  have hmembers := Enclosed.plain (k := .identifier) rfl rfl (.plain (k := .colon) rfl rfl
    (.group (o := .lbracket) rfl (.plain (k := .identifier) rfl rfl .nil) .nil))
  have hobject := Derives.indexed (.object hmembers) (.literal (.inl rfl))
  exact (Derives.joined (.inl rfl) happlied
    (.function .abstractConstructor hparameters hobject)).parenthesized

theorem type_read_exactly_nested : Derives .type (nestedType.map Word.kind) ∧
    pastType (Scan.ofText (String.ofList (print ([.of .kwLet, (Name.ofText ['v']).word, .of .colon]
      ++ nestedType ++ [.of .equals])))).tokens 3 = 3 + 38 :=
  ⟨derives_nestedType, type_read_exactly.2 [.of .kwLet, (Name.ofText ['v']).word, .of .colon]
    nestedType [.of .equals] derives_nestedType (by simp [stopsType])⟩

end Grammar

end TypeScriptEngine
