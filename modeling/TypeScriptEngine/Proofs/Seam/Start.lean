import TypeScriptEngine.Proofs.CommonJs.Program
import TypeScriptEngine.Proofs.Emit.Declared
import TypeScriptEngine.Proofs.Seam.Layout

/-! # Where one statement ends and the next one begins

A statement on a line of its own begins a statement for the emitter just if the one before it is
settled (`startsStatement_behind`).  That is if it ends in a semicolon, or in a word that can be the
last one of an expression; a closing angle bracket, an exclamation mark and the word `default` are
none (`Line.isSettled_eq`).  A settled constant ends where its line does (`statementLength_constant`).
-/

namespace TypeScriptEngine.Seam

open TypeScriptEngine.Text TokenStream ModuleSyntax Grammar
open Emit (Goal Draft)

/-! ## Settled statements -/

/-- Whether a word can be the last one of an expression. -/
def endsExpression (w : Word) : Bool := (w.token ⟨⟨0, 0⟩, false⟩).endsExpression

/-- The last words of statements that are not taken for the last ones of an expression. -/
def hidesEnd : TokenKind → Bool
  | .gt | .bang | .kwDefault => true
  | _ => false

namespace Line

def words (l : Line) : List Word :=
  l.statement.words ++ if l.semicolon then [.of .semicolon] else []

/-- Whether the end of a statement shows. -/
def isSettled (l : Line) : Bool :=
  l.semicolon || l.statement.words.getLast?.any fun w => !hidesEnd w.kind

def isAlias (l : Line) : Bool := match l.statement with
  | .typeAlias .. => true
  | .constant .. => false

/-- Whether the last word of a type is an operator on a word behind it. -/
def isOperator (l : Line) : Bool :=
  !l.semicolon && l.isAlias && l.statement.words.getLast?.any fun w =>
    ["unique", "infer", "asserts"].contains w.value

/-- The end of a statement shows before another one. -/
def EndsAt (l l' : Line) : Prop := l.isSettled = true ∧ (l.isOperator = true → l'.isAlias = false)

end Line

/-- The end of every statement shows that another one follows. -/
def Settled : List Line → Prop
  | l :: l' :: ls => l.EndsAt l' ∧ Settled (l' :: ls)
  | _ => True

/-! ## Words of statements -/

theorem Value.balanced (v : Value) : Balanced v.words := by
  have hname : ∀ n : Ident, n.word.kind.isOpener = false ∧ n.word.kind.isCloser = false := by
    intro n
    rw [n.kind_word]
    exact ⟨rfl, rfl⟩
  cases v with
  | name n => exact .plain (hname n).1 (hname n).2 .nil
  | literal w h => rcases h with h | h <;> exact .plain (by rw [h]; rfl) (by rw [h]; rfl) .nil
  | default object => exact .plain (hname object).1 (hname object).2 (.plain rfl rfl (.plain rfl rfl .nil))
  | asserted n => exact .plain (hname n).1 (hname n).2 (.plain rfl rfl .nil)

theorem Statement.balanced (s : Statement) : Balanced s.words := by
  have hname : ∀ (n : Ident) {ws : List Word}, Balanced ws → Balanced (n.word :: ws) := fun n _ h =>
    .plain (by rw [n.kind_word]; rfl) (by rw [n.kind_word]; rfl) h
  cases s with
  | typeAlias name type => exact .plain rfl rfl (hname name (.plain rfl rfl type.angled.balanced))
  | constant exported name value =>
    have hconst : Balanced (.of .kwConst :: definition name value) :=
      .plain rfl rfl (hname name (.plain rfl rfl value.balanced))
    cases exported
    · exact hconst
    · exact .plain rfl rfl hconst

theorem Line.balanced (l : Line) : Balanced l.words := by
  refine l.statement.balanced.append ?_
  split
  · exact .plain rfl rfl .nil
  · exact .nil

theorem Statement.words_ne_nil (s : Statement) : s.words ≠ [] := by
  cases s <;> simp [words]

/-! ## Last words -/

/-- Words end in one that hides their end, or that can be the last one of an expression. -/
def HasEnd (ws : List Word) : Prop :=
  ∃ w, ws.getLast? = some w ∧ (hidesEnd w.kind = true ∨ endsExpression w = true)

theorem HasEnd.append {ws : List Word} (h : HasEnd ws) (front : List Word) : HasEnd (front ++ ws) := by
  obtain ⟨w, hlast, hw⟩ := h
  exact ⟨w, by rw [List.getLast?_append, hlast]; rfl, hw⟩

theorem HasEnd.cons {ws : List Word} (h : HasEnd ws) (w : Word) : HasEnd (w :: ws) := h.append [w]

theorem hasEnd_of_kind {w : Word} (hkind : hidesEnd w.kind = true ∨ endsExpression w = true)
    (front : List Word) : HasEnd (front ++ [w]) := ⟨w, List.getLast?_concat, hkind⟩

theorem endsExpression_of_isName {w : Word} (h : w.kind.isName = true) : endsExpression w = true := by
  simp [endsExpression, Token.endsExpression, h]

theorem endsExpression_of_isLiteral {w : Word}
    (h : w.kind = .stringLiteral ∨ w.kind = .numberLiteral) : endsExpression w = true := by
  rcases h with h | h <;> simp [endsExpression, Token.endsExpression, h]

theorem DottedName.hasEnd (n : DottedName) : HasEnd n.words := by
  obtain ⟨head, members⟩ := n
  rcases List.eq_nil_or_concat members with rfl | ⟨front, m, rfl⟩
  · exact hasEnd_of_kind (.inr (endsExpression_of_isName head.isName)) []
  · have hwords : DottedName.words ⟨head, front ++ [m]⟩ =
        (head.word :: (memberWords front ++ [.of .dot])) ++ [m.word] := by
      simp [DottedName.words, memberWords]
    rw [List.concat_eq_append, hwords]
    exact hasEnd_of_kind (.inr (endsExpression_of_isName m.isName)) _

theorem Operand.hasEnd (operand : Operand) : HasEnd operand.words := by
  cases operand with
  | name name => exact DottedName.hasEnd name
  | applied name arguments => exact (hasEnd_of_kind (.inl rfl) (.of .lt :: arguments.words)).append _
  | literal literal =>
    exact hasEnd_of_kind (.inr (endsExpression_of_isLiteral literal.isLiteral)) []
  | typeof name => exact (DottedName.hasEnd name).cons _
  | operator operator operand => exact (Operand.hasEnd operand).cons _
  | parenthesized type => exact hasEnd_of_kind (.inr rfl) (.of .lparen :: type.words)
  | object members => exact hasEnd_of_kind (.inr rfl) (.of .lbrace :: members.words)
  | tuple elements => exact hasEnd_of_kind (.inr rfl) (.of .lbracket :: elements.words)
  | array element => exact (hasEnd_of_kind (.inr rfl) [.of .lbracket]).append _
  | indexed object index =>
    exact (hasEnd_of_kind (.inr rfl) (.of .lbracket :: index.words)).append _

theorem TypeExpr.hasEnd (type : TypeExpr) : HasEnd type.words := by
  cases type with
  | operand operand => exact Operand.hasEnd operand
  | joined operand joint rest => exact ((TypeExpr.hasEnd rest).cons _).append _
  | function head parameters result =>
    exact ((((TypeExpr.hasEnd result).cons _).cons _).append (.of .lparen :: parameters.words)).append _
  | generic head typeParameters parameters result =>
    exact ((((((TypeExpr.hasEnd result).cons _).cons _).append
      (.of .lparen :: parameters.words)).cons _).append (.of .lt :: typeParameters.words)).append _
  | conditional check bound positive negative =>
    exact (((((TypeExpr.hasEnd negative).cons _).append (.of .question :: positive.words)).append
      (.of .kwExtends :: bound.words))).append _

theorem Statement.hasEnd (s : Statement) : HasEnd s.words := by
  have hname : ∀ n : Ident, endsExpression n.word = true := fun n =>
    endsExpression_of_isName (by rw [n.kind_word]; rfl)
  cases s with
  | typeAlias name type => exact (TypeExpr.hasEnd type).append [_, _, _]
  | constant exported name value =>
    have hvalue : HasEnd value.words := by
      cases value with
      | name n => exact hasEnd_of_kind (.inr (hname n)) []
      | literal w h => exact hasEnd_of_kind (.inr (endsExpression_of_isLiteral h)) []
      | default object => exact hasEnd_of_kind (.inl rfl) [_, _]
      | asserted n => exact hasEnd_of_kind (.inl rfl) [_]
    exact (hvalue.append [_, _, _]).append _

/-- A word that hides the end of a statement is not the last one of an expression. -/
theorem endsExpression_of_hidesEnd {w : Word} (h : hidesEnd w.kind = true) :
    endsExpression w = false := by
  revert h
  unfold endsExpression Token.endsExpression
  simp only [Word.token_kind]
  cases w.kind <;> simp [hidesEnd, TokenKind.isName, TokenKind.isContextual]

/-- **The end of a statement shows** if it has a semicolon, or ends as an expression can. -/
theorem Line.isSettled_eq (l : Line) :
    l.isSettled = (l.semicolon || l.statement.words.getLast?.any endsExpression) := by
  obtain ⟨w, hlast, hw⟩ := l.statement.hasEnd
  rw [isSettled, hlast, Option.any_some, Option.any_some]
  refine congrArg _ ?_
  cases hhides : hidesEnd w.kind with
  | true => rw [endsExpression_of_hidesEnd hhides]; rfl
  | false => rw [hw.resolve_left (by simp [hhides])]; rfl

/-- The last word of a statement opens no bracket, and is no semicolon. -/
theorem Statement.last (s : Statement) :
    ∀ w ∈ s.words.getLast?, w.kind.isOpener = false ∧ w.kind ≠ .semicolon := by
  obtain ⟨w, hlast, hw⟩ := s.hasEnd
  intro v hv
  obtain rfl : w = v := Option.some.inj (hlast.symm.trans hv)
  revert hw
  unfold endsExpression Token.endsExpression
  simp only [Word.token_kind]
  cases w.kind <;> simp [hidesEnd, TokenKind.isName, TokenKind.isContextual, TokenKind.isOpener]

/-! ## Where a statement begins -/

theorem length_bits (l : Line) : l.bits.length = l.words.length := by
  rw [Line.words, ← l.words_bits, List.length_map]

theorem foldl_depthAfter_bits {bs : List Bit} (h : Balanced (bs.map Bit.word)) (pos : Nat)
    (lineBefore : Bool) (depth : Nat) :
    (tokensOf pos lineBefore bs).foldl (fun depth t => depthAfter depth t.kind) depth = depth := by
  obtain ⟨place, htokens, -⟩ := exists_stream bs pos 0 lineBefore
  rw [htokens, foldl_depthAfter_balanced h]

/-- **What is on a line of its own begins a statement just if the statement before it is settled.** -/
theorem startsStatement_behind (l : Line) (front : TokenStream) (pos : Nat) (lineBefore : Bool)
    {t : Token} (hline : t.lineBefore = true) (rest : TokenStream) :
    startsStatement (front ++ (tokensOf pos lineBefore l.bits ++ t :: rest))
      (front.length + l.bits.length) = l.isSettled := by
  obtain ⟨init, b, hbits⟩ : ∃ init b, l.bits = init ++ [b] := by
    refine ⟨_, _, (List.dropLast_append_getLast fun hnil => ?_).symm⟩
    have hwords := l.words_bits
    rw [hnil] at hwords
    exact l.statement.words_ne_nil (List.append_eq_nil_iff.mp hwords.symm).1
  generalize hts : front ++ (tokensOf pos lineBefore l.bits ++ t :: rest) = ts
  have hlength : (tokensOf pos lineBefore l.bits).length = init.length + 1 := by
    rw [length_tokensOf, hbits, List.length_append, List.length_singleton]
  have hlast : ∃ p, ts[front.length + init.length]? = some (b.word.token p) := by
    rw [← hts, List.getElem?_append_right (by omega), Nat.add_sub_cancel_left,
      List.getElem?_append_left (by omega), getElem?_tokensOf hbits]
    exact ⟨_, rfl⟩
  have hnext : ts[front.length + init.length + 1]? = some t := by
    rw [← hts, List.getElem?_append_right (by omega), List.getElem?_append_right (by omega), hlength]
    have hindex : front.length + init.length + 1 - front.length - (init.length + 1) = 0 := by omega
    rw [hindex]
    rfl
  obtain ⟨p, hlast⟩ := hlast
  have hwords := congrArg List.getLast? l.words_bits
  rw [hbits, List.map_append, List.map_singleton, List.getLast?_append_of_ne_nil _ (by simp),
    List.getLast?_singleton] at hwords
  rw [hbits, List.length_append, List.length_singleton, ← Nat.add_assoc, startsStatement,
    TokenStream.kind, hlast, TokenStream.lineBefore, hnext, TokenStream.endsExpression, hlast]
  simp only [Option.elim_some, Word.token_kind, hline, Bool.true_and]
  change (_ || _ || _ || endsExpression b.word) = _
  rw [l.isSettled_eq]
  cases hsemicolon : l.semicolon with
  | true =>
    rw [hsemicolon, if_pos rfl, List.getLast?_append_of_ne_nil _ (by simp),
      List.getLast?_singleton] at hwords
    rw [Option.some.inj hwords]
    rfl
  | false =>
    rw [hsemicolon, if_neg (by decide), List.append_nil] at hwords
    obtain ⟨hopen, hne⟩ := l.statement.last b.word hwords.symm
    rw [← hwords, Option.any_some, Bool.false_or]
    -- a closing brace can be the last token of an expression
    have hbrace : b.word.kind = .rbrace → endsExpression b.word = true := fun h => by
      simp [endsExpression, Token.endsExpression, h]
    have hlbrace : b.word.kind ≠ .lbrace := fun h => by simp [h, TokenKind.isOpener] at hopen
    cases hends : endsExpression b.word with
    | true => simp
    | false =>
      have hrbrace : b.word.kind ≠ .rbrace := fun h => by simp [hbrace h] at hends
      simp [hne, hlbrace, hrbrace]

/-! ## Where a statement ends -/

/-- What stands behind a line: nothing, or the next line, before which its end shows. -/
inductive Follows (l : Line) : TokenStream → Prop where
  | eof {t : Token} {rest : TokenStream} (hkind : t.kind = .eof) : Follows l (t :: rest)
  | line {t : Token} {rest : TokenStream} (hline : t.lineBefore = true)
      (hsettled : l.isSettled = true)
      (hkind : t.kind = .kwType ∧ l.isOperator = false ∨ t.kind = .kwExport ∨ t.kind = .kwConst) :
      Follows l (t :: rest)

/-- The words of a type end before what stands behind its line. -/
theorem endsType_of_follows {l : Line} {name : Ident} {type : TypeExpr}
    (hstatement : l.statement = .typeAlias name type) (hsemicolon : l.semicolon = false)
    {rest : TokenStream} (h : Follows l rest) : EndsType type.words rest := by
  have hoperator : l.isOperator = false → ∀ w, [w] <:+ type.words →
      ["unique", "infer", "asserts"].contains w.value = false := by
    intro hoperator w hw
    have hlast : l.statement.words.getLast? = some w := by
      obtain ⟨front, hfront⟩ := hw
      rw [hstatement, Statement.words, ← hfront]
      simp [List.getLast?_cons]
    rw [Line.isOperator, hsemicolon, Line.isAlias, hstatement] at hoperator
    rw [hstatement] at hlast
    simpa [hlast] using hoperator
  have hother : ∀ {t : Token} {rest : TokenStream} {w : Word} {p : TokenPlace},
      t.kind.isName = false → w.kind = .identifier → isTypeOperator (w.token p) (t :: rest) = false :=
    fun ht hw => isTypeOperator_of_identifier hw ht
  cases h with
  | eof hkind =>
    exact .of_statement (.inr (.inr (.inr hkind))) fun _ _ _ hw => hother (by rw [hkind]; rfl) hw
  | @line t rest _ _ hkind =>
    rcases hkind with ⟨hkind, hop⟩ | hkind | hkind
    · refine .of_statement (.inl hkind) fun w p hlast hw => ?_
      have hvalue := hoperator hop w hlast
      simp only [List.contains_cons, List.contains_nil, Bool.or_false, Bool.or_eq_false_iff] at hvalue
      simp [isTypeOperator, hw, hvalue]
    · exact .of_statement (.inr (.inl hkind)) fun _ _ _ hw => hother (by rw [hkind]; rfl) hw
    · exact .of_statement (.inr (.inr (.inl hkind))) fun _ _ _ hw => hother (by rw [hkind]; rfl) hw

/-- Neither a bracket nor an angle bracket, and nothing that separates. -/
def isInner (k : TokenKind) : Bool :=
  !k.isOpener && !k.isCloser && k != .semicolon && k != .comma && k != .lt

theorem of_isInner {k : TokenKind} (h : isInner k = true) :
    k.isOpener = false ∧ k.isCloser = false ∧ k ≠ .semicolon ∧ k ≠ .comma ∧ k ≠ .lt := by
  simpa [isInner, and_assoc] using h

/-- Words without brackets and semicolons on one line are passed over. -/
theorem statementLength_words {place : Nat → TokenPlace} {ws : List Word} {k : Nat}
    {rest : TokenStream} (hflat : ∀ j, k < j → (place j).lineBefore = false)
    (hws : ∀ w ∈ ws, isInner w.kind = true) (hrest : headLineBefore rest = false) :
    statementLength 0 (stream place k ws ++ rest) = ws.length + statementLength 0 rest := by
  induction ws generalizing k with
  | nil => simp
  | cons w ws ih =>
    obtain ⟨hw, hws⟩ := List.forall_mem_cons.mp hws
    obtain ⟨hopen, hclose, hsemicolon, -⟩ := of_isInner hw
    have hline : headLineBefore (stream place (k + 1) ws ++ rest) = false := by
      cases ws with
      | nil => exact hrest
      | cons w' ws => exact hflat (k + 1) (Nat.lt_succ_self k)
    rw [stream_cons, List.cons_append, statementLength_step (by simp [hclose]) hsemicolon hline,
      show depthAfter 0 w.kind = 0 by simp [depthAfter, hopen, hclose],
      ih (fun j hj => hflat j (Nat.lt_of_succ_lt hj)) hws, List.length_cons]
    omega

/-- The last word ends a statement before what stands behind its line. -/
theorem statementLength_last {l : Line} (hsemicolon : l.semicolon = false) {w : Word}
    (hlast : l.statement.words.getLast? = some w)
    (hw : isInner w.kind = true) {rest : TokenStream} (h : Follows l rest) (p : TokenPlace) :
    statementLength 0 (w.token p :: rest) = 1 := by
  obtain ⟨hopen, hclose, hsemicolon', -⟩ := of_isInner hw
  rw [statementLength_cons hclose hopen hsemicolon' w.spells.kind_ne_eof]
  cases h with
  | @eof t rest hkind =>
    have hzero : statementLength 0 (t :: rest) = 0 := by rw [statementLength, if_pos hkind]
    rw [hzero]
    simp
  | @line t rest hline hsettled hkind =>
    have hends : (w.token p).endsExpression = true := by
      rw [l.isSettled_eq, hsemicolon, hlast] at hsettled
      exact hsettled
    have hcontinues : (headKind (t :: rest)).continuesExpression = false := by
      rcases hkind with ⟨hkind, -⟩ | hkind | hkind <;> simp only [headKind, hkind] <;> rfl
    have hbreak : breaksAfter (w.token p) (t :: rest) = true :=
      (breaksAfter_of_ends hends hcontinues).trans hline
    rw [hbreak]
    rfl

/-- The words of a constant hold no bracket and nothing that separates. -/
theorem definition_inner (name : Ident) (value : Value) :
    ∀ w ∈ Word.of .kwConst :: definition name value, isInner w.kind = true := by
  have hname : ∀ n : Ident, isInner n.word.kind = true := by
    intro n
    rw [n.kind_word]
    rfl
  have hvalue : ∀ w ∈ value.words, isInner w.kind = true := by
    cases value with
    | name n => exact List.forall_mem_singleton.mpr (hname n)
    | literal w h =>
      refine List.forall_mem_singleton.mpr ?_
      rcases h with h | h <;> rw [h] <;> rfl
    | default object =>
      exact List.forall_mem_cons.mpr
        ⟨hname object, List.forall_mem_cons.mpr ⟨rfl, List.forall_mem_singleton.mpr rfl⟩⟩
    | asserted n => exact List.forall_mem_cons.mpr ⟨hname n, List.forall_mem_singleton.mpr rfl⟩
  exact List.forall_mem_cons.mpr
    ⟨rfl, List.forall_mem_cons.mpr ⟨hname name, List.forall_mem_cons.mpr ⟨rfl, hvalue⟩⟩⟩

/-- **The end of a constant is found,** behind its semicolon if it has one. -/
theorem statementLength_constant {l : Line} {exported : Bool} {name : Ident} {value : Value}
    (hstatement : l.statement = .constant exported name value) {place : Nat → TokenPlace} {k : Nat}
    (hflat : ∀ j, k < j → (place j).lineBefore = false) {rest : TokenStream} (h : Follows l rest) :
    statementLength 0 (stream place k ((Word.of .kwConst :: definition name value) ++
        if l.semicolon then [.of .semicolon] else []) ++ rest) =
      ((Word.of .kwConst :: definition name value) ++
        if l.semicolon then [Word.of .semicolon] else []).length := by
  have hws := definition_inner name value
  cases hsemicolon : l.semicolon with
  | true =>
    have hline := hflat (k + (Word.of .kwConst :: definition name value).length) (by simp)
    have hlast : ∀ p, statementLength 0 ((Word.of .semicolon).token p :: rest) = 1 := fun p => by
      rw [statementLength]
      simp [TokenKind.isCloser]
    rw [if_pos rfl, stream_append, List.append_assoc, statementLength_words hflat hws (by exact hline),
      List.length_append]
    exact congrArg _ (hlast _)
  | false =>
    obtain ⟨v, init, w, hsplit⟩ : ∃ v init w, Word.of .kwConst :: definition name value =
        (v :: init) ++ [w] := by
      have hne : definition name value ≠ [] := List.cons_ne_nil _ _
      exact ⟨_, _, _, congrArg (_ :: ·) (List.dropLast_append_getLast hne).symm⟩
    have hlast : l.statement.words.getLast? = some w := by
      rw [hstatement, Statement.words, hsplit, ← List.append_assoc]
      exact List.getLast?_concat
    have hline := hflat (k + (v :: init).length) (by simp)
    rw [if_neg (by decide), List.append_nil, hsplit, stream_append, List.append_assoc,
      statementLength_words hflat (fun u hu => hws u (hsplit ▸ List.mem_append_left _ hu))
        (by exact hline), List.length_append]
    exact congrArg _ (statementLength_last hsemicolon hlast (hws w (by simp [hsplit])) h _)

end TypeScriptEngine.Seam
