import TypeScriptEngine.Proofs.Grammar.Expression
import TypeScriptEngine.Proofs.Token.TypeExtent

/-! # Expressions read as types

What the reader of types makes of expressions.  Behind the colon of a conditional it may come to a
stop before an arrow, and does so exactly where the expression begins like the result type of a
function (`kind_pastType_eq_arrow_iff`).
-/

namespace TypeScriptEngine

namespace TokenStream

variable {ts : TokenStream} {i j k c : Nat}

/-! ## Angle brackets -/

/-- What closes angle brackets is an angle bracket. -/
theorem headKind_of_angleOffset? {depth n : Nat} (h : angleOffset? depth ts = some n) :
    headKind (ts.drop n) = .gt := by
  fun_induction angleOffset? depth ts generalizing n with
  | case1 => contradiction
  | case2 depth t rest _ ih =>
    obtain ⟨m, hm, rfl⟩ := Option.map_eq_some_iff.mp h
    exact ih hm
  | case3 t rest _ hgt =>
    obtain rfl := Option.some.inj h
    exact hgt
  | case4 t rest _ _ depth ih =>
    obtain ⟨m, hm, rfl⟩ := Option.map_eq_some_iff.mp h
    exact ih hm
  | case5 depth t rest _ _ _ ih =>
    obtain ⟨n, _, hn⟩ := Option.bind_eq_some_iff.mp h
    obtain ⟨m, hm, rfl⟩ := Option.map_eq_some_iff.mp hn
    have hih := ih n hm
    rwa [List.drop_drop, Nat.add_comm] at hih
  | case6 => contradiction
  | case7 depth t rest _ _ _ _ ih =>
    obtain ⟨m, hm, rfl⟩ := Option.map_eq_some_iff.mp h
    exact ih hm

theorem kind_of_angleSpan? {n : Nat} (h : angleSpan? (ts.drop i) = some n) :
    ts.kind (i + n) = .gt := by
  cases hdrop : ts.drop i with
  | nil => simp [hdrop, angleSpan?] at h
  | cons t rest =>
    rw [hdrop, angleSpan?] at h
    split at h
    · obtain ⟨m, hm, rfl⟩ := Option.map_eq_some_iff.mp h
      rw [kind_eq_headKind_drop, ← List.drop_drop, hdrop, List.drop_succ_cons]
      exact headKind_of_angleOffset? hm
    · contradiction

/-! ## Streams of expressions -/

/-- The tokens of a statement with an expression. -/
def isExprKind (k : TokenKind) : Bool :=
  k.isName || match k with
    | .numberLiteral | .lparen | .rparen | .lt | .gt | .question | .colon | .arrow | .equals
    | .semicolon | .eof => true
    | _ => false

theorem ne_of_isExprKind {k k' : TokenKind} (h : isExprKind k = true) (h' : isExprKind k' = false) :
    k ≠ k' := by
  rintro rfl
  exact Bool.false_ne_true (h' ▸ h)

/-- A stream of tokens of expressions. -/
def OfExpr (ts : TokenStream) : Prop := ∀ i, isExprKind (ts.kind i) = true

namespace OfExpr

theorem kind_ne (h : OfExpr ts) {kind : TokenKind} (hkind : isExprKind kind = false) (i : Nat) :
    ts.kind i ≠ kind :=
  ne_of_isExprKind (h i) hkind

theorem headKind_ne (h : OfExpr ts) {kind : TokenKind} (hkind : isExprKind kind = false) (i : Nat) :
    headKind (ts.drop i) ≠ kind :=
  kind_eq_headKind_drop ts i ▸ h.kind_ne hkind i

theorem indexLength_eq_zero (h : OfExpr ts) (i : Nat) : indexLength (ts.drop i) = 0 :=
  indexLength_of_ne (h.headKind_ne rfl i)

/-- Nothing joins types in expressions. -/
theorem typeLength_eq (h : OfExpr ts) (i : Nat) :
    typeLength (ts.drop i) = operandLength (ts.drop i) := by
  have hunion : unionLength (ts.drop i) = operandLength (ts.drop i) := by
    rw [unionLength]
    split
    · rename_i hzero
      exact hzero.symm
    · split
      · rfl
      · rename_i t rest hdrop
        have hkind : t.kind = ts.kind (i + operandLength (ts.drop i)) := by
          rw [kind_eq_headKind_drop, ← List.drop_drop, hdrop]
          rfl
        rw [if_neg (not_or.mpr ⟨hkind ▸ h.kind_ne rfl _, hkind ▸ h.kind_ne rfl _⟩),
          if_neg fun hextends => h.kind_ne rfl _ (hkind ▸ hextends.1)]
  rw [← hunion]
  cases hdrop : ts.drop i with
  | nil => rw [typeLength, unionLength, operandLength]; rfl
  | cons t rest =>
    have hkind : t.kind = ts.kind i := by
      rw [kind_eq_headKind_drop, hdrop]
      rfl
    rw [typeLength, if_neg (not_or.mpr ⟨hkind ▸ h.kind_ne rfl _, hkind ▸ h.kind_ne rfl _⟩)]

end OfExpr

end TokenStream

namespace Grammar

open TokenStream

variable {place : Nat → TokenPlace} {ts : TokenStream} {i j k m : Nat} {w : Word} {ws : List Word}

/-- The tokens that can follow an operand of an expression. -/
def followsPrimary : TokenKind → Bool
  | .lt | .gt | .question | .colon | .rparen | .semicolon => true
  | _ => false

/-- The tokens of a statement with an expression, in which a comparison goes on behind each closing
angle bracket. -/
structure Reading (place : Nat → TokenPlace) (ts : TokenStream) : Prop where
  ofExpr : OfExpr ts
  ne_catch : ∀ i, ts.isWord i "catch" = false
  greater : ∀ i, ts.kind i = .gt → ∃ p : Primary, Reads place ts (i + 1) p.words ∧
    followsPrimary (ts.kind (i + 1 + p.words.length)) = true

/-- What stands behind the name that an operand begins with: the argument of a call, or what follows
the operand. -/
def BehindName (ts : TokenStream) (j : Nat) : Prop :=
  followsPrimary (ts.kind j) = true ∨ ts.kind j = .lparen ∧
    ∃ n, bracketSpan? (ts.drop j) = some n ∧ followsPrimary (ts.kind (j + n + 1)) = true

theorem exists_drop_eq_cons (h : ts.kind k ≠ .eof) :
    ∃ t, ts.drop k = t :: ts.drop (k + 1) ∧ t.kind = ts.kind k := by
  have hlt : k < ts.length := by
    refine Nat.lt_of_not_le fun hle => h ?_
    rw [TokenStream.kind, List.getElem?_eq_none hle]
    rfl
  refine ⟨ts[k], (List.drop_eq_getElem_cons hlt), ?_⟩
  rw [TokenStream.kind, List.getElem?_eq_getElem hlt]
  rfl

theorem ne_of_followsPrimary {k k' : TokenKind} (h : followsPrimary k = true)
    (h' : followsPrimary k' = false) : k ≠ k' := by
  rintro rfl
  exact Bool.false_ne_true (h' ▸ h)

/-- Nothing of a function follows an operand. -/
theorem arrowLength_of_followsPrimary (h : OfExpr ts) (hk : followsPrimary (ts.kind k) = true) :
    arrowLength (ts.drop k) = 0 := by
  rw [arrowLength_of_ne (kind_eq_headKind_drop ts k ▸ ne_of_followsPrimary hk rfl),
    h.indexLength_eq_zero]

theorem closer?_of_isPlain {kind : TokenKind} (h : kind.isPlain = true) : kind.closer? = none := by
  cases hcloser : kind.closer? with
  | none => rfl
  | some c =>
    have hopen := (TokenKind.of_isPlain h).1
    rw [TokenKind.isOpener_of_closer? hcloser] at hopen
    contradiction

/-- What begins with a plain word begins with no bracket. -/
theorem bracketSpan?_of_isPlain (hreads : Reads place ts k (w :: ws)) (h : w.kind.isPlain = true) :
    bracketSpan? (ts.drop k) = none := by
  obtain ⟨rest, hrest⟩ := hreads
  rw [hrest, stream_cons, List.cons_append, bracketSpan?, Word.token_kind, closer?_of_isPlain h]
  rfl

/-- An operand is parenthesised or does not begin with a bracket. -/
theorem bracketSpan?_primary (p : Primary) (h : Reads place ts k p.words) :
    bracketSpan? (ts.drop k) = none ∨ bracketSpan? (ts.drop k) = some (p.words.length - 1) := by
  cases p with
  | name name => exact .inl (bracketSpan?_of_isPlain h (isPlain_of_isName name.isName))
  | number word isNumber => exact .inl (bracketSpan?_of_isPlain h (isNumber ▸ rfl))
  | parenthesized e =>
    right
    rw [bracketSpan?_eq rfl e.spans.balanced h, Primary.words, List.length_cons, List.length_append,
      List.length_singleton, Nat.add_sub_cancel]
  | call function argument =>
    exact .inl (bracketSpan?_of_isPlain h (isPlain_of_isName function.isName))

/-- **Behind the name of an operand no type comes to a stop before an arrow.** -/
theorem kind_ne_arrow_of_behindName (h : Reading place ts) (hm : typeOperators (ts.drop i) = m)
    (hi : ts.kind i ≠ .arrow) (hbehind : BehindName ts (i + m)) :
    ts.kind (i + operandLength (ts.drop i)) ≠ .arrow := by
  have heof : ts.kind (i + m) ≠ .eof := by
    rcases hbehind with hfollows | ⟨hparen, _⟩
    · exact ne_of_followsPrimary hfollows rfl
    · rw [hparen]
      decide
  obtain ⟨t, hdrop, hkind⟩ := exists_drop_eq_cons heof
  have hlength := operandLength_of_drop hm ((List.drop_drop ..).trans hdrop)
  rw [hkind] at hlength
  by_cases hparen : ts.kind (i + m) = .lparen
  · obtain hfollows | ⟨-, n, hspan, hfollows⟩ := hbehind
    · exact absurd hparen (ne_of_followsPrimary hfollows rfl)
    · have hpast : arrowLength ((ts.drop (i + m + 1)).drop n) = 0 := by
        rw [List.drop_drop, Nat.add_right_comm]
        exact arrowLength_of_followsPrimary h.ofExpr hfollows
      rw [hparen, if_neg (by decide), if_pos rfl, ← hdrop, hspan] at hlength
      simp only [hpast] at hlength
      rw [hlength, show i + (m + 1 + n + 0) = i + m + n + 1 by omega]
      exact ne_of_followsPrimary hfollows rfl
  · have hfollows := hbehind.resolve_right fun hcall => hparen hcall.1
    by_cases hlt : ts.kind (i + m) = .lt
    · rw [hlt, if_neg (by decide), if_neg (by decide), if_pos rfl, ← hdrop] at hlength
      cases hspan : angleSpan? (ts.drop (i + m)) with
      | none =>
        rw [hspan] at hlength
        rwa [hlength]
      | some n =>
        obtain ⟨p, hreads, hend⟩ := h.greater _ (kind_of_angleSpan? hspan)
        have hbehindAngle : (ts.drop (i + m + 1)).drop n = ts.drop (i + m + n + 1) := by
          rw [List.drop_drop, Nat.add_right_comm]
        have hpos : 0 < p.words.length := by cases p <;> simp [Primary.words]
        rw [hspan] at hlength
        simp only [hbehindAngle] at hlength
        rcases bracketSpan?_primary p hreads with hspan' | hspan'
        · rw [hspan'] at hlength
          rwa [hlength]
        · have hpast :
              arrowLength ((ts.drop (i + m + n + 1)).drop (p.words.length - 1 + 1)) = 0 := by
            rw [List.drop_drop, Nat.sub_add_cancel hpos]
            exact arrowLength_of_followsPrimary h.ofExpr hend
          rw [hspan'] at hlength
          simp only [hpast] at hlength
          rw [hlength, show i + (m + 1 + n + (p.words.length - 1 + 1) + 0) =
            i + m + n + 1 + p.words.length by omega]
          exact ne_of_followsPrimary hend rfl
    · have hzero : operandLength (ts.drop i) = 0 := by
        rw [hlength]
        cases hkind : ts.kind (i + m) <;>
          simp_all [followsPrimary, isLiteralType, TokenKind.isName, TokenKind.isContextual]
      rwa [hzero]

theorem kind_of_behindName (h : BehindName ts j) :
    (ts.kind j).isName = false ∧ ts.kind j ≠ .arrow ∧ ts.kind j ≠ .eof := by
  have hall : ∀ k, followsPrimary k = true ∨ k = .lparen →
      k.isName = false ∧ k ≠ .arrow ∧ k ≠ .eof := by
    intro k
    cases k <;> simp [followsPrimary, TokenKind.isName, TokenKind.isContextual]
  exact hall _ (h.imp_right And.left)

/-- What an operand begins with. -/
theorem kind_of_reads_primary (p : Primary) (hreads : Reads place ts k p.words) :
    ts.kind k ≠ .arrow ∧ ts.kind k ≠ .eof := by
  have hname : ∀ {kind : TokenKind}, kind.isName = true → kind ≠ .arrow ∧ kind ≠ .eof := by
    rintro kind hkind
    constructor <;> rintro rfl <;> contradiction
  cases p with
  | name name => exact hreads.kind ▸ hname name.isName
  | number word isNumber =>
    rw [hreads.kind, isNumber]
    decide
  | parenthesized e =>
    rw [hreads.kind]
    decide
  | call function argument => exact hreads.kind ▸ hname function.isName

/-- What stands behind the name of an operand. -/
theorem behindName_of_reads (p : Primary) (hreads : Reads place ts k p.words)
    (hend : followsPrimary (ts.kind (k + p.words.length)) = true)
    (hname : (ts.kind k).isName = true) : BehindName ts (k + 1) := by
  cases p with
  | name name => exact .inl hend
  | number word isNumber =>
    rw [hreads.kind, isNumber] at hname
    contradiction
  | parenthesized e =>
    rw [hreads.kind] at hname
    contradiction
  | call function argument =>
    have hargument : Reads place ts (k + 1) (.of .lparen :: (argument.words ++ [.of .rparen])) :=
      hreads.tail
    refine .inr ⟨hargument.kind, argument.words.length + 1,
      bracketSpan?_eq rfl argument.spans.balanced hargument, ?_⟩
    simpa [Primary.words, Nat.add_assoc, Nat.add_comm, Nat.add_left_comm] using hend

/-- No operator stands before what cannot be an operator. -/
theorem typeOperators_of_behindName (h : BehindName ts j) : typeOperators (ts.drop j) = 0 := by
  obtain ⟨hname, harrow, heof⟩ := kind_of_behindName h
  obtain ⟨t, hdrop, hkind⟩ := exists_drop_eq_cons heof
  have hall : ∀ k, followsPrimary k = true ∨ k = .lparen →
      k ∉ [TokenKind.kwKeyof, .kwReadonly, .kwNew, .kwAbstract, .identifier] := by
    intro k
    cases k <;> simp [followsPrimary]
  have hkinds := hall _ (h.imp_right And.left)
  rw [← hkind] at hkinds
  rw [hdrop, typeOperators_of_false]
  unfold isTypeOperator
  split <;> simp_all

/-- **No type that begins with the name of an operand comes to a stop before an arrow.** -/
theorem kind_ne_arrow_of_name (h : Reading place ts) (hname : (ts.kind k).isName = true)
    (hbehind : BehindName ts (k + 1)) : ts.kind (k + operandLength (ts.drop k)) ≠ .arrow := by
  have harrow : ts.kind k ≠ .arrow := by
    rintro harrow
    rw [harrow] at hname
    contradiction
  have heof : ts.kind k ≠ .eof := by
    rintro heof
    rw [heof] at hname
    contradiction
  obtain ⟨hname', harrow', -⟩ := kind_of_behindName hbehind
  obtain ⟨t, hdrop, hkind⟩ := exists_drop_eq_cons heof
  by_cases hoperator : isTypeOperator t (ts.drop (k + 1)) = true
  · -- the name is read as a type operator
    refine kind_ne_arrow_of_behindName (m := 1) h ?_ harrow hbehind
    rw [hdrop, typeOperators, hoperator, if_pos rfl, typeOperators_of_behindName hbehind]
  · have hdotted : dottedLength (t :: ts.drop (k + 1)) = 1 := by
      rw [dottedLength, if_pos (hkind ▸ hname), memberLength_of_ne (h.ofExpr.headKind_ne rfl _)]
    have hlength : ∀ m, (angleSpan? (ts.drop (k + 1))).elim 0 (· + 1) = m →
        operandLength (ts.drop k) = 1 + m + predicateLength (ts.drop (k + 1 + m)) := by
      intro m hm
      rw [hdrop, operandLength_of_isName (hkind ▸ hname) (Bool.eq_false_iff.mpr hoperator) hdotted
        hm, List.drop_drop, Nat.add_sub_cancel_left]
    cases hspan : angleSpan? (ts.drop (k + 1)) with
    | none =>
      have hpast : predicateLength (ts.drop (k + 1 + 0)) = 0 := by
        rw [predicateLength_of_ne (kind_eq_headKind_drop ts _ ▸ hname'),
          h.ofExpr.indexLength_eq_zero]
      rw [hlength 0 (by rw [hspan]; rfl), hpast]
      exact harrow'
    | some n =>
      obtain ⟨p, hreads, hend⟩ := h.greater _ (kind_of_angleSpan? hspan)
      obtain ⟨harrow, heof⟩ := kind_of_reads_primary p hreads
      obtain ⟨t', hdrop', hkind'⟩ := exists_drop_eq_cons heof
      rw [hlength (n + 1) (by rw [hspan]; rfl)]
      rw [← Nat.add_assoc (k + 1), hdrop', predicateLength]
      split
      · -- the next operand begins with the word of a type predicate
        rename_i his
        have hbehind' := behindName_of_reads p hreads hend (hkind' ▸ his.1 ▸ rfl)
        have hstop := kind_ne_arrow_of_behindName h (typeOperators_of_behindName hbehind')
          (kind_of_behindName hbehind').2.1 hbehind'
        rw [h.ofExpr.typeLength_eq]
        rwa [show k + (1 + (n + 1) + (1 + operandLength (ts.drop (k + 1 + n + 1 + 1)))) =
          k + 1 + n + 1 + 1 + operandLength (ts.drop (k + 1 + n + 1 + 1)) by omega]
      · rw [← hdrop', h.ofExpr.indexLength_eq_zero]
        rwa [show k + (1 + (n + 1) + 0) = k + 1 + n + 1 by omega]

/-- **No type that begins with an operand comes to a stop before an arrow.** -/
theorem kind_ne_arrow_of_primary (h : Reading place ts) (p : Primary)
    (hreads : Reads place ts k p.words)
    (hend : followsPrimary (ts.kind (k + p.words.length)) = true) :
    ts.kind (k + operandLength (ts.drop k)) ≠ .arrow := by
  obtain ⟨t, hdrop, hkind⟩ := exists_drop_eq_cons (kind_of_reads_primary p hreads).2
  have hpast : ∀ {j}, followsPrimary (ts.kind j) = true → ts.kind j ≠ .arrow :=
    fun hj => ne_of_followsPrimary hj rfl
  cases p with
  | name name =>
    have hname : (ts.kind k).isName = true := hreads.kind ▸ name.isName
    exact kind_ne_arrow_of_name h hname (behindName_of_reads _ hreads hend hname)
  | number word isNumber =>
    have hliteral : isLiteralType t.kind = true := by
      rw [hkind, hreads.kind, isNumber]
      rfl
    rw [hdrop, operandLength_literal hliteral, h.ofExpr.indexLength_eq_zero]
    exact hpast hend
  | parenthesized e =>
    have hspan : bracketSpan? (ts.drop k) = some (e.words.length + 1) :=
      bracketSpan?_eq rfl e.spans.balanced hreads
    have hend' : followsPrimary (ts.kind (k + 1 + (e.words.length + 1))) = true := by
      simpa [Primary.words, Nat.add_assoc, Nat.add_comm, Nat.add_left_comm] using hend
    have hafter : arrowLength ((ts.drop (k + 1)).drop (e.words.length + 1)) = 0 := by
      rw [List.drop_drop]
      exact arrowLength_of_followsPrimary h.ofExpr hend'
    rw [hdrop, operandLength_paren (hkind.trans hreads.kind) (hdrop ▸ hspan), hafter]
    rw [show k + (1 + (e.words.length + 1) + 0) = k + 1 + (e.words.length + 1) by omega]
    exact hpast hend'
  | call function argument =>
    have hname : (ts.kind k).isName = true := hreads.kind ▸ function.isName
    exact kind_ne_arrow_of_name h hname (behindName_of_reads _ hreads hend hname)

/-- A comparison begins with an operand. -/
theorem exists_primary (c : Comparison) (hreads : Reads place ts k c.words)
    (hend : followsPrimary (ts.kind (k + c.words.length)) = true) :
    ∃ p : Primary, Reads place ts k p.words ∧
      followsPrimary (ts.kind (k + p.words.length)) = true := by
  cases c with
  | less left right =>
    rw [Comparison.words] at hreads
    exact ⟨left, hreads.left, hreads.right.kind ▸ rfl⟩
  | greater left right =>
    rw [Comparison.words] at hreads
    exact ⟨left, hreads.left, hreads.right.kind ▸ rfl⟩
  | primary p => exact ⟨p, hreads, hend⟩

/-- A parameter without parentheses reads as a type, unless it reads as a type operator. -/
theorem operandLength_parameter (h : OfExpr ts) (hname : (ts.kind k).isName = true)
    (harrow : ts.kind (k + 1) = .arrow) :
    operandLength (ts.drop k) =
      if ts.kind k = .kwKeyof ∨ ts.kind k = .kwReadonly then 0 else 1 := by
  have heof : ts.kind k ≠ .eof := by
    rintro heof
    rw [heof] at hname
    contradiction
  have heof' : ts.kind (k + 1) ≠ .eof := by
    rw [harrow]
    decide
  obtain ⟨t, hdrop, hkind⟩ := exists_drop_eq_cons heof
  obtain ⟨t', hdrop', hkind'⟩ := exists_drop_eq_cons heof'
  have hhead : headKind (ts.drop (k + 1)) = .arrow := harrow ▸ (kind_eq_headKind_drop ts _).symm
  have hnone : typeOperators (t' :: ts.drop (k + 1 + 1)) = 0 :=
    typeOperators_of_false (by simp [isTypeOperator, hkind', harrow])
  by_cases hkeyword : ts.kind k = .kwKeyof ∨ ts.kind k = .kwReadonly
  · have hoperator : isTypeOperator t (ts.drop (k + 1)) = true := by
      rcases hkeyword with h | h <;> simp [isTypeOperator, hkind, h]
    have hm : typeOperators (ts.drop k) = 1 := by
      rw [hdrop, typeOperators, hoperator, if_pos rfl, hdrop', hnone]
    rw [operandLength_of_drop hm ((List.drop_drop ..).trans hdrop'), hkind', harrow,
      if_pos hkeyword]
    simp [isLiteralType, TokenKind.isName, TokenKind.isContextual]
  · have hoperator : isTypeOperator t (ts.drop (k + 1)) = false := by
      have hnew : ts.kind k ≠ .kwNew := h.kind_ne rfl k
      unfold isTypeOperator
      rw [hkind, hhead]
      split <;> simp_all [TokenKind.isName, TokenKind.isContextual]
    have hangle : angleSpan? (ts.drop (k + 1)) = none := by
      refine angleSpan?_of_ne ?_
      rw [hhead]
      decide
    have hdotted : dottedLength (t :: ts.drop (k + 1)) = 1 := by
      rw [dottedLength, if_pos (hkind ▸ hname), memberLength_of_ne (h.headKind_ne rfl _)]
    have hpast : predicateLength (ts.drop (k + 1)) = 0 := by
      rw [predicateLength_of_ne (by rw [hhead]; rfl), h.indexLength_eq_zero]
    rw [hdrop, operandLength_of_isName (m := 0) (hkind ▸ hname) hoperator hdotted
      (by rw [List.drop_succ_cons, List.drop_zero, hangle]; rfl), if_neg hkeyword]
    exact congrArg (1 + 0 + ·) hpast

/-- **Where a type is read that begins with an expression,** it comes to a stop before an arrow just
if the expression begins like the result type of a function. -/
theorem kind_pastType_eq_arrow_iff (h : Reading place ts) (e : Expr) {k : Nat}
    (hreads : Reads place ts k e.words)
    (hend : followsPrimary (ts.kind (k + e.words.length)) = true) :
    ts.kind (ts.pastType k) = .arrow ↔ e.readsAsResult = true := by
  have hprimary : ∀ p : Primary, Reads place ts k p.words →
      followsPrimary (ts.kind (k + p.words.length)) = true → ts.kind (ts.pastType k) ≠ .arrow := by
    intro p hp hpend
    rw [pastType, h.ofExpr.typeLength_eq]
    exact kind_ne_arrow_of_primary h p hp hpend
  cases e with
  | conditional test positive negative =>
    rw [Expr.words] at hreads
    obtain ⟨p, hp, hpend⟩ := exists_primary test hreads.left (hreads.right.kind ▸ rfl)
    exact iff_of_false (hprimary p hp hpend) Bool.false_ne_true
  | function parameter parenthesized body =>
    cases parenthesized with
    | false =>
      have hname : ts.kind k = parameter.word.kind := hreads.kind
      have harrow : ts.kind (k + 1) = .arrow := hreads.tail.kind
      rw [pastType, h.ofExpr.typeLength_eq,
        operandLength_parameter h.ofExpr (hname ▸ parameter.isName) harrow, Expr.readsAsResult,
        ← hname]
      split
      · rename_i hkeyword
        rcases hkeyword with hkeyword | hkeyword <;> simp [hkeyword]
      · rename_i hkeyword
        simpa [harrow] using hkeyword
    | true =>
      obtain ⟨hopen, hclose, _⟩ := TokenKind.of_isPlain (isPlain_of_isName parameter.isName)
      -- the function reads as one up to the end of the type that its body reads as
      have hparen : ts.kind k = .lparen := hreads.kind
      have harrow : ts.kind (k + 3) = .arrow := hreads.tail.tail.tail.kind
      have hbody : Reads place ts (k + 4) body.words := hreads.tail.tail.tail.tail
      have hspan : bracketSpan? (ts.drop k) = some 2 :=
        bracketSpan?_eq rfl (.plain hopen hclose .nil) hreads
      have heof : ts.kind k ≠ .eof := by
        rw [hparen]
        decide
      have heof' : ts.kind (k + 3) ≠ .eof := by
        rw [harrow]
        decide
      obtain ⟨t, hdrop, hkind⟩ := exists_drop_eq_cons heof
      obtain ⟨t', hdrop', hkind'⟩ := exists_drop_eq_cons heof'
      have hpast : ts.pastType k = ts.pastType (k + 4) := by
        rw [pastType, pastType, h.ofExpr.typeLength_eq, hdrop,
          operandLength_paren (hkind.trans hparen) (hdrop ▸ hspan), List.drop_drop, hdrop',
          arrowLength_arrow (hkind'.trans harrow)]
        show k + (1 + 2 + (1 + typeLength (ts.drop (k + 4)))) = _
        omega
      rw [hpast]
      refine kind_pastType_eq_arrow_iff h body hbody ?_
      rwa [Expr.words, List.length_cons, List.length_cons, List.length_cons, List.length_cons,
        show k + (body.words.length + 1 + 1 + 1 + 1) = k + 4 + body.words.length by omega] at hend
  | comparison c =>
    obtain ⟨p, hp, hpend⟩ := exists_primary c hreads hend
    exact iff_of_false (hprimary p hp hpend) Bool.false_ne_true

end Grammar

end TypeScriptEngine
