import TypeScriptEngine.Proofs.Emit.Pass
import TypeScriptEngine.Proofs.Grammar.Placement

/-! # Expressions that are left alone

Nothing is proposed for the tokens of an expression, except for parentheses with a type and an arrow
behind them (`group_step`) and for angle brackets with parentheses behind them (`less_step`).  So a
pass leaves an expression alone just if nothing in it reads as type syntax (`expression_kept_iff`).
-/

namespace TypeScriptEngine.Grammar

open TokenStream Emit

variable {place : Nat → TokenPlace} {ts : TokenStream} {goal : Goal} {i k n : Nat}
  {after : List Item}

/-! ## What is proposed -/

theorem silent_of_isQuiet (h : isQuiet (ts.kind i) = true) : Silent goal ts i := by
  rw [Silent, visit_of_isQuiet rfl h]
  rfl

/-- An operand does not begin behind the end of an expression, and is no statement. -/
theorem operand_start (h : opensOperand (ts.kind i) = true) :
    ts.endsExpression i = false ∧ ts.startsStatement (i + 1) = false := by
  have hall : ∀ k : TokenKind, opensOperand k = true → k.isName = false ∧ k ≠ .semicolon ∧
      k ≠ .lbrace ∧ k ≠ .rbrace := by
    intro k
    cases k <;> simp [opensOperand, TokenKind.isName, TokenKind.isContextual]
  have hends : ts.endsExpression i = false := by
    rw [TokenStream.kind] at h
    unfold TokenStream.endsExpression
    cases hget : ts[i]? with
    | none => rfl
    | some t =>
      rw [hget, Option.elim_some] at h
      rw [Option.elim_some, Token.endsExpression, (hall _ h).1, Bool.false_or]
      revert h
      cases t.kind <;> simp [opensOperand]
  obtain ⟨_, hsemicolon, hlbrace, hrbrace⟩ := hall _ h
  exact ⟨hends, by simp [startsStatement, hends, hsemicolon, hlbrace, hrbrace]⟩

/-- Nothing is proposed for a name. -/
theorem silent_name (hts : OfExpr ts) (hname : (ts.kind (i + 1)).isName = true)
    (hbefore : opensOperand (ts.kind i) = true) : Silent goal ts (i + 1) := by
  obtain ⟨hends, hstart⟩ := operand_start hbefore
  have hclass : ts.kind (i + 1 + 1) ≠ .kwClass := hts.kind_ne rfl _
  unfold Silent visit
  cases hkind : ts.kind (i + 1) <;>
    simp [hkind, TokenKind.isName, TokenKind.isContextual, hstart, hclass, isTypeAssertion,
      hends] at hname ⊢ <;> rfl

/-- Nothing is proposed for the name that a value is given to. -/
theorem silent_target (hname : (ts.kind 0).isName = true) (hequals : ts.kind 1 = .equals) :
    Silent goal ts 0 := by
  unfold Silent visit
  cases hkind : ts.kind 0 <;>
    simp [hkind, hequals, TokenKind.isName, TokenKind.isContextual, isTypeAssertion,
      startsDeclaration] at hname ⊢ <;> rfl

/-! ## Angle brackets -/

/-- Angle brackets are type arguments behind a name, if parentheses come behind them. -/
theorem typeArguments?_isSome (htakes : takesTypeArguments (ts.kind i) = true)
    (hlt : ts.kind (i + 1) = .lt) :
    (typeArguments? ts (i + 1)).isSome = (angleOffset? 0 (ts.drop (i + 2))).any fun n =>
      headKind ((ts.drop (i + 2)).drop (n + 1)) == .lparen := by
  have heof : ts.kind (i + 1) ≠ .eof := by
    rw [hlt]
    decide
  obtain ⟨t, hdrop, hkind⟩ := exists_drop_eq_cons heof
  rw [typeArguments?, if_pos htakes, matchingAngle?, hdrop, angleSpan?, if_pos (hkind.trans hlt)]
  cases angleOffset? 0 (ts.drop (i + 2)) with
  | none => rfl
  | some n =>
    have hclose : ts.kind (i + 1 + (n + 1) + 1) = headKind ((ts.drop (i + 2)).drop (n + 1)) := by
      rw [kind_eq_headKind_drop, List.drop_drop]
      congr 2
      omega
    simp only [Option.map_some, Option.bind_some, Option.any_some, hclose]
    split <;> simp_all

theorem lt_last_of_kind_ne (h : ts.kind n ≠ .eof) (hi : i < n) : i < ts.last := by
  have hlt := lt_length_of_kind h
  unfold TokenStream.last
  omega

/-- Angle brackets are erased if they are type arguments. -/
theorem angle_step (hlt : ts.kind i = .lt) {b : Bool} (hb : (typeArguments? ts i).isSome = !b) :
    if b then Silent goal ts i else Erases goal ts i := by
  cases b with
  | true =>
    have hnone : typeArguments? ts i = none := by simpa using hb
    show (visit goal ts (.empty ts) i).changes = []
    simp only [visit, hlt, hnone]
    rfl
  | false =>
    obtain ⟨stop, hstop⟩ := Option.isSome_iff_exists.mp hb
    have hvisit : visit goal ts (.empty ts) i = .erasing i stop := by
      simp only [visit, hlt, hstop]
    have hlast : i < stop ∧ i < ts.last := by
      cases i with
      | zero => contradiction
      | succ i =>
        rw [typeArguments?] at hstop
        split at hstop
        · obtain ⟨close, hclose, hparen⟩ := Option.bind_eq_some_iff.mp hstop
          have hlt := lt_of_matchingAngle? hclose
          split at hparen
          · rename_i hkind
            obtain rfl := Option.some.inj hparen
            exact ⟨by omega, lt_last_of_kind_ne (by rw [hkind]; decide) (by omega)⟩
          · contradiction
        · contradiction
    exact ⟨by rw [hvisit]; simp [Step.erasing, Change.isErasure], i, stop,
      by rw [hvisit]; simp [Step.erasing], hlast⟩

/-! ## Parentheses -/

/-- Whether an arrow stands at `n`, or behind an annotation there. -/
def arrowBehind (ts : TokenStream) (n : Nat) : Bool := ts.kind (pastAnnotationAt ts n) == .arrow

theorem arrowBehind_of_ne (hcolon : ts.kind n ≠ .colon) (harrow : ts.kind n ≠ .arrow) :
    arrowBehind ts n = false := by
  rw [arrowBehind, pastAnnotationAt, if_neg hcolon]
  exact beq_false_of_ne harrow

/-- An arrow behind parentheses makes them a parameter list, and nothing else does. -/
theorem isParameterList_eq (h : Reading place ts) {close : Nat}
    (hclose : ts.matching? i = some close) :
    ts.isParameterList i = arrowBehind ts (close + 1) := by
  have hfunction : ts.followsFunctionWord i = false := by
    have hword : ∀ j, ts.kind j ≠ .kwFunction := h.ofExpr.kind_ne rfl
    unfold followsFunctionWord
    split <;> simp [h.ne_catch, hword]
  have hbrace : ∀ j, ts.kind j ≠ .lbrace := h.ofExpr.kind_ne rfl
  rw [isParameterList, hclose]
  simp [hfunction, arrowBehind, hbrace]

theorem changes_lparen (hparen : ts.kind i = .lparen) :
    (visit goal ts (.empty ts) i).changes =
      if ts.isParameterList i then parameters ts i else [] := by
  simp only [visit, hparen]
  split <;> rfl

/-- Behind an operand in parentheses an annotation is erased if an arrow comes next. -/
theorem group_step (h : Reading place ts) {close : Nat} (hparen : ts.kind i = .lparen)
    (hclose : ts.matching? i = some close) (hbehind : followsPrimary (ts.kind (close + 1)) = true) :
    if !arrowBehind ts (close + 1) then Silent goal ts i else Erases goal ts i := by
  cases harrow : arrowBehind ts (close + 1) with
  | false =>
    show (visit goal ts (.empty ts) i).changes = []
    rw [changes_lparen hparen, isParameterList_eq h hclose, harrow]
    rfl
  | true =>
    have hkind := eq_of_beq harrow
    have hcolon : ts.kind (close + 1) = .colon := by
      by_contra hne
      rw [pastAnnotationAt, if_neg hne] at hkind
      exact ne_of_followsPrimary hbehind rfl hkind
    rw [pastAnnotationAt, if_pos hcolon] at hkind
    have hle : close + 1 + 1 ≤ ts.pastType (close + 1 + 1) := Nat.le_add_right ..
    have hchanges : (visit goal ts (.empty ts) i).changes = parameterList ts (i + 1) close ++
        [.erase (close + 1) (ts.pastType (close + 2))] := by
      rw [changes_lparen hparen, isParameterList_eq h hclose, harrow, if_pos rfl, parameters,
        hclose]
      simp only [hcolon, if_pos]
    refine ⟨?_, close + 1, ts.pastType (close + 2), ?_, hle, ?_⟩
    · have honly := onlyErases_parameters ts i
      rwa [changes_lparen hparen, isParameterList_eq h hclose, harrow, if_pos rfl]
    · rw [hchanges]
      simp
    · exact lt_last_of_kind_ne (by rw [hkind]; decide) hle

/-- Nothing is proposed for the parentheses around the parameter of a function. -/
theorem silent_parameter (h : Reading place ts) (hparen : ts.kind i = .lparen)
    (hname : (ts.kind (i + 1)).isName = true) (hrparen : ts.kind (i + 2) = .rparen)
    (hclose : ts.matching? i = some (i + 2)) (harrow : ts.kind (i + 3) = .arrow) :
    Silent goal ts i := by
  have hellipsis : ts.kind (i + 1) ≠ .ellipsis := ne_of_isName hname rfl
  have hbinding : pastBinding ts (i + 1) (i + 2) = i + 2 := by
    unfold pastBinding
    split <;> simp_all [TokenKind.isName, TokenKind.isContextual]
  have hparameter : parameter ts (i + 1) (i + 2) = ([], i + 2) := by
    simp [parameter, hellipsis, hbinding, mark, annotationAt, hrparen]
  have hmodifiers : parameterModifiers ts (i + 1) = ([], i + 1) := by
    rw [parameterModifiers]
    simp [hrparen, TokenKind.isName, TokenKind.isContextual]
  have hlist : parameterList ts (i + 1) (i + 2) = [] := by
    rw [parameterList, if_pos (Nat.lt_succ_self _), hmodifiers]
    simp only [isReceiver, hrparen, hparameter]
    rw [pastComma?, if_neg (Nat.lt_irrefl _)]
    simp
  rw [Silent, changes_lparen hparen, isParameterList_eq h hclose, parameters, hclose]
  simp [hlist, harrow]

/-! ## Expressions -/

/-- The last token of an operand can stand before type arguments just if the operand is a name. -/
theorem takesTypeArguments_last (p : Primary) (h : Reads place ts (k + 1) p.words) :
    takesTypeArguments (ts.kind (k + p.words.length)) = p.isName := by
  cases p with
  | name name =>
    show takesTypeArguments (ts.kind (k + 1)) = true
    rw [h.kind]
    simp only [takesTypeArguments, name.isName, Bool.true_or]
  | number word isNumber =>
    show takesTypeArguments (ts.kind (k + 1)) = false
    rw [h.kind, isNumber]
    rfl
  | parenthesized e =>
    have hlast := h.tail.right.kind
    rw [Primary.words, List.length_cons, List.length_append, List.length_singleton,
      show k + (e.words.length + 1 + 1) = k + 1 + 1 + e.words.length by omega, hlast]
    rfl
  | call function argument =>
    have hlast := h.tail.tail.right.kind
    rw [Primary.words, List.length_cons, List.length_cons, List.length_append,
      List.length_singleton, show k + (argument.words.length + 1 + 1 + 1) =
        k + 1 + 1 + 1 + argument.words.length by omega, hlast]
    rfl

/-- Something is proposed for an angle bracket just if it reads as the first one of type
arguments. -/
theorem less_step {left right : Primary}
    (h : Placed place ts k (left.words ++ .of .lt :: right.words) after) :
    if !(left.isName && closesBeforeGroup 0 (right.items ++ after)) then
      Silent goal ts (k + 1 + left.words.length)
    else Erases goal ts (k + 1 + left.words.length) := by
  have hlt : ts.kind (k + left.words.length + 1) = .lt := by
    rw [Nat.add_right_comm]
    exact h.reads.right.kind
  have htakes := takesTypeArguments_last left h.reads.left
  have harguments : (typeArguments? ts (k + left.words.length + 1)).isSome =
      (left.isName && closesBeforeGroup 0 (right.items ++ after)) := by
    cases hname : left.isName with
    | false =>
      rw [hname] at htakes
      rw [typeArguments?, if_neg (Bool.eq_false_iff.mp htakes)]
      rfl
    | true =>
      rw [hname] at htakes
      obtain ⟨tail, t, rest, hdrop, htail, ht⟩ := (h.right rfl).words
      have hindex : k + left.words.length + 2 = k + 1 + left.words.length + 1 := by omega
      rw [typeArguments?_isSome htakes hlt, Bool.true_and, hindex, hdrop]
      exact angleOffset?_spans (right.spans.append htail) ht _ 0 rest
  rw [Nat.add_right_comm]
  exact angle_step hlt (by rw [harguments, Bool.not_not])

/-- What is proposed for an operand in parentheses. -/
theorem silentIf_group (h : Reading place ts) {e : Expr} {b : Bool}
    (hreads : Reads place ts k (.of .lparen :: (e.words ++ [.of .rparen])))
    (hbehind : followsPrimary (ts.kind (k + 1 + e.words.length + 1)) = true)
    (hinner : SilentIf goal ts (k + 1) e.words.length b) :
    SilentIf goal ts k (.of .lparen :: (e.words ++ [.of .rparen])).length
      (b && !arrowBehind ts (k + 1 + e.words.length + 1)) := by
  have hclose := matching?_eq rfl e.spans.balanced hreads
  have hstep := @group_step place ts goal _ h _ hreads.kind hclose hbehind
  have hrparen : Silent goal ts (k + 1 + e.words.length) :=
    silent_of_isQuiet (hreads.tail.right.kind ▸ rfl)
  rw [List.length_cons, List.length_append]
  have hall := SilentIf.cons hstep (hinner.append (.one (b := true) hrparen))
  rwa [Bool.and_true, Bool.and_comm] at hall

mutual

/-- What is proposed for an expression, of which an arrow may make the last parentheses a parameter
list. -/
theorem Expr.silentIf (h : Reading place ts) (e : Expr) {k : Nat} {after : List Item}
    (hplaced : Placed place ts k e.words after) :
    SilentIf goal ts (k + 1) e.words.length
      (e.isUnambiguous after &&
        !(e.endsInGroup && arrowBehind ts (k + 1 + e.words.length))) := by
  cases e with
  | conditional test positive negative =>
    rw [Expr.words] at hplaced ⊢
    have htest := hplaced.left rfl (.other rfl) (positive.spans.append (.other rfl negative.spans))
    have hrest := hplaced.right rfl
    have hpositive := hrest.left rfl (.other rfl) negative.spans
    have hnegative := hrest.right rfl
    have hquestion := hplaced.reads.right.kind
    have hcolon : ts.kind (k + 1 + test.words.length + 1 + positive.words.length) = .colon :=
      hrest.reads.right.kind
    have harrow : arrowBehind ts (k + 1 + test.words.length + 1 + positive.words.length) =
        negative.readsAsResult := by
      rw [arrowBehind, pastAnnotationAt, if_pos hcolon, Bool.eq_iff_iff, beq_iff_eq]
      exact kind_pastType_eq_arrow_iff h negative hnegative.reads hnegative.behind
    have hall := (test.silentIf h htest).append (.cons (b := true)
      (silent_of_isQuiet (hquestion ▸ rfl))
      ((positive.silentIf h hpositive).append (.cons (b := true)
        (silent_of_isQuiet (hcolon ▸ rfl)) (negative.silentIf h hnegative))))
    rw [harrow, arrowBehind_of_ne (n := k + 1 + test.words.length) (by rw [hquestion]; decide)
      (by rw [hquestion]; decide)] at hall
    have hend : k + 1 + (test.words ++ .of .question ::
        (positive.words ++ .of .colon :: negative.words)).length =
          k + 1 + test.words.length + 1 + positive.words.length + 1 + negative.words.length := by
      simp only [List.length_append, List.length_cons]
      omega
    rw [hend]
    simpa [Expr.isUnambiguous, Expr.endsInGroup, Bool.and_assoc] using hall
  | function parameter parenthesized body =>
    have hreads := hplaced.reads
    cases parenthesized with
    | false =>
      have hbody := body.silentIf h
        (@Placed.body place ts k body.words after [parameter.word] hplaced)
      have hall := SilentIf.cons (b := true)
        (silent_name h.ofExpr (hreads.kind ▸ parameter.isName) hplaced.before)
        (.cons (b := true) (silent_of_isQuiet (hreads.tail.kind ▸ rfl)) hbody)
      have hend : k + 1 + (Expr.function parameter false body).words.length =
          k + 1 + 1 + 1 + body.words.length := by
        simp only [Expr.words, List.length_cons]
        omega
      rw [hend]
      simpa [Expr.isUnambiguous, Expr.endsInGroup, Expr.words] using hall
    | true =>
      obtain ⟨hopen, hclose, _⟩ := TokenKind.of_isPlain (isPlain_of_isName parameter.isName)
      have hbody := body.silentIf h (@Placed.body place ts k body.words after
        [.of .lparen, parameter.word, .of .rparen] hplaced)
      have hname : (ts.kind (k + 1 + 1)).isName = true :=
        hreads.tail.kind.symm ▸ parameter.isName
      have hrparen : ts.kind (k + 1 + 2) = .rparen := hreads.tail.tail.kind
      have harrow : ts.kind (k + 1 + 3) = .arrow := hreads.tail.tail.tail.kind
      have hbalanced : Balanced [parameter.word] := .plain hopen hclose .nil
      have hmatching : ts.matching? (k + 1) = some (k + 1 + 2) :=
        matching?_eq rfl hbalanced hreads
      have hall := SilentIf.cons (b := true)
        (silent_parameter h hreads.kind hname hrparen hmatching harrow)
        (.cons (b := true) (silent_name h.ofExpr hname (hreads.kind ▸ rfl))
          (.cons (b := true) (silent_of_isQuiet (hrparen ▸ rfl))
            (.cons (b := true) (silent_of_isQuiet (harrow ▸ rfl)) hbody)))
      have hend : k + 1 + (Expr.function parameter true body).words.length =
          k + 1 + 3 + 1 + body.words.length := by
        simp only [Expr.words, List.length_cons]
        omega
      rw [hend]
      simpa [Expr.isUnambiguous, Expr.endsInGroup, Expr.words] using hall
  | comparison c => exact c.silentIf h hplaced

theorem Comparison.silentIf (h : Reading place ts) (c : Comparison) {k : Nat} {after : List Item}
    (hplaced : Placed place ts k c.words after) :
    SilentIf goal ts (k + 1) c.words.length
      (c.isUnambiguous after &&
        !(c.endsInGroup && arrowBehind ts (k + 1 + c.words.length))) := by
  cases c with
  | less left right =>
    rw [Comparison.words] at hplaced ⊢
    have hleft := hplaced.left rfl (.less rfl) right.spans
    have hlt := hplaced.reads.right.kind
    have hall := (left.silentIf h hleft).append (.cons (less_step hplaced)
      (right.silentIf h (hplaced.right rfl)))
    rw [arrowBehind_of_ne (n := k + 1 + left.words.length) (by rw [hlt]; decide)
      (by rw [hlt]; decide)] at hall
    have hend : k + 1 + (left.words ++ .of .lt :: right.words).length =
        k + 1 + left.words.length + 1 + right.words.length := by
      simp only [List.length_append, List.length_cons]
      omega
    rw [hend]
    simpa [Comparison.isUnambiguous, Comparison.endsInGroup, Bool.and_assoc] using hall
  | greater left right =>
    rw [Comparison.words] at hplaced ⊢
    have hleft := hplaced.left rfl (.greater rfl) right.spans
    have hgt := hplaced.reads.right.kind
    have hall := (left.silentIf h hleft).append (.cons (b := true)
      (silent_of_isQuiet (hgt ▸ rfl)) (right.silentIf h (hplaced.right rfl)))
    rw [arrowBehind_of_ne (n := k + 1 + left.words.length) (by rw [hgt]; decide)
      (by rw [hgt]; decide)] at hall
    have hend : k + 1 + (left.words ++ .of .gt :: right.words).length =
        k + 1 + left.words.length + 1 + right.words.length := by
      simp only [List.length_append, List.length_cons]
      omega
    rw [hend]
    simpa [Comparison.isUnambiguous, Comparison.endsInGroup, Bool.and_assoc] using hall
  | primary p => exact p.silentIf h hplaced

theorem Primary.silentIf (h : Reading place ts) (p : Primary) {k : Nat} {after : List Item}
    (hplaced : Placed place ts k p.words after) :
    SilentIf goal ts (k + 1) p.words.length
      (p.isUnambiguous && !(p.endsInGroup && arrowBehind ts (k + 1 + p.words.length))) := by
  have hreads := hplaced.reads
  cases p with
  | name name =>
    exact .one (b := true) (silent_name h.ofExpr (hreads.kind ▸ name.isName) hplaced.before)
  | number word isNumber =>
    exact .one (b := true) (silent_of_isQuiet (by rw [hreads.kind, isNumber]; rfl))
  | parenthesized e =>
    have hend : k + 1 + (Primary.parenthesized e).words.length =
        k + 1 + 1 + e.words.length + 1 := by
      simp only [Primary.words, List.length_cons, List.length_append, List.length_nil]
      omega
    have hbehind := hplaced.behind
    have hrparen := hreads.tail.right.kind
    have hinner := e.silentIf h (.of_group hreads)
    rw [hend] at hbehind ⊢
    rw [arrowBehind_of_ne (by rw [hrparen]; decide) (by rw [hrparen]; decide)] at hinner
    simpa [Primary.isUnambiguous, Primary.endsInGroup, Primary.words] using
      silentIf_group h hreads hbehind hinner
  | call function argument =>
    have hend : k + 1 + (Primary.call function argument).words.length =
        k + 1 + 1 + 1 + argument.words.length + 1 := by
      simp only [Primary.words, List.length_cons, List.length_append, List.length_nil]
      omega
    have hbehind := hplaced.behind
    have hrparen := hreads.tail.tail.right.kind
    have hinner := argument.silentIf h (.of_group hreads.tail)
    rw [hend] at hbehind ⊢
    rw [arrowBehind_of_ne (by rw [hrparen]; decide) (by rw [hrparen]; decide)] at hinner
    have hall := SilentIf.cons (b := true)
      (silent_name h.ofExpr (hreads.kind ▸ function.isName) hplaced.before)
      (silentIf_group h hreads.tail hbehind hinner)
    simpa [Primary.isUnambiguous, Primary.endsInGroup, Primary.words] using hall

end

/-! ## Statements -/

/-- The text of a statement, with single spaces between its words. -/
def Expr.text (target : Variable) (e : Expr) : String := String.ofList (print (e.assigned target))

theorem silentIf_statement (place : Nat → TokenPlace) (target : Variable) (e : Expr)
    (last : TokenPlace) :
    SilentIf goal (statement place target e last) 0 (e.assigned target).length
      (e.isUnambiguous []) := by
  have hreads := @reads_statement place target e last
  have hequals := hreads.tail.kind
  have hsemicolon : (statement place target e last).kind (1 + 1 + e.words.length) = .semicolon :=
    Nat.zero_add 1 ▸ hreads.tail.tail.right.kind
  have hexpr : SilentIf goal _ _ _ _ :=
    e.silentIf reading_statement (@placed_statement place target e last)
  rw [arrowBehind_of_ne (by rw [hsemicolon]; decide) (by rw [hsemicolon]; decide)] at hexpr
  have hall := SilentIf.cons (b := true)
    (silent_target (hreads.kind ▸ target.isName) hequals)
    (.cons (b := true) (silent_of_isQuiet (hequals ▸ rfl))
      (hexpr.append (.one (b := true) (silent_of_isQuiet (hsemicolon ▸ rfl)))))
  simpa [Expr.assigned] using hall

/-- What is proposed for the text of a statement. -/
theorem silentIf_text (target : Variable) (e : Expr) :
    SilentIf goal (Scan.ofText (e.text target)).tokens 0
      (TokenStream.last (Scan.ofText (e.text target)).tokens) (e.isUnambiguous []) := by
  obtain ⟨last, htokens⟩ := tokens_print (e.assigned target)
  have hlast : TokenStream.last (statement (placeAt (e.assigned target)) target e last) =
      (e.assigned target).length := by
    simp [statement, TokenStream.last]
  rw [Expr.text, htokens]
  change SilentIf goal (statement _ target e last) 0
    (TokenStream.last (statement _ target e last)) _
  rw [hlast]
  exact silentIf_statement _ target e last

/-- **An expression is left alone just if nothing in it reads as type syntax.** -/
theorem expression_kept_iff (target : Variable) (e : Expr) (module : ModuleKind)
    (version : ScriptTarget) (hmodule : module.isEsModule = true) :
    onePass (Goal.of module version) (e.text target) = e.text target ↔
      e.isUnambiguous [] = true :=
  onePass_eq_iff hmodule (silentIf_text target e)

/-- A comparison that decides between an operand in parentheses and a function, whose parameter is
in parentheses too. -/
def functionLike : Expr :=
  let two : Word := ⟨.numberLiteral, ['2'], spells_digits (by decide) (List.forall_mem_nil _)⟩
  .conditional (.less (.name (.ofText ['a'])) (.name (.ofText ['b'])))
    (.comparison (.primary (.parenthesized (.comparison (.primary (.name (.ofText ['c'])))))))
    (.function (.ofText ['d']) true
      (.comparison (.primary (.call (.ofText ['g']) (.comparison (.primary (.number two rfl)))))))

theorem expression_kept_functionLike : ModuleKind.es2015.isEsModule = true ∧
    functionLike.text (.ofText ['r']) = "r = a < b ? ( c ) : ( d ) => g ( 2 ) ;" ∧
    onePass (Goal.of .es2015 .es2015) (functionLike.text (.ofText ['r'])) =
      functionLike.text (.ofText ['r']) :=
  ⟨rfl, by decide, (expression_kept_iff (.ofText ['r']) functionLike .es2015 .es2015 rfl).mpr rfl⟩

/-! ## Statements that are misread -/

/-- A conditional with parentheses before its colon, and a function behind it. -/
def resultLike : Expr :=
  .conditional (.primary (.name (.ofText ['a'])))
    (.comparison (.primary (.parenthesized (.comparison (.primary (.name (.ofText ['b'])))))))
    (.function (.ofText ['c']) false (.comparison (.primary (.name (.ofText ['d'])))))

/-- A conditional with a comparison in its test, and another one with parentheses behind it. -/
def argumentLike : Expr :=
  .conditional (.less (.name (.ofText ['a'])) (.name (.ofText ['b'])))
    (.comparison (.greater (.name (.ofText ['c']))
      (.parenthesized (.comparison (.primary (.name (.ofText ['d'])))))))
    (.comparison (.primary (.name (.ofText ['e']))))

/-- **Some expressions are misread:** the branch of a conditional is taken for the result type of a
function, and two comparisons for type arguments. -/
theorem expressions_misread :
    let pass := onePass (Goal.of .es2015 .es2015)
    resultLike.text (.ofText ['r']) = "r = a ? ( b ) : c => d ;" ∧
    pass (resultLike.text (.ofText ['r'])) ≠ resultLike.text (.ofText ['r']) ∧
    argumentLike.text (.ofText ['r']) = "r = a < b ? c > ( d ) : e ;" ∧
    pass (argumentLike.text (.ofText ['r'])) ≠ argumentLike.text (.ofText ['r']) := by
  have hmisread : ∀ e : Expr, e.isUnambiguous [] = false →
      onePass (Goal.of .es2015 .es2015) (e.text (.ofText ['r'])) ≠ e.text (.ofText ['r']) := by
    intro e he
    have hiff := @onePass_eq_iff .es2015 .es2015 rfl _ _ (silentIf_text (.ofText ['r']) e)
    rw [he] at hiff
    exact fun heq => Bool.false_ne_true (hiff.mp heq)
  exact ⟨by decide, hmisread resultLike rfl, by decide, hmisread argumentLike rfl⟩

end TypeScriptEngine.Grammar
