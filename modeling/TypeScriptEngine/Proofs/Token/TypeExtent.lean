import TypeScriptEngine.Token.TypeExtent

/-! # How types are read

The functions that find the extent of a type, case by case: what they yield for a stream whose head
is known.  Where a case speaks of a bracket, of the operators or of the parts of a type, these are
hypotheses.
-/

namespace TypeScriptEngine.TokenStream

variable {t : Token} {ts rest : TokenStream}

/-! ## Names and indices -/

theorem memberLength_of_ne (h : headKind rest ≠ .dot) : memberLength rest = 0 := by
  unfold memberLength
  split
  · rename_i dot name rest
    have hdot : dot.kind ≠ .dot := h
    simp [hdot]
  · rfl

theorem indexLength_of_ne (h : headKind rest ≠ .lbracket) : indexLength rest = 0 := by
  cases rest with
  | nil => rw [indexLength]
  | cons t rest =>
    have hbracket : t.kind ≠ .lbracket := h
    rw [indexLength]
    simp [hbracket]

theorem indexLength_bracket (hkind : t.kind = .lbracket) (hline : t.lineBefore = false) {n : Nat}
    (hspan : bracketSpan? (t :: rest) = some n) :
    indexLength (t :: rest) = n + 1 + indexLength (rest.drop n) := by
  rw [indexLength, hkind, hline, hspan]
  rfl

theorem angleSpan?_of_ne (h : headKind rest ≠ .lt) : angleSpan? rest = none := by
  cases rest with
  | nil => rfl
  | cons t rest =>
    have hlt : t.kind ≠ .lt := h
    rw [angleSpan?, if_neg hlt]

/-! ## Operands -/

theorem typeOperators_of_false (h : isTypeOperator t rest = false) :
    typeOperators (t :: rest) = 0 := by
  rw [typeOperators, h, if_neg (by decide)]

/-- What an operand is read as, by the token behind its type operators. -/
theorem operandLength_of_drop {k : Nat} (hk : typeOperators ts = k) (hdrop : ts.drop k = t :: rest) :
    operandLength ts =
      if t.kind = .kwTypeof then
        k + 1 + dottedLength rest + indexLength (rest.drop (dottedLength rest))
      else if t.kind = .lparen then
        match bracketSpan? (t :: rest) with
        | none => ts.length - 1
        | some n => k + 1 + n + arrowLength (rest.drop n)
      else if t.kind = .lt then
        match angleSpan? (t :: rest) with
        | none => 0
        | some n =>
          match bracketSpan? (rest.drop n) with
          | none => 0
          | some m => k + 1 + n + (m + 1) + arrowLength ((rest.drop n).drop (m + 1))
      else if t.kind = .lbrace ∨ t.kind = .lbracket then
        match bracketSpan? (t :: rest) with
        | none => ts.length - 1
        | some n => k + 1 + n + indexLength (rest.drop n)
      else if isLiteralType t.kind then k + 1 + indexLength rest
      else if t.kind = .templateHead then
        k + templateLength (t :: rest) +
          indexLength ((t :: rest).drop (templateLength (t :: rest)))
      else if t.kind = .operator ∧ t.value = "-" ∧ headKind rest = .numberLiteral then
        k + 2 + indexLength (rest.drop 1)
      else if t.kind.isName then
        let n := dottedLength (t :: rest)
        let m := (angleSpan? ((t :: rest).drop n)).elim 0 (· + 1)
        k + n + m + predicateLength (rest.drop (n + m - 1))
      else 0 := by
  subst hk
  rw [operandLength]
  simp only
  split
  · rename_i heq
    rw [hdrop] at heq
    contradiction
  · rename_i heq
    rw [hdrop] at heq
    obtain ⟨rfl, rfl⟩ := List.cons.inj heq
    rfl

theorem operandLength_of_drop_nil {k : Nat} (hk : typeOperators ts = k) (hdrop : ts.drop k = []) :
    operandLength ts = 0 := by
  subst hk
  rw [operandLength]
  simp only
  split
  · rfl
  · rename_i heq
    rw [hdrop] at heq
    contradiction

/-- A type operator goes before an operand. -/
theorem operandLength_operator (h : isTypeOperator t rest = true) (hrest : operandLength rest ≠ 0) :
    operandLength (t :: rest) = operandLength rest + 1 := by
  have hk : typeOperators (t :: rest) = typeOperators rest + 1 := by
    rw [typeOperators, h, if_pos rfl]
  cases hdrop : rest.drop (typeOperators rest) with
  | nil => exact absurd (operandLength_of_drop_nil rfl hdrop) hrest
  | cons t' rest' =>
    have hpos : 0 < rest.length := by
      have := length_lt_of_drop_eq_cons hdrop
      omega
    rw [operandLength_of_drop rfl hdrop] at hrest ⊢
    rw [operandLength_of_drop hk hdrop]
    generalize typeOperators rest = k at hrest ⊢
    repeat' split
    all_goals simp_all only [List.length_cons, if_true, if_false]
    all_goals first | omega | contradiction

/-- The type after the word `typeof`. -/
theorem operandLength_typeof (h : t.kind = .kwTypeof) :
    operandLength (t :: rest) =
      1 + dottedLength rest + indexLength (rest.drop (dottedLength rest)) := by
  rw [operandLength_of_drop (k := 0) (typeOperators_of_false (by simp [isTypeOperator, h])) rfl,
    if_pos h, Nat.zero_add]

/-- A parenthesis and what may follow it. -/
theorem operandLength_paren (h : t.kind = .lparen) {n : Nat}
    (hspan : bracketSpan? (t :: rest) = some n) :
    operandLength (t :: rest) = 1 + n + arrowLength (rest.drop n) := by
  rw [operandLength_of_drop (k := 0) (typeOperators_of_false (by simp [isTypeOperator, h])) rfl,
    if_neg (by simp [h]), if_pos h, hspan, Nat.zero_add]

/-- A function type with type parameters. -/
theorem operandLength_angle (h : t.kind = .lt) {n m : Nat} (hspan : angleSpan? (t :: rest) = some n)
    (hparen : bracketSpan? (rest.drop n) = some m) :
    operandLength (t :: rest) = 1 + n + (m + 1) + arrowLength ((rest.drop n).drop (m + 1)) := by
  rw [operandLength_of_drop (k := 0) (typeOperators_of_false (by simp [isTypeOperator, h])) rfl,
    if_neg (by simp [h]), if_neg (by simp [h]), if_pos h, hspan]
  simp only [hparen, Nat.zero_add]

/-- A brace or bracket. -/
theorem operandLength_bracket (h : t.kind = .lbrace ∨ t.kind = .lbracket) {n : Nat}
    (hspan : bracketSpan? (t :: rest) = some n) :
    operandLength (t :: rest) = 1 + n + indexLength (rest.drop n) := by
  have hoperator : isTypeOperator t rest = false := by
    rcases h with h | h <;> simp [isTypeOperator, h]
  rw [operandLength_of_drop (k := 0) (typeOperators_of_false hoperator) rfl,
    if_neg (by rcases h with h | h <;> simp [h]), if_neg (by rcases h with h | h <;> simp [h]),
    if_neg (by rcases h with h | h <;> simp [h]), if_pos h, hspan, Nat.zero_add]

/-- A literal. -/
theorem operandLength_literal (h : isLiteralType t.kind = true) :
    operandLength (t :: rest) = 1 + indexLength rest := by
  have hkind : t.kind = .stringLiteral ∨ t.kind = .numberLiteral ∨ t.kind = .templateLiteral := by
    unfold isLiteralType at h
    split at h <;> simp_all
  have hoperator : isTypeOperator t rest = false := by
    rcases hkind with h | h | h <;> simp [isTypeOperator, h]
  rw [operandLength_of_drop (k := 0) (typeOperators_of_false hoperator) rfl,
    if_neg (by rintro h; simp [h] at hkind), if_neg (by rintro h; simp [h] at hkind),
    if_neg (by rintro h; simp [h] at hkind), if_neg (by rintro (h | h) <;> simp [h] at hkind),
    if_pos h, Nat.zero_add]

/-- A plain name is no type operator unless another name follows. -/
theorem isTypeOperator_of_identifier (h : t.kind = .identifier)
    (hname : (headKind rest).isName = false) : isTypeOperator t rest = false := by
  simp [isTypeOperator, h, hname]

/-- A name, with members, type arguments and what may follow them. -/
theorem operandLength_of_isName (h : t.kind.isName = true)
    (hoperator : isTypeOperator t rest = false) {n m : Nat} (hn : dottedLength (t :: rest) = n)
    (hm : (angleSpan? ((t :: rest).drop n)).elim 0 (· + 1) = m) :
    operandLength (t :: rest) = n + m + predicateLength (rest.drop (n + m - 1)) := by
  subst hn hm
  have hne : ∀ {k : TokenKind}, k.isName = false → t.kind ≠ k := by
    rintro _ hk rfl
    exact Bool.false_ne_true (hk ▸ h)
  have hliteral : isLiteralType t.kind = false := by
    refine Bool.eq_false_iff.mpr fun hliteral => ?_
    unfold isLiteralType at hliteral
    split at hliteral <;> simp_all [TokenKind.isName, TokenKind.isContextual]
  rw [operandLength_of_drop (k := 0) (typeOperators_of_false hoperator) rfl, if_neg (hne rfl),
    if_neg (hne rfl), if_neg (hne rfl), if_neg (not_or.mpr ⟨hne rfl, hne rfl⟩),
    if_neg (by simp [hliteral]), if_neg (hne rfl), if_neg fun h => hne rfl h.1, if_pos h]
  simp only [Nat.zero_add]

theorem operandLength_joint (h : t.kind = .pipe ∨ t.kind = .amp) :
    operandLength (t :: rest) = 0 := by
  have hoperator : isTypeOperator t rest = false := by
    rcases h with h | h <;> simp [isTypeOperator, h]
  rw [operandLength_of_drop (k := 0) (typeOperators_of_false hoperator) rfl]
  rcases h with h | h <;> simp [h, isLiteralType, TokenKind.isName, TokenKind.isContextual]

theorem predicateLength_of_ne (h : (headKind rest).isName = false) :
    predicateLength rest = indexLength rest := by
  cases rest with
  | nil => rw [predicateLength, indexLength]
  | cons t rest =>
    have hkind : t.kind ≠ .identifier := fun h' => by simp [headKind, h', TokenKind.isName] at h
    rw [predicateLength, if_neg fun h => hkind h.1]

theorem arrowLength_of_ne (h : headKind rest ≠ .arrow) : arrowLength rest = indexLength rest := by
  cases rest with
  | nil => rw [arrowLength, indexLength]
  | cons t rest =>
    have harrow : t.kind ≠ .arrow := h
    rw [arrowLength, if_neg harrow]

theorem arrowLength_arrow (h : t.kind = .arrow) :
    arrowLength (t :: rest) = 1 + typeLength rest := by
  rw [arrowLength, if_pos h]

/-! ## Types -/

theorem unionLength_of_drop {n : Nat} (hn : operandLength ts = n) (hpos : n ≠ 0)
    (hdrop : ts.drop n = t :: rest) :
    unionLength ts =
      if t.kind = .pipe ∨ t.kind = .amp then n + 1 + unionLength rest
      else if t.kind = .kwExtends ∧ !t.lineBefore then n + 1 + conditionalLength rest
      else n := by
  subst hn
  rw [unionLength]
  simp only [if_neg hpos]
  split
  · rename_i heq
    rw [hdrop] at heq
    contradiction
  · rename_i heq
    rw [hdrop] at heq
    obtain ⟨rfl, rfl⟩ := List.cons.inj heq
    rfl

theorem unionLength_of_drop_nil {n : Nat} (hn : operandLength ts = n) (hdrop : ts.drop n = []) :
    unionLength ts = n := by
  subst hn
  rw [unionLength]
  split
  · rename_i hzero
    exact hzero.symm
  · split
    · rfl
    · rename_i heq
      rw [hdrop] at heq
      contradiction

/-- A type that begins with an operand. -/
theorem typeLength_of_ne_zero (h : unionLength ts ≠ 0) : typeLength ts = unionLength ts := by
  cases ts with
  | nil => exact absurd (by rw [unionLength, operandLength]; rfl) h
  | cons t rest =>
    have hjoint : ¬(t.kind = .pipe ∨ t.kind = .amp) := by
      intro hkind
      apply h
      rw [unionLength]
      simp [operandLength_joint hkind]
    rw [typeLength, if_neg hjoint]

/-- A conditional type, by the tokens where its two marks belong. -/
theorem conditionalLength_eq (ts : TokenStream) {n m : Nat} (hn : typeLength ts = n)
    (hm : typeLength (ts.drop (n + 1)) = m) :
    conditionalLength ts =
      if headKind (ts.drop n) = .question then
        if headKind (ts.drop (n + 1 + m)) = .colon then
          n + 1 + m + 1 + typeLength (ts.drop (n + 1 + m + 1))
        else n + 1 + m
      else n := by
  subst hn hm
  rw [conditionalLength]
  simp only
  split
  · rename_i heq
    rw [heq, if_neg (by decide)]
  · rename_i mark rest heq
    have hbehind (k : Nat) : ts.drop (typeLength ts + 1 + k) = rest.drop k := by
      rw [← List.drop_drop, drop_succ_of_drop_eq_cons heq]
    rw [heq, headKind, drop_succ_of_drop_eq_cons heq, hbehind,
      Nat.add_assoc (typeLength ts + 1) _ 1, hbehind]
    split
    · split
      · rename_i heq'
        rw [heq', if_neg (by decide)]
      · rename_i heq'
        rw [heq', drop_succ_of_drop_eq_cons heq']
        rfl
    · rfl

theorem conditionalLength_of_drop {q c : Token} {rest' : TokenStream}
    (hq : ts.drop (typeLength ts) = q :: rest) (hquestion : q.kind = .question)
    (hc : rest.drop (typeLength rest) = c :: rest') (hcolon : c.kind = .colon) :
    conditionalLength ts = typeLength ts + 1 + typeLength rest + 1 + typeLength rest' := by
  have hbehind (k : Nat) : ts.drop (typeLength ts + 1 + k) = rest.drop k := by
    rw [← List.drop_drop, drop_succ_of_drop_eq_cons hq]
  have hm : typeLength (ts.drop (typeLength ts + 1)) = typeLength rest :=
    congrArg typeLength (drop_succ_of_drop_eq_cons hq)
  rw [conditionalLength_eq ts rfl hm, hq, headKind, if_pos hquestion, hbehind, hc, headKind,
    if_pos hcolon, Nat.add_assoc (typeLength ts + 1) _ 1, hbehind, drop_succ_of_drop_eq_cons hc]

end TypeScriptEngine.TokenStream
