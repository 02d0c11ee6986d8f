import TypeScriptEngine.Proofs.Token.BracketStack

/-! # Where statements end

The search for the end of a statement passes over balanced tokens, unless it stops among them or
behind the last of them (`statementLength_bracketed`).  So it does not go beyond a closing bracket
that the statement did not open, nor beyond a semicolon or a line break that ends the statement
(`pastStatement_le_of_isCloser`, `EndsAt.pastStatement_le`).
-/

namespace TypeScriptEngine.TokenStream

variable {ts inner rest : TokenStream} {t c : Token} {i j depth : Nat}

/-- A token outside brackets with which a statement ends. -/
def Ends (t : Token) (rest : TokenStream) : Prop := t.kind = .semicolon ∨ breaksAfter t rest = true

/-- The search for the end of a statement passes over tokens and does not stop behind the last of
them. -/
structure Passes (depth : Nat) (inner rest : TokenStream) : Prop where
  length : statementLength depth (inner ++ rest) = inner.length + statementLength depth rest
  last : ∀ t ∈ inner.getLast?, depth = 0 → ¬Ends t rest

/-- The search passes over a token that is no bracket, or stops at it. -/
theorem statementLength_plain (hopen : t.kind.isOpener = false) (hclose : t.kind.isCloser = false)
    (depth : Nat) (rest : TokenStream) :
    statementLength depth (t :: rest) ≤ 1 ∨
      statementLength depth (t :: rest) = 1 + statementLength depth rest ∧
        (depth = 0 → ¬Ends t rest) := by
  have hdepth : depthAfter depth t.kind = depth := by
    rw [depthAfter, hopen, hclose]
    rfl
  rw [statementLength, hclose, hdepth]
  split
  · exact .inl (Nat.zero_le _)
  split
  · exact .inl (Nat.zero_le _)
  split
  · exact .inl (Nat.le_refl _)
  split
  · exact .inl (Nat.le_refl _)
  · rename_i hsemicolon hbreak
    refine .inr ⟨rfl, fun hzero hends => ?_⟩
    rcases hends with hkind | hbreaks
    · exact hsemicolon ⟨hkind, hzero⟩
    · exact hbreak ⟨hzero, hbreaks⟩

theorem statementLength_opener (h : t.kind.isOpener = true) (depth : Nat) (rest : TokenStream) :
    statementLength depth (t :: rest) = 1 + statementLength (depth + 1) rest := by
  have hne : ∀ k : TokenKind, k.isOpener = false → t.kind ≠ k := by
    rintro k hk rfl
    exact absurd (hk.symm.trans h) nofun
  have hdepth : depthAfter depth t.kind = depth + 1 := if_pos h
  rw [statementLength, if_neg (hne _ rfl), if_neg (by simp [TokenKind.isCloser_of_isOpener h]),
    if_neg (fun hk => hne _ rfl hk.1), hdepth, if_neg (fun hk => Nat.succ_ne_zero depth hk.1)]

/-- The search passes over the bracket that closes one that the statement opened, or stops behind
it. -/
theorem statementLength_closer_succ (h : c.kind.isCloser = true) (depth : Nat)
    (rest : TokenStream) :
    statementLength (depth + 1) (c :: rest) ≤ 1 ∨
      statementLength (depth + 1) (c :: rest) = 1 + statementLength depth rest ∧
        (depth = 0 → ¬Ends c rest) := by
  have hopen : c.kind.isOpener ≠ true := fun hopen =>
    TokenKind.ne_of_isOpener_of_isCloser hopen h rfl
  have hsemicolon : c.kind ≠ .semicolon := fun hkind => absurd (hkind ▸ h) nofun
  have hdepth : depthAfter (depth + 1) c.kind = depth := by
    rw [depthAfter, if_neg hopen, if_pos h, Nat.add_sub_cancel]
  rw [statementLength, hdepth]
  split
  · exact .inl (Nat.zero_le _)
  rw [if_neg (fun hk => Nat.succ_ne_zero depth hk.2), if_neg (fun hk => hsemicolon hk.1)]
  split
  · exact .inl (Nat.le_refl _)
  · rename_i hbreak
    exact .inr ⟨rfl, fun hzero hends => hbreak ⟨hzero, hends.resolve_left hsemicolon⟩⟩

theorem statementLength_closer (h : c.kind.isCloser = true) (rest : TokenStream) :
    statementLength 0 (c :: rest) = 0 := by
  rw [statementLength]
  split
  · rfl
  · exact if_pos ⟨h, rfl⟩

theorem Passes.nil (depth : Nat) (rest : TokenStream) : Passes depth [] rest :=
  ⟨(Nat.zero_add _).symm, nofun⟩

theorem Passes.last_cons (h : Passes depth inner rest)
    (hlast : depth = 0 → ¬Ends t (inner ++ rest)) :
    ∀ u ∈ (t :: inner).getLast?, depth = 0 → ¬Ends u rest := by
  intro u hu
  cases inner with
  | nil =>
    obtain rfl : t = u := Option.some.inj hu
    exact hlast
  | cons v inner => exact h.last u hu

/-- **The search for the end of a statement passes over balanced tokens** or stops among them. -/
theorem statementLength_bracketed (h : Bracketed inner) (depth : Nat) (rest : TokenStream) :
    statementLength depth (inner ++ rest) ≤ inner.length ∨ Passes depth inner rest := by
  induction h generalizing depth rest with
  | nil => exact .inr (.nil depth rest)
  | @plain t ts hopen hclose _ ih =>
    rw [List.cons_append, List.length_cons]
    rcases statementLength_plain hopen hclose depth (ts ++ rest) with hstop | ⟨hlength, hlast⟩
    · exact .inl (by omega)
    rcases ih depth rest with hstop | hpass
    · exact .inl (by omega)
    · refine .inr ⟨?_, hpass.last_cons hlast⟩
      rw [List.cons_append, hlength, hpass.length, List.length_cons]
      omega
  | @group o c inner ts hpair _ _ ihinner ih =>
    have hopen : statementLength depth ((o :: (inner ++ c :: ts)) ++ rest) =
        1 + statementLength (depth + 1) (inner ++ c :: (ts ++ rest)) := by
      rw [List.cons_append, List.append_assoc, List.cons_append]
      exact statementLength_opener (TokenKind.isOpener_of_closer? hpair) depth _
    have hcount : (o :: (inner ++ c :: ts)).length = ts.length + 1 + inner.length + 1 :=
      length_group o c inner ts
    rcases ihinner (depth + 1) (c :: (ts ++ rest)) with hstop | hinner
    · exact .inl (by omega)
    have hinner := hinner.length
    rcases statementLength_closer_succ (TokenKind.isCloser_of_closer? hpair) depth (ts ++ rest) with
      hstop | ⟨hclose, hlast⟩
    · exact .inl (by omega)
    rcases ih depth rest with hstop | hpass
    · exact .inl (by omega)
    · have hbehind := hpass.length
      refine .inr ⟨by omega, fun u hu => hpass.last_cons hlast u ?_⟩
      rwa [← List.cons_append, List.getLast?_append_cons] at hu

/-! ## By index -/

/-- The statement at `i` ends before token `j`: the brackets in between are balanced, and the token
before `j` is a semicolon, or a line break stands behind it, it can end an expression, and token `j`
cannot go on with one. -/
def EndsAt (ts : TokenStream) (i j : Nat) : Prop :=
  i < j ∧ Bracketed (ts.between i j) ∧
    (ts.kind (j - 1) = .semicolon ∨ ts.lineBefore j = true ∧ ts.endsExpression (j - 1) = true ∧
      (ts.kind j).continuesExpression = false)

instance : Decidable (EndsAt ts i j) := inferInstanceAs (Decidable (_ ∧ _ ∧ _))

/-- A statement does not reach beyond balanced tokens unless the search passes over them and finds
more. -/
theorem pastStatement_le (hij : i ≤ j) (h : Bracketed (ts.between i j))
    (hpass : Passes 0 (ts.between i j) (ts.drop j) → statementLength 0 (ts.drop j) = 0) :
    ts.pastStatement i ≤ j := by
  have hlength := length_between_le ts i j
  rw [pastStatement, ← between_append_drop ts hij]
  rcases statementLength_bracketed h 0 (ts.drop j) with hstop | hpasses
  · omega
  · have hsum := hpasses.length
    rw [hpass hpasses] at hsum
    omega

/-- **A statement does not reach beyond a closing bracket** that it did not open. -/
theorem pastStatement_le_of_isCloser (hij : i ≤ j) (h : Bracketed (ts.between i j))
    (hclose : (ts.kind j).isCloser = true) : ts.pastStatement i ≤ j := by
  refine pastStatement_le hij h fun _ => ?_
  have hj : j < ts.length := lt_length_of_kind fun heof => absurd (heof ▸ hclose) nofun
  rw [kind_eq hj] at hclose
  rw [List.drop_eq_getElem_cons hj, statementLength_closer hclose]

theorem ends_of_endsAt (h : ts.EndsAt i (j + 1)) (hj : j < ts.length) :
    Ends ts[j] (ts.drop (j + 1)) := by
  refine h.2.2.imp (fun hkind => (kind_eq hj).symm.trans hkind) fun ⟨hline, hends, hgoes⟩ => ?_
  rw [endsExpression, Nat.add_sub_cancel, List.getElem?_eq_getElem hj, Option.elim_some] at hends
  rw [breaksAfter, ← lineBefore_eq_headLineBefore_drop, ← kind_eq_headKind_drop, hline, hends, hgoes]
  rfl

/-- **A statement does not reach beyond its end.** -/
theorem EndsAt.pastStatement_le (h : ts.EndsAt i j) : ts.pastStatement i ≤ j := by
  have hij := h.1
  refine TokenStream.pastStatement_le (Nat.le_of_lt hij) h.2.1 fun hpass => ?_
  obtain ⟨j, rfl⟩ := Nat.exists_eq_add_one_of_ne_zero (Nat.ne_zero_of_lt hij)
  by_cases hj : j < ts.length
  · refine absurd (ends_of_endsAt h hj) (hpass.last _ ?_ rfl)
    rw [← between_append ts (Nat.lt_succ_iff.mp hij) (Nat.le_succ j), between_succ hj,
      List.getLast?_concat]
    rfl
  · rw [List.drop_eq_nil_of_le (by omega)]
    rfl

end TypeScriptEngine.TokenStream
