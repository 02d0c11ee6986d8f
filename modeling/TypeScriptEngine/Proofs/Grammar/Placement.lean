import TypeScriptEngine.Proofs.Grammar.Reading

/-! # Expressions in a statement

Where the parts of an expression stand in the tokens of a statement, and what stands around them
(`Placed`).  Behind each closing angle bracket of an expression an operand goes on
(`Expr.goesOn`), so that the reader of types can be followed there (`reading_statement`).
-/

namespace TypeScriptEngine.Grammar

open TokenStream

variable {place : Nat → TokenPlace} {ts : TokenStream} {i k n m : Nat} {w : Word}
  {ws ws' : List Word} {after items : List Item}

/-! ## Words in an expression -/

/-- The tokens that an operand can follow. -/
def opensOperand : TokenKind → Bool
  | .equals | .lparen | .lt | .gt | .question | .colon | .arrow => true
  | _ => false

/-- Words of an expression stand behind token `k`, with `after` behind them in the same
parentheses. -/
structure Placed (place : Nat → TokenPlace) (ts : TokenStream) (k : Nat) (ws : List Word)
    (after : List Item) : Prop where
  before : opensOperand (ts.kind k) = true
  words : ∃ tail t rest, ts.drop (k + 1) = stream place (k + 1) (ws ++ tail) ++ t :: rest ∧
    Spans tail after ∧ (t.kind = .rparen ∨ t.kind = .semicolon)
  behind : followsPrimary (ts.kind (k + 1 + ws.length)) = true

namespace Placed

theorem reads (h : Placed place ts k ws after) : Reads place ts (k + 1) ws := by
  obtain ⟨tail, t, rest, hdrop, _⟩ := h.words
  rw [stream_append, List.append_assoc] at hdrop
  exact ⟨_, hdrop⟩

/-- The words before a word between two operands. -/
theorem left (h : Placed place ts k (ws ++ w :: ws') after) (hw : followsPrimary w.kind = true)
    {item : Item} (hitem : ∀ {vs items}, Spans vs items → Spans (w :: vs) (item :: items))
    (hspans : Spans ws' items) : Placed place ts k ws (item :: (items ++ after)) where
  before := h.before
  words := by
    obtain ⟨tail, t, rest, hdrop, htail, ht⟩ := h.words
    refine ⟨w :: (ws' ++ tail), t, rest, ?_, hitem (hspans.append htail), ht⟩
    rw [hdrop, List.append_assoc, List.cons_append]
  behind := by
    rw [h.reads.right.kind]
    exact hw

/-- The words behind a word between two operands. -/
theorem right (h : Placed place ts k (ws ++ w :: ws') after) (hw : opensOperand w.kind = true) :
    Placed place ts (k + 1 + ws.length) ws' after where
  before := by
    rw [h.reads.right.kind]
    exact hw
  words := by
    obtain ⟨tail, t, rest, hdrop, htail, ht⟩ := h.words
    refine ⟨tail, t, rest, ?_, htail, ht⟩
    rw [Nat.add_assoc (k + 1), ← List.drop_drop, hdrop, List.append_assoc, stream_append,
      List.append_assoc, List.cons_append, stream_cons, List.cons_append, drop_stream_append_cons,
      Nat.add_assoc (k + 1)]
  behind := by
    have hbehind := h.behind
    rw [List.length_append, List.length_cons] at hbehind
    rwa [show k + 1 + ws.length + 1 + ws'.length = k + 1 + (ws.length + (ws'.length + 1)) by omega]

/-- Words that are all there is between two tokens. -/
theorem of_enclosed {o c : Word} (h : Reads place ts k (o :: (ws ++ [c])))
    (ho : opensOperand o.kind = true) (hc : c.kind = .rparen ∨ c.kind = .semicolon) :
    Placed place ts k ws [] where
  before := by
    rw [h.kind]
    exact ho
  words := by
    obtain ⟨rest, hdrop⟩ := h.tail
    refine ⟨[], c.token (place (k + 1 + ws.length)), rest, ?_, .nil, hc⟩
    rw [hdrop, List.append_nil, stream_append, List.append_assoc]
    rfl
  behind := by
    rw [h.tail.right.kind]
    rcases hc with hc | hc <;> rw [hc] <;> rfl

/-- The words in parentheses. -/
theorem of_group (h : Reads place ts k (.of .lparen :: (ws ++ [.of .rparen]))) :
    Placed place ts k ws [] :=
  .of_enclosed h rfl (.inl rfl)

/-- The body of a function. -/
theorem body {head : List Word} (h : Placed place ts k (head ++ .of .arrow :: ws) after) :
    Placed place ts (k + 1 + head.length) ws after :=
  h.right rfl

end Placed

/-! ## Angle brackets in an expression -/

/-- All of the `n` indices from `k` on have a property. -/
def Throughout (P : Nat → Prop) (k n : Nat) : Prop := ∀ i, k ≤ i → i < k + n → P i

namespace Throughout

variable {P : Nat → Prop}

theorem one (h : P k) : Throughout P k 1 := by
  intro i hk hi
  obtain rfl : i = k := by omega
  exact h

theorem append (h : Throughout P k n) (h' : Throughout P (k + n) m) : Throughout P k (n + m) := by
  intro i hk hi
  by_cases hlt : i < k + n
  · exact h i hk hlt
  · exact h' i (Nat.not_lt.mp hlt) (by omega)

theorem cons (h : P k) (h' : Throughout P (k + 1) n) : Throughout P k (n + 1) := by
  rw [Nat.add_comm]
  exact (one h).append h'

end Throughout

/-- A comparison goes on behind the token if this is an angle bracket that closes. -/
def GoesOn (place : Nat → TokenPlace) (ts : TokenStream) (i : Nat) : Prop :=
  ts.kind i = .gt → ∃ p : Primary, Reads place ts (i + 1) p.words ∧
    followsPrimary (ts.kind (i + 1 + p.words.length)) = true

theorem GoesOn.of_ne (h : ts.kind i ≠ .gt) : GoesOn place ts i := fun hgt => absurd hgt h

theorem ne_of_isName {k k' : TokenKind} (h : k.isName = true) (h' : k'.isName = false) :
    k ≠ k' := by
  rintro rfl
  exact Bool.false_ne_true (h' ▸ h)

/-- Parentheses are no angle brackets. -/
theorem goesOn_group (h : Reads place ts k (.of .lparen :: (ws ++ [.of .rparen])))
    (hinner : Throughout (GoesOn place ts) (k + 1) ws.length) :
    Throughout (GoesOn place ts) k (.of .lparen :: (ws ++ [.of .rparen])).length := by
  rw [List.length_cons, List.length_append]
  exact .cons (.of_ne (h.kind ▸ by decide))
    (hinner.append (.one (.of_ne (h.tail.right.kind ▸ by decide))))

mutual

theorem Expr.goesOn (e : Expr) {k : Nat} {after : List Item}
    (h : Placed place ts k e.words after) :
    Throughout (GoesOn place ts) (k + 1) e.words.length := by
  cases e with
  | conditional test positive negative =>
    rw [Expr.words] at h ⊢
    rw [List.length_append, List.length_cons, List.length_append, List.length_cons]
    have hrest := h.right rfl
    refine (test.goesOn (h.left rfl (.other rfl)
      (positive.spans.append (.other rfl negative.spans)))).append (.cons ?_ ?_)
    · exact .of_ne (h.reads.right.kind ▸ by decide)
    · refine (positive.goesOn (hrest.left rfl (.other rfl) negative.spans)).append (.cons ?_ ?_)
      · exact .of_ne (hrest.reads.right.kind ▸ by decide)
      · exact negative.goesOn (hrest.right rfl)
  | function parameter parenthesized body =>
    have hname := ne_of_isName parameter.isName (rfl : TokenKind.isName .gt = false)
    cases parenthesized with
    | false =>
      have hbody := @Placed.body place ts k body.words after [parameter.word] h
      exact .cons (.of_ne (h.reads.kind ▸ hname))
        (.cons (.of_ne (h.reads.tail.kind ▸ by decide)) (body.goesOn hbody))
    | true =>
      have hbody := @Placed.body place ts k body.words after
        [.of .lparen, parameter.word, .of .rparen] h
      exact .cons (.of_ne (h.reads.kind ▸ by decide))
        (.cons (.of_ne (h.reads.tail.kind ▸ hname))
          (.cons (.of_ne (h.reads.tail.tail.kind ▸ by decide))
            (.cons (.of_ne (h.reads.tail.tail.tail.kind ▸ by decide)) (body.goesOn hbody))))
  | comparison c => exact c.goesOn h

theorem Comparison.goesOn (c : Comparison) {k : Nat} {after : List Item}
    (h : Placed place ts k c.words after) :
    Throughout (GoesOn place ts) (k + 1) c.words.length := by
  cases c with
  | less left right =>
    rw [Comparison.words] at h ⊢
    rw [List.length_append, List.length_cons]
    refine (left.goesOn (h.left rfl (.less rfl) right.spans)).append (.cons ?_ ?_)
    · exact .of_ne (h.reads.right.kind ▸ by decide)
    · exact right.goesOn (h.right rfl)
  | greater left right =>
    rw [Comparison.words] at h ⊢
    rw [List.length_append, List.length_cons]
    refine (left.goesOn (h.left rfl (.greater rfl) right.spans)).append (.cons ?_ ?_)
    · exact fun _ => ⟨right, h.reads.right.tail, (h.right rfl).behind⟩
    · exact right.goesOn (h.right rfl)
  | primary p => exact p.goesOn h

theorem Primary.goesOn (p : Primary) {k : Nat} {after : List Item}
    (h : Placed place ts k p.words after) :
    Throughout (GoesOn place ts) (k + 1) p.words.length := by
  cases p with
  | name name => exact .one (.of_ne (h.reads.kind ▸ ne_of_isName name.isName rfl))
  | number word isNumber => exact .one (.of_ne (by rw [h.reads.kind, isNumber]; decide))
  | parenthesized e => exact goesOn_group h.reads (e.goesOn (.of_group h.reads))
  | call function argument =>
    exact .cons (.of_ne (h.reads.kind ▸ ne_of_isName function.isName rfl))
      (goesOn_group h.reads.tail (argument.goesOn (.of_group h.reads.tail)))

end

/-! ## The stream of a statement -/

/-- What is used of the words of an expression: their kinds, and that none is a control word. -/
def Fits (w : Word) : Prop := isExprKind w.kind = true ∧ (w.kind = .identifier → w.value ≠ "catch")

theorem Variable.fits (v : Variable) : Fits v.word := by
  refine ⟨?_, fun _ => v.ne_catch⟩
  simp only [isExprKind, v.isName, Bool.true_or]

theorem fits_of (t : Terminal) (h : isExprKind t.kind = true) (hne : t.kind ≠ .identifier) :
    Fits (.of t) :=
  ⟨h, fun hkind => absurd hkind hne⟩

mutual

theorem Expr.fits (e : Expr) : ∀ w ∈ e.words, Fits w := by
  cases e with
  | conditional test positive negative =>
    simp only [Expr.words, List.mem_append, List.mem_cons]
    rintro w (h | rfl | h | rfl | h)
    · exact test.fits w h
    · exact fits_of .question rfl (by decide)
    · exact positive.fits w h
    · exact fits_of .colon rfl (by decide)
    · exact negative.fits w h
  | function parameter parenthesized body =>
    cases parenthesized with
    | false =>
      simp only [Expr.words, List.mem_cons]
      rintro w (rfl | rfl | h)
      · exact parameter.fits
      · exact fits_of .arrow rfl (by decide)
      · exact body.fits w h
    | true =>
      simp only [Expr.words, List.mem_cons]
      rintro w (rfl | rfl | rfl | rfl | h)
      · exact fits_of .lparen rfl (by decide)
      · exact parameter.fits
      · exact fits_of .rparen rfl (by decide)
      · exact fits_of .arrow rfl (by decide)
      · exact body.fits w h
  | comparison c => exact c.fits

theorem Comparison.fits (c : Comparison) : ∀ w ∈ c.words, Fits w := by
  cases c with
  | less left right =>
    simp only [Comparison.words, List.mem_append, List.mem_cons]
    rintro w (h | rfl | h)
    · exact left.fits w h
    · exact fits_of .lt rfl (by decide)
    · exact right.fits w h
  | greater left right =>
    simp only [Comparison.words, List.mem_append, List.mem_cons]
    rintro w (h | rfl | h)
    · exact left.fits w h
    · exact fits_of .gt rfl (by decide)
    · exact right.fits w h
  | primary p => exact p.fits

theorem Primary.fits (p : Primary) : ∀ w ∈ p.words, Fits w := by
  cases p with
  | name name =>
    rintro w (_ | ⟨_, ⟨⟩⟩)
    exact name.fits
  | number word isNumber =>
    rintro w (_ | ⟨_, ⟨⟩⟩)
    exact ⟨by rw [isNumber]; rfl, by simp [isNumber]⟩
  | parenthesized e =>
    simp only [Primary.words, List.mem_cons, List.mem_append, List.not_mem_nil, or_false]
    rintro w (rfl | h | rfl)
    · exact fits_of .lparen rfl (by decide)
    · exact e.fits w h
    · exact fits_of .rparen rfl (by decide)
  | call function argument =>
    simp only [Primary.words, List.mem_cons, List.mem_append, List.not_mem_nil, or_false]
    rintro w (rfl | rfl | h | rfl)
    · exact function.fits
    · exact fits_of .lparen rfl (by decide)
    · exact argument.fits w h
    · exact fits_of .rparen rfl (by decide)

end

section

variable {target : Variable} {e : Expr} {last : TokenPlace}

/-- The tokens of a statement. -/
def statement (place : Nat → TokenPlace) (target : Variable) (e : Expr) (last : TokenPlace) :
    TokenStream :=
  stream place 0 (e.assigned target) ++ [endToken last]

theorem reads_statement :
    Reads place (statement place target e last) 0 (e.assigned target) := .of_append _

theorem placed_statement : Placed place (statement place target e last) 1 e.words [] :=
  .of_enclosed reads_statement.tail rfl (.inr rfl)

theorem fits_assigned : ∀ w ∈ e.assigned target, Fits w := by
  simp only [Expr.assigned, List.mem_cons, List.mem_append, List.not_mem_nil, or_false]
  rintro w (rfl | rfl | h | rfl)
  · exact target.fits
  · exact fits_of .equals rfl (by decide)
  · exact e.fits w h
  · exact fits_of .semicolon rfl (by decide)

/-- **The tokens of a statement are those of an expression.** -/
theorem reading_statement : Reading place (statement place target e last) where
  ofExpr := forall_kind_stream (P := fun k => isExprKind k = true) rfl
    fun w hw => (fits_assigned w hw).1
  ne_catch := by
    intro i
    rcases Nat.lt_or_ge i (e.assigned target).length with hi | hi
    · have hreads := @reads_statement place target e last
      obtain ⟨w, hw, hget⟩ := hreads.exists_mem_getElem? (j := i) (Nat.zero_le i)
        (by rwa [Nat.zero_add])
      rw [isWord, TokenStream.kind, TokenStream.value, hget, Bool.and_eq_false_imp]
      intro hkind
      exact beq_false_of_ne ((fits_assigned w hw).2 (eq_of_beq hkind))
    · rw [isWord, statement, kind_of_length_le hi]
      rfl
  greater := by
    intro i
    rcases Nat.lt_or_ge i (e.assigned target).length with hi | hi
    · have hreads := @reads_statement place target e last
      have hgoes : Throughout (GoesOn place (statement place target e last)) 0
          (e.assigned target).length := by
        refine .cons (.of_ne (hreads.kind ▸ ne_of_isName target.isName rfl))
          (.cons (.of_ne (hreads.tail.kind ▸ by decide)) ?_)
        rw [List.length_append]
        exact (e.goesOn placed_statement).append
          (.one (.of_ne (hreads.tail.tail.right.kind ▸ by decide)))
      exact hgoes i (Nat.zero_le i) (by rwa [Nat.zero_add])
    · intro hkind
      rw [statement, kind_of_length_le hi] at hkind
      contradiction

end

end TypeScriptEngine.Grammar
