import TypeScriptEngine.Proofs.Token.Layout

/-! # Braces and templates nest

A brace closes either a block or a substitution of a template, and which of the two is not to be
seen from the characters around it.  `CountState` is what a scanner has to keep to tell them apart if
it only counts: how many braces are open, and how many were open where each substitution began that
is still open.  These numbers are a faithful picture of what is open (`CountState.of`): the depth
that was noted last is the one that has been reached just if the innermost opening is a substitution
(`continuesTemplate_of`), because no noted depth exceeds the one that has been reached
(`le_braces_of_mem_marksOf`).  So the counts lead to the same tokens as the openings themselves, and
the tokens of every text nest (`braces_nest`).
-/

namespace TypeScriptEngine

open TypeScriptEngine.Text

/-! ## Reading tokens with a stack -/

/-- What is open after a token, if it can stand there.  A piece of a template that goes on after a
substitution needs one that was opened last, and so does one that lacks its end.  A brace closes the
one that was opened last, or nothing if nothing is open. -/
def Opening.read? (openings : List Opening) (t : Token) : Option (List Opening) :=
  match t.kind, openings with
  | .lbrace, openings => some (.brace :: openings)
  | .templateHead, openings => some (.substitution :: openings)
  | .templateMiddle, .substitution :: outer => some (.substitution :: outer)
  | .templateMiddle, _ => none
  | .templateTail, .substitution :: outer => some outer
  | .templateTail, _ => none
  | .rbrace, .brace :: outer => some outer
  | .rbrace, [] => some []
  | .rbrace, .substitution :: _ => none
  | .fault .unterminatedTemplate, openings =>
    if t.source.toList.head? = some '}' ∧ openings.head? ≠ some .substitution then none
    else some openings
  | _, openings => some openings

/-- A closing brace that goes on with no template finds a brace, or nothing. -/
theorem nil_or_brace {openings : List Opening} (h : openings.head? ≠ some .substitution) :
    openings = [] ∨ ∃ outer, openings = .brace :: outer := by
  cases openings with
  | nil => exact .inl rfl
  | cons o outer =>
    cases o with
    | brace => exact .inr ⟨outer, rfl⟩
    | substitution => exact absurd rfl h

/-! ## Which lexemes can follow -/

namespace Lexeme

/-- Whether a kind of token can stand only behind certain openings. -/
def needsOpening : TokenKind → Bool
  | .rbrace | .templateMiddle | .templateTail | .fault .unterminatedTemplate => true
  | _ => false

/-- A lexeme that begins with `c` can follow the openings.  A piece of a template without an end is
the rest of the text. -/
structure Fits (openings : List Opening) (c : Char) (rest : List Char) (l : Lexeme) : Prop where
  rbrace : l.kind = .token .rbrace → openings.head? ≠ some .substitution
  middle : l.kind = .token .templateMiddle → openings.head? = some .substitution
  tail : l.kind = .token .templateTail → openings.head? = some .substitution
  fault : l.kind = .token (.fault .unterminatedTemplate) →
    rest.length ≤ l.further ∧ (c = '}' → openings.head? = some .substitution)

variable {openings : List Opening} {c : Char} {rest : List Char} {l : Lexeme}

theorem Fits.of_kind (h : ∀ kind, l.kind = .token kind → needsOpening kind = false) :
    Fits openings c rest l where
  rbrace hkind := absurd (h _ hkind) (by decide)
  middle hkind := absurd (h _ hkind) (by decide)
  tail hkind := absurd (h _ hkind) (by decide)
  fault hkind := absurd (h _ hkind) (by decide)

theorem Fits.of_token {kind : TokenKind} {n : Nat} (h : needsOpening kind = false) :
    Fits openings c rest ⟨.token kind, n⟩ :=
  .of_kind fun _ hkind => PieceKind.token.inj hkind ▸ h

theorem fits_bounded {kind : TokenKind} {missing : LexicalFault} (hkind : needsOpening kind = false)
    (hmissing : needsOpening (.fault missing) = false) (b : Extent.Bounded) :
    Fits openings c rest (bounded kind missing b) := by
  refine .of_token ?_
  split
  · exact hkind
  · exact hmissing

theorem needsOpening_ofWord (word : String) : needsOpening (.ofWord word) = false :=
  @TokenKind.ofWord_all (needsOpening · = false) rfl (by decide) word

/-- A template that lacks its end reaches to the end of the text. -/
theorem length_of_unterminated {cs : List Char} (h : (Extent.template cs).2 = .unterminated) :
    (Extent.template cs).1 = cs.length := by
  fun_induction Extent.template cs with
  | case1 => rfl
  | case2 => contradiction
  | case3 _ _ _ _ htemplate ih =>
    rw [htemplate] at ih
    exact congrArg (· + 2) (ih h)
  | case4 => contradiction
  | case5 _ _ _ _ _ _ _ htemplate ih =>
    rw [htemplate] at ih
    exact congrArg (· + 1) (ih h)

/-- The first piece of a template can stand anywhere. -/
theorem fits_template_first (hc : c ≠ '}') : Fits openings c rest (template true rest) := by
  unfold template
  cases h : Extent.template rest with
  | mk n ending =>
    cases ending with
    | closed => exact .of_token rfl
    | substitution => exact .of_token rfl
    | unterminated =>
      have hlength := length_of_unterminated (congrArg Prod.snd h)
      rw [h] at hlength
      exact ⟨nofun, nofun, nofun, fun _ => ⟨Nat.le_of_eq hlength.symm, fun he => absurd he hc⟩⟩

/-- The other pieces stand where a substitution is open. -/
theorem fits_template_further (hopen : openings.head? = some .substitution) :
    Fits openings c rest (template false rest) := by
  refine ⟨fun hkind => ?_, fun _ => hopen, fun _ => hopen, fun hkind => ⟨?_, fun _ => hopen⟩⟩
  · have hpiece := hkind ▸ template_kind false rest
    exact absurd hpiece (by decide)
  · unfold template at hkind ⊢
    cases h : Extent.template rest with
    | mk n ending =>
      rw [h] at hkind
      cases ending with
      | closed => cases hkind
      | substitution => cases hkind
      | unterminated =>
        have hlength := length_of_unterminated (congrArg Prod.snd h)
        rw [h] at hlength
        exact Nat.le_of_eq hlength.symm

theorem eq_of_ofCharacter_rbrace (h : ofCharacter c = .rbrace) : c = '}' := by
  unfold ofCharacter at h
  split at h <;> first | rfl | contradiction

/-- A brace among the punctuation is no continuation of a template. -/
theorem fits_punctuation (hopen : c = '}' → openings.head? ≠ some .substitution) :
    Fits openings c rest (punctuation c rest) := by
  have hlong : ∀ op ∈ longOperators, needsOpening op.2 = false := by decide
  unfold punctuation
  split
  · exact .of_token rfl
  split
  · rename_i hfind
    exact .of_token (hlong _ (List.mem_of_find?_eq_some hfind))
  · by_cases hc : ofCharacter c = .rbrace
    · rw [hc]
      exact ⟨fun _ => hopen (eq_of_ofCharacter_rbrace hc), nofun, nofun, nofun⟩
    · refine .of_token ?_
      unfold ofCharacter at hc ⊢
      split <;> first | rfl | exact absurd rfl hc

theorem fits_token (st : ScanState) (c : Char) (rest : List Char) :
    Fits st.openings c rest (token st c rest) :=
  token_cases (fun _ => fits_bounded rfl rfl _)
    (fun hc => fits_template_first fun h => absurd (hc.symm.trans h) (by decide))
    fits_template_further (fun _ => .of_token rfl) (fits_bounded rfl rfl _)
    (fun _ => .of_token (needsOpening_ofWord _)) fits_punctuation

/-- **Every lexeme fits what is open.** -/
theorem fits_next (st : ScanState) (c : Char) (rest : List Char) :
    Fits st.openings c rest (next st c rest) :=
  next_cases (fun _ => .of_kind nofun) (fun _ _ _ => .of_kind nofun)
    (fun _ _ _ _ => .of_kind nofun) (.of_token rfl) (fits_token st c rest)

/-- So it can be read where it stands, and leaves open what the scanner says. -/
theorem Fits.read? {kind : TokenKind} (h : Fits openings c rest l) (hkind : l.kind = .token kind)
    {t : Token} (ht : t.kind = kind) (hsource : t.source.toList.head? = some c) :
    Opening.read? openings t = some (ScanState.openingsAfter openings kind) := by
  unfold Opening.read?
  rw [ht]
  cases kind with
  | rbrace =>
    obtain rfl | ⟨outer, rfl⟩ := nil_or_brace (h.rbrace hkind)
    · rfl
    · rfl
  | templateMiddle =>
    obtain ⟨outer, rfl⟩ := List.head?_eq_some_iff.mp (h.middle hkind)
    rfl
  | templateTail =>
    obtain ⟨outer, rfl⟩ := List.head?_eq_some_iff.mp (h.tail hkind)
    rfl
  | fault cause =>
    cases cause with
    | unterminatedTemplate =>
      refine if_neg fun hbrace => hbrace.2 ((h.fault hkind).2 ?_)
      exact Option.some.inj (hsource.symm.trans hbrace.1)
    | _ => rfl
  | _ => rfl

end Lexeme

/-! ## The tokens of a text -/

/-- What can be read from the openings that a scan begins with. -/
theorem exists_openings_layOut (st : ScanState) (cs : List Char) (pos : Nat) (lineBefore : Bool) :
    ∃ left, (Scan.layOut pos lineBefore (pieces st cs)).tokens.foldlM Opening.read? st.openings =
      some left := by
  refine Scan.tokens_induction (P := fun st ts => ∃ left, ts.foldlM Opening.read? st.openings =
    some left) (fun st t hkind _ => ?_) (fun st c rest t ts hkind hsource ih => ?_)
    st cs pos lineBefore
  · have hread : Opening.read? st.openings t = some st.openings := by
      unfold Opening.read?
      rw [hkind]
    refine ⟨st.openings, ?_⟩
    rw [List.foldlM_cons, hread]
    rfl
  · rw [List.foldlM_cons, (Lexeme.fits_next st c rest).read? hkind rfl (by rw [hsource]; rfl)]
    exact ih

/-! ## Counting -/

/-- What a scanner keeps that counts. -/
structure CountState where
  /-- How many braces are open. -/
  depth : Nat
  /-- How many were open at the beginning of each substitution that is, the innermost one first. -/
  marks : List Nat
  regexAllowed : Bool

namespace CountState

/-- At the beginning of a text. -/
def initial : CountState := ⟨0, [], true⟩

/-- A closing brace goes on with a template if as many braces are open as were at the beginning of
the innermost substitution. -/
def continuesTemplate (s : CountState) : Bool := s.marks.head? == some s.depth

/-- What there is to know of it for the next lexeme: whether a closing brace goes on with a template,
and whether a slash begins a regular expression. -/
def view (s : CountState) : ScanState :=
  ⟨if s.continuesTemplate then [.substitution] else [], s.regexAllowed⟩

/-- The number of open braces after a token.  It does not go below zero. -/
def depthAfter (depth : Nat) : TokenKind → Nat
  | .lbrace => depth + 1
  | .rbrace => depth - 1
  | _ => depth

/-- The marks after a token.  A piece that goes on with a template takes the last one away, also if
it lacks its end, and one that leads to a substitution sets a mark. -/
def marksAfter (depth : Nat) (marks : List Nat) (kind : TokenKind) (text : List Char) : List Nat :=
  match kind with
  | .templateHead => depth :: marks
  | .templateMiddle => depth :: marks.tail
  | .templateTail => marks.tail
  | .fault .unterminatedTemplate => if text.head? = some '}' then marks.tail else marks
  | _ => marks

/-- The counts after a piece. -/
def after (s : CountState) (p : Piece) : CountState :=
  match p.kind with
  | .token kind =>
    ⟨depthAfter s.depth kind, marksAfter s.depth s.marks kind p.text,
      ScanState.regexAllowedAfter kind p.text⟩
  | _ => s

/-- Cuts a text into pieces by the counts. -/
def pieces (s : CountState) : List Char → List Piece
  | [] => []
  | c :: rest =>
    let l := Lexeme.next s.view c rest
    let p : Piece := ⟨l.kind, c :: rest.take l.further⟩
    p :: pieces (s.after p) (rest.drop l.further)
termination_by cs => cs.length
decreasing_by simp only [List.length_drop, List.length_cons]; omega

/-- The tokens and comments of a text, by the counts. -/
def scan (text : String) : Scan := Scan.layOut 0 true (pieces .initial text.toList)

/-! ### Counts and openings -/

/-- The number of braces among the openings. -/
def braces : List Opening → Nat
  | [] => 0
  | .brace :: outer => braces outer + 1
  | .substitution :: outer => braces outer

/-- The number of braces outside each substitution. -/
def marksOf : List Opening → List Nat
  | [] => []
  | .brace :: outer => marksOf outer
  | .substitution :: outer => braces outer :: marksOf outer

/-- The counts that belong to what is open. -/
def of (st : ScanState) : CountState := ⟨braces st.openings, marksOf st.openings, st.regexAllowed⟩

/-- **No mark exceeds the depth.** -/
theorem le_braces_of_mem_marksOf {openings : List Opening} {m : Nat} (h : m ∈ marksOf openings) :
    m ≤ braces openings := by
  induction openings with
  | nil => contradiction
  | cons o outer ih =>
    cases o with
    | brace => exact (ih h).trans (Nat.le_succ _)
    | substitution =>
      rcases List.mem_cons.mp h with rfl | h
      · exact Nat.le_refl _
      · exact ih h

/-- **The last mark is the depth just if the innermost opening is a substitution.** -/
theorem continuesTemplate_of (st : ScanState) :
    (of st).continuesTemplate = (st.openings.head? == some .substitution) := by
  unfold continuesTemplate of
  cases st.openings with
  | nil => rfl
  | cons o outer =>
    cases o with
    | substitution => exact beq_self_eq_true (some (braces outer))
    | brace =>
      refine Bool.eq_false_iff.mpr fun h => ?_
      have hmark : braces outer + 1 ≤ braces outer :=
        le_braces_of_mem_marksOf (List.mem_of_head? (beq_iff_eq.mp h))
      omega

end CountState

/-- Two states that agree on what is asked of them go on with the same lexeme. -/
theorem Lexeme.next_congr {st st' : ScanState}
    (hopen : (st.openings.head? == some .substitution) = (st'.openings.head? == some .substitution))
    (hregex : st.regexAllowed = st'.regexAllowed) (c : Char) (rest : List Char) :
    next st c rest = next st' c rest := by
  have htoken : ∀ rest, token st c rest = token st' c rest := fun rest => by
    unfold token
    rw [hopen, hregex]
  unfold next
  simp only [htoken]

namespace CountState

theorem next_view (st : ScanState) (c : Char) (rest : List Char) :
    Lexeme.next (of st).view c rest = Lexeme.next st c rest := by
  refine @Lexeme.next_congr (of st).view st ?_ rfl c rest
  unfold view
  rw [continuesTemplate_of]
  cases st.openings.head? == some .substitution <;> rfl

variable {st : ScanState} {c : Char} {rest : List Char} {l : Lexeme}

theorem depthAfter_braces (h : l.Fits st.openings c rest) {kind : TokenKind}
    (hkind : l.kind = .token kind) : depthAfter (braces st.openings) kind =
      braces (ScanState.openingsAfter st.openings kind) := by
  cases kind with
  | rbrace =>
    obtain hopen | ⟨outer, hopen⟩ := nil_or_brace (h.rbrace hkind)
    · rw [hopen]
      rfl
    · rw [hopen]
      rfl
  | templateTail =>
    obtain ⟨outer, houter⟩ := List.head?_eq_some_iff.mp (h.tail hkind)
    rw [houter]
    rfl
  | _ => rfl

theorem marksAfter_marksOf (h : l.Fits st.openings c rest) {kind : TokenKind}
    (hkind : l.kind = .token kind) (hend : l.further < rest.length) (text : List Char) :
    marksAfter (braces st.openings) (marksOf st.openings) kind text =
      marksOf (ScanState.openingsAfter st.openings kind) := by
  cases kind with
  | rbrace =>
    obtain hopen | ⟨outer, hopen⟩ := nil_or_brace (h.rbrace hkind)
    · rw [hopen]
      rfl
    · rw [hopen]
      rfl
  | templateMiddle =>
    obtain ⟨outer, houter⟩ := List.head?_eq_some_iff.mp (h.middle hkind)
    rw [houter]
    rfl
  | templateTail =>
    obtain ⟨outer, houter⟩ := List.head?_eq_some_iff.mp (h.tail hkind)
    rw [houter]
    rfl
  | fault cause =>
    cases cause with
    | unterminatedTemplate => exact absurd (h.fault hkind).1 (Nat.not_le_of_lt hend)
    | _ => rfl
  | _ => rfl

/-- **The counts keep up with what is open,** as long as the text goes on. -/
theorem after_of (h : l.Fits st.openings c rest) (hend : l.further < rest.length)
    (text : List Char) : (of st).after ⟨l.kind, text⟩ = of (st.after ⟨l.kind, text⟩) := by
  unfold after ScanState.after of
  cases hkind : l.kind with
  | blank => rfl
  | comment kind => rfl
  | token kind =>
    simp only [depthAfter_braces h hkind, marksAfter_marksOf h hkind hend]

/-- **By the counts a text is cut into the same pieces.** -/
theorem pieces_of (st : ScanState) (cs : List Char) :
    pieces (of st) cs = TypeScriptEngine.pieces st cs := by
  fun_induction TypeScriptEngine.pieces st cs with
  | case1 st => rw [pieces]
  | case2 st c rest l p ih =>
    rw [pieces, next_view]
    show p :: pieces ((of st).after p) (rest.drop l.further) = _
    by_cases hend : l.further < rest.length
    · rw [after_of (Lexeme.fits_next st c rest) hend, ih]
    · rw [List.drop_of_length_le (Nat.le_of_not_lt hend), pieces, TypeScriptEngine.pieces]

end CountState

/-- **Braces and templates nest.**  Whatever the text is, its tokens can be read from left to right
with a stack of what is open: every piece that goes on with a template finds a substitution that was
opened last, and every brace that closes something else finds a brace that was opened last, or
nothing open.  And that is so although it is enough for a scanner to count. -/
theorem braces_nest (text : String) :
    (∃ left, (Scan.ofText text).tokens.foldlM Opening.read? [] = some left) ∧
      CountState.scan text = Scan.ofText text := by
  refine ⟨exists_openings_layOut .initial text.toList 0 true, ?_⟩
  exact congrArg (Scan.layOut 0 true) (CountState.pieces_of .initial text.toList)

end TypeScriptEngine
