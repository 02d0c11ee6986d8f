import TypeScriptEngine.Proofs.Token.Spread

/-! # Rendered words

Words as they stand in a source text, with white space and comments between them or with nothing at
all.  An `Atom` is a word, a literal or a sign.  It ends where the text does not go on with it
(`Atom.goesOnWith`), so that most neighbours need no gap.  A text that renders atoms is scanned as
these, whatever its gaps hold (`Rendered.exists_tokens`).
-/

namespace TypeScriptEngine

open TypeScriptEngine.Text

/-! ## Atoms -/

/-- What can stand between two quotes: the quote itself and line feeds have a backslash before
them. -/
inductive Quotable (quote : Char) : List Char → Prop where
  | nil : Quotable quote []
  | plain {c : Char} {cs : List Char} (hquote : c ≠ quote) (hescape : c ≠ '\\') (hline : c ≠ '\n')
      (hcs : Quotable quote cs) : Quotable quote (c :: cs)
  | escape {c : Char} {cs : List Char} (hcs : Quotable quote cs) : Quotable quote ('\\' :: c :: cs)
  | continuation {cs : List Char} (hcs : Quotable quote cs) :
      Quotable quote ('\\' :: '\r' :: '\n' :: cs)

/-- A text of characters of names: a name or a reserved word. -/
structure Letters where
  text : List Char
  starts : text.head?.any isNameStart = true
  goesOn : text.tail.all isNamePart = true

theorem quotable_of_plain {quote : Char} {cs : List Char}
    (h : cs.all (fun c => c != quote && c != '\\' && c != '\n') = true) : Quotable quote cs := by
  induction cs with
  | nil => exact .nil
  | cons c cs ih =>
    simp only [List.all_cons, Bool.and_eq_true, bne_iff_ne] at h
    exact .plain h.1.1.1 h.1.1.2 h.1.2 (ih h.2)

/-- A string literal. -/
structure StringLiteral where
  quote : Char
  text : List Char
  isQuote : quote = '"' ∨ quote = '\''
  quotable : Quotable quote text

/-- A number without fraction, exponent and separators. -/
structure Digits where
  first : Char
  others : List Char
  isDigit : first.isDigit = true
  areDigits : ∀ c ∈ others, c.isDigit = true

/-- The signs of module syntax. -/
inductive Sign where
  | lparen | rparen | lbrace | rbrace | semicolon | comma | dot | star | equals
deriving DecidableEq

/-- A word, a literal or a sign. -/
inductive Atom where
  | word (letters : Letters)
  | string (literal : StringLiteral)
  | number (digits : Digits)
  | sign (sign : Sign)

namespace Sign

def char : Sign → Char
  | lparen => '('
  | rparen => ')'
  | lbrace => '{'
  | rbrace => '}'
  | semicolon => ';'
  | comma => ','
  | dot => '.'
  | star => '*'
  | equals => '='

@[simp] def kind : Sign → TokenKind
  | lparen => .lparen
  | rparen => .rparen
  | lbrace => .lbrace
  | rbrace => .rbrace
  | semicolon => .semicolon
  | comma => .comma
  | dot => .dot
  | star => .star
  | equals => .equals

/-- Whether a sign and a character behind it are scanned as something else. -/
def goesOnWith : Sign → Char → Bool
  | dot, c => c == '.' || c.isDigit
  | star, c => c == '*' || c == '='
  | equals, c => c == '=' || c == '>'
  | _, _ => false

end Sign

namespace Atom

@[simp] def kind : Atom → TokenKind
  | word letters => .ofWord (String.ofList letters.text)
  | string _ => .stringLiteral
  | number _ => .numberLiteral
  | sign s => s.kind

def text : Atom → List Char
  | word letters => letters.text
  | string literal => literal.quote :: (literal.text ++ [literal.quote])
  | number digits => digits.first :: digits.others
  | sign s => [s.char]

/-- Whether a character would belong to what stands before it. -/
def goesOnWith : Atom → Char → Bool
  | word _, c => isNamePart c
  | string _, _ => false
  | number _, c => isNamePart c || c == '.'
  | sign s, c => s.goesOnWith c

/-- A text does not go on with what stands before it. -/
def EndsBefore (a : Atom) (rest : List Char) : Prop := ∀ c ∈ rest.head?, a.goesOnWith c = false

end Atom

/-! ## Scanning an atom -/

theorem StringLiteral.quote_ne (literal : StringLiteral) {c : Char}
    (hc : c ≠ '"' ∧ c ≠ '\'') : literal.quote ≠ c := by
  rcases literal.isQuote with h | h <;> rw [h]
  · exact hc.1.symm
  · exact hc.2.symm

namespace Extent

/-- A string ends at the first quote that has no backslash before it. -/
theorem string_quotable {quote : Char} {cs : List Char} (hcs : Quotable quote cs)
    (hquote : quote ≠ '\\') (hline : quote ≠ '\n') (rest : List Char) :
    string quote (cs ++ quote :: rest) = ⟨cs.length + 1, true⟩ := by
  have hplain : ∀ c rest, c ≠ '\\' → string quote (c :: rest) =
      if c == quote then ⟨1, true⟩ else if c == '\n' then ⟨0, false⟩
      else (string quote rest).after 1 := by
    intro c rest hc
    rw [string]
    · exact fun _ h _ => hc h
    · exact fun _ _ h _ => hc h
  induction hcs with
  | nil => simp [hplain quote rest hquote]
  | @plain c cs hne hescape hbreak _ ih =>
    rw [List.cons_append, hplain c _ hescape, if_neg (by simpa using hne),
      if_neg (by simpa using hbreak), ih]
    simp [Bounded.after, Nat.add_comm]
  | @escape c cs hcs ih =>
    have hnext : (cs ++ quote :: rest).head? ≠ some '\n' := by
      cases hcs with
      | nil => simpa using hline
      | plain _ _ hbreak _ => simpa using hbreak
      | escape _ => simp
      | continuation _ => simp
    rw [List.cons_append, List.cons_append, string, ih]
    · simp only [Bounded.after, List.length_cons]
      congr 1
      omega
    · rintro rest' rfl hrest
      exact hnext (hrest ▸ rfl)
  | continuation _ ih =>
    rw [List.cons_append, List.cons_append, List.cons_append, string, ih]
    simp only [Bounded.after, List.length_cons]
    congr 1
    omega

end Extent

namespace Lexeme

/-- A string literal ends at its closing quote, whatever follows. -/
theorem next_of_string (literal : StringLiteral) (st : ScanState) (rest : List Char) :
    next st literal.quote (literal.text ++ literal.quote :: rest) =
      ⟨.token .stringLiteral, literal.text.length + 1⟩ := by
  have hblank : isBlank literal.quote = false := by
    rcases literal.isQuote with h | h <;> rw [h] <;> decide
  rw [next_eq_token hblank (literal.quote_ne (by decide)), token,
    if_pos (by simpa using literal.isQuote),
    Extent.string_quotable literal.quotable (literal.quote_ne (by decide))
      (literal.quote_ne (by decide))]
  rfl

/-- A sign ends where no longer operator goes on with it. -/
theorem next_of_endsBefore (s : Sign) {st : ScanState} (hst : .substitution ∉ st.openings)
    {rest : List Char} (hrest : ∀ c ∈ rest.head?, s.goesOnWith c = false) :
    next st s.char rest = ⟨.token s.kind, 0⟩ := by
  have hdigit : s.char = '.' → rest.head?.any Char.isDigit = false := by
    intro hs
    obtain rfl : s = .dot := by cases s <;> first | rfl | contradiction
    refine Bool.eq_false_iff.mpr fun hany => ?_
    obtain ⟨c, hc, hcdigit⟩ := (Option.any_eq_true ..).mp hany
    have := hrest c hc
    simp [Sign.goesOnWith, hcdigit] at this
  -- a longer operator goes on with a character that the sign goes on with
  have hlong : ∀ op ∈ longOperators, op.1.head? = some s.char →
      op.1[1]?.any s.goesOnWith = true := by
    cases s <;> decide
  have hkind : ofCharacter s.char = s.kind := by cases s <;> rfl
  rw [next_of_sign (by cases s <;> decide) hdigit hst, punctuation_of_single, hkind]
  · exact .inl (by cases s <;> decide)
  · intro op hop hhead hsecond
    obtain ⟨c, hc, hgoesOn⟩ := (Option.any_eq_true ..).mp (hlong op hop hhead)
    exact Bool.false_ne_true (hrest c (hsecond ▸ hc) ▸ hgoesOn)

end Lexeme

namespace Atom

theorem exists_next (a : Atom) : ∃ c cs, a.text = c :: cs ∧
    ∀ st : ScanState, .substitution ∉ st.openings → ∀ rest, a.EndsBefore rest →
      Lexeme.next st c (cs ++ rest) = ⟨.token a.kind, cs.length⟩ := by
  cases a with
  | word letters =>
    obtain ⟨text, hstart, hgoesOn⟩ := letters
    cases text with
    | nil => contradiction
    | cons c cs =>
      exact ⟨c, cs, rfl, fun _ hst _ hrest =>
        Lexeme.next_of_name hstart (List.all_eq_true.mp hgoesOn) hrest hst⟩
  | string literal =>
    refine ⟨literal.quote, literal.text ++ [literal.quote], rfl, fun st _ rest _ => ?_⟩
    rw [List.append_assoc, List.singleton_append, Lexeme.next_of_string, List.length_append]
    rfl
  | number digits =>
    refine ⟨digits.first, digits.others, rfl, fun st _ rest hrest => ?_⟩
    refine Lexeme.next_of_digits digits.isDigit digits.areDigits (fun c hc => ?_) st
    simpa [goesOnWith] using hrest c hc
  | sign s => exact ⟨s.char, [], rfl, fun _ hst _ hrest => Lexeme.next_of_endsBefore s hst hrest⟩

/-- **An atom is scanned as one token** where the text does not go on with it. -/
theorem pieces_append (a : Atom) {st : ScanState} (hst : .substitution ∉ st.openings)
    {rest : List Char} (hrest : a.EndsBefore rest) :
    pieces st (a.text ++ rest) =
      ⟨.token a.kind, a.text⟩ :: pieces (st.after ⟨.token a.kind, a.text⟩) rest := by
  obtain ⟨c, cs, htext, hnext⟩ := a.exists_next
  rw [htext, List.cons_append, pieces_cons, hnext st hst rest hrest, List.take_left, List.drop_left]

theorem goesOnWith_of_isBlank (a : Atom) {c : Char} (hc : isBlank c = true) :
    a.goesOnWith c = false := by
  have hne : ∀ d, isBlank d = false → c ≠ d := by
    rintro _ hd rfl
    exact Bool.false_ne_true (hd ▸ hc)
  have hdigit : c.isDigit = false := eq_false_of_isBlank (p := Char.isDigit) (by decide) hc
  have hsign : ∀ s : Sign, s.goesOnWith c = false := by
    intro s
    cases s <;> simp [Sign.goesOnWith, hdigit, hne '.' (by decide), hne '*' (by decide),
      hne '=' (by decide), hne '>' (by decide)]
  cases a with
  | word _ => exact isNamePart_of_isBlank hc
  | string _ => rfl
  | number _ => simp [goesOnWith, isNamePart_of_isBlank hc, hne '.' (by decide)]
  | sign s => exact hsign s

theorem kind_ne_templateHead (a : Atom) : a.kind ≠ .templateHead := by
  cases a with
  | word _ => exact TokenKind.ofWord_ne (by decide) (by decide) _
  | string _ => exact fun h => by contradiction
  | number _ => exact fun h => by contradiction
  | sign s => cases s <;> exact fun h => by contradiction

theorem spells (a : Atom) : Spells a.kind a.text where
  opensNothing := a.kind_ne_templateHead
  scans _ hst _ hrest := a.pieces_append hst fun c hc => a.goesOnWith_of_isBlank (hrest c hc)

/-- The word that an atom is. -/
def toWord (a : Atom) : Word := ⟨a.kind, a.text, a.spells⟩

@[simp] theorem toWord_kind (a : Atom) : a.toWord.kind = a.kind := rfl

/-- The words of atoms. -/
def words (as : List Atom) : List Word := as.map toWord

@[simp] theorem words_nil : words [] = [] := rfl

@[simp] theorem words_cons (a : Atom) (as : List Atom) :
    words (a :: as) = a.toWord :: words as := rfl

@[simp] theorem words_append (as bs : List Atom) : words (as ++ bs) = words as ++ words bs :=
  List.map_append

@[simp] theorem length_words (as : List Atom) : (words as).length = as.length := List.length_map _

theorem isFault_token (a : Atom) (p : TokenPlace) : (a.toWord.token p).isFault = false := by
  have hkind : Token.isFault ⟨a.kind, ⟨0, 0⟩, "", "", false⟩ = false := by
    cases a with
    | word letters =>
      exact @TokenKind.ofWord_all (fun k => Token.isFault ⟨k, ⟨0, 0⟩, "", "", false⟩ = false) rfl
        (by decide) _
    | string _ => rfl
    | number _ => rfl
    | sign s => cases s <;> rfl
  exact hkind

end Atom

/-! ## Gaps -/

/-- White space and comments.  The text of each line comment has a property. -/
inductive Gap (remarks : List Char → Prop) : List Char → Prop where
  | nil : Gap remarks []
  | blank {c : Char} {gap : List Char} (hc : isBlank c = true) (hgap : Gap remarks gap) :
      Gap remarks (c :: gap)
  | block {body gap : List Char} (hbody : ¬ ['*', '/'] <:+: body) (hgap : Gap remarks gap) :
      Gap remarks ('/' :: '*' :: (body ++ '*' :: '/' :: gap))
  | line {body gap : List Char} (hbody : '\n' ∉ body) (hremark : remarks body)
      (hgap : Gap remarks gap) : Gap remarks ('/' :: '/' :: (body ++ '\n' :: gap))

theorem Gap.append {remarks : List Char → Prop} {gap gap' : List Char} (h : Gap remarks gap)
    (h' : Gap remarks gap') : Gap remarks (gap ++ gap') := by
  induction h with
  | nil => exact h'
  | blank hc _ ih => exact .blank hc ih
  | @block body gap hbody _ ih =>
    have happend : '/' :: '*' :: (body ++ '*' :: '/' :: gap) ++ gap' =
        '/' :: '*' :: (body ++ '*' :: '/' :: (gap ++ gap')) := by simp
    exact happend ▸ .block hbody ih
  | @line body gap hbody hremark _ ih =>
    have happend : '/' :: '/' :: (body ++ '\n' :: gap) ++ gap' =
        '/' :: '/' :: (body ++ '\n' :: (gap ++ gap')) := by simp
    exact happend ▸ .line hbody hremark ih

/-- A comment whose text has a property, if it is a line comment. -/
def Remarked (remarks : List Char → Prop) (c : Comment) : Prop :=
  c.kind = .line → ∃ body, remarks body ∧ c.text = Piece.remark .line ('/' :: '/' :: body)

/-- A block comment ends at the first star with a slash. -/
theorem Extent.blockComment_append {body : List Char} (hbody : ¬ ['*', '/'] <:+: body)
    (rest : List Char) : blockComment (body ++ '*' :: '/' :: rest) = ⟨body.length + 2, true⟩ := by
  induction body with
  | nil => rfl
  | cons c body ih =>
    have hbody' : ¬ ['*', '/'] <:+: body := fun h => hbody (List.infix_cons h)
    rw [List.cons_append, blockComment, ih hbody']
    · simp only [Bounded.after, List.length_cons]
      congr 1
      omega
    · rintro rest' rfl hrest
      cases body with
      | nil => simp at hrest
      | cons d body =>
        obtain rfl := (List.cons.inj hrest).1
        exact hbody ⟨[], body, rfl⟩

/-- What a slash with a slash or a star behind it begins. -/
theorem Lexeme.next_slash (st : ScanState) (rest : List Char) :
    next st '/' rest = match rest with
      | '/' :: _ => ⟨.comment .line, Extent.run (· != '\n') rest⟩
      | '*' :: body =>
        if (Extent.blockComment body).closed then
          ⟨.comment .block, 1 + (Extent.blockComment body).length⟩
        else ⟨.token (.fault .unterminatedComment), rest.length⟩
      | _ => token st '/' rest := by
  have hblank : ¬ isBlank '/' = true := by decide
  unfold next
  rw [if_neg hblank]
  rfl

theorem pieces_blockComment {body : List Char} (hbody : ¬ ['*', '/'] <:+: body) (st : ScanState)
    (rest : List Char) : pieces st ('/' :: '*' :: (body ++ '*' :: '/' :: rest)) =
      ⟨.comment .block, '/' :: '*' :: (body ++ ['*', '/'])⟩ :: pieces st rest := by
  have hnext : Lexeme.next st '/' ('*' :: (body ++ '*' :: '/' :: rest)) =
      ⟨.comment .block, 1 + (body.length + 2)⟩ := by
    rw [Lexeme.next_slash]
    simp only [Extent.blockComment_append hbody, if_true]
  have hsplit : '*' :: (body ++ '*' :: '/' :: rest) = ('*' :: (body ++ ['*', '/'])) ++ rest := by
    simp
  have hlength : 1 + (body.length + 2) = ('*' :: (body ++ ['*', '/'])).length := by
    simp only [List.length_cons, List.length_append, List.length_nil]
    omega
  rw [pieces_cons, hnext, hsplit]
  simp only [hlength, List.take_left, List.drop_left]
  rfl

theorem pieces_lineComment {body rest : List Char} (hbody : '\n' ∉ body)
    (hrest : ∀ c ∈ rest.head?, c = '\n') (st : ScanState) :
    pieces st ('/' :: '/' :: (body ++ rest)) =
      ⟨.comment .line, '/' :: '/' :: body⟩ :: pieces st rest := by
  have hrun : (('/' :: body) ++ rest).takeWhile (· != '\n') = '/' :: body := by
    refine takeWhile_append_of_stop (fun c hc => ?_) fun c hc => ?_
    · have hne : c ≠ '\n' := by
        rintro rfl
        exact hbody ((List.mem_cons.mp hc).resolve_left (by decide))
      simpa using hne
    · simp [hrest c hc]
  have hnext : Lexeme.next st '/' (('/' :: body) ++ rest) =
      ⟨.comment .line, ('/' :: body).length⟩ := by
    rw [Lexeme.next_slash]
    simp only [List.cons_append, Extent.run] at hrun ⊢
    rw [hrun]
  change pieces st ('/' :: (('/' :: body) ++ rest)) = _
  rw [pieces_cons, hnext]
  simp only [List.take_left, List.drop_left]
  rfl

namespace Scan

variable {pos : Nat} {lineBefore : Bool} {st : ScanState} {remarks : List Char → Prop}

/-- A character of white space moves what is behind it. -/
theorem layOut_blank {c : Char} (hc : isBlank c = true) (rest : List Char) :
    layOut pos lineBefore (pieces st (c :: rest)) =
      layOut (pos + byteLength [c]) (lineBefore || [c].contains '\n') (pieces st rest) := by
  rw [pieces_cons, Lexeme.next_of_isBlank hc]
  cases rest with
  | nil =>
    rw [layOut]
    simp [pieces]
  | cons d rest =>
    by_cases hd : isBlank d = true
    · have hrun : Extent.run isBlank (d :: rest) = Extent.run isBlank rest + 1 := by
        simp [Extent.run, hd]
      rw [layOut, pieces_cons st d, Lexeme.next_of_isBlank hd, layOut]
      simp [hrun, ScanState.after, Nat.add_assoc, Bool.or_assoc]
    · have hrun : Extent.run isBlank (d :: rest) = 0 := by
        simp [Extent.run, hd]
      rw [layOut]
      simp [hrun, ScanState.after]

/-- What a gap does to the scan of the text behind it: the tokens are moved, and the comments of the
gap come before the others. -/
def Moves (remarks : List Char → Prop) (gap : List Char) (pos : Nat) (lineBefore : Bool)
    (ps : List Piece) (scan : Scan) : Prop :=
  ∃ comments, (∀ c ∈ comments, Remarked remarks c) ∧
    scan.tokens = (layOut (pos + byteLength gap) (lineBefore || gap.contains '\n') ps).tokens ∧
    scan.comments = comments ++
      (layOut (pos + byteLength gap) (lineBefore || gap.contains '\n') ps).comments

theorem Moves.after {text gap : List Char} {ps : List Piece} {scan : Scan}
    (h : Moves remarks gap (pos + byteLength text) (lineBefore || text.contains '\n') ps scan) :
    Moves remarks (text ++ gap) pos lineBefore ps scan := by
  obtain ⟨comments, hcomments, htokens, hrest⟩ := h
  refine ⟨comments, hcomments, ?_, ?_⟩
  · simpa [Nat.add_assoc, Bool.or_assoc] using htokens
  · simpa [Nat.add_assoc, Bool.or_assoc] using hrest

theorem Moves.blank {c : Char} {gap rest : List Char} {ps : List Piece} (hc : isBlank c = true)
    (h : Moves remarks gap (pos + byteLength [c]) (lineBefore || [c].contains '\n') ps
      (layOut (pos + byteLength [c]) (lineBefore || [c].contains '\n') (pieces st rest))) :
    Moves remarks (c :: gap) pos lineBefore ps (layOut pos lineBefore (pieces st (c :: rest))) :=
  layOut_blank hc rest ▸ h.after

theorem Moves.comment {gap : List Char} {ps : List Piece} {scan : Scan} {comment : Comment}
    (h : Moves remarks gap pos lineBefore ps scan) (hcomment : Remarked remarks comment) :
    Moves remarks gap pos lineBefore ps { scan with comments := comment :: scan.comments } := by
  obtain ⟨comments, hcomments, htokens, hrest⟩ := h
  exact ⟨comment :: comments, List.forall_mem_cons.mpr ⟨hcomment, hcomments⟩, htokens,
    congrArg (comment :: ·) hrest⟩

/-- **A gap moves the tokens behind it,** and its comments come before theirs. -/
theorem moves_gap {gap : List Char} (hgap : Gap remarks gap) (pos : Nat) (lineBefore : Bool)
    (st : ScanState) (rest : List Char) : Moves remarks gap pos lineBefore (pieces st rest)
      (layOut pos lineBefore (pieces st (gap ++ rest))) := by
  induction hgap generalizing pos lineBefore with
  | nil => exact ⟨[], fun _ h => by contradiction, by simp, by simp⟩
  | blank hc _ ih => exact .blank hc (ih _ _)
  | @block body gap hbody _ ih =>
    have htext : '/' :: '*' :: (body ++ '*' :: '/' :: gap) =
        '/' :: '*' :: (body ++ ['*', '/']) ++ gap := by simp
    have happend : '/' :: '*' :: (body ++ ['*', '/']) ++ gap ++ rest =
        '/' :: '*' :: (body ++ '*' :: '/' :: (gap ++ rest)) := by simp
    rw [htext, happend, pieces_blockComment hbody, layOut]
    exact .comment (.after (ih _ _)) fun h => by contradiction
  | @line body gap hbody hremark _ ih =>
    have happend : '/' :: '/' :: (body ++ '\n' :: gap) ++ rest =
        '/' :: '/' :: (body ++ '\n' :: (gap ++ rest)) := by simp
    rw [happend, pieces_lineComment hbody fun c hc => (Option.mem_some.mp hc).symm, layOut]
    refine .comment ?_ fun _ => ⟨body, hremark, rfl⟩
    exact @Moves.after _ _ _ ('/' :: '/' :: body) _ _ _ (.blank (by decide) (ih _ _))

theorem le_start_of_mem_comments {ps : List Piece} {c : Comment}
    (hc : c ∈ (layOut pos lineBefore ps).comments) : pos ≤ c.span.start := by
  fun_induction layOut pos lineBefore ps with
  | case1 => contradiction
  | case2 pos _ p _ _ _ ih => exact Nat.le_trans (Nat.le_add_right ..) (ih hc)
  | case3 pos _ p _ _ _ _ _ ih =>
    rcases List.mem_cons.mp hc with rfl | hc
    · exact Nat.le_refl _
    · exact Nat.le_trans (Nat.le_add_right ..) (ih hc)
  | case4 pos _ p _ _ _ _ _ _ ih => exact Nat.le_trans (Nat.le_add_right ..) (ih hc)

end Scan

/-! ## Rendered atoms -/

/-- A text renders atoms: each ends where the text does not go on with it.  The line comments before
the first atom have a property. -/
inductive Rendered : (List Char → Prop) → List Char → List Atom → Prop where
  | gap {remarks : List Char → Prop} {gap : List Char} (hgap : Gap remarks gap) :
      Rendered remarks gap []
  | remark {remarks : List Char → Prop} {gap body : List Char} (hgap : Gap remarks gap)
      (hbody : '\n' ∉ body) (hremark : remarks body) :
      Rendered remarks (gap ++ '/' :: '/' :: body) []
  | atom {remarks : List Char → Prop} {gap rest : List Char} {a : Atom} {as : List Atom}
      (hgap : Gap remarks gap) (hends : a.EndsBefore rest)
      (hrest : Rendered (fun _ => True) rest as) :
      Rendered remarks (gap ++ (a.text ++ rest)) (a :: as)

namespace Rendered

variable {remarks : List Char → Prop} {text : List Char} {as : List Atom}

/-- The comments of a scan before its first token have a property, if they are line comments. -/
def LeadsWith (remarks : List Char → Prop) (scan : Scan) : Prop :=
  ∃ leading further, scan.comments = leading ++ further ∧
    (∀ c ∈ leading, Remarked remarks c) ∧
      ∀ c ∈ further, ∀ t ∈ scan.tokens.head?, t.span.start ≤ c.span.start

/-- **A rendering of atoms is scanned as their words,** and its leading comments are those of its
first gap. -/
theorem exists_tokens (h : Rendered remarks text as) {st : ScanState}
    (hst : .substitution ∉ st.openings) (pos : Nat) (lineBefore : Bool) (k : Nat) : ∃ place p,
    (Scan.layOut pos lineBefore (pieces st text)).tokens =
        stream place k (Atom.words as) ++ [endToken p] ∧
      LeadsWith remarks (Scan.layOut pos lineBefore (pieces st text)) := by
  induction h generalizing st pos lineBefore k with
  | @gap remarks gap hgap =>
    obtain ⟨comments, hcomments, htokens, hrest⟩ := Scan.moves_gap hgap pos lineBefore st []
    rw [List.append_nil, pieces, Scan.layOut] at htokens hrest
    exact ⟨fun _ => ⟨⟨0, 0⟩, false⟩, ⟨⟨_, _⟩, _⟩, htokens, comments, [], hrest, hcomments,
      fun _ h => by contradiction⟩
  | @remark remarks gap body hgap hbody hremark =>
    obtain ⟨comments, hcomments, htokens, hrest⟩ :=
      Scan.moves_gap hgap pos lineBefore st ('/' :: '/' :: (body ++ []))
    rw [pieces_lineComment hbody (fun _ h => by contradiction), pieces, Scan.layOut, Scan.layOut,
      List.append_nil] at htokens hrest
    let here : Comment := ⟨.line,
      ⟨pos + byteLength gap, pos + byteLength gap + byteLength ('/' :: '/' :: body)⟩,
      Piece.remark .line ('/' :: '/' :: body)⟩
    refine ⟨fun _ => ⟨⟨0, 0⟩, false⟩, ⟨⟨_, _⟩, _⟩, htokens, comments ++ [here], [], ?_, ?_,
      fun _ h => by contradiction⟩
    · rw [hrest, List.append_nil]
    · refine List.forall_mem_append.mpr ⟨hcomments, ?_⟩
      exact List.forall_mem_singleton.mpr fun _ => ⟨body, hremark, rfl⟩
  | @atom remarks gap rest a as hgap hends _ ih =>
    obtain ⟨comments, hcomments, htokens, hrest⟩ :=
      Scan.moves_gap hgap pos lineBefore st (a.text ++ rest)
    rw [a.pieces_append hst hends, Scan.layOut] at htokens hrest
    obtain ⟨place, p, hplace, _⟩ := ih (a.toWord.not_mem_openings hst)
      (pos + byteLength gap + byteLength a.text) false (k + 1)
    let here : TokenPlace := ⟨⟨pos + byteLength gap, pos + byteLength gap + byteLength a.text⟩,
      lineBefore || gap.contains '\n'⟩
    refine ⟨placeFrom k here place, p, ?_, comments, _, hrest, hcomments, ?_⟩
    · rw [Atom.words_cons, stream_placeFrom, List.cons_append, ← hplace]
      exact htokens
    · intro c hc t ht
      rw [htokens] at ht
      obtain rfl := Option.mem_some.mp ht
      exact Nat.le_trans (Nat.le_add_right ..) (Scan.le_start_of_mem_comments hc)

theorem tokens_ofText (h : Rendered remarks text as) : ∃ place p,
    (Scan.ofText (String.ofList text)).tokens = stream place 0 (Atom.words as) ++ [endToken p] ∧
      LeadsWith remarks (Scan.ofText (String.ofList text)) := by
  obtain ⟨place, p, htokens, hleads⟩ := @exists_tokens _ _ _ h .initial (by decide) 0 true 0
  rw [← String.toList_ofList (l := text)] at htokens hleads
  exact ⟨place, p, htokens, hleads⟩

theorem prepend (h : Rendered remarks text as) {front : List Char} (hfront : Gap remarks front) :
    Rendered remarks (front ++ text) as := by
  cases h with
  | gap hgap => exact .gap (hfront.append hgap)
  | remark hgap hbody hremark =>
    rw [← List.append_assoc]
    exact .remark (hfront.append hgap) hbody hremark
  | atom hgap hends hrest =>
    rw [← List.append_assoc]
    exact .atom (hfront.append hgap) hends hrest

end Rendered

/-! ## Printing atoms -/

/-- Atoms with a space where they would run into each other. -/
def tight : List Atom → List Char
  | [] => []
  | a :: as => a.text ++ ((if (tight as).head?.any a.goesOnWith then [' '] else []) ++ tight as)

/-- **All atoms can be rendered.** -/
theorem rendered_tight (remarks : List Char → Prop) (as : List Atom) :
    Rendered remarks (tight as) as := by
  induction as generalizing remarks with
  | nil => exact .gap .nil
  | cons a as ih =>
    refine @Rendered.atom _ [] _ _ _ .nil ?_ ((ih _).prepend ?_)
    · intro c hc
      split at hc
      · exact a.goesOnWith_of_isBlank (Option.mem_some.mp hc ▸ rfl)
      · rename_i hnot
        refine Bool.eq_false_iff.mpr fun hgoesOn => hnot ?_
        exact (Option.any_eq_true ..).mpr ⟨c, hc, hgoesOn⟩
    · split
      · exact .blank rfl .nil
      · exact .nil

end TypeScriptEngine
