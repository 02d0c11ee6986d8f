import TypeScriptEngine.Proofs.Checked.Scanning
import TypeScriptEngine.Proofs.Grammar.Module
import TypeScriptEngine.Reference

/-! # Specifiers stand between quotes

A reference keeps where its specifier stands, and this place is found in two ways: as the inside of a
string literal, and by counting bytes from the beginning of a comment up to the value of an
attribute.  Either way it is what stands between two quotes that are the same (`InQuotes`), so that
the span of a reference has a quote directly before it and one directly behind it
(`Reference.stands_between_quotes`).
-/

namespace TypeScriptEngine

open TypeScriptEngine.Text TokenStream

/-- A single or a double quote. -/
def IsQuote (c : Char) : Prop := c = '"' ∨ c = '\''

theorem utf8Size_of_isQuote {c : Char} (h : IsQuote c) : c.utf8Size = 1 := by
  rcases h with rfl | rfl <;> rfl

/-- The content stands between two quotes of the text that are the same, and `s` is where. -/
def InQuotes (text content : List Char) (s : Span) : Prop :=
  ∃ before quote after, text = before ++ quote :: (content ++ quote :: after) ∧ IsQuote quote ∧
    s = ⟨byteLength before + 1, byteLength before + 1 + byteLength content⟩

/-- What is around a place between quotes. -/
theorem InQuotes.around {text content : List Char} {s : Span} (h : InQuotes text content s) :
    Emit.Boundary text s.start ∧ Emit.Boundary text s.stop ∧
      sliceBytes s.start s.stop text = content ∧
      ∃ quote, IsQuote quote ∧ 1 ≤ s.start ∧
        sliceBytes (s.start - 1) s.start text = [quote] ∧
        sliceBytes s.stop (s.stop + 1) text = [quote] := by
  obtain ⟨before, quote, after, rfl, hquote, rfl⟩ := h
  have hsize := utf8Size_of_isQuote hquote
  have hstart : byteLength (before ++ [quote]) = byteLength before + 1 := by simp [hsize]
  have hstop : byteLength (before ++ [quote] ++ content) =
      byteLength before + 1 + byteLength content := by rw [byteLength_append, hstart]
  have hend : byteLength (before ++ [quote] ++ content ++ [quote]) =
      byteLength before + 1 + byteLength content + 1 := by rw [byteLength_append, hstop]; simp [hsize]
  have hunder := Emit.sliceBytes_append (before ++ [quote]) content (quote :: after)
  have hopening := Emit.sliceBytes_append before [quote] (content ++ quote :: after)
  have hclosing := Emit.sliceBytes_append (before ++ [quote] ++ content) [quote] after
  rw [hstart, hstop] at hunder
  rw [hstart] at hopening
  rw [hstop, hend] at hclosing
  simp only [List.append_assoc, List.singleton_append] at hunder hopening hclosing
  refine ⟨⟨before ++ [quote], ⟨content ++ quote :: after, by simp⟩, hstart⟩,
    ⟨before ++ [quote] ++ content, ⟨quote :: after, by simp⟩, hstop⟩, hunder, quote, hquote,
    Nat.le_add_left .., ?_, hclosing⟩
  rw [Nat.add_sub_cancel]
  exact hopening

/-! ## String literals -/

/-- A string that is closed ends with its quote. -/
theorem Extent.exists_string {quote : Char} {cs : List Char}
    (h : (string quote cs).closed = true) :
    ∃ content, cs.take (string quote cs).length = content ++ [quote] := by
  fun_induction string quote cs with
  | case1 => contradiction
  | case2 rest ih =>
    obtain ⟨content, hcontent⟩ := ih h
    refine ⟨'\\' :: '\r' :: '\n' :: content, ?_⟩
    rw [Bounded.after, Nat.add_comm, List.take_succ_cons, List.take_succ_cons, List.take_succ_cons,
      hcontent]
    rfl
  | case3 c rest _ ih =>
    obtain ⟨content, hcontent⟩ := ih h
    refine ⟨'\\' :: c :: content, ?_⟩
    rw [Bounded.after, Nat.add_comm, List.take_succ_cons, List.take_succ_cons, hcontent]
    rfl
  | case4 c rest _ _ hquote => exact ⟨[], by rw [← eq_of_beq hquote]; rfl⟩
  | case5 => contradiction
  | case6 c rest _ _ _ _ ih =>
    obtain ⟨content, hcontent⟩ := ih h
    refine ⟨c :: content, ?_⟩
    rw [Bounded.after, Nat.add_comm, List.take_succ_cons, hcontent]
    rfl

namespace Lexeme

/-- If the lexeme is of the kind of string literals then it is a text in quotes. -/
def QuotesString (c : Char) (rest : List Char) (l : Lexeme) : Prop :=
  l.kind = .token .stringLiteral →
    IsQuote c ∧ ∃ content, rest.take l.further = content ++ [c]

variable {c : Char} {rest : List Char}

theorem QuotesString.of_ne {l : Lexeme} (h : l.kind ≠ .token .stringLiteral) :
    QuotesString c rest l := fun h' => absurd h' h

theorem quotesString_token (st : ScanState) (c : Char) (rest : List Char) :
    QuotesString c rest (token st c rest) := by
  refine token_cases (fun hquote hkind => ?_) (fun _ => .of_ne (template_ne (by decide) _ _))
    (fun _ => .of_ne (template_ne (by decide) _ _)) (fun _ => .of_ne fun h => by cases h)
    (.of_ne (bounded_ne (by decide) (by decide) _))
    (fun _ => .of_ne fun h => TokenKind.ofWord_ne (by decide) (by decide) _ (PieceKind.token.inj h))
    fun _ => .of_ne (punctuation_ne (by decide) (ofCharacter_ne (by decide)) _ _)
  refine ⟨hquote, Extent.exists_string (Decidable.byContradiction fun hclosed => ?_)⟩
  have hfault := PieceKind.token.inj hkind
  rw [if_neg hclosed] at hfault
  contradiction

/-- **A string literal is a text in quotes.** -/
theorem quotesString_next (st : ScanState) (c : Char) (rest : List Char) :
    QuotesString c rest (next st c rest) :=
  next_cases (fun _ => .of_ne fun h => by cases h) (fun _ _ _ => .of_ne fun h => by cases h)
    (fun _ _ _ _ => .of_ne fun h => by cases h) (.of_ne fun h => by cases h)
    (quotesString_token st c rest)

end Lexeme

/-- The token of a string literal is a text in quotes. -/
theorem Scan.exists_quotes {text : String} : ∀ t ∈ (ofText text).tokens, t.kind = .stringLiteral →
    ∃ quote content, IsQuote quote ∧ t.source.toList = quote :: (content ++ [quote]) := by
  refine tokens_induction (P := fun _ ts => ∀ t ∈ ts, t.kind = .stringLiteral →
      ∃ quote content, IsQuote quote ∧ t.source.toList = quote :: (content ++ [quote]))
    (fun _ t hend _ => ?_) (fun st c rest t ts hnext hsource ih => ?_) .initial text.toList 0 true
  · exact List.forall_mem_singleton.mpr fun hkind => absurd (hend.symm.trans hkind) (by decide)
  · refine List.forall_mem_cons.mpr ⟨fun hkind => ?_, ih⟩
    obtain ⟨hquote, content, htake⟩ := Lexeme.quotesString_next st c rest (hkind ▸ hnext)
    exact ⟨c, content, hquote, by rw [hsource, htake]⟩

/-- The span of a string literal without its quotes. -/
theorem Scan.inQuotes_unquoted {text : String} {t : Token} (ht : t ∈ (ofText text).tokens)
    (hkind : t.kind = .stringLiteral) : ∃ content, InQuotes text.toList content t.span.unquoted ∧
      t.value = String.ofList (Escape.decode content) := by
  obtain ⟨quote, content, hquote, hsource⟩ := exists_quotes t ht hkind
  obtain ⟨before, after, htext, hstart, hstop⟩ := slice_ofText ht
  have hsize := utf8Size_of_isQuote hquote
  have hinner : Piece.inner 1 1 (quote :: (content ++ [quote])) = content := by simp [Piece.inner]
  refine ⟨content, ⟨before, quote, after, ?_, hquote, ?_⟩, ?_⟩
  · rw [htext, hsource]
    simp
  · have hlength : t.span.stop = byteLength before + 1 + byteLength content + 1 := by
      rw [hstop, hstart, hsource]
      simp only [byteLength_cons, byteLength_append, byteLength_nil, hsize]
      omega
    rw [Nat.zero_add] at hstart
    rw [Span.unquoted, if_pos (by unfold Span.length; omega), hlength, hstart, Nat.add_sub_cancel]
  · rw [value_eq ht, hkind, hsource, Piece.value, hinner]

/-! ## Literals that make references -/

namespace Reference

variable {ts rest : TokenStream} {t : Token} {depth : Nat}

/-- The token is a string literal of the stream. -/
def IsLiteralOf (ts : TokenStream) (t : Token) : Prop := t ∈ ts ∧ t.kind = .stringLiteral

theorem IsLiteralOf.of_suffix (h : IsLiteralOf rest t) (hrest : rest <:+ ts) : IsLiteralOf ts t :=
  ⟨hrest.subset h.1, h.2⟩

theorem isLiteralOf_headString? (h : headString? ts = some t) : IsLiteralOf ts t := by
  unfold headString? at h
  split at h
  · split at h
    · obtain rfl := Option.some.inj h
      exact ⟨List.mem_cons_self .., ‹_›⟩
    · contradiction
  · contradiction

theorem isLiteralOf_requireCall? (h : requireCall? ts = some t) : IsLiteralOf ts t := by
  unfold requireCall? at h
  split at h
  · split at h
    · rename_i hcall
      obtain rfl := Option.some.inj h
      exact ⟨by simp, hcall.2.2⟩
    · contradiction
  · contradiction

theorem isLiteralOf_importSource? (h : importSource? ts = some t) : IsLiteralOf ts t := by
  induction ts with
  | nil => contradiction
  | cons u rest ih =>
    have hsuffix := List.suffix_cons u rest
    unfold importSource? at h
    split at h
    · split at h
      · exact (isLiteralOf_headString? h).of_suffix hsuffix
      · exact (ih h).of_suffix hsuffix
    · exact (isLiteralOf_requireCall? h).of_suffix hsuffix
    all_goals first | contradiction | exact (ih h).of_suffix hsuffix

theorem isLiteralOf_fromClause? (h : fromClause? ts = some t) : IsLiteralOf ts t := by
  unfold fromClause? at h
  split at h
  · split at h
    · exact (isLiteralOf_headString? h).of_suffix (List.suffix_cons ..)
    · contradiction
  · contradiction

theorem suffix_of_afterBraces? (h : afterBraces? depth ts = some rest) : rest <:+ ts := by
  induction ts generalizing depth with
  | nil => contradiction
  | cons u us ih =>
    have hsuffix := List.suffix_cons u us
    unfold afterBraces? at h
    split at h
    · exact (ih h).trans hsuffix
    · split at h
      · exact Option.some.inj h ▸ hsuffix
      · exact (ih h).trans hsuffix
    · contradiction
    · exact (ih h).trans hsuffix

theorem isLiteralOf_exportListSource? (h : exportListSource? ts = some t) : IsLiteralOf ts t := by
  unfold exportListSource? at h
  split at h
  · contradiction
  · rename_i u rest
    have hsuffix := List.suffix_cons u rest
    split at h
    · refine (isLiteralOf_fromClause? h).of_suffix ?_
      split
      · exact (List.drop_suffix 2 rest).trans hsuffix
      · exact hsuffix
    · obtain ⟨behind, hbehind, hclause⟩ := Option.bind_eq_some_iff.mp h
      exact (isLiteralOf_fromClause? hclause).of_suffix ((suffix_of_afterBraces? hbehind).trans hsuffix)
    · contradiction

theorem isLiteralOf_exportSource? (h : exportSource? ts = some t) : IsLiteralOf ts t := by
  unfold exportSource? at h
  split at h
  · split at h
    · exact (isLiteralOf_exportListSource? h).of_suffix (List.suffix_cons ..)
    · exact isLiteralOf_exportListSource? h
  · contradiction

theorem isLiteralOf_importedBy? (h : importedBy? ts = some t) : IsLiteralOf ts t := by
  unfold importedBy? at h
  split at h
  · exact (isLiteralOf_headString? h).of_suffix (List.drop_suffix 1 ts)
  · exact isLiteralOf_headString? h
  · contradiction
  · exact isLiteralOf_importSource? h

/-- **A reference of a statement or a call is that of a string literal.** -/
theorem exists_literal {previous : TokenKind} {r : Reference} (hr : r ∈ ofTokens previous ts) :
    ∃ t, IsLiteralOf ts t ∧ r = ofLiteral t := by
  induction ts generalizing previous with
  | nil => contradiction
  | cons u rest ih =>
    have hsuffix := List.suffix_cons u rest
    rw [ofTokens] at hr
    rcases List.mem_append.mp hr with hr | hr
    · obtain ⟨t, hsource, rfl⟩ := Option.map_eq_some_iff.mp (Option.mem_toList.mp hr)
      refine ⟨t, ?_, rfl⟩
      split at hsource
      · contradiction
      · split at hsource
        · exact (isLiteralOf_importedBy? hsource).of_suffix hsuffix
        · exact (isLiteralOf_exportSource? hsource).of_suffix hsuffix
        · contradiction
    · obtain ⟨t, ht, rfl⟩ := ih hr
      exact ⟨t, ht.of_suffix hsuffix, rfl⟩

/-! ## Attributes of directives -/

variable {cs : List Char} {pos : Nat} {q : Quoted}

/-- The text from a quote on. -/
theorem exists_quote {start : Nat} {quoted : List Char}
    (h : attributeQuote? pos cs = some (start, quoted)) :
    ∃ front quote value, quoted = quote :: value ∧ IsQuote quote ∧ cs = front ++ quote :: value ∧
      start = pos + byteLength front := by
  unfold attributeQuote? at h
  split at h
  · rename_i behind hequals
    split at h
    · rename_i quote value hquote
      split at h
      · rename_i hmark
        obtain ⟨rfl, rfl⟩ := Prod.mk.inj (Option.some.inj h)
        obtain ⟨front, hfront⟩ : '=' :: behind <:+ cs := hequals ▸ List.dropWhile_suffix _
        obtain ⟨blank, hblank⟩ : quote :: value <:+ behind := hquote ▸ List.dropWhile_suffix _
        refine ⟨front ++ '=' :: blank, quote, value, rfl, by simpa [IsQuote] using hmark, ?_, ?_⟩
        · rw [← hfront, ← hblank, List.append_assoc, List.cons_append]
        · rw [← hfront, ← hblank, ← List.cons_append, ← List.append_assoc, byteLength_append,
            ← Nat.add_assoc, Nat.add_sub_cancel]
      · contradiction
    · contradiction
  · contradiction

/-- A value goes up to the next quote of its kind. -/
theorem exists_closingQuote {quote : Char} {value : List Char}
    (h : quoted? pos (quote :: value) = some q) :
    q.offset = pos + 1 ∧ ∃ after, value = q.value ++ quote :: after := by
  rw [quoted?] at h
  split at h
  · rename_i hmem
    obtain rfl := Option.some.inj h
    refine ⟨rfl, ?_⟩
    have hne : value.dropWhile (· != quote) ≠ [] := fun hnil => by
      have hall := List.dropWhile_eq_nil_iff.mp hnil quote (List.contains_iff_mem.mp hmem)
      simp at hall
    obtain ⟨c, after, hdrop⟩ := List.exists_cons_of_ne_nil hne
    have hc : (c != quote) = false := by
      have hhead := List.head_dropWhile_not (· != quote) hne
      simpa only [hdrop, List.head_cons] using hhead
    obtain rfl : c = quote := by simpa using hc
    exact ⟨after, by rw [← hdrop]; exact List.takeWhile_append_dropWhile.symm⟩
  · contradiction

/-- What is passed over together with the name. -/
theorem exists_passed (c : Char) (rest : List Char) (n : Nat) :
    ∃ passed, c :: rest = passed ++ rest.drop n ∧
      pos + byteLength (c :: rest) - byteLength (rest.drop n) = pos + byteLength passed := by
  have hsplit : c :: rest = (c :: rest.take n) ++ rest.drop n := by simp
  refine ⟨c :: rest.take n, hsplit, ?_⟩
  rw [hsplit, byteLength_append, ← Nat.add_assoc, Nat.add_sub_cancel]

/-- **The value of an attribute stands between quotes,** and its offset is where it begins. -/
theorem exists_attribute {name : List Char} {previous : Option Char}
    (h : attribute? name previous pos cs = some q) :
    ∃ front quote after, cs = front ++ quote :: (q.value ++ quote :: after) ∧ IsQuote quote ∧
      q.offset = pos + byteLength front + 1 := by
  fun_induction attribute? name previous pos cs with
  | case1 => contradiction
  | case2 previous pos c rest _ further pos' start quoted hfound =>
    obtain ⟨passed, hpassed, hpos⟩ := @exists_passed pos c rest (name.length - 1)
    split at hfound
    · obtain ⟨front, quote, value, rfl, hquote, hfurther, rfl⟩ := exists_quote hfound
      obtain ⟨hoffset, after, rfl⟩ := exists_closingQuote h
      refine ⟨passed ++ front, quote, after, ?_, hquote, ?_⟩
      · rw [hpassed, List.append_assoc]
        exact congrArg (passed ++ ·) hfurther
      · rw [hoffset, byteLength_append, ← Nat.add_assoc, ← hpos]
    · contradiction
  | case3 previous pos c rest _ further pos' _ ih =>
    obtain ⟨passed, hpassed, hpos⟩ := @exists_passed pos c rest (name.length - 1)
    obtain ⟨front, quote, after, hfurther, hquote, hoffset⟩ := ih h
    refine ⟨passed ++ front, quote, after, ?_, hquote, ?_⟩
    · rw [hpassed, List.append_assoc]
      exact congrArg (passed ++ ·) hfurther
    · rw [hoffset, byteLength_append, ← Nat.add_assoc, ← hpos]
  | case4 previous pos c rest _ ih =>
    obtain ⟨front, quote, after, rfl, hquote, hoffset⟩ := ih h
    refine ⟨c :: front, quote, after, rfl, hquote, ?_⟩
    rw [hoffset, byteLength_cons, Nat.add_assoc pos]

end Reference

/-! ## Comments of a text -/

/-- The comment is one of the pieces that are laid end to end from byte `pos` on, and it stands where
its span is. -/
def Comment.IsPiece (pos : Nat) (ps : List Piece) (c : Comment) : Prop :=
  ∃ before p after, p ∈ ps ∧ p.kind = .comment c.kind ∧
    (ps.map Piece.text).flatten = before ++ (p.text ++ after) ∧
    c.span.start = pos + byteLength before ∧ c.text = Piece.remark c.kind p.text

/-- It is one if there is a piece before all of them. -/
theorem Comment.IsPiece.cons {pos : Nat} {p : Piece} {ps : List Piece} {c : Comment}
    (h : c.IsPiece (pos + byteLength p.text) ps) : c.IsPiece pos (p :: ps) := by
  obtain ⟨before, q, after, hq, hkind, htext, hstart, hremark⟩ := h
  refine ⟨p.text ++ before, q, after, List.mem_cons_of_mem _ hq, hkind, ?_, ?_, hremark⟩
  · rw [List.map_cons, List.flatten_cons, htext, List.append_assoc]
  · rw [hstart, byteLength_append, Nat.add_assoc]

theorem Scan.isPiece_of_mem {pos : Nat} {lineBefore : Bool} {ps : List Piece} {c : Comment}
    (hc : c ∈ (layOut pos lineBefore ps).comments) : c.IsPiece pos ps := by
  fun_induction layOut pos lineBefore ps with
  | case1 => contradiction
  | case2 pos lineBefore p ps stop _ ih => exact (ih hc).cons
  | case3 pos lineBefore p ps stop kind hkind rest ih =>
    rcases List.mem_cons.mp hc with rfl | hc
    · exact ⟨[], p, (ps.map Piece.text).flatten, List.mem_cons_self .., hkind, rfl, rfl, rfl⟩
    · exact (ih hc).cons
  | case4 pos lineBefore p ps stop kind _ rest token ih => exact (ih hc).cons

namespace Reference

/-- The text of a directive stands behind three slashes. -/
theorem exists_slashes {text : String} {c : Comment} {body : List Char}
    (hc : c ∈ (Scan.ofText text).comments) (hbody : directiveBody? c = some body) :
    ∃ before after, text.toList = before ++ '/' :: '/' :: '/' :: (body ++ after) ∧
      c.span.start = byteLength before := by
  obtain ⟨before, p, after, hp, hkind, htext, hstart, hremark⟩ := Scan.isPiece_of_mem hc
  rw [flatten_pieces] at htext
  have hdelimited := delimited_of_mem_pieces hp
  unfold directiveBody? at hbody
  split at hbody
  · rename_i behind hline hslash
    split at hbody
    · obtain rfl := Option.some.inj hbody
      rw [hline] at hkind hremark
      simp only [Piece.Delimited, hkind] at hdelimited
      obtain ⟨inner, hinner⟩ := hdelimited
      -- what the comment says is its text without the carriage returns at the end
      have hprefix : '/' :: behind <+: inner := by
        rw [← hslash, hremark, hinner, Piece.remark, String.toList_ofList]
        exact List.reverse_suffix.mp (by rw [List.reverse_reverse]; exact List.dropWhile_suffix _)
      obtain ⟨returns, rfl⟩ := hprefix
      refine ⟨before, returns ++ after, ?_, ?_⟩
      · rw [htext, hinner]
        simp
      · rw [hstart, Nat.zero_add]
    · contradiction
  · contradiction

/-- **The specifier of a directive stands between quotes.** -/
theorem inQuotes_ofComment {text : String} {c : Comment} {r : Reference}
    (hc : c ∈ (Scan.ofText text).comments) (hr : r ∈ (ofComment c).references) :
    InQuotes text.toList r.specifier.toList r.span := by
  unfold ofComment at hr
  split at hr
  · contradiction
  · rename_i body hbody
    obtain ⟨before, after, htext, hstart⟩ := exists_slashes hc hbody
    have hattribute : ∀ (kind : ReferenceKind) (name : List Char) (q : Quoted),
        attribute? name none 0 body = some q → r = ofQuoted kind (c.span.start + 3) q →
          InQuotes text.toList r.specifier.toList r.span := by
      rintro kind name q hq rfl
      obtain ⟨front, quote, behind, rfl, hquote, hoffset⟩ := exists_attribute hq
      refine ⟨before ++ '/' :: '/' :: '/' :: front, quote, behind ++ after, ?_, hquote, ?_⟩
      · rw [htext, ofQuoted, String.toList_ofList]
        simp
      · have hbase : byteLength (before ++ '/' :: '/' :: '/' :: front) + 1 =
            c.span.start + 3 + q.offset := by
          rw [hoffset, hstart]
          simp only [byteLength_append, byteLength_cons, show '/'.utf8Size = 1 from rfl]
          omega
        rw [hbase, ofQuoted, String.toList_ofList]
    rcases Option.or_eq_some_iff.mp (Option.mem_toList.mp hr) with hpath | ⟨-, htypes⟩
    · obtain ⟨q, hq, hofQuoted⟩ := Option.map_eq_some_iff.mp hpath
      exact hattribute .directive _ q hq hofQuoted.symm
    · obtain ⟨q, hq, hofQuoted⟩ := Option.map_eq_some_iff.mp htypes
      exact hattribute .module _ q hq hofQuoted.symm

/-- **Every specifier stands between quotes,** as it is, or with escapes in a string literal. -/
theorem exists_inQuotes {text : String} {r : Reference}
    (hr : r ∈ (FileReferences.ofText text).references) : ∃ content,
      InQuotes text.toList content r.span ∧
        (r.specifier.toList = content ∨ r.specifier.toList = Escape.decode content) := by
  rcases List.mem_append.mp hr with hr | hr
  · obtain ⟨directive, hdirective, hr⟩ := List.mem_flatMap.mp hr
    obtain ⟨c, hc, rfl⟩ := List.mem_map.mp hdirective
    have hmem : c ∈ (Scan.ofText text).comments := by
      unfold leadingComments at hc
      split at hc
      · exact (List.takeWhile_sublist _).subset hc
      · exact hc
    exact ⟨_, inQuotes_ofComment hmem hr, .inl rfl⟩
  · obtain ⟨t, ht, rfl⟩ := exists_literal hr
    obtain ⟨content, hcontent, hvalue⟩ := Scan.inQuotes_unquoted ht.1 ht.2
    refine ⟨content, hcontent, .inr ?_⟩
    rw [ofLiteral, hvalue, String.toList_ofList]

/-- **The span of a reference is what stands between two quotes.**  For every reference of a text,
its span begins and ends between characters, the same quote stands directly before it and directly
behind it, and the text under it is the specifier if it holds no backslash.  If it holds one, then
that text is the specifier all the same, or its escapes stand for the specifier. -/
theorem stands_between_quotes {text : String} {r : Reference}
    (hr : r ∈ (FileReferences.ofText text).references) :
    let under := sliceBytes r.span.start r.span.stop text.toList
    (r.span.start ≤ r.span.stop ∧ Emit.Boundary text.toList r.span.start ∧
      Emit.Boundary text.toList r.span.stop) ∧
    (∃ quote, IsQuote quote ∧ 1 ≤ r.span.start ∧
      sliceBytes (r.span.start - 1) r.span.start text.toList = [quote] ∧
      sliceBytes r.span.stop (r.span.stop + 1) text.toList = [quote]) ∧
    ('\\' ∉ under → r.specifier.toList = under) ∧
    (r.specifier.toList = under ∨ r.specifier.toList = Escape.decode under) := by
  obtain ⟨content, hquotes, hspecifier⟩ := exists_inQuotes hr
  obtain ⟨hstart, hstop, hunder, haround⟩ := hquotes.around
  obtain ⟨before, quote, after, -, -, hspan⟩ := hquotes
  refine ⟨⟨?_, hstart, hstop⟩, haround, ?_, ?_⟩
  · rw [hspan]
    exact Nat.le_add_right ..
  · rw [hunder]
    intro hplain
    rwa [Escape.decode_of_not_mem hplain, or_self] at hspecifier
  · rwa [hunder]

/-- A text that refers to a path, with white space before its quote, and to a module. -/
def pathAndModule : String := "/// <reference path = 'ä.d.ts' />\nimport \"b\";\n"

/-- The path and the name of the module are what stands between their quotes. -/
theorem stands_between_quotes_pathAndModule :
    let references := (FileReferences.ofText pathAndModule).references
    let text := pathAndModule.toList
    (∃ path ∈ references, path.kind = .directive ∧ path.span = ⟨23, 30⟩ ∧
      path.specifier.toList = "ä.d.ts".toList ∧
      ∃ quote, sliceBytes 22 23 text = [quote] ∧ sliceBytes 30 31 text = [quote]) ∧
    ∃ name ∈ references, name.kind = .module ∧ name.span = ⟨43, 44⟩ ∧
      name.specifier.toList = ['b'] ∧
      ∃ quote, sliceBytes 42 43 text = [quote] ∧ sliceBytes 44 45 text = [quote] := by
  intro references text
  have hpath : ∃ path ∈ references, path.kind = .directive ∧ path.span = ⟨23, 30⟩ := by
    decide +kernel
  have hname : ∃ name ∈ references, name.kind = .module ∧ name.span = ⟨43, 44⟩ := by decide +kernel
  obtain ⟨path, hpath, hdirective, hpathSpan⟩ := hpath
  obtain ⟨name, hname, hmodule, hnameSpan⟩ := hname
  obtain ⟨-, ⟨quote, -, -, hopening, hclosing⟩, hplain, -⟩ := stands_between_quotes hpath
  obtain ⟨-, ⟨quote', -, -, hopening', hclosing'⟩, hplain', -⟩ := stands_between_quotes hname
  rw [hpathSpan] at hopening hclosing hplain
  rw [hnameSpan] at hopening' hclosing' hplain'
  exact ⟨⟨path, hpath, hdirective, hpathSpan, (hplain (by decide +kernel)).trans (by decide +kernel),
      quote, hopening, hclosing⟩, name, hname, hmodule, hnameSpan,
    (hplain' (by decide +kernel)).trans (by decide +kernel), quote', hopening', hclosing'⟩

end Reference

end TypeScriptEngine
