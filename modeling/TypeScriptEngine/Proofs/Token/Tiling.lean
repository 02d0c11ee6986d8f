import TypeScriptEngine.Proofs.Token.Layout

/-! # Scanning tiles a text

The tokens of a text but for the last one, and its comments, cover it without overlapping and leave
out nothing but white space (`ofText_tiles`).  Both are read off the pieces that the text is cut
into, which join to the text: a piece that is not blank becomes a token or a comment where it stands
(`perm_spans`).
-/

namespace TypeScriptEngine

open TypeScriptEngine.Text

/-! ## Kinds of pieces -/

namespace Lexeme

theorem token_ne_eof (st : ScanState) (c : Char) (rest : List Char) :
    (token st c rest).kind ≠ .token .eof :=
  token_cases (P := (·.kind ≠ .token .eof)) (fun _ => bounded_ne (by decide) (by decide) _)
    (fun _ => template_ne (by decide) _ _) (fun _ => template_ne (by decide) _ _)
    (fun _ h => by cases h) (bounded_ne (by decide) (by decide) _)
    (fun _ h => TokenKind.ofWord_ne (by decide) (by decide) _ (PieceKind.token.inj h))
    fun _ => punctuation_ne (by decide) (ofCharacter_ne (by decide)) _ _

/-- No piece of a text is its end. -/
theorem next_ne_eof (st : ScanState) (c : Char) (rest : List Char) :
    (next st c rest).kind ≠ .token .eof :=
  next_cases (P := (·.kind ≠ .token .eof)) (fun _ h => by cases h) (fun _ _ _ h => by cases h)
    (fun _ _ _ _ h => by cases h) (fun h => by cases h) (token_ne_eof st c rest)

theorem exists_kind_punctuation (c : Char) (rest : List Char) :
    ∃ kind, (punctuation c rest).kind = .token kind := by
  unfold punctuation
  split
  · exact ⟨_, rfl⟩
  · split <;> exact ⟨_, rfl⟩

/-- What is neither blank nor a comment is a token. -/
theorem exists_kind_token (st : ScanState) (c : Char) (rest : List Char) :
    ∃ kind, (token st c rest).kind = .token kind :=
  token_cases (P := fun l => ∃ kind, l.kind = .token kind) (fun _ => ⟨_, rfl⟩) (fun _ => ⟨_, rfl⟩)
    (fun _ => ⟨_, rfl⟩) (fun _ => ⟨_, rfl⟩) ⟨_, rfl⟩ (fun _ => ⟨_, rfl⟩)
    fun _ => exists_kind_punctuation c rest

theorem token_ne_blank (st : ScanState) (c : Char) (rest : List Char) :
    (token st c rest).kind ≠ .blank := by
  obtain ⟨kind, hkind⟩ := exists_kind_token st c rest
  rw [hkind]
  exact fun h => by cases h

/-- A piece is blank only where white space begins, and it takes in no more than that. -/
theorem next_eq_of_blank {st : ScanState} {c : Char} {rest : List Char}
    (h : (next st c rest).kind = .blank) :
    isBlank c = true ∧ next st c rest = ⟨.blank, Extent.run isBlank rest⟩ := by
  unfold next at h ⊢
  split at h
  · rename_i hblank
    rw [if_pos hblank]
    exact ⟨hblank, rfl⟩
  · split at h
    · split at h
      · cases h
      · simp only at h
        split at h <;> cases h
      · exact absurd h (token_ne_blank st c _)
    · exact absurd h (token_ne_blank st c rest)

end Lexeme

theorem kind_ne_eof_of_mem_pieces {st : ScanState} {cs : List Char} {p : Piece}
    (hp : p ∈ pieces st cs) : p.kind ≠ .token .eof := by
  obtain ⟨st, c, rest, rfl⟩ := exists_next_of_mem_pieces hp
  exact Lexeme.next_ne_eof st c rest

/-- Blank pieces hold white space only. -/
theorem isBlank_of_mem_pieces {st : ScanState} {cs : List Char} {p : Piece}
    (hp : p ∈ pieces st cs) (hkind : p.kind = .blank) : ∀ c ∈ p.text, isBlank c = true := by
  obtain ⟨st, c, rest, rfl⟩ := exists_next_of_mem_pieces hp
  obtain ⟨hblank, hnext⟩ := Lexeme.next_eq_of_blank hkind
  have htake : rest.take (Lexeme.next st c rest).further = rest.takeWhile isBlank := by
    rw [hnext]
    exact (List.prefix_iff_eq_take.mp (List.takeWhile_prefix _)).symm
  intro d hd
  rcases List.mem_cons.mp hd with rfl | hd
  · exact hblank
  · exact List.all_eq_true.mp (List.all_takeWhile) d (htake ▸ hd)

/-- A token begins with no white space. -/
theorem exists_cons_of_mem_pieces {st : ScanState} {cs : List Char} {p : Piece}
    (hp : p ∈ pieces st cs) (hkind : p.kind ≠ .blank) :
    ∃ c rest, p.text = c :: rest ∧ isBlank c = false := by
  obtain ⟨st, c, rest, rfl⟩ := exists_next_of_mem_pieces hp
  refine ⟨c, _, rfl, Bool.eq_false_iff.mpr fun hblank => hkind ?_⟩
  unfold Lexeme.next
  rw [if_pos hblank]

/-! ## Where pieces stand -/

/-- An element of two lists stands in the first one, or behind it. -/
theorem mem_append_cases {α : Type} {left right before after : List α} {a : α}
    (h : left ++ right = before ++ a :: after) :
    (∃ behind, left = before ++ a :: behind) ∨
      ∃ front, before = left ++ front ∧ right = front ++ a :: after := by
  rcases List.append_eq_append_iff.mp h with ⟨front, hbefore, hright⟩ | ⟨back, hleft, hright⟩
  · exact .inr ⟨front, hbefore, hright⟩
  · cases back with
    | nil => exact .inr ⟨[], by simpa using hleft.symm, hright.symm⟩
    | cons b back =>
      obtain rfl : a = b := (List.cons.inj hright).1
      exact .inl ⟨back, hleft⟩

/-- Where the pieces that are not blank stand, when the first piece begins at byte `pos`. -/
def Piece.spans (pos : Nat) : List Piece → List Span
  | [] => []
  | p :: ps =>
    let stop := pos + byteLength p.text
    if p.kind = .blank then spans stop ps else ⟨pos, stop⟩ :: spans stop ps

namespace Piece

variable {pos : Nat} {ps : List Piece} {s : Span}

theorem le_start_of_mem_spans (hs : s ∈ spans pos ps) : pos ≤ s.start := by
  induction ps generalizing pos with
  | nil => contradiction
  | cons p ps ih =>
    rw [spans] at hs
    split at hs
    · exact (Nat.le_add_right _ _).trans (ih hs)
    · rcases List.mem_cons.mp hs with rfl | hs
      · exact Nat.le_refl _
      · exact (Nat.le_add_right _ _).trans (ih hs)

/-- Pieces stand behind each other. -/
theorem pairwise_spans (pos : Nat) (ps : List Piece) :
    (spans pos ps).Pairwise fun s t => s.stop ≤ t.start := by
  induction ps generalizing pos with
  | nil => exact .nil
  | cons p ps ih =>
    rw [spans]
    split
    · exact ih _
    · exact List.pairwise_cons.mpr ⟨fun t ht => le_start_of_mem_spans ht, ih _⟩

theorem start_lt_stop_of_mem_spans (hps : ∀ p ∈ ps, p.text ≠ []) (hs : s ∈ spans pos ps) :
    s.start < s.stop := by
  induction ps generalizing pos with
  | nil => contradiction
  | cons p ps ih =>
    have hps' := fun q hq => hps q (List.mem_cons_of_mem _ hq)
    rw [spans] at hs
    split at hs
    · exact ih hps' hs
    · rcases List.mem_cons.mp hs with rfl | hs
      · have hp : 0 < p.text.length := List.length_pos_of_ne_nil (hps p (List.mem_cons_self ..))
        exact Nat.lt_add_of_pos_right (hp.trans_le (length_le_byteLength _))
      · exact ih hps' hs

/-- The bounds of a piece lie between characters of the text that the pieces join to. -/
theorem boundary_of_mem_spans (before : List Char) (hs : s ∈ spans (byteLength before) ps) :
    Emit.Boundary (before ++ (ps.map Piece.text).flatten) s.start ∧
      Emit.Boundary (before ++ (ps.map Piece.text).flatten) s.stop := by
  induction ps generalizing before with
  | nil => contradiction
  | cons p ps ih =>
    rw [List.map_cons, List.flatten_cons, ← List.append_assoc]
    rw [spans, ← byteLength_append] at hs
    split at hs
    · exact ih _ hs
    · rcases List.mem_cons.mp hs with rfl | hs
      · refine ⟨⟨before, ?_, rfl⟩, before ++ p.text, List.prefix_append _ _, rfl⟩
        rw [List.append_assoc]
        exact List.prefix_append _ _
      · exact ih _ hs

/-- Outside the pieces that are not blank there is white space only. -/
theorem isBlank_of_outside (pos : Nat)
    (hps : ∀ p ∈ ps, p.kind = .blank → ∀ c ∈ p.text, isBlank c = true)
    (before : List Char) {after : List Char} {c : Char}
    (htext : (ps.map Piece.text).flatten = before ++ c :: after)
    (hout : ∀ s ∈ spans pos ps,
      ¬(s.start ≤ pos + byteLength before ∧ pos + byteLength before < s.stop)) :
    isBlank c = true := by
  induction ps generalizing pos before with
  | nil => exact absurd htext.symm (by simp)
  | cons p ps ih =>
    have hps' := fun q hq => hps q (List.mem_cons_of_mem _ hq)
    rw [List.map_cons, List.flatten_cons] at htext
    have hout' : ∀ s ∈ spans (pos + byteLength p.text) ps,
        ¬(s.start ≤ pos + byteLength before ∧ pos + byteLength before < s.stop) := by
      refine fun s hs => hout s ?_
      rw [spans]
      split
      · exact hs
      · exact List.mem_cons_of_mem _ hs
    rcases mem_append_cases htext with ⟨behind, hp⟩ | ⟨front, rfl, hrest⟩
    · have hmem : c ∈ p.text := hp ▸ List.mem_append_right _ (List.mem_cons_self ..)
      refine hps p (List.mem_cons_self ..) (Decidable.byContradiction fun hkind => ?_) c hmem
      refine hout ⟨pos, pos + byteLength p.text⟩ ?_ ⟨Nat.le_add_right _ _, ?_⟩
      · rw [spans, if_neg hkind]
        exact List.mem_cons_self ..
      · have hpos := utf8Size_pos c
        simp only [hp, byteLength_append, byteLength_cons]
        omega
    · refine ih (pos + byteLength p.text) hps' front hrest fun s hs => ?_
      rw [Nat.add_assoc, ← byteLength_append]
      exact hout' s hs

end Piece

/-! ## Tokens and comments -/

namespace Scan

variable {pos : Nat} {lineBefore : Bool} {ps : List Piece} {t : Token}

/-- Where the tokens of a scan but for the last one, and its comments, stand, from left to right. -/
def occupied (s : Scan) : List Span :=
  ((s.tokens.filter fun t => t.kind ≠ .eof).map Token.span ++ s.comments.map Comment.span).mergeSort
    fun a b => a.start ≤ b.start

/-- **Every piece that is not blank is a token or a comment.** -/
theorem perm_spans (hps : ∀ p ∈ ps, p.kind ≠ .token .eof) :
    (((layOut pos lineBefore ps).tokens.filter fun t => t.kind ≠ .eof).map Token.span ++
      (layOut pos lineBefore ps).comments.map Comment.span).Perm (Piece.spans pos ps) := by
  fun_induction layOut pos lineBefore ps with
  | case1 => exact .nil
  | case2 pos lineBefore p ps stop hkind ih =>
    rw [Piece.spans, if_pos hkind]
    exact ih fun q hq => hps q (List.mem_cons_of_mem _ hq)
  | case3 pos lineBefore p ps stop kind hkind rest ih =>
    rw [Piece.spans, if_neg (by rw [hkind]; exact fun h => by cases h)]
    exact List.perm_middle.trans ((ih fun q hq => hps q (List.mem_cons_of_mem _ hq)).cons _)
  | case4 pos lineBefore p ps stop kind hkind rest token ih =>
    have hne : token.kind ≠ .eof := by
      rintro rfl
      exact hps p (List.mem_cons_self ..) hkind
    rw [Piece.spans, if_neg (by rw [hkind]; exact fun h => by cases h),
      List.filter_cons_of_pos (by simpa using hne)]
    exact (ih fun q hq => hps q (List.mem_cons_of_mem _ hq)).cons _

/-- Only the last token is the end of the text. -/
theorem exists_tokens_eq (pos : Nat) (lineBefore : Bool) (hps : ∀ p ∈ ps, p.kind ≠ .token .eof) :
    ∃ front last, (layOut pos lineBefore ps).tokens = front ++ [last] ∧
      (∀ t ∈ front, t.kind ≠ .eof) ∧ last.kind = .eof ∧
      last.span = ⟨pos + byteLength (ps.map Piece.text).flatten,
        pos + byteLength (ps.map Piece.text).flatten⟩ := by
  fun_induction layOut pos lineBefore ps with
  | case1 => exact ⟨[], _, rfl, fun _ h => by contradiction, rfl, rfl⟩
  | case2 pos lineBefore p ps stop _ ih =>
    rw [List.map_cons, List.flatten_cons, byteLength_append, ← Nat.add_assoc]
    exact ih fun q hq => hps q (List.mem_cons_of_mem _ hq)
  | case3 pos lineBefore p ps stop kind _ rest ih =>
    rw [List.map_cons, List.flatten_cons, byteLength_append, ← Nat.add_assoc]
    exact ih fun q hq => hps q (List.mem_cons_of_mem _ hq)
  | case4 pos lineBefore p ps stop kind hkind rest token ih =>
    rw [List.map_cons, List.flatten_cons, byteLength_append, ← Nat.add_assoc]
    obtain ⟨front, last, heq, hfront, hlast⟩ := ih fun q hq => hps q (List.mem_cons_of_mem _ hq)
    refine ⟨token :: front, last, congrArg (token :: ·) heq, fun t ht => ?_, hlast⟩
    rcases List.mem_cons.mp ht with rfl | ht
    · rintro rfl
      exact hps p (List.mem_cons_self ..) hkind
    · exact hfront t ht

/-- What a token stands for is read off its text. -/
theorem value_eq (ht : t ∈ (layOut pos lineBefore ps).tokens) :
    t.value = Piece.value t.kind t.source.toList := by
  fun_induction layOut pos lineBefore ps with
  | case1 =>
    obtain rfl := List.mem_singleton.mp ht
    rfl
  | case2 pos lineBefore p ps stop _ ih => exact ih ht
  | case3 pos lineBefore p ps stop kind _ rest ih => exact ih ht
  | case4 pos lineBefore p ps stop kind _ rest token ih =>
    rcases List.mem_cons.mp ht with rfl | ht
    · exact congrArg (Piece.value kind) String.toList_ofList.symm
    · exact ih ht

/-- A token other than a string and a fault stands for its own text. -/
theorem value_eq_source (ht : t ∈ (layOut pos lineBefore ps).tokens)
    (hstring : t.kind ≠ .stringLiteral) (hfault : t.isFault = false) : t.value = t.source := by
  rw [value_eq ht]
  unfold Piece.value
  split
  · exact absurd ‹t.kind = _› hstring
  · exact absurd hfault (by simp [Token.isFault, ‹t.kind = _›])
  · exact String.ofList_toList

/-- The text of a token begins with no white space. -/
theorem exists_cons_source (ht : t ∈ (layOut pos lineBefore ps).tokens) (heof : t.kind ≠ .eof)
    (hps : ∀ p ∈ ps, p.kind ≠ .blank → ∃ c rest, p.text = c :: rest ∧ isBlank c = false) :
    ∃ c rest, t.source.toList = c :: rest ∧ isBlank c = false := by
  rcases piece_of_mem ht with ⟨h, -⟩ | hp
  · exact absurd h heof
  · exact hps _ hp nofun

/-- The text under the span of a slice. -/
theorem sliceBytes_of_slice {cs : List Char} (h : Slice 0 cs t) :
    sliceBytes t.span.start t.span.stop cs = t.source.toList := by
  obtain ⟨before, after, rfl, hstart, hstop⟩ := h
  rw [sliceBytes, hstop, hstart, Nat.zero_add, Nat.add_sub_cancel_left, splitBytes_byteLength,
    splitBytes_byteLength]

/-- The text from a token on begins with its text. -/
theorem isPrefix_sliceBytes {cs : List Char} (h : Slice 0 cs t) {stop : Nat}
    (hstop : Emit.Boundary cs stop) (hle : t.span.stop ≤ stop) :
    t.source.toList <+: sliceBytes t.span.start stop cs := by
  obtain ⟨before, after, rfl, hstart, hend⟩ := h
  rw [Nat.zero_add] at hstart
  rw [← List.append_assoc] at hstop
  obtain ⟨kept, after, rfl, rfl, _⟩ := hstop.exists_split (by
    rw [byteLength_append, ← hstart, ← hend]
    exact hle)
  rw [hstart, List.append_assoc, ← List.append_assoc t.source.toList kept, Emit.sliceBytes_append]
  exact List.prefix_append _ _

/-- No token before the last one is the end of the text. -/
theorem kind_ne_eof {text : String} {i : Nat} (hi : i < TokenStream.last (ofText text).tokens) :
    TokenStream.kind (ofText text).tokens i ≠ .eof := by
  obtain ⟨front, last, htokens, hfront, -⟩ : ∃ front last, (ofText text).tokens = front ++ [last] ∧
      (∀ t ∈ front, t.kind ≠ .eof) ∧ _ := exists_tokens_eq 0 true
    fun p (hp : p ∈ pieces .initial text.toList) => kind_ne_eof_of_mem_pieces hp
  have hlt : i < front.length := by
    rwa [TokenStream.last, htokens, List.length_append, List.length_singleton,
      Nat.add_sub_cancel] at hi
  rw [TokenStream.kind, htokens, List.getElem?_append_left hlt, List.getElem?_eq_getElem hlt]
  exact hfront _ (List.getElem_mem hlt)

/-- There is more than white space between the beginning of a token and the end of another one. -/
theorem exists_mem_slice {text : String} {i j : Nat} (hij : i ≤ j)
    (hj : j < TokenStream.last (ofText text).tokens) :
    ∃ c ∈ sliceBytes (TokenStream.startOf (ofText text).tokens i)
      (TokenStream.stopOf (ofText text).tokens j) text.toList, isBlank c = false := by
  have hlength : j < (ofText text).tokens.length := hj.trans_le (Nat.sub_le _ _)
  have hi : i < (ofText text).tokens.length := hij.trans_lt hlength
  have hget : (ofText text).tokens[i]? = some (ofText text).tokens[i] := List.getElem?_eq_getElem hi
  have hmem := List.getElem_mem hi
  have hkind := kind_ne_eof (hij.trans_lt hj)
  rw [TokenStream.kind, hget] at hkind
  obtain ⟨c, rest, hsource, hblank⟩ :=
    exists_cons_source hmem hkind fun p hp => exists_cons_of_mem_pieces hp
  have hstart : TokenStream.startOf (ofText text).tokens i =
      (ofText text).tokens[i].span.start := by
    rw [TokenStream.startOf, hget]
    rfl
  have hle : (ofText text).tokens[i].span.stop ≤ TokenStream.stopOf (ofText text).tokens j := by
    have hmono := TokenStream.stopOf_le_stopOf hij hlength
    rwa [TokenStream.stopOf, hget] at hmono
  have hprefix := isPrefix_sliceBytes (slice_ofText hmem) (TokenStream.boundary_stopOf hlength) hle
  refine ⟨c, ?_, hblank⟩
  rw [hstart]
  exact hprefix.subset (hsource ▸ List.mem_cons_self ..)

/-- **Scanning tiles a text.**  The tokens end with the only one for the end of the text, which stands
there.  The others and the comments, from left to right, cover at least a character each, begin and
end between characters, and do not overlap; what lies outside all of them is white space.  A token
other than a string literal and a fault has the text under its span as its value. -/
theorem ofText_tiles (text : String) :
    let scan := Scan.ofText text
    let stop := byteLength text.toList
    (∃ front last, scan.tokens = front ++ [last] ∧ (∀ t ∈ front, t.kind ≠ .eof) ∧
      last.kind = .eof ∧ last.span = ⟨stop, stop⟩) ∧
    scan.occupied.Pairwise (fun a b => a.stop ≤ b.start) ∧
    (∀ a ∈ scan.occupied, a.start < a.stop ∧
      Emit.Boundary text.toList a.start ∧ Emit.Boundary text.toList a.stop) ∧
    (∀ before c after, text.toList = before ++ c :: after →
      (∀ a ∈ scan.occupied, ¬(a.start ≤ byteLength before ∧ byteLength before < a.stop)) →
        isBlank c = true) ∧
    (∀ t ∈ scan.tokens, t.kind ≠ .stringLiteral → t.isFault = false →
      t.value.toList = sliceBytes t.span.start t.span.stop text.toList) := by
  intro scan stop
  have hflat := flatten_pieces .initial text.toList
  have heof : ∀ p ∈ pieces .initial text.toList, p.kind ≠ .token .eof :=
    fun p => kind_ne_eof_of_mem_pieces
  have hperm : scan.occupied.Perm (Piece.spans 0 (pieces .initial text.toList)) :=
    (List.mergeSort_perm _ _).trans (perm_spans heof)
  have hlt : ∀ a ∈ scan.occupied, a.start < a.stop := fun a ha =>
    Piece.start_lt_stop_of_mem_spans (fun _ => text_ne_nil_of_mem_pieces) (hperm.mem_iff.mp ha)
  have hapart : scan.occupied.Pairwise fun a b => a.stop ≤ b.start ∨ b.stop ≤ a.start :=
    (hperm.pairwise_iff fun h => h.symm).mpr ((Piece.pairwise_spans _ _).imp .inl)
  have hsorted : scan.occupied.Pairwise fun a b => decide (a.start ≤ b.start) = true :=
    List.pairwise_mergeSort (fun a b c h h' => by simp only [decide_eq_true_eq] at *; omega)
      (fun a b => by simp only [Bool.or_eq_true, decide_eq_true_eq]; omega) _
  refine ⟨?_, ?_, fun a ha => ⟨hlt a ha, ?_⟩, fun before c after htext hout => ?_,
    fun t ht hstring hfault => ?_⟩
  · have htokens := exists_tokens_eq 0 true heof
    rwa [hflat, Nat.zero_add] at htokens
  · refine (hapart.and hsorted).imp_of_mem fun {a b} ha hb h => h.1.resolve_right fun hle => ?_
    have := hlt b hb
    have := decide_eq_true_eq.mp h.2
    omega
  · have hboundary := Piece.boundary_of_mem_spans [] (hperm.mem_iff.mp ha)
    rwa [hflat] at hboundary
  · refine Piece.isBlank_of_outside 0 (fun p hp => isBlank_of_mem_pieces hp) before
      (hflat.trans htext) fun a ha => ?_
    rw [Nat.zero_add]
    exact hout a (hperm.mem_iff.mpr ha)
  · rw [value_eq_source ht hstring hfault, sliceBytes_of_slice (slice_ofText ht)]

end Scan

/-- A token that is not the end of the text has a width. -/
theorem TokenStream.startOf_lt_stopOf {text : String} {i : Nat}
    (hkind : TokenStream.kind (Scan.ofText text).tokens i ≠ .eof) :
    startOf (Scan.ofText text).tokens i < stopOf (Scan.ofText text).tokens i := by
  have hi := lt_length_of_kind hkind
  have hget := List.getElem?_eq_getElem hi
  have hmem := List.getElem_mem hi
  rw [kind, hget] at hkind
  obtain ⟨c, rest, hsource, -⟩ := Scan.exists_cons_source hmem hkind
    fun p hp => exists_cons_of_mem_pieces hp
  obtain ⟨_, _, _, _, hstop⟩ := Scan.slice_ofText hmem
  have hwidth := utf8Size_pos c
  rw [hsource, byteLength_cons] at hstop
  rw [startOf, stopOf, hget, Option.elim_some, Option.elim_some]
  omega

end TypeScriptEngine
