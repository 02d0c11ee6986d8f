import TypeScriptEngine.Proofs.Emit.Reduction
import TypeScriptEngine.Token.Scan
import TypeScriptEngine.Token.Stream

/-! # Where tokens stand

The tokens of a text are slices of it, in order, and their spans lie between characters.  The word
`import` is the only spelling of its kind of token.
-/

namespace TypeScriptEngine

open TypeScriptEngine.Text

/-! ## Spellings -/

namespace TokenKind

/-- The words of a kind of their own. -/
def ownWords : List (String × TokenKind) :=
  [("import", .kwImport), ("export", .kwExport), ("const", .kwConst), ("let", .kwLet),
    ("var", .kwVar), ("function", .kwFunction), ("class", .kwClass), ("enum", .kwEnum),
    ("default", .kwDefault), ("extends", .kwExtends), ("return", .kwReturn),
    ("typeof", .kwTypeof), ("new", .kwNew), ("from", .kwFrom), ("as", .kwAs), ("type", .kwType),
    ("interface", .kwInterface), ("declare", .kwDeclare), ("namespace", .kwNamespace),
    ("module", .kwModule), ("global", .kwGlobal), ("require", .kwRequire),
    ("abstract", .kwAbstract), ("async", .kwAsync), ("implements", .kwImplements),
    ("public", .kwPublic), ("private", .kwPrivate), ("protected", .kwProtected),
    ("readonly", .kwReadonly), ("static", .kwStatic), ("override", .kwOverride),
    ("satisfies", .kwSatisfies), ("keyof", .kwKeyof)]

/-- A word is an identifier unless it has a kind of its own. -/
theorem ofWord_cases (word : String) :
    ofWord word = .identifier ∨ (word, ofWord word) ∈ ownWords := by
  unfold ofWord
  cases hword : ofWord? word with
  | none => exact .inl rfl
  | some kind =>
    refine .inr ?_
    unfold ofWord? at hword
    split at hword
    case h_34 => contradiction
    all_goals
      obtain rfl := Option.some.inj hword
      decide

/-- What all kinds of words have. -/
theorem ofWord_all {P : TokenKind → Prop} (hidentifier : P .identifier)
    (hwords : ∀ w ∈ ownWords, P w.2) (word : String) : P (ofWord word) := by
  rcases ofWord_cases word with h | h
  · exact h ▸ hidentifier
  · exact hwords _ h

theorem ofWord_ne {kind : TokenKind} (hidentifier : .identifier ≠ kind)
    (hwords : ∀ w ∈ ownWords, w.2 ≠ kind) (word : String) : ofWord word ≠ kind :=
  @ofWord_all (· ≠ kind) hidentifier hwords word

/-- A word of a kind of its own is spelled like that kind. -/
theorem eq_of_ofWord {word spelling : String} {kind : TokenKind} (h : ofWord word = kind)
    (hkind : kind ≠ .identifier) (hwords : ∀ w ∈ ownWords, w.2 = kind → w.1 = spelling) :
    word = spelling := by
  rcases ofWord_cases word with hword | hword
  · exact absurd (h.symm.trans hword) hkind
  · exact hwords _ hword h

theorem eq_import_of_ofWord {word : String} (h : ofWord word = .kwImport) : word = "import" :=
  eq_of_ofWord h (by decide) (by decide)

end TokenKind

namespace Lexeme

variable {st : ScanState} {c : Char} {rest : List Char}

/-- What the next piece of a text can be. -/
theorem next_cases {P : Lexeme → Prop}
    (hblank : isBlank c = true → P ⟨.blank, Extent.run isBlank rest⟩)
    (hline : ∀ behind, c = '/' → rest = '/' :: behind →
      P ⟨.comment .line, Extent.run (· != '\n') rest⟩)
    (hblock : ∀ body, c = '/' → rest = '*' :: body → (Extent.blockComment body).closed = true →
      P ⟨.comment .block, 1 + (Extent.blockComment body).length⟩)
    (hunclosed : P ⟨.token (.fault .unterminatedComment), rest.length⟩)
    (htoken : P (token st c rest)) : P (next st c rest) := by
  unfold next
  split
  · exact hblank ‹_›
  split
  · rename_i hslash
    split
    · exact hline _ (eq_of_beq hslash) rfl
    · simp only
      split
      · exact hblock _ (eq_of_beq hslash) rfl ‹_›
      · exact hunclosed
    · exact htoken
  · exact htoken

/-- By which rule a token is read. -/
theorem token_cases {P : Lexeme → Prop}
    (hstring : c = '"' ∨ c = '\'' →
      P (bounded .stringLiteral .unterminatedString (Extent.string c rest)))
    (htemplate : c = '\x60' → P (template true rest))
    (hfurther : st.openings.head? = some .substitution → P (template false rest))
    (hnumber : c.isDigit = true ∨ c = '.' →
      P ⟨.token .numberLiteral, Extent.number (c :: rest) - 1⟩)
    (hregex : P (bounded .regexLiteral .unterminatedRegex (Extent.regex rest)))
    (hword : isNameStart c = true → P (word c rest))
    (hpunctuation : (c = '}' → st.openings.head? ≠ some .substitution) → P (punctuation c rest)) :
    P (token st c rest) := by
  unfold token
  split
  · rename_i hquote
    exact hstring (by simpa using hquote)
  split
  · exact htemplate (eq_of_beq ‹_›)
  split
  · rename_i hbrace
    exact hfurther (beq_iff_eq.mp (Bool.and_eq_true _ _ ▸ hbrace).2)
  rename_i hbrace
  split
  · rename_i hdigit
    simp only [Bool.or_eq_true, Bool.and_eq_true, beq_iff_eq] at hdigit
    exact hnumber (hdigit.imp_right And.left)
  split
  · exact hregex
  split
  · exact hword ‹_›
  · refine hpunctuation fun hc hopen => hbrace ?_
    rw [hc, hopen]
    rfl

/-- Punctuation is of no other kind than those of operators and of single characters. -/
theorem punctuation_ne {kind : TokenKind} (hlong : ∀ op ∈ longOperators, op.2 ≠ kind)
    (hsingle : ∀ c, ofCharacter c ≠ kind) (c : Char) (rest : List Char) :
    (punctuation c rest).kind ≠ .token kind := by
  unfold punctuation
  split
  · exact fun h => hsingle '?' (PieceKind.token.inj h)
  · split
    · rename_i hfind
      exact fun h => hlong _ (List.mem_of_find?_eq_some hfind) (PieceKind.token.inj h)
    · exact fun h => hsingle c (PieceKind.token.inj h)

/-- The kinds of single characters. -/
def characterKinds : List TokenKind :=
  [.lparen, .rparen, .lbrace, .rbrace, .lbracket, .rbracket, .semicolon, .comma, .colon, .question,
    .dot, .equals, .lt, .gt, .star, .pipe, .amp, .bang, .atSign, .operator,
    .fault .invalidCharacter]

theorem ofCharacter_ne {kind : TokenKind} (hkind : ∀ k ∈ characterKinds, k ≠ kind) (c : Char) :
    ofCharacter c ≠ kind := by
  refine hkind _ ?_
  unfold ofCharacter
  split <;> decide

/-- A piece of a template is of a kind of templates, or it is a fault. -/
theorem template_kind (first : Bool) (rest : List Char) :
    (template first rest).kind ∈ [.token .templateLiteral, .token .templateTail,
      .token .templateHead, .token .templateMiddle, .token (.fault .unterminatedTemplate)] := by
  unfold template
  simp only
  cases (Extent.template rest).2 <;> cases first <;> decide

theorem template_ne {kind : TokenKind} (hkind : ∀ k ∈ [TokenKind.templateLiteral, .templateTail,
      .templateHead, .templateMiddle, .fault .unterminatedTemplate], k ≠ kind) (first : Bool)
    (rest : List Char) : (template first rest).kind ≠ .token kind := by
  have hmem := template_kind first rest
  intro h
  rw [h] at hmem
  exact hkind kind (by simpa using hmem) rfl

theorem bounded_ne {kind other : TokenKind} {missing : LexicalFault} (hkind : kind ≠ other)
    (hmissing : .fault missing ≠ other) (b : Extent.Bounded) :
    (bounded kind missing b).kind ≠ .token other := by
  unfold bounded
  intro h
  have h := PieceKind.token.inj h
  split at h
  · exact hkind h
  · exact hmissing h

/-- If the lexeme is of the kind of the word `import` then that is what it covers. -/
def SpellsImport (c : Char) (rest : List Char) (l : Lexeme) : Prop :=
  l.kind = .token .kwImport → c :: rest.take l.further = Emit.importWord

theorem SpellsImport.of_ne {l : Lexeme} (h : l.kind ≠ .token .kwImport) :
    SpellsImport c rest l := fun h' => absurd h' h

/-- A word covers the characters of names that follow. -/
theorem take_word (c : Char) (rest : List Char) :
    rest.take (word c rest).further = rest.takeWhile isNamePart :=
  (List.prefix_iff_eq_take.mp (List.takeWhile_prefix _)).symm

theorem spellsImport_word (c : Char) (rest : List Char) : SpellsImport c rest (word c rest) := by
  intro h
  have hword := TokenKind.eq_import_of_ofWord (PieceKind.token.inj h)
  rw [take_word, ← String.toList_ofList (l := c :: rest.takeWhile isNamePart), hword]
  rfl

theorem spellsImport_token (st : ScanState) (c : Char) (rest : List Char) :
    SpellsImport c rest (token st c rest) :=
  token_cases (fun _ => .of_ne (bounded_ne (by decide) (by decide) _))
    (fun _ => .of_ne (template_ne (by decide) _ _)) (fun _ => .of_ne (template_ne (by decide) _ _))
    (fun _ => .of_ne fun h => by cases h) (.of_ne (bounded_ne (by decide) (by decide) _))
    (fun _ => spellsImport_word c rest)
    fun _ => .of_ne (punctuation_ne (by decide) (ofCharacter_ne (by decide)) _ _)

/-- Tokens of the kind of the word `import` are spelled like that. -/
theorem spellsImport_next (st : ScanState) (c : Char) (rest : List Char) :
    SpellsImport c rest (next st c rest) :=
  next_cases (fun _ => .of_ne fun h => by cases h) (fun _ _ _ => .of_ne fun h => by cases h)
    (fun _ _ _ _ => .of_ne fun h => by cases h) (.of_ne fun h => by cases h)
    (spellsImport_token st c rest)

end Lexeme

/-- A piece is what some lexeme covers. -/
theorem exists_next_of_mem_pieces {st : ScanState} {cs : List Char} {p : Piece}
    (hp : p ∈ pieces st cs) : ∃ st c rest,
      p = ⟨(Lexeme.next st c rest).kind, c :: rest.take (Lexeme.next st c rest).further⟩ := by
  fun_induction pieces st cs with
  | case1 => contradiction
  | case2 st c rest l q ih =>
    rcases List.mem_cons.mp hp with rfl | hp
    · exact ⟨st, c, rest, rfl⟩
    · exact ih hp

theorem text_of_mem_pieces {st : ScanState} {cs : List Char} {p : Piece} (hp : p ∈ pieces st cs)
    (h : p.kind = .token .kwImport) : p.text = Emit.importWord := by
  obtain ⟨st, c, rest, rfl⟩ := exists_next_of_mem_pieces hp
  exact Lexeme.spellsImport_next st c rest h

/-! ## Tokens and states -/

namespace Scan

/-- **Induction on the tokens of a text,** with the state in which each of them is read.  A token is
what the next lexeme covers; white space and comments leave the state alone. -/
theorem tokens_induction {P : ScanState → List Token → Prop}
    (hend : ∀ (st : ScanState) (t : Token), t.kind = .eof → t.source = "" → P st [t])
    (htoken : ∀ (st : ScanState) (c : Char) (rest : List Char) (t : Token) (ts : List Token),
      (Lexeme.next st c rest).kind = .token t.kind →
      t.source.toList = c :: rest.take (Lexeme.next st c rest).further →
      P (st.after ⟨.token t.kind, t.source.toList⟩) ts → P st (t :: ts))
    (st : ScanState) (cs : List Char) (pos : Nat) (lineBefore : Bool) :
    P st (layOut pos lineBefore (pieces st cs)).tokens := by
  fun_induction pieces st cs generalizing pos lineBefore with
  | case1 st => exact hend st _ rfl rfl
  | case2 st c rest l p ih =>
    have hp : p.kind = l.kind := rfl
    rw [layOut]
    cases hkind : l.kind with
    | blank =>
      have hafter : st.after p = st := by rw [ScanState.after, hp, hkind]
      rw [hafter] at ih ⊢
      simp only [hp, hkind]
      exact ih _ _
    | comment kind =>
      have hafter : st.after p = st := by rw [ScanState.after, hp, hkind]
      rw [hafter] at ih ⊢
      simp only [hp, hkind]
      exact ih _ _
    | token kind =>
      have hpiece : p = ⟨.token kind, (String.ofList p.text).toList⟩ := by
        rw [String.toList_ofList, ← hkind]
      simp only [hp, hkind]
      refine htoken st c rest _ _ hkind String.toList_ofList ?_
      rw [← hpiece]
      exact ih _ _

end Scan

/-! ## Spans -/

namespace Scan

variable {pos : Nat} {lineBefore : Bool} {ps : List Piece} {t : Token}

/-- A token is a slice of the text at byte `pos`, and its span is where it stands. -/
def Slice (pos : Nat) (cs : List Char) (t : Token) : Prop :=
  ∃ before after, cs = before ++ (t.source.toList ++ after) ∧
    t.span.start = pos + byteLength before ∧
    t.span.stop = t.span.start + byteLength t.source.toList

/-- What is a slice of a text is one of a text that goes on before it. -/
theorem Slice.prepend {cs : List Char} (front : List Char)
    (h : Slice (pos + byteLength front) cs t) : Slice pos (front ++ cs) t := by
  obtain ⟨before, after, rfl, hstart, hstop⟩ := h
  refine ⟨front ++ before, after, (List.append_assoc ..).symm, ?_, hstop⟩
  rw [hstart, byteLength_append, Nat.add_assoc]

/-- **Tokens are slices of the text.** -/
theorem slice_of_mem (ht : t ∈ (layOut pos lineBefore ps).tokens) :
    Slice pos (ps.map Piece.text).flatten t := by
  fun_induction layOut pos lineBefore ps with
  | case1 pos lineBefore =>
    obtain rfl := List.mem_singleton.mp ht
    exact ⟨[], [], rfl, rfl, rfl⟩
  | case2 pos lineBefore p ps stop _ ih =>
    rw [List.map_cons, List.flatten_cons]
    exact (ih ht).prepend p.text
  | case3 pos lineBefore p ps stop kind _ rest ih =>
    rw [List.map_cons, List.flatten_cons]
    exact (ih ht).prepend p.text
  | case4 pos lineBefore p ps stop kind _ rest token ih =>
    rw [List.map_cons, List.flatten_cons]
    rcases List.mem_cons.mp ht with rfl | ht
    · refine ⟨[], (ps.map Piece.text).flatten, ?_, rfl, ?_⟩
      · rw [List.nil_append, String.toList_ofList]
      · show pos + byteLength p.text = pos + byteLength (String.ofList p.text).toList
        rw [String.toList_ofList]
    · exact (ih ht).prepend p.text

/-- Tokens stand behind each other. -/
theorem pairwise_layOut (pos : Nat) (lineBefore : Bool) (ps : List Piece) :
    (layOut pos lineBefore ps).tokens.Pairwise fun s t => s.span.stop ≤ t.span.start := by
  fun_induction layOut pos lineBefore ps with
  | case1 => exact List.pairwise_singleton _ _
  | case2 pos lineBefore p ps stop _ ih => exact ih
  | case3 pos lineBefore p ps stop kind _ rest ih => exact ih
  | case4 pos lineBefore p ps stop kind _ rest token ih =>
    refine List.pairwise_cons.mpr ⟨fun t ht => ?_, ih⟩
    have hslice : Slice stop (ps.map Piece.text).flatten t := slice_of_mem ht
    obtain ⟨before, _, _, hstart, _⟩ := hslice
    exact hstart ▸ Nat.le_add_right stop (byteLength before)

/-- **A token is a piece of the text,** unless it is the end of the text. -/
theorem piece_of_mem (ht : t ∈ (layOut pos lineBefore ps).tokens) :
    (t.kind = .eof ∧ t.source = "") ∨ ⟨.token t.kind, t.source.toList⟩ ∈ ps := by
  fun_induction layOut pos lineBefore ps with
  | case1 =>
    obtain rfl := List.mem_singleton.mp ht
    exact .inl ⟨rfl, rfl⟩
  | case2 pos lineBefore p ps stop _ ih => exact (ih ht).imp_right (List.mem_cons_of_mem _)
  | case3 pos lineBefore p ps stop kind _ rest ih =>
    exact (ih ht).imp_right (List.mem_cons_of_mem _)
  | case4 pos lineBefore p ps stop kind hkind rest token ih =>
    rcases List.mem_cons.mp ht with rfl | ht
    · refine .inr ?_
      rw [String.toList_ofList, ← hkind]
      exact List.mem_cons_self ..
    · exact (ih ht).imp_right (List.mem_cons_of_mem _)

theorem source_of_import (ht : t ∈ (layOut pos lineBefore ps).tokens)
    (hps : ∀ p ∈ ps, p.kind = .token .kwImport → p.text = Emit.importWord)
    (h : t.kind = .kwImport) : t.source.toList = Emit.importWord := by
  rcases piece_of_mem ht with ⟨heof, -⟩ | hp
  · exact absurd (h.symm.trans heof) nofun
  · exact hps _ hp (congrArg PieceKind.token h)

variable {text : String} {i j : Nat}

theorem slice_ofText (ht : t ∈ (ofText text).tokens) : Slice 0 text.toList t := by
  have h := slice_of_mem ht
  rwa [flatten_pieces] at h

theorem boundary_of_slice {cs : List Char} (h : Slice 0 cs t) :
    Emit.Boundary cs t.span.start ∧ Emit.Boundary cs t.span.stop := by
  obtain ⟨before, after, rfl, hstart, hstop⟩ := h
  refine ⟨⟨before, List.prefix_append _ _, ?_⟩, before ++ t.source.toList, ?_, ?_⟩
  · rw [hstart, Nat.zero_add]
  · rw [← List.append_assoc]
    exact List.prefix_append _ _
  · rw [hstop, hstart, byteLength_append, Nat.zero_add]

end Scan

namespace TokenStream

variable {text : String} {i j : Nat}

/-- What is not the end of a text is one of its tokens. -/
theorem lt_length_of_kind {ts : TokenStream} (h : ts.kind i ≠ .eof) : i < ts.length := by
  refine Nat.lt_of_not_le fun hle => h ?_
  rw [kind, List.getElem?_eq_none hle]
  rfl

/-- Token positions lie between characters. -/
theorem boundary_startOf (hi : i < (Scan.ofText text).tokens.length) :
    Emit.Boundary text.toList (startOf (Scan.ofText text).tokens i) := by
  unfold startOf
  rw [List.getElem?_eq_getElem hi]
  exact (Scan.boundary_of_slice (Scan.slice_ofText (List.getElem_mem hi))).1

theorem boundary_stopOf (hi : i < (Scan.ofText text).tokens.length) :
    Emit.Boundary text.toList (stopOf (Scan.ofText text).tokens i) := by
  unfold stopOf
  rw [List.getElem?_eq_getElem hi]
  exact (Scan.boundary_of_slice (Scan.slice_ofText (List.getElem_mem hi))).2

theorem start_le_stop {t : Token} (ht : t ∈ (Scan.ofText text).tokens) :
    t.span.start ≤ t.span.stop := by
  obtain ⟨_, _, _, _, hstop⟩ := Scan.slice_ofText ht
  exact hstop ▸ Nat.le_add_right ..

/-- Tokens do not overlap. -/
theorem stopOf_le_startOf (hij : i < j) (hj : j < (Scan.ofText text).tokens.length) :
    stopOf (Scan.ofText text).tokens i ≤ startOf (Scan.ofText text).tokens j := by
  unfold stopOf startOf
  rw [List.getElem?_eq_getElem (hij.trans hj), List.getElem?_eq_getElem hj]
  exact List.pairwise_iff_getElem.mp (Scan.pairwise_layOut 0 true (pieces .initial text.toList))
    i j (hij.trans hj) hj hij

/-- Tokens go from left to right. -/
theorem stopOf_le_stopOf (hij : i ≤ j) (hj : j < (Scan.ofText text).tokens.length) :
    stopOf (Scan.ofText text).tokens i ≤ stopOf (Scan.ofText text).tokens j := by
  unfold stopOf
  rw [List.getElem?_eq_getElem (hij.trans_lt hj), List.getElem?_eq_getElem hj]
  rcases Nat.lt_or_eq_of_le hij with hlt | rfl
  · have hpair := List.pairwise_iff_getElem.mp (Scan.pairwise_layOut 0 true
      (pieces .initial text.toList)) i j (hij.trans_lt hj) hj hlt
    exact hpair.trans (start_le_stop (List.getElem_mem hj))
  · exact Nat.le_refl _

theorem startOf_le_stopOf (hij : i ≤ j) (hj : j < (Scan.ofText text).tokens.length) :
    startOf (Scan.ofText text).tokens i ≤ stopOf (Scan.ofText text).tokens j := by
  refine Nat.le_trans ?_ (stopOf_le_stopOf hij hj)
  unfold startOf stopOf
  rw [List.getElem?_eq_getElem (hij.trans_lt hj)]
  exact start_le_stop (List.getElem_mem (hij.trans_lt hj))

/-- **The word `import` stands where its tokens are.** -/
theorem slice_of_import (h : kind (Scan.ofText text).tokens i = .kwImport) :
    sliceBytes (startOf (Scan.ofText text).tokens i) (stopOf (Scan.ofText text).tokens i)
      text.toList = Emit.importWord := by
  unfold kind at h
  cases hi : (Scan.ofText text).tokens[i]? with
  | none =>
    rw [hi] at h
    contradiction
  | some t =>
    rw [hi] at h
    have ht := List.mem_of_getElem? hi
    obtain ⟨before, after, htext, hstart, hstop⟩ := Scan.slice_ofText ht
    have hsource := Scan.source_of_import ht (fun p => text_of_mem_pieces) h
    unfold startOf stopOf
    rw [hi]
    show sliceBytes t.span.start t.span.stop text.toList = _
    rw [sliceBytes, hstop, hstart, Nat.zero_add, Nat.add_sub_cancel_left, htext,
      splitBytes_byteLength, splitBytes_byteLength, hsource]

end TokenStream

end TypeScriptEngine
