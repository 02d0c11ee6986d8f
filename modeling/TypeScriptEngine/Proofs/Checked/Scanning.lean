import TypeScriptEngine.Proofs.Checked.Basic
import TypeScriptEngine.Proofs.Token.Tiling

/-! # Cutting tokens out of a text

A scanner that walks over a text cuts the words, numbers, templates and comments out of it by byte
positions, and looks ahead from the beginning of an operator.  All these slices lie between
characters, whatever the text is (`scan_eq`).  The text between two tokens is a slice as well, and a
token is on a new line if there is a line feed in it (`lineBefore_eq`).
-/

namespace TypeScriptEngine

open TypeScriptEngine.Text

/-! ## The delimiters of comments -/

namespace Extent

/-- A block comment that is closed ends with its delimiter. -/
theorem exists_blockComment {cs : List Char} (h : (blockComment cs).closed = true) :
    ∃ body, cs.take (blockComment cs).length = body ++ ['*', '/'] := by
  fun_induction blockComment cs with
  | case1 => contradiction
  | case2 rest => exact ⟨[], rfl⟩
  | case3 c rest _ ih =>
    obtain ⟨body, hbody⟩ := ih h
    refine ⟨c :: body, ?_⟩
    rw [Bounded.after, Nat.add_comm, List.take_succ_cons, hbody, List.cons_append]

end Extent

/-- The text of a comment has its delimiters. -/
def Piece.Delimited (p : Piece) : Prop :=
  match p.kind with
  | .comment .line => ∃ body, p.text = '/' :: '/' :: body
  | .comment .block => ∃ body, p.text = '/' :: '*' :: (body ++ ['*', '/'])
  | .blank | .token _ => True

theorem Lexeme.delimited_next (st : ScanState) (c : Char) (rest : List Char) :
    Piece.Delimited ⟨(next st c rest).kind, c :: rest.take (next st c rest).further⟩ := by
  refine next_cases (P := fun l => Piece.Delimited ⟨l.kind, c :: rest.take l.further⟩)
    (fun _ => trivial) ?line ?block trivial ?token
  case line =>
    rintro behind rfl rfl
    exact ⟨_, rfl⟩
  case block =>
    rintro body rfl rfl hclosed
    obtain ⟨inner, hinner⟩ := Extent.exists_blockComment hclosed
    exact ⟨inner, by rw [← hinner, Nat.add_comm, List.take_succ_cons]⟩
  case token =>
    obtain ⟨kind, hkind⟩ := exists_kind_token st c rest
    simp only [Piece.Delimited, hkind]

theorem delimited_of_mem_pieces {st : ScanState} {cs : List Char} {p : Piece}
    (hp : p ∈ pieces st cs) : p.Delimited := by
  obtain ⟨st, c, rest, rfl⟩ := exists_next_of_mem_pieces hp
  exact Lexeme.delimited_next st c rest

namespace Checked

/-! ## Tokens and comments -/

/-- Whether a token is read by comparing the text with the operators and delimiters. -/
def isPunctuation : TokenKind → Bool
  | .lparen | .rparen | .lbrace | .rbrace | .lbracket | .rbracket | .semicolon | .comma | .colon
  | .question | .questionDot | .dot | .ellipsis | .equals | .arrow | .lt | .gt | .star | .pipe
  | .amp | .bang | .atSign | .operator | .fault .invalidCharacter => true
  | _ => false

/-- Whether the text from `start` on is a question mark with a dot and a digit. -/
def isConditionalDot (text : List Char) (start : Nat) : Checked Bool := do
  let rest ← slice start (byteLength text) text
  if ['?', '.'].isPrefixOf rest then
    return (← slice 2 (byteLength rest) rest).head?.any Char.isDigit
  else return false

theorem isConditionalDot_eq (before rest : List Char) :
    isConditionalDot (before ++ rest) (byteLength before) = .ok (Lexeme.isConditionalDot rest) := by
  rw [isConditionalDot, slice_rest, ok_bind]
  split
  · rename_i hprefix
    obtain ⟨after, rfl⟩ := List.isPrefixOf_iff_prefix.mp hprefix
    have hslice : slice 2 (byteLength (['?', '.'] ++ after)) (['?', '.'] ++ after) = .ok after :=
      slice_rest ['?', '.'] after
    rw [hslice]
    cases after <;> rfl
  · rename_i hprefix
    -- the table of operators is compared with texts that do not begin like this as well
    unfold Lexeme.isConditionalDot
    split
    · exact absurd rfl hprefix
    · rfl

/-- What a token stands for, where the token covers the `piece` between two positions.  The value of
a string is put together from its characters; the text of punctuation is known. -/
def value (text : List Char) (start stop : Nat) (kind : TokenKind) (piece : List Char) :
    Checked String := do
  match kind with
  | .stringLiteral => return Piece.value kind piece
  | .fault cause =>
    if cause = .invalidCharacter then let _ ← isConditionalDot text start
    return cause.message
  | _ =>
    if isPunctuation kind then
      let _ ← isConditionalDot text start
      return String.ofList piece
    else return String.ofList (← slice start stop text)

theorem value_eq (before piece rest : List Char) (kind : TokenKind) :
    value (before ++ piece ++ rest) (byteLength before) (byteLength (before ++ piece)) kind piece =
      .ok (Piece.value kind piece) := by
  have hdot : isConditionalDot (before ++ piece ++ rest) (byteLength before) =
      .ok (Lexeme.isConditionalDot (piece ++ rest)) := by
    rw [List.append_assoc, isConditionalDot_eq]
  have hslice := slice_append before piece rest
  cases kind
  case fault cause =>
    cases cause <;> simp only [value, Piece.value, hdot, ok_bind, pure_eq_ok, reduceCtorEq, if_true,
      if_false]
  all_goals simp only [value, Piece.value, isPunctuation, hdot, hslice, ok_bind, pure_eq_ok,
    Bool.false_eq_true, if_true, if_false]

/-- What a comment says, where the comment stands between two positions. -/
def remark (text : List Char) (start stop : Nat) : CommentKind → Checked String
  | .line => do
    let body ← slice (start + 2) stop text
    return String.ofList (body.reverse.dropWhile (· == '\r')).reverse
  | .block => do
    let bodyStop ← sub stop 2
    return String.ofList (← slice (start + 2) bodyStop text)

theorem remark_eq (before rest : List Char) {piece : List Char} {kind : CommentKind}
    (h : Piece.Delimited ⟨.comment kind, piece⟩) :
    remark (before ++ piece ++ rest) (byteLength before) (byteLength (before ++ piece)) kind =
      .ok (Piece.remark kind piece) := by
  cases kind with
  | line =>
    obtain ⟨body, rfl⟩ := h
    have hslice : slice (byteLength before + 2) (byteLength (before ++ '/' :: '/' :: body))
        (before ++ '/' :: '/' :: body ++ rest) = .ok body :=
      slice_eq_ok_iff.mpr ⟨before ++ ['/', '/'], rest, by simp, by simp; rfl, by simp⟩
    simp only [remark, hslice, ok_bind, pure_eq_ok, Piece.remark, List.drop_succ_cons,
      List.drop_zero]
  | block =>
    obtain ⟨body, rfl⟩ := h
    have hstop : byteLength (before ++ '/' :: '*' :: (body ++ ['*', '/'])) =
        byteLength (before ++ ['/', '*'] ++ body) + 2 := by
      simp only [byteLength_append, byteLength_cons, byteLength_nil]
      have : '/'.utf8Size = 1 := rfl
      have : '*'.utf8Size = 1 := rfl
      omega
    have hslice : slice (byteLength before + 2) (byteLength (before ++ ['/', '*'] ++ body))
        (before ++ '/' :: '*' :: (body ++ ['*', '/']) ++ rest) = .ok body :=
      slice_eq_ok_iff.mpr ⟨before ++ ['/', '*'], ['*', '/'] ++ rest, by simp, by simp; rfl, rfl⟩
    simp only [remark, hstop, sub_add, ok_bind, hslice, pure_eq_ok, Piece.remark, Piece.inner]
    congr 2
    simp

/-- Reads pieces off a text, the first one from `pos` on. -/
def layOut (text : List Char) (pos : Nat) (lineBefore : Bool) : List Piece → Checked Scan
  | [] => return ⟨[⟨.eof, ⟨pos, pos⟩, "", "", lineBefore⟩], []⟩
  | p :: ps => do
    let stop := pos + byteLength p.text
    match p.kind with
    | .blank => layOut text stop (lineBefore || p.text.contains '\n') ps
    | .comment kind =>
      let comment : Comment := ⟨kind, ⟨pos, stop⟩, ← remark text pos stop kind⟩
      let rest ← layOut text stop (lineBefore || p.text.contains '\n') ps
      return { rest with comments := comment :: rest.comments }
    | .token kind =>
      let value ← value text pos stop kind p.text
      let token : Token := ⟨kind, ⟨pos, stop⟩, value, String.ofList p.text, lineBefore⟩
      let rest ← layOut text stop false ps
      return { rest with tokens := token :: rest.tokens }

theorem layOut_eq (before : List Char) (lineBefore : Bool) {ps : List Piece}
    (hps : ∀ p ∈ ps, p.Delimited) :
    layOut (before ++ (ps.map Piece.text).flatten) (byteLength before) lineBefore ps =
      .ok (Scan.layOut (byteLength before) lineBefore ps) := by
  induction ps generalizing before lineBefore with
  | nil => rfl
  | cons p ps ih =>
    obtain ⟨hp, hps⟩ := List.forall_mem_cons.mp hps
    have ih := fun flag => ih (before ++ p.text) flag hps
    rw [List.map_cons, List.flatten_cons, ← List.append_assoc, layOut, Scan.layOut]
    simp only [← byteLength_append]
    obtain ⟨kind, piece⟩ := p
    cases kind with
    | blank => exact ih _
    | comment kind => simp only [remark_eq before _ hp, ok_bind, ih, pure_eq_ok]
    | token kind => simp only [value_eq, ok_bind, ih, pure_eq_ok]

/-- Reads the tokens and comments off a text. -/
def scan (text : String) : Checked Scan := layOut text.toList 0 true (pieces .initial text.toList)

/-- **Scanning does not fail.** -/
theorem scan_eq (text : String) : scan text = .ok (Scan.ofText text) := by
  have hpieces : ∀ p ∈ pieces .initial text.toList, p.Delimited :=
    fun _ => delimited_of_mem_pieces
  have h := layOut_eq [] true hpieces
  rwa [flatten_pieces] at h

/-! ## Line breaks -/

/-- How line breaks are told in the tokens of what a text goes on with behind `before`: there is a
line feed in the gap before a token, or there was one before the first gap. -/
structure Gaps (before rest : List Char) (lineBefore : Bool) (ts : TokenStream) : Prop where
  first : ∀ t, ts[0]? = some t → ∃ gap after, rest = gap ++ after ∧
    t.span.start = byteLength (before ++ gap) ∧ t.lineBefore = (lineBefore || gap.contains '\n')
  next : ∀ i p t, ts[i]? = some p → ts[i + 1]? = some t →
    ∃ gap, slice p.span.stop t.span.start (before ++ rest) = .ok gap ∧
      t.lineBefore = gap.contains '\n'

/-- What stands between two tokens lengthens the gap. -/
theorem Gaps.pass {before piece rest : List Char} {lineBefore : Bool} {ts : TokenStream}
    (h : Gaps (before ++ piece) rest (lineBefore || piece.contains '\n') ts) :
    Gaps before (piece ++ rest) lineBefore ts where
  first t ht := by
    obtain ⟨gap, after, rfl, hstart, hline⟩ := h.first t ht
    refine ⟨piece ++ gap, after, (List.append_assoc ..).symm, ?_, ?_⟩
    · rw [hstart, List.append_assoc]
    · rw [hline, Bool.or_assoc, List.contains_append]
  next i p t hp ht := by
    rw [← List.append_assoc]
    exact h.next i p t hp ht

theorem gaps_layOut (before : List Char) (lineBefore : Bool) (ps : List Piece) :
    Gaps before (ps.map Piece.text).flatten lineBefore
      (Scan.layOut (byteLength before) lineBefore ps).tokens := by
  induction ps generalizing before lineBefore with
  | nil =>
    refine ⟨fun t ht => ?_, fun i p t _ ht => by simp [Scan.layOut] at ht⟩
    obtain rfl := Option.some.inj ht
    exact ⟨[], [], rfl, by rw [List.append_nil], (Bool.or_false _).symm⟩
  | cons p ps ih =>
    have ih := ih (before ++ p.text)
    rw [List.map_cons, List.flatten_cons, Scan.layOut]
    simp only [← byteLength_append]
    obtain ⟨kind, piece⟩ := p
    cases kind with
    | blank => exact (ih _).pass
    | comment kind => exact (ih _).pass
    | token kind =>
      refine ⟨fun t ht => ?_, fun i q t hq ht => ?_⟩
      · obtain rfl := Option.some.inj ht
        exact ⟨[], _, rfl, by rw [List.append_nil], (Bool.or_false _).symm⟩
      · rw [← List.append_assoc]
        cases i with
        | zero =>
          obtain rfl := Option.some.inj hq
          obtain ⟨gap, after, hrest, hstart, hline⟩ := (ih false).first t ht
          refine ⟨gap, ?_, hline⟩
          rw [hrest, hstart, ← List.append_assoc]
          exact slice_append _ gap after
        | succ i => exact (ih false).next i q t hq ht

/-- Whether a line break comes before token `i`: there is a line feed between the one before it and
that token. -/
def lineBefore (text : List Char) (ts : TokenStream) (i : Nat) : Checked Bool := do
  match ← back i 1 with
  | none => return true
  | some k =>
    match ts[k]?, ts[i]? with
    | some p, some t =>
      return (slice p.span.stop t.span.start text).toOption.any fun gap => gap.contains '\n'
    | _, _ => return true

theorem lineBefore_eq (text : String) (i : Nat) :
    lineBefore text.toList (Scan.ofText text).tokens i =
      .ok (TokenStream.lineBefore (Scan.ofText text).tokens i) := by
  have hgaps : Gaps [] text.toList true (Scan.ofText text).tokens := by
    have h := gaps_layOut [] true (pieces .initial text.toList)
    rwa [flatten_pieces] at h
  unfold lineBefore TokenStream.lineBefore
  cases i with
  | zero =>
    rw [back_zero, ok_bind]
    cases ht : (Scan.ofText text).tokens[0]? with
    | none => rfl
    | some t =>
      obtain ⟨gap, _, _, _, hline⟩ := hgaps.first t ht
      rw [Option.elim, hline, Bool.true_or, pure_eq_ok]
  | succ i =>
    rw [back_succ, ok_bind]
    cases ht : (Scan.ofText text).tokens[i + 1]? with
    | none => simp
    | some t =>
      have hi : i < (Scan.ofText text).tokens.length :=
        (Nat.lt_succ_self i).trans (List.getElem?_eq_some_iff.mp ht).1
      have hp := List.getElem?_eq_getElem hi
      obtain ⟨gap, hslice, hline⟩ := hgaps.next i _ t hp ht
      rw [List.nil_append] at hslice
      simp only [hp, hslice, hline, Except.toOption, Option.any_some, Option.elim, pure_eq_ok]

end Checked

end TypeScriptEngine
