import TypeScriptEngine.Proofs.Seam.Code

/-! # The code of settled statements

Without ES modules nothing is left of type aliases on lines of their own, and an exported constant
loses the word `export` and gets an assignment behind it, as long as the end of each statement shows
(`program_settledLines`).  The walk comes to every statement at its first word, because the one before it was
passed as a whole.
-/

namespace TypeScriptEngine.Seam

open TypeScriptEngine.Text TokenStream ModuleSyntax Grammar
open Emit (Goal Draft Ready)

/-! ## Edits of a line -/

section

variable {l : Line} {pos : Nat} {e : Edit}

theorem Line.bits_ne_nil (l : Line) : l.bits ≠ [] := fun hnil => by
  have hwords := l.words_bits
  rw [hnil] at hwords
  exact l.statement.words_ne_nil (List.append_eq_nil_iff.mp hwords.symm).1

/-- A line has something before its statement and something else. -/
theorem Line.exists_text (l : Line) : ∃ cut, l.text = l.lead ++ cut ∧ 0 < byteLength cut := by
  obtain ⟨b, bs, hbits⟩ := List.exists_cons_of_ne_nil l.bits_ne_nil
  refine ⟨b.word.text ++ textOf bs, ?_, ?_⟩
  · rw [Line.text, Line.lead, hbits]
    rfl
  · have := byteLength_text_pos b.word
    rw [byteLength_append]
    omega

/-- The edits of a line are made in it or directly behind it. -/
theorem Line.bounds_of_mem_edits (he : e ∈ l.edits pos) : pos ≤ e.start ∧ pos < e.stop ∧
    e.start ≤ pos + byteLength l.text ∧ e.stop ≤ pos + byteLength l.text := by
  obtain ⟨cut, htext, hcut⟩ := l.exists_text
  have hlength : byteLength l.text = byteLength l.lead + byteLength cut := by
    rw [htext, byteLength_append]
  unfold Line.edits at he
  split at he
  · obtain rfl := List.mem_singleton.mp he
    simp only
    omega
  · rcases List.mem_append.mp he with he | he
    · have hle := le_of_mem_erasures he
      rw [← Line.text] at hle
      omega
    · split at he
      · obtain rfl := List.mem_singleton.mp he
        simp only
        omega
      · contradiction

theorem Line.pairwise_edits (l : Line) (pos : Nat) : (l.edits pos).Pairwise Emit.Precedes := by
  unfold Line.edits
  split
  · exact List.pairwise_singleton ..
  · refine List.pairwise_append.mpr ⟨pairwise_erasures _ _, ?_, fun e he f hf => .inl ?_⟩
    · split
      · exact List.pairwise_singleton ..
      · exact .nil
    · have hle := le_of_mem_erasures he
      rw [← Line.text] at hle
      split at hf
      · obtain rfl := List.mem_singleton.mp hf
        simp only
        omega
      · contradiction

/-- The words of a constant: `export`, the mark of an assertion, and words that the emitter leaves. -/
theorem Line.word_cases {exported : Bool} {name : Ident} {value : Value}
    (hstatement : l.statement = .constant exported name value) {b : Bit} (hb : b ∈ l.bits) :
    b.word = Keyword.kwExport.atom.toWord ∨ b.word = mark ∨
      b.word.kind = .kwConst ∨ Emit.isQuiet b.word.kind = true := by
  have hmem : b.word ∈ l.statement.words ++ if l.semicolon then [.of .semicolon] else [] :=
    l.words_bits ▸ List.mem_map_of_mem hb
  have hconst : b.word ∈ Word.of .kwConst :: tailWords name value l.semicolon →
      b.word = mark ∨ b.word.kind = .kwConst ∨ Emit.isQuiet b.word.kind = true := by
    intro hmem
    rcases List.mem_cons.mp hmem with heq | hmem
    · exact .inr (.inl (congrArg Word.kind heq))
    · obtain ⟨j, hj⟩ := List.mem_iff_getElem?.mp hmem
      rcases tailWords_quiet name value l.semicolon hj with hquiet | ⟨-, -, -, hmark⟩
      · exact .inr (.inr hquiet)
      · exact .inl hmark
  rw [hstatement] at hmem
  cases exported with
  | false => exact .inr (hconst hmem)
  | true => exact (List.mem_cons.mp hmem).imp id hconst

theorem isErased_of_quiet {w : Word} (h : Emit.isQuiet w.kind = true) : isErased w = false := by
  revert h
  unfold isErased
  cases w.kind <;> simp [Emit.isQuiet]

/-- Only the word `export` and the mark of an assertion are erased in a constant. -/
theorem Line.eq_of_isErased {exported : Bool} {name : Ident} {value : Value}
    (hstatement : l.statement = .constant exported name value) {b : Bit} (hb : b ∈ l.bits)
    (h : isErased b.word = true) : b.word = Keyword.kwExport.atom.toWord ∨ b.word = mark := by
  rcases l.word_cases hstatement hb with hexport | hmark | hconst | hquiet
  · exact .inl hexport
  · exact .inr hmark
  · simp [isErased, hconst] at h
  · exact absurd h (Bool.eq_false_iff.mp (isErased_of_quiet hquiet))

/-- **The edits of a line leave its code.** -/
theorem Line.splice_edits (l : Line) {rest : List Char} {edits : List Edit}
    (hedits : ∀ e ∈ edits, pos + byteLength l.text ≤ e.start) :
    Edit.splice pos (l.text ++ rest) (l.edits pos ++ edits) =
      l.code ++ Edit.splice (pos + byteLength l.text) rest edits := by
  unfold Line.edits Line.code
  cases hstatement : l.statement with
  | typeAlias name type =>
    obtain ⟨cut, htext, -⟩ := l.exists_text
    have hstop : pos + byteLength l.text = pos + byteLength l.lead + byteLength cut := by
      rw [htext, byteLength_append, Nat.add_assoc]
    simp only [List.singleton_append, hstop]
    rw [htext, List.append_assoc, Emit.splice_replace, List.drop_left]
    simp
  | constant exported name value =>
    have hlines : ∀ b ∈ l.bits, isErased b.word = true → '\n' ∉ b.word.text := fun b hb h => by
      rcases l.eq_of_isErased hstatement hb h with h | h <;> rw [h] <;> decide
    simp only [List.append_assoc]
    rw [Line.text, splice_erasures hlines, ← Line.text]
    · refine congrArg (codeOf l.bits ++ ·) ?_
      cases exported with
      | false => rfl
      | true =>
        exact (Emit.splice_insertions (List.forall_mem_singleton.mpr ⟨rfl, rfl⟩) rest).trans
          (by simp)
    · intro e he
      rcases List.mem_append.mp he with he | he
      · split at he
        · obtain rfl := List.mem_singleton.mp he
          exact Nat.le_refl _
        · contradiction
      · exact hedits e he

end

/-! ## Edits of lines -/

/-- The edits of lines, if `pos` bytes of text come before them. -/
def linesEdits (pos : Nat) : List Line → List Edit
  | [] => []
  | l :: ls => l.edits pos ++ linesEdits (pos + byteLength l.text) ls

/-- What is left of lines. -/
def linesCode : List Line → List Char → List Char
  | [], last => last
  | l :: ls, last => l.code ++ linesCode ls last

theorem bounds_of_mem_linesEdits {ls : List Line} {pos : Nat} {e : Edit}
    (he : e ∈ linesEdits pos ls) : pos ≤ e.start ∧ pos < e.stop := by
  induction ls generalizing pos with
  | nil => contradiction
  | cons l ls ih =>
    rcases List.mem_append.mp he with he | he
    · have := l.bounds_of_mem_edits he
      omega
    · have := ih he
      omega

theorem pairwise_linesEdits (ls : List Line) (pos : Nat) :
    (linesEdits pos ls).Pairwise Emit.Precedes := by
  induction ls generalizing pos with
  | nil => exact .nil
  | cons l ls ih =>
    refine List.pairwise_append.mpr ⟨l.pairwise_edits pos, ih _, fun e he f hf => ?_⟩
    have hle := l.bounds_of_mem_edits he
    have hlt := bounds_of_mem_linesEdits hf
    unfold Emit.Precedes
    omega

/-- **The edits of lines leave their code.** -/
theorem splice_linesEdits (ls : List Line) (last : List Char) (pos : Nat) :
    Edit.splice pos (linesText ls last) (linesEdits pos ls) = linesCode ls last := by
  induction ls generalizing pos with
  | nil => rfl
  | cons l ls ih =>
    rw [linesText, linesEdits, linesCode, l.splice_edits, ih]
    exact fun e he => (bounds_of_mem_linesEdits he).1

/-! ## The walk -/

section

variable {goal : Goal} {ts front : TokenStream} {draft : Draft} {pos : Nat} {st : ScanState}

/-- The first token of a line of its own. -/
theorem exists_first (l : Line) (hown : l.IsOwnLine) (pos : Nat) (lineBefore : Bool) :
    ∃ t rest, tokensOf pos lineBefore l.bits = t :: rest ∧ t.lineBefore = true ∧
      some t.kind = l.words.head?.map Word.kind := by
  have hwords := l.words_bits
  obtain ⟨b, bs, hbits⟩ := List.exists_cons_of_ne_nil l.bits_ne_nil
  have hgap : '\n' ∈ b.gap := hown b (by rw [hbits]; rfl)
  refine ⟨_, _, by rw [hbits, tokensOf], by simp [Word.token, hgap], ?_⟩
  rw [Line.words, ← hwords, hbits]
  rfl

/-- The kinds of the words that statements begin with. -/
theorem Line.kind_head (l : Line) {k : TokenKind} (h : some k = l.words.head?.map Word.kind) :
    k = .kwType ∧ l.isAlias = true ∨ k = .kwExport ∨ k = .kwConst := by
  rw [Line.words] at h
  rw [Line.isAlias]
  cases hstatement : l.statement with
  | typeAlias name type =>
    rw [hstatement] at h
    exact .inl ⟨Option.some.inj h, rfl⟩
  | constant exported name value =>
    rw [hstatement] at h
    cases exported with
    | false => exact .inr (.inr (Option.some.inj h))
    | true => exact .inr (.inl (Option.some.inj h))

/-- **The walk over settled lines makes the edits of each.** -/
theorem walk_lines (hgoal : goal.commonJs = true) {ls : List Line} {last : List Char}
    (h : Laid ls last) (hsettled : Settled ls) {lineBefore : Bool}
    (hst : .substitution ∉ st.openings)
    (hts : ts = front ++ (Scan.layOut pos lineBefore (pieces st (linesText ls last))).tokens)
    (hstart : ls ≠ [] → ts.startsStatement front.length = true)
    (hdepth : front.foldl (fun depth t => depthAfter depth t.kind) 0 = 0)
    (hready : Ready ts draft front.length) :
    (Emit.walk goal ts draft front.length).edits.Perm (linesEdits pos ls ++ draft.edits) := by
  induction h generalizing front st lineBefore draft pos with
  | @last last hlast =>
    obtain ⟨place, q, htokens, -⟩ := hlast.exists_tokens hst pos lineBefore 0
    rw [linesText, htokens] at hts
    rw [Emit.walk, if_neg (by simp [hts, TokenStream.last])]
    exact .refl _
  | @cons l ls last hfits hown hrest ih =>
    obtain ⟨st', hst', htokens⟩ := hfits.stands.exists_tokens hst pos lineBefore
    rw [linesText, Line.text, htokens] at hts
    generalize hbehind : (Scan.layOut (pos + byteLength (textOf l.bits))
      (lineBefore && l.bits.isEmpty) (pieces st' (linesText ls last))).tokens = rest at hts
    -- what stands behind the line
    have hnext : Follows l rest ∧ (ls ≠ [] →
        ts.startsStatement (front.length + l.bits.length) = true) := by
      cases hrest with
      | last hlast =>
        obtain ⟨place, q, htokens, -⟩ := hlast.exists_tokens hst' _ _ 0
        rw [linesText, htokens] at hbehind
        exact ⟨hbehind ▸ .eof rfl, fun hne => absurd rfl hne⟩
      | @cons l' ls last hfits' hown' hrest =>
        obtain ⟨⟨hends, hoperator⟩, -⟩ := hsettled
        obtain ⟨_, -, htokens'⟩ := hfits'.stands.exists_tokens hst' (pos + byteLength (textOf l.bits))
          (lineBefore && l.bits.isEmpty)
        obtain ⟨t, further, hfirst, hline, hhead⟩ := exists_first l' (hown l' rfl)
          (pos + byteLength (textOf l.bits)) (lineBefore && l.bits.isEmpty)
        rw [linesText, Line.text, htokens', hfirst, List.cons_append] at hbehind
        rw [← hbehind] at hts ⊢
        have hnoOperator : l'.isAlias = true → l.isOperator = false := fun halias =>
          Bool.eq_false_iff.mpr fun h => Bool.false_ne_true (hoperator h ▸ halias)
        have hkind := (l'.kind_head hhead).imp_left (And.imp_right hnoOperator)
        refine ⟨.line hline hends hkind, fun _ => ?_⟩
        rw [hts, startsStatement_behind l front pos lineBefore hline, hends]
    obtain ⟨draft', hwalk, hready', hedits⟩ := walk_line hgoal hfits hts hnext.1
      (hstart (List.cons_ne_nil _ _)) (by rw [Emit.depthAt, hts, List.take_left, hdepth]) hready
    let front' : TokenStream := front ++ tokensOf pos lineBefore l.bits
    have hlength : front'.length = front.length + l.bits.length := by
      rw [List.length_append, length_tokensOf]
    have hbalanced : Balanced (l.bits.map Bit.word) := by
      rw [l.words_bits]
      exact l.balanced
    have hperm := @ih front' draft' _ st' (by cases ls <;> [trivial; exact hsettled.2]) _ hst'
      (by rw [hts, hbehind, List.append_assoc]) (hlength ▸ hnext.2)
      (by rw [List.foldl_append, hdepth, foldl_depthAfter_bits hbalanced]) (hlength ▸ hready')
    rw [hwalk, ← hlength]
    refine hperm.trans ((hedits.append_left _).trans ?_)
    rw [linesEdits, ← List.append_assoc]
    exact List.perm_append_comm.append_right _

end

/-! ## Programs -/

/-- **The code of settled lines.**  Behind the marker of a module, if it is one, stands what is left
of each line. -/
theorem program_settledLines {goal : Goal} (hgoal : goal.commonJs = true) {ls : List Line}
    {last : List Char} (h : Laid ls last) (hsettled : Settled ls) :
    let ts : TokenStream := (Scan.ofText (String.ofList (linesText ls last))).tokens
    Emit.program goal ts (linesText ls last) =
      (if ts.isModule then Emit.moduleMarker.toList else []) ++ linesCode ls last := by
  intro ts
  have htokens : ts = [] ++ (Scan.layOut 0 true (pieces .initial (linesText ls last))).tokens := by
    simp only [ts, Scan.ofText, String.toList_ofList, List.nil_append]
  have hready : Ready ts (Emit.firstDraft goal ts) 0 := by
    unfold Emit.firstDraft
    simp only
    split <;> exact ⟨Draft.freeFrom_empty ts, Array.size_replicate, rfl⟩
  let marker : List Edit := if ts.isModule then [⟨0, 0, Emit.moduleMarker.toList⟩] else []
  have hmarker : (Emit.firstDraft goal ts).edits = marker := by
    rw [Emit.firstDraft, hgoal, Bool.true_and]
    simp only [marker]
    split <;> rfl
  have hzero : ∀ e ∈ marker, e.start = 0 ∧ e.stop = 0 := by
    intro e he
    simp only [marker] at he
    split at he
    · exact List.mem_singleton.mp he ▸ ⟨rfl, rfl⟩
    · contradiction
  have hwalk := walk_lines hgoal h hsettled (by decide) htokens (fun _ => rfl) rfl hready
  rw [hmarker] at hwalk
  have hpairwise : (marker ++ linesEdits 0 ls).Pairwise Emit.Precedes := by
    refine List.pairwise_append.mpr ⟨?_, pairwise_linesEdits ls 0, fun e he f hf => ?_⟩
    · simp only [marker]
      split
      · exact List.pairwise_singleton ..
      · exact .nil
    · have hlt := bounds_of_mem_linesEdits hf
      have := hzero e he
      unfold Emit.Precedes
      omega
  rw [Emit.program_of_perm (hwalk.trans List.perm_append_comm) hpairwise,
    Emit.splice_insertions hzero, splice_linesEdits]
  simp only [marker]
  split <;> simp

end TypeScriptEngine.Seam
