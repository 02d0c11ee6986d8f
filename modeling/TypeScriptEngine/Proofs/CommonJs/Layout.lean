import TypeScriptEngine.Proofs.CommonJs.Extent
import TypeScriptEngine.Proofs.Token.Rendered

/-! # Declarations in a text

Declarations one after the other, each with its semicolon, and white space and comments between all
words.  The tokens of such a text are those of the declarations, and where each of them begins and
ends is known (`Laid.exists_tokens`).
-/

namespace TypeScriptEngine

open TypeScriptEngine.Text TokenStream ModuleSyntax

/-- An atom behind a gap is a token. -/
theorem Scan.tokens_atom {remarks : List Char → Prop} {gap rest : List Char} {a : Atom}
    {st : ScanState} (hgap : Gap remarks gap) (hends : a.EndsBefore rest)
    (hst : .substitution ∉ st.openings) (pos : Nat) (lineBefore : Bool) :
    (layOut pos lineBefore (pieces st (gap ++ (a.text ++ rest)))).tokens =
      a.toWord.token ⟨⟨pos + byteLength gap, pos + byteLength gap + byteLength a.text⟩,
        lineBefore || gap.contains '\n'⟩ ::
      (layOut (pos + byteLength gap + byteLength a.text) false
        (pieces (st.after a.toWord.piece) rest)).tokens := by
  obtain ⟨_, _, htokens, _⟩ := moves_gap hgap pos lineBefore st (a.text ++ rest)
  rw [htokens, a.pieces_append hst hends, layOut]
  rfl

namespace ModuleSyntax

/-- The text renders atoms, and `rest` stands behind it.  There is no line break before an atom that
may not begin a line. -/
inductive Written : List Slot → List Char → List Char → Prop where
  | nil {rest : List Char} : Written [] [] rest
  | cons {s : Slot} {ss : List Slot} {gap body rest : List Char} (hgap : Gap (fun _ => True) gap)
      (hline : s.mayBreak = false → '\n' ∉ gap) (hends : s.atom.EndsBefore (body ++ rest))
      (hbody : Written ss body rest) : Written (s :: ss) (gap ++ (s.atom.text ++ body)) rest

/-- The tokens of what is written, of which the last one ends where the text ends.  The places of the
tokens behind them can be chosen. -/
theorem Written.exists_tokens {ss : List Slot} {body rest : List Char} (h : Written ss body rest)
    {st : ScanState} (hst : .substitution ∉ st.openings) (pos k : Nat)
    (further : Nat → TokenPlace) : ∃ place st', .substitution ∉ st'.openings ∧
      (Scan.layOut pos false (pieces st (body ++ rest))).tokens =
        stream place k (Atom.words (ss.map Slot.atom)) ++
          (Scan.layOut (pos + byteLength body) false (pieces st' rest)).tokens ∧
      Unbroken place k ss ∧
      (ss ≠ [] → (place (k + ss.length - 1)).span.stop = pos + byteLength body) ∧
      ∀ j, k + ss.length ≤ j → place j = further j := by
  induction h generalizing st pos k with
  | nil => exact ⟨further, st, hst, rfl, trivial, fun h => absurd rfl h, fun _ _ => rfl⟩
  | @cons s ss gap body rest hgap hline hends hbody ih =>
    obtain ⟨place, st', hst', htokens, hunbroken, hstop, hfurther⟩ :=
      ih (s.atom.toWord.not_mem_openings hst)
        (pos + byteLength gap + byteLength s.atom.text) (k + 1)
    let here : TokenPlace := ⟨⟨pos + byteLength gap, pos + byteLength gap + byteLength s.atom.text⟩,
      false || gap.contains '\n'⟩
    have hplace : ∀ j, k + 1 ≤ j → placeFrom k here place j = place j :=
      fun j hj => placeFrom_of_lt here place hj
    refine ⟨placeFrom k here place, st', hst', ?_, ⟨fun hbreak => ?_, ?_⟩, fun _ => ?_,
      fun j hj => ?_⟩
    · rw [List.append_assoc, List.append_assoc, Scan.tokens_atom hgap hends hst, htokens,
        List.map_cons, Atom.words_cons, stream_placeFrom, List.cons_append, byteLength_append,
        byteLength_append, ← Nat.add_assoc, ← Nat.add_assoc]
    · simpa [here] using hline hbreak
    · exact (unbroken_congr hplace).mpr hunbroken
    · cases ss with
      | nil =>
        cases hbody
        simp [here, Nat.add_assoc]
      | cons s' ss =>
        have hindex : k + (s :: s' :: ss).length - 1 = k + 1 + (s' :: ss).length - 1 := by
          simp only [List.length_cons]
          omega
        rw [hindex, hplace _ (by simp), hstop (List.cons_ne_nil _ _)]
        simp [Nat.add_assoc]
    · rw [List.length_cons] at hj
      rw [hplace j (by omega), hfurther j (by omega)]

/-! ## Declarations -/

/-- A declaration as it stands in a text. -/
structure Placed where
  declaration : Declaration
  /-- What stands before it. -/
  gap : List Char
  /-- What stands behind its first word, up to and including the last one before the semicolon. -/
  body : List Char
  /-- What stands before its semicolon. -/
  behind : List Char

namespace Placed

/-- The text of a declaration without its semicolon. -/
def statement (p : Placed) : List Char := p.declaration.keyword.atom.text ++ p.body

/-- The text of declarations, with what stands behind the last one. -/
def textOf : List Placed → List Char → List Char
  | [], last => last
  | p :: ps, last => p.gap ++ (p.statement ++ (p.behind ++ ';' :: textOf ps last))

end Placed

open Placed

/-- Declarations stand in a text as they are written. -/
inductive Laid : List Placed → List Char → Prop where
  | last {last : List Char} (h : Rendered (fun _ => True) last []) : Laid [] last
  | cons {p : Placed} {ps : List Placed} {last : List Char} (hgap : Gap (fun _ => True) p.gap)
      (hkeyword : p.declaration.keyword.atom.EndsBefore
        (p.body ++ (p.behind ++ ';' :: textOf ps last)))
      (hbody : Written p.declaration.slots p.body (p.behind ++ ';' :: textOf ps last))
      (hbehind : Gap (fun _ => True) p.behind) (hrest : Laid ps last) : Laid (p :: ps) last

/-- The words of a declaration and its semicolon. -/
def Declaration.words (d : Declaration) : List Word :=
  Atom.words d.atoms ++ [(Atom.sign .semicolon).toWord]

theorem Declaration.slots_ne_nil (d : Declaration) : d.slots ≠ [] := by
  rcases d with ⟨_ | n, _ | others, source⟩ | ⟨list, source?⟩
  · exact List.cons_ne_nil _ _
  · cases others <;> exact List.cons_ne_nil _ _
  · exact List.cons_ne_nil _ _
  · exact List.cons_ne_nil _ _
  · exact List.cons_ne_nil _ _

/-- Where the tokens of a declaration are. -/
structure Placed.StandsAt (p : Placed) (place : Nat → TokenPlace) (pos k : Nat) : Prop where
  unbroken : Unbroken place (k + 1) p.declaration.slots
  start : (place k).span.start = pos + byteLength p.gap
  /-- The end of the last token before the semicolon. -/
  stop : (place (k + p.declaration.atoms.length - 1)).span.stop =
    pos + byteLength p.gap + byteLength p.statement
  semicolon : (place (k + p.declaration.atoms.length)).span.stop =
    pos + byteLength p.gap + byteLength p.statement + byteLength p.behind + 1
  lineBefore : (place (k + p.declaration.atoms.length)).lineBefore = p.behind.contains '\n'

/-- **The tokens of a declaration** come first in a text that begins with it. -/
theorem Laid.exists_tokens {p : Placed} {ps : List Placed} {last : List Char}
    (h : Laid (p :: ps) last) {st : ScanState} (hst : .substitution ∉ st.openings) (pos k : Nat)
    (lineBefore : Bool) : ∃ place st', .substitution ∉ st'.openings ∧
      (Scan.layOut pos lineBefore (pieces st (textOf (p :: ps) last))).tokens =
        stream place k p.declaration.words ++
          (Scan.layOut (pos + byteLength p.gap + byteLength p.statement + byteLength p.behind + 1)
            false (pieces st' (textOf ps last))).tokens ∧
      p.StandsAt place pos k := by
  obtain ⟨declaration, gap, body, behind⟩ := p
  obtain _ | ⟨hgap, hkeyword, hbody, hbehind, -⟩ := h
  simp only at hgap hkeyword hbody hbehind
  let keyword := declaration.keyword.atom
  let here : TokenPlace := ⟨⟨pos + byteLength gap, pos + byteLength gap + byteLength keyword.text⟩,
    lineBefore || gap.contains '\n'⟩
  let stop := pos + byteLength gap + byteLength keyword.text + byteLength body
  let there : TokenPlace := ⟨⟨stop + byteLength behind, stop + byteLength behind + 1⟩,
    behind.contains '\n'⟩
  obtain ⟨place, st', hst', htokens, hunbroken, hstop, hfurther⟩ := hbody.exists_tokens
    (keyword.toWord.not_mem_openings hst) (pos + byteLength gap + byteLength keyword.text) (k + 1)
    fun _ => there
  let semicolon : Atom := .sign .semicolon
  have hlength : k + declaration.atoms.length = k + 1 + declaration.slots.length := by
    simp [Declaration.atoms]
    omega
  have hplace : ∀ j, k + 1 ≤ j → placeFrom k here place j = place j :=
    fun j hj => placeFrom_of_lt here place hj
  have hthere : placeFrom k here place (k + declaration.atoms.length) = there := by
    rw [hlength, hplace _ (by omega), hfurther _ (Nat.le_refl _)]
  have hstatement : pos + byteLength gap +
      byteLength (statement ⟨declaration, gap, body, behind⟩) = stop := by
    simp [statement, stop, keyword, Nat.add_assoc]
  have hsemicolon : (Scan.layOut stop false
      (pieces st' (behind ++ (semicolon.text ++ textOf ps last)))).tokens =
        semicolon.toWord.token there ::
          (Scan.layOut (stop + byteLength behind + 1) false
            (pieces (st'.after semicolon.toWord.piece) (textOf ps last))).tokens :=
    @Scan.tokens_atom _ _ (textOf ps last) semicolon st' hbehind (fun _ _ => rfl) hst' stop false
  refine ⟨placeFrom k here place, st'.after semicolon.toWord.piece,
    semicolon.toWord.not_mem_openings hst', ?_, (unbroken_congr hplace).mpr hunbroken, ?_, ?_, ?_,
    ?_⟩
  · have htext : textOf (⟨declaration, gap, body, behind⟩ :: ps) last =
        gap ++ (keyword.text ++ (body ++ (behind ++ ';' :: textOf ps last))) := by
      rw [textOf, statement, List.append_assoc]
    have hwords : declaration.words = keyword.toWord ::
        (Atom.words (declaration.slots.map Slot.atom) ++ [semicolon.toWord]) := rfl
    have hlast : place (k + 1 + declaration.slots.length) = there := hfurther _ (Nat.le_refl _)
    rw [htext, hwords, stream_placeFrom, stream_append, Atom.length_words, List.length_map,
      stream_cons, stream_nil, hlast, hstatement, List.cons_append, List.append_assoc,
      List.singleton_append]
    refine (Scan.tokens_atom hgap hkeyword hst pos lineBefore).trans
      (congrArg (_ :: ·) (htokens.trans ?_))
    exact congrArg (_ ++ ·) hsemicolon
  · rw [placeFrom_self]
  · have hne := declaration.slots_ne_nil
    have hpos := List.length_pos_of_ne_nil hne
    rw [hstatement, hplace _ (by simp only; omega)]
    simp only [hlength]
    exact hstop hne
  · rw [hthere, hstatement]
  · rw [hthere]

end ModuleSyntax

end TypeScriptEngine
