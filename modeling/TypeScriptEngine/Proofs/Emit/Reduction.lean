import Mathlib.Data.List.Infix
import TypeScriptEngine.Emit.Edit
import TypeScriptEngine.Proofs.Text.Split
import TypeScriptEngine.Text.Position

/-! # Texts reduced by edits

`Reduced` relates a text to one that has fewer characters: characters other than line feeds were
deleted, and the word `import` was replaced at certain places.  It goes line by line
(`Reduced.lines`), and it is what edits do that delete tokens or replace such a word
(`reduced_applyAll`).
-/

namespace TypeScriptEngine.Emit

open TypeScriptEngine.Text

/-- The word that an import begins with. -/
def importWord : List Char := "import".toList

/-- The second text is what the first one, which begins at byte `pos`, is reduced to: characters are
deleted, though no line feeds, and at some `places` the word `import` is replaced by `word`. -/
inductive Reduced (word : List Char) (places : Nat → Prop) :
    Nat → List Char → List Char → Prop where
  | nil (pos : Nat) : Reduced word places pos [] []
  | keep {pos : Nat} {as bs : List Char} (c : Char)
      (h : Reduced word places (pos + c.utf8Size) as bs) :
      Reduced word places pos (c :: as) (c :: bs)
  | delete {pos : Nat} {c : Char} {as bs : List Char} (hc : c ≠ '\n')
      (h : Reduced word places (pos + c.utf8Size) as bs) : Reduced word places pos (c :: as) bs
  | rename {pos : Nat} {as bs : List Char} (hpos : places pos)
      (h : Reduced word places (pos + byteLength importWord) as bs) :
      Reduced word places pos (importWord ++ as) (word ++ bs)

variable {word : List Char} {places : Nat → Prop} {pos : Nat} {as bs cs ds text : List Char}

namespace Reduced

theorem refl (pos : Nat) (cs : List Char) : Reduced word places pos cs cs := by
  induction cs generalizing pos with
  | nil => exact .nil pos
  | cons c cs ih => exact .keep c (ih _)

theorem append (h : Reduced word places pos as bs)
    (h' : Reduced word places (pos + byteLength as) cs ds) :
    Reduced word places pos (as ++ cs) (bs ++ ds) := by
  induction h with
  | nil pos => exact h'
  | keep c _ ih => exact .keep c (ih (by rwa [byteLength_cons, ← Nat.add_assoc] at h'))
  | delete hc _ ih => exact .delete hc (ih (by rwa [byteLength_cons, ← Nat.add_assoc] at h'))
  | rename hpos _ ih =>
    rw [List.append_assoc, List.append_assoc]
    exact .rename hpos (ih (by rwa [byteLength_append, ← Nat.add_assoc] at h'))

/-- Of a deleted text its line feeds remain. -/
theorem lineBreaks (pos : Nat) (cs : List Char) :
    Reduced word places pos cs (List.replicate (Text.lineBreaks cs) '\n') := by
  unfold Text.lineBreaks
  induction cs generalizing pos with
  | nil => exact .nil pos
  | cons c cs ih =>
    by_cases hc : c = '\n'
    · rw [hc, List.count_cons_self, List.replicate_succ]
      exact .keep _ (ih _)
    · rw [List.count_cons_of_ne hc]
      exact .delete hc (ih _)

end Reduced

/-! ## Line by line -/

/-- Texts at certain places, each with what it is reduced to. -/
inductive EachReduced (word : List Char) (places : Nat → Prop) :
    List Nat → List (List Char) → List (List Char) → Prop where
  | nil : EachReduced word places [] [] []
  | cons {pos : Nat} {as bs : List Char} {starts : List Nat} {ass bss : List (List Char)}
      (h : Reduced word places pos as bs) (hs : EachReduced word places starts ass bss) :
      EachReduced word places (pos :: starts) (as :: ass) (bs :: bss)

theorem EachReduced.length_eq {starts : List Nat} {ass bss : List (List Char)}
    (h : EachReduced word places starts ass bss) : ass.length = bss.length := by
  induction h with
  | nil => rfl
  | cons _ _ ih => exact congrArg (· + 1) ih

theorem EachReduced.exists_getElem? {starts : List Nat} {ass bss : List (List Char)}
    (h : EachReduced word places starts ass bss) {n : Nat} (hn : n < ass.length) :
    ∃ start as bs, starts[n]? = some start ∧ ass[n]? = some as ∧ bss[n]? = some bs ∧
      Reduced word places start as bs := by
  induction h generalizing n with
  | nil => exact absurd hn (Nat.not_lt_zero n)
  | cons h _ ih =>
    cases n with
    | zero => exact ⟨_, _, _, rfl, rfl, rfl, h⟩
    | succ n => exact ih (Nat.lt_of_succ_lt_succ hn)

/-- A character that is no line feed goes to the first line. -/
theorem lines_cons_of_ne {c : Char} {line : List Char} {lines : List (List Char)}
    (hc : c ≠ '\n') (h : Text.lines cs = line :: lines) :
    Text.lines (c :: cs) = (c :: line) :: lines := by
  unfold Text.lines at h ⊢
  rw [splitOn, if_neg hc, h]

theorem startsAfter_append_of_not_mem {before : List Char} (h : '\n' ∉ before) (pos : Nat)
    (cs : List Char) : LineIndex.startsAfter pos (before ++ cs) =
      LineIndex.startsAfter (pos + byteLength before) cs := by
  induction before generalizing pos with
  | nil => rfl
  | cons c before ih =>
    obtain ⟨hc, hbefore⟩ := not_or.mp (fun hm => h (List.mem_cons.mpr hm))
    rw [List.cons_append, LineIndex.startsAfter, if_neg (Ne.symm hc), ih hbefore, byteLength_cons,
      Nat.add_assoc]

theorem not_mem_importWord : '\n' ∉ importWord := by decide

/-- **A reduced text is reduced line by line.** -/
theorem Reduced.lines (h : Reduced word places pos as bs) (hword : '\n' ∉ word) :
    EachReduced word places (pos :: LineIndex.startsAfter pos as) (Text.lines as)
      (Text.lines bs) := by
  induction h with
  | nil pos => exact .cons (.nil pos) .nil
  | @keep pos as bs c _ ih =>
    by_cases hc : c = '\n'
    · subst hc
      unfold Text.lines at ih ⊢
      rw [splitOn, splitOn, if_pos rfl, if_pos rfl, LineIndex.startsAfter, if_pos rfl]
      exact .cons (.nil pos) ih
    · rw [LineIndex.startsAfter, if_neg hc]
      generalize hla : Text.lines as = la at ih
      generalize hlb : Text.lines bs = lb at ih
      obtain _ | ⟨hline, hrest⟩ := ih
      rw [lines_cons_of_ne hc hla, lines_cons_of_ne hc hlb]
      exact .cons (.keep c hline) hrest
  | @delete pos c as bs hc _ ih =>
    rw [LineIndex.startsAfter, if_neg hc]
    generalize hla : Text.lines as = la at ih
    generalize Text.lines bs = lb at ih ⊢
    obtain _ | ⟨hline, hrest⟩ := ih
    rw [lines_cons_of_ne hc hla]
    exact .cons (.delete hc hline) hrest
  | @rename pos as bs hpos _ ih =>
    rw [startsAfter_append_of_not_mem not_mem_importWord]
    generalize hla : Text.lines as = la at ih
    generalize hlb : Text.lines bs = lb at ih
    obtain _ | ⟨hline, hrest⟩ := ih
    unfold Text.lines at hla hlb ⊢
    rw [splitOn_append_of_not_mem not_mem_importWord hla, splitOn_append_of_not_mem hword hlb]
    exact .cons (.rename hpos hline) hrest

/-! ## Edits -/

/-- A byte position between two characters of a text. -/
def Boundary (text : List Char) (n : Nat) : Prop := ∃ before, before <+: text ∧ byteLength before = n

/-- An edit of a text that deletes whole characters, or replaces the word `import` at a certain
place. -/
structure Reduces (word : List Char) (places : Nat → Prop) (text : List Char) (e : Edit) :
    Prop where
  start : Boundary text e.start
  stop : Boundary text e.stop
  le : e.start ≤ e.stop
  text : e.text = [] ∨ e.text = word ∧ places e.start ∧ sliceBytes e.start e.stop text = importWord

/-- A cut at a boundary behind `before` is exact. -/
theorem Boundary.exists_split {before rest : List Char} {n : Nat} (h : Boundary (before ++ rest) n)
    (hle : byteLength before ≤ n) :
    ∃ kept after, rest = kept ++ after ∧ n = byteLength (before ++ kept) ∧
      splitBytes (n - byteLength before) rest = (kept, after) := by
  obtain ⟨front, hfront, rfl⟩ := h
  have hprefix : before <+: front := by
    rcases List.prefix_or_prefix_of_prefix (List.prefix_append before rest) hfront with h | h
    · exact h
    · -- both end at the same byte
      obtain ⟨gap, rfl⟩ := h
      rw [byteLength_append] at hle
      cases gap with
      | nil =>
        rw [List.append_nil]
      | cons c gap =>
        have := utf8Size_pos c
        rw [byteLength_cons] at hle
        omega
  obtain ⟨kept, rfl⟩ := hprefix
  obtain ⟨after, hafter⟩ := hfront
  rw [List.append_assoc] at hafter
  obtain rfl := List.append_cancel_left hafter
  refine ⟨kept, after, rfl, rfl, ?_⟩
  rw [byteLength_append, Nat.add_sub_cancel_left]
  exact splitBytes_byteLength kept after

theorem sliceBytes_append (before cut after : List Char) :
    sliceBytes (byteLength before) (byteLength (before ++ cut)) (before ++ (cut ++ after)) = cut := by
  rw [sliceBytes, splitBytes_byteLength, byteLength_append, Nat.add_sub_cancel_left,
    splitBytes_byteLength]

/-- What an edit puts in the place of what it cuts out of a text. -/
theorem Reduces.reduced {before cut after : List Char} {e : Edit}
    (h : Reduces word places (before ++ (cut ++ after)) e) (hstart : e.start = byteLength before)
    (hstop : e.stop = byteLength (before ++ cut)) :
    Reduced word places e.start cut
      (e.text ++ List.replicate (Text.lineBreaks cut) '\n') := by
  rcases h.text with htext | ⟨htext, hplace, hslice⟩
  · rw [htext]
    exact .lineBreaks _ cut
  · have hcut : cut = importWord := by rw [← hslice, hstart, hstop, sliceBytes_append]
    have hnone : Text.lineBreaks cut = 0 := by
      rw [hcut]
      exact List.count_eq_zero.mpr not_mem_importWord
    rw [htext, hnone, hcut]
    simpa using Reduced.rename hplace (.nil _)

/-- **Edits that reduce a text reduce what is left of it.** -/
theorem reduced_splice {before rest : List Char} {edits : List Edit}
    (h : ∀ e ∈ edits, Reduces word places (before ++ rest) e) :
    Reduced word places (byteLength before) rest
      (Edit.splice (byteLength before) rest edits) := by
  induction edits generalizing before rest with
  | nil => exact .refl _ rest
  | cons e es ih =>
    have hes := fun f hf => h f (List.mem_cons_of_mem _ hf)
    rw [Edit.splice]
    split
    · exact ih hes
    · rename_i hlt
      have he := h e (List.mem_cons_self ..)
      obtain ⟨kept, after, rfl, hstart, hkept⟩ := he.start.exists_split (Nat.not_lt.mp hlt)
      rw [← List.append_assoc] at h he
      obtain ⟨cut, rest, rfl, hstop, hcut⟩ := he.stop.exists_split (hstart ▸ he.le)
      rw [hstart] at hkept
      simp only [hstart, hkept, hcut]
      rw [List.append_assoc, List.append_assoc]
      refine .append (.refl _ kept) ?_
      rw [← byteLength_append, ← hstart, ← List.append_assoc]
      have hreduced := he.reduced hstart hstop
      refine hreduced.append ?_
      have hend : e.start + byteLength cut = byteLength (before ++ kept ++ cut) := by
        rw [hstart, byteLength_append (before ++ kept)]
      rw [hend, hstop]
      exact ih fun f hf => by
        rw [List.append_assoc]
        exact h f (List.mem_cons_of_mem _ hf)

/-- **Edits that reduce a text reduce it,** in whatever order they are given. -/
theorem reduced_applyAll {edits : List Edit} (h : ∀ e ∈ edits, Reduces word places text e) :
    Reduced word places 0 text (Edit.applyAll edits text) := by
  have hsorted : ∀ e ∈ edits.mergeSort Edit.le, Reduces word places ([] ++ text) e :=
    fun e he => h e (List.mem_mergeSort.mp he)
  exact reduced_splice hsorted

end TypeScriptEngine.Emit
