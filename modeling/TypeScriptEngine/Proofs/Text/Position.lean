import Mathlib.Data.List.TakeWhile
import TypeScriptEngine.Text.Position

/-! # Positions are counted from the head of the text

A text is cut at an offset into the characters that end at or before it and the rest (`CutAt`).  The
line starts that are reached by the offset are those of the first part, so that the position of the
offset can be counted there: its line feeds, and the characters behind the last of them
(`position_of_cutAt`).  A later offset only adds characters to the first part, and therefore never
leads back (`positions_counted`).
-/

namespace TypeScriptEngine.Text

/-- The characters behind the last line feed. -/
def lastLine (cs : List Char) : List Char := (cs.reverse.takeWhile (· != '\n')).reverse

/-- A text is cut at an offset: as many characters as end at or before it are in the first part. -/
structure CutAt (offset : Nat) (cs before after : List Char) : Prop where
  eq : cs = before ++ after
  fits : byteLength before ≤ offset
  full : ∀ c rest, after = c :: rest → offset < byteLength before + c.utf8Size

/-- A position does not come after another one. -/
def Position.NotAfter (p q : Position) : Prop :=
  p.line < q.line ∨ p.line = q.line ∧ p.character ≤ q.character

variable {cs as bs before after : List Char} {offset pos : Nat}

/-! ## Cuts -/

theorem cutAt_splitBytes (offset : Nat) (cs : List Char) :
    CutAt offset cs (splitBytes offset cs).1 (splitBytes offset cs).2 := by
  refine ⟨(splitBytes_append offset cs).symm, byteLength_splitBytes offset cs, ?_⟩
  induction cs generalizing offset with
  | nil => simp [splitBytes]
  | cons c cs ih =>
    rw [splitBytes]
    split
    · intro d rest hd
      have := ih (offset - c.utf8Size) d rest hd
      rw [byteLength_cons]
      omega
    · intro d rest hd
      obtain ⟨rfl, -⟩ := List.cons.inj hd
      simp only [byteLength_nil]
      omega

/-- A text can be cut at an offset in one way. -/
theorem CutAt.splitBytes_eq (h : CutAt offset cs before after) :
    splitBytes offset cs = (before, after) := by
  obtain ⟨rfl, hfits, hfull⟩ := h
  induction before generalizing offset with
  | nil =>
    cases after with
    | nil => rfl
    | cons c rest =>
      have := hfull c rest rfl
      rw [byteLength_nil, Nat.zero_add] at this
      rw [List.nil_append, splitBytes, if_neg (by omega)]
  | cons c before ih =>
    rw [byteLength_cons] at hfits
    have hrest : splitBytes (offset - c.utf8Size) (before ++ after) = (before, after) := by
      refine ih (by omega) fun d rest hd => ?_
      have := hfull d rest hd
      rw [byteLength_cons] at this
      omega
    rw [List.cons_append, splitBytes, if_pos (by omega), hrest]

/-- A later cut has the first part of an earlier one at its head. -/
theorem CutAt.exists_append {offset' : Nat} {before' after' : List Char}
    (h : CutAt offset cs before after) (h' : CutAt offset' cs before' after')
    (hle : offset ≤ offset') : ∃ between, before' = before ++ between := by
  obtain ⟨hcs, hfits, -⟩ := h
  obtain ⟨hcs', hfits', hfull'⟩ := h'
  rcases List.append_eq_append_iff.mp (hcs.symm.trans hcs') with ⟨between, h, -⟩ | ⟨rest, h, hrest⟩
  · exact ⟨between, h⟩
  · -- the first part of the later cut could hold what the earlier one has more
    cases rest with
    | nil => exact ⟨[], by simpa using h.symm⟩
    | cons c rest =>
      have := hfull' c (rest ++ after) hrest
      rw [h, byteLength_append, byteLength_cons] at hfits
      omega

/-! ## Line starts -/

theorem startsAfter_append (pos : Nat) (as bs : List Char) :
    LineIndex.startsAfter pos (as ++ bs) =
      LineIndex.startsAfter pos as ++ LineIndex.startsAfter (pos + byteLength as) bs := by
  induction as generalizing pos with
  | nil => rfl
  | cons c as ih =>
    rw [List.cons_append, LineIndex.startsAfter, LineIndex.startsAfter, ih, byteLength_cons,
      Nat.add_assoc]
    split
    · rfl
    · rfl

/-- There is a line start behind each line feed. -/
theorem length_startsAfter (pos : Nat) (cs : List Char) :
    (LineIndex.startsAfter pos cs).length = cs.count '\n' := by
  induction cs generalizing pos with
  | nil => rfl
  | cons c cs ih =>
    rw [LineIndex.startsAfter, List.count_cons]
    split
    · rename_i hc
      simp [hc, ih]
    · rename_i hc
      simp [hc, ih]

theorem bounds_of_mem_startsAfter {start : Nat} (h : start ∈ LineIndex.startsAfter pos cs) :
    pos < start ∧ start ≤ pos + byteLength cs := by
  induction cs generalizing pos with
  | nil => contradiction
  | cons c cs ih =>
    have hsize := utf8Size_pos c
    rw [LineIndex.startsAfter] at h
    rw [byteLength_cons]
    split at h
    · rcases List.mem_cons.mp h with rfl | h
      · omega
      · have := ih h
        omega
    · have := ih h
      omega

/-- Line starts are in ascending order, each of them once. -/
theorem pairwise_startsAfter (pos : Nat) (cs : List Char) :
    (LineIndex.startsAfter pos cs).Pairwise (· < ·) := by
  induction cs generalizing pos with
  | nil => exact List.Pairwise.nil
  | cons c cs ih =>
    rw [LineIndex.startsAfter]
    split
    · exact List.pairwise_cons.mpr ⟨fun _ h => (bounds_of_mem_startsAfter h).1, ih _⟩
    · exact ih _

theorem pairwise_starts (cs : List Char) : (LineIndex.ofText cs).starts.Pairwise (· < ·) :=
  List.pairwise_cons.mpr ⟨fun _ h => (bounds_of_mem_startsAfter h).1, pairwise_startsAfter 0 cs⟩

theorem starts_append (as bs : List Char) : (LineIndex.ofText (as ++ bs)).starts =
    (LineIndex.ofText as).starts ++ LineIndex.startsAfter (byteLength as) bs := by
  rw [LineIndex.ofText, startsAfter_append, Nat.zero_add]
  rfl

theorem length_starts (cs : List Char) :
    (LineIndex.ofText cs).starts.length = cs.count '\n' + 1 := by
  rw [LineIndex.ofText, List.length_cons, length_startsAfter]

theorem le_of_mem_starts {start : Nat} (h : start ∈ (LineIndex.ofText cs).starts) :
    start ≤ byteLength cs := by
  rcases List.mem_cons.mp h with rfl | h
  · exact Nat.zero_le _
  · have := (bounds_of_mem_startsAfter h).2
    omega

/-- Of the line starts of a text, its head reaches the own ones. -/
theorem takeWhile_starts (as bs : List Char) :
    (LineIndex.ofText (as ++ bs)).starts.takeWhile (· ≤ byteLength as) =
      (LineIndex.ofText as).starts := by
  have hrest : (LineIndex.startsAfter (byteLength as) bs).takeWhile (· ≤ byteLength as) = [] := by
    cases hstarts : LineIndex.startsAfter (byteLength as) bs with
    | nil => rfl
    | cons start rest =>
      have := bounds_of_mem_startsAfter (hstarts ▸ List.mem_cons_self (a := start))
      rw [List.takeWhile_cons_of_neg]
      simpa using this.1
  rw [starts_append,
    List.takeWhile_append_of_pos fun start h => decide_eq_true (le_of_mem_starts h), hrest,
    List.append_nil]

/-- The own line starts of the head of a text are the first ones. -/
theorem le_iff_of_getElem?_starts {n start : Nat}
    (h : (LineIndex.ofText (as ++ bs)).starts[n]? = some start) :
    start ≤ byteLength as ↔ n ≤ as.count '\n' := by
  have hlength := length_starts as
  rw [starts_append] at h
  by_cases hn : n ≤ as.count '\n'
  · rw [List.getElem?_append_left (by omega)] at h
    exact iff_of_true (le_of_mem_starts (List.mem_of_getElem? h)) hn
  · rw [List.getElem?_append_right (by omega)] at h
    have := bounds_of_mem_startsAfter (List.mem_of_getElem? h)
    exact iff_of_false (by omega) hn

/-! ## The last line -/

theorem lf_not_mem_lastLine (cs : List Char) : '\n' ∉ lastLine cs := by
  intro h
  have := List.mem_takeWhile_imp (List.mem_reverse.mp h)
  simp at this

/-- What precedes the last line is empty or ends with a line feed. -/
theorem exists_lastLine (cs : List Char) :
    cs = lastLine cs ∨ ∃ front, cs = front ++ '\n' :: lastLine cs := by
  have hsplit := List.takeWhile_append_dropWhile (p := (· != '\n')) (l := cs.reverse)
  cases hrest : cs.reverse.dropWhile (· != '\n') with
  | nil =>
    rw [hrest, List.append_nil] at hsplit
    exact Or.inl (by rw [lastLine, hsplit, List.reverse_reverse])
  | cons c rest =>
    have hc : c = '\n' := by
      have := List.head?_dropWhile_not (· != '\n') cs.reverse
      rw [hrest] at this
      simpa using this
    subst hc
    have hcs := congrArg List.reverse hsplit
    rw [hrest, List.reverse_reverse, List.reverse_append, List.reverse_cons, List.append_assoc,
      List.singleton_append] at hcs
    exact Or.inr ⟨rest.reverse, hcs.symm⟩

theorem startsAfter_of_not_mem (h : '\n' ∉ cs) (pos : Nat) : LineIndex.startsAfter pos cs = [] := by
  rw [← List.length_eq_zero_iff, length_startsAfter]
  exact List.count_eq_zero.mpr h

/-- The last line begins at the last line start. -/
theorem exists_front (cs : List Char) :
    ∃ front, cs = front ++ lastLine cs ∧
      (LineIndex.ofText cs).starts.getLast? = some (byteLength front) := by
  have hlast := startsAfter_of_not_mem (lf_not_mem_lastLine cs)
  have hcases := exists_lastLine cs
  generalize lastLine cs = last at hlast hcases ⊢
  rcases hcases with rfl | ⟨front, rfl⟩
  · refine ⟨[], rfl, ?_⟩
    rw [LineIndex.ofText, hlast]
    rfl
  · refine ⟨front ++ ['\n'], by simp, ?_⟩
    have hstarts : (LineIndex.ofText (front ++ '\n' :: last)).starts =
        (0 :: LineIndex.startsAfter 0 front) ++ [byteLength (front ++ ['\n'])] := by
      rw [LineIndex.ofText, startsAfter_append, LineIndex.startsAfter, if_pos rfl, hlast,
        byteLength_append, Nat.zero_add]
      rfl
    rw [hstarts, List.getLast?_concat]

/-- Characters that hold no line feed lengthen the last line. -/
theorem lastLine_append_of_not_mem (h : '\n' ∉ bs) : lastLine (as ++ bs) = lastLine as ++ bs := by
  have hall : ∀ c ∈ bs.reverse, (c != '\n') = true := by
    intro c hc
    rw [bne_iff_ne]
    rintro rfl
    exact h (List.mem_reverse.mp hc)
  rw [lastLine, List.reverse_append, List.takeWhile_append_of_pos hall, List.reverse_append,
    List.reverse_reverse, lastLine]

/-! ## Positions -/

/-- **The position of an offset** is counted in what comes before it. -/
theorem position_of_cutAt (h : CutAt offset cs before after) :
    positionOf cs offset = ⟨before.count '\n', (lastLine before).length⟩ := by
  have hclamp : LineIndex.clamp cs offset = byteLength before := by
    rw [LineIndex.clamp, h.splitBytes_eq]
  obtain ⟨front, hfront, hstart⟩ := exists_front before
  have hlength := congrArg byteLength hfront
  rw [byteLength_append] at hlength
  have hreached : (LineIndex.ofText cs).starts.takeWhile (· ≤ byteLength before) =
      (LineIndex.ofText before).starts := by
    rw [h.eq, takeWhile_starts]
  -- from the last line start on, the text goes on with the last line
  have hslice : sliceBytes (byteLength front) (byteLength before) cs = lastLine before := by
    have hcs : cs = front ++ (lastLine before ++ after) := by
      rw [← List.append_assoc, ← hfront, h.eq]
    rw [sliceBytes, hcs, splitBytes_byteLength, hlength, Nat.add_sub_cancel_left,
      splitBytes_byteLength]
  have hcount : (LineIndex.ofText before).starts.length - 1 = before.count '\n' := by
    rw [length_starts, Nat.add_sub_cancel]
  rw [positionOf, LineIndex.position]
  simp only [hclamp, hreached, hstart, Option.getD_some, hslice, hcount]

theorem notAfter_of_append (before between : List Char) :
    Position.NotAfter ⟨before.count '\n', (lastLine before).length⟩
      ⟨(before ++ between).count '\n', (lastLine (before ++ between)).length⟩ := by
  rw [Position.NotAfter, List.count_append]
  by_cases h : '\n' ∈ between
  · have := List.count_pos_iff.mpr h
    exact Or.inl (by simp only; omega)
  · rw [List.count_eq_zero.mpr h, lastLine_append_of_not_mem h, List.length_append]
    exact Or.inr ⟨rfl, Nat.le_add_right _ _⟩

/-- **Positions are counted from the head of the text.**  Every text can be cut at every offset: the
first part holds the characters that end at or before the offset, or the whole text if the offset lies
behind it.  The line is the number of line feeds of the first part, and the character the number of
characters behind the last of them.  The line starts ascend, and those that are not after the first
part are the starts of the lines up to this one, however they are searched for.  A later offset has no
earlier position. -/
theorem positions_counted (cs : List Char) :
    (∀ offset, ∃ before after, CutAt offset cs before after ∧
      positionOf cs offset = ⟨before.count '\n', (lastLine before).length⟩ ∧
      ∀ n start, (LineIndex.ofText cs).starts[n]? = some start →
        (start ≤ byteLength before ↔ n ≤ (positionOf cs offset).line)) ∧
    (LineIndex.ofText cs).starts.Pairwise (· < ·) ∧
    ∀ offset offset', offset ≤ offset' →
      (positionOf cs offset).NotAfter (positionOf cs offset') := by
  refine ⟨fun offset => ?_, pairwise_starts cs, fun offset offset' hle => ?_⟩
  · have hcut := cutAt_splitBytes offset cs
    refine ⟨_, _, hcut, position_of_cutAt hcut, fun n start hstart => ?_⟩
    rw [hcut.eq] at hstart
    rw [position_of_cutAt hcut]
    exact le_iff_of_getElem?_starts hstart
  · have hcut := cutAt_splitBytes offset cs
    have hcut' := cutAt_splitBytes offset' cs
    obtain ⟨between, hbetween⟩ := hcut.exists_append hcut' hle
    rw [position_of_cutAt hcut, position_of_cutAt hcut', hbetween]
    exact notAfter_of_append _ between

/-- An offset inside a character belongs to the start of it. -/
example : positionOf "é\nü".toList 4 = ⟨1, 0⟩ := by decide

end TypeScriptEngine.Text
