import Mathlib.Data.List.Basic
import TypeScriptEngine.Text.Split

/-! # Splitting texts that were put together

Parts without the separator are found again where they were put together with it.
-/

namespace TypeScriptEngine.Text

theorem splitOn_of_not_mem {sep : Char} {part : List Char} (h : sep ∉ part) :
    splitOn sep part = [part] := by
  induction part with
  | nil => rfl
  | cons c cs ih =>
    obtain ⟨hc, hcs⟩ := not_or.mp (fun hm => h (List.mem_cons.mpr hm))
    rw [splitOn, if_neg (Ne.symm hc), ih hcs]

/-- Texts with a separator between them are split apart there. -/
theorem splitOn_append_cons (sep : Char) (cs rest : List Char) :
    splitOn sep (cs ++ sep :: rest) = splitOn sep cs ++ splitOn sep rest := by
  induction cs with
  | nil =>
    show splitOn sep (sep :: rest) = [] :: splitOn sep rest
    rw [splitOn, if_pos rfl]
  | cons c cs ih =>
    by_cases hc : c = sep
    · rw [List.cons_append, splitOn, if_pos hc, ih, splitOn, if_pos hc, List.cons_append]
    · rw [List.cons_append, splitOn, if_neg hc, ih, splitOn, if_neg hc]
      cases hcs : splitOn sep cs with
      | nil => exact absurd hcs (splitOn_ne_nil sep cs)
      | cons part parts => rfl

theorem splitOn_append_sep {sep : Char} {part : List Char} (h : sep ∉ part) (rest : List Char) :
    splitOn sep (part ++ sep :: rest) = part :: splitOn sep rest := by
  rw [splitOn_append_cons, splitOn_of_not_mem h, List.singleton_append]

/-- Parts that follow separators are found again. -/
theorem splitOn_append_flatMap {sep : Char} {part : List Char} {parts : List (List Char)}
    (h : sep ∉ part) (hs : ∀ p ∈ parts, sep ∉ p) :
    splitOn sep (part ++ parts.flatMap fun p => sep :: p) = part :: parts := by
  induction parts generalizing part with
  | nil => rw [List.flatMap_nil, List.append_nil, splitOn_of_not_mem h]
  | cons p parts ih =>
    rw [List.flatMap_cons, List.cons_append, splitOn_append_sep h,
      ih (hs p (List.mem_cons_self ..)) fun q hq => hs q (List.mem_cons_of_mem _ hq)]

/-- What stands before the first part belongs to it. -/
theorem splitOn_append_of_not_mem {sep : Char} {before cs part : List Char}
    {parts : List (List Char)} (h : sep ∉ before) (hcs : splitOn sep cs = part :: parts) :
    splitOn sep (before ++ cs) = (before ++ part) :: parts := by
  induction before with
  | nil => exact hcs
  | cons c before ih =>
    obtain ⟨hc, hbefore⟩ := not_or.mp (fun hm => h (List.mem_cons.mpr hm))
    rw [List.cons_append, splitOn, if_neg (Ne.symm hc), ih hbefore]
    rfl

/-- What stands behind the last separator is the end of the last part. -/
theorem splitOn_append_last {sep : Char} (cs : List Char) {last : List Char} (h : sep ∉ last) :
    ∃ parts part, sep ∉ part ∧ splitOn sep (cs ++ last) = parts ++ [part ++ last] := by
  induction cs with
  | nil => exact ⟨[], [], List.not_mem_nil, splitOn_of_not_mem h⟩
  | cons c cs ih =>
    obtain ⟨parts, part, hpart, he⟩ := ih
    by_cases hc : c = sep
    · refine ⟨[] :: parts, part, hpart, ?_⟩
      rw [List.cons_append, splitOn, if_pos hc, he, List.cons_append]
    · cases parts with
      | nil =>
        refine ⟨[], c :: part, ?_, ?_⟩
        · rw [List.mem_cons, not_or]
          exact ⟨Ne.symm hc, hpart⟩
        · rw [List.cons_append, splitOn, if_neg hc, he]
          rfl
      | cons first parts =>
        refine ⟨(c :: first) :: parts, part, hpart, ?_⟩
        rw [List.cons_append, splitOn, if_neg hc, he]
        rfl

/-- Parts with a separator behind each are found again, in front of an empty one. -/
theorem splitOn_flatMap_append {sep : Char} {parts : List (List Char)}
    (h : ∀ part ∈ parts, sep ∉ part) :
    splitOn sep (parts.flatMap (· ++ [sep])) = parts ++ [[]] := by
  induction parts with
  | nil => rfl
  | cons part parts ih =>
    rw [List.flatMap_cons, List.append_assoc, List.singleton_append,
      splitOn_append_sep (h part (List.mem_cons_self ..)),
      ih fun p hp => h p (List.mem_cons_of_mem _ hp), List.cons_append]

end TypeScriptEngine.Text
