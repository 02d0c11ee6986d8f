/-!
# Splitting texts

A text is split at every occurrence of a separator, so that it has one part more than separators,
and joining the parts gives it back (`joinWith_splitOn`).  Lines are the parts between line feeds.
-/

namespace TypeScriptEngine.Text

/-- The parts of a text between the occurrences of a separator. -/
def splitOn (sep : Char) : List Char → List (List Char)
  | [] => [[]]
  | c :: cs =>
    if c = sep then [] :: splitOn sep cs
    else match splitOn sep cs with
      | [] => [[c]]
      | part :: parts => (c :: part) :: parts

/-- Parts with a separator between them. -/
def joinWith (sep : List Char) : List (List Char) → List Char
  | [] => []
  | [part] => part
  | part :: next :: parts => part ++ sep ++ joinWith sep (next :: parts)

theorem splitOn_ne_nil (sep : Char) (cs : List Char) : splitOn sep cs ≠ [] := by
  cases cs with
  | nil => simp [splitOn]
  | cons c cs =>
    simp only [splitOn]
    split
    · simp
    · split <;> simp

/-- A text has one part more than separators. -/
theorem length_splitOn (sep : Char) (cs : List Char) :
    (splitOn sep cs).length = cs.count sep + 1 := by
  induction cs with
  | nil => rfl
  | cons c cs ih =>
    by_cases hc : c = sep
    · simp [splitOn, hc, ih]
    · simp only [splitOn, hc, if_false]
      split
      · next h => exact absurd h (splitOn_ne_nil sep cs)
      · next h => simp [h, hc] at ih ⊢; exact ih

/-- **Splitting loses nothing but the separators.** -/
theorem joinWith_splitOn (sep : Char) (cs : List Char) : joinWith [sep] (splitOn sep cs) = cs := by
  induction cs with
  | nil => rfl
  | cons c cs ih =>
    simp only [splitOn]
    split
    · next hc =>
      subst hc
      cases h : splitOn c cs with
      | nil => exact absurd h (splitOn_ne_nil c cs)
      | cons part parts => rw [h] at ih; simp [joinWith, ih]
    · split
      · next h => exact absurd h (splitOn_ne_nil sep cs)
      · next part parts h =>
        rw [h] at ih
        cases parts with
        | nil => simpa [joinWith] using ih
        | cons next parts => simp [joinWith] at ih ⊢; exact ih

/-- No part holds the separator. -/
theorem not_mem_of_mem_splitOn {sep : Char} {cs part : List Char} (h : part ∈ splitOn sep cs) :
    sep ∉ part := by
  induction cs generalizing part with
  | nil => simp [splitOn] at h; simp [h]
  | cons c cs ih =>
    simp only [splitOn] at h
    split at h
    · rcases List.mem_cons.1 h with h | h
      · simp [h]
      · exact ih h
    · next hc =>
      split at h
      · next hn => exact absurd hn (splitOn_ne_nil sep cs)
      · next first parts hf =>
        rw [hf] at ih
        rcases List.mem_cons.1 h with h | h
        · have := ih (List.mem_cons_self)
          simp only [h, List.mem_cons, not_or]
          exact ⟨fun he => hc he.symm, this⟩
        · exact ih (List.mem_cons_of_mem _ h)

/-- The lines of a text, without their line feeds. -/
def lines (cs : List Char) : List (List Char) := splitOn '\n' cs

/-- The lines of a text with their line feeds.  What follows the last line feed is a line only if it
is not empty. -/
def fullLines : List Char → List (List Char)
  | [] => []
  | c :: cs =>
    if c = '\n' then [c] :: fullLines cs
    else match fullLines cs with
      | [] => [[c]]
      | line :: lines => (c :: line) :: lines

/-- The number of line feeds of a text. -/
def lineBreaks (cs : List Char) : Nat := cs.count '\n'

end TypeScriptEngine.Text
