/-!
# Texts measured in bytes

Positions in a source text are counted in bytes of its UTF-8 form, while the text itself is walked
character by character.  This module holds the measure, the cut at a byte position, and the facts
that make the two views agree.
-/

namespace TypeScriptEngine.Text

/-- The number of bytes of a text in UTF-8. -/
def byteLength : List Char → Nat
  | [] => 0
  | c :: cs => c.utf8Size + byteLength cs

@[simp] theorem byteLength_nil : byteLength [] = 0 := rfl

@[simp] theorem byteLength_cons (c : Char) (cs : List Char) :
    byteLength (c :: cs) = c.utf8Size + byteLength cs := rfl

@[simp] theorem byteLength_append (as bs : List Char) :
    byteLength (as ++ bs) = byteLength as + byteLength bs := by
  induction as with
  | nil => simp
  | cons c cs ih => simp [ih, Nat.add_assoc]

/-- Every character takes at least one byte. -/
theorem utf8Size_pos (c : Char) : 0 < c.utf8Size := Char.utf8Size_pos c

theorem length_le_byteLength (cs : List Char) : cs.length ≤ byteLength cs := by
  induction cs with
  | nil => simp
  | cons c cs ih => have := utf8Size_pos c; simp; omega

/-- Cuts a text after its first `n` bytes.  A character that straddles the cut goes to the second
part. -/
def splitBytes : Nat → List Char → List Char × List Char
  | _, [] => ([], [])
  | n, c :: cs =>
    if c.utf8Size ≤ n then
      let (before, after) := splitBytes (n - c.utf8Size) cs
      (c :: before, after)
    else ([], c :: cs)

/-- Cutting loses nothing. -/
theorem splitBytes_append (n : Nat) (cs : List Char) :
    (splitBytes n cs).1 ++ (splitBytes n cs).2 = cs := by
  induction cs generalizing n with
  | nil => simp [splitBytes]
  | cons c cs ih => simp only [splitBytes]; split <;> simp [ih]

/-- The first part of a cut never exceeds its budget. -/
theorem byteLength_splitBytes (n : Nat) (cs : List Char) :
    byteLength (splitBytes n cs).1 ≤ n := by
  induction cs generalizing n with
  | nil => simp [splitBytes]
  | cons c cs ih =>
    simp only [splitBytes]
    split
    · have := ih (n - c.utf8Size); simp; omega
    · simp

/-- **A cut at the end of a leading part is exact.** -/
theorem splitBytes_byteLength (as bs : List Char) :
    splitBytes (byteLength as) (as ++ bs) = (as, bs) := by
  induction as with
  | nil =>
    cases bs with
    | nil => rfl
    | cons c cs => simp [splitBytes, Nat.not_le.mpr (utf8Size_pos c)]
  | cons c cs ih => simp [splitBytes, ih]

/-- The text between two byte positions. -/
def sliceBytes (start stop : Nat) (cs : List Char) : List Char :=
  (splitBytes (stop - start) (splitBytes start cs).2).1

end TypeScriptEngine.Text
