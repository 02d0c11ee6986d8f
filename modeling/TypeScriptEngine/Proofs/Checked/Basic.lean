import TypeScriptEngine.Proofs.Emit.Reduction

/-! # Operations that can fail

Some operations of a program are not defined for all their arguments: a subtraction of unsigned
numbers, an access by index, a slice of a text.  A `Checked` computation tests the arguments of each
such operation and ends with a `Fault` where they do not fit.  The same goes for a loop, each turn
of which has to move on.

The **checked form** of a function is written in the steps of an implementation, with an operation
of this module for each one that can fail; what cannot fail it takes over from the function.  That
it ends without a fault, and with what the function yields, is the correctness of its index
arithmetic.
-/

namespace TypeScriptEngine

open TypeScriptEngine.Text

/-- What goes wrong where the arguments of an operation do not fit. -/
inductive Fault where
  /-- A number is subtracted from a smaller one. -/
  | underflow
  /-- An index is past the end. -/
  | index
  /-- The bounds of a slice are in the wrong order, outside the text or inside a character. -/
  | slice
  /-- A turn of a loop does not move on. -/
  | standstill
deriving DecidableEq, Repr

/-- A computation whose operations are tested. -/
abbrev Checked (α : Type) := Except Fault α

namespace Checked

variable {α β : Type}

@[simp] theorem ok_bind (a : α) (f : α → Checked β) : (Except.ok a >>= f) = f a := rfl

@[simp] theorem ok_map (f : α → β) (a : α) : (f <$> (Except.ok a : Checked α)) = .ok (f a) := rfl

@[simp] theorem pure_eq_ok (a : α) : (pure a : Checked α) = .ok a := rfl

/-! ## Numbers -/

/-- The difference of two unsigned numbers. -/
def sub (a b : Nat) : Checked Nat := if b ≤ a then .ok (a - b) else .error .underflow

theorem sub_eq_ok {a b : Nat} (h : b ≤ a) : sub a b = .ok (a - b) := if_pos h

@[simp] theorem sub_add (a b : Nat) : sub (a + b) b = .ok a := by
  rw [sub_eq_ok (Nat.le_add_left b a), Nat.add_sub_cancel]

/-- The index `n` places before `i`, where a test keeps it from going below zero. -/
def back (i n : Nat) : Checked (Option Nat) :=
  if n ≤ i then some <$> sub i n else .ok none

theorem back_eq_ok (i n : Nat) : back i n = .ok (if n ≤ i then some (i - n) else none) := by
  unfold back
  split
  · rename_i h
    rw [sub_eq_ok h, ok_map]
  · rfl

@[simp] theorem back_zero : back 0 1 = .ok none := rfl

@[simp] theorem back_succ (i : Nat) : back (i + 1) 1 = .ok (some i) := by
  rw [back_eq_ok, if_pos (Nat.le_add_left 1 i), Nat.add_sub_cancel]

/-! ## Indices -/

/-- What an access by index finds. -/
def entry (x? : Option α) : Checked α := x?.elim (.error .index) .ok

@[simp] theorem entry_some (a : α) : entry (some a) = .ok a := rfl

/-- The bounds of a range of the entries of an array. -/
def range (first stop size : Nat) : Checked Unit :=
  if first ≤ stop ∧ stop ≤ size then .ok () else .error .index

theorem range_eq_ok {first stop size : Nat} (h : first ≤ stop) (h' : stop ≤ size) :
    range first stop size = .ok () := if_pos ⟨h, h'⟩

/-! ## Slices -/

/-- The text between two byte positions, which must lie between characters. -/
def slice (start stop : Nat) (text : List Char) : Checked (List Char) :=
  let (before, rest) := splitBytes start text
  let (part, _) := splitBytes (stop - start) rest
  if start ≤ stop ∧ byteLength before = start ∧ byteLength part = stop - start then .ok part
  else .error .slice

/-- **A slice is a part of the text,** and any part of it is a slice. -/
theorem slice_eq_ok_iff {start stop : Nat} {text part : List Char} :
    slice start stop text = .ok part ↔
      ∃ before after, text = before ++ part ++ after ∧ start = byteLength before ∧
        stop = byteLength (before ++ part) := by
  constructor
  · intro h
    unfold slice at h
    simp only at h
    split at h
    · rename_i hfits
      obtain ⟨hle, hbefore, hpart⟩ := hfits
      obtain rfl := Except.ok.inj h
      refine ⟨_, (splitBytes (stop - start) (splitBytes start text).2).2, ?_, hbefore.symm, ?_⟩
      · rw [List.append_assoc, splitBytes_append, splitBytes_append]
      · rw [byteLength_append, hbefore, hpart, Nat.add_sub_cancel' hle]
    · contradiction
  · rintro ⟨before, after, rfl, rfl, rfl⟩
    have hle : byteLength before ≤ byteLength (before ++ part) := by
      rw [byteLength_append]
      exact Nat.le_add_right ..
    simp only [slice, List.append_assoc, splitBytes_byteLength, byteLength_append,
      Nat.add_sub_cancel_left]
    simp

theorem slice_append (before part after : List Char) :
    slice (byteLength before) (byteLength (before ++ part)) (before ++ part ++ after) = .ok part :=
  slice_eq_ok_iff.mpr ⟨before, after, rfl, rfl, rfl⟩

/-- The rest of a text. -/
theorem slice_rest (before rest : List Char) :
    slice (byteLength before) (byteLength (before ++ rest)) (before ++ rest) = .ok rest :=
  slice_eq_ok_iff.mpr ⟨before, [], (List.append_nil _).symm, rfl, rfl⟩

end Checked

end TypeScriptEngine
