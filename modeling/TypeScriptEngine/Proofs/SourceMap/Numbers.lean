import Mathlib.Algebra.Group.Int.Defs
import TypeScriptEngine.Proofs.SourceMap.Decode

/-! # Numbers of 64 bits in mappings

A number is written by a loop over its word: the lowest five bits are a digit, the word is shifted,
and nothing more comes when it is zero (`Writes`).  The shift keeps the sign, so that the loop ends
just if the word is not negative, with the digits of the word (`writes_iff`).  Digits say where they
end, and can be read back from among others (`decode?_digits`).

The word of a number has the number and its sign in it as long as the magnitude fits into 62 bits.
The other numbers have negative words, except for the least one, whose word is that of a zero with a
sign.  So a list of numbers is read back as it was written just if all of them fit
(`numbers_read_back`).
-/

namespace TypeScriptEngine.Vlq

/-! ## Words -/

/-- A word as a number with its sign, and as one without. -/
theorem toInt_eq (n : Int64) : n.toInt =
    if n.toBitVec.toNat < 2 ^ 63 then (n.toBitVec.toNat : Int) else n.toBitVec.toNat - 2 ^ 64 := by
  rw [← Int64.toInt_toBitVec, BitVec.toInt_eq_toNat_cond]
  split <;> split <;> omega

theorem toNat_shiftLeft_one (n : Int64) :
    (n <<< 1).toBitVec.toNat = 2 * n.toBitVec.toNat % 2 ^ 64 := by
  rw [Int64.toBitVec_shiftLeft]
  show (n.toBitVec <<< 1).toNat = _
  rw [BitVec.toNat_shiftLeft, Nat.shiftLeft_eq, Nat.pow_one, Nat.mul_comm]

/-- The bit that a shift has made free can be set by an addition. -/
theorem toNat_shiftLeft_or_one (n : Int64) :
    (n <<< 1 ||| 1).toBitVec.toNat = 2 * n.toBitVec.toNat % 2 ^ 64 + 1 := by
  rw [Int64.toBitVec_or, BitVec.toNat_or, toNat_shiftLeft_one]
  have hor := Nat.two_pow_add_eq_or_of_lt (i := 1) (b := 1) (by decide)
    (2 * n.toBitVec.toNat % 2 ^ 64 / 2)
  have heven : 2 ^ 1 * (2 * n.toBitVec.toNat % 2 ^ 64 / 2) = 2 * n.toBitVec.toNat % 2 ^ 64 := by
    omega
  rw [heven] at hor
  exact hor.symm

theorem toNat_neg (n : Int64) : (-n).toBitVec.toNat = (2 ^ 64 - n.toBitVec.toNat) % 2 ^ 64 := by
  rw [Int64.toBitVec_neg, BitVec.toNat_neg]

/-- A shift to the right keeps the sign. -/
theorem toInt_shiftRight_five (n : Int64) : (n >>> 5).toInt = n.toInt / 32 := by
  rw [← Int64.toInt_toBitVec, Int64.toBitVec_shiftRight]
  show (n.toBitVec.sshiftRight 5).toInt = _
  rw [BitVec.toInt_sshiftRight, Int.shiftRight_eq_div_pow]
  rfl

/-- The lowest five bits of a word that is not negative. -/
theorem toInt_and_lowest {n : Int64} (h : 0 ≤ n.toInt) : (n &&& 31).toInt = n.toInt % 32 := by
  have hbits : (n &&& 31).toBitVec.toNat = n.toBitVec.toNat % 32 := by
    rw [Int64.toBitVec_and, BitVec.toNat_and]
    exact Nat.and_two_pow_sub_one_eq_mod _ 5
  have hsmall : n.toBitVec.toNat < 2 ^ 63 := by
    have := n.toBitVec.isLt
    rw [toInt_eq] at h
    split at h <;> omega
  rw [toInt_eq, toInt_eq, hbits, if_pos hsmall, if_pos (by omega)]
  omega

/-- **The word of a number** holds its magnitude and its sign if the magnitude fits.  The word of the
least number is one, and those of the other numbers are negative. -/
theorem toInt_wordOf (n : Int64) :
    (n.toInt.natAbs < 2 ^ 62 →
      (wordOf n).toInt = 2 * n.toInt.natAbs + if n.toInt < 0 then 1 else 0) ∧
    (n = Int64.minValue → (wordOf n).toInt = 1) ∧
    (2 ^ 62 ≤ n.toInt.natAbs → n ≠ Int64.minValue → (wordOf n).toInt < 0) := by
  have hmin : n = Int64.minValue ↔ n.toInt = -2 ^ 63 := by
    rw [← Int64.toInt_inj, Int64.toInt_minValue]
  have hsign : n < 0 ↔ n.toInt < 0 := Int64.lt_iff_toInt_lt
  have hlt := n.toBitVec.isLt
  have hn := toInt_eq n
  rw [Ne, hmin, toInt_eq (wordOf n)]
  by_cases hneg : n.toInt < 0
  · have hword : (wordOf n).toBitVec.toNat =
        2 * ((2 ^ 64 - n.toBitVec.toNat) % 2 ^ 64) % 2 ^ 64 + 1 := by
      rw [wordOf, if_pos (hsign.mpr hneg), toNat_shiftLeft_or_one, toNat_neg]
    rw [hword, if_pos hneg]
    split at hn <;> refine ⟨fun h => ?_, fun h => ?_, fun h h' => ?_⟩ <;> split <;> omega
  · have hword : (wordOf n).toBitVec.toNat = 2 * n.toBitVec.toNat % 2 ^ 64 := by
      rw [wordOf, if_neg (mt hsign.mp hneg), toNat_shiftLeft_one]
    rw [hword, if_neg hneg]
    split at hn <;> refine ⟨fun h => ?_, fun h => ?_, fun h h' => ?_⟩ <;> split <;> omega

/-! ## Writing -/

/-- The digit of the lowest five bits of a word, with a sixth bit if more than zero is left when the
word is shifted. -/
def lowDigit (word : Int64) : Nat :=
  (word &&& 31).toNatClampNeg ||| if (0 : Int64) < word >>> 5 then 32 else 0

/-- **The loop that writes a word:** a digit, and then what is left of the word, until that is
zero. -/
inductive Writes : Int64 → List Char → Prop where
  | last {word : Int64} : word >>> 5 = 0 → Writes word [digitChar (lowDigit word)]
  | more {word : Int64} {cs : List Char} : word >>> 5 ≠ 0 → Writes (word >>> 5) cs →
      Writes word (digitChar (lowDigit word) :: cs)

theorem shiftRight_eq_zero_iff {word : Int64} :
    word >>> 5 = 0 ↔ 0 ≤ word.toInt ∧ word.toInt < 32 := by
  rw [← Int64.toInt_inj, toInt_shiftRight_five, Int64.toInt_zero]
  omega

theorem lowDigit_eq {word : Int64} (h : 0 ≤ word.toInt) :
    lowDigit word = word.toInt.toNat % 32 + if word.toInt < 32 then 0 else 32 := by
  have hlow : (word &&& 31).toNatClampNeg = word.toInt.toNat % 32 := by
    rw [Int64.toNatClampNeg, toInt_and_lowest h]
    omega
  have hmore : (0 : Int64) < word >>> 5 ↔ ¬ word.toInt < 32 := by
    rw [Int64.lt_iff_toInt_lt, toInt_shiftRight_five, Int64.toInt_zero]
    omega
  rw [lowDigit, hlow]
  by_cases hlt : word.toInt < 32
  · rw [if_neg (fun hpos => hmore.mp hpos hlt), if_pos hlt, Nat.or_zero, Nat.add_zero]
  · have hor := Nat.two_pow_add_eq_or_of_lt (i := 5) (b := word.toInt.toNat % 32)
      (Nat.mod_lt _ (by decide)) 1
    rw [if_pos (hmore.mpr hlt), if_neg hlt, Nat.or_comm, Nat.add_comm]
    exact hor.symm

/-- A word that is not negative is written with its digits. -/
theorem writes_digits {word : Int64} (h : 0 ≤ word.toInt) :
    Writes word ((digits word.toInt.toNat).map digitChar) := by
  -- the induction is on what is left of the word
  induction hn : word.toInt.toNat using Nat.strongRecOn generalizing word with
  | ind n ih =>
    have hdigit := lowDigit_eq h
    have hrest := toInt_shiftRight_five word
    rw [digits]
    by_cases hlt : n < 32
    · have hlow : lowDigit word = n := by
        rw [hdigit, if_pos (by omega)]
        omega
      rw [if_pos hlt, List.map_singleton, ← hlow]
      exact .last (shiftRight_eq_zero_iff.mpr (by omega))
    · have hlow : lowDigit word = 32 + n % 32 := by
        rw [hdigit, if_neg (by omega)]
        omega
      rw [if_neg hlt, List.map_cons, ← hlow]
      refine .more (fun hzero => ?_) (ih (n / 32) (by omega) (by omega) (by omega))
      have := shiftRight_eq_zero_iff.mp hzero
      omega

/-- What is written is determined by the word. -/
theorem Writes.unique {word : Int64} {cs ds : List Char} (h : Writes word cs)
    (h' : Writes word ds) : cs = ds := by
  induction h generalizing ds with
  | last hzero =>
    cases h' with
    | last => rfl
    | more hne => exact absurd hzero hne
  | more hne _ ih =>
    cases h' with
    | last hzero => exact absurd hzero hne
    | more _ hrest => rw [ih hrest]

/-- A negative word stays negative, and its loop never ends. -/
theorem Writes.nonneg {word : Int64} {cs : List Char} (h : Writes word cs) : 0 ≤ word.toInt := by
  induction h with
  | last hzero => exact (shiftRight_eq_zero_iff.mp hzero).1
  | more _ _ ih =>
    rw [toInt_shiftRight_five] at ih
    omega

/-- **The loop ends just if the word is not negative,** and has then written its digits. -/
theorem writes_iff {word : Int64} {cs : List Char} :
    Writes word cs ↔ 0 ≤ word.toInt ∧ cs = (digits word.toInt.toNat).map digitChar := by
  constructor
  · exact fun h => ⟨h.nonneg, h.unique (writes_digits h.nonneg)⟩
  · rintro ⟨h, rfl⟩
    exact writes_digits h

/-- A number has the text that the loop writes. -/
theorem encode?_eq_some_iff {value : Int64} {cs : List Char} :
    encode? value = some cs ↔ Writes (wordOf value) cs := by
  have hneg : wordOf value < 0 ↔ ¬ 0 ≤ (wordOf value).toInt := by
    rw [Int64.lt_iff_toInt_lt, Int64.toInt_zero, Int.not_le]
  rw [writes_iff, encode?]
  split
  · rename_i h
    exact ⟨fun h' => by contradiction, fun h' => absurd h'.1 (hneg.mp h)⟩
  · rename_i h
    have hnonneg : 0 ≤ (wordOf value).toInt := not_not.mp (mt hneg.mpr h)
    rw [Option.some_inj, Int64.toNatClampNeg]
    exact ⟨fun h' => ⟨hnonneg, h'.symm⟩, fun h' => h'.2.symm⟩

/-! ## Reading -/

theorem digitOf?_digitChar {digit : Nat} (h : digit < 64) :
    digitOf? (digitChar digit) = some digit := by
  have hall : ∀ digit < 64, digitOf? (digitChar digit) = some digit := by decide +kernel
  exact hall digit h

/-- The digits of a word are read up to the last one, in whatever place the first one is. -/
theorem decodeFrom?_digits (shift before word : Nat) (rest : List Char) :
    decodeFrom? shift before ((digits word).map digitChar ++ rest) =
      (decode? rest).map (numberOf (before + word * 2 ^ shift) :: ·) := by
  induction word using digits.induct generalizing shift before with
  | case1 word hlt =>
    rw [digits, if_pos hlt, List.map_singleton, List.singleton_append, decodeFrom?,
      digitOf?_digitChar (by omega)]
    simp only [Option.bind_eq_bind, Option.bind_some, if_pos hlt]
    exact Option.map_eq_bind.symm
  | case2 word hge ih =>
    have hdigit : 32 + word % 32 < 64 := by omega
    have hplaces : before + (32 + word % 32 - 32) * 2 ^ shift + word / 32 * 2 ^ (shift + 5) =
        before + word * 2 ^ shift := by
      rw [Nat.pow_add, Nat.add_assoc, Nat.mul_comm (2 ^ shift), ← Nat.mul_assoc, ← Nat.add_mul]
      congr 2
      omega
    rw [digits, if_neg hge, List.map_cons, List.cons_append, decodeFrom?,
      digitOf?_digitChar hdigit]
    simp only [Option.bind_eq_bind, Option.bind_some]
    rw [if_neg (by omega), ih, hplaces]

/-- **Digits are read back from in front of others.** -/
theorem decode?_digits (word : Nat) (rest : List Char) :
    decode? ((digits word).map digitChar ++ rest) =
      (decode? rest).map (numberOf word :: ·) := by
  have h := decodeFrom?_digits 0 0 word rest
  rwa [Nat.zero_add, Nat.pow_zero, Nat.mul_one] at h

/-- What a number is read back as. -/
def readBack (value : Int64) : Int := if value = Int64.minValue then 0 else value.toInt

theorem numberOf_wordOf {value : Int64} (h : 0 ≤ (wordOf value).toInt) :
    numberOf (wordOf value).toInt.toNat = readBack value := by
  obtain ⟨hfits, hmin, hother⟩ := toInt_wordOf value
  rw [readBack]
  by_cases hvalue : value = Int64.minValue
  · rw [if_pos hvalue, hmin hvalue]
    rfl
  · have hsmall : value.toInt.natAbs < 2 ^ 62 := by
      by_contra hlarge
      have := hother (Nat.le_of_not_lt hlarge) hvalue
      omega
    rw [if_neg hvalue, hfits hsmall, numberOf]
    split <;> split <;> omega

/-! ## Lists of numbers -/

/-- The texts of some numbers, one behind the other. -/
def encodeAll? (values : List Int64) : Option (List Char) :=
  (values.mapM encode?).map List.flatten

theorem encodeAll?_cons (value : Int64) (values : List Int64) :
    encodeAll? (value :: values) =
      (encode? value).bind fun text => (encodeAll? values).map (text ++ ·) := by
  rw [encodeAll?, List.mapM_cons]
  cases encode? value with
  | none => rfl
  | some text =>
    rw [encodeAll?]
    cases values.mapM encode? <;> rfl

/-- A number is written to an end just if its magnitude fits, or if it is the least one. -/
theorem exists_encode?_iff (value : Int64) :
    (∃ text, encode? value = some text) ↔
      value.toInt.natAbs < 2 ^ 62 ∨ value = Int64.minValue := by
  obtain ⟨hfits, hmin, hother⟩ := toInt_wordOf value
  simp only [encode?_eq_some_iff, writes_iff, exists_and_left, exists_eq, and_true]
  constructor
  · intro hnonneg
    by_contra h
    obtain ⟨hlarge, hne⟩ := not_or.mp h
    have := hother (Nat.le_of_not_lt hlarge) hne
    omega
  · rintro (h | h)
    · rw [hfits h]
      split <;> omega
    · rw [hmin h]
      decide

theorem exists_encodeAll?_iff (values : List Int64) :
    (∃ text, encodeAll? values = some text) ↔
      ∀ value ∈ values, value.toInt.natAbs < 2 ^ 62 ∨ value = Int64.minValue := by
  induction values with
  | nil => exact ⟨fun _ => by simp, fun _ => ⟨[], rfl⟩⟩
  | cons value values ih =>
    rw [List.forall_mem_cons, ← exists_encode?_iff, ← ih, encodeAll?_cons]
    constructor
    · rintro ⟨text, h⟩
      obtain ⟨first, hfirst, h⟩ := Option.bind_eq_some_iff.mp h
      obtain ⟨rest, hrest, _⟩ := Option.map_eq_some_iff.mp h
      exact ⟨⟨first, hfirst⟩, rest, hrest⟩
    · rintro ⟨⟨first, hfirst⟩, rest, hrest⟩
      rw [hfirst, hrest]
      exact ⟨first ++ rest, rfl⟩

theorem decode?_of_encodeAll? {values : List Int64} {text : List Char}
    (h : encodeAll? values = some text) : decode? text = some (values.map readBack) := by
  induction values generalizing text with
  | nil =>
    obtain rfl := Option.some.inj h
    rfl
  | cons value values ih =>
    rw [encodeAll?_cons] at h
    obtain ⟨first, hfirst, h⟩ := Option.bind_eq_some_iff.mp h
    obtain ⟨rest, hrest, rfl⟩ := Option.map_eq_some_iff.mp h
    obtain ⟨hnonneg, rfl⟩ := writes_iff.mp (encode?_eq_some_iff.mp hfirst)
    rw [decode?_digits, ih hrest, numberOf_wordOf hnonneg]
    rfl

/-- **Which lists of numbers are read back.**  The text of a number is what the loop over its word
writes.  The loops over the words of some numbers all end just if each number fits into 62 bits and a
sign, or is the least of all; the least one is then read back as zero, and every other number as
itself, wherever it stands.  So the numbers are written to an end and read back just if each of them
fits. -/
theorem numbers_read_back (values : List Int64) :
    (∀ value ∈ values, ∀ text, encode? value = some text ↔ Writes (wordOf value) text) ∧
    ((∃ text, encodeAll? values = some text) ↔
      ∀ value ∈ values, value.toInt.natAbs < 2 ^ 62 ∨ value = Int64.minValue) ∧
    (∀ text, encodeAll? values = some text → decode? text = some (values.map readBack)) ∧
    ((∃ text, encodeAll? values = some text ∧ decode? text = some (values.map Int64.toInt)) ↔
      ∀ value ∈ values, value.toInt.natAbs < 2 ^ 62) := by
  refine ⟨fun _ _ _ => encode?_eq_some_iff, exists_encodeAll?_iff values,
    fun _ => decode?_of_encodeAll?, ?_, fun h => ?_⟩
  · rintro ⟨text, htext, hread⟩ value hvalue
    rcases (exists_encodeAll?_iff values).mp ⟨text, htext⟩ value hvalue with hfits | rfl
    · exact hfits
    · rw [decode?_of_encodeAll? htext, Option.some_inj] at hread
      have hzero := List.map_inj_left.mp hread Int64.minValue hvalue
      rw [readBack, if_pos rfl] at hzero
      exact absurd hzero (by decide)
  · obtain ⟨text, htext⟩ := (exists_encodeAll?_iff values).mpr fun value hv => Or.inl (h value hv)
    refine ⟨text, htext, ?_⟩
    rw [decode?_of_encodeAll? htext, Option.some_inj]
    refine List.map_congr_left fun value hvalue => if_neg ?_
    rintro rfl
    exact absurd (h _ hvalue) (by decide)

/-- **The ends of the range are not read back.**  The least number is written as a zero with a sign,
though there are digits that stand for it, and the loop for the least number that does not fit never
ends. -/
theorem least_number_lost :
    encodeAll? [Int64.minValue] = some ['B'] ∧ decode? ['B'] = some [0] ∧
    decode? "hgggggggggggQ".toList = some [Int64.minValue.toInt] ∧
    ∀ text, ¬ Writes (wordOf 0x4000000000000000) text := by
  refine ⟨by decide +kernel, by decide +kernel, by decide +kernel, fun text hwrites => ?_⟩
  exact absurd hwrites.nonneg (by decide +kernel)

end TypeScriptEngine.Vlq
