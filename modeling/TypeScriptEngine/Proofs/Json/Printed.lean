import Mathlib.Data.List.TakeWhile
import Mathlib.Tactic.IntervalCases
import Mathlib.Tactic.SplitIfs
import TypeScriptEngine.Json.Printer
import TypeScriptEngine.Json.Reader

/-! # Reading printed JSON

The compact form of a value is cut into the tokens that the value is made of (`ofText?_compactChars`),
and these are put together to the value again (`Json.parse?_compact`).  Strings may hold anything;
numbers are whole ones that are exact in double precision.
-/

namespace TypeScriptEngine

namespace Json

mutual

/-- Whether a value is read back as it was written. -/
def isPlain : Json → Bool
  | integer n => 0 ≤ n && n < 2 ^ 53
  | fraction _ | unreadable => false
  | array items => arePlain items
  | object fields => areFieldsPlain fields
  | _ => true

/-- Whether several values are read back. -/
def arePlain : List Json → Bool
  | [] => true
  | item :: items => isPlain item && arePlain items

/-- Whether the values of several fields are read back. -/
def areFieldsPlain : List (String × Json) → Bool
  | [] => true
  | (_, value) :: fields => isPlain value && areFieldsPlain fields

end

end Json

namespace JsonToken

open Json (escapeChar hexDigit quote compactChars compactItems compactFields isPlain arePlain
  areFieldsPlain)

/-! ## Strings -/

theorem fourHex?_hexDigit {n : Nat} (h : n < 0x20) (rest : List Char) :
    fourHex? ('0' :: '0' :: hexDigit (n / 16) :: hexDigit (n % 16) :: rest) = some n := by
  have hall : ∀ n < 0x20, hexValue? ['0', '0', hexDigit (n / 16), hexDigit (n % 16)] = some n := by
    decide
  rw [fourHex?, if_pos (by simp)]
  exact hall n h

/-- An escaped character is read as the character. -/
theorem content?_escapeChar (c : Char) (rest : List Char) :
    content? (escapeChar c ++ rest) = (content? rest).map (Content.cons c) := by
  unfold escapeChar
  split_ifs with h1 h2 h3 h4 h5 h6 h7 h8
  · subst h1; simp [content?, simpleEscape?]
  · subst h2; simp [content?, simpleEscape?]
  · subst h3; simp [content?, simpleEscape?]
  · subst h4; simp [content?, simpleEscape?]
  · subst h5; simp [content?, simpleEscape?]
  · subst h6; simp [content?, simpleEscape?]
  · subst h7; simp [content?, simpleEscape?]
  · have hhigh : isHighSurrogate c.toNat = false := by simp [isHighSurrogate]; omega
    have hlow : isLowSurrogate c.toNat = false := by simp [isLowSurrogate]; omega
    simp [content?, fourHex?_hexDigit h8, hhigh, hlow]
  · simp [content?, h2, h8]

/-- **An escaped text is read as the text.** -/
theorem content?_escaped (cs : List Char) : content? (cs.flatMap escapeChar) = some (some cs) := by
  induction cs with
  | nil => simp [content?]
  | cons c cs ih =>
    rw [List.flatMap_cons, content?_escapeChar, ih]
    rfl

theorem quotedLength?_escapeChar (c : Char) (rest : List Char) :
    quotedLength? '"' (escapeChar c ++ rest) =
      (quotedLength? '"' rest).map (· + (escapeChar c).length) := by
  have hdigit : ∀ n < 0x20, hexDigit (n / 16) ≠ '"' ∧ hexDigit (n / 16) ≠ '\\' ∧
      hexDigit (n % 16) ≠ '"' ∧ hexDigit (n % 16) ≠ '\\' := by
    decide
  unfold escapeChar
  split_ifs with h1 h2 h3 h4 h5 h6 h7 h8
  iterate 7 · simp [quotedLength?]
  · obtain ⟨hquote, hslash, hquote', hslash'⟩ := hdigit c.toNat h8
    simp [quotedLength?, hquote, hslash, hquote', hslash', Function.comp_def]
  · simp [quotedLength?, h1, h2]

/-- No escaped text holds the quote that closes it. -/
theorem quotedLength?_escaped (cs rest : List Char) :
    quotedLength? '"' (cs.flatMap escapeChar ++ '"' :: rest) =
      some (cs.flatMap escapeChar).length := by
  induction cs with
  | nil => simp [quotedLength?]
  | cons c cs ih =>
    rw [List.flatMap_cons, List.append_assoc, quotedLength?_escapeChar, ih, List.length_append,
      Option.map_some, Nat.add_comm]

/-! ## Tokens -/

/-- The text begins with a token that covers `body` behind its first character. -/
theorem ofText?_of_cut {c : Char} (body : List Char) {rest : List Char} {t : JsonToken} (hspace : isSpace c = false)
    (hcut : cut? c (body ++ rest) = some ⟨t, body.length⟩) :
    ofText? (c :: (body ++ rest)) = (ofText? rest).map (t :: ·) := by
  rw [ofText?, hspace, hcut]
  simp

theorem ofText?_punctuation {c : Char} {t : JsonToken} (h : ofPunctuation? c = some t)
    (hspace : isSpace c = false) (rest : List Char) :
    ofText? (c :: rest) = (ofText? rest).map (t :: ·) :=
  ofText?_of_cut [] hspace (by simp [cut?, h])

theorem ofText?_quote (text : String) (rest : List Char) :
    ofText? (quote text ++ rest) = (ofText? rest).map (JsonToken.text (some text) :: ·) := by
  have hquote : quote text ++ rest = '"' :: ((text.toList.flatMap escapeChar ++ ['"']) ++ rest) := by
    simp [quote]
  rw [hquote]
  refine ofText?_of_cut _ (by decide) ?_
  have hpunctuation : ofPunctuation? '"' = none := rfl
  rw [cut?, hpunctuation, List.append_assoc, List.singleton_append]
  simp [quotedLength?_escaped, content?_escaped, Content.text]

/-- What can follow a value: nothing, or a comma or closing bracket. -/
def Closed (rest : List Char) : Prop := ∀ c ∈ rest.head?, c ∈ [',', ']', '}']

theorem closed_nil : Closed [] := fun _ h => by contradiction

theorem closed_cons {c : Char} {cs : List Char} (h : c ∈ [',', ']', '}']) : Closed (c :: cs) :=
  fun _ hd => Option.mem_some.mp hd ▸ h

theorem closed_compactItems (items : List Json) (rest : List Char) :
    Closed (compactItems items ++ rest) := by
  cases items with
  | nil => exact closed_cons (by decide)
  | cons item items => exact closed_cons (by decide)

theorem closed_compactFields (fields : List (String × Json)) (rest : List Char) :
    Closed (compactFields fields ++ rest) := by
  cases fields with
  | nil => exact closed_cons (by decide)
  | cons field fields => exact closed_cons (by decide)

/-- A run of characters that no closing is among ends where it is closed. -/
theorem takeWhile_append_of_closed {p : Char → Bool}
    (hp : ([',', ']', '}'].all fun c => !p c) = true) {cs rest : List Char}
    (hcs : ∀ c ∈ cs, p c = true) (hrest : Closed rest) : (cs ++ rest).takeWhile p = cs := by
  rw [List.takeWhile_append_of_pos hcs]
  cases rest with
  | nil => simp
  | cons c rest =>
    have hclosing : p c = false := by simpa using List.all_eq_true.mp hp c (hrest c rfl)
    simp [hclosing]

/-- A constant is a token. -/
theorem ofText?_constant (c : Char) (cs : List Char) {rest : List Char} {value : Json}
    (hletter : c.isAlpha = true) (hcs : cs.all Char.isAlpha = true)
    (hvalue : constant? (String.ofList (c :: cs)) = some value)
    (hplain : isSpace c = false ∧ ofPunctuation? c = none ∧ c ≠ '"') (hrest : Closed rest) :
    ofText? (c :: (cs ++ rest)) = (ofText? rest).map (scalar value :: ·) := by
  refine ofText?_of_cut cs hplain.1 ?_
  rw [cut?, hplain.2.1]
  simp only [hplain.2.2, if_false, hletter, if_true,
    takeWhile_append_of_closed (by decide) (List.all_eq_true.mp hcs) hrest, hvalue, Option.map_some]

/-! ## Numbers -/

/-- What holds of the ten digits holds of every digit. -/
theorem of_isDigit {P : Char → Prop} (hall : ∀ k < 10, P (Char.ofNat (48 + k))) {c : Char}
    (hc : c.isDigit = true) : P c := by
  have hrange : 48 ≤ c.toNat ∧ c.toNat ≤ 57 := by
    simp only [Char.isDigit, Bool.and_eq_true, decide_eq_true_eq, ge_iff_le,
      UInt32.le_iff_toNat_le] at hc
    exact hc
  have h := hall (c.toNat - 48) (by omega)
  rwa [Nat.add_sub_cancel' hrange.1, Char.ofNat_toNat] at h

/-- Only zero is written with a leading zero. -/
theorem eq_nil_of_toDigits {n : Nat} {cs : List Char} (h : Nat.toDigits 10 n = '0' :: cs) :
    cs = [] := by
  induction n using Nat.strongRecOn generalizing cs with
  | ind n ih =>
    rcases Nat.lt_or_ge n 10 with hn | hn
    · rw [Nat.toDigits_of_lt_base hn] at h
      exact (List.cons.inj h).2.symm
    · have hsplit := Nat.toDigits_append_toDigits (b := 10) (n := n / 10) (d := n % 10) (by decide)
        (by omega) (Nat.mod_lt _ (by decide))
      rw [Nat.div_add_mod] at hsplit
      rw [← hsplit] at h
      obtain ⟨d, ds, hd⟩ := List.exists_cons_of_ne_nil (Nat.toDigits_ne_nil (n := n / 10) (b := 10))
      rw [hd, List.cons_append] at h
      -- the leading part is a zero as well, which it is not
      obtain rfl : d = '0' := (List.cons.inj h).1
      have hnil := ih (n / 10) (by omega) hd
      have hvalue := Nat.ofDigitChars_toDigits (b := 10) (n := n / 10) (by decide) (by decide)
      rw [hd, hnil] at hvalue
      exact absurd (show (0 : Nat) = n / 10 from hvalue) (by omega)

theorem wholePart?_toDigits (n : Nat) {rest : List Char} (hrest : Closed rest) :
    wholePart? (Nat.toDigits 10 n ++ rest) = some (Nat.toDigits 10 n).length := by
  have hdigits : ∀ c ∈ Nat.toDigits 10 n, c.isDigit = true :=
    fun c hc => Nat.isDigit_of_mem_toDigits (by decide) (by decide) hc
  have hpositive : (Nat.toDigits 10 n).length ≠ 0 :=
    Nat.ne_of_gt (List.length_pos_iff.mpr Nat.toDigits_ne_nil)
  unfold wholePart?
  split
  · rename_i cs heq
    cases hn : Nat.toDigits 10 n with
    | nil => exact absurd hn Nat.toDigits_ne_nil
    | cons d ds =>
      rw [hn] at heq
      obtain rfl : d = '0' := (List.cons.inj heq).1
      rw [eq_nil_of_toDigits hn]
      rfl
  · rw [digits?, Extent.run, takeWhile_append_of_closed (by decide) hdigits hrest]
    exact if_neg hpositive

/-- Digits are a number without fraction and exponent. -/
theorem numberParts?_toDigits (n : Nat) {rest : List Char} (hrest : Closed rest) :
    numberParts? (Nat.toDigits 10 n ++ rest) = some ⟨(Nat.toDigits 10 n).length, 0, 0⟩ := by
  have hne : ∀ c ∈ rest.head?, c ≠ '.' ∧ c ≠ 'e' ∧ c ≠ 'E' := by
    have hall : ([',', ']', '}'].all fun c => c != '.' && c != 'e' && c != 'E') = true := by decide
    intro c hc
    simpa [and_assoc] using List.all_eq_true.mp hall c (hrest c hc)
  have hsign : (Nat.toDigits 10 n ++ rest).head? ≠ some '-' := by
    obtain ⟨d, ds, hd⟩ := List.exists_cons_of_ne_nil (Nat.toDigits_ne_nil (n := n) (b := 10))
    have hdigit : d.isDigit = true :=
      Nat.isDigit_of_mem_toDigits (b := 10) (n := n) (by decide) (by decide) (hd ▸ List.mem_cons_self ..)
    rw [hd]
    rintro h
    obtain rfl : d = '-' := Option.some.inj h
    contradiction
  have hfraction : fraction? rest = some 0 := by
    unfold fraction?
    split
    · exact absurd rfl (hne _ rfl).1
    · rfl
  have hexponent : exponent? rest = some 0 := by
    unfold exponent?
    split
    · exact if_neg (not_or.mpr (hne _ rfl).2)
    · rfl
  rw [numberParts?, if_neg hsign]
  simp [wholePart?_toDigits n hrest, hfraction, hexponent]

/-- A number that fits into 64 bits is not cut. -/
theorem addDigits_eq {cs : List Char} {n : Nat} (h : Nat.ofDigitChars 10 cs n < 2 ^ 64) :
    NumberParts.addDigits n cs = (Nat.ofDigitChars 10 cs n, []) := by
  induction cs generalizing n with
  | nil => rfl
  | cons c cs ih =>
    have hstep : decimalValue [c] + 10 * n = 10 * n + (c.toNat - '0'.toNat) := by
      simp [decimalValue, Nat.add_comm]
    have hgrows : ∀ (cs : List Char) (m : Nat), m ≤ Nat.ofDigitChars 10 cs m := by
      intro cs
      induction cs with
      | nil => exact fun m => Nat.le_refl m
      | cons d cs ih =>
        intro m
        refine Nat.le_trans ?_ (ih (10 * m + (d.toNat - '0'.toNat)))
        omega
    have hsplit : Nat.ofDigitChars 10 (c :: cs) n =
        Nat.ofDigitChars 10 cs (10 * n + (c.toNat - '0'.toNat)) := rfl
    rw [hsplit] at h ⊢
    have hlt : decimalValue [c] + 10 * n < Nat.pow 2 64 :=
      hstep ▸ Nat.lt_of_le_of_lt (hgrows cs _) h
    rw [NumberParts.addDigits]
    simp only [hlt, if_true]
    rw [hstep]
    exact ih h

/-- **A whole number that is exact in double precision is read as it is.** -/
theorem numberOf_toDigits {n : Nat} (h : n < 2 ^ 53) (rest : List Char) :
    numberOf (Nat.toDigits 10 n ++ rest) ⟨(Nat.toDigits 10 n).length, 0, 0⟩ = .integer n := by
  have hdigits : ∀ c ∈ Nat.toDigits 10 n, c.isDigit = true :=
    fun c hc => Nat.isDigit_of_mem_toDigits (by decide) (by decide) hc
  have hvalue : Nat.ofDigitChars 10 (Nat.toDigits 10 n) 0 = n :=
    Nat.ofDigitChars_toDigits (by decide) (by decide)
  have hfinite : ∀ d : Decimal, d.mantissa = n → d.exponent = 0 → d.isInfiniteByParts = false := by
    rintro ⟨mantissa, exponent⟩ rfl rfl
    have hone : roundToDouble (Nat.pow 10 (0 : Int).toNat) = 1 := by decide
    have hbound : Nat.pow 2 53 ≤ firstInfinite := by decide +kernel
    simp only [Decimal.isInfiniteByParts, hone, Nat.mul_one, roundToDouble_of_lt h]
    split
    · rfl
    · simpa using Nat.lt_of_lt_of_le h hbound
  have hwhole : NumberParts.wholeDigits ⟨(Nat.toDigits 10 n).length, 0, 0⟩
      (Nat.toDigits 10 n ++ rest) = Nat.toDigits 10 n := by
    rw [NumberParts.wholeDigits, List.take_left, List.filter_eq_self.mpr hdigits]
  have hshortened : NumberParts.shortened ⟨(Nat.toDigits 10 n).length, 0, 0⟩
      (Nat.toDigits 10 n ++ rest) = ⟨n, 0⟩ := by
    have hfits : Nat.ofDigitChars 10 (Nat.toDigits 10 n) 0 < 2 ^ 64 := by
      rw [hvalue]
      exact h.trans (by decide)
    simp [NumberParts.shortened, NumberParts.fractionDigits, NumberParts.power, hwhole,
      addDigits_eq hfits, hvalue, NumberParts.addDigits, decimalValue]
  rw [numberOf, hshortened, hfinite _ rfl rfl]
  have hsign : ∀ ds, Nat.toDigits 10 n ≠ '-' :: ds := by
    intro ds hds
    have := hdigits '-' (hds ▸ List.mem_cons_self ..)
    contradiction
  simp only [Bool.false_eq_true, if_false, NumberParts.isInteger, beq_self_eq_true, Bool.and_self,
    if_true, List.take_left]
  rw [integerOf]
  · exact congrArg (fun k : Nat => Json.integer k) hvalue
  · exact fun ds => hsign ds

theorem ofText?_toDigits {n : Nat} (h : n < 2 ^ 53) {rest : List Char} (hrest : Closed rest) :
    ofText? (Nat.toDigits 10 n ++ rest) = (ofText? rest).map (scalar (.integer n) :: ·) := by
  have hparts := numberParts?_toDigits n hrest
  have hnumber := numberOf_toDigits h rest
  obtain ⟨d, ds, hd⟩ := List.exists_cons_of_ne_nil (Nat.toDigits_ne_nil (n := n) (b := 10))
  have hdigit : d.isDigit = true :=
    Nat.isDigit_of_mem_toDigits (b := 10) (n := n) (by decide) (by decide) (hd ▸ List.mem_cons_self ..)
  rw [hd] at hparts hnumber ⊢
  have hplain : isSpace d = false ∧ ofPunctuation? d = none ∧ d ≠ '"' ∧ d.isAlpha = false := by
    refine of_isDigit (P := fun d => isSpace d = false ∧ ofPunctuation? d = none ∧ d ≠ '"' ∧
      d.isAlpha = false) (fun k hk => ?_) hdigit
    interval_cases k <;> exact ⟨rfl, rfl, by decide, rfl⟩
  obtain ⟨hspace, hpunctuation, hquote, halpha⟩ := hplain
  refine ofText?_of_cut ds hspace ?_
  rw [cut?, hpunctuation]
  simp only [hquote, if_false, halpha, Bool.false_eq_true]
  rw [← List.cons_append, hparts, Option.map_some, hnumber]
  simp [NumberParts.length]

/-! ## Values -/

mutual

/-- The tokens of a value. -/
def ofValue : Json → List JsonToken
  | .array [] => [openBracket, closeBracket]
  | .array (item :: items) => openBracket :: (ofValue item ++ ofItems items)
  | .object [] => [openBrace, closeBrace]
  | .object ((key, value) :: fields) =>
    openBrace :: text (some key) :: colon :: (ofValue value ++ ofFields fields)
  | .string s => [text (some s)]
  | value => [scalar value]

/-- The tokens of the further items of an array, and of its end. -/
def ofItems : List Json → List JsonToken
  | [] => [closeBracket]
  | item :: items => comma :: (ofValue item ++ ofItems items)

/-- The tokens of the further fields of an object, and of its end. -/
def ofFields : List (String × Json) → List JsonToken
  | [] => [closeBrace]
  | (key, value) :: fields =>
    comma :: text (some key) :: colon :: (ofValue value ++ ofFields fields)

end

theorem ofText?_quoteColon (key : String) (rest : List Char) :
    ofText? (quote key ++ ':' :: rest) =
      (ofText? rest).map fun ts => text (some key) :: colon :: ts := by
  rw [ofText?_quote, ofText?_punctuation (t := colon) rfl rfl, Option.map_map]
  rfl

theorem ofText?_integer {n : Int} (h : isPlain (.integer n) = true) {rest : List Char}
    (hrest : Closed rest) :
    ofText? (compactChars (.integer n) ++ rest) = (ofText? rest).map (scalar (.integer n) :: ·) := by
  simp only [isPlain, Bool.and_eq_true, decide_eq_true_eq] at h
  obtain ⟨k, rfl⟩ := Int.eq_ofNat_of_zero_le h.1
  have hprinted : compactChars (.integer k) = Nat.toDigits 10 k := by
    simp only [compactChars]
    exact String.toList_ofList
  rw [hprinted]
  exact ofText?_toDigits (by omega) hrest

mutual

/-- **A printed value is cut into its tokens.** -/
theorem ofText?_compactChars (value : Json) (h : isPlain value = true) {rest : List Char}
    (hrest : Closed rest) :
    ofText? (compactChars value ++ rest) = (ofText? rest).map (ofValue value ++ ·) := by
  match value with
  | .null =>
    exact ofText?_constant 'n' ['u', 'l', 'l'] rfl (by decide) rfl (by decide) hrest
  | .bool true =>
    exact ofText?_constant 't' ['r', 'u', 'e'] rfl (by decide) rfl (by decide) hrest
  | .bool false =>
    exact ofText?_constant 'f' ['a', 'l', 's', 'e'] rfl (by decide) rfl (by decide)
      hrest
  | .integer n => exact ofText?_integer h hrest
  | .string s => exact ofText?_quote s rest
  | .array [] =>
    rw [compactChars, List.cons_append, List.singleton_append,
      ofText?_punctuation (t := openBracket) rfl rfl,
      ofText?_punctuation (t := closeBracket) rfl rfl, Option.map_map]
    rfl
  | .array (item :: items) =>
    rw [isPlain, arePlain, Bool.and_eq_true] at h
    rw [compactChars, List.cons_append, List.cons_append, List.append_assoc,
      ofText?_punctuation (t := openBracket) rfl rfl,
      ofText?_compactChars item h.1 (closed_compactItems items rest),
      ofText?_compactItems items h.2 rest]
    simp [ofValue, Function.comp_def]
  | .object [] =>
    rw [compactChars, List.cons_append, List.singleton_append,
      ofText?_punctuation (t := openBrace) rfl rfl,
      ofText?_punctuation (t := closeBrace) rfl rfl, Option.map_map]
    rfl
  | .object ((key, value) :: fields) =>
    rw [isPlain, areFieldsPlain, Bool.and_eq_true] at h
    rw [compactChars]
    simp only [List.cons_append, List.append_assoc]
    rw [ofText?_punctuation (t := openBrace) rfl rfl, ofText?_quoteColon,
      ofText?_compactChars value h.1 (closed_compactFields fields rest),
      ofText?_compactFields fields h.2 rest]
    simp [ofValue, Function.comp_def]

theorem ofText?_compactItems (items : List Json) (h : arePlain items = true) (rest : List Char) :
    ofText? (compactItems items ++ rest) = (ofText? rest).map (ofItems items ++ ·) := by
  match items with
  | [] => exact ofText?_punctuation rfl rfl rest
  | item :: items =>
    rw [arePlain, Bool.and_eq_true] at h
    rw [compactItems, List.cons_append, List.cons_append, List.append_assoc,
      ofText?_punctuation (t := comma) rfl rfl,
      ofText?_compactChars item h.1 (closed_compactItems items rest),
      ofText?_compactItems items h.2 rest]
    simp [ofItems, Function.comp_def]

theorem ofText?_compactFields (fields : List (String × Json)) (h : areFieldsPlain fields = true)
    (rest : List Char) :
    ofText? (compactFields fields ++ rest) = (ofText? rest).map (ofFields fields ++ ·) := by
  match fields with
  | [] => exact ofText?_punctuation rfl rfl rest
  | (key, value) :: fields =>
    rw [areFieldsPlain, Bool.and_eq_true] at h
    rw [compactFields]
    simp only [List.cons_append, List.append_assoc]
    rw [ofText?_punctuation (t := comma) rfl rfl, ofText?_quoteColon,
      ofText?_compactChars value h.1 (closed_compactFields fields rest),
      ofText?_compactFields fields h.2 rest]
    simp [ofFields, Function.comp_def]

end

end JsonToken

namespace Json

open JsonToken (ofValue ofItems ofFields)
open ReadState (step? put begin?)

/-! ## Reading the tokens -/

/-- A step that is possible, and those behind it. -/
theorem foldlM_cons_of_step {state next : ReadState} {t : JsonToken} (ts : List JsonToken)
    (h : step? .strict state t = some next) :
    (t :: ts).foldlM (step? .strict) state = ts.foldlM (step? .strict) next := by
  rw [List.foldlM_cons, h]
  rfl

/-- What begins a value begins one where the first item of an array may come, too. -/
theorem step?_of_begin? {what : Awaiting} (hwhat : what = .value ∨ what = .itemOrEnd)
    {stack : List Frame} {t : JsonToken} {next : ReadState} (h : begin? stack t = some next) :
    step? .strict (.awaiting what stack) t = some next := by
  rcases hwhat with rfl | rfl
  · exact h
  · rw [step?, h]
    rfl

mutual

/-- **The tokens of a value are put together to the value.** -/
theorem foldlM_ofValue (value : Json) (h : isPlain value = true) {what : Awaiting}
    (hwhat : what = .value ∨ what = .itemOrEnd) (stack : List Frame) (ts : List JsonToken) :
    (ofValue value ++ ts).foldlM (step? .strict) (.awaiting what stack) =
      ts.foldlM (step? .strict) (put value stack) := by
  match value with
  | .null => exact foldlM_cons_of_step ts (step?_of_begin? hwhat rfl)
  | .bool b => exact foldlM_cons_of_step ts (step?_of_begin? hwhat rfl)
  | .integer n => exact foldlM_cons_of_step ts (step?_of_begin? hwhat rfl)
  | .string s => exact foldlM_cons_of_step ts (step?_of_begin? hwhat rfl)
  | .array [] =>
    rw [ofValue, List.cons_append, foldlM_cons_of_step _ (step?_of_begin? hwhat rfl)]
    exact foldlM_cons_of_step ts rfl
  | .array (item :: items) =>
    rw [isPlain, arePlain, Bool.and_eq_true] at h
    rw [ofValue, List.cons_append, foldlM_cons_of_step _ (step?_of_begin? hwhat rfl),
      List.append_assoc, foldlM_ofValue item h.1 (Or.inr rfl)]
    exact foldlM_ofItems items h.2 [item] stack ts
  | .object [] =>
    rw [ofValue, List.cons_append, foldlM_cons_of_step _ (step?_of_begin? hwhat rfl)]
    exact foldlM_cons_of_step ts rfl
  | .object ((key, value) :: fields) =>
    rw [isPlain, areFieldsPlain, Bool.and_eq_true] at h
    rw [ofValue, List.cons_append, foldlM_cons_of_step _ (step?_of_begin? hwhat rfl),
      List.cons_append, foldlM_cons_of_step _ rfl, List.cons_append, foldlM_cons_of_step _ rfl,
      List.append_assoc, foldlM_ofValue value h.1 (Or.inl rfl)]
    exact foldlM_ofFields fields h.2 [(key, value)] stack ts

theorem foldlM_ofItems (items : List Json) (h : arePlain items = true) (before : List Json)
    (stack : List Frame) (ts : List JsonToken) :
    (ofItems items ++ ts).foldlM (step? .strict)
        (.awaiting .separator (.array before :: stack)) =
      ts.foldlM (step? .strict) (put (.array (before.reverse ++ items)) stack) := by
  match items with
  | [] =>
    rw [ofItems, List.append_nil]
    exact foldlM_cons_of_step ts rfl
  | item :: items =>
    rw [arePlain, Bool.and_eq_true] at h
    rw [ofItems, List.cons_append, foldlM_cons_of_step _ rfl, List.append_assoc]
    show (ofValue item ++ _).foldlM _ (ReadState.awaiting .value (.array before :: stack)) = _
    rw [foldlM_ofValue item h.1 (Or.inl rfl)]
    show (ofItems items ++ ts).foldlM _
      (ReadState.awaiting .separator (.array (item :: before) :: stack)) = _
    rw [foldlM_ofItems items h.2 (item :: before) stack ts]
    simp

theorem foldlM_ofFields (fields : List (String × Json)) (h : areFieldsPlain fields = true)
    (before : List (String × Json)) (stack : List Frame) (ts : List JsonToken) :
    (ofFields fields ++ ts).foldlM (step? .strict)
        (.awaiting .separator (.object (some before) "" :: stack)) =
      ts.foldlM (step? .strict) (put (.object (before.reverse ++ fields)) stack) := by
  match fields with
  | [] =>
    rw [ofFields, List.append_nil]
    exact foldlM_cons_of_step ts rfl
  | (key, value) :: fields =>
    rw [areFieldsPlain, Bool.and_eq_true] at h
    rw [ofFields, List.cons_append, foldlM_cons_of_step _ rfl, List.cons_append,
      foldlM_cons_of_step _ rfl, List.cons_append, foldlM_cons_of_step _ rfl, List.append_assoc]
    show (ofValue value ++ _).foldlM _
      (ReadState.awaiting .value (.object (some before) key :: stack)) = _
    rw [foldlM_ofValue value h.1 (Or.inl rfl)]
    show (ofFields fields ++ ts).foldlM _
      (ReadState.awaiting .separator (.object (some ((key, value) :: before)) "" :: stack)) = _
    rw [foldlM_ofFields fields h.2 ((key, value) :: before) stack ts]
    simp

end

/-- **A printed value is read back.** -/
theorem parse?_compact {value : Json} (h : value.isPlain = true) :
    parse? value.compact = some value := by
  have htext : JsonToken.ofText? (compactChars value) = some (ofValue value) := by
    have := JsonToken.ofText?_compactChars value h JsonToken.closed_nil
    rw [List.append_nil] at this
    rw [this, JsonToken.ofText?]
    simp
  have hread := foldlM_ofValue value h (Or.inl rfl) [] []
  rw [List.append_nil] at hread
  rw [parse?, compact, String.toList_ofList, htext, Option.bind_some, ofTokens?, hread]
  rfl

end Json

end TypeScriptEngine
