import Mathlib.Data.List.TakeWhile
import TypeScriptEngine.Proofs.Token.Tiling

/-! # Words

A `Word` is a text that is scanned as one token of a certain kind wherever it stands apart, with
white space or nothing behind it (`Spells`).  Names, reserved words, the signs of the grammar, and
numbers and strings without escapes are words.
-/

namespace TypeScriptEngine

open TypeScriptEngine.Text

/-! ## What can stand behind a word -/

namespace Text

/-- The code points of white space. -/
def blankCodes : List Nat :=
  [0x09, 0x0A, 0x0B, 0x0C, 0x0D, 0x20, 0x85, 0xA0, 0x1680, 0x2000, 0x2001, 0x2002, 0x2003, 0x2004,
    0x2005, 0x2006, 0x2007, 0x2008, 0x2009, 0x200A, 0x2028, 0x2029, 0x202F, 0x205F, 0x3000]

theorem toNat_mem_blankCodes {c : Char} (h : isBlank c = true) : c.toNat ∈ blankCodes := by
  simp only [isBlank, Bool.or_eq_true, Bool.and_eq_true, decide_eq_true_eq, beq_iff_eq] at h
  simp only [blankCodes, List.mem_cons, List.not_mem_nil, or_false]
  omega

/-- What no code point of white space has, no white space has. -/
theorem eq_false_of_isBlank {p : Char → Bool}
    (hall : ∀ n ∈ blankCodes, p (Char.ofNat n) = false) {c : Char} (h : isBlank c = true) :
    p c = false := by
  have hc := hall c.toNat (toNat_mem_blankCodes h)
  rwa [Char.ofNat_toNat] at hc

theorem isNamePart_of_isBlank {c : Char} (h : isBlank c = true) : isNamePart c = false :=
  eq_false_of_isBlank (by decide +kernel) h

/-- Nothing or white space. -/
def Apart (rest : List Char) : Prop := ∀ c ∈ rest.head?, isBlank c = true

theorem apart_nil : Apart [] := fun _ h => by contradiction

theorem apart_cons {c : Char} {cs : List Char} (h : isBlank c = true) : Apart (c :: cs) :=
  fun _ hd => Option.mem_some.mp hd ▸ h

/-- A run stops before a character that does not belong to it. -/
theorem takeWhile_append_of_stop {p : Char → Bool} {cs rest : List Char}
    (hcs : ∀ c ∈ cs, p c = true) (hrest : ∀ c ∈ rest.head?, p c = false) :
    (cs ++ rest).takeWhile p = cs := by
  rw [List.takeWhile_append_of_pos hcs]
  cases rest with
  | nil => exact List.append_nil cs
  | cons c rest =>
    have hc : p c = false := hrest c rfl
    simp [hc]

end Text

/-! ## Spellings -/

/-- A text that is scanned as one token of a kind wherever it stands apart, outside the substitutions
of templates. -/
structure Spells (kind : TokenKind) (text : List Char) : Prop where
  opensNothing : kind ≠ .templateHead
  scans : ∀ st : ScanState, .substitution ∉ st.openings → ∀ rest, Apart rest →
    pieces st (text ++ rest) = ⟨.token kind, text⟩ :: pieces (st.after ⟨.token kind, text⟩) rest

theorem pieces_cons (st : ScanState) (c : Char) (cs : List Char) :
    pieces st (c :: cs) = ⟨(Lexeme.next st c cs).kind, c :: cs.take (Lexeme.next st c cs).further⟩ ::
      pieces (st.after ⟨(Lexeme.next st c cs).kind, c :: cs.take (Lexeme.next st c cs).further⟩)
        (cs.drop (Lexeme.next st c cs).further) := by
  rw [pieces]

theorem Lexeme.next_of_isBlank {c : Char} (h : isBlank c = true) (st : ScanState)
    (rest : List Char) : next st c rest = ⟨.blank, Extent.run isBlank rest⟩ := by
  unfold next
  exact if_pos h

namespace Spells

variable {kind : TokenKind} {text : List Char}

theorem of_next {c : Char} {cs : List Char} (hkind : kind ≠ .templateHead)
    (hnext : ∀ st : ScanState, .substitution ∉ st.openings → ∀ rest, Apart rest →
      Lexeme.next st c (cs ++ rest) = ⟨.token kind, cs.length⟩) : Spells kind (c :: cs) := by
  refine ⟨hkind, fun st hst rest hrest => ?_⟩
  rw [List.cons_append, pieces_cons, hnext st hst rest hrest, List.take_left, List.drop_left]

theorem exists_cons (h : Spells kind text) : ∃ c cs, text = c :: cs ∧ isBlank c = false := by
  have hpieces := h.scans .initial (by decide) [] apart_nil
  rw [List.append_nil] at hpieces
  cases text with
  | nil =>
    have hmem : (⟨.token kind, []⟩ : Piece) ∈ pieces .initial [] :=
      hpieces ▸ List.mem_cons_self ..
    exact absurd rfl (text_ne_nil_of_mem_pieces hmem)
  | cons c cs =>
    refine ⟨c, cs, rfl, Bool.eq_false_iff.mpr fun hblank => ?_⟩
    rw [pieces_cons, Lexeme.next_of_isBlank hblank] at hpieces
    cases congrArg Piece.kind (List.cons.inj hpieces).1

theorem kind_ne_eof (h : Spells kind text) : kind ≠ .eof := by
  have hpieces := h.scans .initial (by decide) [] apart_nil
  rintro rfl
  exact kind_ne_eof_of_mem_pieces (hpieces ▸ List.mem_cons_self ..) rfl

end Spells

/-! ## Names -/

namespace Lexeme

theorem next_eq_token {c : Char} (hblank : isBlank c = false) (hslash : c ≠ '/') (st : ScanState)
    (rest : List Char) : next st c rest = token st c rest := by
  unfold next
  rw [if_neg (Bool.eq_false_iff.mp hblank), if_neg (by simpa using hslash)]

/-- What begins as no literal is a word or punctuation. -/
theorem token_eq_of_plain {st : ScanState} {c : Char} {rest : List Char}
    (hquotes : c ∉ ['"', '\'', '\x60'])
    (hbrace : .substitution ∉ st.openings) (hdigit : c.isDigit = false)
    (hdot : c = '.' → (rest.head?.any Char.isDigit) = false) (hslash : c ≠ '/') :
    token st c rest = if isNameStart c then word c rest else punctuation c rest := by
  simp only [List.mem_cons, List.not_mem_nil, or_false, not_or] at hquotes
  have hopen : (c == '}' && st.openings.head? == some .substitution) = false := by
    refine Bool.eq_false_iff.mpr fun h => hbrace ?_
    rw [Bool.and_eq_true, beq_iff_eq, beq_iff_eq] at h
    exact List.mem_of_head? h.2
  have hnumber : (c.isDigit || (c == '.' && rest.head?.any Char.isDigit)) = false := by
    rw [hdigit, Bool.false_or]
    refine Bool.eq_false_iff.mpr fun h => ?_
    rw [Bool.and_eq_true, beq_iff_eq] at h
    exact Bool.false_ne_true (hdot h.1 ▸ h.2)
  unfold token
  rw [if_neg (by simp [hquotes.1, hquotes.2.1]), if_neg (by simp [hquotes.2.2]),
    if_neg (Bool.eq_false_iff.mp hopen), if_neg (Bool.eq_false_iff.mp hnumber),
    if_neg (by simp [hslash])]

end Lexeme

theorem isBlank_of_isNameStart {c : Char} (h : isNameStart c = true) : isBlank c = false := by
  refine Bool.eq_false_iff.mpr fun hblank => ?_
  have := isNamePart_of_isBlank hblank
  exact absurd (isNamePart_of_isNameStart h) (by simp [this])

theorem toNat_of_isDigit {c : Char} (h : c.isDigit = true) : 48 ≤ c.toNat ∧ c.toNat ≤ 57 := by
  simp only [Char.isDigit, Bool.and_eq_true, decide_eq_true_eq, ge_iff_le,
    UInt32.le_iff_toNat_le] at h
  exact h

theorem isDigit_of_isNameStart {c : Char} (h : isNameStart c = true) : c.isDigit = false := by
  refine Bool.eq_false_iff.mpr fun hdigit => ?_
  have hall : ∀ n ∈ List.range 10, isNameStart (Char.ofNat (48 + n)) = false := by decide
  have hrange := toNat_of_isDigit hdigit
  have hc := hall (c.toNat - 48) (List.mem_range.mpr (by omega))
  rw [Nat.add_sub_cancel' hrange.1, Char.ofNat_toNat] at hc
  exact Bool.false_ne_true (hc ▸ h)

theorem isNamePart_of_isDigit {c : Char} (h : c.isDigit = true) : isNamePart c = true := by
  have hascii : c.toNat < 0x80 := Nat.lt_of_le_of_lt (toNat_of_isDigit h).2 (by decide)
  simp [isNamePart, isNumeric, hascii, h]

/-- A name ends before what cannot stand in one. -/
theorem Lexeme.next_of_name {c : Char} {cs rest : List Char} (hc : isNameStart c = true)
    (hcs : ∀ d ∈ cs, isNamePart d = true) (hrest : ∀ d ∈ rest.head?, isNamePart d = false)
    {st : ScanState} (hst : .substitution ∉ st.openings) :
    next st c (cs ++ rest) = ⟨.token (.ofWord (String.ofList (c :: cs))), cs.length⟩ := by
  have hne : ∀ d, isNameStart d = false → c ≠ d := by
    rintro _ hd rfl
    exact Bool.false_ne_true (hd ▸ hc)
  have hquotes : c ∉ ['"', '\'', '\x60'] := by
    simp [hne '"' (by decide), hne '\'' (by decide), hne '\x60' (by decide)]
  rw [next_eq_token (isBlank_of_isNameStart hc) (hne '/' (by decide)),
    token_eq_of_plain hquotes hst (isDigit_of_isNameStart hc)
      (fun h => absurd h (hne '.' (by decide))) (hne '/' (by decide)), if_pos hc]
  unfold word
  simp only [takeWhile_append_of_stop hcs hrest]

/-- **A text of characters of names is a word,** a reserved one or a name. -/
theorem spells_name {c : Char} {cs : List Char} (hc : isNameStart c = true)
    (hcs : ∀ d ∈ cs, isNamePart d = true) :
    Spells (.ofWord (String.ofList (c :: cs))) (c :: cs) :=
  .of_next (TokenKind.ofWord_ne (by decide) (by decide) _) fun _ hst _ hrest =>
    Lexeme.next_of_name hc hcs (fun d hd => isNamePart_of_isBlank (hrest d hd)) hst

/-! ## Signs -/

namespace Lexeme

/-- A character begins no longer operator if none goes on with the character behind it. -/
theorem punctuation_of_single {c : Char} {rest : List Char}
    (hquestion : c ≠ '?' ∨ rest.head? ≠ some '.')
    (hlong : ∀ op ∈ longOperators, op.1.head? = some c → op.1[1]? ≠ rest.head?) :
    punctuation c rest = ⟨.token (ofCharacter c), 0⟩ := by
  have hdot : isConditionalDot (c :: rest) = false := by
    unfold isConditionalDot
    split
    · rename_i heq
      obtain ⟨rfl, rfl⟩ := List.cons.inj heq
      exact absurd hquestion (by simp)
    · rfl
  have hlength : ∀ op ∈ longOperators, 1 < op.1.length := by decide
  have hnone : longOperators.find? (fun op => op.1.isPrefixOf (c :: rest)) = none := by
    refine List.find?_eq_none.mpr fun op hop hstarts => ?_
    obtain ⟨after, hafter⟩ := List.isPrefixOf_iff_prefix.mp hstarts
    have hop1 := hlength op hop
    have hget : ∀ i, i < op.1.length → op.1[i]? = (c :: rest)[i]? := fun i hi => by
      rw [← hafter, List.getElem?_append_left hi]
    refine hlong op hop ?_ ?_
    · rw [List.head?_eq_getElem?, hget 0 (by omega)]
      rfl
    · rw [hget 1 hop1, List.getElem?_cons_succ, List.head?_eq_getElem?]
  unfold punctuation
  rw [if_neg (Bool.eq_false_iff.mp hdot), hnone]

/-- A character with white space behind it begins no longer operator. -/
theorem punctuation_of_apart (c : Char) {rest : List Char} (hrest : Apart rest) :
    punctuation c rest = ⟨.token (ofCharacter c), 0⟩ := by
  have hhead : ∀ d, isBlank d = false → rest.head? ≠ some d := by
    intro d hd h
    exact Bool.false_ne_true (hd ▸ hrest d h)
  have hlong : ∀ op ∈ longOperators, op.1[1]?.any (fun d => !isBlank d) = true := by decide
  refine punctuation_of_single (.inr (hhead '.' (by decide))) fun op hop _ => ?_
  obtain ⟨d, hd, hblank⟩ := (Option.any_eq_true ..).mp (hlong op hop)
  rw [hd]
  exact (hhead d (by simpa using hblank)).symm

/-- What begins with a sign is punctuation. -/
theorem next_of_sign {c : Char} {cs : List Char} (hc : c ∈ "(){}[];,:?.=<>|&!*".toList)
    (hdigit : c = '.' → cs.head?.any Char.isDigit = false) {st : ScanState}
    (hst : .substitution ∉ st.openings) : next st c cs = punctuation c cs := by
  have hsigns : "(){}[];,:?.=<>|&!*".toList.all (fun d => decide (isBlank d = false ∧ d ≠ '/' ∧
      d ∉ ['"', '\'', '\x60'] ∧ d.isDigit = false ∧ isNameStart d = false)) = true := by decide
  obtain ⟨hblank, hslash, hquotes, hnumber, hname⟩ :=
    of_decide_eq_true (List.all_eq_true.mp hsigns c hc)
  rw [next_eq_token hblank hslash, token_eq_of_plain hquotes hst hnumber hdigit hslash,
    if_neg (Bool.eq_false_iff.mp hname)]

end Lexeme

theorem any_isDigit_of_apart {rest : List Char} (hrest : Apart rest) :
    rest.head?.any Char.isDigit = false := by
  cases rest with
  | nil => rfl
  | cons d rest =>
    have hall : ∀ n ∈ blankCodes, (Char.ofNat n).isDigit = false := by decide
    exact eq_false_of_isBlank hall (hrest d rfl)

/-- A sign of one character is a word. -/
theorem spells_sign {kind : TokenKind} {c : Char} (hkind : Lexeme.ofCharacter c = kind)
    (hc : c ∈ "(){}[];,:?.=<>|&!*".toList) : Spells kind [c] := by
  subst hkind
  refine .of_next (Lexeme.ofCharacter_ne (by decide) c) fun st hst rest hrest => ?_
  rw [List.nil_append, Lexeme.next_of_sign hc (fun _ => any_isDigit_of_apart hrest) hst,
    Lexeme.punctuation_of_apart c hrest]
  rfl

theorem spells_arrow : Spells .arrow ['=', '>'] := by
  refine .of_next (by decide) fun st hst rest _ => ?_
  rw [Lexeme.next_of_sign (by decide) (fun h => by contradiction) hst]
  rfl

/-! ## Numbers and strings -/

namespace Extent

theorem isDigitPart_of_isDigit {c : Char} (h : c.isDigit = true) : isDigitPart c = true := by
  simp [isDigitPart, h]

/-- What can stand behind a number: no character that would go on with it. -/
def Stops (rest : List Char) : Prop := ∀ c ∈ rest.head?, isNamePart c = false ∧ c ≠ '.'

theorem stops_of_apart {rest : List Char} (h : Apart rest) : Stops rest := fun c hc =>
  ⟨isNamePart_of_isBlank (h c hc), fun hdot => absurd (h c hc) (hdot ▸ by decide)⟩

/-- Digits are a number up to what does not go on with it. -/
theorem decimal_digits {cs rest : List Char} (hcs : ∀ c ∈ cs, c.isDigit = true)
    (hrest : Stops rest) : decimal (cs ++ rest) = cs.length := by
  have hpart : ∀ c ∈ rest.head?, isDigitPart c = false := fun c hc => by
    refine Bool.eq_false_iff.mpr fun hdigit => ?_
    have hname := (hrest c hc).1
    simp only [isDigitPart, Bool.or_eq_true, beq_iff_eq] at hdigit
    rcases hdigit with hdigit | rfl
    · exact Bool.false_ne_true (hname ▸ isNamePart_of_isDigit hdigit)
    · exact absurd hname (by decide)
  have hrun : run isDigitPart (cs ++ rest) = cs.length := by
    rw [run, takeWhile_append_of_stop (fun c hc => isDigitPart_of_isDigit (hcs c hc)) hpart]
  have hhead : ∀ c cs', rest = c :: cs' → c ≠ '.' ∧ c ≠ 'e' ∧ c ≠ 'E' ∧ c ≠ 'n' := by
    rintro c cs' rfl
    obtain ⟨hname, hdot⟩ := hrest c rfl
    refine ⟨hdot, ?_, ?_, ?_⟩ <;> rintro rfl <;> contradiction
  have hfraction : fraction rest = 0 := by
    unfold fraction
    split
    · exact absurd rfl (hhead _ _ rfl).1
    · rfl
  have hexponent : exponent rest = 0 := by
    unfold exponent
    split
    · obtain ⟨_, he, hE, _⟩ := hhead _ _ rfl
      simp [he, hE]
    · rfl
  have hsuffix : bigSuffix rest = 0 := by
    unfold bigSuffix
    split
    · exact absurd rfl (hhead _ _ rfl).2.2.2
    · rfl
  simp [decimal, hrun, hfraction, hexponent, hsuffix]

theorem number_digits {c : Char} {cs rest : List Char} (hc : c.isDigit = true)
    (hcs : ∀ d ∈ cs, d.isDigit = true) (hrest : Stops rest) :
    number (c :: (cs ++ rest)) = cs.length + 1 := by
  have hmark : ∀ d ∈ (cs ++ rest).head?, isRadixMark d = false := by
    intro d hd
    refine Bool.eq_false_iff.mpr fun hmark => ?_
    have hletter : isNamePart d = true ∧ d.isDigit = false := by
      simp only [isRadixMark, Bool.or_eq_true, beq_iff_eq] at hmark
      rcases hmark with ((((rfl | rfl) | rfl) | rfl) | rfl) | rfl <;> decide
    cases cs with
    | nil => exact Bool.false_ne_true ((hrest d hd).1 ▸ hletter.1)
    | cons e cs =>
      obtain rfl := Option.mem_some.mp hd
      exact Bool.false_ne_true (hletter.2 ▸ hcs e (List.mem_cons_self ..))
  have hdecimal : decimal (c :: (cs ++ rest)) = cs.length + 1 :=
    decimal_digits (List.forall_mem_cons.mpr ⟨hc, hcs⟩) hrest
  unfold number
  split
  · rename_i heq
    obtain ⟨hzero, htail⟩ := List.cons.inj heq
    rw [if_neg (Bool.eq_false_iff.mp (hmark _ (htail ▸ rfl))), ← heq]
    exact hdecimal
  · exact hdecimal

end Extent

/-- A number without fraction ends before what does not go on with it. -/
theorem Lexeme.next_of_digits {c : Char} {cs rest : List Char} (hc : c.isDigit = true)
    (hcs : ∀ d ∈ cs, d.isDigit = true) (hrest : Extent.Stops rest) (st : ScanState) :
    next st c (cs ++ rest) = ⟨.token .numberLiteral, cs.length⟩ := by
  have hne : ∀ d : Char, d.isDigit = false → c ≠ d := by
    rintro _ hd rfl
    exact Bool.false_ne_true (hd ▸ hc)
  have hblank : isBlank c = false := Bool.eq_false_iff.mpr fun h =>
    Bool.false_ne_true (eq_false_of_isBlank (p := Char.isDigit) (by decide) h ▸ hc)
  rw [next_eq_token hblank (hne '/' (by decide)), token,
    if_neg (by simp [hne '"' (by decide), hne '\'' (by decide)]),
    if_neg (by simp [hne '\x60' (by decide)]), if_neg (by simp [hne '}' (by decide)]),
    if_pos (by simp [hc]), Extent.number_digits hc hcs hrest]
  rfl

/-- A text of digits is a word. -/
theorem spells_digits {c : Char} {cs : List Char} (hc : c.isDigit = true)
    (hcs : ∀ d ∈ cs, d.isDigit = true) : Spells .numberLiteral (c :: cs) :=
  .of_next (by decide) fun st _ _ hrest =>
    Lexeme.next_of_digits hc hcs (Extent.stops_of_apart hrest) st

/-- A string without escapes ends at its closing quote. -/
theorem Extent.string_quoted {quote : Char} {cs : List Char}
    (hcs : ∀ c ∈ cs, c ≠ quote ∧ c ≠ '\\' ∧ c ≠ '\n') (hquote : quote ≠ '\\') (rest : List Char) :
    string quote (cs ++ quote :: rest) = ⟨cs.length + 1, true⟩ := by
  have hplain : ∀ c rest, c ≠ '\\' → string quote (c :: rest) =
      if c == quote then ⟨1, true⟩ else if c == '\n' then ⟨0, false⟩
      else (string quote rest).after 1 := by
    intro c rest hc
    rw [string]
    · exact fun _ h _ => hc h
    · exact fun _ _ h _ => hc h
  induction cs with
  | nil => simp [hplain quote rest hquote]
  | cons c cs ih =>
    obtain ⟨hne, hescape, hline⟩ := hcs c (List.mem_cons_self ..)
    rw [List.cons_append, hplain c _ hescape, if_neg (by simpa using hne),
      if_neg (by simpa using hline), ih fun d hd => hcs d (List.mem_cons_of_mem _ hd)]
    simp [Bounded.after, Nat.add_comm]

/-- A text between double quotes, without escapes, is a word. -/
theorem spells_quoted {cs : List Char} (hcs : ∀ c ∈ cs, c ≠ '"' ∧ c ≠ '\\' ∧ c ≠ '\n') :
    Spells .stringLiteral ('"' :: (cs ++ ['"'])) := by
  refine .of_next (by decide) fun st hst rest hrest => ?_
  rw [Lexeme.next_eq_token (by decide) (by decide), Lexeme.token, if_pos (by decide),
    List.append_assoc, List.singleton_append, Extent.string_quoted hcs (by decide)]
  simp [Lexeme.bounded]

/-! ## Words -/

/-- A text that is scanned as one token wherever it stands apart. -/
structure Word where
  kind : TokenKind
  text : List Char
  spells : Spells kind text

/-- A text of letters is a word of the kind that goes with the text. -/
theorem spells_letters {kind : TokenKind} {text : List Char}
    (hkind : TokenKind.ofWord (String.ofList text) = kind)
    (hhead : text.head?.any isNameStart = true) (htail : text.tail.all isNamePart = true) :
    Spells kind text := by
  cases text with
  | nil => contradiction
  | cons c cs => exact hkind ▸ spells_name hhead (List.all_eq_true.mp htail)

/-- The reserved words and the signs of the grammar. -/
inductive Terminal where
  | kwConst | kwLet | kwVar | kwFunction | kwReturn | kwExtends | kwTypeof | kwKeyof | kwReadonly
  | kwAbstract | kwNew | lparen | rparen | lbrace | rbrace | lbracket | rbracket | semicolon | comma
  | colon | question | dot | equals | arrow | lt | gt | pipe | amp

namespace Terminal

/-- The kind of token. -/
@[simp] def kind : Terminal → TokenKind
  | kwConst => .kwConst
  | kwLet => .kwLet
  | kwVar => .kwVar
  | kwFunction => .kwFunction
  | kwReturn => .kwReturn
  | kwExtends => .kwExtends
  | kwTypeof => .kwTypeof
  | kwKeyof => .kwKeyof
  | kwReadonly => .kwReadonly
  | kwAbstract => .kwAbstract
  | kwNew => .kwNew
  | lparen => .lparen
  | rparen => .rparen
  | lbrace => .lbrace
  | rbrace => .rbrace
  | lbracket => .lbracket
  | rbracket => .rbracket
  | semicolon => .semicolon
  | comma => .comma
  | colon => .colon
  | question => .question
  | dot => .dot
  | equals => .equals
  | arrow => .arrow
  | lt => .lt
  | gt => .gt
  | pipe => .pipe
  | amp => .amp

/-- What is written. -/
def text : Terminal → List Char
  | kwConst => "const".toList
  | kwLet => "let".toList
  | kwVar => "var".toList
  | kwFunction => "function".toList
  | kwReturn => "return".toList
  | kwExtends => "extends".toList
  | kwTypeof => "typeof".toList
  | kwKeyof => "keyof".toList
  | kwReadonly => "readonly".toList
  | kwAbstract => "abstract".toList
  | kwNew => "new".toList
  | lparen => ['(']
  | rparen => [')']
  | lbrace => ['{']
  | rbrace => ['}']
  | lbracket => ['[']
  | rbracket => [']']
  | semicolon => [';']
  | comma => [',']
  | colon => [':']
  | question => ['?']
  | dot => ['.']
  | equals => ['=']
  | arrow => ['=', '>']
  | lt => ['<']
  | gt => ['>']
  | pipe => ['|']
  | amp => ['&']

theorem spells (t : Terminal) : Spells t.kind t.text := by
  cases t
  case arrow => exact spells_arrow
  all_goals first
    | exact spells_sign rfl (by decide)
    | exact spells_letters rfl (by decide) (by decide)

end Terminal

namespace Word

/-- The word that is written for a terminal. -/
def of (t : Terminal) : Word := ⟨t.kind, t.text, t.spells⟩

/-- What the token of a word stands for. -/
def value (w : Word) : String := Piece.value w.kind w.text

/-- The piece that a word is scanned as. -/
def piece (w : Word) : Piece := ⟨.token w.kind, w.text⟩

@[simp] theorem kind_of (t : Terminal) : (of t).kind = t.kind := rfl

end Word

end TypeScriptEngine
