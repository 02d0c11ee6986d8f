import TypeScriptEngine.Json.Basic
import TypeScriptEngine.Token.Extent

/-!
# Numbers in JSON

The parts of a number as it is written, and the value that they name.  Integers keep their value,
other numbers their text.  A number beyond those of double precision has no value, and the dialects
differ in where that begins.  In the relaxed one the exact value is rounded.  The strict one takes
the digits that fit into 64 bits, rounds them and the power of ten behind them, and multiplies; so
a number just below the greatest one of double precision may be lost.
-/

namespace TypeScriptEngine

/-! ## Double precision -/

/-- The least natural number that double precision rounds to infinity. -/
def firstInfinite : Nat := Nat.pow 2 1024 - Nat.pow 2 970

/-- The natural number of double precision that is nearest to a given one, if that is not too great:
the nearest multiple of the last of its 53 leading binary places, and of two nearest ones the even
multiple. -/
def roundToDouble (n : Nat) : Nat :=
  let unit := Nat.pow 2 (n.log2 - 52)
  let low := n / unit
  let rest := 2 * (n % unit)
  unit * (if rest < unit ∨ (rest = unit ∧ low % 2 = 0) then low else low + 1)

/-- Numbers of 53 binary places are exact. -/
theorem roundToDouble_of_lt {n : Nat} (h : n < Nat.pow 2 53) : roundToDouble n = n := by
  have hunit : n.log2 - 52 = 0 := by
    rcases Nat.eq_zero_or_pos n with rfl | hn
    · rfl
    · have : n.log2 < 53 := (Nat.log2_lt (Nat.ne_of_gt hn)).2 h
      omega
  simp [roundToDouble, hunit, Nat.mod_one]

/-- A decimal number without sign, `mantissa * 10 ^ exponent`. -/
structure Decimal where
  mantissa : Nat
  exponent : Int
deriving DecidableEq, Repr

namespace Decimal

/-- The number of the digits of the mantissa, moved by the exponent: the number is less than ten to
this power, and not less than ten to the power before. -/
def magnitude (d : Decimal) : Int := (Nat.repr d.mantissa).length + d.exponent

/-- Whether a number is beyond double precision, rounded as a whole. -/
def isInfinite (d : Decimal) : Bool :=
  if d.mantissa = 0 ∨ d.magnitude ≤ 308 then false
  else if 310 < d.magnitude then true
  else if 0 ≤ d.exponent then firstInfinite ≤ d.mantissa * Nat.pow 10 d.exponent.toNat
  else firstInfinite * Nat.pow 10 (-d.exponent).toNat ≤ d.mantissa

/-- Whether a number is beyond double precision if mantissa and power of ten are rounded before they
are multiplied.  A negative power never leads there. -/
def isInfiniteByParts (d : Decimal) : Bool :=
  if d.mantissa = 0 ∨ d.exponent < 0 then false
  else if 308 < d.exponent then true
  else firstInfinite ≤ roundToDouble d.mantissa * roundToDouble (Nat.pow 10 d.exponent.toNat)

end Decimal

namespace JsonToken

open Extent (run)

/-! ## Parts -/

/-- The length of the digits at the head of a text, of which there must be one. -/
def digits? (cs : List Char) : Option Nat :=
  let n := run Char.isDigit cs
  if n = 0 then none else some n

/-- The length of a fraction, which may be missing. -/
def fraction? : List Char → Option Nat
  | '.' :: rest => (digits? rest).map (· + 1)
  | _ => some 0

/-- The length of an exponent, which may be missing. -/
def exponent? : List Char → Option Nat
  | c :: rest =>
    if c = 'e' ∨ c = 'E' then
      match rest with
      | '+' :: rest => (digits? rest).map (· + 2)
      | '-' :: rest => (digits? rest).map (· + 2)
      | _ => (digits? rest).map (· + 1)
    else some 0
  | [] => some 0

/-- The lengths of the parts of a number: whole part with its sign, fraction, exponent. -/
structure NumberParts where
  whole : Nat
  fraction : Nat
  exponent : Nat
deriving DecidableEq, Repr

/-- The whole part of a number without sign: a zero, or digits that begin with another one. -/
def wholePart? : List Char → Option Nat
  | '0' :: _ => some 1
  | cs => digits? cs

/-- The parts of the number at the head of a text. -/
def numberParts? (cs : List Char) : Option NumberParts := do
  let sign := if cs.head? = some '-' then 1 else 0
  let whole ← wholePart? (cs.drop sign)
  let fraction ← fraction? (cs.drop (sign + whole))
  let exponent ← exponent? (cs.drop (sign + whole + fraction))
  return ⟨sign + whole, fraction, exponent⟩

/-- The number that decimal digits name. -/
def decimalValue (digits : List Char) : Nat :=
  digits.foldl (fun n c => 10 * n + (c.toNat - '0'.toNat)) 0

/-- The number that a text without fraction and exponent names.  A negative zero is no integer. -/
def integerOf : List Char → Json
  | '-' :: digits =>
    let n := decimalValue digits
    if n = 0 then .fraction "-0" else .integer (-(n : Int))
  | digits => .integer (decimalValue digits)

namespace NumberParts

/-- The digits of the whole part. -/
def wholeDigits (parts : NumberParts) (cs : List Char) : List Char :=
  (cs.take parts.whole).filter Char.isDigit

/-- The digits of the fraction. -/
def fractionDigits (parts : NumberParts) (cs : List Char) : List Char :=
  ((cs.drop parts.whole).take parts.fraction).filter Char.isDigit

/-- The power of ten that the exponent names. -/
def power (parts : NumberParts) (cs : List Char) : Int :=
  let text := (cs.drop (parts.whole + parts.fraction)).take parts.exponent
  let n := decimalValue (text.filter Char.isDigit)
  if text.contains '-' then -(n : Int) else n

/-- Whether the number has neither fraction nor exponent. -/
def isInteger (parts : NumberParts) : Bool := parts.fraction == 0 && parts.exponent == 0

/-- The length of the number. -/
def length (parts : NumberParts) : Nat := parts.whole + parts.fraction + parts.exponent

/-- The exact value of the number, without its sign. -/
def exact (parts : NumberParts) (cs : List Char) : Decimal :=
  let fraction := parts.fractionDigits cs
  ⟨decimalValue (parts.wholeDigits cs ++ fraction), parts.power cs - fraction.length⟩

/-- Adds digits to a number while it fits into 64 bits.  Gives the digits that are left as
well. -/
def addDigits (n : Nat) : List Char → Nat × List Char
  | [] => (n, [])
  | c :: cs =>
    let m := decimalValue [c] + 10 * n
    if m < Nat.pow 2 64 then addDigits m cs else (n, c :: cs)

/-- The value of the number, without its sign, of which the mantissa is cut to 64 bits: the digits
that are left count as zeros. -/
def shortened (parts : NumberParts) (cs : List Char) : Decimal :=
  let fraction := parts.fractionDigits cs
  let (whole, moreWhole) := addDigits 0 (parts.wholeDigits cs)
  let (mantissa, moreFraction) := addDigits whole fraction
  let places : Int := fraction.length - moreFraction.length
  ⟨mantissa, parts.power cs + moreWhole.length - places⟩

end NumberParts

/-- The value of a number of the strict dialect with the given parts. -/
def numberOf (cs : List Char) (parts : NumberParts) : Json :=
  if (parts.shortened cs).isInfiniteByParts then .unreadable
  else if parts.isInteger then integerOf (cs.take parts.whole)
  else .fraction (String.ofList (cs.take parts.length))

end JsonToken

end TypeScriptEngine
