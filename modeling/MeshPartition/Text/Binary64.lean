import MeshPartition.Text.Numeral

/-!
# Double-precision numbers

Reads the text of a number into the 64 bits of its IEEE 754 representation. The decimal value is
kept exact, as a whole number times a power of ten, and rounded once: to the nearest representable
number, a tie to the one with an even significand, overflow to infinity.

A mesh has no coordinates, so nothing else in the library reads such numbers, and none of its
statements is about them. The module is for those who want the coordinates of a record: the
accessors of records take the function that reads a word.
-/

namespace MeshPartition.Text

/-- A double-precision number, by its bits. -/
structure Binary64 where
  bits : UInt64
deriving DecidableEq

/-- The exact value `digits * 10 ^ exponent`, or its negative. -/
structure Decimal where
  negative : Bool
  digits : Nat
  exponent : Int
deriving DecidableEq

/-- The quotient rounded to the nearest whole number, a tie to the even one. -/
def roundDiv (num den : Nat) : Nat :=
  let q := num / den
  let r := num % den
  if 2 * r < den then q
  else if den < 2 * r then q + 1
  else q + q % 2

namespace Binary64

/-- The bits of infinity, as a number; those of all finite values are below. -/
def infinityBits : Nat := 0x7FF0000000000000

/-- The bit of the sign. -/
def signBit : Nat := 0x8000000000000000

/-- The number with the given magnitude, as bits without the sign. -/
def ofMagnitude (negative : Bool) (magnitude : Nat) : Binary64 :=
  ⟨UInt64.ofNat (if negative then signBit + magnitude else magnitude)⟩

/-- The result that is not a number. -/
def nan : Binary64 := ⟨0x7FF8000000000000⟩

/-- Whether the bits are those of a result that is not a number. -/
def isNaN (x : Binary64) : Bool := infinityBits < x.bits.toNat % signBit

/-- The integer part of the binary logarithm of a positive quotient. -/
def log2Div (num den : Nat) : Int :=
  let guess : Int := num.log2 - den.log2
  let reaches := if 0 ≤ guess then den <<< guess.toNat ≤ num else den ≤ num <<< (-guess).toNat
  if reaches then guess else guess - 1

/-- The magnitude bits of a positive quotient. The unit of the last place is `2 ^ unit`: the
significand then has 53 bits, or fewer in the subnormal range. Exponent field and significand can
be added because a significand without its leading bit is one unit of the exponent field smaller;
a significand that rounds up to 54 bits moves on to the next exponent by the same sum. -/
def magnitudeOfDiv (num den : Nat) : Nat :=
  let unit : Int := max (-1074) (log2Div num den - 52)
  let significand :=
    if 0 ≤ unit then roundDiv num (den <<< unit.toNat)
    else roundDiv (num <<< (-unit).toNat) den
  min infinityBits ((unit + 1074).toNat <<< 52 + significand)

/-- The nearest number to a decimal value. Values far outside the range of finite numbers are
decided by their number of digits alone. -/
def ofDecimal (d : Decimal) : Binary64 :=
  let size : Int := (Nat.toDigits 10 d.digits).length + d.exponent
  ofMagnitude d.negative <|
    if d.digits = 0 then 0
    else if 400 < size then infinityBits
    else if size < -400 then 0
    else if 0 ≤ d.exponent then magnitudeOfDiv (d.digits * Nat.pow 10 d.exponent.toNat) 1
    else magnitudeOfDiv d.digits (Nat.pow 10 (-d.exponent).toNat)

/-- The exponent at the end of a number: nothing, or the letter e and a signed numeral. -/
def exponent? : List Char → Option Int
  | [] => some 0
  | c :: cs => if c = 'e' ∨ c = 'E' then signedChars? cs else none

/-- An unsigned decimal number: digits with at most one point and at least one digit, and an
exponent. -/
def decimal? (negative : Bool) (cs : List Char) : Option Decimal := do
  let whole := cs.takeWhile Char.isDigit
  let rest := cs.dropWhile Char.isDigit
  let (fraction, rest) := match rest with
    | '.' :: rest => (rest.takeWhile Char.isDigit, rest.dropWhile Char.isDigit)
    | rest => ([], rest)
  let digits ← digits? (whole ++ fraction)
  let exponent ← exponent? rest
  return ⟨negative, digits, exponent - fraction.length⟩

/-- A number without its sign. -/
def unsignedNumber? (negative : Bool) (cs : List Char) : Option Binary64 :=
  let word := cs.map Char.toLower
  if word = "inf".toList ∨ word = "infinity".toList then some (ofMagnitude negative infinityBits)
  else if word = "nan".toList then some nan
  else (decimal? negative cs).map ofDecimal

/-- The number that a text denotes. -/
def ofText? (s : String) : Option Binary64 :=
  match s.toList with
  | '-' :: cs => unsignedNumber? true cs
  | '+' :: cs => unsignedNumber? false cs
  | cs => unsignedNumber? false cs

end Binary64

end MeshPartition.Text
