import AcCore.Lib.Rounding
import AcCore.Lib.Words
import Mathlib.Data.Int.Init

/-!
# Fixed point amounts

Amounts and rates (`efp`) are integers that count hundred-thousandths. The products and
quotients that the code takes in floating point between a `decode_dbl` and an
`encode` are rounded after each operation, in the way of the arithmetic at hand, and
rounded down at the end. Where nothing else is said the arithmetic is exact.
-/

namespace AcCore.Tex.Cex

open Lib

/-- The digits after the point. -/
def precision : ℕ := 5

/-- The number 1. -/
def one : ℤ := 100000

/-- `rate_multiples`. -/
def rateMultiples : ℤ := 5

/-- `decode_dbl`: the text of `decode` is read. That of a number below zero with less than
six characters has its sign after the point, and is read as 0. -/
def decodeDbl [Rounding] (v : ℤ) : ℚ :=
  if -10000 < v ∧ v < 0 then 0 else Rounding.round (v / one)

/-- `floor(v*one)`. -/
def floorOne [Rounding] (v : ℚ) : ℤ := ⌊Rounding.round (v * one)⌋

/-- `encode(decode_dbl(a)*decode_dbl(r))`. -/
def mulRate [Rounding] (a r : ℤ) : ℤ := floorOne (Rounding.round (decodeDbl a * decodeDbl r))

/-- `encode(decode_dbl(a)/decode_dbl(r))` where the divisor is not 0. -/
def quotient [Rounding] (a r : ℤ) : ℤ := floorOne (Rounding.round (decodeDbl a / decodeDbl r))

/-- `encode(decode_dbl(a)/decode_dbl(r))`; a quotient by 0 has no encoding. -/
def divRate [Rounding] (a r : ℤ) : Option ℤ :=
  if decodeDbl r = 0 then none else some (quotient a r)

/-- `encode(string)`: 0 for what is no decimal numeral with at most five digits
after the point, and the greatest number of 64 bits for what is too great. -/
def encode (s : Text) : ℤ :=
  let whole := s.takeWhile (· ≠ '.')
  let fraction := (s.dropWhile (· ≠ '.')).tail
  if (whole ++ fraction).all Char.isDigit ∧ fraction.length ≤ precision then
    let digits := whole ++ fraction ++ List.replicate (precision - fraction.length) '0'
    min (Nat.ofDigitChars 10 digits 0 : ℤ) (2 ^ 63 - 1)
  else 0

/-- `encode(double)`; a number that 64 bits do not hold has no encoding. -/
def encodeDbl [Rounding] (v : ℚ) : Option ℤ :=
  if -2 ^ 63 ≤ floorOne v ∧ floorOne v < 2 ^ 63 then some (floorOne v) else none

/-- `decode`. -/
def decode (v : ℤ) : Text :=
  let s := intText v
  if s.length ≤ precision then ['0', '.'] ++ List.replicate (precision - s.length) '0' ++ s
  else s.take (s.length - precision) ++ '.' :: s.drop (s.length - precision)

/-- `decode_std`. -/
def decodeStd (v : ℤ) : String :=
  let s := String.ofList (intText v)
  if s.length ≤ precision then
    "0." ++ String.ofList (List.replicate (precision - s.length) '0') ++ s
  else
    String.ofList (s.toList.take (s.length - precision) ++
      '.' :: s.toList.drop (s.length - precision))

/-! ## Currencies -/

/-- The id of a currency. -/
abbrev Cur := ℕ

/-- `eur::id`. -/
def eur : Cur := 1

/-- `usd::id`. -/
def usd : Cur := 2

/-- `gbp::id`. -/
def gbp : Cur := 3

/-- `aud::id`. -/
def aud : Cur := 4

/-- `is_valid`. -/
def isValid (cid : Cur) : Bool := cid = eur ∨ cid = usd ∨ cid = gbp ∨ cid = aud

/-- `strcur`: 0 for what is no currency. -/
def strcur (s : Text) : Cur :=
  if s = ['E', 'U', 'R'] then eur
  else if s = ['U', 'S', 'D'] then usd
  else if s = ['G', 'B', 'P'] then gbp
  else if s = ['A', 'U', 'D'] then aud
  else 0

/-- `curstr`; a currency that is not found has no defined text. -/
def curstr (cid : Cur) : Option Text :=
  if cid = eur then some ['E', 'U', 'R']
  else if cid = usd then some ['U', 'S', 'D']
  else if cid = gbp then some ['G', 'B', 'P']
  else if cid = aud then some ['A', 'U', 'D']
  else none

end AcCore.Tex.Cex
