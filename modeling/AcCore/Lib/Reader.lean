import AcCore.Lib.Words
import Mathlib.Algebra.Order.Field.Rat

/-!
# Numbers and lists on an input stream

What `operator >>` does for a variable of a number type that was not
initialised: it keeps whatever it holds when the stream has failed before or has
nothing but white space left. The result of a program whose control depends on
such a variable is not defined.
-/

namespace AcCore.Lib

/-- Extracts a signed 32-bit number into a variable that holds `old`, if
anything; `none` when the variable is still not initialised. -/
def extractInt (old : Option ℤ) : Option Text → Option (ℤ × Option Text)
  | none => old.map fun v => (v, none)
  | some s =>
    if s.dropWhile isSpace = [] then old.map fun v => (v, none)
    else
      match readInteger s with
      | none => some (0, none)
      | some ((negative, n), s) =>
        let v : ℤ := if negative then -n else n
        if v < -2 ^ 31 then some (-2 ^ 31, none)
        else if 2 ^ 31 ≤ v then some (2 ^ 31 - 1, none)
        else some (v, some s)

/-- The exponent of a decimal fraction, and what comes after it: 0 if there is
none, and `none` if it is begun and has no digits. -/
def readExponent (s : Text) : Option ℤ × Text :=
  match s with
  | [] => (some 0, [])
  | c :: s =>
    if c = 'e' ∨ c = 'E' then
      let (negative, s) := splitSign s
      let digits := s.takeWhile Char.isDigit
      let power : ℤ := Nat.ofDigitChars 10 digits 0
      (if digits = [] then none else some (if negative then -power else power),
        s.dropWhile Char.isDigit)
    else (some 0, c :: s)

/-- A decimal fraction, as its digits without the point and the number of those
after the point, and what comes after it. -/
def readFraction (s : Text) : (Text × ℕ) × Text :=
  let whole := s.takeWhile Char.isDigit
  let s := s.dropWhile Char.isDigit
  if s.head? = some '.' then
    let fraction := s.tail.takeWhile Char.isDigit
    ((whole ++ fraction, fraction.length), s.tail.dropWhile Char.isDigit)
  else ((whole, 0), s)

/-- The bound from which on a number is too great for a `double`. -/
def doubleBound : ℚ := 2 ^ 1024 - 2 ^ 970

/-- The greatest `double`. -/
def doubleMax : ℚ := 2 ^ 1024 - 2 ^ 971

/-- Extracts a `double`: what is no number gives 0, what is too great the
greatest number, and both make the stream fail. The number that is read is not
rounded, and 0 stands for the value of a variable that is not initialised. -/
def extractDecimal : Option Text → ℚ × Option Text
  | none => (0, none)
  | some s =>
    let (negative, s) := splitSign (s.dropWhile isSpace)
    let ((digits, places), s) := readFraction s
    if digits = [] then (0, none)
    else
      match readExponent s with
      | (none, _) => (0, none)
      | (some power, s) =>
        let value : ℚ := Nat.ofDigitChars 10 digits 0 * 10 ^ (power - places)
        if doubleBound ≤ value then (if negative then -doubleMax else doubleMax, none)
        else (if negative then -value else value, some s)

/-- Extracts a number of things. -/
def extractMany {α : Type} (read : Option Text → α × Option Text) :
    ℕ → Option Text → List α × Option Text
  | 0, s => ([], s)
  | n + 1, s =>
    let (x, s) := read s
    let (xs, s) := extractMany read n s
    (x :: xs, s)

end AcCore.Lib
