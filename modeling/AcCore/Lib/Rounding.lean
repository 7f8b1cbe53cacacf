import Mathlib.Algebra.Order.Round
import Mathlib.Data.Int.Log
import Mathlib.Data.Rat.Floor
import Mathlib.Tactic.Linarith
import Mathlib.Tactic.NormNum
import Mathlib.Tactic.Positivity
import Mathlib.Tactic.Ring

/-!
# Rounding

A machine computes with numbers of finitely many digits: it rounds the result of
each operation. Programs are written here over a way to round; one way is not to
round at all, and another is to the nearest number with 53 binary digits, which is
what a `double` holds. The range of the exponent is not bounded.
-/

namespace AcCore.Lib

/-- A way to round: monotone, and wrong by less than a unit in 53 binary digits. -/
class Rounding where
  round : ℚ → ℚ
  mono : Monotone round
  error : ∀ x, |round x - x| ≤ |x| / 2 ^ 53

/-- Exact arithmetic. -/
instance Rounding.exact : Rounding where
  round := id
  mono := monotone_id
  error x := by simp only [id, sub_self, abs_zero]; positivity

namespace Rounding

/-- The exact rounding changes nothing. -/
@[simp] theorem round_exact (x : ℚ) : @round exact x = x := rfl

/-- The share of a number by which a result may be wrong. -/
def unit : ℚ := 1 / 2 ^ 53

/-- The unit roundoff is positive. -/
theorem unit_pos : 0 < unit := by norm_num [unit]

/-- The unit roundoff is below one. -/
theorem unit_lt_one : unit < 1 := by norm_num [unit]

section Laws

variable [Rounding] {x y z : ℚ} {k l : ℕ}

/-- Zero is not rounded. -/
@[simp] theorem round_zero : round 0 = 0 := by
  have h := error 0
  rw [sub_zero, abs_zero, zero_div] at h
  exact abs_nonpos_iff.mp h

/-- Rounding gives nothing negative for what is not negative. -/
theorem round_nonneg (h : 0 ≤ x) : 0 ≤ round x := round_zero ▸ mono h

/-- Rounding gives nothing positive for what is not positive. -/
theorem round_nonpos (h : x ≤ 0) : round x ≤ 0 := round_zero ▸ mono h

/-- Rounding gives something positive for what is positive. -/
theorem round_pos (h : 0 < x) : 0 < round x := by
  have herror := (abs_le.mp (error x)).1
  rw [abs_of_pos h] at herror
  linarith

/-- Only zero is rounded to zero. -/
@[simp] theorem round_eq_zero_iff : round x = 0 ↔ x = 0 := by
  refine ⟨fun h => ?_, fun h => h ▸ round_zero⟩
  have herror := error x
  rw [h, zero_sub, abs_neg] at herror
  exact abs_nonpos_iff.mp (by linarith [abs_nonneg x])

/-- A rounded number exceeds no bound by more than the unit roundoff of it. -/
theorem round_le (hx : 0 ≤ x) (hle : x ≤ y) : round x ≤ y * (1 + unit) := by
  have herror := (abs_le.mp (error x)).2
  rw [abs_of_nonneg hx, div_eq_mul_one_div, ← unit] at herror
  linarith [mul_le_mul_of_nonneg_right hle unit_pos.le]

/-- A number is what another one is after `k` results that were rounded. -/
structure Near (k : ℕ) (x y : ℚ) : Prop where
  lower : y * (1 - unit) ^ k ≤ x
  upper : x ≤ y * (1 + unit) ^ k

omit [Rounding] in
/-- A number is near itself without any rounding. -/
theorem Near.refl (x : ℚ) : Near 0 x x := ⟨by simp, by simp⟩

omit [Rounding] in
/-- What is near a number that is not negative is not negative. -/
theorem Near.nonneg (h : Near k x y) (hy : 0 ≤ y) : 0 ≤ x := by
  have := unit_lt_one
  exact (mul_nonneg hy (pow_nonneg (by linarith) k)).trans h.lower

omit [Rounding] in
/-- More roundings may lead further away. -/
theorem Near.le (h : Near k x y) (hy : 0 ≤ y) (hle : k ≤ l) : Near l x y := by
  have hpos := unit_pos
  have hunit := unit_lt_one
  constructor
  · exact (mul_le_mul_of_nonneg_left (pow_le_pow_of_le_one (by linarith) (by linarith) hle)
      hy).trans h.lower
  · exact h.upper.trans (mul_le_mul_of_nonneg_left
      (pow_le_pow_right₀ (by linarith) hle) hy)

/-- One more result. -/
theorem Near.round (h : Near k x y) (hy : 0 ≤ y) : Near (k + 1) (round x) y := by
  have hx := h.nonneg hy
  have hunit := unit_lt_one
  obtain ⟨hlower, hupper⟩ := abs_le.mp (error x)
  rw [abs_of_nonneg hx, div_eq_mul_one_div, ← unit] at hlower hupper
  constructor
  · calc y * (1 - unit) ^ (k + 1) = y * (1 - unit) ^ k * (1 - unit) := by ring
      _ ≤ x * (1 - unit) := mul_le_mul_of_nonneg_right h.lower (by linarith)
      _ ≤ Rounding.round x := by linarith
  · calc Rounding.round x ≤ x * (1 + unit) := by linarith
      _ ≤ y * (1 + unit) ^ k * (1 + unit) :=
        mul_le_mul_of_nonneg_right h.upper (by linarith [unit_pos])
      _ = y * (1 + unit) ^ (k + 1) := by ring

omit [Rounding] in
/-- A product of two such numbers. -/
theorem Near.mul {x' y' : ℚ} (h : Near k x y) (h' : Near l x' y') (hy : 0 ≤ y) (hy' : 0 ≤ y') :
    Near (k + l) (x * x') (y * y') := by
  have hpos := unit_pos
  have hunit := unit_lt_one
  have hx := h.nonneg hy
  have hx' := h'.nonneg hy'
  constructor
  · calc y * y' * (1 - unit) ^ (k + l) = y * (1 - unit) ^ k * (y' * (1 - unit) ^ l) := by ring
      _ ≤ x * x' := mul_le_mul h.lower h'.lower
        (mul_nonneg hy' (pow_nonneg (by linarith) l)) hx
  · calc x * x' ≤ y * (1 + unit) ^ k * (y' * (1 + unit) ^ l) :=
          mul_le_mul h.upper h'.upper hx' (mul_nonneg hy (pow_nonneg (by linarith) k))
      _ = y * y' * (1 + unit) ^ (k + l) := by ring

omit [Rounding] in
/-- The inverse of such a number: the shares below and above one are not inverse to
each other, so twice as many results are counted. -/
theorem Near.inv (h : Near k x y) (hy : 0 < y) : Near (2 * k) x⁻¹ y⁻¹ := by
  have hpos := unit_pos
  have hunit := unit_lt_one
  have hless : 0 < 1 - unit := by linarith
  have hlower : 0 < y * (1 - unit) ^ k := mul_pos hy (pow_pos hless k)
  have hx : 0 < x := hlower.trans_le h.lower
  have hprod : ∀ a b : ℚ, 0 ≤ a → 0 ≤ b → a * b ≤ 1 → a ^ k * b ^ k ≤ 1 := fun a b ha hb hab => by
    rw [← mul_pow]
    exact pow_le_one₀ (mul_nonneg ha hb) hab
  constructor
  · -- what is at most `y` times the share is at least its inverse
    have hle := h.upper
    rw [pow_mul, inv_mul_eq_div, div_le_iff₀ hy, inv_mul_eq_div, le_div_iff₀ hx]
    have hfactor : (1 - unit) ^ 2 * (1 + unit) ≤ 1 := by norm_num [unit]
    calc ((1 - unit) ^ 2) ^ k * x ≤ ((1 - unit) ^ 2) ^ k * (y * (1 + unit) ^ k) :=
          mul_le_mul_of_nonneg_left hle (by positivity)
      _ = y * (((1 - unit) ^ 2) ^ k * (1 + unit) ^ k) := by ring
      _ ≤ y * 1 := mul_le_mul_of_nonneg_left
          (hprod _ _ (by positivity) (by linarith) hfactor) hy.le
      _ = y := mul_one y
  · have hfactor : 1 ≤ (1 + unit) ^ 2 * (1 - unit) := by norm_num [unit]
    have hone : 1 ≤ ((1 + unit) ^ 2) ^ k * (1 - unit) ^ k := by
      rw [← mul_pow]
      exact one_le_pow₀ hfactor
    rw [pow_mul, inv_mul_eq_div, le_div_iff₀ hy, inv_mul_eq_div, div_le_iff₀ hx]
    calc y = y * 1 := (mul_one y).symm
      _ ≤ y * (((1 + unit) ^ 2) ^ k * (1 - unit) ^ k) := mul_le_mul_of_nonneg_left hone hy.le
      _ = ((1 + unit) ^ 2) ^ k * (y * (1 - unit) ^ k) := by ring
      _ ≤ ((1 + unit) ^ 2) ^ k * x := mul_le_mul_of_nonneg_left h.lower (by positivity)

end Laws

end Rounding

/-! ## Doubles -/

/-- The nearest integer, and of two that are equally near the even one. -/
def nearestEven (x : ℚ) : ℤ :=
  if x - ⌊x⌋ < 1 / 2 then ⌊x⌋
  else if 1 / 2 < x - ⌊x⌋ then ⌊x⌋ + 1
  else ⌊x⌋ + ⌊x⌋ % 2

/-- The nearest integer is at most a half away. -/
theorem abs_nearestEven_sub_le (x : ℚ) : |(nearestEven x : ℚ) - x| ≤ 1 / 2 := by
  have hfloor := Int.floor_le x
  have hceil := Int.lt_floor_add_one x
  have hparity : (⌊x⌋ % 2 : ℤ) = 0 ∨ (⌊x⌋ % 2 : ℤ) = 1 := Int.emod_two_eq_zero_or_one _
  unfold nearestEven
  rw [abs_le]
  split_ifs
  · constructor <;> linarith
  · push_cast
    constructor <;> linarith
  · rcases hparity with h | h <;> rw [h] <;> push_cast <;> constructor <;> linarith

/-- Integers are their own nearest integers. -/
theorem nearestEven_intCast (n : ℤ) : nearestEven n = n := by simp [nearestEven]

/-- The nearest integer keeps the order. -/
theorem nearestEven_mono {x y : ℚ} (hle : x ≤ y) : nearestEven x ≤ nearestEven y := by
  by_contra hlt
  rw [not_le] at hlt
  obtain ⟨hx, -⟩ := abs_le.mp (abs_nearestEven_sub_le x)
  have hx' := (abs_le.mp (abs_nearestEven_sub_le x)).2
  have hy := (abs_le.mp (abs_nearestEven_sub_le y)).1
  have hstep : (nearestEven y : ℚ) + 1 ≤ nearestEven x := by exact_mod_cast hlt
  -- then both are half way between two integers, and equal
  have heq : x = y := le_antisymm hle (by linarith)
  rw [heq] at hlt
  exact hlt.false

/-- The distance of the numbers with 53 binary digits that are as great as `x`. -/
def ulp (x : ℚ) : ℚ := 2 ^ (Int.log 2 |x| - 52)

/-- The number that a `double` holds for `x`. -/
def toDouble (x : ℚ) : ℚ := nearestEven (x / ulp x) * ulp x

/-- The unit in the last place is positive. -/
theorem ulp_pos (x : ℚ) : 0 < ulp x := zpow_pos two_pos _

/-- The last of the 53 places of a number is `2 ^ 52` times smaller than the first. -/
theorem pow_mul_ulp (x : ℚ) : 2 ^ 52 * ulp x = 2 ^ Int.log 2 |x| := by
  rw [ulp, zpow_sub₀ two_ne_zero]
  exact mul_div_cancel₀ _ (by norm_num)

/-- A number has at least `2 ^ 52` units in its last place. -/
theorem le_abs_of_ulp {x : ℚ} (hx : x ≠ 0) : 2 ^ 52 * ulp x ≤ |x| :=
  (pow_mul_ulp x).trans_le (by exact_mod_cast Int.zpow_log_le_self one_lt_two (abs_pos.mpr hx))

/-- A number has less than `2 ^ 53` units in its last place. -/
theorem abs_lt_of_ulp (x : ℚ) : |x| < 2 ^ 53 * ulp x := by
  have h : |x| < ((2 : ℕ) : ℚ) ^ (Int.log 2 |x| + 1) := Int.lt_zpow_succ_log_self one_lt_two |x|
  rw [zpow_add_one₀ (by norm_num), Nat.cast_ofNat, ← pow_mul_ulp] at h
  linarith

/-- The relative error of a double is at most `2 ^ -53`. -/
theorem abs_toDouble_sub_le (x : ℚ) : |toDouble x - x| ≤ |x| / 2 ^ 53 := by
  have hulp := ulp_pos x
  by_cases hx : x = 0
  · subst hx
    simp [toDouble, nearestEven]
  have hnearest := abs_nearestEven_sub_le (x / ulp x)
  have hsplit : toDouble x - x = (nearestEven (x / ulp x) - x / ulp x) * ulp x := by
    rw [toDouble, sub_mul, div_mul_cancel₀ x hulp.ne']
  have hleast := le_abs_of_ulp hx
  calc |toDouble x - x| = |nearestEven (x / ulp x) - x / ulp x| * ulp x := by
        rw [hsplit, abs_mul, abs_of_pos hulp]
    _ ≤ 1 / 2 * ulp x := mul_le_mul_of_nonneg_right hnearest hulp.le
    _ ≤ |x| / 2 ^ 53 := by linarith

/-- A double stays below a multiple of its last place that the number is below. -/
theorem toDouble_le {x : ℚ} {n : ℤ} (h : x ≤ n * ulp x) : toDouble x ≤ n * ulp x := by
  have hle : nearestEven (x / ulp x) ≤ n := by
    rw [← nearestEven_intCast n]
    exact nearestEven_mono ((div_le_iff₀ (ulp_pos x)).mpr h)
  exact mul_le_mul_of_nonneg_right (by exact_mod_cast hle) (ulp_pos x).le

/-- A double stays above a multiple of its last place that the number is above. -/
theorem le_toDouble {x : ℚ} {n : ℤ} (h : n * ulp x ≤ x) : n * ulp x ≤ toDouble x := by
  have hle : n ≤ nearestEven (x / ulp x) := by
    rw [← nearestEven_intCast n]
    exact nearestEven_mono ((le_div_iff₀ (ulp_pos x)).mpr h)
  exact mul_le_mul_of_nonneg_right (by exact_mod_cast hle) (ulp_pos x).le

/-- Numbers of different sizes are a power of two apart. -/
theorem pow_mul_ulp_le {x y : ℚ} (h : Int.log 2 |x| < Int.log 2 |y|) :
    2 ^ 53 * ulp x ≤ 2 ^ 52 * ulp y := by
  have hpow : (2 : ℚ) ^ (Int.log 2 |x| + 1) ≤ 2 ^ Int.log 2 |y| :=
    zpow_le_zpow_right₀ one_le_two (by omega)
  rw [zpow_add_one₀ two_ne_zero, ← pow_mul_ulp, ← pow_mul_ulp] at hpow
  linarith

/-- Rounding to doubles keeps the order. -/
theorem toDouble_mono : Monotone toDouble := by
  intro x y hle
  have hsame : Int.log 2 |x| = Int.log 2 |y| → toDouble x ≤ toDouble y := by
    intro hlog
    have hulp : ulp x = ulp y := by rw [ulp, ulp, hlog]
    unfold toDouble
    rw [hulp]
    have hquotient : x / ulp y ≤ y / ulp y := div_le_div_of_nonneg_right hle (ulp_pos y).le
    exact mul_le_mul_of_nonneg_right (by exact_mod_cast nearestEven_mono hquotient) (ulp_pos y).le
  have hbelow := abs_lt_of_ulp
  rcases lt_trichotomy y 0 with hy | rfl | hy
  · -- both are negative
    have hx : x < 0 := hle.trans_lt hy
    have habs : |y| ≤ |x| := by rw [abs_of_neg hx, abs_of_neg hy]; linarith
    rcases (Int.log_mono_right (b := 2) (abs_pos.mpr hy.ne) habs).eq_or_lt with hlog | hlog
    · exact hsame hlog.symm
    · have hleast := le_abs_of_ulp hx.ne
      have hgreatest := hbelow y
      rw [abs_of_neg hx] at hleast
      rw [abs_of_neg hy] at hgreatest
      have hlow : toDouble x ≤ (-2 ^ 52 : ℤ) * ulp x := toDouble_le (by push_cast; linarith)
      have hhigh : (-2 ^ 53 : ℤ) * ulp y ≤ toDouble y := le_toDouble (by push_cast; linarith)
      have hpow := pow_mul_ulp_le hlog
      push_cast at hlow hhigh
      linarith
  · have hx := toDouble_le (x := x) (n := 0) (by simpa using hle)
    have hzero : toDouble 0 = 0 := by simp [toDouble, nearestEven]
    rw [hzero]
    simpa using hx
  · rcases le_or_gt x 0 with hx | hx
    · have hlow := toDouble_le (x := x) (n := 0) (by simpa using hx)
      have hhigh := le_toDouble (x := y) (n := 0) (by simpa using hy.le)
      simp only [Int.cast_zero, zero_mul] at hlow hhigh
      exact hlow.trans hhigh
    · have habs : |x| ≤ |y| := by rwa [abs_of_pos hx, abs_of_pos hy]
      rcases (Int.log_mono_right (b := 2) (abs_pos.mpr hx.ne') habs).eq_or_lt with hlog | hlog
      · exact hsame hlog
      · have hleast := le_abs_of_ulp hy.ne'
        have hgreatest := hbelow x
        rw [abs_of_pos hy] at hleast
        rw [abs_of_pos hx] at hgreatest
        have hlow : toDouble x ≤ (2 ^ 53 : ℤ) * ulp x := toDouble_le (by push_cast; linarith)
        have hhigh : (2 ^ 52 : ℤ) * ulp y ≤ toDouble y := le_toDouble (by push_cast; linarith)
        have hpow := pow_mul_ulp_le hlog
        push_cast at hlow hhigh
        linarith

namespace Rounding

/-- The arithmetic of doubles. -/
@[reducible] def double : Rounding where
  round := toDouble
  mono := toDouble_mono
  error := abs_toDouble_sub_le

end Rounding

namespace Doubles

/-- Where this name space is open, the arithmetic is that of doubles. -/
scoped instance (priority := 2000) double : Rounding := Rounding.double

end Doubles

end AcCore.Lib
