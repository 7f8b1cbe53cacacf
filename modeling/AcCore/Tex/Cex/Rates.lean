import AcCore.Tex.Cex.Order

/-!
# Conversions at a rate

What does not depend on how results are rounded: amounts and rates that are not
negative convert into such amounts, more of them into more. An amount that goes there
and back gains nothing, if there is not too much of it for the digits of a number.
-/

namespace AcCore.Tex.Cex

open Lib

section

variable [Rounding] {a b r u v : ℤ} {weak : Bool}

/-! ## Amounts that are not negative -/

/-- A value that is not negative is divided by `one` and rounded. -/
theorem decodeDbl_of_nonneg (hv : 0 ≤ v) : decodeDbl v = Rounding.round (v / one) :=
  if_neg fun h => absurd h.2 (not_lt.mpr hv)

/-- A value that is not negative decodes to no negative double. -/
theorem decodeDbl_nonneg (hv : 0 ≤ v) : 0 ≤ decodeDbl v := by
  rw [decodeDbl_of_nonneg hv]
  exact Rounding.round_nonneg (div_nonneg (by exact_mod_cast hv) (by norm_num [one]))

/-- A positive value decodes to a positive double. -/
theorem decodeDbl_pos (hv : 0 < v) : 0 < decodeDbl v := by
  rw [decodeDbl_of_nonneg hv.le]
  exact Rounding.round_pos (div_pos (by exact_mod_cast hv) (by norm_num [one]))

/-- Nothing decodes to zero. -/
@[simp] theorem decodeDbl_zero : decodeDbl 0 = 0 := by simp [decodeDbl]

/-- Decoding keeps the order of values. -/
theorem decodeDbl_mono (ha : 0 ≤ a) (hle : a ≤ b) : decodeDbl a ≤ decodeDbl b := by
  rw [decodeDbl_of_nonneg ha, decodeDbl_of_nonneg (ha.trans hle)]
  exact Rounding.mono (div_le_div_of_nonneg_right (by exact_mod_cast hle) (by norm_num [one]))

/-- Encoding a double as efp keeps the order. -/
theorem floorOne_mono {x y : ℚ} (hle : x ≤ y) : floorOne x ≤ floorOne y :=
  Int.floor_le_floor (Rounding.mono (mul_le_mul_of_nonneg_right hle (by norm_num [one])))

/-- Zero encodes as nothing. -/
@[simp] theorem floorOne_zero : floorOne 0 = 0 := by simp [floorOne]

/-- A double that is not negative encodes as no negative value. -/
theorem floorOne_nonneg {x : ℚ} (hx : 0 ≤ x) : 0 ≤ floorOne x := floorOne_zero ▸ floorOne_mono hx

/-- Nothing converts to nothing. -/
@[simp] theorem mulRate_zero : mulRate 0 r = 0 := by simp [mulRate]

/-- Nothing converts back to nothing. -/
@[simp] theorem quotient_zero : quotient 0 r = 0 := by simp [quotient]

/-- Converting by a rate gives nothing negative. -/
theorem mulRate_nonneg (ha : 0 ≤ a) (hr : 0 ≤ r) : 0 ≤ mulRate a r :=
  floorOne_nonneg (Rounding.round_nonneg (mul_nonneg (decodeDbl_nonneg ha) (decodeDbl_nonneg hr)))

/-- Converting back by a rate gives nothing negative. -/
theorem quotient_nonneg (ha : 0 ≤ a) (hr : 0 ≤ r) : 0 ≤ quotient a r :=
  floorOne_nonneg (Rounding.round_nonneg (div_nonneg (decodeDbl_nonneg ha) (decodeDbl_nonneg hr)))

/-- Converting by a rate keeps the order of amounts. -/
theorem mulRate_mono (ha : 0 ≤ a) (hr : 0 ≤ r) (hle : a ≤ b) : mulRate a r ≤ mulRate b r :=
  floorOne_mono (Rounding.mono
    (mul_le_mul_of_nonneg_right (decodeDbl_mono ha hle) (decodeDbl_nonneg hr)))

/-- Converting back by a rate keeps the order of amounts. -/
theorem quotient_mono (ha : 0 ≤ a) (hr : 0 ≤ r) (hle : a ≤ b) : quotient a r ≤ quotient b r :=
  floorOne_mono (Rounding.mono
    (div_le_div_of_nonneg_right (decodeDbl_mono ha hle) (decodeDbl_nonneg hr)))

/-- Dividing by a positive rate is defined. -/
theorem divRate_of_pos (hr : 0 < r) : divRate a r = some (quotient a r) :=
  if_neg (decodeDbl_pos hr).ne'

/-- Division by a rate has a value only where the rate is not zero. -/
theorem divRate_eq_some (h : divRate a r = some v) : decodeDbl r ≠ 0 ∧ v = quotient a r := by
  unfold divRate at h
  split_ifs at h with hzero
  exact ⟨hzero, (Option.some.inj h).symm⟩

/-- The conversion to the currency of the resting orders where it is defined. -/
theorem toLay_of_pos (hr : 0 < r) :
    toLay weak r a = some (if weak then mulRate a r else quotient a r) := by
  cases weak with
  | true => rfl
  | false => exact divRate_of_pos hr

/-- The conversion back where it is defined. -/
theorem toBack_of_pos (hr : 0 < r) :
    toBack weak r a = some (if weak then quotient a r else mulRate a r) := by
  cases weak with
  | true => exact divRate_of_pos hr
  | false => rfl

/-- What the lay side gets for an amount is not negative. -/
theorem toLay_nonneg (ha : 0 ≤ a) (hr : 0 < r) (h : toLay weak r a = some v) : 0 ≤ v := by
  rw [toLay_of_pos hr] at h
  obtain rfl := Option.some.inj h
  split_ifs
  · exact mulRate_nonneg ha hr.le
  · exact quotient_nonneg ha hr.le

/-- What the back side gets for an amount is not negative. -/
theorem toBack_nonneg (ha : 0 ≤ a) (hr : 0 < r) (h : toBack weak r a = some v) : 0 ≤ v := by
  rw [toBack_of_pos hr] at h
  obtain rfl := Option.some.inj h
  split_ifs
  · exact quotient_nonneg ha hr.le
  · exact mulRate_nonneg ha hr.le

/-! ## What is lost -/

/-- What an amount converts into, up to the four results that are rounded. -/
theorem near_mulRate (ha : 0 ≤ a) (hr : 0 ≤ r) :
    ∃ x, mulRate a r = ⌊x⌋ ∧ Rounding.Near 4 x (a * r / one) := by
  have hone : (0 : ℚ) < one := by norm_num [one]
  have ha' : (0 : ℚ) ≤ a / one := div_nonneg (by exact_mod_cast ha) hone.le
  have hr' : (0 : ℚ) ≤ r / one := div_nonneg (by exact_mod_cast hr) hone.le
  refine ⟨_, rfl, ?_⟩
  rw [decodeDbl_of_nonneg ha, decodeDbl_of_nonneg hr]
  have hproduct := (((Rounding.Near.refl _).round ha').mul ((Rounding.Near.refl _).round hr') ha'
    hr').round (mul_nonneg ha' hr')
  have hscaled := (hproduct.mul (.refl one) (mul_nonneg ha' hr') hone.le).round
    (mul_nonneg (mul_nonneg ha' hr') hone.le)
  have hvalue : (a / one * (r / one) * one : ℚ) = a * r / one := by field_simp
  rwa [hvalue] at hscaled

/-- The same for a quotient: the rounding of the divisor counts twice. -/
theorem near_quotient (ha : 0 ≤ a) (hr : 0 < r) :
    ∃ x, quotient a r = ⌊x⌋ ∧ Rounding.Near 5 x (a * one / r) := by
  have hone : (0 : ℚ) < one := by norm_num [one]
  have ha' : (0 : ℚ) ≤ a / one := div_nonneg (by exact_mod_cast ha) hone.le
  have hr' : (0 : ℚ) < r / one := div_pos (by exact_mod_cast hr) hone
  refine ⟨_, rfl, ?_⟩
  rw [decodeDbl_of_nonneg ha, decodeDbl_of_nonneg hr.le, div_eq_mul_inv]
  have hquotient := (((Rounding.Near.refl _).round ha').mul
    (((Rounding.Near.refl _).round hr'.le).inv hr') ha' (inv_nonneg.mpr hr'.le)).round
    (mul_nonneg ha' (inv_nonneg.mpr hr'.le))
  have hscaled := (hquotient.mul (.refl one) (mul_nonneg ha' (inv_nonneg.mpr hr'.le)) hone.le).round
    (mul_nonneg (mul_nonneg ha' (inv_nonneg.mpr hr'.le)) hone.le)
  have hvalue : (a : ℚ) / one * ((r : ℚ) / one)⁻¹ * one = a * one / r := by
    rw [inv_div]
    field_simp
  rwa [hvalue] at hscaled

/-- The exact conversion to the currency of the resting orders. -/
def exactLay (weak : Bool) (r a : ℤ) : ℚ := if weak then a * r / one else a * one / r

/-- The exact conversion back. -/
def exactBack (weak : Bool) (r a : ℤ) : ℚ := if weak then a * one / r else a * r / one

/-- A number rounded down, up to one unit, if it has at most 50 binary digits. -/
def RoundsDown (x : ℚ) (v : ℤ) : Prop := x < 2 ^ 50 → ⌊x⌋ - 1 ≤ v ∧ v ≤ ⌊x⌋ + 1

omit [Rounding] in
/-- So few results that are rounded make a difference of less than one. -/
theorem roundsDown_of_near {k : ℕ} (hk : k ≤ 5) {x y : ℚ} (h : Rounding.Near k x y) (hy : 0 ≤ y) :
    RoundsDown y ⌊x⌋ := by
  intro hlt
  obtain ⟨hlower, hupper⟩ := h.le hy hk
  have hless : y * (1 - (1 - Rounding.unit) ^ 5) < 1 :=
    (mul_le_mul_of_nonneg_right hlt.le (by norm_num [Rounding.unit])).trans_lt
      (by norm_num [Rounding.unit])
  have hmore : y * ((1 + Rounding.unit) ^ 5 - 1) < 1 :=
    (mul_le_mul_of_nonneg_right hlt.le (by norm_num [Rounding.unit])).trans_lt
      (by norm_num [Rounding.unit])
  have hfloor := Int.floor_le y
  have hceil := Int.lt_floor_add_one y
  constructor
  · refine Int.le_floor.mpr ?_
    push_cast
    linarith
  · refine Int.floor_le_iff.mpr ?_
    push_cast
    linarith

/-- The rounded product is the exact one rounded down, up to one unit. -/
theorem roundsDown_mulRate (ha : 0 ≤ a) (hr : 0 ≤ r) :
    RoundsDown (a * r / one) (mulRate a r) := by
  obtain ⟨x, hx, hnear⟩ := near_mulRate ha hr
  have hone : (0 : ℚ) < one := by norm_num [one]
  rw [hx]
  exact roundsDown_of_near (by omega) hnear
    (div_nonneg (mul_nonneg (by exact_mod_cast ha) (by exact_mod_cast hr)) hone.le)

/-- The rounded quotient is the exact one rounded down, up to one unit. -/
theorem roundsDown_quotient (ha : 0 ≤ a) (hr : 0 < r) :
    RoundsDown (a * one / r) (quotient a r) := by
  obtain ⟨x, hx, hnear⟩ := near_quotient ha hr
  have hone : (0 : ℚ) < one := by norm_num [one]
  rw [hx]
  exact roundsDown_of_near le_rfl hnear
    (div_nonneg (mul_nonneg (by exact_mod_cast ha) hone.le) (by exact_mod_cast hr.le))

/-- The conversion to the currency of the resting orders loses or gains one unit. -/
theorem roundsDown_toLay (ha : 0 ≤ a) (hr : 0 < r) (h : toLay weak r a = some v) :
    RoundsDown (exactLay weak r a) v := by
  rw [toLay_of_pos hr] at h
  obtain rfl := Option.some.inj h
  cases weak with
  | true => exact roundsDown_mulRate ha hr.le
  | false => exact roundsDown_quotient ha hr

/-- What the back side gets is the exact amount rounded down, up to one unit. -/
theorem roundsDown_toBack (ha : 0 ≤ a) (hr : 0 < r) (h : toBack weak r a = some v) :
    RoundsDown (exactBack weak r a) v := by
  rw [toBack_of_pos hr] at h
  obtain rfl := Option.some.inj h
  cases weak with
  | true => exact roundsDown_quotient ha hr
  | false => exact roundsDown_mulRate ha hr.le

/-! ## There and back -/

/-- The conversion by a factor. -/
def convert (factor : ℚ) (a : ℤ) : ℤ := floorOne (Rounding.round (decodeDbl a * factor))

/-- Converting by a rate is `convert` with the decoded rate. -/
theorem mulRate_eq_convert : mulRate a r = convert (decodeDbl r) a := rfl

/-- Converting back is `convert` with the inverse of the decoded rate. -/
theorem quotient_eq_convert : quotient a r = convert (decodeDbl r)⁻¹ a := by
  rw [quotient, div_eq_mul_inv, convert]

/-- A conversion back gains at most what six results may be wrong by. -/
theorem convert_inv_le {factor : ℚ} (hfactor : 0 < factor) (ha : 0 ≤ a) (hv : 0 ≤ v)
    (hle : v ≤ convert factor a) :
    (convert factor⁻¹ v : ℚ) ≤ a * (1 + Rounding.unit) ^ 6 := by
  have hunit := Rounding.unit_pos
  have hone : (0 : ℚ) < one := by norm_num [one]
  have hinv : 0 < factor⁻¹ := inv_pos.mpr hfactor
  have hdecode : ∀ {b : ℤ} {y : ℚ}, 0 ≤ b → (b : ℚ) / one ≤ y →
      decodeDbl b ≤ y * (1 + Rounding.unit) := fun hb hy => by
    rw [decodeDbl_of_nonneg hb]
    exact Rounding.round_le (div_nonneg (by exact_mod_cast hb) hone.le) hy
  have hconvert : ∀ {b : ℤ} {f y : ℚ}, 0 ≤ b → 0 < f → decodeDbl b * f ≤ y →
      (convert f b : ℚ) ≤ y * (1 + Rounding.unit) * one * (1 + Rounding.unit) := fun hb hf hy => by
    have hproduct := mul_nonneg (decodeDbl_nonneg hb) hf.le
    exact (Int.floor_le _).trans (Rounding.round_le
      (mul_nonneg (Rounding.round_nonneg hproduct) hone.le)
      (mul_le_mul_of_nonneg_right (Rounding.round_le hproduct hy) hone.le))
  have hthere := hconvert ha hfactor (mul_le_mul_of_nonneg_right (hdecode ha le_rfl) hfactor.le)
  have hle' : (v : ℚ) ≤ convert factor a := by exact_mod_cast hle
  have hvalue : (v : ℚ) / one ≤ a / one * (1 + Rounding.unit) ^ 3 * factor := by
    rw [div_le_iff₀ hone]
    linarith
  have hback := hconvert hv hinv (mul_le_mul_of_nonneg_right (hdecode hv hvalue) hinv.le)
  refine hback.trans (le_of_eq ?_)
  field_simp

/-- No amount up to `limit` gains by a conversion to the other currency and back. -/
def Gainless (weak : Bool) (r limit : ℤ) : Prop :=
  ∀ a, 0 ≤ a → a ≤ limit → ∀ m, toLay weak r a = some m → ∀ v, 0 ≤ v → v ≤ m → ∀ c,
    toBack weak r v = some c → c ≤ a

/-- What is gainless up to a limit is gainless up to a smaller one. -/
theorem Gainless.of_le {limit limit' : ℤ} (h : Gainless weak r limit) (hle : limit' ≤ limit) :
    Gainless weak r limit' := fun a ha hlimit => h a ha (hlimit.trans hle)

/-- It suffices to look at conversions by a factor and its inverse. -/
theorem gainless_of_convert {limit : ℤ} (hr : 0 < r)
    (h : ∀ factor : ℚ, 0 < factor → ∀ a v, 0 ≤ a → a ≤ limit → 0 ≤ v → v ≤ convert factor a →
      convert factor⁻¹ v ≤ a) : Gainless weak r limit := by
  have hdecode := decodeDbl_pos hr
  intro a ha hle m hm v hv hvm c hc
  rw [toLay_of_pos hr] at hm
  rw [toBack_of_pos hr] at hc
  obtain rfl := Option.some.inj hm
  obtain rfl := Option.some.inj hc
  cases weak with
  | true =>
    simp only [if_true] at hvm ⊢
    rw [quotient_eq_convert]
    exact h _ hdecode a v ha hle hv hvm
  | false =>
    simp only [Bool.false_eq_true, if_false] at hvm ⊢
    rw [quotient_eq_convert] at hvm
    have hback := h _ (inv_pos.mpr hdecode) a v ha hle hv hvm
    rwa [inv_inv] at hback

/-- Amounts of up to 50 binary digits do not gain. -/
theorem gainless_of_le {limit : ℤ} (hr : 0 < r) (hlimit : limit ≤ 2 ^ 50) :
    Gainless weak r limit := by
  refine gainless_of_convert hr fun factor hfactor a v ha hle hv hvm => ?_
  have hback := convert_inv_le hfactor ha hv hvm
  have hsmall : (a : ℚ) ≤ 2 ^ 50 := by exact_mod_cast hle.trans hlimit
  have hgain : 2 ^ 50 * ((1 + Rounding.unit) ^ 6 - 1) < 1 := by norm_num [Rounding.unit]
  have hshare : 0 ≤ (1 + Rounding.unit) ^ 6 - 1 := by norm_num [Rounding.unit]
  have hless := (mul_le_mul_of_nonneg_right hsmall hshare).trans_lt hgain
  by_contra hlt
  have : (a : ℚ) + 1 ≤ convert factor⁻¹ v := by exact_mod_cast not_le.mp hlt
  linarith

end

/-- Exact conversions do not gain. -/
theorem gainless_exact {weak : Bool} {r limit : ℤ} (hr : 0 < r) : Gainless weak r limit := by
  refine gainless_of_convert hr fun factor hfactor a v ha hle hv hvm => ?_
  have hone : (0 : ℚ) < one := by norm_num [one]
  have hthere : (v : ℚ) ≤ decodeDbl a * factor * one :=
    (by exact_mod_cast hvm : (v : ℚ) ≤ convert factor a).trans (Int.floor_le _)
  have hback : (convert factor⁻¹ v : ℚ) ≤ decodeDbl v * factor⁻¹ * one := Int.floor_le _
  rw [decodeDbl_of_nonneg ha, Rounding.round_exact] at hthere
  rw [decodeDbl_of_nonneg hv, Rounding.round_exact] at hback
  have hvalue : (v : ℚ) / one * factor⁻¹ * one ≤ a := by
    rw [← div_eq_mul_inv, div_mul_eq_mul_div, div_mul_cancel₀ _ hone.ne', div_le_iff₀ hfactor]
    rwa [mul_assoc, mul_comm factor, ← mul_assoc, div_mul_cancel₀ _ hone.ne'] at hthere
  exact_mod_cast hback.trans hvalue

end AcCore.Tex.Cex
