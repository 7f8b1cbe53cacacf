import AcCore.Lib.Reader
import Mathlib.Algebra.Order.Field.Power
import Mathlib.Data.Int.Log
import Mathlib.Data.List.DropRight
import Mathlib.Data.Rat.Floor
import Mathlib.Tactic.FieldSimp
import Mathlib.Tactic.Linarith
import Mathlib.Tactic.NormNum

/-!
# Numbers with six significant digits

How an output stream prints a `double` unless it is told otherwise: rounded to
six significant digits, in decimal or scientific notation, without trailing
zeros. The number that is read back from such a text is the rounded one.
-/

namespace AcCore.Lib

/-- The nearest integer, the even one of two. -/
def roundHalfEven (q : ℚ) : ℤ :=
  if q - ⌊q⌋ < 1 / 2 then ⌊q⌋
  else if 1 / 2 < q - ⌊q⌋ then ⌊q⌋ + 1
  else if ⌊q⌋ % 2 = 0 then ⌊q⌋ else ⌊q⌋ + 1

/-- Integers are not rounded. -/
@[simp] theorem roundHalfEven_intCast (n : ℤ) : roundHalfEven n = n := by
  simp [roundHalfEven]

/-- Rounding stays above an integer. -/
theorem le_roundHalfEven {n : ℤ} {q : ℚ} (h : n ≤ q) : n ≤ roundHalfEven q := by
  have hfloor : n ≤ ⌊q⌋ := Int.le_floor.mpr h
  unfold roundHalfEven
  split_ifs <;> omega

/-- What is less than a half above an integer is not rounded above it. -/
theorem roundHalfEven_le {n : ℤ} {q : ℚ} (h : q < n + 1 / 2) : roundHalfEven q ≤ n := by
  have hfloor := Int.floor_le q
  have hround : (roundHalfEven q : ℚ) ≤ q + 1 / 2 := by
    unfold roundHalfEven
    split_ifs <;> push_cast <;> linarith
  have hlt : (roundHalfEven q : ℚ) < n + 1 := by linarith
  have hlt : roundHalfEven q < n + 1 := by exact_mod_cast hlt
  omega

/-- Rounding may give a seventh digit. -/
def carried (m : ℕ) (x : ℤ) : ℕ × ℤ := if m = 10 ^ 6 then (10 ^ 5, x + 1) else (m, x)

/-- The six significant digits of a positive number, as a number from 10 ^ 5 on,
and the power of ten of the first. -/
def sixDigit (a : ℚ) : ℕ × ℤ :=
  carried (roundHalfEven (a * 10 ^ (5 - Int.log 10 a))).toNat (Int.log 10 a)

/-- The number with the given six digits. -/
def ofSixDigit (d : ℕ × ℤ) : ℚ := d.1 * 10 ^ (d.2 - 5)

/-- The number that has the same six significant digits. -/
def sixRounded (v : ℚ) : ℚ :=
  if v < 0 then -ofSixDigit (sixDigit (-v))
  else if v = 0 then 0 else ofSixDigit (sixDigit v)

/-- The bounds that the logarithm gives, with the point after six digits. -/
theorem scaled_bounds {a : ℚ} (ha : 0 < a) :
    (10 : ℚ) ^ 5 ≤ a * 10 ^ (5 - Int.log 10 a) ∧ a * 10 ^ (5 - Int.log 10 a) < 10 ^ 6 := by
  have hlow : (10 : ℚ) ^ Int.log 10 a ≤ a := Int.zpow_log_le_self (by decide) ha
  have hhigh : a < (10 : ℚ) ^ (Int.log 10 a + 1) := Int.lt_zpow_succ_log_self (by decide) a
  have hpos : (0 : ℚ) < 10 ^ (5 - Int.log 10 a) := by positivity
  constructor
  · calc (10 : ℚ) ^ 5 = 10 ^ Int.log 10 a * 10 ^ (5 - Int.log 10 a) := by
          rw [← zpow_add₀ (by norm_num), add_sub_cancel]
          norm_cast
      _ ≤ a * 10 ^ (5 - Int.log 10 a) := by gcongr
  · calc a * 10 ^ (5 - Int.log 10 a) < 10 ^ (Int.log 10 a + 1) * 10 ^ (5 - Int.log 10 a) := by
          gcongr
      _ = 10 ^ 6 := by
          rw [← zpow_add₀ (by norm_num), show Int.log 10 a + 1 + (5 - Int.log 10 a) = 6 by ring]
          norm_cast

/-- A positive number scaled to six digits rounds to six digits, or to `10 ^ 6`. -/
theorem scaled_round_bounds {a : ℚ} (ha : 0 < a) :
    10 ^ 5 ≤ roundHalfEven (a * 10 ^ (5 - Int.log 10 a)) ∧
      roundHalfEven (a * 10 ^ (5 - Int.log 10 a)) ≤ 10 ^ 6 := by
  obtain ⟨hlow, hhigh⟩ := scaled_bounds ha
  constructor
  · exact le_roundHalfEven (by exact_mod_cast hlow)
  · refine roundHalfEven_le ?_
    push_cast
    linarith

/-- The six digits of a positive number are six. -/
theorem sixDigit_bounds {a : ℚ} (ha : 0 < a) :
    10 ^ 5 ≤ (sixDigit a).1 ∧ (sixDigit a).1 < 10 ^ 6 := by
  obtain ⟨hlow, hhigh⟩ := scaled_round_bounds ha
  unfold sixDigit carried
  split_ifs with hcarry
  · norm_num
  · dsimp only
    omega

/-- The carry does not change the number. -/
theorem ofSixDigit_carried (m : ℕ) (x : ℤ) : ofSixDigit (carried m x) = m * 10 ^ (x - 5) := by
  unfold carried ofSixDigit
  split_ifs with hcarry
  · have hsplit : (10 : ℚ) ^ (x + 1 - 5) = 10 ^ (x - 5) * 10 := by
      rw [show x + 1 - 5 = x - 5 + 1 by ring, zpow_add_one₀ (by norm_num)]
    rw [hcarry, hsplit]
    push_cast
    ring
  · rfl

/-- The number with the six digits of a number is that number, scaled, rounded and scaled back. -/
theorem ofSixDigit_sixDigit {a : ℚ} (ha : 0 < a) :
    ofSixDigit (sixDigit a) =
      roundHalfEven (a * 10 ^ (5 - Int.log 10 a)) * 10 ^ (Int.log 10 a - 5) := by
  have hlow := (scaled_round_bounds ha).1
  have hcast : (((roundHalfEven (a * 10 ^ (5 - Int.log 10 a))).toNat : ℕ) : ℤ) =
      roundHalfEven (a * 10 ^ (5 - Int.log 10 a)) := Int.toNat_of_nonneg (by omega)
  rw [sixDigit, ofSixDigit_carried, ← Int.cast_natCast, hcast]

/-- Six digits give a positive number. -/
theorem ofSixDigit_pos {m : ℕ} (hm : 10 ^ 5 ≤ m) (x : ℤ) : 0 < ofSixDigit (m, x) := by
  have : (0 : ℚ) < m := by exact_mod_cast (by omega : 0 < m)
  simp only [ofSixDigit]
  positivity

/-- The power of ten of a number with six digits. -/
theorem log_ofSixDigit {m : ℕ} (hlow : 10 ^ 5 ≤ m) (hhigh : m < 10 ^ 6) (x : ℤ) :
    Int.log 10 (ofSixDigit (m, x)) = x := by
  have hpos := ofSixDigit_pos hlow x
  have hten : (0 : ℚ) < 10 ^ (x - 5) := by positivity
  have hle : x ≤ Int.log 10 (ofSixDigit (m, x)) := by
    rw [← Int.zpow_le_iff_le_log (by decide) hpos]
    calc ((10 : ℕ) : ℚ) ^ x = 10 ^ 5 * 10 ^ (x - 5) := by
          rw [← zpow_natCast, ← zpow_add₀ (by norm_num)]
          norm_num
      _ ≤ m * 10 ^ (x - 5) := by
          gcongr
          exact_mod_cast hlow
  have hlt : Int.log 10 (ofSixDigit (m, x)) < x + 1 := by
    rw [← Int.lt_zpow_iff_log_lt (by decide) hpos]
    calc (m : ℚ) * 10 ^ (x - 5) < 10 ^ 6 * 10 ^ (x - 5) := by
          gcongr
          exact_mod_cast hhigh
      _ = ((10 : ℕ) : ℚ) ^ (x + 1) := by
          rw [← zpow_natCast, ← zpow_add₀ (by norm_num), show ((6 : ℕ) : ℤ) + (x - 5) = x + 1 by
            push_cast; ring]
          norm_num
  omega

/-- A number of six digits has these digits. -/
theorem sixDigit_ofSixDigit {m : ℕ} (hlow : 10 ^ 5 ≤ m) (hhigh : m < 10 ^ 6) (x : ℤ) :
    sixDigit (ofSixDigit (m, x)) = (m, x) := by
  have hscaled : ofSixDigit (m, x) * 10 ^ (5 - x) = ((m : ℤ) : ℚ) := by
    rw [ofSixDigit, mul_assoc, ← zpow_add₀ (by norm_num), sub_add_sub_cancel, sub_self, zpow_zero,
      mul_one]
    norm_cast
  rw [sixDigit, log_ofSixDigit hlow hhigh, hscaled, roundHalfEven_intCast, Int.toNat_natCast,
    carried, if_neg hhigh.ne]

/-- Rounding again changes nothing. -/
theorem sixDigit_sixDigit {a : ℚ} (ha : 0 < a) :
    sixDigit (ofSixDigit (sixDigit a)) = sixDigit a :=
  sixDigit_ofSixDigit (sixDigit_bounds ha).1 (sixDigit_bounds ha).2 _

/-- Rounding does not lead out of the range of a `double`. -/
theorem ofSixDigit_lt_doubleBound {a : ℚ} (ha : 0 < a) (hmax : a ≤ doubleMax) :
    ofSixDigit (sixDigit a) < doubleBound := by
  have hlog : Int.log 10 a < 309 := by
    rw [← Int.lt_zpow_iff_log_lt (by decide) ha]
    exact hmax.trans_lt (by decide +kernel)
  rw [ofSixDigit_sixDigit ha]
  rcases (by omega : Int.log 10 a ≤ 307 ∨ Int.log 10 a = 308) with hsmall | hgreat
  · have hround : (roundHalfEven (a * 10 ^ (5 - Int.log 10 a)) : ℚ) ≤ 10 ^ 6 := by
      exact_mod_cast (scaled_round_bounds ha).2
    calc (roundHalfEven (a * 10 ^ (5 - Int.log 10 a)) : ℚ) * 10 ^ (Int.log 10 a - 5)
        ≤ 10 ^ 6 * 10 ^ (302 : ℤ) := by
          gcongr
          · norm_num
          · omega
      _ < doubleBound := by decide +kernel
  · -- the greatest `double` has the digits 179769, and is not rounded up
    have hscaled : a * 10 ^ (-303 : ℤ) < (179769 : ℤ) + 1 / 2 := by
      calc a * 10 ^ (-303 : ℤ) ≤ doubleMax * 10 ^ (-303 : ℤ) := by gcongr
        _ < (179769 : ℤ) + 1 / 2 := by decide +kernel
    have hround : (roundHalfEven (a * 10 ^ (-303 : ℤ)) : ℚ) ≤ 179769 := by
      exact_mod_cast roundHalfEven_le hscaled
    rw [hgreat, show (5 - 308 : ℤ) = -303 by norm_num, show (308 - 5 : ℤ) = 303 by norm_num]
    calc (roundHalfEven (a * 10 ^ (-303 : ℤ)) : ℚ) * 10 ^ (303 : ℤ)
        ≤ 179769 * 10 ^ (303 : ℤ) := by gcongr
      _ < doubleBound := by decide +kernel

/-! ## The text -/

/-- The digits before and after the point, without trailing zeros. -/
def pointed (whole fraction : Text) : Text :=
  let fraction := fraction.rdropWhile (· == '0')
  if fraction = [] then whole else whole ++ '.' :: fraction

/-- The power of ten in scientific notation: a sign and at least two digits. -/
def powerText (x : ℤ) : Text :=
  'e' :: (if x < 0 then '-' else '+') :: ((if x.natAbs < 10 then ['0'] else []) ++ natText x.natAbs)

/-- The text of a positive number with the given six digits. -/
def sixDigitText (d : ℕ × ℤ) : Text :=
  if d.2 < -4 ∨ 6 ≤ d.2 then
    pointed ((natText d.1).take 1) ((natText d.1).drop 1) ++ powerText d.2
  else
    let digits := List.replicate (-d.2).toNat '0' ++ natText d.1
    pointed (digits.take (d.2.toNat + 1)) (digits.drop (d.2.toNat + 1))

/-- `operator <<` for a `double`. -/
def sixText (v : ℚ) : Text :=
  if v < 0 then '-' :: sixDigitText (sixDigit (-v))
  else if v = 0 then ['0'] else sixDigitText (sixDigit v)

example : sixText (1 / 3) = "0.333333".toList ∧ sixText (-2500000) = "-2.5e+06".toList ∧
    sixText (1 / 100000) = "1e-05".toList ∧ sixText 999999.5 = "1e+06".toList := by decide +kernel

/-- A number prints as the number that has its six digits. -/
theorem sixText_sixRounded (v : ℚ) : sixText (sixRounded v) = sixText v := by
  rcases lt_trichotomy v 0 with hneg | rfl | hpos
  · have hdigits := ofSixDigit_pos (sixDigit_bounds (neg_pos.mpr hneg)).1 (sixDigit (-v)).2
    have hround : sixRounded v = -ofSixDigit (sixDigit (-v)) := by rw [sixRounded, if_pos hneg]
    rw [sixText, hround, if_pos (by simpa using hdigits), neg_neg,
      sixDigit_sixDigit (neg_pos.mpr hneg), sixText, if_pos hneg]
  · simp [sixRounded]
  · have hdigits := ofSixDigit_pos (sixDigit_bounds hpos).1 (sixDigit v).2
    have hround : sixRounded v = ofSixDigit (sixDigit v) := by
      rw [sixRounded, if_neg hpos.not_gt, if_neg hpos.ne']
    rw [sixText, hround, if_neg hdigits.not_gt, if_neg hdigits.ne', sixDigit_sixDigit hpos,
      sixText, if_neg hpos.not_gt, if_neg hpos.ne']

/-! ## Reading the text -/

/-- A text of digits. -/
def IsDigits (s : Text) : Prop := ∀ c ∈ s, c.isDigit = true

/-- A printed natural number has digits only. -/
theorem isDigits_natText (n : ℕ) : IsDigits (natText n) := fun _ hc =>
  Nat.isDigit_of_mem_toDigits (by decide) (by decide) hc

/-- Texts joined have digits only exactly when both do. -/
theorem isDigits_append {s t : Text} : IsDigits (s ++ t) ↔ IsDigits s ∧ IsDigits t := by
  simp only [IsDigits, List.mem_append, or_imp, forall_and]

/-- The digits end where something else begins. -/
theorem takeWhile_digits {digits rest : Text} (hdigits : IsDigits digits)
    (hrest : ∀ c ∈ rest.head?, c.isDigit = false) :
    (digits ++ rest).takeWhile Char.isDigit = digits ∧
      (digits ++ rest).dropWhile Char.isDigit = rest := by
  induction digits with
  | nil =>
    cases rest with
    | nil => simp
    | cons c rest => simp [hrest c rfl]
  | cons c digits ih =>
    have hc : c.isDigit = true := hdigits c (by simp)
    have htail := ih fun d hd => hdigits d (by simp [hd])
    simp [hc, htail.1, htail.2]

/-- Trailing zeros after the point do not change the number. -/
theorem value_rdropWhile (whole fraction : Text) :
    (Nat.ofDigitChars 10 (whole ++ fraction.rdropWhile (· == '0')) 0 : ℚ) *
        10 ^ (-(fraction.rdropWhile (· == '0')).length : ℤ) =
      Nat.ofDigitChars 10 (whole ++ fraction) 0 * 10 ^ (-fraction.length : ℤ) := by
  have hsplit : fraction.rdropWhile (· == '0') ++ fraction.rtakeWhile (· == '0') = fraction :=
    List.rdropWhile_append_rtakeWhile
  have hzeros : fraction.rtakeWhile (· == '0') =
      List.replicate (fraction.rtakeWhile (· == '0')).length '0' :=
    List.eq_replicate_of_mem fun c hc => by simpa using List.mem_rtakeWhile_imp hc
  generalize fraction.rdropWhile (· == '0') = kept at hsplit ⊢
  generalize fraction.rtakeWhile (· == '0') = zeros at hsplit hzeros
  have hvalue : Nat.ofDigitChars 10 (whole ++ kept ++ zeros) 0 =
      10 ^ zeros.length * Nat.ofDigitChars 10 (whole ++ kept) 0 := by
    rw [Nat.ofDigitChars_append, hzeros, Nat.ofDigitChars_replicate_zero, List.length_replicate]
  rw [← hsplit, ← List.append_assoc, hvalue, List.length_append]
  push_cast
  rw [neg_add, zpow_add₀ (by norm_num), zpow_neg (10 : ℚ) zeros.length, zpow_natCast]
  field_simp

/-- The digits before and after the point are read as they were written. -/
theorem readFraction_pointed {whole fraction rest : Text} (hwhole : IsDigits whole)
    (hfraction : IsDigits fraction) (hrest : ∀ c ∈ rest.head?, c.isDigit = false ∧ c ≠ '.') :
    readFraction (pointed whole fraction ++ rest) =
      ((whole ++ fraction.rdropWhile (· == '0'), (fraction.rdropWhile (· == '0')).length),
        rest) := by
  have hkept : IsDigits (fraction.rdropWhile (· == '0')) := fun c hc =>
    hfraction c ((List.rdropWhile_prefix _ _).subset hc)
  unfold pointed
  generalize fraction.rdropWhile (· == '0') = kept at hkept ⊢
  dsimp only
  split_ifs with hnil
  · obtain ⟨htake, hdrop⟩ := takeWhile_digits hwhole fun c hc => (hrest c hc).1
    have hpoint : rest.head? ≠ some '.' := fun h => (hrest '.' h).2 rfl
    simp only [readFraction, htake, hdrop, if_neg hpoint, hnil, List.append_nil, List.length_nil]
  · obtain ⟨htake, hdrop⟩ := @takeWhile_digits _ ('.' :: (kept ++ rest)) hwhole
      (by simp)
    obtain ⟨hktake, hkdrop⟩ := takeWhile_digits hkept fun c hc => (hrest c hc).1
    simp only [readFraction, List.append_assoc, List.cons_append, htake, hdrop, List.head?_cons,
      if_pos, List.tail_cons, hktake, hkdrop]

/-- Without an exponent the power of ten is zero. -/
theorem readExponent_blank (s : Text) : readExponent (' ' :: s) = (some 0, ' ' :: s) := rfl

/-- A text that begins with a digit has no sign. -/
theorem splitSign_digit {c : Char} (hc : c.isDigit = true) (s : Text) :
    splitSign (c :: s) = (false, c :: s) := by
  unfold splitSign
  split
  · next h =>
    obtain ⟨rfl, -⟩ := List.cons.inj h
    cases hc
  · next h =>
    obtain ⟨rfl, -⟩ := List.cons.inj h
    cases hc
  · rfl

/-- The printed power of ten is read back. -/
theorem readExponent_powerText (x : ℤ) (s : Text) :
    readExponent (powerText x ++ ' ' :: s) = (some x, ' ' :: s) := by
  set digits := (if x.natAbs < 10 then ['0'] else []) ++ natText x.natAbs with hset
  have hdigits : IsDigits digits := by
    rw [hset, isDigits_append]
    refine ⟨?_, isDigits_natText _⟩
    split_ifs <;> simp [IsDigits]
  have hvalue : Nat.ofDigitChars 10 digits 0 = x.natAbs := by
    have hten : Nat.ofDigitChars 10 (natText x.natAbs) 0 = x.natAbs := Nat.ofDigitChars_ten_toDigits
    rw [hset]
    split_ifs
    · exact hten
    · exact hten
  have hne : digits ≠ [] := by simp [hset, natText]
  obtain ⟨htake, hdrop⟩ := @takeWhile_digits _ (' ' :: s) hdigits (by simp)
  have hsign : splitSign ((if x < 0 then '-' else '+') :: (digits ++ ' ' :: s)) =
      (decide (x < 0), digits ++ ' ' :: s) := by
    split_ifs with hneg <;> simp [splitSign, hneg]
  unfold powerText
  rw [← hset]
  simp only [readExponent, List.cons_append, true_or, if_true, hsign, htake, hdrop, hvalue,
    if_neg hne, decide_eq_true_eq, Prod.mk.injEq, Option.some.injEq, and_true]
  split_ifs <;> omega

/-- Six digits are read as the number that has them. -/
theorem readFraction_sixDigitText {d : ℕ × ℤ} (hlow : 10 ^ 5 ≤ d.1) (hhigh : d.1 < 10 ^ 6)
    (s : Text) :
    ∃ digits places power rest,
      readFraction (sixDigitText d ++ ' ' :: s) = ((digits, places), rest) ∧ digits ≠ [] ∧
        readExponent rest = (some power, ' ' :: s) ∧
          (Nat.ofDigitChars 10 digits 0 : ℚ) * 10 ^ (power - places) = ofSixDigit d := by
  obtain ⟨m, x⟩ := d
  have hlength : (natText m).length = 6 := by
    have hle : (natText m).length ≤ 6 :=
      (Nat.length_toDigits_le_iff (by decide) (by decide)).mpr hhigh
    have hgt : ¬ (natText m).length ≤ 5 := fun h =>
      absurd ((Nat.length_toDigits_le_iff (by decide) (by decide)).mp h) (by simpa using hlow)
    omega
  have hm : Nat.ofDigitChars 10 (natText m) 0 = m := Nat.ofDigitChars_ten_toDigits
  have hdigits := isDigits_natText m
  unfold sixDigitText
  dsimp only
  split_ifs with hscientific
  · have hsplit := List.take_append_drop 1 (natText m)
    rw [← hsplit, isDigits_append] at hdigits
    have hvalue := value_rdropWhile ((natText m).take 1) ((natText m).drop 1)
    rw [List.append_assoc, readFraction_pointed hdigits.1 hdigits.2 (by simp [powerText])]
    refine ⟨_, _, _, _, rfl, ?_, readExponent_powerText x s, ?_⟩
    · simp [← List.length_eq_zero_iff, hlength]
    · rw [sub_eq_add_neg, add_comm, zpow_add₀ (by norm_num), ← mul_assoc, hvalue, hsplit, hm,
        List.length_drop, hlength, mul_assoc, ← zpow_add₀ (by norm_num), ofSixDigit]
      congr 2
      omega
  · set digits := List.replicate (-x).toNat '0' ++ natText m with hset
    have hall : IsDigits digits := by
      rw [hset, isDigits_append]
      exact ⟨fun c hc => by rw [List.eq_of_mem_replicate hc]; rfl, hdigits⟩
    have hsplit := List.take_append_drop (x.toNat + 1) digits
    have hvalue := value_rdropWhile (digits.take (x.toNat + 1)) (digits.drop (x.toNat + 1))
    have hzeros : Nat.ofDigitChars 10 digits 0 = m := by
      rw [hset, Nat.ofDigitChars_append, Nat.ofDigitChars_replicate_zero, mul_zero, hm]
    have hcount : digits.length = (-x).toNat + 6 := by
      rw [hset, List.length_append, List.length_replicate, hlength]
    rw [← hsplit, isDigits_append] at hall
    rw [readFraction_pointed hall.1 hall.2 (by simp)]
    refine ⟨_, _, _, _, rfl, ?_, readExponent_blank s, ?_⟩
    · simp [← List.length_eq_zero_iff, hcount]
    · rw [zero_sub, hvalue, hsplit, hzeros, List.length_drop, hcount, ofSixDigit]
      congr 2
      omega

/-- Digits have no blanks between them. -/
theorem blankFree_of_isDigits {s : Text} (h : IsDigits s) : BlankFree s :=
  fun c hc => isSpace_of_isDigit (h c hc)

/-- Digits with a point in them are one word. -/
theorem isWord_pointed {whole fraction : Text} (hne : whole ≠ []) (hwhole : IsDigits whole)
    (hfraction : IsDigits fraction) : IsWord (pointed whole fraction) := by
  have hkept : BlankFree (fraction.rdropWhile (· == '0')) := fun c hc =>
    blankFree_of_isDigits hfraction c ((List.rdropWhile_prefix _ _).subset hc)
  unfold pointed
  dsimp only
  split_ifs
  · exact ⟨hne, blankFree_of_isDigits hwhole⟩
  · refine ⟨by simp, fun c hc => ?_⟩
    rcases List.mem_append.mp hc with hc | hc
    · exact blankFree_of_isDigits hwhole c hc
    · rcases List.mem_cons.mp hc with rfl | hc
      · rfl
      · exact hkept c hc

/-- The printed power of ten has no blanks. -/
theorem blankFree_powerText (x : ℤ) : BlankFree (powerText x) := by
  have hnat := blankFree_natText x.natAbs
  unfold powerText
  intro c hc
  simp only [List.mem_cons, List.mem_append] at hc
  rcases hc with rfl | rfl | hc | hc
  · rfl
  · split_ifs <;> rfl
  · split_ifs at hc
    · rw [List.mem_singleton.mp hc]
      rfl
    · cases hc
  · exact hnat c hc

/-- A printed number of six digits is one word. -/
theorem isWord_sixDigitText (d : ℕ × ℤ) : IsWord (sixDigitText d) := by
  have hne : natText d.1 ≠ [] := by simp [natText]
  have hdigits := isDigits_natText d.1
  unfold sixDigitText
  dsimp only
  split_ifs
  · have hword : IsWord (pointed ((natText d.1).take 1) ((natText d.1).drop 1)) :=
      isWord_pointed (by simp [hne]) (fun c hc => hdigits c (List.mem_of_mem_take hc))
        fun c hc => hdigits c (List.mem_of_mem_drop hc)
    refine ⟨List.append_ne_nil_of_left_ne_nil hword.1 _, fun c hc => ?_⟩
    rcases List.mem_append.mp hc with hc | hc
    · exact hword.2 c hc
    · exact blankFree_powerText _ c hc
  · have hall : IsDigits (List.replicate (-d.2).toNat '0' ++ natText d.1) :=
      isDigits_append.mpr ⟨fun c hc => by rw [List.eq_of_mem_replicate hc]; rfl, hdigits⟩
    exact isWord_pointed (by simp [hne]) (fun c hc => hall c (List.mem_of_mem_take hc))
      fun c hc => hall c (List.mem_of_mem_drop hc)

/-- A printed double is one word. -/
theorem isWord_sixText (v : ℚ) : IsWord (sixText v) := by
  unfold sixText
  split_ifs
  · refine ⟨by simp, fun c hc => ?_⟩
    rcases List.mem_cons.mp hc with rfl | hc
    · rfl
    · exact (isWord_sixDigitText _).2 c hc
  · decide
  · exact isWord_sixDigitText _

/-- What starts with a number has no sign. -/
theorem splitSign_of_readFraction {s : Text} (h : (readFraction s).1.1 ≠ []) :
    splitSign s = (false, s) := by
  unfold splitSign
  split
  · exact absurd rfl h
  · exact absurd rfl h
  · rfl

/-- The steps of an extraction that succeeds. -/
theorem extractDecimal_eq {s t u w rest digits : Text} {negative : Bool} {places : ℕ} {power : ℤ}
    (hskip : s.dropWhile isSpace = t) (hsign : splitSign t = (negative, u))
    (hfraction : readFraction u = ((digits, places), w)) (hne : digits ≠ [])
    (hpower : readExponent w = (some power, rest))
    (hbound : (Nat.ofDigitChars 10 digits 0 : ℚ) * 10 ^ (power - places) < doubleBound) :
    extractDecimal (some s) =
      (if negative then -((Nat.ofDigitChars 10 digits 0 : ℚ) * 10 ^ (power - places))
        else (Nat.ofDigitChars 10 digits 0 : ℚ) * 10 ^ (power - places), some rest) := by
  simp only [extractDecimal, hskip, hsign, hfraction, if_neg hne, hpower, if_neg hbound.not_ge]

/-- What is printed is read as the rounded number. -/
theorem extractDecimal_sixText {v : ℚ} (hv : |v| ≤ doubleMax) {blanks : Text}
    (hblanks : ∀ c ∈ blanks, isSpace c = true) (s : Text) :
    extractDecimal (some (blanks ++ (sixText v ++ ' ' :: s))) =
      (sixRounded v, some (' ' :: s)) := by
  have hskip : (blanks ++ (sixText v ++ ' ' :: s)).dropWhile isSpace = sixText v ++ ' ' :: s := by
    rw [List.dropWhile_append_of_pos hblanks, dropWhile_word (isWord_sixText v)]
  rcases lt_trichotomy v 0 with hneg | rfl | hpos
  · have hpos := neg_pos.mpr hneg
    rw [abs_of_neg hneg] at hv
    obtain ⟨hlow, hhigh⟩ := sixDigit_bounds hpos
    obtain ⟨digits, places, power, rest, hfraction, hne, hpower, hvalue⟩ :=
      readFraction_sixDigitText hlow hhigh s
    have hsign : splitSign (sixText v ++ ' ' :: s) =
        (true, sixDigitText (sixDigit (-v)) ++ ' ' :: s) := by
      rw [sixText, if_pos hneg]
      rfl
    rw [extractDecimal_eq hskip hsign hfraction hne hpower
      (hvalue ▸ ofSixDigit_lt_doubleBound hpos hv), hvalue, sixRounded, if_pos hneg, if_pos rfl]
  · have hfraction : readFraction ('0' :: ' ' :: s) = ((['0'], 0), ' ' :: s) := rfl
    rw [extractDecimal_eq hskip rfl hfraction (by simp) (readExponent_blank s) (by decide +kernel)]
    have hzero : Nat.ofDigitChars 10 ['0'] 0 = 0 := rfl
    simp [sixRounded, hzero]
  · rw [abs_of_pos hpos] at hv
    obtain ⟨hlow, hhigh⟩ := sixDigit_bounds hpos
    obtain ⟨digits, places, power, rest, hfraction, hne, hpower, hvalue⟩ :=
      readFraction_sixDigitText hlow hhigh s
    have htext : sixText v = sixDigitText (sixDigit v) := by
      rw [sixText, if_neg hpos.not_gt, if_neg hpos.ne']
    rw [htext] at hskip ⊢
    have hsign := splitSign_of_readFraction (by rw [hfraction]; exact hne)
    rw [extractDecimal_eq hskip hsign hfraction hne hpower
      (hvalue ▸ ofSixDigit_lt_doubleBound hpos hv), hvalue, sixRounded, if_neg hpos.not_gt,
      if_neg hpos.ne']
    rfl

end AcCore.Lib
