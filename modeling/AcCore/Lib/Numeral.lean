import AcCore.Lib.Positional
import AcCore.Lib.Stream

/-!
# Decimal numerals with a point

The numerals with a bounded number of digits after the point, their values, and
the one among them that has all these digits and no leading zero.
-/

namespace AcCore.Lib

/-- A decimal numeral of value `v`: digits with at most one point, and at most
`places` digits after it. -/
def IsNumeral (places : ℕ) (s : Text) (v : ℚ) : Prop :=
  ∃ whole fraction : Text, IsDigits (whole ++ fraction) ∧ whole ++ fraction ≠ [] ∧
    fraction.length ≤ places ∧ (s = whole ++ '.' :: fraction ∨ fraction = [] ∧ s = whole) ∧
    v = Nat.ofDigitChars 10 (whole ++ fraction) 0 / 10 ^ fraction.length

/-- The numeral of value `v` that has `places` digits after the point, and a zero
before it only when nothing else is there. -/
def IsCanonical (places : ℕ) (s : Text) (v : ℚ) : Prop :=
  ∃ whole fraction : Text, IsDigits (whole ++ fraction) ∧
    (whole = ['0'] ∨ whole ≠ [] ∧ whole.head? ≠ some '0') ∧ fraction.length = places ∧
    s = whole ++ '.' :: fraction ∧
    v = Nat.ofDigitChars 10 (whole ++ fraction) 0 / 10 ^ fraction.length

/-- The whole part of a canonical numeral is not empty. -/
theorem ne_nil_of_leading {whole : Text}
    (h : whole = ['0'] ∨ whole ≠ [] ∧ whole.head? ≠ some '0') : whole ≠ [] := by
  rcases h with rfl | ⟨hne, -⟩
  · simp
  · exact hne

/-- A canonical numeral is a numeral of its value. -/
theorem IsCanonical.isNumeral {places : ℕ} {s : Text} {v : ℚ} (h : IsCanonical places s v) :
    IsNumeral places s v := by
  obtain ⟨whole, fraction, hdigits, hwhole, hlength, hs, hv⟩ := h
  exact ⟨whole, fraction, hdigits,
    List.append_ne_nil_of_left_ne_nil (ne_nil_of_leading hwhole) _, hlength.le, Or.inl hs, hv⟩

/-- The digits before and after the point are found by looking for it. -/
theorem parts_eq {s whole fraction : Text} (hwhole : IsDigits whole)
    (hs : s = whole ++ '.' :: fraction ∨ fraction = [] ∧ s = whole) :
    s.takeWhile (· ≠ '.') = whole ∧ (s.dropWhile (· ≠ '.')).tail = fraction := by
  have hplain : ∀ c ∈ whole, decide (c ≠ '.') = true := fun c hc => by
    rw [decide_eq_true_eq]
    rintro rfl
    exact absurd (hwhole '.' hc) (by decide)
  rcases hs with rfl | ⟨rfl, rfl⟩
  · rw [List.takeWhile_append_of_pos hplain, List.dropWhile_append_of_pos hplain]
    simp
  · rw [List.takeWhile_eq_self_iff.mpr hplain, List.dropWhile_eq_nil_iff.mpr hplain]
    exact ⟨rfl, rfl⟩

/-- A numeral has one value. -/
theorem IsNumeral.unique {places : ℕ} {s : Text} {v w : ℚ} (hv : IsNumeral places s v)
    (hw : IsNumeral places s w) : v = w := by
  obtain ⟨whole, fraction, hdigits, -, -, hs, rfl⟩ := hv
  obtain ⟨whole', fraction', hdigits', -, -, hs', rfl⟩ := hw
  obtain ⟨htake, hdrop⟩ := parts_eq (isDigits_append.mp hdigits).1 hs
  obtain ⟨htake', hdrop'⟩ := parts_eq (isDigits_append.mp hdigits').1 hs'
  rw [← htake, ← hdrop, htake', hdrop']

/-! ## Digits -/

/-- The number of a digit. -/
def digitValue (c : Char) : ℕ := c.toNat - '0'.toNat

/-- The digits are the characters from 48 to 57. -/
theorem digit_bounds {c : Char} (h : c.isDigit = true) : 48 ≤ c.toNat ∧ c.toNat ≤ 57 :=
  Char.isDigit_iff_toNat.mp h

/-- A digit has a value below ten. -/
theorem digitValue_lt {c : Char} (h : c.isDigit = true) : digitValue c < 10 := by
  obtain ⟨hlow, hhigh⟩ := digit_bounds h
  have hzero : '0'.toNat = 48 := rfl
  unfold digitValue
  omega

/-- Digits of one value are the same. -/
theorem digitValue_inj {c d : Char} (hc : c.isDigit = true) (hd : d.isDigit = true)
    (h : digitValue c = digitValue d) : c = d := by
  obtain ⟨hlowc, -⟩ := digit_bounds hc
  obtain ⟨hlowd, -⟩ := digit_bounds hd
  have hzero : '0'.toNat = 48 := rfl
  unfold digitValue at h
  exact Char.toNat_inj.mp (by omega)

/-- The number that a text of digits is, in positional notation. -/
theorem ofDigitChars_eq_digitsValue (s : Text) :
    Nat.ofDigitChars 10 s 0 = digitsValue 10 (s.map digitValue) := by
  induction s with
  | nil => rfl
  | cons c s ih =>
    rw [Nat.ofDigitChars_cons, Nat.ofDigitChars_eq_ofDigitChars_zero, ih, List.map_cons,
      digitsValue_cons, List.length_map, mul_comm, mul_zero, zero_add]
    rfl

/-- The digits of a text are below ten. -/
theorem IsDigits.map_lt {s : Text} (h : IsDigits s) : ∀ d ∈ s.map digitValue, d < 10 := by
  intro d hd
  obtain ⟨c, hc, rfl⟩ := List.mem_map.mp hd
  exact digitValue_lt (h c hc)

/-- Texts of the same digits are the same. -/
theorem IsDigits.map_inj {s t : Text} (hs : IsDigits s) (ht : IsDigits t)
    (h : s.map digitValue = t.map digitValue) : s = t := by
  induction s generalizing t with
  | nil => exact (List.map_eq_nil_iff.mp h.symm).symm
  | cons c s ih =>
    obtain ⟨d, t, rfl, hd, htail⟩ := List.map_eq_cons_iff.mp h.symm
    have hc : c = d := digitValue_inj (hs c List.mem_cons_self) (ht d List.mem_cons_self) hd.symm
    rw [hc, ih (fun x hx => hs x (List.mem_cons_of_mem c hx))
      (fun x hx => ht x (List.mem_cons_of_mem d hx)) htail.symm]

/-- A number of so many digits is below that power of ten. -/
theorem IsDigits.ofDigitChars_lt {s : Text} (h : IsDigits s) :
    Nat.ofDigitChars 10 s 0 < 10 ^ s.length := by
  have hlt := digitsValue_lt (by norm_num : 1 < 10) h.map_lt
  rwa [← ofDigitChars_eq_digitsValue, List.length_map] at hlt

/-- Without a leading zero there are no fewer digits than the number has. -/
theorem IsDigits.le_ofDigitChars {c : Char} {s : Text} (h : IsDigits (c :: s)) (hc : c ≠ '0') :
    10 ^ s.length ≤ Nat.ofDigitChars 10 (c :: s) 0 := by
  have hdigit : c.isDigit = true := h c List.mem_cons_self
  have hne : digitValue c ≠ 0 := fun hzero => hc (digitValue_inj hdigit rfl hzero)
  rw [ofDigitChars_eq_digitsValue, List.map_cons, digitsValue_cons, List.length_map]
  exact le_add_right (Nat.le_mul_of_pos_left _ (Nat.pos_of_ne_zero hne))

/-- The numeral that is printed has no leading zero. -/
theorem head?_natText {n : ℕ} (hn : n ≠ 0) : (natText n).head? ≠ some '0' := by
  intro hhead
  obtain ⟨s, hs⟩ := List.head?_eq_some_iff.mp hhead
  have hdigits := isDigits_natText n
  have hvalue : Nat.ofDigitChars 10 (natText n) 0 = n := Nat.ofDigitChars_ten_toDigits
  rw [hs] at hdigits hvalue
  have htail : IsDigits s := fun c hc => hdigits c (List.mem_cons_of_mem _ hc)
  have hlt := htail.ofDigitChars_lt
  rw [Nat.ofDigitChars_cons] at hvalue
  have hsmall : n < 10 ^ s.length := hvalue ▸ hlt
  have hpos : 0 < s.length := by
    by_contra hzero
    rw [Nat.eq_zero_of_not_pos hzero, pow_zero] at hsmall
    omega
  have hlength := (Nat.length_toDigits_le_iff (by norm_num) hpos).mpr hsmall
  have hcount : (Nat.toDigits 10 n).length = s.length + 1 := congrArg List.length hs
  omega

/-! ## One canonical numeral -/

/-- Without leading zeros a number determines its digits. -/
theorem digits_eq_of_value_eq {s t : Text} (hs : IsDigits s) (ht : IsDigits t)
    (hsz : s.head? ≠ some '0') (htz : t.head? ≠ some '0')
    (h : Nat.ofDigitChars 10 s 0 = Nat.ofDigitChars 10 t 0) : s = t := by
  have hnoLeadingZero : ∀ {s : Text}, IsDigits s → s.head? ≠ some '0' →
      NoLeadingZero (s.map digitValue) := by
    intro s hs hz d hd hzero
    cases s with
    | nil => cases hd
    | cons c s =>
      obtain rfl : digitValue c = d := by simpa using hd
      have hc := digitValue_inj (hs c List.mem_cons_self) (by rfl : ('0').isDigit = true) hzero
      exact hz (by rw [hc, List.head?_cons])
  rw [ofDigitChars_eq_digitsValue, ofDigitChars_eq_digitsValue] at h
  exact hs.map_inj ht (eq_of_digitsValue_eq (by norm_num) hs.map_lt ht.map_lt
    (hnoLeadingZero hs hsz) (hnoLeadingZero ht htz) h)

/-- A zero before the point is a number below the least one without. -/
theorem value_lt_of_zero {whole fraction fraction' : Text}
    (hdigits : IsDigits (whole ++ fraction)) (hne : whole ≠ []) (hhead : whole.head? ≠ some '0')
    (hdigits' : IsDigits (['0'] ++ fraction')) (hlength : fraction'.length = fraction.length) :
    Nat.ofDigitChars 10 (['0'] ++ fraction') 0 < Nat.ofDigitChars 10 (whole ++ fraction) 0 := by
  obtain ⟨c, whole, rfl⟩ := List.exists_cons_of_ne_nil hne
  have hc : c ≠ '0' := fun hc => hhead (by rw [hc, List.head?_cons])
  have hsmall := (isDigits_append.mp hdigits').2.ofDigitChars_lt
  have hgreat := IsDigits.le_ofDigitChars hdigits hc
  calc Nat.ofDigitChars 10 (['0'] ++ fraction') 0
      = Nat.ofDigitChars 10 fraction' 0 := by
        rw [List.singleton_append, Nat.ofDigitChars_cons]
        rfl
    _ < 10 ^ fraction.length := hlength ▸ hsmall
    _ ≤ 10 ^ (whole ++ fraction).length :=
        Nat.pow_le_pow_right (by norm_num) (by rw [List.length_append]; omega)
    _ ≤ Nat.ofDigitChars 10 (c :: whole ++ fraction) 0 := hgreat

/-- A number has one canonical numeral. -/
theorem IsCanonical.unique {places : ℕ} {s t : Text} {v : ℚ} (hs : IsCanonical places s v)
    (ht : IsCanonical places t v) : s = t := by
  obtain ⟨whole, fraction, hdigits, hwhole, hlength, rfl, hv⟩ := hs
  obtain ⟨whole', fraction', hdigits', hwhole', hlength', rfl, hv'⟩ := ht
  have hcount : fraction.length = fraction'.length := hlength.trans hlength'.symm
  have hvalue : Nat.ofDigitChars 10 (whole ++ fraction) 0 =
      Nat.ofDigitChars 10 (whole' ++ fraction') 0 := by
    rw [hv, hcount] at hv'
    have hten : (10 : ℚ) ^ fraction'.length ≠ 0 := by positivity
    exact_mod_cast (div_left_inj' hten).mp hv'
  suffices h : whole ++ fraction = whole' ++ fraction' by
    obtain ⟨rfl, rfl⟩ := List.append_inj' h hcount
    rfl
  rcases hwhole with rfl | ⟨hne, hhead⟩
  · rcases hwhole' with rfl | ⟨hne', hhead'⟩
    · rw [ofDigitChars_eq_digitsValue, ofDigitChars_eq_digitsValue] at hvalue
      refine hdigits.map_inj hdigits' (List.reverse_inj.mp ?_)
      have hlt := fun d hd => hdigits.map_lt d (List.mem_reverse.mp hd)
      have hlt' := fun d hd => hdigits'.map_lt d (List.mem_reverse.mp hd)
      exact Nat.ofDigits_inj_of_len_eq (by norm_num) (by simp [hcount]) hlt hlt' hvalue
    · have hlt := value_lt_of_zero hdigits' hne' hhead' hdigits hcount
      omega
  · rcases hwhole' with rfl | ⟨hne', hhead'⟩
    · have hlt := value_lt_of_zero hdigits hne hhead hdigits' hcount.symm
      omega
    · refine digits_eq_of_value_eq hdigits hdigits' ?_ ?_ hvalue
      · rwa [List.head?_append_of_ne_nil _ hne]
      · rwa [List.head?_append_of_ne_nil _ hne']

/-! ## Digits on a stream -/

/-- A text of digits is read as their number, and a number that is too great as the
greatest. -/
theorem extractInt64_digits {s : Text} (hs : IsDigits s) (hne : s ≠ []) :
    (extractInt64 (some s)).1.toInt = min (Nat.ofDigitChars 10 s 0 : ℤ) (2 ^ 63 - 1) := by
  obtain ⟨c, t, rfl⟩ := List.exists_cons_of_ne_nil hne
  have hc : c.isDigit = true := hs c List.mem_cons_self
  have hskip : (c :: t).dropWhile isSpace = c :: t := by
    rw [List.dropWhile_cons, isSpace_of_isDigit hc]
    rfl
  obtain ⟨htake, hdrop⟩ := @takeWhile_digits _ [] hs (by simp)
  rw [List.append_nil] at htake hdrop
  have hminus : (c :: t).head? ≠ some '-' := by
    rw [List.head?_cons, ne_eq, Option.some.injEq]
    rintro rfl
    cases hc
  have hplus : (c :: t).head? ≠ some '+' := by
    rw [List.head?_cons, ne_eq, Option.some.injEq]
    rintro rfl
    cases hc
  have hread := readInteger_eq hskip (if_neg (not_or.mpr ⟨hminus, hplus⟩)) htake hdrop hne
  simp only [extractInt64, hread, decide_eq_false hminus, Bool.false_eq_true, if_false]
  split_ifs with hlow hhigh
  · omega
  · rw [min_eq_right (by omega)]
    rfl
  · rw [min_eq_left (by omega)]
    exact Int64.toInt_ofInt_of_le (by omega) (by omega)

end AcCore.Lib
