import AcCore.Lib.Numeral
import AcCore.Tex.Cex.Engine

/-!
# Amounts as texts

How an amount is read from a text, character by character, and how it is printed.
What is printed is read as the same amount, and a numeral is read as the amount
that it stands for as long as 64 bits hold it: one that is too great is read as
the greatest amount.
-/

namespace AcCore.Tex.Cex

open Lib

/-! ## The text is read -/

/-- The loop of `encode(string)` over the characters: the position of the dot, if
there is one; `none` when the code returns 0. -/
def scan : Text → ℕ → Option ℕ → Option (Option ℕ)
  | [], _, pos => some pos
  | h :: s, i, pos =>
    if h = '.' then
      if pos ≠ none then none else scan s i (some i)
    else if h < '0' ∨ '9' < h then none
    else scan s (i + 1) pos

/-- The digits that `encode(string)` extracts: the text is filled up with zeros and
the dot is taken out; `none` when the code returns 0. -/
def padded (s : Text) (pos : Option ℕ) : Option Text :=
  match pos with
  | none => some (s ++ List.replicate precision '0')
  | some pos =>
    let rpos := s.length - pos
    if rpos > precision + 1 then none
    else
      let s := s ++ List.replicate (precision + 1 - rpos) '0'
      some (s.take pos ++ s.drop (pos + 1))

/-- `encode(string)`, as it is written. -/
def encodeString (s : Text) : ℤ :=
  if s = [] then 0
  else
    match (scan s 0 none).bind (padded s) with
    | none => 0
    | some s => (extractInt64 (some s)).1.toInt

/-- A character that is no point is a digit, or ends the scan. -/
theorem scan_cons {c : Char} (hc : c ≠ '.') (s : Text) (i : ℕ) (pos : Option ℕ) :
    scan (c :: s) i pos = if c.isDigit then scan s (i + 1) pos else none := by
  have hdigit : (c < '0' ∨ '9' < c) ↔ ¬ c.isDigit = true := by
    rw [Char.isDigit_iff_toNat, not_and_or, not_le, not_le]
    rfl
  rw [scan, if_neg hc]
  by_cases h : c.isDigit = true
  · rw [if_pos h, if_neg (fun hout => hdigit.mp hout h)]
  · rw [if_neg h, if_pos (hdigit.mpr h)]

/-- After the dot there are digits only. -/
theorem scan_some (s : Text) (i p : ℕ) :
    scan s i (some p) = if s.all Char.isDigit then some (some p) else none := by
  induction s generalizing i with
  | nil => rfl
  | cons c s ih =>
    by_cases hdot : c = '.'
    · subst hdot
      simp [scan]
    · rw [scan_cons hdot, List.all_cons]
      cases hc : c.isDigit with
      | true => simpa using ih (i + 1)
      | false => simp

/-- Up to the dot there are digits only, and the dot is where they end. -/
theorem scan_none (s : Text) (i : ℕ) :
    scan s i none =
      if (s.takeWhile (· ≠ '.') ++ (s.dropWhile (· ≠ '.')).tail).all Char.isDigit then
        some (if s.dropWhile (· ≠ '.') = [] then none
          else some (i + (s.takeWhile (· ≠ '.')).length))
      else none := by
  induction s generalizing i with
  | nil => rfl
  | cons c s ih =>
    by_cases hdot : c = '.'
    · subst hdot
      rw [scan, if_pos rfl, if_neg (by simp), scan_some]
      simp
    · rw [scan_cons hdot, List.takeWhile_cons_of_pos (by simpa using hdot),
        List.dropWhile_cons_of_pos (by simpa using hdot), List.cons_append, List.all_cons]
      cases hc : c.isDigit with
      | true =>
        rw [if_pos rfl, ih, Bool.true_and, List.length_cons, add_assoc, add_comm 1]
      | false => simp

/-- The digits that are extracted: those of the text, with zeros after them. -/
theorem padded_eq {s : Text} (pos : Option ℕ)
    (hpos : pos = if s.dropWhile (· ≠ '.') = [] then none
      else some (s.takeWhile (· ≠ '.')).length) :
    padded s pos =
      if (s.dropWhile (· ≠ '.')).tail.length ≤ precision then
        some (s.takeWhile (· ≠ '.') ++ (s.dropWhile (· ≠ '.')).tail ++
          List.replicate (precision - (s.dropWhile (· ≠ '.')).tail.length) '0')
      else none := by
  have hsplit : s.takeWhile (· ≠ '.') ++ s.dropWhile (· ≠ '.') = s :=
    List.takeWhile_append_dropWhile
  generalize s.takeWhile (· ≠ '.') = whole at hpos hsplit ⊢
  generalize s.dropWhile (· ≠ '.') = rest at hpos hsplit ⊢
  cases rest with
  | nil =>
    rw [if_pos rfl] at hpos
    rw [List.append_nil] at hsplit
    subst hpos hsplit
    simp [padded]
  | cons dot fraction =>
    rw [if_neg (by simp)] at hpos
    subst hpos hsplit
    have hrpos : (whole ++ dot :: fraction).length - whole.length = fraction.length + 1 := by
      rw [List.length_append, List.length_cons]
      omega
    have hzeros : precision + 1 - (fraction.length + 1) = precision - fraction.length := by omega
    simp only [padded, hrpos]
    rw [List.tail_cons]
    split_ifs
    · omega
    · rfl
    · rw [hzeros, List.append_assoc, List.take_left, List.drop_append,
        List.drop_of_length_le (by omega)]
      simp
    · omega

/-- The loop and the extraction give what the engine takes for `encode(string)`. -/
theorem encodeString_eq (s : Text) : encodeString s = encode s := by
  unfold encodeString encode
  rw [scan_none]
  dsimp only
  by_cases hempty : s = []
  · subst hempty
    decide
  rw [if_neg hempty]
  by_cases hdigits : (s.takeWhile (· ≠ '.') ++ (s.dropWhile (· ≠ '.')).tail).all Char.isDigit = true
  · rw [if_pos hdigits, Option.bind_some, padded_eq _ (by rw [zero_add])]
    by_cases hlong : (s.dropWhile (· ≠ '.')).tail.length ≤ precision
    · rw [if_pos hlong, if_pos ⟨hdigits, hlong⟩]
      refine extractInt64_digits (isDigits_append.mpr ⟨List.all_eq_true.mp hdigits, ?_⟩) ?_
      · intro c hc
        rw [List.eq_of_mem_replicate hc]
        rfl
      · -- there is a digit, or nothing but the dot, and then there are zeros
        intro hnil
        have hlength := congrArg List.length hnil
        simp only [List.length_append, List.length_replicate, List.length_nil] at hlength
        have hprecision : precision = 5 := rfl
        omega
    · rw [if_neg hlong, if_neg (fun h => hlong h.2)]
  · rw [if_neg hdigits, if_neg (fun h => hdigits h.1)]
    rfl

/-! ## Numerals -/

/-- A numeral is read as its number of hundred-thousandths, or the greatest amount. -/
theorem encode_of_isNumeral {s : Text} {v : ℚ} (h : IsNumeral precision s v) :
    (encode s : ℚ) = min (v * 10 ^ precision) (2 ^ 63 - 1) := by
  obtain ⟨whole, fraction, hdigits, -, hlength, hs, rfl⟩ := h
  have hparts := parts_eq (isDigits_append.mp hdigits).1 hs
  have hvalue : (Nat.ofDigitChars 10
      (whole ++ fraction ++ List.replicate (precision - fraction.length) '0') 0 : ℚ) =
        Nat.ofDigitChars 10 (whole ++ fraction) 0 / 10 ^ fraction.length * 10 ^ precision := by
    rw [Nat.ofDigitChars_append, Nat.ofDigitChars_replicate_zero]
    have hsplit : (10 : ℚ) ^ precision =
        10 ^ (precision - fraction.length) * 10 ^ fraction.length := by
      rw [← pow_add, Nat.sub_add_cancel hlength]
    rw [hsplit]
    push_cast
    field_simp
  unfold encode
  rw [hparts.1, hparts.2]
  dsimp only
  rw [if_pos ⟨List.all_eq_true.mpr hdigits, hlength⟩, ← hvalue]
  norm_num

/-- What is not read as 0 is a numeral. -/
theorem exists_isNumeral_of_encode {s : Text} (h : encode s ≠ 0) :
    ∃ v, IsNumeral precision s v := by
  have hsplit : s.takeWhile (· ≠ '.') ++ s.dropWhile (· ≠ '.') = s :=
    List.takeWhile_append_dropWhile
  have hdot := List.head?_dropWhile_not (· ≠ '.') s
  unfold encode at h
  dsimp only at h
  generalize s.takeWhile (· ≠ '.') = whole at h hsplit
  generalize s.dropWhile (· ≠ '.') = rest at h hsplit hdot
  by_cases hdigits : (whole ++ rest.tail).all Char.isDigit = true ∧ rest.tail.length ≤ precision
  · rw [if_pos hdigits] at h
    refine ⟨_, whole, rest.tail, List.all_eq_true.mp hdigits.1, ?_, hdigits.2, ?_, rfl⟩
    · intro hnil
      rw [hnil, List.nil_append, Nat.ofDigitChars_replicate_zero] at h
      exact h rfl
    · cases rest with
      | nil => exact Or.inr ⟨rfl, by rw [← hsplit, List.append_nil]⟩
      | cons c rest =>
        obtain rfl : c = '.' := by simpa using hdot
        exact Or.inl hsplit.symm
  · rw [if_neg hdigits] at h
    exact absurd rfl h

/-- The amount of a numeral that is in range has the value of the numeral. -/
theorem isNumeral_of_encode {s : Text} (h : encode s ≠ 0)
    (hrange : ∀ v, IsNumeral precision s v → v * one ≤ 2 ^ 63 - 1) :
    IsNumeral precision s (encode s / one) := by
  obtain ⟨v, hv⟩ := exists_isNumeral_of_encode h
  have hone : (one : ℚ) = 10 ^ precision := by norm_num [one, precision]
  have hvalue := encode_of_isNumeral hv
  rw [← hone, min_eq_left (hrange v hv)] at hvalue
  rwa [hvalue, mul_div_cancel_right₀ v (by norm_num [one])]

/-- A text is read as the amount that it stands for, and what is no numeral in the
range as 0; what is credited or traded is what the text says. -/
structure Encodes (s : Text) : Prop where
  numeral : ∀ v, IsNumeral precision s v → v * one ≤ 2 ^ 63 - 1 → (encodeString s : ℚ) = v * one
  other : (∀ v, IsNumeral precision s v → 2 ^ 63 - 1 < v * one) → encodeString s = 0
  credited : ∀ amount, parseAmount s = .ok amount → IsNumeral precision s (amount / one)
  traded : ∀ (input : TradeInput) (t : TradeOrder), input.parse = .ok t →
    (input.amount = s → IsNumeral precision s (t.amount / one)) ∧
      (input.rate = s → IsNumeral precision s (t.rate / one))

/-- **When a text is read as what it stands for.** It is exactly when it is no
numeral, or one whose amount has 63 bits: one that is too great is read as the
greatest amount. -/
theorem encodes_iff (s : Text) :
    Encodes s ↔ ∀ v, IsNumeral precision s v → v * one ≤ 2 ^ 63 - 1 := by
  have hone : (one : ℚ) = 10 ^ precision := by norm_num [one, precision]
  constructor
  · intro h v hv
    by_contra hgreat
    have hzero := h.other fun w hw => hv.unique hw ▸ not_le.mp hgreat
    have hvalue := encode_of_isNumeral hv
    rw [← hone, min_eq_right (not_le.mp hgreat).le, ← encodeString_eq, hzero] at hvalue
    norm_num at hvalue
  · intro hrange
    refine ⟨fun v hv hle => ?_, fun hout => ?_, fun amount hamount => ?_, fun input t ht => ?_⟩
    · rw [encodeString_eq, encode_of_isNumeral hv, ← hone, min_eq_left hle]
    · rw [encodeString_eq]
      by_contra hzero
      obtain ⟨v, hv⟩ := exists_isNumeral_of_encode hzero
      exact absurd (hrange v hv) (not_le.mpr (hout v hv))
    · obtain ⟨rfl, hzero⟩ := encode_of_parseAmount hamount
      exact isNumeral_of_encode hzero hrange
    · obtain ⟨⟨hamount, hzero⟩, hrate, hzero'⟩ := encode_of_parse ht
      rw [hamount, hrate]
      refine ⟨?_, ?_⟩
      · rintro rfl
        exact isNumeral_of_encode hzero hrange
      · rintro rfl
        exact isNumeral_of_encode hzero' hrange

/-- Twenty digits are no amount, but they are read as the greatest one, and credited. -/
theorem not_encodes_twentyNines :
    encodeString (List.replicate 20 '9') = 2 ^ 63 - 1 ∧
      (parseAmount (List.replicate 20 '9')).toOption = some (2 ^ 63 - 1) ∧
      ¬ Encodes (List.replicate 20 '9') := by
  have hgreatest : encodeString (List.replicate 20 '9') = 2 ^ 63 - 1 := by decide +kernel
  have hdigits : IsDigits (List.replicate 20 '9' ++ []) := by
    intro c hc
    rw [List.append_nil] at hc
    rw [List.eq_of_mem_replicate hc]
    rfl
  have hnumeral : IsNumeral precision (List.replicate 20 '9') 99999999999999999999 :=
    ⟨List.replicate 20 '9', [], hdigits, by simp, by simp, Or.inr ⟨rfl, rfl⟩, by decide +kernel⟩
  refine ⟨hgreatest, by decide +kernel, fun h => ?_⟩
  have hzero := h.other fun v hv => by
    rw [← hnumeral.unique hv]
    norm_num [one]
  rw [hgreatest] at hzero
  norm_num at hzero

/-! ## The text is printed -/

/-- `tradeinput::set_amount`. -/
def TradeInput.setAmount (input : TradeInput) (v : ℚ) : Option TradeInput :=
  (encodeDbl v).map fun amount => { input with amount := decode amount }

/-- `tradeinput::set_rate`. -/
def TradeInput.setRate (input : TradeInput) (r : ℤ) : TradeInput :=
  { input with rate := decode r }

/-- `updateinput::set_amount`. -/
def UpdateInput.setAmount (input : UpdateInput) (v : ℚ) : Option UpdateInput :=
  (encodeDbl v).map fun amount => { input with amount := decode amount }

/-- `updateinput::set_rate`. -/
def UpdateInput.setRate (input : UpdateInput) (r : ℤ) : UpdateInput :=
  { input with rate := decode r }

/-- A decoded amount has digits, a point, and five digits. -/
theorem decode_eq {v : ℤ} (hv : 0 ≤ v) :
    ∃ whole fraction, decode v = whole ++ '.' :: fraction ∧
      (whole = ['0'] ∨ whole ≠ [] ∧ whole.head? ≠ some '0') ∧ IsDigits whole ∧
      IsDigits fraction ∧ fraction.length = precision ∧
      (Nat.ofDigitChars 10 (whole ++ fraction) 0 : ℤ) = v := by
  obtain ⟨n, rfl⟩ := Int.eq_ofNat_of_zero_le hv
  have hdigits := isDigits_natText n
  have hvalue : Nat.ofDigitChars 10 (natText n) 0 = n := Nat.ofDigitChars_ten_toDigits
  have htext : intText n = natText n := rfl
  unfold decode
  rw [htext]
  dsimp only
  split_ifs with hlength
  · refine ⟨['0'], List.replicate (precision - (natText n).length) '0' ++ natText n, by simp,
      Or.inl rfl, by simp [IsDigits], isDigits_append.mpr ⟨?_, hdigits⟩, ?_, ?_⟩
    · intro c hc
      obtain ⟨-, rfl⟩ := List.mem_replicate.mp hc
      rfl
    · rw [List.length_append, List.length_replicate]
      omega
    · have hzeros : Nat.ofDigitChars 10
          (['0'] ++ List.replicate (precision - (natText n).length) '0') 0 = 0 := by
        rw [Nat.ofDigitChars_append, Nat.ofDigitChars_replicate_zero]
        exact mul_zero _
      rw [← List.append_assoc, Nat.ofDigitChars_append, hzeros, hvalue]
  · have hzero : n ≠ 0 := by
      rintro rfl
      exact hlength (by decide)
    have hne : (natText n).take ((natText n).length - precision) ≠ [] := by
      intro hnil
      have hlen := congrArg List.length hnil
      rw [List.length_take, List.length_nil] at hlen
      omega
    refine ⟨(natText n).take ((natText n).length - precision),
      (natText n).drop ((natText n).length - precision), rfl, Or.inr ⟨hne, ?_⟩,
      fun c hc => hdigits c (List.mem_of_mem_take hc),
      fun c hc => hdigits c (List.mem_of_mem_drop hc), ?_, ?_⟩
    · rw [← List.head?_append_of_ne_nil _ hne, List.take_append_drop]
      exact head?_natText hzero
    · rw [List.length_drop]
      omega
    · rw [List.take_append_drop, hvalue]

/-- A decoded amount is the canonical numeral of its value. -/
theorem isCanonical_decode {v : ℤ} (hv : 0 ≤ v) :
    IsCanonical precision (decode v) (v / 10 ^ precision) := by
  obtain ⟨whole, fraction, htext, hleading, hwhole, hfraction, hlength, hvalue⟩ := decode_eq hv
  refine ⟨whole, fraction, isDigits_append.mpr ⟨hwhole, hfraction⟩, hleading, hlength, htext, ?_⟩
  rw [hlength, ← hvalue]
  rfl

/-- What is decoded is encoded again. -/
theorem encode_decode {v : ℤ} (hv : 0 ≤ v) (hlt : v < 2 ^ 63) : encode (decode v) = v := by
  have hvalue := encode_of_isNumeral (isCanonical_decode hv).isNumeral
  have hmax : (v : ℚ) ≤ 2 ^ 63 - 1 := by
    have : v ≤ 2 ^ 63 - 1 := by omega
    exact_mod_cast this
  rw [div_mul_cancel₀ _ (by norm_num), min_eq_left hmax] at hvalue
  exact_mod_cast hvalue

/-- The printed text, as a list of characters. -/
theorem toList_decodeStd (v : ℤ) : (decodeStd v).toList = decode v := by
  unfold decodeStd decode
  simp only [String.length_ofList, String.toList_ofList]
  split_ifs <;> simp

/-- **Amounts survive being printed and read.** What is printed of an amount is read
as the same amount, in both string types, and what is printed of a numeral that was
read is the canonical numeral of its value; so the inputs that are made from
amounts and rates are read as these. -/
theorem amounts_round_trip :
    (∀ v : ℤ, 0 ≤ v → v ≤ 2 ^ 63 - 1 → encodeString (decode v) = v) ∧
    (∀ v, (decodeStd v).toList = decode v) ∧
    (∀ s v, IsNumeral precision s v → v * one ≤ 2 ^ 63 - 1 →
      IsCanonical precision (decode (encodeString s)) v) ∧
    (∀ r : ℤ, 0 ≤ r → r ≤ 2 ^ 63 - 1 →
      (∀ input : TradeInput, encodeString (input.setRate r).rate = r) ∧
        ∀ input : UpdateInput, encodeString (input.setRate r).rate = r) ∧
    ∀ v : ℚ, 0 ≤ v →
      (∀ input input' : TradeInput, input.setAmount v = some input' →
        encodeDbl v = some (encodeString input'.amount)) ∧
      ∀ input input' : UpdateInput, input.setAmount v = some input' →
        encodeDbl v = some (encodeString input'.amount) := by
  have hprinted : ∀ v : ℤ, 0 ≤ v → v ≤ 2 ^ 63 - 1 → encodeString (decode v) = v := by
    intro v hv hle
    rw [encodeString_eq, encode_decode hv (by omega)]
  have hamount : ∀ (v : ℚ) (amount : ℤ), 0 ≤ v → encodeDbl v = some amount →
      encodeString (decode amount) = amount := by
    intro v amount hv hencode
    unfold encodeDbl at hencode
    split_ifs at hencode with hrange
    obtain rfl := Option.some.inj hencode
    refine hprinted _ (Int.floor_nonneg.mpr (mul_nonneg hv (by norm_num [one]))) (by omega)
  refine ⟨hprinted, toList_decodeStd, fun s v hs hle => ?_,
    fun r hr hle => ⟨fun _ => hprinted r hr hle, fun _ => hprinted r hr hle⟩,
    fun v hv => ⟨fun input input' h => ?_, fun input input' h => ?_⟩⟩
  · have hone : (one : ℚ) = 10 ^ precision := by norm_num [one, precision]
    have hvalue := encode_of_isNumeral hs
    rw [← hone, min_eq_left hle, ← encodeString_eq] at hvalue
    have hnonneg : 0 ≤ encodeString s := by
      obtain ⟨whole, fraction, -, -, -, -, rfl⟩ := hs
      have : (0 : ℚ) ≤ encodeString s := by
        rw [hvalue]
        norm_num [one]
        positivity
      exact_mod_cast this
    have hcanonical := isCanonical_decode hnonneg
    rwa [← hone, hvalue, mul_div_cancel_right₀ v (by norm_num [one])] at hcanonical
  · obtain ⟨amount, hencode, rfl⟩ := Option.map_eq_some_iff.mp h
    rw [hencode, hamount v amount hv hencode]
  · obtain ⟨amount, hencode, rfl⟩ := Option.map_eq_some_iff.mp h
    rw [hencode, hamount v amount hv hencode]

/-- The greatest amount, and a half without a zero before the point. -/
theorem amounts_round_trip_greatest :
    encodeString (decode 9223372036854775807) = 9223372036854775807 ∧
      IsCanonical precision (decode (encodeString ['.', '5'])) (1 / 2) := by
  have hhalf : IsNumeral precision ['.', '5'] (1 / 2) :=
    ⟨[], ['5'], by simp [IsDigits], by simp, by decide, Or.inl rfl, by decide +kernel⟩
  exact ⟨amounts_round_trip.1 _ (by norm_num) (by norm_num),
    amounts_round_trip.2.2.1 _ _ hhalf (by norm_num [one])⟩

end AcCore.Tex.Cex
