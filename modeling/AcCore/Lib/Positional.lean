import Mathlib.Data.Nat.Digits.Lemmas
import Mathlib.Tactic.Linarith
import Mathlib.Tactic.Ring

/-!
# Conversion between bases in an array of fixed width

The digits of a number, most significant first, are read one at a time into an
array of digits of another base: for each of them the whole array is
multiplied by the first base, and the digit comes in as the carry. A carry out
of the array is an overflow.
-/

namespace AcCore.Lib

/-- The number with the given digits, most significant first. -/
def digitsValue (b : ℕ) (ds : List ℕ) : ℕ := Nat.ofDigits b ds.reverse

/-- Without digits the value is zero. -/
@[simp] theorem digitsValue_nil (b : ℕ) : digitsValue b [] = 0 := rfl

/-- The first digit counts for the most. -/
theorem digitsValue_cons (b d : ℕ) (ds : List ℕ) :
    digitsValue b (d :: ds) = d * b ^ ds.length + digitsValue b ds := by
  simp [digitsValue, Nat.ofDigits_append, mul_comm, add_comm]

/-- Zeros have no value. -/
@[simp] theorem digitsValue_replicate_zero (b n : ℕ) :
    digitsValue b (List.replicate n 0) = 0 := by
  induction n with
  | zero => rfl
  | succ n ih => simp [List.replicate_succ, digitsValue_cons, ih]

/-- The value of so many digits is below that power of the base. -/
theorem digitsValue_lt {b : ℕ} (hb : 1 < b) {ds : List ℕ} (h : ∀ d ∈ ds, d < b) :
    digitsValue b ds < b ^ ds.length := by
  have := Nat.ofDigits_lt_base_pow_length hb (l := ds.reverse) (by simpa using h)
  simpa [digitsValue] using this

/-! ## Leading zeros -/

/-- The digits without leading zeros. -/
def dropZeros (ds : List ℕ) : List ℕ := ds.dropWhile fun d => d == 0

/-- Leading zeros do not change the value. -/
theorem digitsValue_dropZeros (b : ℕ) (ds : List ℕ) :
    digitsValue b (dropZeros ds) = digitsValue b ds := by
  induction ds with
  | nil => rfl
  | cons d ds ih =>
    by_cases hd : d = 0
    · subst hd
      have hdrop : dropZeros (0 :: ds) = dropZeros ds := rfl
      rw [hdrop, ih, digitsValue_cons, zero_mul, zero_add]
    · simp [dropZeros, hd]

/-- Dropping leading zeros adds no digit. -/
theorem mem_of_mem_dropZeros {ds : List ℕ} {d : ℕ} (h : d ∈ dropZeros ds) : d ∈ ds :=
  (List.dropWhile_sublist _).subset h

/-- The digits do not start with a zero. -/
def NoLeadingZero (ds : List ℕ) : Prop := ∀ d ∈ ds.head?, d ≠ 0

/-- No leading zero is left. -/
theorem noLeadingZero_dropZeros (ds : List ℕ) : NoLeadingZero (dropZeros ds) := by
  induction ds with
  | nil => simp [NoLeadingZero, dropZeros]
  | cons d ds ih =>
    by_cases hd : d = 0
    · subst hd
      simpa [dropZeros] using ih
    · simp [NoLeadingZero, dropZeros, hd]

/-- A number has one list of digits without leading zeros. -/
theorem eq_of_digitsValue_eq {b : ℕ} (hb : 1 < b) {ds es : List ℕ} (hds : ∀ d ∈ ds, d < b)
    (hes : ∀ e ∈ es, e < b) (hdz : NoLeadingZero ds) (hez : NoLeadingZero es)
    (h : digitsValue b ds = digitsValue b es) : ds = es := by
  have hdigits : ∀ ds : List ℕ, (∀ d ∈ ds, d < b) → NoLeadingZero ds →
      Nat.digits b (digitsValue b ds) = ds.reverse := by
    intro ds hds hdz
    apply Nat.digits_ofDigits b hb
    · simpa using hds
    · intro hne
      rw [List.getLast_reverse]
      exact hdz _ (List.head?_eq_some_head _)
  rw [← List.reverse_inj, ← hdigits ds hds hdz, ← hdigits es hes hez, h]

/-! ## Multiplying the array -/

/-- Multiplies the digits of base `b` by `m` and adds `c`, from the least
significant digit on; the carry that is left comes second. -/
def mulAdd (b m : ℕ) : List ℕ → ℕ → List ℕ × ℕ
  | [], c => ([], c)
  | d :: ds, c =>
    let r := mulAdd b m ds c
    ((r.2 + m * d) % b :: r.1, (r.2 + m * d) / b)

/-- Multiplying and adding keeps the number of digits. -/
@[simp] theorem length_mulAdd (b m : ℕ) (ds : List ℕ) (c : ℕ) :
    (mulAdd b m ds c).1.length = ds.length := by
  induction ds with
  | nil => rfl
  | cons d ds ih => simp [mulAdd, ih]

/-- The digits stay below the base. -/
theorem mulAdd_lt {b : ℕ} (hb : 0 < b) (m : ℕ) (ds : List ℕ) (c : ℕ) :
    ∀ d ∈ (mulAdd b m ds c).1, d < b := by
  induction ds with
  | nil => simp [mulAdd]
  | cons d ds ih =>
    intro e he
    rcases List.mem_cons.mp he with rfl | he
    · exact Nat.mod_lt _ hb
    · exact ih e he

/-- The digits and the carry have the multiplied value and the addend. -/
theorem value_mulAdd (b m : ℕ) (ds : List ℕ) (c : ℕ) :
    digitsValue b (mulAdd b m ds c).1 + (mulAdd b m ds c).2 * b ^ ds.length =
      m * digitsValue b ds + c := by
  induction ds with
  | nil => simp [mulAdd]
  | cons d ds ih =>
    have hdiv := Nat.mod_add_div ((mulAdd b m ds c).2 + m * d) b
    simp only [mulAdd, digitsValue_cons, length_mulAdd, List.length_cons]
    calc ((mulAdd b m ds c).2 + m * d) % b * b ^ ds.length + digitsValue b (mulAdd b m ds c).1 +
          ((mulAdd b m ds c).2 + m * d) / b * b ^ (ds.length + 1)
        = (((mulAdd b m ds c).2 + m * d) % b + b * (((mulAdd b m ds c).2 + m * d) / b)) *
            b ^ ds.length + digitsValue b (mulAdd b m ds c).1 := by ring
      _ = (digitsValue b (mulAdd b m ds c).1 + (mulAdd b m ds c).2 * b ^ ds.length) +
            m * (d * b ^ ds.length) := by rw [hdiv]; ring
      _ = m * (d * b ^ ds.length + digitsValue b ds) + c := by rw [ih]; ring

/-- Reads the digits into the array; `none` when a carry is left. -/
def readInto (b m : ℕ) (array : List ℕ) (ds : List ℕ) : Option (List ℕ) :=
  ds.foldlM (fun array d =>
    if (mulAdd b m array d).2 = 0 then some (mulAdd b m array d).1 else none) array

/-- The array keeps its width. -/
theorem length_readInto {b m : ℕ} {array ds r : List ℕ} (h : readInto b m array ds = some r) :
    r.length = array.length := by
  induction ds generalizing array with
  | nil =>
    obtain rfl := Option.some.inj h
    rfl
  | cons d ds ih =>
    rw [readInto, List.foldlM_cons] at h
    obtain ⟨array', hstep, hrest⟩ := Option.bind_eq_some_iff.mp h
    obtain ⟨-, hstep⟩ := Option.ite_none_right_eq_some.mp hstep
    obtain rfl := Option.some.inj hstep
    rw [ih hrest, length_mulAdd]

/-- The array holds the number of the digits that were read, if it is wide
enough for it. -/
theorem readInto_eq_some {b m : ℕ} (hb : 0 < b) (hm : 0 < m) (array ds : List ℕ)
    (hdigits : ∀ d ∈ array, d < b)
    (h : digitsValue b array * m ^ ds.length + digitsValue m ds < b ^ array.length) :
    ∃ r, readInto b m array ds = some r ∧ r.length = array.length ∧ (∀ d ∈ r, d < b) ∧
      digitsValue b r = digitsValue b array * m ^ ds.length + digitsValue m ds := by
  induction ds generalizing array with
  | nil => exact ⟨array, rfl, rfl, hdigits, by simp⟩
  | cons d ds ih =>
    have hvalue := value_mulAdd b m array d
    rw [digitsValue_cons, List.length_cons, pow_succ] at h
    -- what is read so far fits, as the digits still to come only add to it
    have hexpand : digitsValue b array * (m ^ ds.length * m) +
        (d * m ^ ds.length + digitsValue m ds) =
          (m * digitsValue b array + d) * m ^ ds.length + digitsValue m ds := by ring
    rw [hexpand] at h
    have hpos : 1 ≤ m ^ ds.length := Nat.one_le_pow _ _ hm
    have hfits : m * digitsValue b array + d < b ^ array.length :=
      lt_of_le_of_lt (le_trans (Nat.le_mul_of_pos_right _ hpos) (Nat.le_add_right _ _)) h
    have hcarry : (mulAdd b m array d).2 = 0 := by
      by_contra hne
      have hone : 1 ≤ (mulAdd b m array d).2 := Nat.one_le_iff_ne_zero.mpr hne
      have : b ^ array.length ≤ (mulAdd b m array d).2 * b ^ array.length :=
        Nat.le_mul_of_pos_left _ hone
      omega
    rw [hcarry, zero_mul, add_zero] at hvalue
    obtain ⟨r, hr, hlen, hlt, hrvalue⟩ := ih _ (mulAdd_lt hb m array d)
      (by rwa [hvalue, length_mulAdd])
    refine ⟨r, ?_, by rw [hlen, length_mulAdd], hlt, ?_⟩
    · rw [readInto, List.foldlM_cons, if_pos hcarry]
      exact hr
    · rw [hrvalue, hvalue, digitsValue_cons, List.length_cons, pow_succ]
      exact hexpand.symm

/-- An array of enough digits, per hundred of the digits to be read, is wide
enough. -/
theorem pow_le_pow_of_rate {b m p q : ℕ} (hb : 0 < b) (hq : 0 < q)
    (hrate : m ^ q ≤ b ^ p) (n : ℕ) : m ^ n ≤ b ^ (n * p / q + 1) := by
  have hceil : n * p ≤ q * (n * p / q + 1) := by
    have := Nat.div_add_mod (n * p) q
    have := Nat.mod_lt (n * p) hq
    nlinarith
  refine le_of_pow_le_pow_left₀ hq.ne' (Nat.zero_le _) ?_
  calc (m ^ n) ^ q = (m ^ q) ^ n := by rw [← pow_mul, ← pow_mul, mul_comm]
    _ ≤ (b ^ p) ^ n := Nat.pow_le_pow_left hrate n
    _ = b ^ (n * p) := by rw [← pow_mul, mul_comm]
    _ ≤ b ^ (q * (n * p / q + 1)) := Nat.pow_le_pow_right hb hceil
    _ = (b ^ (n * p / q + 1)) ^ q := by rw [← pow_mul, mul_comm]

end AcCore.Lib
