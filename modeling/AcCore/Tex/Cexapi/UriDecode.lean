import Mathlib.Data.BitVec
import Mathlib.Data.List.TakeWhile
import Mathlib.Data.Nat.Digits.Defs

/-!
# The decoding of request addresses

Requests to the exchange and to the wallet come as addresses with escapes. The two
characters of an escape are read from a stream as a hexadecimal number, and a stream
takes a number also after white space or a sign, or in front of other characters. The
decoder is a template: its characters have eight bits in the wallet and 32 in the exchange.
-/

namespace AcCore.Tex.Cexapi

variable {w : ℕ}

/-- A character is one of the ASCII characters. -/
def Is (c : BitVec w) (a : Char) : Prop := c.toNat = a.toNat

/-- Characters are compared by their numbers. -/
instance (c : BitVec w) (a : Char) : Decidable (Is c a) := inferInstanceAs (Decidable (_ = _))

/-- The value of a hexadecimal digit. -/
def hexValue (c : BitVec w) : Option ℕ :=
  let n := c.toNat
  if 48 ≤ n ∧ n ≤ 57 then some (n - 48)
  else if 65 ≤ n ∧ n ≤ 70 then some (n - 55)
  else if 97 ≤ n ∧ n ≤ 102 then some (n - 87)
  else none

/-- White space. -/
def isBlank (c : BitVec w) : Bool := c.toNat = 32 ∨ 9 ≤ c.toNat ∧ c.toNat ≤ 13

/-- The sign in front of a number, whether it is a minus. -/
def splitSign : List (BitVec w) → Bool × List (BitVec w)
  | [] => (false, [])
  | c :: s => if Is c '-' then (true, s) else if Is c '+' then (false, s) else (false, c :: s)

/-- A number without `0x` in front of it. -/
def dropBase : List (BitVec w) → List (BitVec w)
  | c :: d :: s => if Is c '0' ∧ (Is d 'x' ∨ Is d 'X') then s else c :: d :: s
  | s => s

/-- The digits of a number without a sign; `none` when there are none. -/
def readDigits (s : List (BitVec w)) : Option ℕ :=
  let digits := ((dropBase s).takeWhile fun c => (hexValue c).isSome).filterMap hexValue
  if digits = [] then none else some (digits.foldl (fun n d => 16 * n + d) 0)

/-- Extracts an integer in hexadecimal mode; `none` when there is none. -/
def extractHex (s : List (BitVec w)) : Option ℤ :=
  let (negative, s) := splitSign (s.dropWhile isBlank)
  (readDigits s).map fun n : ℕ => if negative then -(n : ℤ) else n

/-- The loop of `uri_decode`, with what it has written. -/
def decodeFrom (out : List (BitVec w)) : List (BitVec w) → List (BitVec w)
  | [] => out
  | c :: s =>
    if Is c '%' then
      match s with
      | a :: b :: s =>
        match extractHex [a, b] with
        | some value => decodeFrom (out ++ [BitVec.ofInt w value]) s
        | none => []
      | _ => []
    else if Is c '+' then decodeFrom (out ++ [BitVec.ofNat w 32]) s
    else decodeFrom (out ++ [c]) s

/-- `uri_decode`. -/
def uriDecode (s : List (BitVec w)) : List (BitVec w) := decodeFrom [] s

/-! ## The language of escapes -/

/-- The text is an encoding of another: a plus of a space, two hexadecimal digits after a
percent sign of the character with this code, and another character of itself. -/
inductive Encodes : List (BitVec w) → List (BitVec w) → Prop where
  | nil : Encodes [] []
  | escape {p a b : BitVec w} {high low : ℕ} {e s : List (BitVec w)} (percent : Is p '%')
      (ha : hexValue a = some high) (hb : hexValue b = some low) (rest : Encodes e s) :
      Encodes (p :: a :: b :: e) (BitVec.ofNat w (16 * high + low) :: s)
  | plus {c : BitVec w} {e s : List (BitVec w)} (plus : Is c '+') (rest : Encodes e s) :
      Encodes (c :: e) (BitVec.ofNat w 32 :: s)
  | plain {c : BitVec w} {e s : List (BitVec w)} (percent : ¬ Is c '%') (plus : ¬ Is c '+')
      (rest : Encodes e s) : Encodes (c :: e) (c :: s)

/-- Two hexadecimal digits are at the beginning. -/
def BeginsHex (s : List (BitVec w)) : Prop :=
  ∃ a b rest, s = a :: b :: rest ∧ (hexValue a).isSome ∧ (hexValue b).isSome

/-- Some percent sign is not followed by two hexadecimal digits. -/
def Malformed (s : List (BitVec w)) : Prop :=
  ∃ before c after, s = before ++ c :: after ∧ Is c '%' ∧ ¬ BeginsHex after

/-- The text is decoded: what is returned is what it encodes, and that is nothing for
nothing and for what is no encoding only. -/
structure Decodes (s : List (BitVec w)) : Prop where
  decoded : ¬ Malformed s → Encodes s (uriDecode s)
  undoes : ∀ t, Encodes s t → uriDecode s = t
  empty : uriDecode s = [] ↔ s = [] ∨ Malformed s

/-- A number is at the beginning of two characters: a hexadecimal digit, if it is not the
zero in front of an `x`, or one after a white space or a sign. -/
def BeginsNumber (a b : BitVec w) : Prop :=
  ((hexValue a).isSome ∧ ¬ (Is a '0' ∧ (Is b 'x' ∨ Is b 'X'))) ∨
    (isBlank a ∨ Is a '-' ∨ Is a '+') ∧ (hexValue b).isSome

/-- All escapes that are come to from the left begin with a number. -/
inductive Passes : List (BitVec w) → Prop where
  | nil : Passes []
  | escape {p a b : BitVec w} {s : List (BitVec w)} (percent : Is p '%')
      (number : BeginsNumber a b) (rest : Passes s) : Passes (p :: a :: b :: s)
  | plain {c : BitVec w} {s : List (BitVec w)} (percent : ¬ Is c '%') (rest : Passes s) :
      Passes (c :: s)

/-! ## One escape -/

variable {a b c : BitVec w} {s t out : List (BitVec w)}

/-- The characters with a hexadecimal value are `0-9`, `A-F` and `a-f`. -/
theorem hexValue_isSome_iff : (hexValue c).isSome ↔
    48 ≤ c.toNat ∧ c.toNat ≤ 57 ∨ 65 ≤ c.toNat ∧ c.toNat ≤ 70 ∨ 97 ≤ c.toNat ∧ c.toNat ≤ 102 := by
  unfold hexValue
  dsimp only
  split_ifs <;> simp <;> omega

/-- The digits are behind the signs and the white space. -/
theorem hexValue_of_lt (h : c.toNat < 48) : hexValue c = none := by
  rw [← Option.not_isSome_iff_eq_none, hexValue_isSome_iff]
  omega

/-- The blanks are the space and the characters from tab to carriage return. -/
theorem isBlank_iff : isBlank c = true ↔ c.toNat = 32 ∨ 9 ≤ c.toNat ∧ c.toNat ≤ 13 := by
  rw [isBlank, decide_eq_true_iff]

/-- One character reads as its hexadecimal value. -/
theorem readDigits_singleton (b : BitVec w) : readDigits [b] = hexValue b := by
  cases hb : hexValue b <;> simp [readDigits, dropBase, hb]

/-- Two characters, when they are not `0x`, read digit by digit up to the first that is none. -/
theorem readDigits_pair (hbase : ¬ (Is a '0' ∧ (Is b 'x' ∨ Is b 'X'))) :
    readDigits [a, b] =
      (hexValue a).map fun high => (hexValue b).elim high fun low => 16 * high + low := by
  cases ha : hexValue a <;> cases hb : hexValue b <;> simp [readDigits, dropBase, hbase, ha, hb]

/-- A lone `0x` reads as nothing. -/
theorem readDigits_base (hbase : Is a '0' ∧ (Is b 'x' ∨ Is b 'X')) : readDigits [a, b] = none := by
  simp [readDigits, dropBase, hbase]

/-- Without a blank the sign comes first, then the digits. -/
theorem extractHex_of_not_blank (ha : isBlank a = false) :
    extractHex (a :: s) = (readDigits (splitSign (a :: s)).2).map fun n : ℕ =>
      if (splitSign (a :: s)).1 then -(n : ℤ) else n := by
  rw [extractHex, List.dropWhile_cons_of_neg (by simp [ha])]

/-- What follows a sign. -/
theorem snd_splitSign (h : Is c '-' ∨ Is c '+') : (splitSign (c :: s)).2 = s := by
  rw [splitSign]
  split_ifs with hminus hplus
  · rfl
  · rfl
  · exact absurd h (not_or.mpr ⟨hminus, hplus⟩)

/-- A sign is below the digits. -/
theorem lt_of_sign (h : Is c '-' ∨ Is c '+') : c.toNat < 48 := by
  have hcode : c.toNat = 45 ∨ c.toNat = 43 := h
  omega

/-- One character is extracted exactly when it has a hexadecimal value. -/
theorem extractHex_singleton_isSome_iff : (extractHex [b]).isSome ↔ (hexValue b).isSome := by
  cases hblank : isBlank b with
  | true =>
    have hcode := isBlank_iff.mp hblank
    have hnone : extractHex [b] = none := by
      simp [extractHex, hblank, splitSign, readDigits, dropBase]
    rw [hnone, hexValue_of_lt (by omega)]
    rfl
  | false =>
    rw [extractHex_of_not_blank hblank, Option.isSome_map]
    by_cases hsign : Is b '-' ∨ Is b '+'
    · rw [snd_splitSign hsign, hexValue_of_lt (lt_of_sign hsign)]
      rfl
    · have hneither := not_or.mp hsign
      rw [splitSign, if_neg hneither.1, if_neg hneither.2, readDigits_singleton]

/-- What the stream takes for a number. -/
theorem extractHex_isSome_iff : (extractHex [a, b]).isSome ↔ BeginsNumber a b := by
  unfold BeginsNumber
  cases hblank : isBlank a with
  | true =>
    have hcode := isBlank_iff.mp hblank
    have hskip : extractHex [a, b] = extractHex [b] := by
      rw [extractHex, extractHex, List.dropWhile_cons_of_pos hblank]
    rw [hskip, extractHex_singleton_isSome_iff, hexValue_of_lt (by omega : a.toNat < 48)]
    simp
  | false =>
    rw [extractHex_of_not_blank hblank, Option.isSome_map]
    by_cases hsign : Is a '-' ∨ Is a '+'
    · rw [snd_splitSign hsign, readDigits_singleton, hexValue_of_lt (lt_of_sign hsign)]
      simp [hsign]
    · have hneither := not_or.mp hsign
      rw [splitSign, if_neg hneither.1, if_neg hneither.2]
      by_cases hbase : Is a '0' ∧ (Is b 'x' ∨ Is b 'X')
      · rw [readDigits_base hbase]
        simp [hbase, hneither]
      · rw [readDigits_pair hbase, Option.isSome_map]
        simp [hbase, hneither]

/-- Two digits are read as they are. -/
theorem extractHex_of_digits {high low : ℕ} (ha : hexValue a = some high)
    (hb : hexValue b = some low) : extractHex [a, b] = some ((16 * high + low : ℕ) : ℤ) := by
  have hacode := hexValue_isSome_iff.mp (Option.isSome_of_eq_some ha)
  have hbcode := hexValue_isSome_iff.mp (Option.isSome_of_eq_some hb)
  have hblank : isBlank a = false := by
    rw [Bool.eq_false_iff, Ne, isBlank_iff]
    omega
  have hminus : ¬ Is a '-' := fun h => by
    have hcode : a.toNat = 45 := h
    omega
  have hplus : ¬ Is a '+' := fun h => by
    have hcode : a.toNat = 43 := h
    omega
  have hbase : ¬ (Is a '0' ∧ (Is b 'x' ∨ Is b 'X')) := by
    rintro ⟨-, h⟩
    have hcode : b.toNat = 120 ∨ b.toNat = 88 := h
    omega
  rw [extractHex_of_not_blank hblank, splitSign, if_neg hminus, if_neg hplus,
    readDigits_pair hbase, ha, hb]
  rfl

/-! ## The loop -/

/-- The empty text is well formed. -/
theorem not_malformed_nil : ¬ Malformed ([] : List (BitVec w)) := by
  rintro ⟨before, c, after, h, -⟩
  simp at h

/-- The first escape that is no encoding is at the beginning, or behind it. -/
theorem malformed_cons : Malformed (c :: s) ↔ Is c '%' ∧ ¬ BeginsHex s ∨ Malformed s := by
  constructor
  · rintro ⟨before, p, after, h, hp⟩
    cases before with
    | nil =>
      obtain ⟨rfl, rfl⟩ := List.cons.inj h
      exact Or.inl hp
    | cons c' before =>
      obtain ⟨rfl, rfl⟩ := List.cons.inj h
      exact Or.inr ⟨before, p, after, rfl, hp⟩
  · rintro (hp | ⟨before, p, after, rfl, hp⟩)
    · exact ⟨[], c, s, rfl, hp⟩
    · exact ⟨c :: before, p, after, rfl, hp⟩

/-- A hexadecimal digit is no percent sign. -/
theorem not_percent_of_hexValue (h : (hexValue c).isSome) : ¬ Is c '%' := fun hp => by
  have hcode : c.toNat = 37 := hp
  have := hexValue_isSome_iff.mp h
  omega

/-- A text that begins with a good escape is malformed exactly when the rest is. -/
theorem malformed_escape (ha : (hexValue a).isSome) (hb : (hexValue b).isSome) :
    Malformed (c :: a :: b :: s) ↔ Malformed s := by
  rw [malformed_cons, malformed_cons, malformed_cons]
  have hbegins : BeginsHex (a :: b :: s) := ⟨a, b, s, rfl, ha, hb⟩
  simp [hbegins, not_percent_of_hexValue ha, not_percent_of_hexValue hb]

/-- A plus is no percent sign. -/
theorem not_percent_of_plus (h : Is c '+') : ¬ Is c '%' := fun hp => by
  have hplus : c.toNat = 43 := h
  have hpercent : c.toNat = 37 := hp
  omega

/-- An encoding has no escape of another kind. -/
theorem Encodes.not_malformed (h : Encodes s t) : ¬ Malformed s := by
  induction h with
  | nil => exact not_malformed_nil
  | escape hp ha hb _ ih =>
    rwa [malformed_escape (Option.isSome_of_eq_some ha) (Option.isSome_of_eq_some hb)]
  | plus hc _ ih =>
    rw [malformed_cons]
    rintro (⟨hp, -⟩ | h)
    · exact not_percent_of_plus hc hp
    · exact ih h
  | plain hp _ _ ih =>
    rw [malformed_cons]
    rintro (⟨hp', -⟩ | h)
    · exact hp hp'
    · exact ih h

/-- What has no escape of another kind is an encoding. -/
theorem exists_encodes (h : ¬ Malformed s) : ∃ t, Encodes s t := by
  induction hn : s.length using Nat.strong_induction_on generalizing s with
  | _ n ih =>
    cases s with
    | nil => exact ⟨[], .nil⟩
    | cons c s =>
      rw [List.length_cons] at hn
      by_cases hp : Is c '%'
      · have hbegins : BeginsHex s := by
          by_contra hbegins
          exact h (malformed_cons.mpr (Or.inl ⟨hp, hbegins⟩))
        obtain ⟨a, b, rest, rfl, ha, hb⟩ := hbegins
        rw [malformed_escape ha hb] at h
        rw [List.length_cons, List.length_cons] at hn
        obtain ⟨t, ht⟩ := ih rest.length (by omega) h rfl
        obtain ⟨high, hhigh⟩ := Option.isSome_iff_exists.mp ha
        obtain ⟨low, hlow⟩ := Option.isSome_iff_exists.mp hb
        exact ⟨_, .escape hp hhigh hlow ht⟩
      · have hrest : ¬ Malformed s := fun hs => h (malformed_cons.mpr (Or.inr hs))
        obtain ⟨t, ht⟩ := ih s.length (by omega) hrest rfl
        by_cases hplus : Is c '+'
        · exact ⟨_, .plus hplus ht⟩
        · exact ⟨_, .plain hp hplus ht⟩

/-- A character that begins no escape is copied, a plus as a space. -/
theorem decodeFrom_cons (hp : ¬ Is c '%') : decodeFrom out (c :: s) =
    if Is c '+' then decodeFrom (out ++ [BitVec.ofNat w 32]) s else decodeFrom (out ++ [c]) s := by
  conv_lhs => unfold decodeFrom
  exact if_neg hp

/-- The loop writes what is encoded. -/
theorem Encodes.decodeFrom_eq (h : Encodes s t) (out : List (BitVec w)) :
    decodeFrom out s = out ++ t := by
  induction h generalizing out with
  | nil => rw [decodeFrom, List.append_nil]
  | escape hp ha hb _ ih =>
    rw [decodeFrom, if_pos hp, extractHex_of_digits ha hb]
    dsimp only
    rw [ih, BitVec.ofInt_natCast, List.append_assoc, List.singleton_append]
  | plus hc _ ih =>
    rw [decodeFrom_cons (not_percent_of_plus hc), if_pos hc, ih, List.append_assoc,
      List.singleton_append]
  | plain hp hc _ ih =>
    rw [decodeFrom_cons hp, if_neg hc, ih, List.append_assoc, List.singleton_append]

/-- An encoding is come through. -/
theorem Encodes.passes (h : Encodes s t) : Passes s := by
  induction h with
  | nil => exact .nil
  | escape hp ha hb _ ih =>
    have hsome := Option.isSome_of_eq_some (extractHex_of_digits ha hb)
    exact .escape hp (extractHex_isSome_iff.mp hsome) ih
  | plus hc _ ih => exact .plain (not_percent_of_plus hc) ih
  | plain hp _ _ ih => exact .plain hp ih

/-- Every escape and every other character that is come through is written as one. -/
theorem Passes.exists_decodeFrom (h : Passes s) (out : List (BitVec w)) :
    ∃ t, decodeFrom out s = out ++ t ∧ (t = [] ↔ s = []) := by
  induction h generalizing out with
  | nil => exact ⟨[], by rw [decodeFrom, List.append_nil], by simp⟩
  | escape hp hnumber _ ih =>
    obtain ⟨v, hv⟩ := Option.isSome_iff_exists.mp (extractHex_isSome_iff.mpr hnumber)
    obtain ⟨t, ht, -⟩ := ih (out ++ [BitVec.ofInt w v])
    refine ⟨BitVec.ofInt w v :: t, ?_, by simp⟩
    rw [decodeFrom, if_pos hp, hv]
    dsimp only
    rw [ht, List.append_assoc, List.singleton_append]
  | @plain c _ hp _ ih =>
    rw [decodeFrom_cons hp]
    by_cases hplus : Is c '+'
    · obtain ⟨t, ht, -⟩ := ih (out ++ [BitVec.ofNat w 32])
      refine ⟨BitVec.ofNat w 32 :: t, ?_, by simp⟩
      rw [if_pos hplus, ht, List.append_assoc, List.singleton_append]
    · obtain ⟨t, ht, -⟩ := ih (out ++ [c])
      refine ⟨c :: t, ?_, by simp⟩
      rw [if_neg hplus, ht, List.append_assoc, List.singleton_append]

/-- What is not come through is given up. -/
theorem decodeFrom_of_not_passes (h : ¬ Passes s) (out : List (BitVec w)) :
    decodeFrom out s = [] := by
  fun_induction decodeFrom out s with
  | case1 out => exact absurd .nil h
  | case2 out p hp a b s v hv ih =>
    refine ih fun hrest => h (.escape hp ?_ hrest)
    exact extractHex_isSome_iff.mp (Option.isSome_of_eq_some hv)
  | case3 => rfl
  | case4 => rfl
  | case5 out c s hp hplus ih => exact ih fun hrest => h (.plain hp hrest)
  | case6 out c s hp hplus ih => exact ih fun hrest => h (.plain hp hrest)

/-- **URI decoding.** A text is decoded as it should be exactly when it is well formed or
the loop comes to an escape that does not begin with a number. -/
theorem decodes_iff (s : List (BitVec w)) : Decodes s ↔ (Malformed s → ¬ Passes s) := by
  constructor
  · intro h hmalformed hpasses
    obtain ⟨t, ht, hempty⟩ := hpasses.exists_decodeFrom []
    have hnil := h.empty.mpr (Or.inr hmalformed)
    rw [uriDecode, ht, List.nil_append, hempty] at hnil
    exact not_malformed_nil (hnil ▸ hmalformed)
  · intro h
    refine ⟨fun hwell => ?_, fun t ht => ht.decodeFrom_eq [], ?_⟩
    · obtain ⟨t, ht⟩ := exists_encodes hwell
      rwa [uriDecode, ht.decodeFrom_eq []]
    · constructor
      · intro hnil
        by_contra hnot
        obtain ⟨hne, hwell⟩ := not_or.mp hnot
        obtain ⟨t, ht⟩ := exists_encodes hwell
        obtain ⟨t', ht', hempty⟩ := ht.passes.exists_decodeFrom []
        rw [uriDecode, ht', List.nil_append, hempty] at hnil
        exact hne hnil
      · rintro (rfl | hmalformed)
        · rfl
        · exact decodeFrom_of_not_passes (h hmalformed) []

/-- `%4g`, in characters of 32 bits. -/
def oneDigit : List (BitVec 32) := [37, 52, 103]

/-- One hexadecimal digit is decoded, with whatever is behind it. -/
theorem oneDigit_not_decodes : uriDecode oneDigit = [4] ∧ ¬ Decodes oneDigit := by
  have hdecoded : uriDecode oneDigit = [4] := by decide
  refine ⟨hdecoded, fun h => ?_⟩
  have hmalformed : Malformed oneDigit := by
    refine ⟨[], 37, [52, 103], rfl, by decide, ?_⟩
    rintro ⟨a, b, rest, hlist, -, hb⟩
    simp only [List.cons.injEq] at hlist
    rw [← hlist.2.1] at hb
    revert hb
    decide
  rw [h.empty.mpr (Or.inr hmalformed)] at hdecoded
  cases hdecoded

end AcCore.Tex.Cexapi
