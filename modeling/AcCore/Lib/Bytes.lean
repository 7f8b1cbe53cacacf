import Mathlib.Data.List.Basic
import Mathlib.Tactic.Ring

/-!
# Records of a fixed number of bytes

Little-endian words, and codecs whose encodings all have the same length. A
list of such records written one after the other can be read back once the
number of records is known, and every string of the right length is read as
some list of records.
-/

namespace AcCore.Lib

/-- The `n` low bytes of a number, least significant first. -/
def leBytes : ℕ → ℕ → List UInt8
  | 0, _ => []
  | n + 1, k => UInt8.ofNat k :: leBytes n (k / 256)

/-- The number whose bytes are given, least significant first. -/
def ofLeBytes : List UInt8 → ℕ
  | [] => 0
  | b :: bs => b.toNat + 256 * ofLeBytes bs

/-- The number of bytes. -/
@[simp] theorem leBytes_length (n k : ℕ) : (leBytes n k).length = n := by
  induction n generalizing k with
  | zero => rfl
  | succ n ih => simp [leBytes, ih]

/-- Reading the bytes back gives the number, when they are enough for it. -/
theorem ofLeBytes_leBytes {n k : ℕ} (hk : k < 256 ^ n) : ofLeBytes (leBytes n k) = k := by
  induction n generalizing k with
  | zero => simpa [leBytes, ofLeBytes, eq_comm] using hk
  | succ n ih =>
    have hdiv : k / 256 < 256 ^ n := by
      rw [pow_succ] at hk
      exact Nat.div_lt_of_lt_mul (by omega)
    have hbyte : (UInt8.ofNat k).toNat = k % 256 := UInt8.toNat_ofNat'
    rw [leBytes, ofLeBytes, ih hdiv, hbyte]
    omega

/-- So many bytes have a value below that power of 256. -/
theorem ofLeBytes_lt (bs : List UInt8) : ofLeBytes bs < 256 ^ bs.length := by
  induction bs with
  | nil => simp [ofLeBytes]
  | cons b bs ih =>
    have hb : b.toNat < 256 := b.toNat_lt
    rw [ofLeBytes, List.length_cons, pow_succ]
    omega

/-- A string of bytes is the encoding of the number it reads as. -/
theorem leBytes_ofLeBytes (bs : List UInt8) : leBytes bs.length (ofLeBytes bs) = bs := by
  induction bs with
  | nil => rfl
  | cons b bs ih =>
    have hb : b.toNat < 256 := b.toNat_lt
    have hdiv : (b.toNat + 256 * ofLeBytes bs) / 256 = ofLeBytes bs := by omega
    have hhead : UInt8.ofNat (b.toNat + 256 * ofLeBytes bs) = b := by
      apply UInt8.toNat_inj.mp
      rw [UInt8.toNat_ofNat']
      omega
    rw [List.length_cons, ofLeBytes, leBytes, hdiv, ih, hhead]

/-- A type whose values are exactly the strings of `k` bytes. -/
structure FixedCodec (α : Type*) (k : ℕ) where
  enc : α → List UInt8
  dec : List UInt8 → α
  length_enc : ∀ a, (enc a).length = k
  dec_enc : ∀ a, dec (enc a) = a
  enc_dec : ∀ bs, bs.length = k → enc (dec bs) = bs

namespace FixedCodec

variable {α β : Type*} {k l : ℕ}

/-- Different values have different encodings. -/
theorem enc_injective (c : FixedCodec α k) : Function.Injective c.enc :=
  Function.LeftInverse.injective c.dec_enc

/-- Two records, the second right after the first. -/
def pair (c : FixedCodec α k) (d : FixedCodec β l) : FixedCodec (α × β) (k + l) where
  enc p := c.enc p.1 ++ d.enc p.2
  dec bs := (c.dec (bs.take k), d.dec (bs.drop k))
  length_enc p := by simp [c.length_enc, d.length_enc]
  dec_enc p := by
    have htake : (c.enc p.1 ++ d.enc p.2).take k = c.enc p.1 := List.take_left' (c.length_enc p.1)
    have hdrop : (c.enc p.1 ++ d.enc p.2).drop k = d.enc p.2 := List.drop_left' (c.length_enc p.1)
    rw [htake, hdrop, c.dec_enc, d.dec_enc]
  enc_dec bs hbs := by
    rw [c.enc_dec _ (by simp [hbs]), d.enc_dec _ (by simp [hbs]), List.take_append_drop]

/-- The same records under another description of their values. -/
def map (c : FixedCodec α k) (e : α ≃ β) : FixedCodec β k where
  enc b := c.enc (e.symm b)
  dec bs := e (c.dec bs)
  length_enc b := c.length_enc _
  dec_enc b := by simp [c.dec_enc]
  enc_dec bs hbs := by simp [c.enc_dec bs hbs]

/-- The same records with the bytes in the other order. -/
def reverse (c : FixedCodec α k) : FixedCodec α k where
  enc a := (c.enc a).reverse
  dec bs := c.dec bs.reverse
  length_enc a := by rw [List.length_reverse, c.length_enc]
  dec_enc a := by rw [List.reverse_reverse, c.dec_enc]
  enc_dec bs hbs := by
    rw [c.enc_dec _ (by rw [List.length_reverse, hbs]), List.reverse_reverse]

/-- A list of records, one after the other. -/
def encAll (c : FixedCodec α k) (as : List α) : List UInt8 := as.flatMap c.enc

/-- Every value takes the same number of bytes. -/
@[simp] theorem length_encAll (c : FixedCodec α k) (as : List α) :
    (c.encAll as).length = as.length * k := by
  simp [encAll, List.length_flatMap, c.length_enc]

/-- Two lists are encoded one after the other. -/
@[simp] theorem encAll_append (c : FixedCodec α k) (as bs : List α) :
    c.encAll (as ++ bs) = c.encAll as ++ c.encAll bs := by
  simp [encAll]

/-- Equally many records are read back from what was written. -/
theorem encAll_inj (c : FixedCodec α k) {as bs : List α} (hlen : as.length = bs.length)
    (h : c.encAll as = c.encAll bs) : as = bs := by
  induction as generalizing bs with
  | nil => exact (List.length_eq_zero_iff.mp hlen.symm).symm
  | cons a as ih =>
    obtain _ | ⟨b, bs⟩ := bs
    · simp at hlen
    · simp only [encAll, List.flatMap_cons] at h
      obtain ⟨hab, hrest⟩ := List.append_inj h (by rw [c.length_enc, c.length_enc])
      rw [c.enc_injective hab, ih (by simpa using hlen) hrest]

/-- Every string of `n * k` bytes is a list of `n` records. -/
theorem exists_encAll (c : FixedCodec α k) {n : ℕ} {bs : List UInt8} (h : bs.length = n * k) :
    ∃ as, as.length = n ∧ c.encAll as = bs := by
  induction n generalizing bs with
  | zero => exact ⟨[], rfl, (List.length_eq_zero_iff.mp (by simpa using h)).symm⟩
  | succ n ih =>
    have hrest : (bs.drop k).length = n * k := by
      rw [List.length_drop, h, Nat.succ_mul]
      omega
    have hhead : (bs.take k).length = k := by
      rw [List.length_take, h, Nat.succ_mul]
      omega
    obtain ⟨as, hlen, has⟩ := ih hrest
    refine ⟨c.dec (bs.take k) :: as, by simp [hlen], ?_⟩
    calc c.encAll (c.dec (bs.take k) :: as)
        = c.enc (c.dec (bs.take k)) ++ c.encAll as := List.flatMap_cons
      _ = bs.take k ++ bs.drop k := by rw [c.enc_dec _ hhead, has]
      _ = bs := List.take_append_drop k bs

end FixedCodec

/-- A 64-bit word as its eight bytes. -/
def uint64Codec : FixedCodec UInt64 8 where
  enc w := leBytes 8 w.toNat
  dec bs := UInt64.ofNat (ofLeBytes bs)
  length_enc w := leBytes_length 8 _
  dec_enc w := by
    rw [ofLeBytes_leBytes (show w.toNat < 256 ^ 8 from w.toNat_lt), UInt64.ofNat_toNat]
  enc_dec bs hbs := by
    have hlt : ofLeBytes bs < 2 ^ 64 := by
      have := ofLeBytes_lt bs
      rwa [hbs] at this
    rw [UInt64.toNat_ofNat', Nat.mod_eq_of_lt hlt, ← hbs, leBytes_ofLeBytes]

/-- A 32-bit word as its four bytes. -/
def uint32Codec : FixedCodec UInt32 4 where
  enc w := leBytes 4 w.toNat
  dec bs := UInt32.ofNat (ofLeBytes bs)
  length_enc w := leBytes_length 4 _
  dec_enc w := by
    rw [ofLeBytes_leBytes (show w.toNat < 256 ^ 4 from w.toNat_lt), UInt32.ofNat_toNat]
  enc_dec bs hbs := by
    have hlt : ofLeBytes bs < 2 ^ 32 := by
      have := ofLeBytes_lt bs
      rwa [hbs] at this
    rw [UInt32.toNat_ofNat', Nat.mod_eq_of_lt hlt, ← hbs, leBytes_ofLeBytes]

/-- A signed 64-bit word as the eight bytes of its two's complement. -/
def int64Codec : FixedCodec Int64 8 :=
  uint64Codec.map
    { toFun := Int64.ofUInt64
      invFun := Int64.toUInt64
      left_inv := fun _ => rfl
      right_inv := fun _ => rfl }

end AcCore.Lib
