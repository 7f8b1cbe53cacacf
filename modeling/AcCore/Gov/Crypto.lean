import AcCore.Lib.Bytes
import AcCore.Gov.Base58
import Mathlib.Order.Basic

/-!
# The two hashers, as far as they are fed

`ripemd160::value_type` is an array of twenty bytes that the code compares and
assigns as two 64-bit words and one 32-bit word, so it is modelled by these
words. The hashers are modelled by the bytes written to them: what is proved
about signed texts and hashes is about the strings that reach the hash
function, which stays a parameter.
-/

namespace AcCore.Gov

open Lib

/-- `ripemd160::value_type`, as the words that `operator ==` and `operator <` read. -/
@[ext] structure Ripemd160 where
  w0 : UInt64
  w1 : UInt64
  w2 : UInt32
  deriving DecidableEq, Repr

namespace Ripemd160

/-- `value_type::set(unsigned int)`, also the converting constructor. -/
def set (i : UInt32) : Ripemd160 := ⟨0, 0, i⟩

/-- `value_type::zero`, also the default constructor. -/
def zero : Ripemd160 := ⟨0, 0, 0⟩

/-- `value_type::is_zero`. -/
def isZero (v : Ripemd160) : Bool := v.w0 == 0 && v.w1 == 0 && v.w2 == 0

/-- `value_type::operator <`. -/
def lt (a b : Ripemd160) : Bool :=
  if a.w0 < b.w0 then true
  else if a.w0 > b.w0 then false
  else if a.w1 < b.w1 then true
  else if a.w1 > b.w1 then false
  else decide (a.w2 < b.w2)

/-- The words read as the digits of one number. -/
def rank (v : Ripemd160) : ℕ := (v.w0.toNat * 2 ^ 64 + v.w1.toNat) * 2 ^ 32 + v.w2.toNat

/-- Different hashes have different ranks. -/
theorem rank_injective : Function.Injective rank := by
  intro a b h
  have ha1 := a.w1.toNat_lt
  have hb1 := b.w1.toNat_lt
  have ha2 := a.w2.toNat_lt
  have hb2 := b.w2.toNat_lt
  unfold rank at h
  ext1
  · exact UInt64.toNat_inj.mp (by omega)
  · exact UInt64.toNat_inj.mp (by omega)
  · exact UInt32.toNat_inj.mp (by omega)

/-- Hashes are ordered by their ranks. -/
instance : LinearOrder Ripemd160 := LinearOrder.lift' rank rank_injective

/-- `operator <` compares the words from the first to the last. -/
theorem lt_eq_true_iff (a b : Ripemd160) : a.lt b = true ↔ a < b := by
  have ha1 := a.w1.toNat_lt
  have hb1 := b.w1.toNat_lt
  have ha2 := a.w2.toNat_lt
  have hb2 := b.w2.toNat_lt
  change a.lt b = true ↔ a.rank < b.rank
  unfold lt rank
  simp only [gt_iff_lt, UInt64.lt_iff_toNat_lt, UInt32.lt_iff_toNat_lt]
  split_ifs <;> simp <;> omega

/-- The words of a value, as a triple. -/
def equivWords : (UInt64 × UInt64) × UInt32 ≃ Ripemd160 where
  toFun p := ⟨p.1.1, p.1.2, p.2⟩
  invFun v := ((v.w0, v.w1), v.w2)
  left_inv _ := rfl
  right_inv _ := rfl

/-- The twenty bytes of the array. -/
def codec : FixedCodec Ripemd160 20 :=
  ((uint64Codec.pair uint64Codec).pair uint32Codec).map equivWords

/-- The bytes `&(*this)[0]`, `output_size` of them. -/
def bytes (v : Ripemd160) : List UInt8 := codec.enc v

/-- Different hashes have different bytes. -/
theorem bytes_injective : Function.Injective bytes := codec.enc_injective

/-- `value_type::to_b58`. -/
def toB58 (v : Ripemd160) : Text := Base58.encode v.bytes

/-- `value_type::from_b58`: zero when the text is not that of twenty bytes. -/
def fromB58 (s : Text) : Ripemd160 :=
  match Base58.decode s with
  | none => zero
  | some v => if v.length = 20 then codec.dec v else zero

/-- `value_type::set_b58`; `none` when it returns false. -/
def setB58 (s : Text) : Option Ripemd160 :=
  match Base58.decode s with
  | none => none
  | some v => if v.length = 20 then some (codec.dec v) else none

/-- The base58 text of a hash is read back. -/
theorem fromB58_toB58 (v : Ripemd160) : fromB58 (toB58 v) = v := by
  have hlength : v.bytes.length = 20 := codec.length_enc v
  rw [fromB58, toB58, Base58.decode_encode]
  simp only [hlength, if_true]
  exact codec.dec_enc v

/-- The base58 text of a hash has no blanks. -/
theorem blankFree_toB58 (v : Ripemd160) : BlankFree v.toB58 := Base58.blankFree_encode v.bytes

/-- The text of a hash has 28 characters at most. -/
theorem length_toB58_le (v : Ripemd160) : v.toB58.length ≤ 28 := by
  have hlength : v.bytes.length = 20 := codec.length_enc v
  have hle := Base58.length_encode_le v.bytes
  rwa [hlength] at hle

/-- The text of a hash has as many characters as the hash has bytes, at least. -/
theorem le_length_toB58 (v : Ripemd160) : 20 ≤ v.toB58.length := by
  have hlength : v.bytes.length = 20 := codec.length_enc v
  have hle := Base58.length_le_length_encode v.bytes
  rwa [hlength] at hle

end Ripemd160

/-- `sha256` before `finalize`: everything written to it. -/
structure Sha256 where
  written : List UInt8
  deriving DecidableEq, Repr

namespace Sha256

/-- `sha256::sha256`. -/
def init : Sha256 := ⟨[]⟩

/-- `sha256::write(const unsigned char*, size_t)`. -/
def write (h : Sha256) (data : List UInt8) : Sha256 := ⟨h.written ++ data⟩

/-- `sha256::write(const ripemd160::value_type&)`. -/
def writeRipemd160 (h : Sha256) (data : Ripemd160) : Sha256 := h.write data.bytes

/-- `h.write(x)` for a `uint64_t`: the class has no overload for it, and the
one that accepts it is `write(const ripemd160::value_type&)`, through
`value_type(unsigned int)`. -/
def writeUInt64 (h : Sha256) (x : UInt64) : Sha256 := h.writeRipemd160 (Ripemd160.set x.toUInt32)

/-- Nothing has been written to a new hasher. -/
@[simp] theorem written_init : init.written = [] := rfl

/-- What is written is appended. -/
@[simp] theorem written_write (h : Sha256) (data : List UInt8) :
    (h.write data).written = h.written ++ data := rfl

/-- A hash is written as its bytes. -/
@[simp] theorem written_writeRipemd160 (h : Sha256) (data : Ripemd160) :
    (h.writeRipemd160 data).written = h.written ++ data.bytes := rfl

/-- The conversion keeps the low half of the word only. -/
theorem writeUInt64_eq_iff {h : Sha256} {x y : UInt64} :
    h.writeUInt64 x = h.writeUInt64 y ↔ x.toUInt32 = y.toUInt32 := by
  constructor
  · intro heq
    have hbytes := congrArg written heq
    simp only [writeUInt64, written_writeRipemd160, List.append_cancel_left_eq] at hbytes
    exact congrArg Ripemd160.w2 (Ripemd160.bytes_injective hbytes)
  · intro heq
    rw [writeUInt64, writeUInt64, heq]

end Sha256

/-- What the node uses of `crypto::ec`, which rests on a library that is not
part of the repository. -/
structure Ec (PubKey : Type) where
  /-- `pub_t::set_b58`; `none` when the text is not a public key. -/
  setB58 : Text → Option PubKey
  /-- `pub_t::hash`. -/
  hash : PubKey → Ripemd160
  /-- `ec::verify` of a signature of a text. -/
  verify : PubKey → Text → Text → Bool
  /-- `ec::verify_not_normalized`, with which the id handshake checks signatures. -/
  verifyNotNormalized : PubKey → Text → Text → Bool

end AcCore.Gov
