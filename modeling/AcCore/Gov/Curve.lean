import AcCore.Gov.Crypto

/-!
# Keys and signatures as texts

`crypto::ec` writes keys and signatures in base 58 and signs what was written to
a hasher. The arithmetic of the curve is that of a library which is not part of
the repository: it is a parameter here.
-/

namespace AcCore.Gov

open Lib

/-- The functions of the library that `crypto::ec` calls. -/
structure Curve (PrivKey PubKey : Type) where
  /-- `secp256k1_ec_pubkey_create`. -/
  pubkeyCreate : PrivKey → PubKey
  /-- `secp256k1_ec_pubkey_serialize`, compressed. -/
  pubkeySerialize : PubKey → List UInt8
  /-- `secp256k1_ec_pubkey_parse`. -/
  pubkeyParse : List UInt8 → Option PubKey
  /-- `secp256k1_ecdsa_sign` of the digest, in DER. -/
  ecdsaSign : PrivKey → Sha256 → List UInt8
  /-- `secp256k1_ecdsa_verify` of a signature in DER. -/
  ecdsaVerify : PubKey → Sha256 → List UInt8 → Bool
  /-- The same after `secp256k1_ecdsa_signature_normalize`. -/
  ecdsaVerifyNormalized : PubKey → Sha256 → List UInt8 → Bool

/-- What is documented of the library: a key has 33 bytes, from which it is read
again, and a signature is verified with the key that belongs to the signer's. -/
structure Curve.Lawful {PrivKey PubKey : Type} (curve : Curve PrivKey PubKey) : Prop where
  length_serialize : ∀ k, (curve.pubkeySerialize k).length = 33
  parse_serialize : ∀ k, curve.pubkeyParse (curve.pubkeySerialize k) = some k
  sign_ne_nil : ∀ k h, curve.ecdsaSign k h ≠ []
  verify_sign : ∀ k h, curve.ecdsaVerify (curve.pubkeyCreate k) h (curve.ecdsaSign k h) = true

/-- A signature is verified for what was signed, and for nothing else. -/
def Curve.SignsOnly {PrivKey PubKey : Type} (curve : Curve PrivKey PubKey) : Prop :=
  ∀ k h h', curve.ecdsaVerify (curve.pubkeyCreate k) h (curve.ecdsaSign k h') = true → h = h'

/-- The hasher of a signature, after a text. -/
def Sha256.ofText (s : Text) : Sha256 := Sha256.init.write (s.map fun c => UInt8.ofNat c.toNat)

namespace Curve

variable {PrivKey PubKey : Type} (curve : Curve PrivKey PubKey)

/-- `pub_t::to_b58` of a valid key. -/
def toB58 (k : PubKey) : Text := Base58.encode (curve.pubkeySerialize k)

/-- `pub_t::set_b58`. -/
def setB58 (s : Text) : Option PubKey :=
  (Base58.decode s).bind fun v => if v.length = 33 then curve.pubkeyParse v else none

/-- `ec::sign_encode` of a digest. -/
def signEncode (k : PrivKey) (h : Sha256) : Text := Base58.encode (curve.ecdsaSign k h)

/-- `ec::verify` and `ec::verify_not_normalized`, for the check of the library. -/
def verifyWith (check : PubKey → Sha256 → List UInt8 → Bool) (k : PubKey) (h : Sha256)
    (signature : Text) : Bool :=
  if signature = [] then false
  else
    match Base58.decode signature with
    | none => false
    | some v => if v = [] then false else check k h v

/-- `ec::verify` of a digest. -/
def verify (k : PubKey) (h : Sha256) (signature : Text) : Bool :=
  verifyWith curve.ecdsaVerify k h signature

/-- `crypto::ec` with this library. -/
def ec (ripemd : List UInt8 → Ripemd160) : Ec PubKey where
  setB58 := curve.setB58
  hash k := ripemd (curve.pubkeySerialize k)
  verify k text signature := curve.verify k (Sha256.ofText text) signature
  verifyNotNormalized k text signature :=
    verifyWith curve.ecdsaVerifyNormalized k (Sha256.ofText text) signature

variable {curve}

/-- Encoded bytes are one word, unless there are none. -/
theorem isWord_encode {bytes : List UInt8} (h : bytes ≠ []) : IsWord (Base58.encode bytes) := by
  refine ⟨fun hnil => h ?_, Base58.blankFree_encode bytes⟩
  have hbytes := Base58.decode_encode bytes
  rw [hnil] at hbytes
  have hempty : Base58.decode [] = some [] := Base58.decode_encode []
  exact (Option.some.inj (hempty.symm.trans hbytes)).symm

/-- A signature is decoded to its bytes. -/
theorem verifyWith_encode (check : PubKey → Sha256 → List UInt8 → Bool) (k : PubKey) (h : Sha256)
    {v : List UInt8} (hv : v ≠ []) : verifyWith check k h (Base58.encode v) = check k h v := by
  rw [verifyWith, if_neg (isWord_encode hv).1, Base58.decode_encode]
  exact if_neg hv

namespace Lawful

variable (hcurve : curve.Lawful)

include hcurve

/-- The text of a public key is one word. -/
theorem isWord_toB58 (k : PubKey) : IsWord (curve.toB58 k) := by
  apply isWord_encode
  have := hcurve.length_serialize k
  exact List.ne_nil_of_length_pos (by omega)

/-- The text of a public key is read back. -/
theorem setB58_toB58 (k : PubKey) : curve.setB58 (curve.toB58 k) = some k := by
  rw [setB58, toB58, Base58.decode_encode, Option.bind_some,
    if_pos (hcurve.length_serialize k), hcurve.parse_serialize]

/-- The text of a signature is one word. -/
theorem isWord_signEncode (k : PrivKey) (h : Sha256) : IsWord (curve.signEncode k h) :=
  isWord_encode (hcurve.sign_ne_nil k h)

/-- What is signed is verified. -/
theorem verify_signEncode (k : PrivKey) (h : Sha256) :
    curve.verify (curve.pubkeyCreate k) h (curve.signEncode k h) = true := by
  rw [verify, signEncode, verifyWith_encode _ _ _ (hcurve.sign_ne_nil k h)]
  exact hcurve.verify_sign k h

/-- With ideal signatures, another digest is not the one that was signed. -/
theorem verify_signEncode_iff (hsigns : curve.SignsOnly) (k : PrivKey) (h h' : Sha256) :
    curve.verify (curve.pubkeyCreate k) h (curve.signEncode k h') = true ↔ h = h' := by
  constructor
  · intro hverify
    rw [verify, signEncode, verifyWith_encode _ _ _ (hcurve.sign_ne_nil k h')] at hverify
    exact hsigns k h h' hverify
  · rintro rfl
    exact hcurve.verify_signEncode k h

end Lawful

/-! ## Two keys -/

/-- The bytes of one of two keys. -/
def keyBytes (k : Bool) : List UInt8 := (if k then 2 else 3) :: List.replicate 32 0

/-- Two keys whose signatures show the key and what was signed. -/
def ofTwoKeys : Curve Bool Bool where
  pubkeyCreate k := k
  pubkeySerialize := keyBytes
  pubkeyParse bytes := [true, false].find? fun k => keyBytes k == bytes
  ecdsaSign k h := keyBytes k ++ h.written
  ecdsaVerify k h signature := signature = keyBytes k ++ h.written
  ecdsaVerifyNormalized k h signature := signature = keyBytes k ++ h.written

/-- A hash that tells the two keys from each other. -/
def firstByte (bytes : List UInt8) : Ripemd160 := Ripemd160.set (bytes.headD 0).toUInt32

/-- The curve of two keys signs and verifies as a curve does. -/
theorem lawful_ofTwoKeys : ofTwoKeys.Lawful where
  length_serialize := by decide
  parse_serialize := by decide
  sign_ne_nil _ _ := List.cons_ne_nil _ _
  verify_sign _ _ := decide_eq_true rfl

/-- On the curve of two keys only the owner of a key can sign. -/
theorem signsOnly_ofTwoKeys : ofTwoKeys.SignsOnly := by
  intro k h h' hverify
  have hbytes := List.append_cancel_left (of_decide_eq_true hverify)
  exact congrArg Sha256.mk hbytes.symm

end Curve

end AcCore.Gov
