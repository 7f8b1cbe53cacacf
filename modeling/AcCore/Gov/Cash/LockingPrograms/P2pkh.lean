import AcCore.Gov.Cash.TxRoundTrip
import AcCore.Gov.Curve

/-!
# Pay to public key hash

The locking program with hash 1. What unlocks an account is a signature, the
sigcodes that say what of the transaction it covers, and the public key whose
hash is the address.
-/

namespace AcCore.Gov.Cash

open Lib Engine

/-- The sigcodes of the inputs and of the outputs. -/
inductive Sigcode where
  | all
  | none
  | this
  deriving DecidableEq, Repr

/-- The number of a sigcode. -/
def Sigcode.code : Sigcode → UInt8
  | .all => sigcodeAll
  | .none => sigcodeNone
  | .this => sigcodeThis

/-- `tx::same_sigmsg_across_inputs`. -/
def sameSigmsgAcrossInputs (scs : UInt8) : Bool :=
  sigcodeInput scs == sigcodeThis || sigcodeOutput scs == sigcodeThis

namespace P2pkh

variable {PrivKey PubKey : Type} (curve : Curve PrivKey PubKey) (ripemd : List UInt8 → Ripemd160)

/-- `p2pkh::locking_program_hash`. -/
def lockingProgramHash : Ripemd160 := Ripemd160.set 1

/-- `p2pkh::create_input` for a digest. -/
def createInput (h : Sha256) (sigcodes : UInt8) (k : PrivKey) : Text :=
  curve.signEncode k h ++
    ' ' :: (natText sigcodes.toNat ++ ' ' :: curve.toB58 (curve.pubkeyCreate k))

/-- `p2pkh::create_input` for an input of a transaction. -/
def createInputAt (t : Tx) (thisIndex : ℕ) (sigcodes : UInt8) (k : PrivKey) : Option Text :=
  (t.sigmsg thisIndex sigcodes).map fun h => createInput curve h sigcodes k

/-- `p2pkh::check_input`; `none` when it hashes under sigcodes that are not
initialised, or beyond the inputs. A key that is not valid has the hash 0, and
verifies nothing. -/
def checkInput (address : Ripemd160) (t : Tx) (thisIndex : ℕ) (lockingProgramInput : Text) :
    Option Bool :=
  let (signature, s) := extract (some lockingProgramInput)
  match extractInt none s with
  | none => if Ripemd160.zero ≠ address then some false else none
  | some (sigcodes, s) =>
    let (pk, _) := extractPubKey (curve.ec ripemd) s
    if pk.elim Ripemd160.zero (curve.ec ripemd).hash ≠ address then some false
    else
      (t.sigmsg thisIndex (UInt8.ofInt sigcodes)).map fun h =>
        pk.elim false fun k => curve.verify k h signature

/-! ## What is created is checked -/

variable {curve}

/-- **What `check_input` makes of what `create_input` wrote**: for the address of
the key it is whether the signature is verified for the digest at the index. -/
theorem checkInput_createInput (hcurve : curve.Lawful) (ripemd : List UInt8 → Ripemd160)
    (k : PrivKey) {address : Ripemd160}
    (haddress : ripemd (curve.pubkeySerialize (curve.pubkeyCreate k)) = address) (t : Tx)
    (thisIndex : ℕ) (h : Sha256) (sigcodes : UInt8) :
    checkInput curve ripemd address t thisIndex (createInput curve h sigcodes k) =
      (t.sigmsg thisIndex sigcodes).map fun h' =>
        curve.verify (curve.pubkeyCreate k) h' (curve.signEncode k h) := by
  have hblank : ∀ c ∈ [' '], isSpace c = true := by simp [isSpace]
  have hsignature : extract (some (createInput curve h sigcodes k)) = (curve.signEncode k h,
      some (' ' :: (natText sigcodes.toNat ++ ' ' :: curve.toB58 (curve.pubkeyCreate k)))) := by
    rw [extract, createInput, readWord_append (hcurve.isWord_signEncode k h)]
  have hkey : extractPubKey (curve.ec ripemd)
      (some (' ' :: curve.toB58 (curve.pubkeyCreate k))) =
        (some (curve.pubkeyCreate k), some []) := by
    have hset : (curve.ec ripemd).setB58 (curve.toB58 (curve.pubkeyCreate k)) =
        some (curve.pubkeyCreate k) := hcurve.setB58_toB58 _
    have hword := extract_last (hcurve.isWord_toB58 (curve.pubkeyCreate k)) hblank
    rw [List.singleton_append] at hword
    simp only [extractPubKey, hword, hset]
  have hbyte := sigcodes.toNat_lt
  have hcodes : UInt8.ofInt (sigcodes.toNat : ℤ) = sigcodes := by
    rw [UInt8.ofInt, Int.emod_eq_of_lt (by omega) (by omega), Int.toNat_natCast,
      UInt8.ofNat_toNat]
  have hint := extractInt_word (by omega : sigcodes.toNat < 2 ^ 31) hblank
    (curve.toB58 (curve.pubkeyCreate k)) none
  rw [List.singleton_append] at hint
  have hhash : (curve.ec ripemd).hash (curve.pubkeyCreate k) = address := haddress
  simp only [checkInput, hsignature, hint, hkey, Option.elim_some, hhash, ne_eq,
    not_true_eq_false, if_false, hcodes]

/-- What is created is unlocking data that the text of a transaction keeps. -/
theorem encodable_createInput (address : Ripemd160) (amount : Int64) (h : Sha256)
    (sigcodes : UInt8) (k : PrivKey) :
    (⟨address, amount, createInput curve h sigcodes k⟩ : Input).Encodable := by
  have hplain : Plain (createInput curve h sigcodes k) := by
    intro c hc
    simp only [createInput, List.mem_append, List.mem_cons] at hc
    rcases hc with hc | rfl | hc | rfl | hc
    · exact plain_encode _ c hc
    · decide
    · exact plain_natText _ c hc
    · decide
    · exact plain_encode _ c hc
  -- there are two blanks in it, and none in the dash
  have hne : createInput curve h sigcodes k ≠ ['-'] := by
    intro hdash
    have hblank : ' ' ∈ createInput curve h sigcodes k := by simp [createInput]
    rw [hdash] at hblank
    exact absurd hblank (by decide)
  exact Or.inr ⟨hplain, hne⟩

end P2pkh

end AcCore.Gov.Cash
