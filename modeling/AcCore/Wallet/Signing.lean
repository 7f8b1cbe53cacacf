import AcCore.Gov.Cash.Sigmsg
import AcCore.Wallet.Wallet

/-!
# One signature hash for all inputs

When the sigcodes say so the wallet hashes what is signed once, for the first
input, and signs that for all of them. This file determines for which transactions
the first hash is the hash of every input.
-/

namespace AcCore.Wallet

open Lib Gov Gov.Cash Gov.Engine

variable {PrivKey PubKey : Type} {curve : Curve PrivKey PubKey}
  {ripemd : List UInt8 → Ripemd160}

/-- The inputs signed with the hash of the first one. -/
def signOnce (w : Wallet curve ripemd) (t : Tx) (accounts : List InputAccount) (scs : UInt8) :
    Option (List Input) :=
  (t.sigmsg 0 scs).bind fun h =>
    w.signInputs (fun _ k => some (P2pkh.createInput curve h scs k)) (t.inputs.zip accounts)

/-- The inputs signed each with its own hash. -/
def signEach (w : Wallet curve ripemd) (t : Tx) (accounts : List InputAccount) (scs : UInt8) :
    Option (List Input) :=
  w.signInputs (fun n k => P2pkh.createInputAt curve t n scs k) (t.inputs.zip accounts)

/-- These are the two ways in which `tx_make_p2pkh` signs. -/
theorem signTx_eq (w : Wallet curve ripemd) (t : Tx) (accounts : List InputAccount)
    (scs : UInt8) :
    w.signTx t accounts scs =
      (if sameSigmsgAcrossInputs scs then w.signOnce t accounts scs
        else w.signEach t accounts scs).map fun inputs => { t with inputs := inputs } := rfl

/-- The hash of the first input is the hash of every input, and to sign it for all
of them is to sign each separately. -/
structure SharesSigmsg (t : Tx) (scs : UInt8) : Prop where
  sigmsg : ∀ n, n < t.inputs.length → t.sigmsg n scs = t.sigmsg 0 scs
  sign : t.inputs ≠ [] → ∀ (PrivKey PubKey : Type) (curve : Curve PrivKey PubKey)
    (ripemd : List UInt8 → Ripemd160) (w : Wallet curve ripemd) (accounts : List InputAccount),
      w.signOnce t accounts scs = w.signEach t accounts scs

/-- Nothing that is signed depends on the input: all inputs are signed or they have
the same content, and an output that is signed alone is the same for all. -/
structure Uniform (t : Tx) (scs : UInt8) : Prop where
  inputs : sigcodeInput scs = sigcodeAll ∨ ∀ n, n < t.inputs.length →
    (t.inputs.map Input.content)[n]? = (t.inputs.map Input.content)[0]?
  outputs : sigcodeOutput scs = sigcodeThis → ∀ n, n < t.inputs.length →
    (t.outputs.map Output.content)[n]? = (t.outputs.map Output.content)[0]?

/-- Only what is signed for the inputs that there are matters. -/
theorem mapM_congr {α β : Type} {f g : α → Option β} {xs : List α} (h : ∀ x ∈ xs, f x = g x) :
    xs.mapM f = xs.mapM g := by
  induction xs with
  | nil => rfl
  | cons x xs ih =>
    rw [List.mapM_cons, List.mapM_cons, h x List.mem_cons_self,
      ih fun y hy => h y (List.mem_cons_of_mem x hy)]

/-- Signing depends on the signatures of the inputs only. -/
theorem signInputs_congr (w : Wallet curve ripemd) {create create' : ℕ → PrivKey → Option Text}
    {inputs : List (Input × InputAccount)}
    (h : ∀ n, n < inputs.length → create n = create' n) :
    w.signInputs create inputs = w.signInputs create' inputs := by
  refine mapM_congr fun i hi => ?_
  have hn : i.2 < inputs.length := by simpa using List.snd_lt_of_mem_zipIdx hi
  rw [h i.2 hn]

/-- Where the hashes are the same, so is what is signed. -/
theorem signOnce_eq_signEach (w : Wallet curve ripemd) {t : Tx} {scs : UInt8}
    (hsigmsg : ∀ n, n < t.inputs.length → t.sigmsg n scs = t.sigmsg 0 scs)
    (hinputs : t.inputs ≠ []) (accounts : List InputAccount) :
    w.signOnce t accounts scs = w.signEach t accounts scs := by
  have hfirst := sigmsg_of_lt (List.length_pos_iff.mpr hinputs) scs
  rw [signOnce, hfirst, Option.bind_some]
  refine w.signInputs_congr fun n hn => ?_
  have hlt : n < t.inputs.length := by
    rw [List.length_zip] at hn
    omega
  funext k
  rw [P2pkh.createInputAt, hsigmsg n hlt, hfirst, Option.map_some]

/-- All inputs have the message of the first exactly when the code makes them uniform. -/
theorem sigmsg_eq_zero_iff (t : Tx) (scs : UInt8) :
    (∀ n, n < t.inputs.length → t.sigmsg n scs = t.sigmsg 0 scs) ↔ Uniform t scs := by
  have hall : ∀ n, n < t.inputs.length → (t.sigmsg n scs = t.sigmsg 0 scs ↔
      (sigcodeInput scs = sigcodeAll ∨
        (t.inputs.map Input.content)[n]? = (t.inputs.map Input.content)[0]?) ∧
      (sigcodeOutput scs = sigcodeThis →
        (t.outputs.map Output.content)[n]? = (t.outputs.map Output.content)[0]?)) :=
    fun n hn => sigmsg_eq_iff hn (by omega) scs
  constructor
  · intro h
    refine ⟨?_, fun hthis n hn => ((hall n hn).mp (h n hn)).2 hthis⟩
    by_cases hinput : sigcodeInput scs = sigcodeAll
    · exact Or.inl hinput
    · exact Or.inr fun n hn => ((hall n hn).mp (h n hn)).1.resolve_left hinput
  · intro h n hn
    refine (hall n hn).mpr ⟨?_, fun hthis => h.outputs hthis n hn⟩
    exact h.inputs.imp_right fun hinputs => hinputs n hn

/-- **When the shared hash may be shared.** The sigcodes for which it is used are
those that sign one input or one output, so it is the hash of every input exactly
when the inputs, or the outputs at their places, do not differ. -/
theorem sharesSigmsg_iff (t : Tx) (scs : UInt8) :
    (sameSigmsgAcrossInputs scs = true → SharesSigmsg t scs) ↔
      (sameSigmsgAcrossInputs scs = true → Uniform t scs) := by
  refine imp_congr_right fun _ => ?_
  rw [← sigmsg_eq_zero_iff]
  constructor
  · intro h
    exact h.sigmsg
  · intro h
    exact ⟨h, fun hinputs _ _ _ _ w accounts => w.signOnce_eq_signEach h hinputs accounts⟩

/-- Two inputs with different addresses, and one output. -/
def twoInputs : Tx where
  inputs := [⟨Ripemd160.set 2, 5, []⟩, ⟨Ripemd160.set 3, 3, []⟩]
  outputs := [⟨Ripemd160.set 9, 7, P2pkh.lockingProgramHash⟩]
  ts := 1

/-- When one input is signed the hash of the first is not that of the second, and
it is used for both. -/
theorem twoInputs_not_sharesSigmsg :
    sameSigmsgAcrossInputs (combine sigcodeThis sigcodeAll) = true ∧
      twoInputs.sigmsg 1 (combine sigcodeThis sigcodeAll) ≠
        twoInputs.sigmsg 0 (combine sigcodeThis sigcodeAll) ∧
      ¬ SharesSigmsg twoInputs (combine sigcodeThis sigcodeAll) := by
  have hdiffer : twoInputs.sigmsg 1 (combine sigcodeThis sigcodeAll) ≠
      twoInputs.sigmsg 0 (combine sigcodeThis sigcodeAll) := by decide +kernel
  exact ⟨by decide, hdiffer, fun h => hdiffer (h.sigmsg 1 (by decide))⟩

end AcCore.Wallet
