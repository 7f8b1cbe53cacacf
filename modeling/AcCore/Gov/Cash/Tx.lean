import AcCore.Gov.Crypto
import Mathlib.Tactic.Linarith

/-!
# Transactions and the text that is signed for them

`tx::write_sigmsg` feeds the signed content of a transaction to the hasher.
With the sigcodes all/all, that is every input, every output and the time
stamp, without counts or separators.
-/

namespace AcCore.Gov.Cash

open Lib

/-- `tx::input_t`. -/
structure Input where
  address : Ripemd160
  amount : Int64
  lockingProgramInput : List Char
  deriving DecidableEq, Repr

/-- `tx::output_t`. -/
structure Output where
  address : Ripemd160
  amount : Int64
  lockingProgram : Ripemd160
  deriving DecidableEq, Repr

/-- `tx`, with the time stamp of `engine::evidence`. -/
structure Tx where
  inputs : List Input
  outputs : List Output
  ts : UInt64
  deriving DecidableEq, Repr

/-! ## Sigcodes -/

/-- `tx::sigcode_all`. -/
def sigcodeAll : UInt8 := 0

/-- `tx::sigcode_none`. -/
def sigcodeNone : UInt8 := 1

/-- `tx::sigcode_this`. -/
def sigcodeThis : UInt8 := 2

/-- `tx::combine`. -/
def combine (i o : UInt8) : UInt8 := (i <<< 4) ||| o

/-- `tx::sigcode_input`. -/
def sigcodeInput (sc : UInt8) : UInt8 := sc >>> 4

/-- `tx::sigcode_output`. -/
def sigcodeOutput (sc : UInt8) : UInt8 := sc &&& 0x0f

/-! ## What is fed to the hasher -/

/-- `input_t::write_sigmsg`. -/
def Input.writeSigmsg (i : Input) (h : Sha256) : Sha256 :=
  (h.writeRipemd160 i.address).write (int64Codec.enc i.amount)

/-- `output_t::write_sigmsg`. -/
def Output.writeSigmsg (o : Output) (h : Sha256) : Sha256 :=
  ((h.writeRipemd160 o.address).write (int64Codec.enc o.amount)).writeRipemd160 o.lockingProgram

/-- `inputs_t::write_sigmsg`. Under any other sigcode than `all` the input at
`thisIndex` is written, with no check of the index: beyond the end the code
has no defined result. -/
def inputsWriteSigmsg (inputs : List Input) (h : Sha256) (thisIndex : ℕ) (sc : UInt8) :
    Option Sha256 :=
  if sc = sigcodeAll then some (inputs.foldl (fun h i => i.writeSigmsg h) h)
  else inputs[thisIndex]?.map fun i => i.writeSigmsg h

/-- `outputs_t::write_sigmsg`. -/
def outputsWriteSigmsg (outputs : List Output) (h : Sha256) (thisIndex : ℕ) (sc : UInt8) :
    Sha256 :=
  if sc = sigcodeAll then outputs.foldl (fun h o => o.writeSigmsg h) h
  else if sc = sigcodeThis then outputs[thisIndex]?.elim h fun o => o.writeSigmsg h
  else h

/-- `tx::write_sigmsg`. -/
def Tx.writeSigmsg (t : Tx) (h : Sha256) (thisIndex : ℕ) (scs : UInt8) : Option Sha256 :=
  (inputsWriteSigmsg t.inputs h thisIndex (sigcodeInput scs)).map fun h =>
    (outputsWriteSigmsg t.outputs h thisIndex (sigcodeOutput scs)).writeUInt64 t.ts

/-- The hasher of `tx::get_hash` just before `finalize`. -/
def Tx.sigmsg (t : Tx) (thisIndex : ℕ) (scs : UInt8) : Option Sha256 :=
  t.writeSigmsg Sha256.init thisIndex scs

/-! ## Fees -/

/-- One of the two sums of `tx::check`; `none` is the early `return -1` at an
amount that is not positive. -/
def sumAmounts (wrap : ℤ → ℤ) (amounts : List Int64) : Option ℤ :=
  amounts.foldlM (fun sum a => if a.toInt ≤ 0 then none else some (wrap (sum + a.toInt))) 0

/-- `tx::check`: the fees, or -1. The arithmetic of `cash_t` is a parameter:
64-bit two's complement, or exact integers. -/
def Tx.check (wrap : ℤ → ℤ) (t : Tx) : ℤ :=
  match sumAmounts wrap (t.inputs.map Input.amount) with
  | none => -1
  | some sumInputs =>
    match sumAmounts wrap (t.outputs.map Output.amount) with
    | none => -1
    | some sumOutputs => wrap (sumInputs - sumOutputs)

/-! ## The signed content as records -/

/-- The part of an input that is signed. -/
def Input.content (i : Input) : Ripemd160 × Int64 := (i.address, i.amount)

/-- The part of an output that is signed: all of it. -/
def Output.content (o : Output) : (Ripemd160 × Int64) × Ripemd160 :=
  ((o.address, o.amount), o.lockingProgram)

/-- An input is a record of 28 bytes. -/
def inputCodec : FixedCodec (Ripemd160 × Int64) 28 := Ripemd160.codec.pair int64Codec

/-- An output is a record of 48 bytes. -/
def outputCodec : FixedCodec ((Ripemd160 × Int64) × Ripemd160) 48 :=
  (Ripemd160.codec.pair int64Codec).pair Ripemd160.codec

/-- The two transactions have the same inputs, outputs and time stamp, up to
the unlocking data, which is not signed. -/
def SameContent (t t' : Tx) : Prop :=
  t.inputs.map Input.content = t'.inputs.map Input.content ∧
    t.outputs.map Output.content = t'.outputs.map Output.content ∧ t.ts = t'.ts

/-- Contents are compared field by field. -/
instance (t t' : Tx) : Decidable (SameContent t t') :=
  inferInstanceAs (Decidable (_ ∧ _ ∧ _))

/-- The bytes of the inputs and outputs of a transaction. -/
def Tx.recordBytes (t : Tx) : List UInt8 :=
  inputCodec.encAll (t.inputs.map Input.content) ++
    outputCodec.encAll (t.outputs.map Output.content)

/-- The inputs write their contents. -/
theorem written_inputs (inputs : List Input) (h : Sha256) :
    (inputs.foldl (fun h i => i.writeSigmsg h) h).written =
      h.written ++ inputCodec.encAll (inputs.map Input.content) := by
  induction inputs generalizing h with
  | nil => simp [FixedCodec.encAll]
  | cons i inputs ih =>
    rw [List.foldl_cons, ih]
    simp [Input.writeSigmsg, FixedCodec.encAll, inputCodec, FixedCodec.pair, Input.content,
      Ripemd160.bytes]

/-- The outputs write their contents. -/
theorem written_outputs (outputs : List Output) (h : Sha256) :
    (outputs.foldl (fun h o => o.writeSigmsg h) h).written =
      h.written ++ outputCodec.encAll (outputs.map Output.content) := by
  induction outputs generalizing h with
  | nil => simp [FixedCodec.encAll]
  | cons o outputs ih =>
    rw [List.foldl_cons, ih]
    simp [Output.writeSigmsg, FixedCodec.encAll, outputCodec, FixedCodec.pair, Output.content,
      Ripemd160.bytes]

/-- With the sigcodes all/all the hasher gets the records of the inputs, those
of the outputs, and a zero `value_type` that ends with the low half of `ts`. -/
theorem sigmsg_all (t : Tx) (thisIndex : ℕ) :
    t.sigmsg thisIndex (combine sigcodeAll sigcodeAll) =
      some ⟨t.recordBytes ++ (Ripemd160.set t.ts.toUInt32).bytes⟩ := by
  have hin : sigcodeInput (combine sigcodeAll sigcodeAll) = sigcodeAll := by decide
  have hout : sigcodeOutput (combine sigcodeAll sigcodeAll) = sigcodeAll := by decide
  simp only [Tx.sigmsg, Tx.writeSigmsg, hin, hout, inputsWriteSigmsg, outputsWriteSigmsg, if_true,
    Option.map_some, Option.some.injEq, Sha256.writeUInt64]
  rw [Sha256.writeRipemd160, Sha256.write, written_outputs, written_inputs]
  simp [Tx.recordBytes]

/-- Two transactions feed the same bytes exactly when their records do and
their time stamps agree in the low half. -/
theorem sigmsg_all_eq_iff (t t' : Tx) (i i' : ℕ) :
    t.sigmsg i (combine sigcodeAll sigcodeAll) = t'.sigmsg i' (combine sigcodeAll sigcodeAll) ↔
      t.recordBytes = t'.recordBytes ∧ t.ts.toUInt32 = t'.ts.toUInt32 := by
  rw [sigmsg_all, sigmsg_all, Option.some.injEq, Sha256.mk.injEq]
  constructor
  · intro h
    have hlen : (Ripemd160.set t.ts.toUInt32).bytes.length =
        (Ripemd160.set t'.ts.toUInt32).bytes.length := by
      simp only [Ripemd160.bytes, FixedCodec.length_enc]
    obtain ⟨hrecords, hts⟩ := List.append_inj' h hlen
    exact ⟨hrecords, congrArg Ripemd160.w2 (Ripemd160.bytes_injective hts)⟩
  · rintro ⟨hrecords, hts⟩
    rw [hrecords, hts]

/-- The time stamp is not among the records. -/
theorem recordBytes_withTs (t : Tx) (ts : UInt64) :
    ({ t with ts := ts } : Tx).recordBytes = t.recordBytes := rfl

/-- The bytes of the records, 28 for an input and 48 for an output. -/
theorem length_recordBytes (t : Tx) :
    t.recordBytes.length = 28 * t.inputs.length + 48 * t.outputs.length := by
  simp [Tx.recordBytes, mul_comm]

/-- A transaction with the given signed records, time stamp and no unlocking data. -/
def Tx.ofRecords (inputs : List (Ripemd160 × Int64))
    (outputs : List ((Ripemd160 × Int64) × Ripemd160)) (ts : UInt64) : Tx where
  inputs := inputs.map fun p => ⟨p.1, p.2, []⟩
  outputs := outputs.map fun p => ⟨p.1.1, p.1.2, p.2⟩
  ts := ts

/-- A transaction can have any records. -/
@[simp] theorem content_ofRecords (inputs : List (Ripemd160 × Int64))
    (outputs : List ((Ripemd160 × Int64) × Ripemd160)) (ts : UInt64) :
    (Tx.ofRecords inputs outputs ts).inputs.map Input.content = inputs ∧
      (Tx.ofRecords inputs outputs ts).outputs.map Output.content = outputs := by
  simp [Tx.ofRecords, Function.comp_def, Input.content, Output.content]

/-- Any string of the right length is the records of some transaction with
the given numbers of inputs and outputs. -/
theorem exists_recordBytes {m n : ℕ} {bs : List UInt8} (h : bs.length = 28 * m + 48 * n)
    (ts : UInt64) :
    ∃ t : Tx, t.inputs.length = m ∧ t.outputs.length = n ∧ t.ts = ts ∧ t.recordBytes = bs := by
  have htake : (bs.take (28 * m)).length = m * 28 := by
    rw [List.length_take, h]
    omega
  have hdrop : (bs.drop (28 * m)).length = n * 48 := by
    rw [List.length_drop, h]
    omega
  obtain ⟨ins, hm, hins⟩ := inputCodec.exists_encAll htake
  obtain ⟨outs, hn, houts⟩ := outputCodec.exists_encAll hdrop
  refine ⟨Tx.ofRecords ins outs ts, by simpa [Tx.ofRecords] using hm,
    by simpa [Tx.ofRecords] using hn, rfl, ?_⟩
  obtain ⟨hi, ho⟩ := content_ofRecords ins outs ts
  rw [Tx.recordBytes, hi, ho, hins, houts, List.take_append_drop]

/-- With equally many inputs the records determine the content. -/
theorem content_eq_of_recordBytes {t t' : Tx} (h : t.recordBytes = t'.recordBytes)
    (hcount : t.inputs.length = t'.inputs.length) :
    t.inputs.map Input.content = t'.inputs.map Input.content ∧
      t.outputs.map Output.content = t'.outputs.map Output.content := by
  have hlen := congrArg List.length h
  rw [length_recordBytes, length_recordBytes] at hlen
  obtain ⟨hins, houts⟩ := List.append_inj h (by simp [hcount])
  exact ⟨inputCodec.encAll_inj (by simpa using hcount) hins,
    outputCodec.encAll_inj (by simp; omega) houts⟩

/-! ## What the signature hash commits to -/

/-- Equal bytes at the hasher, under all/all, come from the same content. -/
def Tx.CommitsAgainst (t t' : Tx) : Prop :=
  ∀ i i', t.sigmsg i (combine sigcodeAll sigcodeAll) =
    t'.sigmsg i' (combine sigcodeAll sigcodeAll) → SameContent t t'

/-- The same transaction, about 4.3 seconds later: the high half of the time
stamp, in nanoseconds, is one greater. -/
def Tx.later (t : Tx) : Tx := { t with ts := UInt64.ofNat (t.ts.toNat + 2 ^ 32) }

/-- The later transaction feeds the same bytes. -/
theorem sigmsg_all_later (t : Tx) (i i' : ℕ) :
    t.sigmsg i (combine sigcodeAll sigcodeAll) =
      t.later.sigmsg i' (combine sigcodeAll sigcodeAll) := by
  have hrecords : t.later.recordBytes = t.recordBytes := recordBytes_withTs t _
  have hlow : t.ts.toUInt32 = t.later.ts.toUInt32 := by
    apply UInt32.toNat_inj.mp
    simp only [Tx.later, UInt64.toNat_toUInt32, UInt64.toNat_ofNat']
    omega
  exact (sigmsg_all_eq_iff _ _ _ _).mpr ⟨hrecords.symm, hlow⟩

/-- No signature hash commits to the upper half of the time. -/
theorem not_commitsAgainst_later (t : Tx) : ¬ t.CommitsAgainst t.later := by
  intro h
  have hsame := (h 0 0 (sigmsg_all_later t 0 0)).2.2
  have hnat := congrArg UInt64.toNat hsame
  simp only [Tx.later, UInt64.toNat_ofNat'] at hnat
  have := t.ts.toNat_lt
  omega

/-- Twelve inputs take the bytes of seven outputs. -/
theorem records_determine_content_iff (t : Tx) :
    (∀ t', t'.ts = t.ts → t.CommitsAgainst t') ↔ t.inputs.length < 12 ∧ t.outputs.length < 7 := by
  constructor
  · intro h
    have hother : ∀ m n, 28 * m + 48 * n = 28 * t.inputs.length + 48 * t.outputs.length →
        m = t.inputs.length := by
      intro m n hmn
      obtain ⟨t', hm, hn, hts, hbytes⟩ :=
        exists_recordBytes ((length_recordBytes t).trans hmn.symm) t.ts
      have hsame := h t' hts 0 0 ((sigmsg_all_eq_iff _ _ _ _).mpr ⟨hbytes.symm, by rw [hts]⟩)
      have := congrArg List.length hsame.1
      simp only [List.length_map] at this
      omega
    constructor
    · by_contra hge
      have := hother (t.inputs.length - 12) (t.outputs.length + 7) (by omega)
      omega
    · by_contra hge
      have := hother (t.inputs.length + 12) (t.outputs.length - 7) (by omega)
      omega
  · rintro ⟨hin, hout⟩ t' hts i i' heq
    obtain ⟨hbytes, -⟩ := (sigmsg_all_eq_iff _ _ _ _).mp heq
    have hlen := congrArg List.length hbytes
    rw [length_recordBytes, length_recordBytes] at hlen
    obtain ⟨hins, houts⟩ := content_eq_of_recordBytes hbytes (by omega)
    exact ⟨hins, houts, hts.symm⟩

/-- **The signature hash never commits to the whole transaction**: the high
half of `ts` is lost in the conversion to `value_type`. Among transactions
of one time stamp, it commits exactly when inputs cannot be traded for outputs. -/
theorem sigmsg_commits_never (t : Tx) :
    (¬ ∀ t', t.CommitsAgainst t') ∧
      ((∀ t', t'.ts = t.ts → t.CommitsAgainst t') ↔
        t.inputs.length < 12 ∧ t.outputs.length < 7) :=
  ⟨fun h => not_commitsAgainst_later t (h t.later), records_determine_content_iff t⟩

/-- A payment of 5 from one address to another, stamped in 2019. -/
def payment : Tx where
  inputs := [⟨Ripemd160.set 1, 6, []⟩]
  outputs := [⟨Ripemd160.set 2, 5, Ripemd160.zero⟩]
  ts := 1550000000000000000

/-- The payment and the one 2^32 nanoseconds later have one preimage. -/
theorem payment_later_same_sigmsg :
    payment.sigmsg 0 (combine sigcodeAll sigcodeAll) =
        payment.later.sigmsg 0 (combine sigcodeAll sigcodeAll) ∧
      ¬ SameContent payment payment.later :=
  ⟨sigmsg_all_later payment 0 0, by decide⟩

end AcCore.Gov.Cash
