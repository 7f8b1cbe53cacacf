import AcCore.Gov.Cash.Tx

/-!
# What is signed for one input

The sigcodes say how much of the inputs and of the outputs is signed. Under some
of them it depends on the index of the input that is unlocked; this file
determines when two inputs have the same bytes signed for them.
-/

namespace AcCore.Gov.Cash

open Lib

/-- What is signed of the inputs. -/
def Tx.inputBytes (t : Tx) (thisIndex : ℕ) (sc : UInt8) : List UInt8 :=
  if sc = sigcodeAll then inputCodec.encAll (t.inputs.map Input.content)
  else (t.inputs.map Input.content)[thisIndex]?.elim [] inputCodec.enc

/-- What is signed of the outputs. -/
def Tx.outputBytes (t : Tx) (thisIndex : ℕ) (sc : UInt8) : List UInt8 :=
  if sc = sigcodeAll then outputCodec.encAll (t.outputs.map Output.content)
  else if sc = sigcodeThis then
    (t.outputs.map Output.content)[thisIndex]?.elim [] outputCodec.enc
  else []

/-- What the inputs write for one of them. -/
theorem written_inputsWriteSigmsg {t : Tx} {n : ℕ} (hn : n < t.inputs.length) (h : Sha256)
    (sc : UInt8) :
    inputsWriteSigmsg t.inputs h n sc = some ⟨h.written ++ t.inputBytes n sc⟩ := by
  unfold inputsWriteSigmsg Tx.inputBytes
  split_ifs
  · rw [← written_inputs]
  · rw [List.getElem?_map, List.getElem?_eq_getElem hn]
    simp [Input.writeSigmsg, Sha256.write, inputCodec, FixedCodec.pair, Input.content,
      Sha256.writeRipemd160, Ripemd160.bytes]

/-- What the outputs write for one of the inputs. -/
theorem written_outputsWriteSigmsg (t : Tx) (n : ℕ) (h : Sha256) (sc : UInt8) :
    outputsWriteSigmsg t.outputs h n sc = ⟨h.written ++ t.outputBytes n sc⟩ := by
  unfold outputsWriteSigmsg Tx.outputBytes
  split_ifs
  · rw [← written_outputs]
  · rw [List.getElem?_map]
    cases t.outputs[n]? with
    | none => simp
    | some o =>
      simp [Output.writeSigmsg, Sha256.write, outputCodec, FixedCodec.pair, Output.content,
        Sha256.writeRipemd160, Ripemd160.bytes]
  · simp

/-- What the hasher gets for an input. -/
theorem sigmsg_of_lt {t : Tx} {n : ℕ} (hn : n < t.inputs.length) (scs : UInt8) :
    t.sigmsg n scs = some ⟨t.inputBytes n (sigcodeInput scs) ++
      t.outputBytes n (sigcodeOutput scs) ++ (Ripemd160.set t.ts.toUInt32).bytes⟩ := by
  rw [Tx.sigmsg, Tx.writeSigmsg, written_inputsWriteSigmsg hn, Option.map_some,
    written_outputsWriteSigmsg]
  simp [Sha256.writeUInt64, Sha256.writeRipemd160, Sha256.write]

/-- The unlocking data is not signed. -/
theorem sigmsg_congr {t t' : Tx} (h : SameContent t t') {n : ℕ} (hn : n < t.inputs.length)
    (scs : UInt8) : t.sigmsg n scs = t'.sigmsg n scs := by
  obtain ⟨hinputs, houtputs, hts⟩ := h
  have hn' : n < t'.inputs.length := by
    have hlength := congrArg List.length hinputs
    rw [List.length_map, List.length_map] at hlength
    omega
  simp only [sigmsg_of_lt hn, sigmsg_of_lt hn', Tx.inputBytes, Tx.outputBytes, hinputs, houtputs,
    hts]

/-- Nor has it any part in the fees. -/
theorem check_congr {t t' : Tx} (h : SameContent t t') {wrap : ℤ → ℤ} :
    t.check wrap = t'.check wrap := by
  have hinputs := congrArg (List.map Prod.snd) h.1
  have houtputs := congrArg (List.map fun o => o.1.2) h.2.1
  rw [List.map_map, List.map_map] at hinputs houtputs
  have hamounts : t.inputs.map Input.amount = t'.inputs.map Input.amount := hinputs
  have hgiven : t.outputs.map Output.amount = t'.outputs.map Output.amount := houtputs
  rw [Tx.check, Tx.check, hamounts, hgiven]

/-- As many bytes of the inputs are signed for each of them. -/
theorem length_inputBytes {t : Tx} {m n : ℕ} (hm : m < t.inputs.length)
    (hn : n < t.inputs.length) (sc : UInt8) :
    (t.inputBytes m sc).length = (t.inputBytes n sc).length := by
  unfold Tx.inputBytes
  split_ifs
  · rfl
  · rw [List.getElem?_eq_getElem (by rwa [List.length_map]),
      List.getElem?_eq_getElem (by rwa [List.length_map]), Option.elim_some, Option.elim_some,
      inputCodec.length_enc, inputCodec.length_enc]

/-- An optional record is known from its bytes: there are none without a record. -/
theorem elim_enc_inj {α : Type*} {k : ℕ} (c : FixedCodec α k) (hk : 0 < k) {a b : Option α}
    (h : a.elim [] c.enc = b.elim [] c.enc) : a = b := by
  have hlength := congrArg List.length h
  cases a with
  | none =>
    cases b with
    | none => rfl
    | some b =>
      rw [Option.elim_none, Option.elim_some, c.length_enc, List.length_nil] at hlength
      omega
  | some a =>
    cases b with
    | none =>
      rw [Option.elim_none, Option.elim_some, c.length_enc, List.length_nil] at hlength
      omega
    | some b => rw [c.enc_injective h]

/-- Two inputs write the same when the code covers all, or their contents agree. -/
theorem inputBytes_eq_iff {t : Tx} {m n : ℕ} {sc : UInt8} :
    t.inputBytes m sc = t.inputBytes n sc ↔ sc = sigcodeAll ∨
      (t.inputs.map Input.content)[m]? = (t.inputs.map Input.content)[n]? := by
  by_cases hall : sc = sigcodeAll
  · simp only [Tx.inputBytes, hall, if_true, true_or]
  · simp only [Tx.inputBytes, hall, if_false, false_or]
    exact ⟨elim_enc_inj inputCodec (by decide), fun h => by rw [h]⟩

/-- Two outputs write the same unless the code is for this one and their contents differ. -/
theorem outputBytes_eq_iff {t : Tx} {m n : ℕ} {sc : UInt8} :
    t.outputBytes m sc = t.outputBytes n sc ↔ (sc = sigcodeThis →
      (t.outputs.map Output.content)[m]? = (t.outputs.map Output.content)[n]?) := by
  have hne : sigcodeThis ≠ sigcodeAll := by decide
  by_cases hthis : sc = sigcodeThis
  · subst hthis
    simp only [Tx.outputBytes, if_neg hne, if_true, forall_const]
    exact ⟨elim_enc_inj outputCodec (by decide), fun h => by rw [h]⟩
  · simp only [Tx.outputBytes, hthis, if_false, false_implies]

/-- **When two inputs have the same signed for them**: all inputs are signed, or
both inputs have the same content, and when one output is signed it is the same. -/
theorem sigmsg_eq_iff {t : Tx} {m n : ℕ} (hm : m < t.inputs.length) (hn : n < t.inputs.length)
    (scs : UInt8) :
    t.sigmsg m scs = t.sigmsg n scs ↔
      (sigcodeInput scs = sigcodeAll ∨
        (t.inputs.map Input.content)[m]? = (t.inputs.map Input.content)[n]?) ∧
      (sigcodeOutput scs = sigcodeThis →
        (t.outputs.map Output.content)[m]? = (t.outputs.map Output.content)[n]?) := by
  rw [sigmsg_of_lt hm, sigmsg_of_lt hn, Option.some.injEq, Sha256.mk.injEq,
    List.append_cancel_right_eq, ← inputBytes_eq_iff, ← outputBytes_eq_iff]
  constructor
  · intro h
    exact List.append_inj h (length_inputBytes hm hn _)
  · rintro ⟨hinputs, houtputs⟩
    rw [hinputs, houtputs]

end AcCore.Gov.Cash
