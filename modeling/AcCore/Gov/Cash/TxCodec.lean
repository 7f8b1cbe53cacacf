import AcCore.Gov.Cash.App

/-!
# Transactions on the wire

The payload of a `cash_tx` datagram is the base 58 form of the text of a
transaction. `tx::read` takes it from an input stream, and refuses it when an
extraction fails or meets the end of the text.
-/

namespace AcCore.Gov.Cash

open Lib

/-- `is >> v` for a hash. -/
def extractHash (s : Option Text) : Ripemd160 × Option Text :=
  let (w, s) := extract s
  match Ripemd160.setB58 w with
  | none => (Ripemd160.zero, none)
  | some v => (v, s)

/-- `input_t::read`. -/
def Input.read (s : Option Text) : Except String (Input × Option Text) :=
  let (address, s) := extractHash s
  let (amount, s) := extractInt64 s
  let (lockingProgramInputB58, s) := extract s
  let lockingProgramInput := Base58.decodeString lockingProgramInputB58
  let lockingProgramInput := if lockingProgramInput = ['-'] then [] else lockingProgramInput
  if isGood s then .ok (⟨address, amount, lockingProgramInput⟩, s)
  else .error "Error reading transaction input."

/-- `output_t::read`. -/
def Output.read (s : Option Text) : Except String (Output × Option Text) :=
  let (address, s) := extractHash s
  let (amount, s) := extractInt64 s
  let (lockingProgram, s) := extractHash s
  if isGood s then .ok (⟨address, amount, lockingProgram⟩, s)
  else .error "Error reading transaction output."

/-- The loops of `inputs_t::read` and `outputs_t::read`. -/
def readMany {α : Type} (read : Option Text → Except String (α × Option Text)) :
    ℕ → Option Text → Except String (List α × Option Text)
  | 0, s => .ok ([], s)
  | n + 1, s => do
    let (x, s) ← read s
    let (xs, s) ← readMany read n s
    return (x :: xs, s)

/-- `inputs_t::read`. -/
def inputsRead (s : Option Text) : Except String (List Input × Option Text) :=
  let (sz, s) := extractUInt64 s
  if sz > 100 then .error "Error. There is a limit of 100 inputs."
  else readMany Input.read sz.toNat s

/-- `outputs_t::read`. When the stream has failed before, the count is not
initialised; 0 stands for it here, and the transaction is refused in any case. -/
def outputsRead (s : Option Text) : Except String (List Output × Option Text) :=
  let (sz, s) := extractUInt64 s
  if sz > 100 then .error "Error. There is a limit of 100 outputs."
  else readMany Output.read sz.toNat s

/-- `tx::read`. -/
def Tx.read (s : Option Text) : Except String Tx := do
  let (inputs, s) ← inputsRead s
  let (outputs, s) ← outputsRead s
  let (ts, s) := extractUInt64 s
  if isGood s then return ⟨inputs, outputs, ts⟩
  else throw "Unreadable timestamp"

/-- `tx::from_b58`. -/
def Tx.fromB58 (s : Text) : Except String Tx := Tx.read (some (Base58.decodeString s))

/-- `input_t::write`, as the words it writes. -/
def Input.words (i : Input) : List Text :=
  [i.address.toB58, intText i.amount.toInt,
    Base58.encodeString (if i.lockingProgramInput = [] then ['-'] else i.lockingProgramInput)]

/-- `output_t::write`, as the words it writes. -/
def Output.words (o : Output) : List Text :=
  [o.address.toB58, intText o.amount.toInt, o.lockingProgram.toB58]

/-- `tx::write`. -/
def Tx.write (t : Tx) : Text :=
  unwords (natText t.inputs.length :: t.inputs.flatMap Input.words ++
    natText t.outputs.length :: t.outputs.flatMap Output.words ++ [natText t.ts.toNat])

/-- `tx::to_b58`. -/
def Tx.toB58 (t : Tx) : Text := Base58.encodeString t.write

/-! ## The text of a transaction -/

/-- A text that base 58 keeps: one-byte characters, and no NUL. -/
def Plain (s : Text) : Prop := ∀ c ∈ s, c.toNat < 256 ∧ c ≠ '\x00'

/-- A printed natural number is plain. -/
theorem plain_natText (n : ℕ) : Plain (natText n) := by
  intro c hc
  have hdigit : c.isDigit = true := Nat.isDigit_of_mem_toDigits (by decide) (by decide) hc
  have hle : c.toNat ≤ 57 := (Char.isDigit_iff_toNat.mp hdigit).2
  refine ⟨by omega, ?_⟩
  rintro rfl
  exact absurd hdigit (by decide)

/-- A printed integer is plain. -/
theorem plain_intText (i : ℤ) : Plain (intText i) := by
  cases i with
  | ofNat n => exact plain_natText n
  | negSucc n =>
    intro c hc
    rcases List.mem_cons.mp hc with rfl | hc
    · decide
    · exact plain_natText _ c hc

/-- Encoded bytes are plain. -/
theorem plain_encode (bytes : List UInt8) : Plain (Base58.encode bytes) := fun c hc =>
  Base58.plain_alphabet c (Base58.encode_mem_alphabet bytes c hc)

/-- Plain words are plain when they are joined. -/
theorem plain_unwords {ws : List Text} (h : ∀ w ∈ ws, Plain w) : Plain (unwords ws) := by
  intro c hc
  obtain ⟨w, hw, hcw⟩ := List.mem_flatMap.mp hc
  rcases List.mem_append.mp hcw with hcw | hblank
  · exact h w hw c hcw
  · rw [List.mem_singleton.mp hblank]
    decide

/-- The text of a transaction is plain. -/
theorem Tx.plain_write (t : Tx) : Plain t.write := by
  apply plain_unwords
  intro w hw
  simp only [List.cons_append, List.mem_cons, List.mem_append, List.mem_flatMap, Input.words,
    Output.words, List.not_mem_nil, or_false] at hw
  rcases hw with rfl | (⟨i, -, rfl | rfl | rfl⟩ | rfl | ⟨o, -, rfl | rfl | rfl⟩) | rfl
  · exact plain_natText _
  · exact plain_encode _
  · exact plain_intText _
  · exact plain_encode _
  · exact plain_natText _
  · exact plain_encode _
  · exact plain_intText _
  · exact plain_encode _
  · exact plain_natText _

/-- The text of a transaction is read as it was written. -/
theorem Tx.fromB58_toB58 (t : Tx) : Tx.fromB58 t.toB58 = Tx.read (some t.write) := by
  rw [fromB58, toB58, Base58.decodeString_encodeString t.plain_write]

/-- `protocol::cash_tx`. -/
def cashTx : UInt16 := ((700 + 1 : UInt16) <<< (2 : UInt16)) + 1

/-- `parse_evidence`: a transaction that can be read and passes the check. -/
def App.parseEvidence (wrap : ℤ → ℤ) (a : App) (service : UInt16) (payload : Text) : Option Tx :=
  if service = cashTx then
    match Tx.fromB58 payload with
    | .error _ => none
    | .ok t => if a.basicCheck wrap t then some t else none
  else none

end AcCore.Gov.Cash
