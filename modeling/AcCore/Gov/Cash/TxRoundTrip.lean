import AcCore.Gov.Engine.RoundTrip

/-!
# Transactions written and read back

A transaction travels as the base 58 form of its text, in which the unlocking
data of every input is in base 58 again, with a dash for no data. The decoder
takes up to a hundred inputs and outputs, and what it takes is what was written.
-/

namespace AcCore.Gov.Cash

open Lib Engine

/-- Unlocking data that the text keeps: none, or a string without NUL that is
not the dash that stands for none. -/
def Input.Encodable (i : Input) : Prop :=
  i.lockingProgramInput = [] ∨ Plain i.lockingProgramInput ∧ i.lockingProgramInput ≠ ['-']

/-- A transaction that the decoder takes. -/
structure Tx.Encodable (t : Tx) : Prop where
  inputs : t.inputs.length ≤ 100
  outputs : t.outputs.length ≤ 100
  unlocking : ∀ i ∈ t.inputs, i.Encodable

/-- A string in base 58 is a word. -/
theorem isWord_encodeString {s : Text} (hs : s ≠ []) (hplain : Plain s) :
    IsWord (Base58.encodeString s) := by
  refine ⟨fun hnil => ?_, Base58.blankFree_encode _⟩
  have hdecode := Base58.decodeString_encodeString hplain
  rw [hnil] at hdecode
  have hempty : Base58.decodeString [] = [] := by decide
  exact hs (hdecode.symm.trans hempty)

/-- The unlocking data is read as it was written. -/
theorem Input.Encodable.reads {i : Input} (hi : i.Encodable) :
    ∃ w, IsWord w ∧
      w = Base58.encodeString (if i.lockingProgramInput = [] then ['-']
        else i.lockingProgramInput) ∧
      (if Base58.decodeString w = ['-'] then [] else Base58.decodeString w) =
        i.lockingProgramInput := by
  refine ⟨_, ?_, rfl, ?_⟩
  · split_ifs with hempty
    · refine isWord_encodeString (List.cons_ne_nil _ _) fun c hc => ?_
      rw [List.mem_singleton.mp hc]
      decide
    · exact isWord_encodeString hempty (hi.resolve_left hempty).1
  · split_ifs with hempty hdash hdash
    · exact hempty.symm
    · exact absurd (by decide) hdash
    · obtain ⟨hplain, hne⟩ := hi.resolve_left hempty
      rw [Base58.decodeString_encodeString hplain] at hdash
      exact absurd hdash hne
    · rw [Base58.decodeString_encodeString (hi.resolve_left hempty).1]

/-- An `int64_t` is the one of its own value. -/
theorem ofInt_toInt (n : Int64) : Int64.ofInt n.toInt = n := by simp

/-- A printed amount is read back. -/
theorem reads_amount (n : Int64) : Reads extractInt64 [intText n.toInt] n := by
  have hread := reads_extractInt64 n.le_toInt n.toInt_lt
  rwa [ofInt_toInt] at hread

/-! ## Inputs and outputs -/

/-- An input that is not the last thing in the text is read back. -/
theorem Input.read_words {i : Input} (hi : i.Encodable) {w : Text} {ws : List Text}
    {s : Option Text} (hs : Gives (i.words ++ w :: ws) s) :
    ∃ s', Input.read s = .ok (i, s') ∧ Gives (w :: ws) s' := by
  obtain ⟨u, hu, hwritten, hread⟩ := hi.reads
  rw [Input.words, ← hwritten] at hs
  obtain ⟨s₁, haddress, hs₁⟩ := reads_extractHash i.address _ s hs
  obtain ⟨s₂, hamount, hs₂⟩ := reads_amount i.amount _ s₁ hs₁
  obtain ⟨s₃, hunlock, hs₃⟩ := reads_extract hu _ s₂ hs₂
  refine ⟨s₃, ?_, hs₃⟩
  simp only [Input.read, haddress, hamount, hunlock, hread, hs₃.isGood, if_true]

/-- An output that is not the last thing in the text is read back. -/
theorem Output.read_words (o : Output) {w : Text} {ws : List Text} {s : Option Text}
    (hs : Gives (o.words ++ w :: ws) s) :
    ∃ s', Output.read s = .ok (o, s') ∧ Gives (w :: ws) s' := by
  obtain ⟨s₁, haddress, hs₁⟩ := reads_extractHash o.address _ s hs
  obtain ⟨s₂, hamount, hs₂⟩ := reads_amount o.amount _ s₁ hs₁
  obtain ⟨s₃, hprogram, hs₃⟩ := reads_extractHash o.lockingProgram _ s₂ hs₂
  refine ⟨s₃, ?_, hs₃⟩
  simp only [Output.read, haddress, hamount, hprogram, hs₃.isGood, if_true]

/-- A sequence of which each is read back is read back. -/
theorem readMany_words {α : Type} {read : Option Text → Except String (α × Option Text)}
    {words : α → List Text} {xs : List α}
    (hread : ∀ x ∈ xs, ∀ w ws s, Gives (words x ++ w :: ws) s →
      ∃ s', read s = .ok (x, s') ∧ Gives (w :: ws) s')
    {w : Text} {ws : List Text} {s : Option Text} (hs : Gives (xs.flatMap words ++ w :: ws) s) :
    ∃ s', readMany read xs.length s = .ok (xs, s') ∧ Gives (w :: ws) s' := by
  induction xs generalizing s with
  | nil => exact ⟨s, rfl, hs⟩
  | cons x xs ih =>
    -- something follows the first element: the others, or what follows them all
    have hnext : ∃ v vs, xs.flatMap words ++ w :: ws = v :: vs :=
      List.exists_cons_of_ne_nil (by simp)
    obtain ⟨v, vs, hv⟩ := hnext
    rw [List.flatMap_cons, List.append_assoc, hv] at hs
    obtain ⟨s₁, hfirst, hs₁⟩ := hread x List.mem_cons_self v vs s hs
    rw [← hv] at hs₁
    obtain ⟨s₂, hrest, hs₂⟩ := ih (fun y hy => hread y (List.mem_cons_of_mem x hy)) hs₁
    refine ⟨s₂, ?_, hs₂⟩
    simp only [List.length_cons, readMany, hfirst, hrest, bind, Except.bind, pure, Except.pure]

/-- A count up to the limit is read. -/
theorem extract_count {n : ℕ} (hn : n ≤ 100) {ws : List Text} {s : Option Text}
    (hs : Gives (natText n :: ws) s) :
    ∃ sz s', extractUInt64 s = (sz, s') ∧ ¬ sz > 100 ∧ sz.toNat = n ∧ Gives ws s' := by
  obtain ⟨s', hcount, hs'⟩ := reads_extractUInt64 (n := n) (by omega) ws s hs
  have hnat : (UInt64.ofNat n).toNat = n := UInt64.toNat_ofNat_of_lt' (hn.trans_lt (by decide))
  refine ⟨_, s', hcount, ?_, hnat, hs'⟩
  rw [gt_iff_lt, UInt64.lt_iff_toNat_lt, hnat]
  exact hn.not_gt

/-- Printed inputs are read back, up to a hundred. -/
theorem inputsRead_words {is : List Input} (hlength : is.length ≤ 100)
    (his : ∀ i ∈ is, i.Encodable) {w : Text} {ws : List Text} {s : Option Text}
    (hs : Gives (natText is.length :: (is.flatMap Input.words ++ w :: ws)) s) :
    ∃ s', inputsRead s = .ok (is, s') ∧ Gives (w :: ws) s' := by
  obtain ⟨sz, s₁, hcount, hlimit, hsz, hs₁⟩ := extract_count hlength hs
  obtain ⟨s₂, hmany, hs₂⟩ := readMany_words
    (fun i hi _ _ _ => Input.read_words (his i hi)) hs₁
  exact ⟨s₂, by simp only [inputsRead, hcount, if_neg hlimit, hsz, hmany], hs₂⟩

/-- Printed outputs are read back, up to a hundred. -/
theorem outputsRead_words {os : List Output} (hlength : os.length ≤ 100) {w : Text}
    {ws : List Text} {s : Option Text}
    (hs : Gives (natText os.length :: (os.flatMap Output.words ++ w :: ws)) s) :
    ∃ s', outputsRead s = .ok (os, s') ∧ Gives (w :: ws) s' := by
  obtain ⟨sz, s₁, hcount, hlimit, hsz, hs₁⟩ := extract_count hlength hs
  obtain ⟨s₂, hmany, hs₂⟩ := readMany_words (fun o _ _ _ _ => o.read_words) hs₁
  exact ⟨s₂, by simp only [outputsRead, hcount, if_neg hlimit, hsz, hmany], hs₂⟩

/-! ## The transaction -/

/-- The text of a transaction that the decoder takes is read as the transaction. -/
theorem Tx.Encodable.read_write {t : Tx} (ht : t.Encodable) : Tx.read (some t.write) = .ok t := by
  have hs := gives_unwords (natText t.inputs.length :: (t.inputs.flatMap Input.words ++
      natText t.outputs.length :: (t.outputs.flatMap Output.words ++ [natText t.ts.toNat])))
  obtain ⟨s₁, hinputs, hs₁⟩ := inputsRead_words ht.inputs ht.unlocking hs
  obtain ⟨s₂, houtputs, blanks, hblanks, rfl⟩ := outputsRead_words ht.outputs hs₁
  have hts : extractUInt64 (some (blanks ++ unwords [natText t.ts.toNat])) =
      (t.ts, some [' ']) := by
    rw [unwords_cons, unwords_nil, extractUInt64_word t.ts.toNat_lt hblanks, UInt64.ofNat_toNat]
  rw [Tx.write, List.append_assoc, List.cons_append, List.cons_append]
  simp only [Tx.read, hinputs, houtputs, hts, bind, Except.bind, isGood, if_true, pure, Except.pure]

/-- As many entries are read as were announced. -/
theorem length_readMany {α : Type} {read : Option Text → Except String (α × Option Text)} {n : ℕ}
    {s : Option Text} {r : List α × Option Text} (h : readMany read n s = .ok r) :
    r.1.length = n := by
  induction n generalizing s r with
  | zero =>
    obtain rfl := Except.ok.inj h
    rfl
  | succ n ih =>
    rw [readMany] at h
    cases hfirst : read s with
    | error e => simp [hfirst, bind, Except.bind] at h
    | ok first =>
      cases hrest : readMany read n first.2 with
      | error e => simp [hfirst, hrest, bind, Except.bind] at h
      | ok rest =>
        simp only [hfirst, hrest, bind, Except.bind, pure, Except.pure, Except.ok.injEq] at h
        rw [← h, List.length_cons, ih hrest]

/-- What is read has no more inputs than the limit. -/
theorem length_inputs_of_read {s : Option Text} {t : Tx} (h : Tx.read s = .ok t) :
    t.inputs.length ≤ 100 := by
  unfold Tx.read at h
  cases hinputs : inputsRead s with
  | error e => simp [hinputs, bind, Except.bind] at h
  | ok r =>
    cases houtputs : outputsRead r.2 with
    | error e => simp [hinputs, houtputs, bind, Except.bind] at h
    | ok r' =>
      simp only [hinputs, houtputs, bind, Except.bind, pure, Except.pure, throw, throwThe,
        MonadExceptOf.throw] at h
      split_ifs at h
      obtain rfl := Except.ok.inj h
      unfold inputsRead at hinputs
      dsimp only at hinputs
      split_ifs at hinputs with hlimit
      have hcount := length_readMany hinputs
      have hle := UInt64.le_iff_toNat_le.mp (UInt64.not_lt.mp hlimit)
      exact hcount.trans_le hle

/-- **Transactions survive the wire.** What `to_b58` writes of a transaction
within the limits, `from_b58` reads as the same inputs, outputs and time stamp. -/
theorem tx_survives {t : Tx} (hinputs : t.inputs.length ≤ 100) (houtputs : t.outputs.length ≤ 100)
    (hunlocking : ∀ i ∈ t.inputs, i.lockingProgramInput = [] ∨
      (∀ c ∈ i.lockingProgramInput, c.toNat < 256 ∧ c ≠ '\x00') ∧
        i.lockingProgramInput ≠ ['-']) :
    Tx.fromB58 t.toB58 = .ok t := by
  rw [Tx.fromB58_toB58]
  exact Tx.Encodable.read_write ⟨hinputs, houtputs, hunlocking⟩

/-- A payment with one input that has unlocking data and one that has none. -/
def signedPayment : Tx :=
  { payment with
    inputs := [⟨Ripemd160.set 1, 4, ['s', ' ', '0', ' ', 'k']⟩, ⟨Ripemd160.set 3, -2, []⟩] }

/-- A signed payment is read back from its text. -/
theorem tx_survives_signedPayment : Tx.fromB58 signedPayment.toB58 = .ok signedPayment := by
  refine tx_survives (by decide) (by decide) fun i hi => ?_
  rcases List.mem_pair.mp hi with rfl | rfl
  · exact Or.inr ⟨by simp, by simp⟩
  · exact Or.inl rfl

end AcCore.Gov.Cash
