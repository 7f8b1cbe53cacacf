import AcCore.Gov.Cash.Fees
import AcCore.Gov.Cash.Supply

/-!
# The effect of a transaction

What `process` does to the ledger that a node sees, the pool over the db: which
balances a transaction changes and by how much, and with which locking program
the accounts of its outputs are left.
-/

namespace AcCore.Gov.Cash

open Lib Engine

variable {wrap : ℤ → ℤ} {programs : LockingPrograms}

/-! ## Balances -/

/-- What the outputs of a transaction give to an address. -/
def Tx.paidTo (t : Tx) (x : Ripemd160) : ℤ :=
  ((t.outputs.filter fun o => o.address = x).map fun o => o.amount.toInt).sum

/-- What the inputs of a transaction take from an address. -/
def Tx.takenFrom (t : Tx) (x : Ripemd160) : ℤ :=
  ((t.inputs.filter fun i => i.address = x).map fun i => i.amount.toInt).sum

/-- The credits of an address are what is paid to it. -/
theorem posted_credits (t : Tx) (x : Ripemd160) : posted t.credits x = t.paidTo x := by
  unfold Tx.credits Tx.paidTo
  induction t.outputs with
  | nil => rfl
  | cons o outputs ih =>
    by_cases ho : o.address = x
    · simp [ho, ih]
    · simp [ho, ih]

/-- The debits of an address are what is taken from it. -/
theorem posted_debits (t : Tx) (x : Ripemd160) : posted t.debits x = -t.takenFrom x := by
  unfold Tx.debits Tx.takenFrom
  induction t.inputs with
  | nil => rfl
  | cons i inputs ih =>
    by_cases hi : i.address = x
    · simp [hi, ih, add_comm]
    · simp [hi, ih]

/-- The state of an address after an accepted transaction is the one of the batch. -/
theorem accountState_process {a : App} {t : Tx} {batch : Accounts}
    (h : a.batchOf wrap programs t = some batch) (x : Ripemd160) :
    (a.process wrap programs t).accountState ∅ x = a.accountState batch x := by
  have hdb : (a.process wrap programs t).db = a.db := by simp [App.process, h]
  simp only [App.accountState, lookup_pool_process h, hdb]
  simp

/-- A transaction leaves alone the addresses that it does not name. -/
theorem accountState_process_of_not_touches (hwrap : ∀ n : Int64, wrap n.toInt = n.toInt)
    {a : App} {t : Tx} {batch : Accounts} (h : a.batchOf wrap programs t = some batch)
    {x : Ripemd160} (hx : ¬ t.Touches x) :
    (a.process wrap programs t).accountState ∅ x = a.accountState ∅ x := by
  have hnot : batch.lookup x = none :=
    Finmap.lookup_eq_none.mpr (mt ((batchOf_eq_some hwrap h).2 x).mp hx)
  rw [accountState_process h, App.accountState, App.accountState, hnot, Finmap.lookup_empty]

/-- **A transaction moves exactly its amounts.** In exact integers, a transaction
with positive amounts leaves the pool as it is, or it changes the balance of
every address by what it pays to it less what it takes from it and the fees by
its surplus, and leaves alone the addresses that it does not name. -/
theorem process_moves (programs : LockingPrograms) (a : App) {t : Tx} (ht : t.AmountsPositive) :
    ((a.process id programs t).pool.accounts = a.pool.accounts ∧
        (a.process id programs t).pool.fees = a.pool.fees) ∨
      (∀ x, (a.process id programs t).balance ∅ x =
          a.balance ∅ x + (t.paidTo x - t.takenFrom x)) ∧
        (a.process id programs t).pool.fees = a.pool.fees + (t.sumInputs - t.sumOutputs) ∧
          ∀ x, ¬ t.Touches x →
            (a.process id programs t).accountState ∅ x = a.accountState ∅ x := by
  cases h : a.batchOf id programs t with
  | none =>
    left
    rw [App.process, h]
    exact ⟨rfl, rfl⟩
  | some batch =>
    right
    refine ⟨fun x => ?_, ?_, fun x => accountState_process_of_not_touches (fun _ => rfl) h⟩
    · have hfits : a.Fits Set.univ t := ⟨fun _ => Set.mem_univ _, fun _ => Set.mem_univ _⟩
      rw [balance_process h, balance_batchOf exactOn_univ h ht (fun _ => Set.mem_univ _) hfits,
        posted_debits, posted_credits]
      omega
    · have hcheck : t.check id = t.sumInputs - t.sumOutputs := wraps_id.check ht
      rw [App.process, h, ← hcheck]
      rfl

/-- The amounts of a transaction are finitely many. -/
instance (t : Tx) : Decidable t.AmountsPositive := inferInstanceAs (Decidable (_ ∧ _))

/-- A transaction that takes twice from one address, and pays it back in part. -/
def changeOfOne : Tx where
  inputs := [⟨Ripemd160.set 1, 4, []⟩, ⟨Ripemd160.set 1, 5, []⟩]
  outputs := [⟨Ripemd160.set 2, 6, Ripemd160.set 0⟩, ⟨Ripemd160.set 1, 2, Ripemd160.set 0⟩]
  ts := 1550000000000000000

/-- The app with 10 at one address. -/
def appOfOne : App := ⟨tenAtOne, LocalDelta.create, tempLoad, tempLoad⟩

/-- A payment with change to its own address: 3 are left, and a fee of 1. -/
theorem process_moves_changeOfOne :
    (appOfOne.process id noPrograms changeOfOne).balance ∅ (Ripemd160.set 1) = 3 ∧
      (appOfOne.process id noPrograms changeOfOne).pool.fees = 1 := by
  have hmoved : (appOfOne.process id noPrograms changeOfOne).pool.fees ≠ appOfOne.pool.fees := by
    decide +kernel
  obtain ⟨-, hfees⟩ | ⟨hbalance, hfees, -⟩ :=
    process_moves noPrograms appOfOne (t := changeOfOne) (by decide)
  · exact absurd hfees hmoved
  · exact ⟨(hbalance (Ripemd160.set 1)).trans (by decide +kernel), hfees.trans (by decide)⟩

/-! ## Locking programs -/

/-- The program that locks the account that `account_state` finds. -/
def App.lockOf (a : App) (batch : Accounts) (x : Ripemd160) : Option Ripemd160 :=
  (a.accountState batch x).map Account.lockingProgram

/-- An input leaves all programs as they are. -/
theorem lockOf_processInput {a : App} {t : Tx} {batch batch' : Accounts} {i : Input × ℕ}
    (h : a.processInput wrap programs t batch i = some batch') (x : Ripemd160) :
    a.lockOf batch' x = a.lockOf batch x := by
  simp only [App.processInput, Option.bind_eq_some_iff] at h
  obtain ⟨state, hstate, hunlocked⟩ := h
  split_ifs at hunlocked
  cases hunlocked
  rw [App.lockOf, App.lockOf, App.accountState_insert]
  split_ifs with hx
  · rw [hx, hstate, Option.map_some, Option.map_some]
  · rfl

/-- An output sets the program of an address that has no account, and leaves
all other programs as they are. -/
theorem lockOf_processOutput {a : App} {batch batch' : Accounts} {o : Output}
    (h : a.processOutput wrap batch o = some batch') (x : Ripemd160) :
    a.lockOf batch' x = (a.lockOf batch x).or (if o.address = x then some o.lockingProgram
      else none) := by
  have hinsert : ∃ acc : Account, batch' = batch.insert o.address acc ∧
      acc.lockingProgram = (a.lockOf batch o.address).getD o.lockingProgram := by
    unfold App.processOutput at h
    unfold App.lockOf
    cases hstate : a.accountState batch o.address with
    | none =>
      rw [hstate] at h
      cases h
      exact ⟨_, rfl, rfl⟩
    | some state =>
      rw [hstate] at h
      dsimp only at h
      split_ifs at h
      cases h
      exact ⟨_, rfl, rfl⟩
  obtain ⟨acc, rfl, hprogram⟩ := hinsert
  rw [App.lockOf, App.accountState_insert]
  by_cases hx : x = o.address
  · subst hx
    rw [if_pos rfl, if_pos rfl, Option.map_some, hprogram]
    cases a.lockOf batch o.address <;> rfl
  · rw [if_neg hx, if_neg (Ne.symm hx), Option.or_none, App.lockOf]

/-- Inputs that are accepted leave the locks. -/
theorem lockOf_processInputs {a : App} {t : Tx} {is : List (Input × ℕ)} {batch batch' : Accounts}
    (h : is.foldlM (a.processInput wrap programs t) batch = some batch') (x : Ripemd160) :
    a.lockOf batch' x = a.lockOf batch x := by
  induction is generalizing batch with
  | nil =>
    cases h
    rfl
  | cons i is ih =>
    simp only [List.foldlM_cons, Option.bind_eq_bind, Option.bind_eq_some_iff] at h
    obtain ⟨mid, hfirst, hrest⟩ := h
    rw [ih hrest, lockOf_processInput hfirst]

/-- Outputs lock the accounts that they open, and leave the others' locks. -/
theorem lockOf_processOutputs {a : App} {os : List Output} {batch batch' : Accounts}
    (h : os.foldlM (a.processOutput wrap) batch = some batch') (x : Ripemd160) :
    a.lockOf batch' x = (a.lockOf batch x).or
      ((os.find? fun o => o.address = x).map Output.lockingProgram) := by
  induction os generalizing batch with
  | nil =>
    cases h
    simp
  | cons o os ih =>
    simp only [List.foldlM_cons, Option.bind_eq_bind, Option.bind_eq_some_iff] at h
    obtain ⟨mid, hfirst, hrest⟩ := h
    rw [ih hrest, lockOf_processOutput hfirst, Option.or_assoc]
    by_cases ho : o.address = x
    · simp [ho]
    · simp [ho]

/-- An account that there was keeps its program, and a new one has that of the
first output to it. -/
theorem lockOf_process {a : App} {t : Tx} {batch : Accounts}
    (h : a.batchOf wrap programs t = some batch) (x : Ripemd160) :
    (a.process wrap programs t).lockOf ∅ x = (a.lockOf ∅ x).or
      ((t.outputs.find? fun o => o.address = x).map Output.lockingProgram) := by
  have hbatch := h
  simp only [App.batchOf, Option.bind_eq_some_iff] at hbatch
  obtain ⟨mid, hinputs, houtputs⟩ := hbatch
  rw [App.lockOf, accountState_process h, ← App.lockOf, lockOf_processOutputs houtputs,
    lockOf_processInputs hinputs]

/-- The account of every output is locked as the output says. -/
def App.LocksOutputs (a : App) (t : Tx) : Prop :=
  ∀ o ∈ t.outputs, ∃ acc, a.accountState ∅ o.address = some acc ∧
    acc.lockingProgram = o.lockingProgram

/-- An output names another program than the account that its address has
already, or two outputs name different programs for one address. -/
def App.Relocks (a : App) (t : Tx) : Prop :=
  (∃ o ∈ t.outputs, ∃ acc ∈ a.accountState ∅ o.address, acc.lockingProgram ≠ o.lockingProgram) ∨
    ∃ o ∈ t.outputs, ∃ o' ∈ t.outputs, o.address = o'.address ∧
      o.lockingProgram ≠ o'.lockingProgram

/-- The outputs of a transaction are finitely many. -/
instance (a : App) (t : Tx) : Decidable (a.Relocks t) := inferInstanceAs (Decidable (_ ∨ _))

/-- The outputs are locked when every address has the lock that an output gives it. -/
theorem locksOutputs_iff {a : App} {t : Tx} :
    a.LocksOutputs t ↔ ∀ o ∈ t.outputs, a.lockOf ∅ o.address = some o.lockingProgram := by
  simp only [App.LocksOutputs, App.lockOf, Option.map_eq_some_iff]

/-- **Outputs are locked as their sender said**, after an accepted transaction,
exactly when the transaction names no other program for an account that there
is already, whatever its balance, and no two for one address. -/
theorem outputs_locked_iff (wrap : ℤ → ℤ) (programs : LockingPrograms) {a : App} {t : Tx}
    (haccepted : a.batchOf wrap programs t ≠ none) :
    (a.process wrap programs t).LocksOutputs t ↔ ¬ a.Relocks t := by
  obtain ⟨batch, h⟩ := Option.ne_none_iff_exists'.mp haccepted
  simp only [locksOutputs_iff, lockOf_process h]
  constructor
  · rintro hlocked (⟨o, ho, acc, hacc, hne⟩ | ⟨o, ho, o', ho', haddress, hne⟩)
    · have hkept := hlocked o ho
      rw [App.lockOf, Option.mem_def.mp hacc, Option.map_some, Option.some_or,
        Option.some.injEq] at hkept
      exact hne hkept
    · have hfirst := hlocked o ho
      rw [haddress, hlocked o' ho', Option.some.injEq] at hfirst
      exact hne hfirst.symm
  · intro hsame o ho
    unfold App.lockOf
    cases hstate : a.accountState ∅ o.address with
    | some acc =>
      by_contra hne
      refine hsame (Or.inl ⟨o, ho, acc, hstate, fun heq => hne ?_⟩)
      rw [Option.map_some, Option.some_or, heq]
    | none =>
      have hfind : (t.outputs.find? fun o' => o'.address = o.address).isSome := by
        rw [List.find?_isSome]
        exact ⟨o, ho, by simp⟩
      obtain ⟨o', ho'⟩ := Option.isSome_iff_exists.mp hfind
      have haddress : o'.address = o.address := by simpa using List.find?_some ho'
      rw [ho', Option.map_none, Option.none_or, Option.map_some]
      by_contra hne
      exact hsame (Or.inr ⟨o', List.mem_of_find?_eq_some ho', o, ho, haddress,
        fun heq => hne (congrArg some heq)⟩)

/-- The payment with change locks its outputs. -/
theorem outputs_locked_iff_changeOfOne :
    (appOfOne.process wrapInt64 noPrograms changeOfOne).LocksOutputs changeOfOne := by
  refine (outputs_locked_iff wrapInt64 noPrograms (by decide +kernel)).mpr ?_
  decide +kernel

/-- A transaction that empties an address and pays the coins back to it, locked
by program 1. -/
def relock : Tx where
  inputs := [⟨Ripemd160.set 1, 10, []⟩]
  outputs := [⟨Ripemd160.set 1, 9, Ripemd160.set 1⟩]
  ts := 1550000000000000000

/-- It is accepted, and the coins can be spent by anyone, as before. -/
theorem relock_not_locked :
    appOfOne.basicCheck wrapInt64 relock = true ∧
      appOfOne.batchOf wrapInt64 noPrograms relock ≠ none ∧
      (appOfOne.process wrapInt64 noPrograms relock).accountState ∅ (Ripemd160.set 1) =
        some ⟨Ripemd160.set 0, 9⟩ ∧
      ¬ (appOfOne.process wrapInt64 noPrograms relock).LocksOutputs relock := by
  have hstate : (appOfOne.process wrapInt64 noPrograms relock).accountState ∅ (Ripemd160.set 1) =
      some ⟨Ripemd160.set 0, 9⟩ := by decide +kernel
  refine ⟨by decide +kernel, by decide +kernel, hstate, fun h => ?_⟩
  obtain ⟨acc, hacc, hprogram⟩ := h ⟨Ripemd160.set 1, 9, Ripemd160.set 1⟩ (by decide)
  obtain rfl := Option.some.inj (hstate.symm.trans hacc)
  exact absurd hprogram (by decide)

end AcCore.Gov.Cash
