import AcCore.Gov.Cash.Effects
import AcCore.Gov.Cash.Rewards
import AcCore.Wallet.Query

/-!
# A payment from the wallet to the ledger

The wallet is told its accounts by a node, selects some, signs, and sends a text; the
node reads the text, checks it, books it into its pool, and sends the pool out. The
block with this pool makes the payment a part of the ledger. This file follows a
payment all the way.
-/

namespace AcCore.Gov.Cash

open Lib Engine

variable {wrap : ℤ → ℤ} {programs : LockingPrograms}

/-! ## What is accepted -/

/-- Inputs that are unlocked are taken one after the other. -/
theorem App.SameLocks.exists_processInputs {a : App} {t : Tx} {is : List (Input × ℕ)}
    {batch : Accounts} (wrap : ℤ → ℤ) (hlocks : a.SameLocks batch)
    (h : ∀ i ∈ is, ∃ acc, a.accountState ∅ i.1.address = some acc ∧
      App.unlock programs i.1.address i.2 acc.lockingProgram i.1.lockingProgramInput t = true) :
    ∃ batch', is.foldlM (a.processInput wrap programs t) batch = some batch' ∧
      a.SameLocks batch' := by
  induction is generalizing batch with
  | nil => exact ⟨batch, rfl, hlocks⟩
  | cons i is ih =>
    obtain ⟨acc, hacc, hunlock⟩ := h i List.mem_cons_self
    have hsame := hlocks i.1.address
    rw [hacc, Option.map_some, Option.map_eq_some_iff] at hsame
    obtain ⟨state, hstate, hprogram⟩ := hsame
    have hfirst : a.processInput wrap programs t batch i = some (batch.insert i.1.address
        { state with box := wrap (state.box - i.1.amount.toInt) }) := by
      rw [App.processInput, hstate, Option.bind_some, hprogram, if_pos hunlock]
    obtain ⟨batch', hrest, hlocks'⟩ :=
      ih (hlocks.processInput hfirst).1 fun j hj => h j (List.mem_cons_of_mem i hj)
    refine ⟨batch', ?_, hlocks'⟩
    rw [List.foldlM_cons, hfirst]
    exact hrest

/-- A transaction with one output is accepted when its inputs are unlocked and the
account of the output is locked as it says, or empty and not one of the inputs. -/
theorem exists_batchOf {a : App} {t : Tx} {o : Output} (hunlocks : a.Unlocks programs t)
    (houtputs : t.outputs = [o])
    (hlock : ∀ acc, a.accountState ∅ o.address = some acc →
      acc.lockingProgram = o.lockingProgram ∨
        (acc.box = 0 ∧ ∀ i ∈ t.inputs, i.address ≠ o.address)) :
    ∃ batch, a.batchOf wrap programs t = some batch := by
  have hsame : a.SameLocks ∅ := fun _ => rfl
  obtain ⟨mid, hmid, hlocks⟩ := hsame.exists_processInputs wrap hunlocks
  have hout : ∃ batch, a.processOutput wrap mid o = some batch := by
    unfold App.processOutput
    cases hstate : a.accountState mid o.address with
    | none => exact ⟨_, rfl⟩
    | some state =>
      have hprogram := hlocks o.address
      rw [hstate, Option.map_some, eq_comm, Option.map_eq_some_iff] at hprogram
      obtain ⟨acc, hacc, hprogram⟩ := hprogram
      have hfree : ¬ (state.box ≠ 0 ∧ state.lockingProgram ≠ o.lockingProgram) := by
        rintro ⟨hbox, hne⟩
        obtain hlocked | ⟨hzero, hother⟩ := hlock acc hacc
        · exact hne (hprogram.symm.trans hlocked)
        · -- the batch has the inputs only, so the account is the one of before
          have hkeys := (processInputs_eq_some hmid).2 o.address
          have hnone : mid.lookup o.address = none := by
            refine Finmap.lookup_eq_none.mpr fun hmem => ?_
            obtain ⟨i, hi, haddress⟩ | hempty := hkeys.mp hmem
            · exact hother i hi haddress
            · exact Finmap.notMem_empty hempty
          have hbefore : a.accountState mid o.address = a.accountState ∅ o.address := by
            rw [App.accountState, App.accountState, hnone, Finmap.lookup_empty]
          rw [hstate, hacc, Option.some.injEq] at hbefore
          exact hbox (hbefore ▸ hzero)
      simp only [if_neg hfree]
      exact ⟨_, rfl⟩
  obtain ⟨batch, hbatch⟩ := hout
  refine ⟨batch, ?_⟩
  rw [App.batchOf, hmid, Option.bind_some, houtputs, List.foldlM_cons, hbatch]
  rfl

/-- What the inputs take depends on what is signed. -/
theorem takenFrom_eq (t : Tx) (x : Ripemd160) :
    t.takenFrom x =
      (((t.inputs.map Input.content).filter fun c => c.1 = x).map fun c => c.2.toInt).sum := by
  rw [Tx.takenFrom, List.filter_map, List.map_map]
  rfl

/-! ## The programs -/

/-- The locking programs of a node: `p2pkh` as it is, and other programs. An input for
which the check has no defined result counts as locked. -/
def LockingPrograms.ofCurve {PrivKey PubKey : Type} (curve : Curve PrivKey PubKey)
    (ripemd : List UInt8 → Ripemd160) (exitsWithZero : Ripemd160 → Bool) : LockingPrograms where
  checkInput address t thisIndex data :=
    decide (P2pkh.checkInput curve ripemd address t thisIndex data = some true)
  exitsWithZero := exitsWithZero

/-- With `p2pkh` an input is unlocked as `check_input` says. -/
theorem unlock_ofCurve {PrivKey PubKey : Type} {curve : Curve PrivKey PubKey}
    {ripemd : List UInt8 → Ripemd160} {exitsWithZero : Ripemd160 → Bool} {address : Ripemd160}
    {thisIndex : ℕ} {data : Text} {t : Tx} :
    App.unlock (.ofCurve curve ripemd exitsWithZero) address thisIndex P2pkh.lockingProgramHash
      data t = true ↔ P2pkh.checkInput curve ripemd address t thisIndex data = some true := by
  have hlow : P2pkh.lockingProgramHash.lt (Ripemd160.set 10000) = true := by decide
  have hzero : P2pkh.lockingProgramHash ≠ Ripemd160.set 0 := by decide
  have hone : P2pkh.lockingProgramHash = Ripemd160.set 1 := rfl
  rw [App.unlock, if_pos hlow, if_neg hzero, if_pos hone]
  exact decide_eq_true_iff

end AcCore.Gov.Cash

namespace AcCore.Wallet

open Lib Gov Gov.Cash Gov.Engine

variable {PrivKey PubKey : Type} {curve : Curve PrivKey PubKey}
  {ripemd : List UInt8 → Ripemd160} {w : Wallet curve ripemd}

/-! ## What is withdrawn -/

/-- What a transaction takes that passed the checks: from each account something that it
has, and the amount and the fee together. -/
structure Withdrawn (accounts : List InputAccount) (total : ℤ) : Prop where
  amounts : ∀ a ∈ accounts, 0 < a.withdrawAmount ∧ a.withdrawAmount ≤ a.box ∧
    (Int64.ofInt a.withdrawAmount).toInt = a.withdrawAmount
  sum : (accounts.map InputAccount.withdrawAmount).sum = total

/-- A prepared transaction withdraws the amount and the fee. -/
theorem withdrawn_of_prepareTx {std : BoxSort} {reported : Ripemd160 → Ripemd160 × Int64}
    {i : TxMakeP2pkhInput} (hamount : 0 < i.amount.toInt) (hfee : 0 < i.fee.toInt) {ts : UInt64}
    {t : Tx} {accounts : List InputAccount}
    (h : w.prepareTx std (.ok reported) i ts = .ok (t, accounts)) :
    Withdrawn accounts (i.amount.toInt + i.fee.toInt) := by
  have hpos : ∀ e ∈ sources std (w.reportedAccounts reported), 0 < e.2.box := pos_of_mem_sources
  obtain ⟨haccounts, hne, htotal, rfl, hcheck⟩ := prepareTx_ok h
  obtain ⟨htop, hbottom, hexact⟩ := wrapInt64_add hamount hfee
  set total := wrapInt64 (i.amount.toInt + i.fee.toInt)
  obtain ⟨hinputs, -⟩ := Tx.amountsPositive_of_check
    (by omega : 0 ≤ (unsignedTx accounts i ts).check wrapInt64)
  have hword : ∀ a ∈ accounts, 0 < (Int64.ofInt a.withdrawAmount).toInt := fun a ha =>
    hinputs ⟨a.address, Int64.ofInt a.withdrawAmount, []⟩ (List.mem_map_of_mem ha)
  have hpositive : 0 < total := by
    by_contra hnonpos
    obtain ⟨a, ha⟩ := List.exists_mem_of_ne_nil _ hne
    have hall := withdrawAmount_of_nonpos hpos (not_lt.mp hnonpos) a (haccounts ▸ ha)
    have := hword a ha
    rw [hall, toInt_ofInt ⟨hbottom, htop⟩] at this
    exact hnonpos this
  have hbounds : ∀ a ∈ accounts, 0 ≤ a.withdrawAmount ∧ a.withdrawAmount ≤ total := fun a ha =>
    withdrawAmount_bounds hpos hpositive.le a (haccounts ▸ ha)
  have hvalue : ∀ a ∈ accounts, (Int64.ofInt a.withdrawAmount).toInt = a.withdrawAmount := by
    intro a ha
    have := hbounds a ha
    exact toInt_ofInt (by omega)
  refine ⟨fun a ha => ⟨hvalue a ha ▸ hword a ha, ?_, hvalue a ha⟩, ?_⟩
  · exact (withdrawAmount_le_box total _).1 a (haccounts ▸ ha)
  · have hmin := sum_withdraw hpos hpositive.le
    have hnonneg := boxes_nonneg hpos
    rw [← haccounts] at hmin
    rw [getWithdrawAmount_eq, wrapInt64_of_mem (by omega) (by omega)] at htotal
    rw [htotal, hexact hpositive]

/-- What is taken from an account that is selected is what is withdrawn from it. -/
theorem filter_address_of_mem {accounts : List InputAccount}
    (hnodup : (accounts.map InputAccount.address).Nodup) {a : InputAccount} (ha : a ∈ accounts) :
    (accounts.filter fun b => b.address = a.address) = [a] := by
  induction accounts with
  | nil => cases ha
  | cons b accounts ih =>
    rw [List.map_cons, List.nodup_cons] at hnodup
    rcases List.mem_cons.mp ha with rfl | ha
    · have hrest : (accounts.filter fun b => b.address = a.address) = [] := by
        refine List.filter_eq_nil_iff.mpr fun b hb hsame => hnodup.1 ?_
        rw [decide_eq_true_eq] at hsame
        exact hsame ▸ List.mem_map_of_mem hb
      rw [List.filter_cons_of_pos (by simp), hrest]
    · have hne : b.address ≠ a.address := fun hsame => hnodup.1 (hsame ▸ List.mem_map_of_mem ha)
      rw [List.filter_cons_of_neg (by simpa using hne), ih hnodup.2 ha]

/-- A payment that is made of the ledger: what was selected, and how it is signed. -/
structure Made (w : Wallet curve ripemd) (std : BoxSort) (db : Db) (i : TxMakeP2pkhInput) (t : Tx)
    (accounts : List InputAccount) : Prop where
  withdrawn : Withdrawn accounts (i.amount.toInt + i.fee.toInt)
  nodup : (accounts.map InputAccount.address).Nodup
  owned : ∀ a ∈ accounts, a.address ∈ w.keys ∧ db.accounts.lookup a.address = some a.toAccount
  inputs : t.inputs.map Input.content =
    accounts.map fun a => (a.address, Int64.ofInt a.withdrawAmount)
  outputs : t.outputs = [⟨i.rcptAddr, i.amount, P2pkh.lockingProgramHash⟩]
  check : t.check wrapInt64 = i.fee.toInt
  lt_length_iff : ∀ n, n < accounts.length ↔
    boxes ((sources std (w.reportedAccounts db.report)).take n) < i.amount.toInt + i.fee.toInt
  encodable : ∀ input ∈ t.inputs, input.Encodable

/-- A transaction that the wallet makes is prepared from what the node reported. -/
theorem made_of_txMakeP2pkh {std : BoxSort} {db : Db} (hdb : db.Boxed) {reply : String}
    {i : TxMakeP2pkhInput} (hamount : 0 < i.amount.toInt) (hfee : 0 < i.fee.toInt) {ts : UInt64}
    {t : Tx} (h : w.txMakeP2pkh std (.ok db.report) reply i ts = some (.ok t)) :
    ∃ accounts, Made w std db i t accounts ∧
      ∃ unsigned, Prepared (sources std (w.reportedAccounts db.report)) i ts unsigned accounts ∧
        accounts.length = unsigned.inputs.length ∧
        Signed w accounts (combine i.sigcodeInputs.code i.sigcodeOutputs.code) unsigned t := by
  obtain ⟨unsigned, accounts, hprepare, hsign⟩ := txMakeP2pkh_ok h
  have hprepared := prepared_of_prepareTx hamount hfee hprepare
  have hlength : accounts.length = unsigned.inputs.length := by
    rw [hprepared.eq_unsigned, unsignedTx, List.length_map]
  have hsigned := signed_of_signTx hlength hsign
  have hsame := hsigned.sameContent hlength
  refine ⟨accounts, ⟨withdrawn_of_prepareTx hamount hfee hprepare, ?_, fun a ha => ?_, ?_, ?_, ?_,
    hprepared.lt_length_iff, hsigned.encodable hlength⟩, unsigned, hprepared, hlength, hsigned⟩
  · have hprefix := (prefix_withdraw (wrapInt64 (i.amount.toInt + i.fee.toInt))
      (sources std (w.reportedAccounts db.report))).map Prod.fst
    rw [List.map_map] at hprefix
    rw [(prepareTx_ok hprepare).1]
    exact hprefix.sublist.nodup (nodup_sources std _)
  · obtain ⟨n, hn⟩ := List.mem_iff_getElem?.mp ha
    have hlookup := mem_sources.mp (List.mem_of_getElem? (hprepared.source n a hn))
    rw [InputAccount.entry, lookup_reportedAccounts_report hdb] at hlookup
    split_ifs at hlookup with hkey
    exact ⟨hkey, (Option.filter_eq_some_iff.mp hlookup).1⟩
  · rw [hsame.1, hprepared.eq_unsigned, unsignedTx, List.map_map]
    rfl
  · rw [hsigned.outputs, hprepared.eq_unsigned, unsignedTx]
  · rw [check_congr hsame, hprepared.check]

namespace Made

variable {std : BoxSort} {db : Db} {i : TxMakeP2pkhInput} {t : Tx} {accounts : List InputAccount}

/-- From an account that is selected the transaction takes what is withdrawn, from
others nothing. -/
theorem takenFrom_eq (h : Made w std db i t accounts) (x : Ripemd160) :
    (∃ a ∈ accounts, a.address = x ∧ t.takenFrom x = a.withdrawAmount) ∨
      ((∀ a ∈ accounts, a.address ≠ x) ∧ t.takenFrom x = 0) := by
  have htaken : t.takenFrom x = ((accounts.filter fun a => a.address = x).map fun a =>
      (Int64.ofInt a.withdrawAmount).toInt).sum := by
    rw [Cash.takenFrom_eq, h.inputs, List.filter_map, List.map_map]
    rfl
  by_cases hx : ∃ a ∈ accounts, a.address = x
  · obtain ⟨a, ha, rfl⟩ := hx
    rw [filter_address_of_mem h.nodup ha] at htaken
    refine Or.inl ⟨a, ha, rfl, htaken.trans ?_⟩
    rw [List.map_singleton, List.sum_singleton, (h.withdrawn.amounts a ha).2.2]
  · have hne : ∀ a ∈ accounts, a.address ≠ x := fun a ha hsame => hx ⟨a, ha, hsame⟩
    refine Or.inr ⟨hne, ?_⟩
    rw [htaken, List.filter_eq_nil_iff.mpr fun a ha => by simpa using hne a ha]
    rfl

/-- The transaction pays the recipient alone. -/
theorem paidTo_eq (h : Made w std db i t accounts) (x : Ripemd160) :
    t.paidTo x = if x = i.rcptAddr then i.amount.toInt else 0 := by
  rw [Tx.paidTo, h.outputs]
  by_cases hx : i.rcptAddr = x
  · simp [hx]
  · simp [hx, Ne.symm hx]

/-- The transaction takes the amount and the fee. -/
theorem sumInputs_eq (h : Made w std db i t accounts) :
    t.sumInputs = i.amount.toInt + i.fee.toInt := by
  have hcontent : t.sumInputs = ((t.inputs.map Input.content).map fun c => c.2.toInt).sum := by
    rw [Tx.sumInputs, List.map_map]
    rfl
  rw [hcontent, h.inputs, List.map_map, ← h.withdrawn.sum]
  exact congrArg List.sum (List.map_congr_left fun a ha => (h.withdrawn.amounts a ha).2.2)

/-- Every amount of the transaction is positive. -/
theorem amountsPositive (h : Made w std db i t accounts) (hfee : 0 < i.fee.toInt) :
    t.AmountsPositive :=
  have hcheck : 0 ≤ t.check wrapInt64 := by have := h.check; omega
  Tx.amountsPositive_of_check hcheck

end Made

/-! ## What the node does with it -/

/-- What a payment needs of the node: the boxes have 64 bits, the accounts of the wallet
are those of the ledger and locked by its keys, the receiver can be paid, the fee is
enough, and what is needed is in few accounts. -/
structure Payable (w : Wallet curve ripemd) (std : BoxSort) (a : App) (i : TxMakeP2pkhInput) :
    Prop where
  boxed : a.db.Boxed
  pooled : ∀ x acc, a.pool.accounts.lookup x = some acc → -2 ^ 63 ≤ acc.box ∧ acc.box < 2 ^ 63
  fresh : ∀ x ∈ w.keys, x ∉ a.pool.accounts
  locked : ∀ x ∈ w.keys, ∀ acc, a.db.accounts.lookup x = some acc →
    acc.lockingProgram = P2pkh.lockingProgramHash
  receivable : ∀ acc, a.accountState ∅ i.rcptAddr = some acc →
    acc.lockingProgram = P2pkh.lockingProgramHash ∨ acc.box = 0
  room : a.balance ∅ i.rcptAddr + i.amount.toInt < 2 ^ 63
  minimum : 0 ≤ truncate (a.policies 0) ∧ truncate (a.policies 0) ≤ i.fee.toInt
  few : i.amount.toInt + i.fee.toInt ≤
    boxes ((sources std (w.reportedAccounts a.db.report)).take 100)
  sigcodes : i.sigcodeInputs ≠ .this ∧ i.sigcodeOutputs ≠ .this

/-- The accounts of the wallet's keys are as in the ledger of the last block. -/
theorem Payable.accountState_eq {std : BoxSort} {a : App} {i : TxMakeP2pkhInput}
    (h : Payable w std a i) {x : Ripemd160} (hx : x ∈ w.keys) :
    a.accountState ∅ x = a.db.accounts.lookup x := by
  rw [App.accountState, Finmap.lookup_empty, Finmap.lookup_eq_none.mpr (h.fresh x hx),
    Option.none_or, Option.none_or]

/-- Every balance fits in `int64_t`. -/
theorem Payable.balance_mem {std : BoxSort} {a : App} {i : TxMakeP2pkhInput}
    (h : Payable w std a i) (x : Ripemd160) : a.balance ∅ x ∈ Set.Ico (-2 ^ 63 : ℤ) (2 ^ 63) := by
  have hvalue : ∀ accounts : Accounts,
      (∀ x acc, accounts.lookup x = some acc → -2 ^ 63 ≤ acc.box ∧ acc.box < 2 ^ 63) →
        accounts.balance x ∈ Set.Ico (-2 ^ 63 : ℤ) (2 ^ 63) := by
    intro accounts hboxed
    unfold Accounts.balance Table.valueAt
    cases hacc : accounts.lookup x with
    | none => norm_num
    | some acc => exact hboxed x acc hacc
  rw [balance_empty]
  split_ifs
  · exact hvalue _ h.pooled
  · exact hvalue _ h.boxed

/-- What becomes of a payment: the node reads it as it was made, every balance changes by
what the payment takes from it and gives to it, the fee is collected, nothing but
accounts of the wallet is taken from, and the block with the pool makes it a part of
the ledger. -/
structure Settles (w : Wallet curve ripemd) (a : App) (i : TxMakeP2pkhInput) (t : Tx) (a' : App) :
    Prop where
  parsed : a.parseEvidence wrapInt64 cashTx t.toB58 = some t
  balance : ∀ x, a'.balance ∅ x =
    a.balance ∅ x - t.takenFrom x + if x = i.rcptAddr then i.amount.toInt else 0
  taken : ∀ x, t.takenFrom x ≠ 0 → x ∈ w.keys ∧ 0 < t.takenFrom x ∧ t.takenFrom x ≤ a.balance ∅ x
  total : t.sumInputs = i.amount.toInt + i.fee.toInt
  fees : a'.pool.fees = wrapInt64 (a.pool.fees + i.fee.toInt)
  confirmed : ∀ (d : Delta) (pow : Pow) (drawn : ℕ),
    d.g.accounts = a'.createLocalDelta.1.accounts → ∀ x ∉ pow,
      (a'.createLocalDelta.2.importDelta wrapInt64 d pow drawn).db.accounts.balance x =
        a'.balance ∅ x

variable {std : BoxSort} {a : App} {i : TxMakeP2pkhInput} {t : Tx} {accounts : List InputAccount}

/-- The text is read, and the fee is enough. -/
theorem Made.parseEvidence_eq (hmade : Made w std a.db i t accounts) (h : Payable w std a i) :
    a.parseEvidence wrapInt64 cashTx t.toB58 = some t := by
  have hfew := hmade.lt_length_iff 100
  have hcount : t.inputs.length = accounts.length := by
    have hlength := congrArg List.length hmade.inputs
    rwa [List.length_map, List.length_map] at hlength
  have hread : Tx.fromB58 t.toB58 = .ok t := by
    rw [Tx.fromB58_toB58]
    refine Tx.Encodable.read_write ⟨?_, by simp [hmade.outputs], hmade.encodable⟩
    have := h.few
    omega
  have hcheck : a.basicCheck wrapInt64 t = true := by
    rw [App.basicCheck, if_neg (not_lt.mpr h.minimum.1), hmade.check]
    exact decide_eq_true h.minimum.2
  rw [App.parseEvidence, if_pos rfl, hread]
  dsimp only
  rw [if_pos hcheck]

/-- Every balance has room for what the payment takes and gives. -/
theorem Made.fits (hmade : Made w std a.db i t accounts) (h : Payable w std a i)
    (hamount : 0 < i.amount.toInt) :
    a.Fits (Set.Ico (-2 ^ 63) (2 ^ 63)) t ∧ ∀ x, t.takenFrom x ≠ 0 →
      x ∈ w.keys ∧ 0 < t.takenFrom x ∧ t.takenFrom x ≤ a.balance ∅ x := by
  have htaken : ∀ x, t.takenFrom x = 0 ∨
      (x ∈ w.keys ∧ 0 < t.takenFrom x ∧ t.takenFrom x ≤ a.balance ∅ x) := by
    intro x
    obtain ⟨acc, hacc, rfl, heq⟩ | ⟨-, hzero⟩ := hmade.takenFrom_eq x
    · obtain ⟨hkey, hlookup⟩ := hmade.owned acc hacc
      obtain ⟨hpos, hle, -⟩ := hmade.withdrawn.amounts acc hacc
      have hbalance : a.balance ∅ acc.address = acc.box := by
        rw [App.balance, h.accountState_eq hkey, hlookup, Option.elim_some]
      exact Or.inr ⟨hkey, heq ▸ hpos, by omega⟩
    · exact Or.inl hzero
  refine ⟨⟨fun x => ?_, fun x => ?_⟩, fun x hx => (htaken x).resolve_left hx⟩
  · obtain ⟨hlow, hhigh⟩ := h.balance_mem x
    rw [posted_debits]
    have := htaken x
    constructor <;> omega
  · obtain ⟨hlow, hhigh⟩ := h.balance_mem x
    rw [posted_debits, posted_credits, hmade.paidTo_eq]
    have := htaken x
    split_ifs with hx
    · subst hx
      have := h.room
      constructor <;> omega
    · constructor <;> omega

/-- The keys of the wallet unlock all that is selected. -/
theorem Made.unlocks (hmade : Made w std a.db i t accounts) (h : Payable w std a i)
    (hcurve : curve.Lawful) (hsigns : curve.SignsOnly) (exitsWithZero : Ripemd160 → Bool)
    {ts : UInt64} {unsigned : Tx}
    (hprepared : Prepared (sources std (w.reportedAccounts a.db.report)) i ts unsigned accounts)
    (hlength : accounts.length = unsigned.inputs.length)
    (hsigned : Signed w accounts (combine i.sigcodeInputs.code i.sigcodeOutputs.code) unsigned t) :
    a.Unlocks (.ofCurve curve ripemd exitsWithZero) t := by
  rintro ⟨input, n⟩ hin
  have hinput : t.inputs[n]? = some input := List.mk_mem_zipIdx_iff_getElem?.mp hin
  have hlt : n < accounts.length := by
    rw [hlength, ← hsigned.length]
    exact (List.getElem?_eq_some_iff.mp hinput).1
  have hacc := List.getElem?_eq_getElem hlt
  have hmem : accounts[n] ∈ accounts := List.getElem_mem hlt
  obtain ⟨hkey, hlookup⟩ := hmade.owned _ hmem
  have hprogram := h.locked _ hkey _ hlookup
  obtain ⟨input', hinput', haddress, hunlocked⟩ := hprepared.unlocked_iff hcurve hsigns
    (nodup_sources std _) hsigned hlength hacc hprogram hkey
  obtain rfl := Option.some.inj (hinput.symm.trans hinput')
  refine ⟨accounts[n].toAccount, ?_, ?_⟩
  · rw [haddress, h.accountState_eq hkey, hlookup]
  · dsimp only
    rw [hprogram, unlock_ofCurve]
    exact hunlocked.mpr (Or.inl h.sigcodes)

/-- **A payment settles.** What the wallet makes of the accounts that a node reports, that
node reads, accepts and books: the receiver has the amount more, the accounts of the
wallet that were selected have the amount and the fee less between them, nothing else
changes, and so it is in the ledger once the pool is imported. -/
theorem payment_settles (hcurve : curve.Lawful) (hsigns : curve.SignsOnly) {reply : String}
    (hamount : 0 < i.amount.toInt) (hfee : 0 < i.fee.toInt) (h : Payable w std a i) {ts : UInt64}
    (ht : w.txMakeP2pkh std (.ok a.db.report) reply i ts = some (.ok t))
    (exitsWithZero : Ripemd160 → Bool) :
    Settles w a i t (a.process wrapInt64 (.ofCurve curve ripemd exitsWithZero) t) := by
  obtain ⟨accounts, hmade, unsigned, hprepared, hlength, hsigned⟩ :=
    made_of_txMakeP2pkh h.boxed hamount hfee ht
  have hunlocks := hmade.unlocks h hcurve hsigns exitsWithZero hprepared hlength hsigned
  obtain ⟨hfits, htaken⟩ := hmade.fits h hamount
  have hlock : ∀ acc, a.accountState ∅ i.rcptAddr = some acc →
      acc.lockingProgram = P2pkh.lockingProgramHash ∨
        (acc.box = 0 ∧ ∀ input ∈ t.inputs, input.address ≠ i.rcptAddr) := by
    intro acc hacc
    by_cases hown : i.rcptAddr ∈ w.keys
    · rw [h.accountState_eq hown] at hacc
      exact Or.inl (h.locked _ hown acc hacc)
    · refine (h.receivable acc hacc).imp_right fun hzero => ⟨hzero, fun input hinput haddress => ?_⟩
      have hcontent := List.mem_map_of_mem (f := Input.content) hinput
      rw [hmade.inputs] at hcontent
      obtain ⟨b, hb, heq⟩ := List.mem_map.mp hcontent
      have hsame : b.address = i.rcptAddr := (congrArg Prod.fst heq).trans haddress
      exact hown (hsame ▸ (hmade.owned b hb).1)
  obtain ⟨batch, hbatch⟩ : ∃ batch, a.batchOf wrapInt64 (.ofCurve curve ripemd exitsWithZero) t =
      some batch := exists_batchOf hunlocks hmade.outputs hlock
  have hbalance := balance_batchOf exactOn_int64 hbatch (hmade.amountsPositive hfee) h.balance_mem
    hfits
  refine ⟨hmade.parseEvidence_eq h, fun x => ?_, htaken, hmade.sumInputs_eq, ?_,
    fun d pow drawn hd x hx => balance_imported_pool rfl hd hx⟩
  · rw [balance_process hbatch, hbalance, posted_debits, posted_credits, hmade.paidTo_eq,
      sub_eq_add_neg]
  · rw [App.process, hbatch, hmade.check]

/-- A ledger with five for each of two keys. -/
def fiveForEach : App :=
  ⟨⟨(Finmap.singleton (Ripemd160.set 2) ⟨P2pkh.lockingProgramHash, 5⟩).insert (Ripemd160.set 3)
      ⟨P2pkh.lockingProgramHash, 5⟩, 0, 0⟩, LocalDelta.create, tempLoad, tempLoad⟩

/-- Every account of the sample ledger is a p2pkh account of 5. -/
theorem lookup_fiveForEach {x : Ripemd160} {acc : Account}
    (h : fiveForEach.db.accounts.lookup x = some acc) : acc = ⟨P2pkh.lockingProgramHash, 5⟩ := by
  obtain rfl | hmem := Finmap.mem_insert.mp (Finmap.mem_of_lookup_eq_some h)
  · exact (Option.some.inj ((Finmap.lookup_insert _).symm.trans h)).symm
  · obtain rfl := (Finmap.mem_singleton _ _ _).mp hmem
    have hfive : fiveForEach.db.accounts.lookup (Ripemd160.set 2) =
        some ⟨P2pkh.lockingProgramHash, 5⟩ := by decide +kernel
    exact Option.some.inj (h.symm.trans hfive)

/-- The sample wallet can pay 8 from the sample ledger. -/
theorem payable_fiveForEach : Payable twoKeys insertionSort fiveForEach (payEight .all) where
  boxed x acc hacc := by
    rw [lookup_fiveForEach hacc]
    norm_num
  pooled x acc hacc := by cases hacc
  fresh x _ hx := Finmap.notMem_empty hx
  locked x _ acc hacc := by rw [lookup_fiveForEach hacc]
  receivable acc hacc := by
    have hnone : fiveForEach.accountState ∅ (Ripemd160.set 9) = none := by decide +kernel
    rw [payEight, hnone] at hacc
    cases hacc
  room := by decide +kernel
  minimum := by decide +kernel
  few := by decide +kernel
  sigcodes := by decide

/-- Seven of eight go to somebody else. -/
theorem payment_settles_fiveForEach :
    ∃ t, twoKeys.txMakeP2pkh insertionSort (.ok fiveForEach.db.report) "" (payEight .all) 1 =
        some (.ok t) ∧
      Settles twoKeys fiveForEach (payEight .all) t (fiveForEach.process wrapInt64
        (.ofCurve Curve.ofTwoKeys ripemdHead fun _ => false) t) := by
  have hmade : (twoKeys.txMakeP2pkh insertionSort (.ok fiveForEach.db.report) "" (payEight .all)
      1).elim false Except.toBool = true := by
    decide +kernel
  cases hresult : twoKeys.txMakeP2pkh insertionSort (.ok fiveForEach.db.report) ""
      (payEight .all) 1 with
  | none => simp [hresult] at hmade
  | some r =>
    cases r with
    | error e => simp [hresult, Except.toBool] at hmade
    | ok t =>
      exact ⟨t, rfl, payment_settles Curve.lawful_ofTwoKeys Curve.signsOnly_ofTwoKeys (by decide)
        (by decide) payable_fiveForEach hresult fun _ => false⟩

end AcCore.Wallet
