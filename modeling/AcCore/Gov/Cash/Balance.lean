import AcCore.Gov.Cash.App
import AcCore.Lib.Postings

/-!
# What the cash app does to balances

The balance of an address is what `account_state` finds: in the batch, else in
the pool, else in the db. The loops of `process` and `import` book postings on
these balances, with the arithmetic of `cash_t`; where no balance leaves the
range in which this arithmetic is exact, they change every balance by exactly
what is posted.
-/

namespace AcCore.Gov.Cash

open Lib Engine

/-- The balance of an address in a table of accounts. -/
def Accounts.balance (accounts : Accounts) (x : Ripemd160) : ℤ :=
  Table.valueAt Account.box accounts x

/-- The balance that `account_state` finds. -/
def App.balance (a : App) (batch : Accounts) (x : Ripemd160) : ℤ :=
  (a.accountState batch x).elim 0 Account.box

/-- What the inputs of a transaction take, as postings. -/
def Tx.debits (t : Tx) : List (Ripemd160 × ℤ) := t.inputs.map fun i => (i.address, -i.amount.toInt)

/-- What the outputs of a transaction give, as postings. -/
def Tx.credits (t : Tx) : List (Ripemd160 × ℤ) := t.outputs.map fun o => (o.address, o.amount.toInt)

/-- The addresses of a transaction. -/
def Tx.Touches (t : Tx) (x : Ripemd160) : Prop :=
  (∃ i ∈ t.inputs, i.address = x) ∨ ∃ o ∈ t.outputs, o.address = x

/-- All amounts are positive. -/
def Tx.AmountsPositive (t : Tx) : Prop :=
  (∀ i ∈ t.inputs, 0 < i.amount.toInt) ∧ ∀ o ∈ t.outputs, 0 < o.amount.toInt

/-- The arithmetic of `cash_t` is exact on a range of balances, and on the
amounts of transactions. -/
structure ExactOn (wrap : ℤ → ℤ) (S : Set ℤ) : Prop where
  ordConnected : S.OrdConnected
  zero_mem : 0 ∈ S
  wrap_eq : ∀ v ∈ S, wrap v = v
  wrap_amount : ∀ n : Int64, wrap n.toInt = n.toInt

/-! ## Amounts that pass the check -/

/-- A sum that is not refused is of positive amounts. -/
theorem sumAmounts_eq_some {wrap : ℤ → ℤ} {amounts : List Int64} {start sum : ℤ}
    (h : amounts.foldlM (fun sum a => if a.toInt ≤ 0 then none else some (wrap (sum + a.toInt)))
      start = some sum) :
    ∀ a ∈ amounts, 0 < a.toInt := by
  induction amounts generalizing start with
  | nil => simp
  | cons a amounts ih =>
    simp only [List.foldlM_cons, Option.bind_eq_bind, Option.bind_eq_some_iff] at h
    obtain ⟨next, hnext, hrest⟩ := h
    have hpos : 0 < a.toInt := by
      by_contra hneg
      rw [if_pos (by omega)] at hnext
      cases hnext
    intro b hb
    rcases List.mem_cons.mp hb with rfl | hb
    · exact hpos
    · exact ih hrest b hb

/-- A transaction whose check is not negative has positive amounts only. -/
theorem Tx.amountsPositive_of_check {wrap : ℤ → ℤ} {t : Tx} (h : 0 ≤ t.check wrap) :
    t.AmountsPositive := by
  unfold Tx.check at h
  cases hin : sumAmounts wrap (t.inputs.map Input.amount) with
  | none => simp [hin] at h
  | some sumInputs =>
    cases hout : sumAmounts wrap (t.outputs.map Output.amount) with
    | none => simp [hin, hout] at h
    | some sumOutputs =>
      exact ⟨fun i hi => sumAmounts_eq_some hin _ (List.mem_map_of_mem hi),
        fun o ho => sumAmounts_eq_some hout _ (List.mem_map_of_mem ho)⟩

/-! ## The loops of `process` -/

variable {wrap : ℤ → ℤ} {programs : LockingPrograms}

/-- The state of an account after the batch has written one. -/
theorem App.accountState_insert (a : App) (batch : Accounts) (k : Ripemd160) (acc : Account)
    (x : Ripemd160) :
    a.accountState (batch.insert k acc) x = if x = k then some acc else a.accountState batch x := by
  by_cases hx : x = k
  · subst hx
    simp [accountState]
  · simp [accountState, hx, Finmap.lookup_insert_of_ne _ hx]

/-- A pass over an input books its debit. -/
theorem processInput_eq_some {a : App} {t : Tx} {batch batch' : Accounts} {i : Input} {j : ℕ}
    (h : a.processInput wrap programs t batch (i, j) = some batch') :
    a.balance batch' = post wrap (a.balance batch) (i.address, -i.amount.toInt) ∧
      ∀ x, x ∈ batch' ↔ x = i.address ∨ x ∈ batch := by
  simp only [App.processInput, Option.bind_eq_some_iff] at h
  obtain ⟨state, hstate, hunlocked⟩ := h
  split_ifs at hunlocked
  cases hunlocked
  refine ⟨?_, fun x => Finmap.mem_insert⟩
  funext x
  by_cases hx : x = i.address
  · subst hx
    simp [App.balance, App.accountState_insert, post, hstate, sub_eq_add_neg]
  · simp [App.balance, App.accountState_insert, post, hx]

/-- A pass over an output books its credit. -/
theorem processOutput_eq_some (hwrap : ∀ n : Int64, wrap n.toInt = n.toInt) {a : App}
    {batch batch' : Accounts} {o : Output} (h : a.processOutput wrap batch o = some batch') :
    a.balance batch' = post wrap (a.balance batch) (o.address, o.amount.toInt) ∧
      ∀ x, x ∈ batch' ↔ x = o.address ∨ x ∈ batch := by
  have hcase : ∃ acc : Account, batch' = batch.insert o.address acc ∧
      acc.box = wrap (a.balance batch o.address + o.amount.toInt) := by
    unfold App.processOutput at h
    cases hstate : a.accountState batch o.address with
    | none =>
      rw [hstate] at h
      cases h
      exact ⟨_, rfl, by simp [App.balance, hstate, hwrap]⟩
    | some state =>
      rw [hstate] at h
      dsimp only at h
      split_ifs at h
      cases h
      exact ⟨_, rfl, by simp [App.balance, hstate]⟩
  obtain ⟨acc, rfl, hbox⟩ := hcase
  refine ⟨?_, fun x => Finmap.mem_insert⟩
  funext x
  by_cases hx : x = o.address
  · subst hx
    simp [App.balance, App.accountState_insert, post, hbox]
  · simp [App.balance, App.accountState_insert, post, hx]

/-- Inputs that are accepted take their amounts and touch their addresses only. -/
theorem processInputs_eq_some {a : App} {t : Tx} {inputs : List Input} {n : ℕ}
    {batch batch' : Accounts}
    (h : (inputs.zipIdx n).foldlM (a.processInput wrap programs t) batch = some batch') :
    a.balance batch' =
        (inputs.map fun i => (i.address, -i.amount.toInt)).foldl (post wrap) (a.balance batch) ∧
      ∀ x, x ∈ batch' ↔ (∃ i ∈ inputs, i.address = x) ∨ x ∈ batch := by
  induction inputs generalizing n batch with
  | nil =>
    cases h
    simp
  | cons i inputs ih =>
    simp only [List.zipIdx_cons, List.foldlM_cons, Option.bind_eq_bind,
      Option.bind_eq_some_iff] at h
    obtain ⟨mid, hfirst, hrest⟩ := h
    obtain ⟨hbalance, hkeys⟩ := processInput_eq_some hfirst
    obtain ⟨hbalance', hkeys'⟩ := ih hrest
    refine ⟨by rw [hbalance', hbalance, List.map_cons, List.foldl_cons], fun x => ?_⟩
    rw [hkeys', hkeys, List.exists_mem_cons_iff, @eq_comm _ x i.address]
    exact or_left_comm.trans or_assoc.symm

/-- Outputs that are accepted add their amounts and touch their addresses only. -/
theorem processOutputs_eq_some (hwrap : ∀ n : Int64, wrap n.toInt = n.toInt) {a : App}
    {outputs : List Output} {batch batch' : Accounts}
    (h : outputs.foldlM (a.processOutput wrap) batch = some batch') :
    a.balance batch' =
        (outputs.map fun o => (o.address, o.amount.toInt)).foldl (post wrap) (a.balance batch) ∧
      ∀ x, x ∈ batch' ↔ (∃ o ∈ outputs, o.address = x) ∨ x ∈ batch := by
  induction outputs generalizing batch with
  | nil =>
    cases h
    simp
  | cons o outputs ih =>
    simp only [List.foldlM_cons, Option.bind_eq_bind, Option.bind_eq_some_iff] at h
    obtain ⟨mid, hfirst, hrest⟩ := h
    obtain ⟨hbalance, hkeys⟩ := processOutput_eq_some hwrap hfirst
    obtain ⟨hbalance', hkeys'⟩ := ih hrest
    refine ⟨by rw [hbalance', hbalance, List.map_cons, List.foldl_cons], fun x => ?_⟩
    rw [hkeys', hkeys, List.exists_mem_cons_iff, @eq_comm _ x o.address]
    exact or_left_comm.trans or_assoc.symm

/-- The batch of an accepted transaction has the addresses of the transaction,
with its debits and then its credits booked. -/
theorem batchOf_eq_some (hwrap : ∀ n : Int64, wrap n.toInt = n.toInt) {a : App} {t : Tx}
    {batch : Accounts} (h : a.batchOf wrap programs t = some batch) :
    a.balance batch =
        t.credits.foldl (post wrap) (t.debits.foldl (post wrap) (a.balance ∅)) ∧
      ∀ x, x ∈ batch ↔ t.Touches x := by
  simp only [App.batchOf, Option.bind_eq_some_iff] at h
  obtain ⟨mid, hinputs, houtputs⟩ := h
  obtain ⟨hdebits, hkeys⟩ := processInputs_eq_some hinputs
  obtain ⟨hcredits, hkeys'⟩ := processOutputs_eq_some hwrap houtputs
  refine ⟨by rw [hcredits, hdebits, Tx.credits, Tx.debits], fun x => ?_⟩
  rw [hkeys', hkeys, Tx.Touches]
  simp only [Finmap.notMem_empty, or_false]
  exact or_comm

/-- The transaction can be booked without leaving the range: its debits are
covered and its credits have room. -/
structure App.Fits (S : Set ℤ) (a : App) (t : Tx) : Prop where
  covered : ∀ x, a.balance ∅ x + posted t.debits x ∈ S
  bounded : ∀ x, a.balance ∅ x + posted t.debits x + posted t.credits x ∈ S

/-- **The effect of a transaction.** When the balances stay in the range, the
batch has every balance changed by exactly what the transaction posts. -/
theorem balance_batchOf {S : Set ℤ} (hS : ExactOn wrap S) {a : App} {t : Tx} {batch : Accounts}
    (h : a.batchOf wrap programs t = some batch) (hpos : t.AmountsPositive)
    (hbalance : ∀ x, a.balance ∅ x ∈ S) (hfits : a.Fits S t) (x : Ripemd160) :
    a.balance batch x = a.balance ∅ x + posted t.debits x + posted t.credits x := by
  have := hS.ordConnected
  have hdebits : ∀ p ∈ t.debits, p.2 ≤ 0 := by
    intro p hp
    obtain ⟨i, hi, rfl⟩ := List.mem_map.mp hp
    have := hpos.1 i hi
    dsimp only
    omega
  have hcredits : ∀ p ∈ t.credits, 0 ≤ p.2 := by
    intro p hp
    obtain ⟨o, ho, rfl⟩ := List.mem_map.mp hp
    exact (hpos.2 o ho).le
  have hmid := foldl_post_of_nonpos hS.wrap_eq hdebits hbalance hfits.covered
  rw [(batchOf_eq_some hS.wrap_amount h).1,
    foldl_post_of_nonneg hS.wrap_eq hcredits (fun k => by rw [hmid]; exact hfits.covered k)
      (fun k => by rw [hmid]; exact hfits.bounded k), hmid]

/-- What the pool has for an address after an accepted transaction. -/
theorem lookup_pool_process {a : App} {t : Tx} {batch : Accounts}
    (h : a.batchOf wrap programs t = some batch) (x : Ripemd160) :
    (a.process wrap programs t).pool.accounts.lookup x =
      (batch.lookup x).or (a.pool.accounts.lookup x) := by
  simp only [App.process, h, Accounts.addBatch]
  by_cases hx : x ∈ batch
  · obtain ⟨acc, hacc⟩ := Finmap.mem_iff.mp hx
    rw [Finmap.lookup_union_left hx, hacc, Option.some_or]
  · rw [Finmap.lookup_union_right hx, Finmap.lookup_eq_none.mpr hx, Option.none_or]

/-- A transaction leaves the db as it is. -/
theorem App.db_process (a : App) (t : Tx) : (a.process wrap programs t).db = a.db := by
  unfold App.process
  split <;> rfl

/-- Processing transactions leaves the ledger of the last block. -/
theorem App.db_foldl_process (a : App) (ts : List Tx) :
    (ts.foldl (App.process wrap programs) a).db = a.db := by
  induction ts generalizing a with
  | nil => rfl
  | cons t ts ih => rw [List.foldl_cons, ih, App.db_process]

/-- The balance over pool and db after an accepted transaction is the one the
batch has. -/
theorem balance_process {a : App} {t : Tx} {batch : Accounts}
    (h : a.batchOf wrap programs t = some batch) (x : Ripemd160) :
    (a.process wrap programs t).balance ∅ x = a.balance batch x := by
  have hdb : (a.process wrap programs t).db = a.db := by simp [App.process, h]
  simp only [App.balance, App.accountState, lookup_pool_process h, hdb]
  simp

/-- Without a batch the balances are those of the pool, then of the ledger. -/
theorem balance_empty (a : App) (x : Ripemd160) :
    a.balance ∅ x =
      if x ∈ a.pool.accounts then a.pool.accounts.balance x else a.db.accounts.balance x := by
  unfold App.balance App.accountState Accounts.balance Table.valueAt
  by_cases hx : x ∈ a.pool.accounts
  · obtain ⟨acc, hacc⟩ := Finmap.mem_iff.mp hx
    simp [hx, hacc]
  · simp [hx, Finmap.lookup_eq_none.mpr hx]

/-- A transaction that is accepted writes the batch to the pool, and nothing else. -/
theorem balance_pool_process (hwrap : ∀ n : Int64, wrap n.toInt = n.toInt) {a : App} {t : Tx}
    {batch : Accounts} (h : a.batchOf wrap programs t = some batch) (x : Ripemd160) :
    (t.Touches x → (a.process wrap programs t).pool.accounts.balance x = a.balance batch x) ∧
      (¬ t.Touches x →
        (a.process wrap programs t).pool.accounts.balance x = a.pool.accounts.balance x) := by
  have hkeys := (batchOf_eq_some hwrap h).2 x
  unfold Accounts.balance Table.valueAt App.balance App.accountState
  rw [lookup_pool_process h]
  constructor
  · intro hx
    obtain ⟨acc, hacc⟩ := Finmap.mem_iff.mp (hkeys.mpr hx)
    simp [hacc]
  · intro hx
    rw [Finmap.lookup_eq_none.mpr (mt hkeys.mp hx), Option.none_or]

/-- Every input names an account of the pool or the db and unlocks it. -/
def App.Unlocks (programs : LockingPrograms) (a : App) (t : Tx) : Prop :=
  ∀ i ∈ t.inputs.zipIdx, ∃ acc, a.accountState ∅ i.1.address = some acc ∧
    App.unlock programs i.1.address i.2 acc.lockingProgram i.1.lockingProgramInput t = true

/-- The batch has the accounts of pool and db, with their locking programs. -/
def App.SameLocks (a : App) (batch : Accounts) : Prop :=
  ∀ x, (a.accountState batch x).map Account.lockingProgram =
    (a.accountState ∅ x).map Account.lockingProgram

/-- One input keeps the locks, and its account was unlocked. -/
theorem App.SameLocks.processInput {a : App} {t : Tx} {batch batch' : Accounts} {i : Input × ℕ}
    (hlocks : a.SameLocks batch) (h : a.processInput wrap programs t batch i = some batch') :
    a.SameLocks batch' ∧ ∃ acc, a.accountState ∅ i.1.address = some acc ∧
      App.unlock programs i.1.address i.2 acc.lockingProgram i.1.lockingProgramInput t = true := by
  simp only [App.processInput, Option.bind_eq_some_iff] at h
  obtain ⟨state, hstate, hunlocked⟩ := h
  split_ifs at hunlocked with hunlock
  cases hunlocked
  have hsame := hlocks i.1.address
  rw [hstate, Option.map_some, eq_comm, Option.map_eq_some_iff] at hsame
  obtain ⟨acc, hacc, hprogram⟩ := hsame
  refine ⟨fun x => ?_, acc, hacc, by rw [hprogram]; exact hunlock⟩
  rw [App.accountState_insert]
  split_ifs with hx
  · rw [hx, hacc, Option.map_some, Option.map_some, hprogram]
  · exact hlocks x

/-- Inputs that are accepted keep the locks, and their accounts were unlocked. -/
theorem App.SameLocks.processInputs {a : App} {t : Tx} {is : List (Input × ℕ)}
    {batch batch' : Accounts} (hlocks : a.SameLocks batch)
    (h : is.foldlM (a.processInput wrap programs t) batch = some batch') :
    ∀ i ∈ is, ∃ acc, a.accountState ∅ i.1.address = some acc ∧
      App.unlock programs i.1.address i.2 acc.lockingProgram i.1.lockingProgramInput t = true := by
  induction is generalizing batch with
  | nil => simp
  | cons i is ih =>
    simp only [List.foldlM_cons, Option.bind_eq_bind, Option.bind_eq_some_iff] at h
    obtain ⟨mid, hfirst, hrest⟩ := h
    obtain ⟨hlocks', hunlocked⟩ := hlocks.processInput hfirst
    intro j hj
    rcases List.mem_cons.mp hj with rfl | hj
    · exact hunlocked
    · exact ih hlocks' hrest j hj

/-- The inputs of an accepted transaction are unlocked. -/
theorem unlocks_of_batchOf {a : App} {t : Tx} {batch : Accounts}
    (h : a.batchOf wrap programs t = some batch) : a.Unlocks programs t := by
  simp only [App.batchOf, Option.bind_eq_some_iff] at h
  obtain ⟨mid, hinputs, -⟩ := h
  have hlocks : a.SameLocks ∅ := fun _ => rfl
  exact hlocks.processInputs hinputs

/-! ## The loops of `import` -/

/-- Importing an account sets its balance. -/
theorem balance_importAccount (accounts : Accounts) (e : Ripemd160 × Account) (x : Ripemd160) :
    (accounts.importAccount e).balance x = if x = e.1 then e.2.box else accounts.balance x := by
  unfold Accounts.importAccount Accounts.balance Table.valueAt
  by_cases hx : x = e.1
  · subst hx
    cases hlookup : accounts.lookup e.1 with
    | none => by_cases hbox : e.2.box = 0 <;> simp [hbox, hlookup]
    | some acc => by_cases hbox : e.2.box = 0 <;> simp [hbox]
  · cases hlookup : accounts.lookup e.1 with
    | none => by_cases hbox : e.2.box = 0 <;> simp [hbox, hx, Finmap.lookup_insert_of_ne _ hx]
    | some acc =>
      by_cases hbox : e.2.box = 0 <;>
        simp [hbox, hx, Finmap.lookup_insert_of_ne _ hx, Finmap.lookup_erase_ne hx]

/-- The loop leaves alone the addresses that are not listed. -/
theorem balance_foldl_importAccount_of_notMem {es : List (Ripemd160 × Account)} {x : Ripemd160}
    (h : x ∉ es.map Prod.fst) (accounts : Accounts) :
    Accounts.balance (es.foldl Accounts.importAccount accounts) x = accounts.balance x := by
  induction es generalizing accounts with
  | nil => rfl
  | cons e es ih =>
    simp only [List.map_cons, List.mem_cons, not_or] at h
    rw [List.foldl_cons, ih h.2, balance_importAccount, if_neg h.1]

/-- The loop sets the balance of every address that is listed. -/
theorem balance_foldl_importAccount {es : List (Ripemd160 × Account)}
    (hnodup : (es.map Prod.fst).Nodup) (accounts : Accounts) {e : Ripemd160 × Account}
    (he : e ∈ es) :
    Accounts.balance (es.foldl Accounts.importAccount accounts) e.1 = e.2.box := by
  induction es generalizing accounts with
  | nil => cases he
  | cons f es ih =>
    rw [List.map_cons, List.nodup_cons] at hnodup
    rw [List.foldl_cons]
    rcases List.mem_cons.mp he with rfl | he
    · rw [balance_foldl_importAccount_of_notMem hnodup.1, balance_importAccount, if_pos rfl]
    · exact ih hnodup.2 _ he

/-- The accounts of a delta go over those of the db. -/
theorem balance_importAccounts (accounts imported : Accounts) (x : Ripemd160) :
    (accounts.importAccounts imported).balance x =
      if x ∈ imported then imported.balance x else accounts.balance x := by
  have hnodup : ((Table.toList imported).map Prod.fst).Nodup := by
    rw [Table.map_fst_toList]
    exact Table.nodup_keyList imported
  by_cases hx : x ∈ imported
  · obtain ⟨acc, hacc⟩ := Finmap.mem_iff.mp hx
    have hset := balance_foldl_importAccount hnodup accounts (Table.mem_toList.mpr hacc)
    rw [if_pos hx, Accounts.importAccounts, hset, Accounts.balance, Table.valueAt_of_lookup hacc]
  · have hnot : x ∉ (Table.toList imported).map Prod.fst := by
      rwa [Table.map_fst_toList, Table.mem_keyList]
    rw [if_neg hx, Accounts.importAccounts, balance_foldl_importAccount_of_notMem hnot]

/-- The payments that `pay` does not refuse. -/
def paid (ps : List (Ripemd160 × ℤ)) : List (Ripemd160 × ℤ) := ps.filter fun p => 0 < p.2

/-- A payment posts its amount. -/
theorem balance_pay {p : Ripemd160 × ℤ} (hwrap : wrap p.2 = p.2) (hpos : 0 < p.2)
    (accounts : Accounts) :
    Accounts.balance (accounts.pay wrap p.1 p.2).1 = post wrap accounts.balance p := by
  funext x
  unfold Accounts.pay
  rw [if_neg (by omega)]
  by_cases hx : x = p.1
  · subst hx
    cases hlookup : accounts.lookup p.1 with
    | none => simp [Accounts.balance, Table.valueAt, post, hlookup, hwrap]
    | some acc => simp [Accounts.balance, Table.valueAt, post, hlookup]
  · cases hlookup : accounts.lookup p.1 with
    | none =>
      simp [Accounts.balance, Table.valueAt, post, hx, Finmap.lookup_insert_of_ne _ hx]
    | some acc =>
      simp [Accounts.balance, Table.valueAt, post, hx, Finmap.lookup_insert_of_ne _ hx]

/-- The calls of `pay` book the payments that are not refused. -/
theorem balance_payAll {ps : List (Ripemd160 × ℤ)} (hwrap : ∀ p ∈ paid ps, wrap p.2 = p.2)
    (accounts : Accounts) :
    Accounts.balance (payAll wrap accounts ps) = (paid ps).foldl (post wrap) accounts.balance := by
  induction ps generalizing accounts with
  | nil => rfl
  | cons p ps ih =>
    have hcons : payAll wrap accounts (p :: ps) = payAll wrap (accounts.pay wrap p.1 p.2).1 ps :=
      rfl
    by_cases hpos : 0 < p.2
    · have hpaid : paid (p :: ps) = p :: paid ps := by simp [paid, hpos]
      rw [hpaid] at hwrap ⊢
      rw [hcons, ih fun q hq => hwrap q (List.mem_cons_of_mem p hq),
        balance_pay (hwrap p List.mem_cons_self) hpos, List.foldl_cons]
    · have hpaid : paid (p :: ps) = paid ps := by simp [paid, hpos]
      have hrefused : accounts.pay wrap p.1 p.2 = (accounts, false) := by
        rw [Accounts.pay, if_pos (by omega)]
      rw [hpaid] at hwrap ⊢
      rw [hcons, hrefused, ih hwrap]

/-- What a block pays from a db: nothing when nobody contributed to it. -/
def Db.rewards (wrap : ℤ → ℤ) (db : Db) (fees : ℤ) (w : Pow) (drawn : ℕ) :
    List (Ripemd160 × ℤ) :=
  if Table.toList w = [] then []
  else payments wrap (wrap ((db.getNewcash wrap).1 + fees)) w drawn

/-- Issuing new cash pays nobody yet. -/
theorem accounts_getNewcash (db : Db) : (db.getNewcash wrap).2.accounts = db.accounts := by
  unfold Db.getNewcash
  split_ifs <;> rfl

/-- The new cash does not depend on the accounts. -/
theorem newcash_withAccounts (db : Db) (accounts : Accounts) :
    (({ db with accounts := accounts } : Db).getNewcash wrap).1 = (db.getNewcash wrap).1 := by
  unfold Db.getNewcash
  split_ifs <;> rfl

/-- What is paid does not depend on the accounts. -/
theorem rewards_withAccounts (db : Db) (accounts : Accounts) (fees : ℤ) (w : Pow) (drawn : ℕ) :
    ({ db with accounts := accounts } : Db).rewards wrap fees w drawn =
      db.rewards wrap fees w drawn := by
  rw [Db.rewards, Db.rewards, newcash_withAccounts]

/-- A share of the reward is paid to its accounts. -/
theorem accounts_spread (db : Db) (fees : ℤ) (w : Pow) (drawn : ℕ) :
    (App.spread wrap db fees w drawn).accounts =
      payAll wrap db.accounts (db.rewards wrap fees w drawn) := by
  unfold App.spread Db.rewards
  split_ifs
  · rfl
  · simp only [accounts_getNewcash]

/-- `pay` leaves every other account as it is. -/
theorem lookup_pay_of_ne {address k : Ripemd160} (hk : k ≠ address) (accounts : Accounts)
    (amount : ℤ) : (accounts.pay wrap address amount).1.lookup k = accounts.lookup k := by
  unfold Accounts.pay
  split_ifs
  · rfl
  · split
    · exact Finmap.lookup_insert_of_ne _ hk
    · exact Finmap.lookup_insert_of_ne _ hk

/-- Payments leave the accounts that they do not name. -/
theorem lookup_payAll {ps : List (Ripemd160 × ℤ)} {k : Ripemd160} (h : ∀ p ∈ ps, k ≠ p.1)
    (accounts : Accounts) : (payAll wrap accounts ps).lookup k = accounts.lookup k := by
  induction ps generalizing accounts with
  | nil => rfl
  | cons p ps ih =>
    rw [payAll, List.foldl_cons, ← payAll, ih fun q hq => h q (List.mem_cons_of_mem _ hq),
      lookup_pay_of_ne (h p List.mem_cons_self)]

/-- Only contributors are paid. -/
theorem mem_of_mem_rewards {db : Db} {fees : ℤ} {w : Pow} {drawn : ℕ} {p : Ripemd160 × ℤ}
    (h : p ∈ db.rewards wrap fees w drawn) : p.1 ∈ w := by
  have hlisted : ∀ e ∈ Table.toList w, e.1 ∈ w := fun e he => by
    rw [← Table.mem_keyList, ← Table.map_fst_toList]
    exact List.mem_map_of_mem he
  unfold Db.rewards at h
  split_ifs at h
  · cases h
  · rcases List.mem_append.mp h with h | h
    · obtain ⟨e, he, rfl⟩ := List.mem_map.mp h
      exact hlisted e he
    · split_ifs at h
      · obtain ⟨e, he, rfl⟩ := List.mem_map.mp h
        exact hlisted e (List.mem_of_getElem? (Option.mem_toList.mp he))
      · cases h

/-- The block with the pool makes the ledger what the node saw over it, but for what is
paid to contributors. -/
theorem balance_imported_pool {a b : App} (hdb : b.db = a.db) {d : Delta} {w : Pow} {drawn : ℕ}
    (hd : d.g.accounts = a.pool.accounts) {x : Ripemd160} (hx : x ∉ w) :
    (b.importDelta wrap d w drawn).db.accounts.balance x = a.balance ∅ x := by
  have hnone : ∀ p ∈ ({ b.db with accounts := b.db.accounts.importAccounts d.g.accounts } :
      Db).rewards wrap d.g.fees w drawn, x ≠ p.1 := by
    rintro p hp rfl
    exact hx (mem_of_mem_rewards hp)
  have hlookup : (b.importDelta wrap d w drawn).db.accounts.lookup x =
      (a.db.accounts.importAccounts d.g.accounts).lookup x := by
    rw [App.importDelta, accounts_spread, lookup_payAll hnone, hdb]
  rw [Accounts.balance, Table.valueAt, hlookup, balance_empty, ← hd]
  exact balance_importAccounts a.db.accounts d.g.accounts x

/-- The balances of the db with the accounts of a delta over them. -/
def App.imported (a : App) (g : LocalDelta) (x : Ripemd160) : ℤ :=
  if x ∈ g.accounts then g.accounts.balance x else a.db.accounts.balance x

/-- The payments of the block of a delta. -/
def App.rewards (wrap : ℤ → ℤ) (a : App) (g : LocalDelta) (w : Pow) (drawn : ℕ) :
    List (Ripemd160 × ℤ) :=
  paid (a.db.rewards wrap g.fees w drawn)

/-- Every reward is positive. -/
theorem rewards_pos {a : App} {g : LocalDelta} {w : Pow} {drawn : ℕ} {p : Ripemd160 × ℤ}
    (hp : p ∈ a.rewards wrap g w drawn) : 0 < p.2 := by
  simpa using (List.mem_filter.mp hp).2

/-- **The effect of a block.** When the balances stay in the range, every
balance is the one of the delta, where it has one, and what is paid. -/
theorem balance_importDelta {S : Set ℤ} (hS : ExactOn wrap S) {a : App} {d : Delta} {w : Pow}
    {drawn : ℕ} (hpaid : ∀ p ∈ a.rewards wrap d.g w drawn, wrap p.2 = p.2)
    (himported : ∀ x, a.imported d.g x ∈ S)
    (hbounded : ∀ x, a.imported d.g x + posted (a.rewards wrap d.g w drawn) x ∈ S)
    (x : Ripemd160) :
    (a.importDelta wrap d w drawn).db.accounts.balance x =
      a.imported d.g x + posted (a.rewards wrap d.g w drawn) x := by
  have := hS.ordConnected
  have hpos : ∀ p ∈ a.rewards wrap d.g w drawn, 0 ≤ p.2 := fun p hp => (rewards_pos hp).le
  have hbase : Accounts.balance (a.db.accounts.importAccounts d.g.accounts) =
      a.imported d.g := funext fun x => balance_importAccounts _ _ x
  calc (a.importDelta wrap d w drawn).db.accounts.balance x
      = Accounts.balance (payAll wrap (a.db.accounts.importAccounts d.g.accounts)
          (a.db.rewards wrap d.g.fees w drawn)) x := by
        rw [App.importDelta, accounts_spread, rewards_withAccounts]
    _ = (a.rewards wrap d.g w drawn).foldl (post wrap) (a.imported d.g) x := by
        rw [balance_payAll hpaid, hbase]
        rfl
    _ = a.imported d.g x + posted (a.rewards wrap d.g w drawn) x :=
        foldl_post_of_nonneg hS.wrap_eq hpos himported hbounded x

end AcCore.Gov.Cash
