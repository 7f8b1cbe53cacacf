import AcCore.Gov.Cash.Balance
import AcCore.Lib.Run

/-!
# Overdrafts

Nothing in `process` compares an amount with a balance. This file determines
under which condition on the transactions, in 64-bit arithmetic, no box of the
pool or of the db becomes negative, in any interleaving of transactions,
contributions and blocks.
-/

namespace AcCore.Gov.Cash

open Lib Engine

/-- The boxes that are not negative. -/
def boxRange : Set ℤ := Set.Ico 0 (2 ^ 63)

/-- What fits in `int64_t` does not wrap. -/
theorem wrapInt64_of_mem {v : ℤ} (hlow : -2 ^ 63 ≤ v) (hhigh : v < 2 ^ 63) : wrapInt64 v = v := by
  unfold wrapInt64
  apply Int.bmod_eq_of_le <;> omega

/-- On the range of the boxes arithmetic is exact. -/
theorem exactOn_boxRange : ExactOn wrapInt64 boxRange where
  ordConnected := Set.ordConnected_Ico
  zero_mem := ⟨le_rfl, by norm_num⟩
  wrap_eq v hv := by
    obtain ⟨hlow, hhigh⟩ := hv
    exact wrapInt64_of_mem (by omega) hhigh
  wrap_amount n := wrapInt64_of_mem (by have := n.le_toInt; omega) (by have := n.toInt_lt; omega)

/-! ## Runs -/

/-- The app, the transactions that passed `parse_evidence` and the pools that
went out, up to some point of a run. -/
structure Ledger where
  app : App
  accepted : List Tx
  created : List LocalDelta

/-- What happens to the app. -/
inductive LedgerEvent where
  /-- A transaction is read from the network. -/
  | parseEvidence (t : Tx)
  /-- A transaction that passed the check is processed. -/
  | process (t : Tx)
  /-- The pool goes out. -/
  | createLocalDelta
  /-- A block is imported whose cash delta merges some of the pools that went
  out; `entries` is the order in which the hash table of the merger lists them. -/
  | importBlock (gs : List LocalDelta) (entries : Delta.Listing) (w : Pow) (drawn : ℕ)

namespace Ledger

variable (ripemd : List UInt8 → Ripemd160) (programs : LockingPrograms)

/-- One event; `none` when it cannot happen. -/
def step (s : Ledger) : LedgerEvent → Option Ledger
  | .parseEvidence t =>
    some (if s.app.basicCheck wrapInt64 t then { s with accepted := t :: s.accepted } else s)
  | .process t =>
    if t ∈ s.accepted then some { s with app := s.app.process wrapInt64 programs t } else none
  | .createLocalDelta =>
    let (g, app) := s.app.createLocalDelta
    some { s with app := app, created := g :: s.created }
  | .importBlock gs entries w drawn =>
    if (∀ g ∈ gs, g ∈ s.created) ∧ Delta.MergeLists ripemd gs entries then
      some { s with app := s.app.importDelta wrapInt64 (Delta.merged ripemd gs entries) w drawn }
    else none

/-- Before the first event: a db, and an empty pool. -/
def init (db : Db) (policies policiesLocal : Policies 1) : Ledger :=
  ⟨⟨db, LocalDelta.create, policies, policiesLocal⟩, [], []⟩

end Ledger

/-! ## The condition -/

/-- Every address has what the inputs take from it. -/
def App.Covers (a : App) (t : Tx) : Prop := ∀ x, 0 ≤ a.balance ∅ x + posted t.debits x

/-- No box becomes too great for 64 bits by the outputs. -/
def App.HasRoom (a : App) (t : Tx) : Prop :=
  ∀ x, a.balance ∅ x + posted t.debits x + posted t.credits x < 2 ^ 63

/-- A transaction whose inputs are unlocked finds what it spends, and no box
becomes too great, neither by a transaction nor by the reward of a block. -/
def Solvent (ripemd : List UInt8 → Ripemd160) (programs : LockingPrograms) (s : Ledger) :
    LedgerEvent → Prop
  | .process t => s.app.Unlocks programs t → s.app.Covers t ∧ s.app.HasRoom t
  | .importBlock gs entries w drawn =>
    let g := (Delta.merged ripemd gs entries).g
    ∀ x, s.app.imported g x + posted (s.app.rewards wrapInt64 g w drawn) x < 2 ^ 63
  | _ => True

/-- An event that is not a transaction spending what is not there. -/
def NotOverdrawn (programs : LockingPrograms) (s : Ledger) : LedgerEvent → Prop
  | .process t => s.app.batchOf wrapInt64 programs t ≠ none → s.app.Covers t
  | _ => True

/-- No box is negative, or too great for 64 bits. -/
structure NoOverdraft (s : Ledger) : Prop where
  db : ∀ x, s.app.db.accounts.balance x ∈ boxRange
  pool : ∀ x, s.app.pool.accounts.balance x ∈ boxRange
  created : ∀ g ∈ s.created, ∀ x, g.accounts.balance x ∈ boxRange
  accepted : ∀ t ∈ s.accepted, t.AmountsPositive

variable {ripemd : List UInt8 → Ripemd160} {programs : LockingPrograms}

/-- Nothing is in the range of the boxes. -/
theorem zero_mem_boxRange : (0 : ℤ) ∈ boxRange := exactOn_boxRange.zero_mem

/-- Before any transaction the balances are in range. -/
theorem mem_boxRange_of_empty (x : Ripemd160) :
    Accounts.balance LocalDelta.create.accounts x ∈ boxRange := by
  have hzero : Accounts.balance LocalDelta.create.accounts x = 0 :=
    Table.valueAt_of_notMem Finmap.notMem_empty
  rw [hzero]
  exact zero_mem_boxRange

/-- A ledger whose boxes are in range has balances in range. -/
theorem mem_boxRange_of_lookup {accounts : Accounts}
    (h : ∀ x acc, accounts.lookup x = some acc → acc.box ∈ boxRange) (x : Ripemd160) :
    accounts.balance x ∈ boxRange := by
  unfold Accounts.balance Table.valueAt
  cases hlookup : accounts.lookup x with
  | none => exact zero_mem_boxRange
  | some acc => exact h x acc hlookup

/-- Without an overdraft every balance is in range. -/
theorem NoOverdraft.balance {s : Ledger} (hs : NoOverdraft s) (x : Ripemd160) :
    s.app.balance ∅ x ∈ boxRange := by
  rw [balance_empty]
  split_ifs
  · exact hs.pool x
  · exact hs.db x

/-- A transaction that passes the check has positive amounts only. -/
theorem amountsPositive_of_basicCheck {a : App} {t : Tx} (h : a.basicCheck wrapInt64 t = true) :
    t.AmountsPositive := by
  unfold App.basicCheck at h
  dsimp only at h
  split_ifs at h with hfee
  rw [decide_eq_true_eq] at h
  have hcheck : 0 ≤ t.check wrapInt64 := by omega
  exact Tx.amountsPositive_of_check hcheck

/-- Positive amounts credit nothing negative. -/
theorem credits_nonneg {t : Tx} (h : t.AmountsPositive) (x : Ripemd160) :
    0 ≤ posted t.credits x := by
  apply posted_nonneg
  intro p hp
  obtain ⟨o, ho, rfl⟩ := List.mem_map.mp hp
  exact (h.2 o ho).le

/-- A transaction that is covered and has room can be booked exactly. -/
theorem fits_of_covers {a : App} {t : Tx} (hpos : t.AmountsPositive) (hcovers : a.Covers t)
    (hroom : a.HasRoom t) : a.Fits boxRange t where
  covered x := by
    have := credits_nonneg hpos x
    have := hroom x
    exact ⟨hcovers x, by omega⟩
  bounded x := by
    have := credits_nonneg hpos x
    have := hcovers x
    exact ⟨by omega, hroom x⟩

/-- A transaction leaves the pool without a negative box. -/
theorem NoOverdraft.process {s : Ledger} (hs : NoOverdraft s) {t : Tx} (ht : t ∈ s.accepted)
    (hsolvent : Solvent ripemd programs s (.process t)) :
    NoOverdraft { s with app := s.app.process wrapInt64 programs t } := by
  cases hbatch : s.app.batchOf wrapInt64 programs t with
  | none =>
    have hsame : s.app.process wrapInt64 programs t = s.app := by
      rw [App.process, hbatch]
    rw [hsame]
    exact hs
  | some batch =>
    obtain ⟨hcovers, hroom⟩ := hsolvent (unlocks_of_batchOf hbatch)
    have hfits := fits_of_covers (hs.accepted t ht) hcovers hroom
    have hdb : (s.app.process wrapInt64 programs t).db = s.app.db := by
      rw [App.process, hbatch]
    refine ⟨by simpa only [hdb] using hs.db, fun x => ?_, hs.created, hs.accepted⟩
    obtain ⟨htouched, huntouched⟩ :=
      balance_pool_process exactOn_boxRange.wrap_amount hbatch x
    by_cases hx : t.Touches x
    · rw [htouched hx, balance_batchOf exactOn_boxRange hbatch (hs.accepted t ht) hs.balance hfits]
      exact hfits.bounded x
    · rw [huntouched hx]
      exact hs.pool x

/-- What is paid for a block are amounts that 64 bits can hold. -/
theorem wrapInt64_of_reward {a : App} {g : LocalDelta} {w : Pow} {drawn : ℕ}
    (himported : ∀ x, a.imported g x ∈ boxRange)
    (hbounded : ∀ x, a.imported g x + posted (a.rewards wrapInt64 g w drawn) x < 2 ^ 63) :
    ∀ p ∈ a.rewards wrapInt64 g w drawn, wrapInt64 p.2 = p.2 := by
  intro p hp
  have hle := le_posted (fun q hq => (rewards_pos hq).le) hp
  have hlast := hbounded p.1
  obtain ⟨hlow, -⟩ := himported p.1
  have := rewards_pos hp
  exact wrapInt64_of_mem (by omega) (by omega)

/-- A block leaves the db without a negative box. -/
theorem NoOverdraft.importBlock {s : Ledger} (hs : NoOverdraft s) {gs : List LocalDelta}
    {entries : Delta.Listing} {w : Pow} {drawn : ℕ} (hgs : ∀ g ∈ gs, g ∈ s.created)
    (hentries : Delta.MergeLists ripemd gs entries)
    (hsolvent : Solvent ripemd programs s (.importBlock gs entries w drawn)) :
    NoOverdraft { s with
      app := s.app.importDelta wrapInt64 (Delta.merged ripemd gs entries) w drawn } := by
  have hg : ∀ x, (Delta.merged ripemd gs entries).g.accounts.balance x ∈ boxRange := by
    intro x
    rcases Delta.merged_g_mem hentries with hmem | hnew
    · exact hs.created _ (hgs _ hmem) x
    · rw [hnew]
      exact mem_boxRange_of_empty x
  have himported : ∀ x, s.app.imported (Delta.merged ripemd gs entries).g x ∈ boxRange := by
    intro x
    unfold App.imported
    split_ifs
    · exact hg x
    · exact hs.db x
  have hrewards : ∀ x, 0 ≤ posted
      (s.app.rewards wrapInt64 (Delta.merged ripemd gs entries).g w drawn) x := by
    intro x
    exact posted_nonneg (fun p hp => (rewards_pos hp).le) x
  have hbounded : ∀ x, s.app.imported (Delta.merged ripemd gs entries).g x +
      posted (s.app.rewards wrapInt64 (Delta.merged ripemd gs entries).g w drawn) x ∈
        boxRange := by
    intro x
    have := (himported x).1
    have := hrewards x
    exact ⟨by omega, hsolvent x⟩
  refine ⟨fun x => ?_, hs.pool, hs.created, hs.accepted⟩
  rw [balance_importDelta exactOn_boxRange (wrapInt64_of_reward himported hsolvent) himported
    hbounded]
  exact hbounded x

/-- Every event that meets the condition keeps the boxes from being negative. -/
theorem NoOverdraft.step {s s' : Ledger} {e : LedgerEvent} (hs : NoOverdraft s)
    (hsolvent : Solvent ripemd programs s e) (h : s.step ripemd programs e = some s') :
    NoOverdraft s' := by
  cases e with
  | parseEvidence t =>
    simp only [Ledger.step, Option.some.injEq] at h
    subst h
    split_ifs with hcheck
    · refine ⟨hs.db, hs.pool, hs.created, fun t' ht' => ?_⟩
      rcases List.mem_cons.mp ht' with rfl | ht'
      · exact amountsPositive_of_basicCheck hcheck
      · exact hs.accepted t' ht'
    · exact hs
  | process t =>
    simp only [Ledger.step, Option.ite_none_right_eq_some, Option.some.injEq] at h
    obtain ⟨ht, rfl⟩ := h
    exact hs.process ht hsolvent
  | createLocalDelta =>
    simp only [Ledger.step, App.createLocalDelta, Option.some.injEq] at h
    subst h
    refine ⟨hs.db, mem_boxRange_of_empty, fun g hg => ?_, hs.accepted⟩
    rcases List.mem_cons.mp hg with rfl | hg
    · exact hs.pool
    · exact hs.created g hg
  | importBlock gs entries w drawn =>
    simp only [Ledger.step, Option.ite_none_right_eq_some, Option.some.injEq] at h
    obtain ⟨⟨hgs, hentries⟩, rfl⟩ := h
    exact hs.importBlock hgs hentries hsolvent

/-- No box of the table is negative. -/
def Accounts.Nonneg (accounts : Accounts) : Prop :=
  ∀ x acc, accounts.lookup x = some acc → 0 ≤ acc.box

/-- Accounts whose balances are in range are not negative. -/
theorem Accounts.nonneg_of_balance {accounts : Accounts}
    (h : ∀ x, accounts.balance x ∈ boxRange) : accounts.Nonneg := by
  intro x acc hacc
  have := (h x).1
  rwa [Accounts.balance, Table.valueAt_of_lookup hacc] at this

/-- **No overdraft.** From a db without negative boxes, in every run whose
events all meet the condition, no transaction spends what is not there, and no
box of the pool or the db is negative. -/
theorem no_overdraft (ripemd : List UInt8 → Ripemd160) (programs : LockingPrograms) {db : Db}
    {policies policiesLocal : Policies 1} {es : List LedgerEvent} {s : Ledger}
    (hdb : ∀ x acc, db.accounts.lookup x = some acc → acc.box ∈ boxRange)
    (hsolvent : AlongRun (Ledger.step ripemd programs) (Solvent ripemd programs)
      (Ledger.init db policies policiesLocal) es)
    (hrun : run (Ledger.step ripemd programs) (Ledger.init db policies policiesLocal) es =
      some s) :
    s.app.pool.accounts.Nonneg ∧ s.app.db.accounts.Nonneg ∧
      AlongRun (Ledger.step ripemd programs) (NotOverdrawn programs)
        (Ledger.init db policies policiesLocal) es := by
  have hinit : NoOverdraft (Ledger.init db policies policiesLocal) :=
    ⟨mem_boxRange_of_lookup hdb, mem_boxRange_of_empty, by simp [Ledger.init],
      by simp [Ledger.init]⟩
  have hs : NoOverdraft s :=
    run_invariant (fun _ _ _ hs hsolvent h => hs.step hsolvent h) hinit hsolvent hrun
  refine ⟨Accounts.nonneg_of_balance hs.pool, Accounts.nonneg_of_balance hs.db,
    hsolvent.imp fun s e he => ?_⟩
  cases e with
  | process t =>
    intro haccepted
    obtain ⟨batch, hbatch⟩ := Option.ne_none_iff_exists'.mp haccepted
    exact (he (unlocks_of_batchOf hbatch)).1
  | _ => trivial

/-! ## An account with 10 -/

/-- Locking programs that are not called. -/
def noPrograms : LockingPrograms := ⟨fun _ _ _ _ => false, fun _ => false⟩

/-- A db with 10 at address 1, which is not locked. -/
def tenAtOne : Db :=
  { Db.cleared with accounts := Finmap.singleton (Ripemd160.set 1) ⟨Ripemd160.set 0, 10⟩ }

/-- A transaction that spends an amount of address 1, all but 1 of it to address 2. -/
def spendOfOne (amount : Int64) : Tx where
  inputs := [⟨Ripemd160.set 1, amount, []⟩]
  outputs := [⟨Ripemd160.set 2, amount - 1, Ripemd160.set 0⟩]
  ts := 1550000000000000000

/-- The transaction arrives and is processed. -/
def spendRun (amount : Int64) : List LedgerEvent :=
  [.parseEvidence (spendOfOne amount), .process (spendOfOne amount)]

/-- The app before the transaction arrives. -/
def beforeSpending : Ledger := Ledger.init tenAtOne tempLoad tempLoad

/-- The boxes of the sample ledger are in range. -/
theorem boxes_tenAtOne {x : Ripemd160} {acc : Account} (h : tenAtOne.accounts.lookup x = some acc) :
    acc.box ∈ boxRange := by
  have hx : x = Ripemd160.set 1 :=
    (Finmap.mem_singleton x (Ripemd160.set 1) _).mp (Finmap.mem_of_lookup_eq_some h)
  subst hx
  cases h
  exact ⟨by decide, by decide⟩

/-- In the sample state address 1 has 10 and the others nothing. -/
theorem balance_beforeSpending (x : Ripemd160) :
    beforeSpending.app.balance ∅ x = if x = Ripemd160.set 1 then 10 else 0 := by
  split_ifs with hx
  · subst hx
    decide
  · have hnot : tenAtOne.accounts.lookup x = none := by
      rw [Finmap.lookup_eq_none]
      exact mt (Finmap.mem_singleton x (Ripemd160.set 1) _).mp hx
    simp [App.balance, App.accountState, beforeSpending, Ledger.init, LocalDelta.create, hnot]

/-- A transaction that spends 6 of the 10 meets the condition. -/
theorem no_overdraft_spendRun :
    ∃ s, run (Ledger.step (fun _ => Ripemd160.zero) noPrograms) beforeSpending (spendRun 6) =
        some s ∧ s.app.pool.accounts.Nonneg ∧ s.app.db.accounts.Nonneg ∧
      AlongRun (Ledger.step (fun _ => Ripemd160.zero) noPrograms) (NotOverdrawn noPrograms)
        beforeSpending (spendRun 6) := by
  have hsolvent : AlongRun (Ledger.step (fun _ => Ripemd160.zero) noPrograms)
      (Solvent (fun _ => Ripemd160.zero) noPrograms) beforeSpending (spendRun 6) := by
    have hchecked : Ledger.step (fun _ => Ripemd160.zero) noPrograms beforeSpending
        (.parseEvidence (spendOfOne 6)) =
          some { beforeSpending with accepted := [spendOfOne 6] } := by
      rw [Ledger.step, if_pos (by decide +kernel)]
      rfl
    rw [spendRun, AlongRun.cons_iff hchecked, AlongRun.singleton_iff]
    refine ⟨trivial, fun _ => ⟨fun x => ?_, fun x => ?_⟩⟩
    all_goals
      rw [balance_beforeSpending]
      simp only [Tx.debits, Tx.credits, spendOfOne, List.map_cons, List.map_nil, posted_cons,
        posted_nil, @eq_comm _ (Ripemd160.set _) x,
        show (6 : Int64).toInt = 6 by decide, show (6 - 1 : Int64).toInt = 5 by decide]
      split_ifs <;> omega
  obtain ⟨s, hs⟩ : ∃ s, run (Ledger.step (fun _ => Ripemd160.zero) noPrograms) beforeSpending
      (spendRun 6) = some s := Option.isSome_iff_exists.mp (by decide +kernel)
  exact ⟨s, hs, no_overdraft _ noPrograms (fun _ _ h => boxes_tenAtOne h) hsolvent hs⟩

/-- A transaction that spends 100 where there are 10 is accepted, and the pool
has -90. -/
theorem overdraft_accepted :
    (∀ x acc, tenAtOne.accounts.lookup x = some acc → acc.box ∈ boxRange) ∧
      ∃ s, run (Ledger.step (fun _ => Ripemd160.zero) noPrograms) beforeSpending
          (spendRun 100) = some s ∧ ¬ s.app.pool.accounts.Nonneg := by
  refine ⟨fun _ _ h => boxes_tenAtOne h, ?_⟩
  have hpool : (run (Ledger.step (fun _ => Ripemd160.zero) noPrograms) beforeSpending
      (spendRun 100)).map (fun s => s.app.pool.accounts.lookup (Ripemd160.set 1)) =
        some (some ⟨Ripemd160.set 0, -90⟩) := by decide +kernel
  obtain ⟨s, hs, hlookup⟩ := Option.map_eq_some_iff.mp hpool
  exact ⟨s, hs, fun h => absurd (h _ _ hlookup) (by decide)⟩

end AcCore.Gov.Cash
