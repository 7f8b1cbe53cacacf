import AcCore.Gov.Cash.Delta
import AcCore.Gov.Cash.Tx
import AcCore.Lib.Rounding

/-!
# The cash app

The ledger of a node: the accounts of the chain (`db`) and the pool of what its
transactions changed since the last contribution. `process` books a transaction
into the pool, `create_local_delta` takes the pool as the contribution of the
node, and `import` applies the merged pool of a block to the accounts and pays
the reward.

The arithmetic of `cash_t` is the parameter `wrap`: the wrap-around of a 64-bit
word, or exact integers.
-/

namespace AcCore.Gov.Cash

open Lib Engine

/-- `db_t`. -/
structure Db where
  accounts : Accounts
  supplyLeft : ℤ
  blockReward : ℤ
  deriving DecidableEq

/-- `app`, with its ledger and its policies. -/
structure App where
  db : Db
  pool : LocalDelta
  policies : Policies 1
  policiesLocal : Policies 1
  deriving DecidableEq

/-- How an input is unlocked by anything but program 0. -/
structure LockingPrograms where
  /-- `p2pkh::check_input`. -/
  checkInput : Ripemd160 → Tx → ℕ → Text → Bool
  /-- Whether the child process that is started for a program exits with 0. -/
  exitsWithZero : Ripemd160 → Bool

/-- `policies_t::temp_load`. -/
def tempLoad : Policies 1 := fun _ => 1

/-- The conversion from `double` to `cash_t`. -/
def truncate (q : ℚ) : ℤ := if 0 ≤ q then ⌊q⌋ else ⌈q⌉

/-- The arithmetic of `int64_t`. -/
def wrapInt64 (v : ℤ) : ℤ := v.bmod (2 ^ 64)

namespace Db

/-- `db_t::clear`. -/
def cleared : Db := ⟨∅, 2100000000000000, 500000000⟩

/-- `get_newcash`. -/
def getNewcash (wrap : ℤ → ℤ) (db : Db) : ℤ × Db :=
  if db.supplyLeft ≥ db.blockReward then
    (db.blockReward, { db with supplyLeft := wrap (db.supplyLeft - db.blockReward) })
  else (db.supplyLeft, { db with blockReward := db.supplyLeft, supplyLeft := 0 })

end Db

namespace Accounts

/-- `accounts_t::add(batch)`. -/
def addBatch (accounts batch : Accounts) : Accounts := batch ∪ accounts

/-- `accounts_t::pay`: whether the amount is paid, and the accounts after it. -/
def pay (wrap : ℤ → ℤ) (accounts : Accounts) (address : Ripemd160) (amount : ℤ) :
    Accounts × Bool :=
  if amount ≤ 0 then (accounts, false)
  else
    match accounts.lookup address with
    | none => (accounts.insert address ⟨Ripemd160.set 1, amount⟩, true)
    | some acc => (accounts.insert address { acc with box := wrap (acc.box + amount) }, true)

/-- One entry of the loop of `import` over the accounts of a delta. -/
def importAccount (accounts : Accounts) (e : Ripemd160 × Account) : Accounts :=
  match accounts.lookup e.1 with
  | none => if e.2.box ≠ 0 then accounts.insert e.1 e.2 else accounts
  | some _ => if e.2.box = 0 then accounts.erase e.1 else accounts.insert e.1 e.2

/-- The loop of `import` over the accounts of a delta. -/
def importAccounts (accounts imported : Accounts) : Accounts :=
  (Table.toList imported).foldl importAccount accounts

end Accounts

/-! ## Rewards -/

/-- `pow_t`. -/
abbrev Pow := Table Ripemd160 ℕ

/-- `pow_t::sum`. -/
def Pow.sum (w : Pow) : ℕ := ((Table.toList w).map Prod.snd).sum % 2 ^ 64

section

variable [Rounding]

/-- `rel_work`: the part of the reward for a contributor. -/
def relWork (w : Pow) (work : ℕ) : ℚ :=
  if 0 < w.sum then Rounding.round (Rounding.round work / Rounding.round w.sum)
  else Rounding.round (1 / Rounding.round (Table.toList w).length)

/-- The payments of the loop of `import` over the contributors. -/
def shares (totalCash : ℤ) (w : Pow) : List (Ripemd160 × ℤ) :=
  (Table.toList w).map fun e =>
    (e.1, truncate (Rounding.round (Rounding.round totalCash * relWork w e.2)))

/-- `remainder`: what the loop has not paid. -/
def remainder (wrap : ℤ → ℤ) (totalCash : ℤ) (w : Pow) : ℤ :=
  wrap (totalCash - (shares totalCash w).foldl (fun paid p => wrap (paid + p.2)) 0)

/-- All payments of `import`: the shares, and the remainder for the contributor
that is drawn. -/
def payments (wrap : ℤ → ℤ) (totalCash : ℤ) (w : Pow) (drawn : ℕ) : List (Ripemd160 × ℤ) :=
  shares totalCash w ++
    if 0 < remainder wrap totalCash w then
      ((Table.toList w)[drawn]?).toList.map fun e => (e.1, remainder wrap totalCash w)
    else []

end

/-- Without rounding a contributor's part of the work is the exact quotient. -/
theorem relWork_exact (w : Pow) (work : ℕ) :
    relWork w work = if 0 < w.sum then (work : ℚ) / w.sum else 1 / (Table.toList w).length := rfl

/-- Without rounding the shares are the truncated exact products. -/
theorem shares_exact (totalCash : ℤ) (w : Pow) :
    shares totalCash w =
      (Table.toList w).map fun e => (e.1, truncate (totalCash * relWork w e.2)) := rfl

/-- The calls of `pay` for a list of payments. -/
def payAll (wrap : ℤ → ℤ) (accounts : Accounts) (ps : List (Ripemd160 × ℤ)) : Accounts :=
  ps.foldl (fun accounts p => (accounts.pay wrap p.1 p.2).1) accounts

namespace App

/-- The app as it is created. -/
def create : App := ⟨Db.cleared, LocalDelta.create, tempLoad, tempLoad⟩

/-- `basic_check`. -/
def basicCheck (wrap : ℤ → ℤ) (a : App) (t : Tx) : Bool :=
  let minFee := truncate (a.policies 0)
  if minFee < 0 then false else decide (minFee ≤ t.check wrap)

/-- `create_local_delta`, with `add_policies`: the pool goes out, a new one is
begun. -/
def createLocalDelta (a : App) : LocalDelta × App :=
  ({ a.pool with policies := a.policiesLocal }, { a with pool := LocalDelta.create })

/-- `account_state`: the batch goes before the pool, the pool before the db. -/
def accountState (a : App) (batch : Accounts) (address : Ripemd160) : Option Account :=
  ((batch.lookup address).or (a.pool.accounts.lookup address)).or (a.db.accounts.lookup address)

/-- `unlock`. -/
def unlock (programs : LockingPrograms) (address : Ripemd160) (thisIndex : ℕ)
    (lockingProgram : Ripemd160) (lockingProgramInput : Text) (t : Tx) : Bool :=
  if lockingProgram.lt (Ripemd160.set 10000) then
    if lockingProgram = Ripemd160.set 0 then true
    else if lockingProgram = Ripemd160.set 1 then
      programs.checkInput address t thisIndex lockingProgramInput
    else programs.exitsWithZero lockingProgram
  else programs.exitsWithZero lockingProgram

variable (wrap : ℤ → ℤ) (programs : LockingPrograms)

/-- One pass of the loop of `process` over the inputs. -/
def processInput (a : App) (t : Tx) (batch : Accounts) (i : Input × ℕ) : Option Accounts :=
  (a.accountState batch i.1.address).bind fun state =>
    if unlock programs i.1.address i.2 state.lockingProgram i.1.lockingProgramInput t then
      some (batch.insert i.1.address
        { state with box := wrap (state.box - i.1.amount.toInt) })
    else none

/-- One pass of the loop of `process` over the outputs. -/
def processOutput (a : App) (batch : Accounts) (o : Output) : Option Accounts :=
  match a.accountState batch o.address with
  | some state =>
    if state.box ≠ 0 ∧ state.lockingProgram ≠ o.lockingProgram then none
    else some (batch.insert o.address { state with box := wrap (state.box + o.amount.toInt) })
  | none => some (batch.insert o.address ⟨o.lockingProgram, o.amount.toInt⟩)

/-- The batch of an accepted transaction; `none` when it is rejected. -/
def batchOf (a : App) (t : Tx) : Option Accounts :=
  (t.inputs.zipIdx.foldlM (a.processInput wrap programs t) ∅).bind fun batch =>
    t.outputs.foldlM (a.processOutput wrap) batch

/-- `process`. -/
def process (a : App) (t : Tx) : App :=
  match a.batchOf wrap programs t with
  | none => a
  | some batch =>
    { a with pool :=
        { a.pool with
          fees := wrap (a.pool.fees + t.check wrap)
          accounts := a.pool.accounts.addBatch batch } }

variable [Rounding]

/-- The part of `import` that spreads the reward; `drawn` is the index that the
random generator gives. -/
def spread (db : Db) (fees : ℤ) (w : Pow) (drawn : ℕ) : Db :=
  if Table.toList w = [] then db
  else
    let (newcash, db) := db.getNewcash wrap
    { db with accounts := payAll wrap db.accounts (payments wrap (wrap (newcash + fees)) w drawn) }

/-- `import`. -/
def importDelta (a : App) (d : Delta) (w : Pow) (drawn : ℕ) : App :=
  { a with
    policies := d.policies
    db := spread wrap { a.db with accounts := a.db.accounts.importAccounts d.g.accounts }
      d.g.fees w drawn }

end App

end AcCore.Gov.Cash
