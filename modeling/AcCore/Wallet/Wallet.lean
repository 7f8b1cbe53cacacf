import AcCore.Gov.Cash.App
import AcCore.Gov.Cash.LockingPrograms.P2pkh

/-!
# The wallet

The wallet has the keys of some addresses and asks a node for their accounts.
For a payment it selects accounts, those with the least in them first, writes a
transaction that takes the amount and the fee from them, and signs its inputs.
-/

namespace AcCore

open Lib Gov Gov.Cash Gov.Engine

variable {PrivKey PubKey : Type}

/-- `wallet`: the private keys by the hashes of their public keys. -/
structure Wallet (curve : Curve PrivKey PubKey) (ripemd : List UInt8 → Ripemd160) where
  keys : Table Ripemd160 PrivKey
  address_eq : ∀ address k, keys.lookup address = some k →
    ripemd (curve.pubkeySerialize (curve.pubkeyCreate k)) = address

namespace Wallet

/-- What a node reports of the addresses it is asked for: the locking program
and the box, or the text of an error. -/
abbrev Report := Except String (Ripemd160 → Ripemd160 × Int64)

/-- `wallet_api::tx_make_p2pkh_input`. -/
structure TxMakeP2pkhInput where
  rcptAddr : Ripemd160
  amount : Int64
  fee : Int64
  sigcodeInputs : Sigcode
  sigcodeOutputs : Sigcode
  sendover : Bool

/-- `input_account_t`. -/
structure InputAccount extends Account where
  address : Ripemd160
  withdrawAmount : ℤ

/-- `std::sort` of accounts by their boxes, which may leave accounts with the
same box in any order. -/
structure BoxSort where
  sort : List (Ripemd160 × Account) → List (Ripemd160 × Account)
  perm : ∀ es, (sort es).Perm es
  sorted : ∀ es, (sort es).Pairwise fun e f => e.2.box ≤ f.2.box

/-! ## Sources -/

/-- The loop of `select_sources`. What is taken from `remaining` is positive and
at most as much. -/
def withdraw (remaining : ℤ) : List (Ripemd160 × Account) → List InputAccount
  | [] => []
  | e :: es =>
    if e.2.box ≤ remaining then ⟨e.2, e.1, e.2.box⟩ :: withdraw (remaining - e.2.box) es
    else [⟨e.2, e.1, remaining⟩]

/-- `input_accounts_t::get_withdraw_amount`. -/
def getWithdrawAmount (accounts : List InputAccount) : ℤ :=
  accounts.foldl (fun w i => wrapInt64 (w + i.withdrawAmount)) 0

variable {curve : Curve PrivKey PubKey} {ripemd : List UInt8 → Ripemd160}
  (w : Wallet curve ripemd)

/-- The accounts that `query_accounts` keeps of what is reported. -/
def reportedAccounts (reported : Ripemd160 → Ripemd160 × Int64) : Accounts :=
  emplaced ((Table.keyList w.keys).filterMap fun address =>
    let a : Account := ⟨(reported address).1, (reported address).2.toInt⟩
    if a.box > 0 then some (address, a) else none)

/-- `query_accounts` for all addresses, as `refresh` calls it. -/
def queryAccounts (report : Report) : Except String Accounts :=
  if Table.keyList w.keys = [] then .error "Error. Wallet contains no addresses."
  else report.map w.reportedAccounts

/-- The accounts in the order in which they are withdrawn from. -/
def sources (std : BoxSort) (data : Accounts) : List (Ripemd160 × Account) :=
  std.sort (Table.toList data)

/-- `select_sources`. -/
def selectSources (std : BoxSort) (report : Report) (amount : ℤ) :
    Except String (List InputAccount) :=
  (w.queryAccounts report).map fun data => withdraw amount (sources std data)

/-! ## Signing -/

/-- `generate_locking_program_input`, both of them: `create` is what is called of
`p2pkh::create_input` with the private key. -/
def generateLockingProgramInput (create : PrivKey → Option Text) (address : Ripemd160)
    (lockingProgram : Ripemd160) : Option Text :=
  if lockingProgram.lt (Ripemd160.set 10000) then
    if lockingProgram = Ripemd160.set 0 then some []
    else if lockingProgram = Ripemd160.set 1 then
      match w.keys.lookup address with
      | none => some []
      | some k => create k
    else some []
  else some []

/-- The loops over the inputs that write their unlocking data; `create` is given
the index of the input. -/
def signInputs (create : ℕ → PrivKey → Option Text) (inputs : List (Input × InputAccount)) :
    Option (List Input) :=
  inputs.zipIdx.mapM fun i =>
    (w.generateLockingProgramInput (create i.2) i.1.1.address i.1.2.lockingProgram).map
      fun data => { i.1.1 with lockingProgramInput := data }

/-- The transaction before it is signed. -/
def unsignedTx (accounts : List InputAccount) (i : TxMakeP2pkhInput) (ts : UInt64) : Tx where
  inputs := accounts.map fun a => ⟨a.address, Int64.ofInt a.withdrawAmount, []⟩
  outputs := [⟨i.rcptAddr, i.amount, P2pkh.lockingProgramHash⟩]
  ts := ts

/-- The transaction with its inputs signed: with one signature hash for all of
them, or with one for each. -/
def signTx (t : Tx) (accounts : List InputAccount) (sigcodes : UInt8) : Option Tx :=
  let inputs := t.inputs.zip accounts
  let signed :=
    if sameSigmsgAcrossInputs sigcodes then
      (t.sigmsg 0 sigcodes).bind fun h =>
        w.signInputs (fun _ k => some (P2pkh.createInput curve h sigcodes k)) inputs
    else w.signInputs (fun n k => P2pkh.createInputAt curve t n sigcodes k) inputs
  signed.map fun inputs => { t with inputs := inputs }

/-- `send`: the text of an error, or what the connection returns. -/
def send (reply : String) (t : Tx) : String :=
  if t.check wrapInt64 ≤ 0 then "Error. Individual inputs and fees must be positive." else reply

/-- The checks of `tx_make_p2pkh` before it signs. -/
def prepareTx (std : BoxSort) (report : Report) (i : TxMakeP2pkhInput) (ts : UInt64) :
    Except String (Tx × List InputAccount) := do
  let total := wrapInt64 (i.amount.toInt + i.fee.toInt)
  let accounts ← w.selectSources std report total
  if accounts = [] then throw "Error. Insufficient balance"
  if getWithdrawAmount accounts ≠ total then throw "Error. Inconsistency on amounts."
  let t := unsignedTx accounts i ts
  let fee := t.check wrapInt64
  if fee < 1 then throw s!"Failed check. fees are {fee}"
  return (t, accounts)

/-- `tx_make_p2pkh`; `none` when it hashes beyond the inputs. The connection
replies with `reply` when the transaction is sent. -/
def txMakeP2pkh (std : BoxSort) (report : Report) (reply : String) (i : TxMakeP2pkhInput)
    (ts : UInt64) : Option (Except String Tx) :=
  match w.prepareTx std report i ts with
  | .error e => some (.error e)
  | .ok (t, accounts) =>
    (w.signTx t accounts (combine i.sigcodeInputs.code i.sigcodeOutputs.code)).map fun t =>
      if i.sendover ∧ send reply t ≠ "" then .error (send reply t) else .ok t

end Wallet

end AcCore
