import AcCore.Lib.Run
import AcCore.Tex.Cex.Account

/-!
# The exchange

The engine holds the accounts, the markets and the table of all orders. Its
operations are those of the API, each for an account and its password, and the
few that the host program has besides.

Lines of the output are left out, but for the error that ends the reading of an
input. Where the code dereferences what it has not found, where it reads a
deleted order, or where it does not return, the operation has no result.
-/

namespace AcCore.Tex.Cex

open Lib

/-- `engine`. The table `_orders` leads from an id to the order object of this
id. -/
structure Engine where
  accounts : Table Id Account
  markets : List Market
  orders : Finset Id
  pool : OrderPool
  nextAccount : Id
  autoMatchFree : Bool

/-- `_system_account->_id`. -/
def systemAccount : Id := 1

/-! ## Inputs -/

/-- The error lines that end the reading of an input. -/
inductive Error where
  | e12 | e88 | e89 | e90 | e91 | e92 | e201 | e202 | e203
  deriving DecidableEq, Repr

/-- `tradeinput`. -/
structure TradeInput where
  code : Text
  amount : Text
  cur : Text
  rate : Text
  rateunits : Text

/-- What `_trade` reads from its input. -/
structure TradeOrder where
  buy : Bool
  amount : ℤ
  curid : Cur
  rate : ℤ
  weakcur : Cur
  strongcur : Cur
  deriving DecidableEq, Repr

/-- `updateinput`. -/
structure UpdateInput where
  orderId : Text
  amount : Text
  rate : Text

/-- The first half of `_trade`. -/
def TradeInput.parse (input : TradeInput) : Except Error TradeOrder := do
  let buy ← if input.code = ['B'] then pure true else if input.code = ['S'] then pure false
    else throw .e88
  if extractDouble input.amount (-1) < 0 then throw .e202
  let amount := encode input.amount
  if amount = 0 then throw .e89
  let curid := strcur input.cur
  if curid = 0 then throw .e90
  let rate := encode input.rate
  if rate = 0 then throw .e91
  match input.rateunits.splitOn '/' with
  | [weak, strong] =>
    let weakcur := strcur weak
    if weakcur = 0 then throw .e92
    let strongcur := strcur strong
    if strongcur = 0 then throw .e92
    return ⟨buy, amount, curid, rate, weakcur, strongcur⟩
  | _ => throw .e92

/-- The first part of `update_order`: the order id, the amount and the rate. -/
def UpdateInput.parse (input : UpdateInput) : Except Error (Id × ℤ × ℤ) := do
  let orderId := (extractUInt64 (some input.orderId)).1.toNat
  if orderId = 0 then throw .e201
  if extractDouble input.amount (-1) < 0 then throw .e202
  if extractDouble input.rate (-1) = -1 then throw .e203
  return (orderId, encode input.amount, encode input.rate)

/-- The amount of a deposit or a withdrawal. -/
def parseAmount (amount : Text) : Except Error ℤ :=
  if extractDouble amount (-1) < 0 then throw .e202
  else if encode amount = 0 then throw .e202
  else return encode amount

/-- A test that ends the reading. -/
theorem guard_eq_ok {α : Type} {p : Prop} [Decidable p] {err : Error} {k : PUnit → Except Error α}
    {x : Except Error α} {a : α} :
    (if p then throw err >>= k else x) = .ok a ↔ ¬ p ∧ x = .ok a := by
  by_cases hp : p
  · rw [if_pos hp]
    exact iff_of_false (fun h => by cases h) fun h => h.1 hp
  · rw [if_neg hp]
    exact (and_iff_right hp).symm

/-- A trade that is accepted has the amount and the rate that its texts encode to. -/
theorem encode_of_parse {input : TradeInput} {t : TradeOrder} (h : input.parse = .ok t) :
    (t.amount = encode input.amount ∧ encode input.amount ≠ 0) ∧
      t.rate = encode input.rate ∧ encode input.rate ≠ 0 := by
  unfold TradeInput.parse at h
  have hcode : input.code = ['B'] ∨ input.code = ['S'] := by
    by_contra hother
    rw [not_or] at hother
    rw [if_neg hother.1, if_neg hother.2] at h
    cases h
  rcases hcode with hcode | hcode
  on_goal 1 => rw [if_pos hcode, pure_bind] at h
  on_goal 2 => rw [hcode, if_neg (by decide), if_pos rfl, pure_bind] at h
  all_goals
    obtain ⟨-, h⟩ := guard_eq_ok.mp h
    obtain ⟨hamount, h⟩ := guard_eq_ok.mp h
    obtain ⟨-, h⟩ := guard_eq_ok.mp h
    obtain ⟨hrate, h⟩ := guard_eq_ok.mp h
    dsimp only at h
    split at h
    · obtain ⟨-, h⟩ := guard_eq_ok.mp h
      obtain ⟨-, h⟩ := guard_eq_ok.mp h
      obtain rfl := Except.ok.inj h
      exact ⟨⟨rfl, hamount⟩, rfl, hrate⟩
    · cases h

/-- An update that is accepted has the amount and the rate that its texts encode to. -/
theorem encode_of_parseUpdate {input : UpdateInput} {i : Id} {amount rate : ℤ}
    (h : input.parse = .ok (i, amount, rate)) :
    amount = encode input.amount ∧ rate = encode input.rate := by
  unfold UpdateInput.parse at h
  obtain ⟨-, h⟩ := guard_eq_ok.mp h
  obtain ⟨-, h⟩ := guard_eq_ok.mp h
  obtain ⟨-, h⟩ := guard_eq_ok.mp h
  cases h
  exact ⟨rfl, rfl⟩

/-- An amount that is accepted is what its text encodes to. -/
theorem encode_of_parseAmount {s : Text} {amount : ℤ} (h : parseAmount s = .ok amount) :
    amount = encode s ∧ encode s ≠ 0 := by
  unfold parseAmount at h
  split_ifs at h with hnegative hzero
  exact ⟨(Except.ok.inj h).symm, hzero⟩

namespace Engine

/-- `_markets.find`. -/
def findMarket (e : Engine) (key : Cur × Cur) : Option Market :=
  Keyed.get Market.getKey e.markets key

/-- Writes the market of its key. -/
def setMarket (e : Engine) (m : Market) : Engine :=
  { e with markets := Keyed.put Market.getKey e.markets m }

/-- Writes to the account of an id. -/
def modifyAccount (e : Engine) (acid : Id) (f : Account → Account) : Option Engine :=
  (e.accounts.lookup acid).map fun a => { e with accounts := e.accounts.insert acid (f a) }

/-- `deposit` of the account of an id. -/
def deposit (e : Engine) (acid : Id) (cid : Cur) (amount : ℤ) : Option Engine :=
  e.modifyAccount acid (·.deposit cid amount)

/-- `pay0`. -/
def pay0 (e : Engine) (acid : Id) (cur : Cur) (net commission : ℤ) : Option Engine := do
  (← e.deposit systemAccount cur commission).deposit acid cur net

/-- `pay`. -/
def pay [Rounding] (e : Engine) (acid : Id) (cur : Cur) (amount : ℤ) : Option Engine := do
  let a ← e.accounts.lookup acid
  let (net, commission) := netcomm a.commissionDiscount amount
  e.pay0 acid cur net commission

/-- One pass of the loop of `process` over the matches. -/
def settle [Rounding] (acid : Id) (e : Engine) (i : MatchItem) : Option Engine :=
  if i.layOrderId ∉ e.orders then none
  else do
    let o ← e.pool.live.lookup i.layOrderId
    if acid = o.accountId ∧ e.autoMatchFree then
      let e ← e.pay0 o.accountId i.lay.receivedCur i.lay.received 0
      e.pay0 acid i.back.receivedCur i.back.received 0
    else
      let e ← e.pay o.accountId i.lay.receivedCur i.lay.received
      e.pay acid i.back.receivedCur i.back.received

/-- One pass of the loop of `process` over the expired orders. -/
def expireOrder (e : Engine) (i : Id) : Option Engine := do
  let o ← e.pool.live.lookup i
  let e ← e.modifyAccount o.accountId fun a => (a.deposit o.paidCur o.value).untrackOrder i
  return { e with orders := e.orders.erase i, pool := e.pool.delete i }

/-- The part of `process` about the order that was made. -/
def registerOrder (e : Engine) (acid : Id) (r : TradeResult) : Option Engine :=
  match r.order with
  | none => some e
  | some i => do
    let o ← e.pool.live.lookup i
    let o := o.setData acid r.recvCur r.paidCur r.orderRate r.weakCur r.strongCur
    { e with pool := e.pool.set i o, orders := insert i e.orders }.modifyAccount acid
      (·.trackOrder i)

/-- `process`. -/
def process [Rounding] (e : Engine) (acid : Id) (r : TradeResult) : Option Engine := do
  let e ← e.registerOrder acid r
  let e ← r.ms.items.foldlM (settle acid) e
  r.ms.expiredOrders.foldlM expireOrder e

/-- `_sell`. After an error of the trade the whole amount is deposited. -/
def sell [Rounding] (fuel : ℕ) (e : Engine) (acid : Id) (m : Market) (cid : Cur)
    (limitRate amount : ℤ)
    (buy priLow : Bool) : Option Engine := do
  let chargeCur := if buy then m.otherCur cid else cid
  let a ← e.accounts.lookup acid
  match a.wallets.lookup chargeCur with
  | none => return e
  | some w =>
    let (m, p, w, r) ← m.trade fuel e.pool w cid limitRate amount buy priLow
    let e := { e.setMarket m with pool := p }
    let e ← e.modifyAccount acid fun a => { a with wallets := a.wallets.insert chargeCur w }
    if r.error then e.deposit acid cid amount else e.process acid r

/-- `_trade`, once its input is read. -/
def tradeOrder [Rounding] (fuel : ℕ) (acid : Id) (priLow : Bool) (e : Engine) (t : TradeOrder) :
    Option Engine :=
  match e.findMarket (marketKey t.weakcur t.strongcur) with
  | none => some e
  | some m => e.sell fuel acid m t.curid t.rate t.amount t.buy priLow

/-- `_trade`. -/
def tradeInput [Rounding] (fuel : ℕ) (acid : Id) (priLow : Bool) (e : Engine) (input : TradeInput) :
    Option Engine :=
  match input.parse with
  | .error _ => some e
  | .ok t => e.tradeOrder fuel acid priLow t

/-- `_cancel_order`: whether the order was found. -/
def cancel (e : Engine) (acid : Id) (i : Id) : Option (Engine × Bool) := do
  let o ← e.pool.live.lookup i
  let m ← e.findMarket (marketKey o.weakCur o.strongCur)
  match ← m.cancelOrder e.pool i with
  | none => return (e, false)
  | some (co, m) =>
    let e ← (e.setMarket m).modifyAccount acid fun a =>
      (a.untrackOrder i).deposit co.paidCur co.value
    return ({ e with orders := e.orders.erase i, pool := e.pool.delete i }, true)

/-- The second part of `_update_order`: the order, and a new order of the same
data if one is needed. -/
def resize (e : Engine) (acid : Id) (i : Id) (o : Order) (amount : ℤ) : Option Engine := do
  let m ← e.findMarket (marketKey o.weakCur o.strongCur)
  let (o2, m, p) ← m.updateOrder e.pool i amount
  let e := { e.setMarket m with pool := p }
  match o2 with
  | none => return e
  | some j =>
    let neworder ← e.pool.live.lookup j
    let neworder :=
      neworder.setData o.accountId o.receivedCur o.paidCur o.rate o.weakCur o.strongCur
    { e with pool := e.pool.set j neworder, orders := insert j e.orders }.modifyAccount acid
      (·.trackOrder j)

/-- `_update_order`. -/
def updateAmount (e : Engine) (acid : Id) (i : Id) (amount : ℤ) : Option Engine := do
  let o ← e.pool.live.lookup i
  let a ← e.accounts.lookup acid
  let budget := o.budgetForUpdate amount
  if budget > 0 then
    let (withdrawn, a) := a.withdraw o.paidCur budget
    let e := { e with accounts := e.accounts.insert acid a }
    if withdrawn = 0 then return e
    e.resize acid i o amount
  else
    let e ← e.deposit acid o.paidCur (-budget)
    e.resize acid i o amount

/-- `update_order` of an `updateinput`, once it is read. The flag `_buy` of the
order is read after the order was deleted; the value it had is taken. -/
def updateRead [Rounding] (fuel : ℕ) (acid : Id) (e : Engine) (i : Id) (amount rate : ℤ) :
    Option Engine :=
  if i ∉ e.orders then some e
  else do
    let ord ← e.pool.live.lookup i
    if amount < 1 then return (← e.cancel acid i).1
    else if rate ≠ ord.rate then
      let curid := if ord.buy then ord.receivedCur else ord.paidCur
      let (e, _) ← e.cancel acid i
      let m ← e.findMarket (marketKey ord.weakCur ord.strongCur)
      e.sell fuel acid m curid rate amount ord.buy false
    else e.updateAmount acid i amount

/-- `update_order` of an `updateinput`. -/
def updateInput [Rounding] (fuel : ℕ) (acid : Id) (e : Engine) (input : UpdateInput) :
    Option Engine :=
  match input.parse with
  | .error _ => some e
  | .ok (i, amount, rate) => e.updateRead fuel acid i amount rate

/-- `cancel_order`, after `auth`. -/
def cancelOrder (e : Engine) (acid : Id) (i : Id) : Option Engine :=
  if i ∉ e.orders then some e
  else do
    let o ← e.pool.live.lookup i
    if o.accountId ≠ acid then return e
    else return (← e.cancel acid i).1

/-- `update_order`, after `auth`. -/
def updateOrder (e : Engine) (acid : Id) (i : Id) (amount : Text) : Option Engine :=
  if encode amount < 1 then e.cancelOrder acid i
  else if i ∉ e.orders then some e
  else do
    let o ← e.pool.live.lookup i
    if o.accountId ≠ acid then return e
    else e.updateAmount acid i (encode amount)

/-- One pass of the loop of `cancel_all_orders`; it aborts when the order is not
found in its market. -/
def cancelTracked (acid : Id) (e : Engine) (i : Id) : Option Engine := do
  let a ← e.accounts.lookup acid
  if i ∉ a.orders then none
  else
    let (e, found) ← e.cancel acid i
    if found then return e else none

/-- `cancel_all_orders`, after `auth`. The ids are those that the hash table of
the account has first, pass by pass. -/
def cancelAllOrders (e : Engine) (acid : Id) (ids : List Id) : Option Engine := do
  let e ← run (cancelTracked acid) e ids
  let a ← e.accounts.lookup acid
  if a.orders = ∅ then return e else none

/-- `new_account`; nothing happens when the password is too short. -/
def newAccount (hash : Text → UInt64) (e : Engine) (pwd : Text) : Engine :=
  if pwd.length < 8 then e
  else
    let a := (((Account.create (hash pwd)).newWallet eur).newWallet gbp).newWallet usd
    { e with accounts := e.accounts.insert e.nextAccount a, nextAccount := e.nextAccount + 1 }

/-- A market with its sample ruler. -/
def sampleMarket (weakcur strongcur : Cur) (min max : ℤ) : Market :=
  { Market.create weakcur strongcur with rulerDef := RulerDef.update min max rateMultiples }

/-- The constructor, with an empty home directory. -/
def init (hash : Text → UInt64) : Engine :=
  newAccount hash
    { accounts := ∅
      markets := [sampleMarket eur gbp 100000 200000, sampleMarket usd eur 70000 150000,
        sampleMarket aud eur 100000 200000, sampleMarket usd gbp 100000 200000,
        sampleMarket aud gbp 150000 250000, sampleMarket aud usd 100000 200000]
      orders := ∅
      pool := ⟨∅, 1⟩
      nextAccount := 1
      autoMatchFree := true }
    (List.replicate 8 '1')

/-- `auth`: the system account has no access. -/
def auth (hash : Text → UInt64) (e : Engine) (acid : Id) (pwd : Text) : Bool :=
  decide (acid ≠ systemAccount) && (e.accounts.lookup acid).any fun a => hash pwd == a.password

end Engine

/-! ## Operations -/

/-- The operations for an account. -/
inductive AccountOp where
  | newWallet (cid : Cur)
  | deleteWallet (cid : Cur)
  | deleteAllWallets
  | deposit (cid : Cur) (amount : Text)
  | withdraw (cid : Cur) (amount : Text)
  | trade (input : List TradeInput)
  | tradeLow (input : List TradeInput)
  | update (input : List UpdateInput)
  | updateOrder (orderId : Id) (amount : Text)
  | cancelOrder (orderId : Id)
  | cancelAllOrders (ids : List Id)

/-- The operations of the engine. -/
inductive Op where
  /-- An operation that needs the password of the account. -/
  | api (acid : Id) (pwd : Text) (op : AccountOp)
  | newAccount (pwd : Text)
  | setCommissionDiscount (acid : Id) (d : ℚ)
  | setRuler (cid1 cid2 : Cur) (min max : ℤ) (increment : Option ℤ)
  | autoMatchIsNotFree

namespace Engine

/-- An operation for an account, after `auth`. -/
def execute [Rounding] (fuel : ℕ) (e : Engine) (acid : Id) : AccountOp → Option Engine
  | .newWallet cid => if isValid cid then e.modifyAccount acid (·.newWallet cid) else some e
  | .deleteWallet cid => if isValid cid then e.modifyAccount acid (·.deleteWallet cid) else some e
  | .deleteAllWallets => e.modifyAccount acid (·.deleteAllWallets)
  | .deposit cid amount =>
    if !isValid cid then some e
    else
      match parseAmount amount with
      | .error _ => some e
      | .ok credited => e.deposit acid cid credited
  | .withdraw cid amount =>
    if !isValid cid then some e
    else
      match parseAmount amount with
      | .error _ => some e
      | .ok debited => e.modifyAccount acid fun a => (a.withdraw cid debited).2
  | .trade input => run (tradeInput fuel acid false) e input
  | .tradeLow input => run (tradeInput fuel acid true) e input
  | .update input => run (updateInput fuel acid) e input
  | .updateOrder i amount => e.updateOrder acid i amount
  | .cancelOrder i => e.cancelOrder acid i
  | .cancelAllOrders ids => e.cancelAllOrders acid ids

/-- `set_ruler`; without an increment the one of before stays. -/
def setRuler (e : Engine) (cid1 cid2 : Cur) (min max : ℤ) (increment : Option ℤ) :
    Option Engine :=
  match e.findMarket (marketKey cid1 cid2) with
  | none => some e
  | some m => (m.setRuler min max (increment.getD m.rulerDef.increment)).map e.setMarket

/-- One operation; `none` when it has no result. -/
def step [Rounding] (hash : Text → UInt64) (fuel : ℕ) (e : Engine) : Op → Option Engine
  | .api acid pwd op => if e.auth hash acid pwd then e.execute fuel acid op else some e
  | .newAccount pwd => some (e.newAccount hash pwd)
  | .setCommissionDiscount acid d =>
    match e.accounts.lookup acid with
    | none => some e
    | some _ => e.modifyAccount acid (·.setCommissionDiscount d)
  | .setRuler cid1 cid2 min max increment => e.setRuler cid1 cid2 min max increment
  | .autoMatchIsNotFree => some { e with autoMatchFree := false }

end Engine

end AcCore.Tex.Cex
