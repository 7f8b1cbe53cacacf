import AcCore.Lib.Table
import AcCore.Tex.Cex.Efp

/-!
# Orders

An order rests in a front of a market with a value in the currency of this
front, weak or strong. What is traded against it is paid in the other currency,
at the rate of the queue in which it rests: units of the weak currency for one
of the strong.

The code of this file calls itself again with a smaller amount when the wallet
does not cover the first; `fuel` bounds the depth of these calls. The texts that
are written to the output stream are left out.
-/

namespace AcCore.Tex.Cex

open Lib

variable [Rounding]

/-- The id of an account or of an order. -/
abbrev Id := ℕ

/-! ## Wallets -/

/-- `wallet`. -/
structure Wallet where
  available : ℤ
  deriving DecidableEq, Repr

namespace Wallet

/-- `wallet::deposit`. -/
def deposit (w : Wallet) (amount : ℤ) : Wallet := ⟨w.available + amount⟩

/-- `wallet::withdraw`: what was withdrawn, at most what is available. -/
def withdraw (w : Wallet) (amount : ℤ) : ℤ × Wallet :=
  let am := if amount > w.available then w.available else amount
  (am, ⟨w.available - am⟩)

end Wallet

/-! ## Orders and matches -/

/-- `order`. -/
structure Order where
  id : Id
  value : ℤ
  weak : Bool
  buy : Bool
  accountId : Id
  receivedCur : Cur
  paidCur : Cur
  rate : ℤ
  weakCur : Cur
  strongCur : Cur
  deriving DecidableEq, Repr

/-- `matchitem::info`: one side of a match. -/
structure MatchInfo where
  cost : ℤ
  costCur : Cur
  received : ℤ
  receivedCur : Cur
  buy : Bool
  weak : Bool
  deriving DecidableEq, Repr

/-- `matchitem`: the resting order lays, the wallet backs. -/
structure MatchItem where
  layOrderId : Id
  lay : MatchInfo
  back : MatchInfo
  rate : ℤ
  deriving DecidableEq, Repr

/-- What is left of an amount after the match. -/
def MatchItem.amountLeft (i : MatchItem) (amount : ℤ) : ℤ :=
  if i.back.buy then amount - i.back.received else amount - i.back.cost

/-- From the currency of the wallet to that of the resting orders. -/
def toLay (weak : Bool) (rate amount : ℤ) : Option ℤ :=
  if weak then some (mulRate amount rate) else divRate amount rate

/-- From the currency of the resting orders to that of the wallet. -/
def toBack (weak : Bool) (rate value : ℤ) : Option ℤ :=
  if weak then divRate value rate else some (mulRate value rate)

namespace Order

/-- The constructor of a new order. -/
def create (id : Id) (value : ℤ) (weak buy : Bool) : Order :=
  ⟨id, value, weak, buy, 0, 0, 0, 0, 0, 0⟩

/-- `set_data`. -/
def setData (o : Order) (acid : Id) (receivedCur paidCur : Cur) (rate : ℤ)
    (weakCur strongCur : Cur) : Order :=
  { o with
    accountId := acid
    receivedCur := receivedCur
    paidCur := paidCur
    rate := rate
    weakCur := weakCur
    strongCur := strongCur }

/-- The currency of `get_value`. -/
def valueCur (o : Order) : Cur := if o.weak then o.weakCur else o.strongCur

/-- `budget_for_update`. -/
def budgetForUpdate (o : Order) (amount : ℤ) : ℤ := amount - o.value

/-- `order::update`: the order, and the value of the new order that is needed
besides. -/
def update (o : Order) (v : ℤ) : Order × Option ℤ :=
  if v = o.value then (o, none)
  else if v < o.value then ({ o with value := v }, none)
  else (o, some (v - o.value))

/-- `ev_left_to_match` and `to_match`: an amount in the currency of the resting
orders, which is that of an amount to buy. -/
def toMatch (rate amount : ℤ) (weak buy : Bool) : Option ℤ :=
  if buy then some amount else toLay weak rate amount

/-- The amount of the call that a call makes of itself: what leaves the wallet
empty. -/
def newamount (w : Wallet) (rate : ℤ) (weak buy : Bool) : Option ℤ :=
  if buy then toLay weak rate w.available else some w.available

/-- The cost of `could_match_provided_big_ordervalue`. -/
def testCost (rate evLeftToMatch : ℤ) (buy : Bool) : Option ℤ :=
  (divRate evLeftToMatch rate).map fun quotient => if buy then evLeftToMatch else quotient

/-- `could_match_provided_big_ordervalue`, up to the call of itself: the answer,
or the amount of this call. -/
def couldMatchPass (w : Wallet) (rate amount : ℤ) (weak buy : Bool) : Option (Bool ⊕ ℤ) := do
  let evLeftToMatch ← toMatch rate amount weak buy
  if evLeftToMatch = 0 then return .inl false
  let cost ← testCost rate evLeftToMatch buy
  if cost = 0 then return .inl false
  if w.available < cost then (newamount w rate weak buy).map .inr
  else return .inl true

/-- `could_match_provided_big_ordervalue`. -/
def couldMatchProvidedBigOrdervalue (w : Wallet) (rate : ℤ) (weak buy : Bool) :
    ℕ → ℤ → Option Bool
  | 0, _ => none
  | fuel + 1, amount => do
    match ← couldMatchPass w rate amount weak buy with
    | .inl answer => return answer
    | .inr newamount => couldMatchProvidedBigOrdervalue w rate weak buy fuel newamount

/-- `could_match_provided_big_amount`. -/
def couldMatchProvidedBigAmount (rate orderValue : ℤ) (weak buy : Bool) : Option Bool :=
  (if buy then some orderValue else toBack weak rate orderValue).map fun cost => cost ≠ 0

/-- The two sides of a match. In every combination of `_buy` and `buy` the
wallet pays `cur` and receives `lay_cur`. -/
def matchItem (o : Order) (rate cost received : ℤ) (cur layCur : Cur) (weak buy : Bool) :
    MatchItem where
  layOrderId := o.id
  lay := ⟨received, layCur, cost, cur, o.buy, o.weak⟩
  back := ⟨cost, cur, received, layCur, buy, weak⟩
  rate := rate

/-- What is received for an amount to match: the whole value at most. -/
def received (o : Order) (toMatch : ℤ) : ℤ := if toMatch > o.value then o.value else toMatch

/-- The cost of `match`: the amount itself when it is sold and does not exhaust
the order. -/
def matchCost (o : Order) (rate amount toMatch : ℤ) (weak buy : Bool) : Option ℤ :=
  if toMatch > o.value ∨ buy then toBack weak rate (o.received toMatch) else some amount

/-- The order after a match. -/
def afterMatch (o : Order) (toMatch : ℤ) : Order :=
  { o with value := if toMatch > o.value then 0 else o.value - o.received toMatch }

/-- `order::match`, up to the call of itself: what it returns, with the match,
the order and the wallet after it where there is one, or the amount of the call. -/
def matchPass (o : Order) (w : Wallet) (rate amount : ℤ) (cur layCur : Cur) (weak buy : Bool) :
    Option (Option (MatchItem × Order × Wallet) × ℤ ⊕ ℤ) := do
  let toMatch ← toMatch rate amount weak buy
  if toMatch = 0 then return .inl (none, amount)
  let cost ← o.matchCost rate amount toMatch weak buy
  if w.available < cost then (newamount w rate weak buy).map .inr
  else if cost = 0 then return .inl (none, amount)
  else
    let item := o.matchItem rate cost (o.received toMatch) cur layCur weak buy
    return .inl (some (item, o.afterMatch toMatch, (w.withdraw cost).2), item.amountLeft amount)

/-- `order::match`: the match if there is one, and the amount that is left. -/
def «match» (o : Order) (w : Wallet) (rate : ℤ) (cur layCur : Cur) (weak buy : Bool) :
    ℕ → ℤ → Option (Option (MatchItem × Order × Wallet) × ℤ)
  | 0, _ => none
  | fuel + 1, amount => do
    match ← o.matchPass w rate amount cur layCur weak buy with
    | .inl result => return result
    | .inr amount => o.match w rate cur layCur weak buy fuel amount

end Order

/-! ## The order objects -/

/-- The orders that were created and not deleted, and the id of the next. What
the code keeps as a pointer to an order is its id here. -/
structure OrderPool where
  live : Table Id Order
  next : Id

namespace OrderPool

/-- `new order(..)`. -/
def newOrder (p : OrderPool) (value : ℤ) (weak buy : Bool) : Id × OrderPool :=
  (p.next, ⟨p.live.insert p.next (Order.create p.next value weak buy), p.next + 1⟩)

/-- Writes an order. -/
def set (p : OrderPool) (i : Id) (o : Order) : OrderPool := { p with live := p.live.insert i o }

/-- `delete`. -/
def delete (p : OrderPool) (i : Id) : OrderPool := { p with live := p.live.erase i }

end OrderPool

end AcCore.Tex.Cex
