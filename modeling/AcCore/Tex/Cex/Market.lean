import AcCore.Tex.Cex.Front

/-!
# Markets

A market has two fronts. Who pays in the weak currency is matched with the
strong front, and what is left of his amount rests in the weak front; and the
other way round.
-/

namespace AcCore.Tex.Cex

open Lib

variable [Rounding]

/-- `market`. -/
structure Market where
  weakCurrency : Cur
  strongCurrency : Cur
  rulerDef : RulerDef
  weakFront : Front
  strongFront : Front

/-- `market::key`: the ids of two currencies, the smaller first. -/
def marketKey (i1 i2 : Cur) : Cur × Cur := if i1 < i2 then (i1, i2) else (i2, i1)

/-- `market::result`. -/
structure TradeResult where
  error : Bool
  ms : Matches
  order : Option Id
  paidCur : Cur
  recvCur : Cur
  orderRate : ℤ
  weakCur : Cur
  strongCur : Cur

namespace Market

/-- The constructor. -/
def create (weakcur strongcur : Cur) : Market :=
  ⟨weakcur, strongcur, ⟨0, 0, rateMultiples⟩, Front.create weakcur false,
      Front.create strongcur true⟩

/-- `get_key`. -/
def getKey (m : Market) : Cur × Cur := marketKey m.weakCurrency m.strongCurrency

/-- `other_cur`. -/
def otherCur (m : Market) (cur : Cur) : Cur :=
  if cur = m.weakCurrency then m.strongCurrency else m.weakCurrency

/-- `set_ruler`. A ruler without an increment has no defined rates. -/
def setRuler (m : Market) (min max increment : ℤ) : Option Market :=
  if 0 < increment then some { m with rulerDef := RulerDef.update min max increment } else none

/-- The weak or the strong front. -/
def front (m : Market) (weak : Bool) : Front := if weak then m.weakFront else m.strongFront

/-- Writes one of the fronts. -/
def setFront (m : Market) (weak : Bool) (f : Front) : Market :=
  if weak then { m with weakFront := f } else { m with strongFront := f }

/-- The weak or the strong currency. -/
def currency (m : Market) (weak : Bool) : Cur := if weak then m.weakCurrency else m.strongCurrency

/-- The first part of a trade: the front of the other side is matched, or, for
low priority, nothing is matched and the trade ends here (`none`) when there is
something to match. -/
def take (m : Market) (weak : Bool) (fuel : ℕ) (p : OrderPool) (w : Wallet)
    (limitRate amount : ℤ) (buy priLow : Bool) : Option (Option (Market × Matching)) :=
  if priLow then
    if (m.front !weak).testMatch limitRate then some none
    else some (some (m, ⟨p, w, ⟨[], [], amount⟩, amount⟩))
  else
    ((m.front !weak).match fuel p w limitRate amount (m.currency weak) (m.currency !weak) buy).map
      fun (f, x) => some (m.setFront (!weak) f, x)

/-- The amount that rests: at most what is available. -/
def restAmount (weak : Bool) (x : Matching) (limitRate : ℤ) (buy : Bool) : Option ℤ :=
  (if buy then toLay weak limitRate x.ms.unmatched else some x.ms.unmatched).map fun unmatched =>
    if x.wallet.available < unmatched then x.wallet.available else unmatched

/-- Whether something of the trade is left that can be matched. -/
def hasRest (weak : Bool) (fuel : ℕ) (x : Matching) (limitRate : ℤ) (buy : Bool) : Option Bool :=
  if (if weak then x.ms.unmatched ≠ 0 else x.ms.unmatched > 0) then
    Order.couldMatchProvidedBigOrdervalue x.wallet limitRate weak buy fuel x.ms.unmatched
  else some false

/-- The result of a trade, with the order that was made. -/
def result (m : Market) (weak : Bool) (ms : Matches) (order : Option Id) (orderRate : ℤ) :
    TradeResult where
  error := false
  ms := ms
  order := order
  paidCur := m.currency weak
  recvCur := m.currency !weak
  orderRate := orderRate
  weakCur := m.weakCurrency
  strongCur := m.strongCurrency

/-- The second part of a trade: what is left rests in the front of the own
side. When no order can be made of it the trade ends in an error. -/
def rest (m : Market) (weak : Bool) (fuel : ℕ) (x : Matching) (limitRate : ℤ)
    (buy priLow : Bool) : Option (Market × OrderPool × Wallet × TradeResult) := do
  if !(← hasRest weak fuel x limitRate buy) then
    return (m, x.pool, x.wallet, m.result weak x.ms none 0)
  let unmatched ← restAmount weak x limitRate buy
  let (no, f, p) ←
    (m.front weak).newOrder m.rulerDef priLow x.pool limitRate unmatched weak buy
  let m := m.setFront weak f
  let ms := { x.ms with unmatched := unmatched }
  match no with
  | none => return (m, p, x.wallet, ⟨true, ms, none, 0, 0, 0, 0, 0⟩)
  | some i => return (m, p, (x.wallet.withdraw unmatched).2, m.result weak ms (some i) limitRate)

/-- What `trade_weak` and `trade_strong` have in common; `weak` says whether
the weak currency is paid. -/
def tradeSide (m : Market) (weak : Bool) (fuel : ℕ) (p : OrderPool) (w : Wallet)
    (limitRate amount : ℤ) (buy priLow : Bool) :
    Option (Market × OrderPool × Wallet × TradeResult) := do
  match ← m.take weak fuel p w limitRate amount buy priLow with
  | none => return (m, p, w, m.result weak ⟨[], [], 0⟩ none 0)
  | some (m, x) => m.rest weak fuel x limitRate buy priLow

/-- `trade_weak`. -/
def tradeWeak (m : Market) := m.tradeSide true

/-- `trade_strong`. -/
def tradeStrong (m : Market) := m.tradeSide false

/-- Whether `trade` calls `trade_weak`. -/
def paysWeak (m : Market) (cur : Cur) (buy : Bool) : Bool :=
  if cur = m.strongCurrency then buy else !buy

/-- `trade`. -/
def trade (m : Market) (fuel : ℕ) (p : OrderPool) (w : Wallet) (cur : Cur)
    (limit amount : ℤ) (buy priLow : Bool) : Option (Market × OrderPool × Wallet × TradeResult) :=
  if m.paysWeak cur buy then m.tradeWeak fuel p w limit amount buy priLow
  else m.tradeStrong fuel p w limit amount buy priLow

/-- `update_order`. -/
def updateOrder (m : Market) (p : OrderPool) (i : Id) (amount : ℤ) :
    Option (Option Id × Market × OrderPool) :=
  let weak := m.weakFront.hasOrder i
  ((m.front weak).updateOrder p i amount).map fun (j, f, p) => (j, m.setFront weak f, p)

/-- `cancel_order`. -/
def cancelOrder (m : Market) (p : OrderPool) (i : Id) : Option (Option (Order × Market)) :=
  let weak := m.weakFront.hasOrder i
  ((m.front weak).cancelOrder p i).map fun r => r.map fun (o, f) => (o, m.setFront weak f)

end Market

end AcCore.Tex.Cex
