import AcCore.Tex.Cex.Order

/-!
# Waiting queues

The orders that rest at one rate, in the order of their arrival: those of high
priority in one queue and those of low priority in another. A queue indexes its
orders by their ids and caches the sum of their values.
-/

namespace AcCore.Tex.Cex

open Lib

variable [Rounding]

/-- `waiting_queue`. The table `_hash` leads from an id to the place of the
order of this id. -/
structure WaitingQueue where
  rate : ℤ
  invertPriority : Bool
  orders : List Id
  hash : Finset Id
  value : ℤ

/-- `matches`, as far as it is read. -/
structure Matches where
  items : List MatchItem
  expiredOrders : List Id
  unmatched : ℤ

/-- What a match works on besides the queues: the order objects, the wallet
that backs, the matches so far and the amount that is left. -/
structure Matching where
  pool : OrderPool
  wallet : Wallet
  ms : Matches
  amountLeft : ℤ

/-- The arguments that stay the same in all calls of one match. -/
structure MatchTerms where
  cur : Cur
  layCur : Cur
  weak : Bool
  buy : Bool

namespace Matching

/-- What a call of `order::match` on an order writes. -/
def record (x : Matching) (i : Id) : Option (MatchItem × Order × Wallet) × ℤ → Matching
  | (none, left) => { x with amountLeft := left }
  | (some (item, o, w), left) =>
    { pool := x.pool.set i o
      wallet := w
      ms := { x.ms with items := x.ms.items ++ [item] }
      amountLeft := left }

/-- Notes an order as expired. -/
def expire (x : Matching) (i : Id) : Matching :=
  { x with ms := { x.ms with expiredOrders := x.ms.expiredOrders ++ [i] } }

end Matching

namespace WaitingQueue

/-- The constructor. -/
def create (rate : ℤ) (invertPriority : Bool) : WaitingQueue := ⟨rate, invertPriority, [], ∅, 0⟩

/-- `compare`. -/
def compare (q : WaitingQueue) (otherrate : ℤ) : Bool :=
  if q.invertPriority then q.rate ≤ otherrate else q.rate ≥ otherrate

/-- Appends an order to the list, to the index and to the cached value. -/
def push (q : WaitingQueue) (i : Id) (value : ℤ) : WaitingQueue :=
  { q with orders := q.orders ++ [i], hash := insert i q.hash, value := q.value + value }

/-- `new_order`; no id when the amount is refused. -/
def newOrder (q : WaitingQueue) (p : OrderPool) (amount : ℤ) (weak buy : Bool) :
    Option Id × WaitingQueue × OrderPool :=
  if amount < 1 then (none, q, p)
  else
    let (i, p) := p.newOrder amount weak buy
    (some i, q.push i amount, p)

/-- `cancel_order`: the order, and the queue without it; no order when the id is
not in the index. An index entry whose place is no longer in the list, or whose
order was deleted, has no defined result. -/
def cancelOrder (q : WaitingQueue) (p : OrderPool) (i : Id) :
    Option (Option (Order × WaitingQueue)) :=
  if i ∉ q.hash then some none
  else if i ∉ q.orders then none
  else (p.live.lookup i).map fun o =>
    some (o, { q with
      orders := q.orders.erase i
      hash := q.hash.erase i
      value := q.value - o.value })

/-- `update_order`: the id of the new order, if one is needed. -/
def updateOrder (q : WaitingQueue) (p : OrderPool) (i : Id) (amount : ℤ) :
    Option (Option Id × WaitingQueue × OrderPool) :=
  if amount < 1 then some (none, q, p)
  else if i ∉ q.hash then some (none, q, p)
  else (p.live.lookup i).map fun o =>
    let q := { q with value := q.value - o.value + (o.update amount).1.value }
    let p := p.set i (o.update amount).1
    match (o.update amount).2 with
    | none => (none, q, p)
    | some value =>
      let (j, p) := p.newOrder value o.weak o.buy
      (some j, q.push j value, p)

/-- The part of the loop of `match` that comes after the test of the funds: the
first order is matched, and expires when nothing can be matched with it. -/
def matchFirst (t : MatchTerms) (fuel : ℕ) (q : WaitingQueue) (i : Id) (x : Matching) :
    Option (WaitingQueue × Matching) := do
  let o ← x.pool.live.lookup i
  let ans ← o.match x.wallet q.rate t.cur t.layCur t.weak t.buy fuel x.amountLeft
  let x := x.record i ans
  let o' ← x.pool.live.lookup i
  let q := { q with value := q.value - o.value + o'.value }
  match ← Order.couldMatchProvidedBigAmount q.rate o'.value t.weak t.buy with
  | true => return (q, x)
  | false =>
    let (_, q) ← (q.cancelOrder x.pool i).join
    return (q, x.expire i)

/-- `match`. -/
def «match» (t : MatchTerms) : ℕ → WaitingQueue → Matching → Option (WaitingQueue × Matching)
  | 0, _, _ => none
  | fuel + 1, q, x =>
    match q.orders with
    | [] => some (q, x)
    | i :: _ => do
      match ← Order.couldMatchProvidedBigOrdervalue x.wallet q.rate t.weak t.buy fuel
        x.amountLeft with
      | true =>
        let (q, x) ← q.matchFirst t fuel i x
        q.match t fuel x
      | false => return (q, x)

end WaitingQueue

/-- `waiting_queues`. -/
structure WaitingQueues where
  high : WaitingQueue
  low : WaitingQueue
  hashLow : Finset Id

namespace WaitingQueues

/-- The constructor. -/
def create (rate : ℤ) (invertPriority : Bool) : WaitingQueues :=
  ⟨WaitingQueue.create rate invertPriority, WaitingQueue.create rate invertPriority, ∅⟩

/-- `get_rate`. -/
def getRate (q : WaitingQueues) : ℤ := q.high.rate

/-- `has_value`. -/
def hasValue (q : WaitingQueues) : Bool := q.high.value ≠ 0 ∨ q.low.value ≠ 0

/-- `new_order`, and `new_order_low` for low priority. -/
def newOrder (q : WaitingQueues) (priLow : Bool) (p : OrderPool) (amount : ℤ) (weak buy : Bool) :
    Option Id × WaitingQueues × OrderPool :=
  if priLow then
    let (i, low, p) := q.low.newOrder p amount weak buy
    (i, { q with low := low, hashLow := q.hashLow ∪ i.toFinset }, p)
  else
    let (i, high, p) := q.high.newOrder p amount weak buy
    (i, { q with high := high }, p)

/-- `cancel_order`. -/
def cancelOrder (q : WaitingQueues) (p : OrderPool) (i : Id) :
    Option (Option (Order × WaitingQueues)) :=
  if i ∉ q.hashLow then
    (q.high.cancelOrder p i).map fun r => r.map fun (o, high) => (o, { q with high := high })
  else
    (q.low.cancelOrder p i).map fun r => r.map fun (o, low) =>
      (o, { q with low := low, hashLow := q.hashLow.erase i })

/-- `update_order`. -/
def updateOrder (q : WaitingQueues) (p : OrderPool) (i : Id) (amount : ℤ) :
    Option (Option Id × WaitingQueues × OrderPool) :=
  if i ∉ q.hashLow then
    (q.high.updateOrder p i amount).map fun (j, high, p) => (j, { q with high := high }, p)
  else
    (q.low.updateOrder p i amount).map fun (j, low, p) =>
      (j, { q with low := low, hashLow := q.hashLow ∪ j.toFinset }, p)

/-- `match`. -/
def «match» (t : MatchTerms) (fuel : ℕ) (q : WaitingQueues) (x : Matching) :
    Option (WaitingQueues × Matching) := do
  let (high, x) ← q.high.match t fuel x
  let q := { q with high := high }
  if x.amountLeft = 0 then return (q, x)
  let (low, x) ← q.low.match t fuel x
  return ({ q with low := low }, x)

end WaitingQueues

end AcCore.Tex.Cex
