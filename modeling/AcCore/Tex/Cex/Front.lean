import AcCore.Lib.Keyed
import AcCore.Tex.Cex.WaitingQueue

/-!
# Fronts

All orders of a market that offer the same currency: one pair of waiting queues
for each rate, the pair with the best rate for the other side first.
-/

namespace AcCore.Tex.Cex

open Lib

variable [Rounding]

/-- `market::ruler_def`, without the reference rate that nothing reads. -/
structure RulerDef where
  min : ℤ
  max : ℤ
  increment : ℤ
  deriving DecidableEq, Repr

namespace RulerDef

/-- `update`. -/
def update (min max increment : ℤ) : RulerDef :=
  let min := min - min.tmod increment
  let max := max - max.tmod increment
  let min := if min < increment then increment else min
  ⟨min, if max < min then min else max, increment⟩

/-- Whether `generate_rates` lists the rate. -/
def Lists (d : RulerDef) (r : ℤ) : Prop :=
  d.min ≤ r ∧ r ≤ d.max ∧ (r - d.min) % d.increment = 0

/-- Whether a ruler lists a rate is decided by its bounds and its increment. -/
instance (d : RulerDef) (r : ℤ) : Decidable (d.Lists r) :=
  inferInstanceAs (Decidable (_ ∧ _ ∧ _))

end RulerDef

/-- `front`. The list has the queues of the heap, the top first; the table
`_queues_by_rate` leads from a rate to the queue of this rate in the heap, and
`_queues_by_order` from an order to the rate of its queue. -/
structure Front where
  curid : Cur
  invertPriority : Bool
  queues : List WaitingQueues
  queuesByRate : Finset ℤ
  queuesByOrder : Table Id ℤ

namespace Front

/-- The constructor. -/
def create (curid : Cur) (invertPriority : Bool) : Front := ⟨curid, invertPriority, [], ∅, ∅⟩

/-- The queue of a rate in the heap. -/
def queue (f : Front) (r : ℤ) : Option WaitingQueues := Keyed.get WaitingQueues.getRate f.queues r

/-- Writes the queue of its rate. -/
def setQueue (f : Front) (q : WaitingQueues) : Front :=
  { f with queues := Keyed.put WaitingQueues.getRate f.queues q }

/-- Pushes a queue onto the heap. -/
def emplaceQueue (f : Front) (q : WaitingQueues) : Front :=
  { f with
    queues := f.queues.orderedInsert (fun q q' => q.high.compare q'.high.rate) q
    queuesByRate := insert q.getRate f.queuesByRate }

/-- `get_queue_rate`: whether there is a queue of the rate, after one was made
for a valid rate that has none. -/
def getQueueRate (f : Front) (validRates : RulerDef) (r : ℤ) : Front × Bool :=
  if r ∈ f.queuesByRate then (f, true)
  else if validRates.Lists r then (f.emplaceQueue (WaitingQueues.create r f.invertPriority), true)
  else (f, false)

/-- `new_order`, and `new_order_low` for low priority; no id when the rate or
the amount is refused. -/
def newOrder (f : Front) (validRates : RulerDef) (priLow : Bool) (p : OrderPool)
    (rate amount : ℤ) (weak buy : Bool) : Option (Option Id × Front × OrderPool) :=
  match f.getQueueRate validRates rate with
  | (f, false) => some (none, f, p)
  | (f, true) => (f.queue rate).map fun q =>
    match q.newOrder priLow p amount weak buy with
    | (none, _, p) => (none, f, p)
    | (some i, q, p) =>
      (some i, { f.setQueue q with queuesByOrder := Table.emplace i rate f.queuesByOrder }, p)

/-- The loop of `trim`: queues without a value leave the top of the heap. -/
def trimQueues : List WaitingQueues → Finset ℤ → Option (List WaitingQueues × Finset ℤ)
  | [], rates => some ([], rates)
  | q :: qs, rates =>
    if q.hasValue then some (q :: qs, rates)
    else if q.getRate ∈ rates then trimQueues qs (rates.erase q.getRate)
    else none

/-- `trim`; `none` when a queue of the heap is not found in the table. -/
def trim (f : Front) : Option Front :=
  (trimQueues f.queues f.queuesByRate).map fun (queues, rates) =>
    { f with queues := queues, queuesByRate := rates }

/-- `has_order`. -/
def hasOrder (f : Front) (i : Id) : Bool := i ∈ f.queuesByOrder

/-- `cancel_order`: the order, and the front without it. -/
def cancelOrder (f : Front) (p : OrderPool) (i : Id) : Option (Option (Order × Front)) :=
  match f.queuesByOrder.lookup i with
  | none => some none
  | some r => do
    let q ← f.queue r
    match ← q.cancelOrder p i with
    | none => return none
    | some (o, q) =>
      let f ← { f.setQueue q with queuesByOrder := f.queuesByOrder.erase i }.trim
      return some (o, f)

/-- `update_order`: the id of the new order, if one is needed. -/
def updateOrder (f : Front) (p : OrderPool) (i : Id) (amount : ℤ) :
    Option (Option Id × Front × OrderPool) :=
  if amount < 1 then some (none, f, p)
  else
    match f.queuesByOrder.lookup i with
    | none => some (none, f, p)
    | some r => do
      let q ← f.queue r
      let (j, q, p) ← q.updateOrder p i amount
      let f := f.setQueue q
      match j with
      | none => return (none, f, p)
      | some j => return (some j, { f with queuesByOrder := Table.emplace j r f.queuesByOrder }, p)

/-- `test_match`. -/
def testMatch (f : Front) (limitRate : ℤ) : Bool :=
  match f.queues with
  | [] => false
  | q :: _ => q.high.compare limitRate && q.hasValue

/-- The loop of `match`: it ends when the top of the heap is the queue that was
matched last. -/
def matchLoop (t : MatchTerms) (limitRate : ℤ) :
    ℕ → Option ℤ → Front → Matching → Option (Front × Matching)
  | 0, _, _, _ => none
  | fuel + 1, prevq, f, x =>
    match f.queues with
    | [] => some (f, x)
    | q :: qs =>
      if prevq = some q.getRate ∨ !q.high.compare limitRate then some (f, x)
      else do
        let (q, x) ← q.match t fuel x
        let f ← { f with queues := q :: qs }.trim
        matchLoop t limitRate fuel (some q.getRate) f x

/-- `match`. -/
def «match» (f : Front) (fuel : ℕ) (p : OrderPool) (w : Wallet) (limitRate amount : ℤ)
    (cur layCur : Cur) (buy : Bool) : Option (Front × Matching) := do
  let (f, x) ← matchLoop ⟨cur, layCur, !f.invertPriority, buy⟩ limitRate fuel none f
    ⟨p, w, ⟨[], [], 0⟩, amount⟩
  let queuesByOrder := x.ms.expiredOrders.foldl (fun t i => t.erase i) f.queuesByOrder
  return ({ f with queuesByOrder := queuesByOrder },
    { x with ms := { x.ms with unmatched := x.amountLeft } })

end Front

end AcCore.Tex.Cex
