import AcCore.Tex.Cex.Matching
import Mathlib.Algebra.Order.Group.Int

/-!
# The waiting queues, consistent

A waiting queue is consistent when its index has the ids of its list, which are
those of orders with a value, and when it caches the sum of these values. This
file proves that the operations of a queue, and of a pair of queues, keep this,
and that a match is made of rounds.
-/

namespace AcCore.Tex.Cex

open Lib

/-- The value of an order, 0 when there is none. -/
def OrderPool.valueOf (p : OrderPool) (i : Id) : ℤ := Table.valueAt Order.value p.live i

/-- The value of an order object that is in the pool. -/
theorem OrderPool.valueOf_eq {p : OrderPool} {i : Id} {o : Order}
    (h : p.live.lookup i = some o) : p.valueOf i = o.value := Table.valueAt_of_lookup h

/-- The order has the same value in both pools, if there is one. -/
def OrderPool.SameValue (p p' : OrderPool) (i : Id) : Prop :=
  (p'.live.lookup i).map Order.value = (p.live.lookup i).map Order.value

/-- Pools with the same object at `i` give it the same value. -/
theorem OrderPool.SameValue.of_eq {p p' : OrderPool} {i : Id}
    (h : p'.live.lookup i = p.live.lookup i) : p.SameValue p' i := congrArg _ h

/-- An order object of the first pool is in the second, with its value. -/
theorem OrderPool.SameValue.exists {p p' : OrderPool} {i : Id} {o : Order}
    (h : p.SameValue p' i) (ho : p.live.lookup i = some o) :
    ∃ o', p'.live.lookup i = some o' ∧ o'.value = o.value := by
  rw [OrderPool.SameValue, ho, Option.map_some, Option.map_eq_some_iff] at h
  exact h

/-- `SameValue` in terms of `valueOf`. -/
theorem OrderPool.SameValue.valueOf {p p' : OrderPool} {i : Id} (h : p.SameValue p' i) :
    p'.valueOf i = p.valueOf i := by
  unfold OrderPool.SameValue at h
  unfold OrderPool.valueOf Table.valueAt
  cases ho : p.live.lookup i with
  | none =>
    rw [ho, Option.map_none, Option.map_eq_none_iff] at h
    rw [h]
  | some o =>
    obtain ⟨o', ho', hvalue⟩ := OrderPool.SameValue.exists h ho
    simp [ho', hvalue]

/-- The value of an order depends only on its object. -/
theorem OrderPool.valueOf_congr {p p' : OrderPool} {i : Id}
    (h : p'.live.lookup i = p.live.lookup i) : p'.valueOf i = p.valueOf i :=
  (OrderPool.SameValue.of_eq h).valueOf

/-! ## One queue -/

namespace WaitingQueue

/-- The orders of a queue with their rate. -/
def listing (q : WaitingQueue) : List (ℤ × Id) := q.orders.map fun i => (q.rate, i)

/-- The ids that a queue lists are its orders, in their order. -/
@[simp] theorem map_snd_listing (q : WaitingQueue) : q.listing.map Prod.snd = q.orders := by
  simp [listing]

/-- The queue is consistent. -/
structure Ok (p : OrderPool) (q : WaitingQueue) : Prop where
  hash : ∀ i, i ∈ q.hash ↔ i ∈ q.orders
  nodup : q.orders.Nodup
  live : ∀ i ∈ q.orders, ∃ o, p.live.lookup i = some o ∧ 1 ≤ o.value
  value : q.value = (q.orders.map p.valueOf).sum

variable {p p' : OrderPool} {q : WaitingQueue} {i : Id}

/-- A new queue is well formed. -/
theorem Ok.create (p : OrderPool) (rate : ℤ) (invertPriority : Bool) :
    Ok p (create rate invertPriority) :=
  ⟨by simp [WaitingQueue.create], by simp [WaitingQueue.create], by simp [WaitingQueue.create],
    by simp [WaitingQueue.create]⟩

/-- A queue looks at the values of its own orders only. -/
theorem Ok.congr_value (hq : q.Ok p) (h : ∀ i ∈ q.orders, p.SameValue p' i) : q.Ok p' where
  hash := hq.hash
  nodup := hq.nodup
  live i hi := by
    obtain ⟨o, ho, hpos⟩ := hq.live i hi
    obtain ⟨o', ho', hvalue⟩ := (h i hi).exists ho
    exact ⟨o', ho', hvalue ▸ hpos⟩
  value := by
    rw [hq.value, List.map_congr_left fun i hi => (h i hi).valueOf.symm]

/-- A queue stays well formed when the objects of its orders stay. -/
theorem Ok.congr (hq : q.Ok p) (h : ∀ i ∈ q.orders, p'.live.lookup i = p.live.lookup i) :
    q.Ok p' := hq.congr_value fun i hi => .of_eq (h i hi)

/-- No order that waits in a queue is empty. -/
theorem Ok.one_le_valueOf (hq : q.Ok p) (hi : i ∈ q.orders) : 1 ≤ p.valueOf i := by
  obtain ⟨o, ho, hpos⟩ := hq.live i hi
  rwa [OrderPool.valueOf_eq ho]

/-- The cached value is 0 for an empty queue only. -/
theorem Ok.value_eq_zero_iff (hq : q.Ok p) : q.value = 0 ↔ q.orders = [] := by
  constructor
  · intro h
    by_contra hne
    obtain ⟨i, hi⟩ := List.exists_mem_of_ne_nil _ hne
    have hnonneg : ∀ v ∈ q.orders.map p.valueOf, 0 ≤ v := by
      intro v hv
      obtain ⟨j, hj, rfl⟩ := List.mem_map.mp hv
      have := hq.one_le_valueOf hj
      omega
    have hle := List.single_le_sum hnonneg _ (List.mem_map_of_mem hi)
    have hone := hq.one_le_valueOf hi
    have hvalue := hq.value
    omega
  · intro h
    rw [hq.value, h]
    rfl

/-- A new order of the pool at the end of the queue. -/
theorem Ok.push (hq : q.Ok p) (hnew : i ∉ q.orders) {o : Order}
    (ho : p.live.lookup i = some o) (hpos : 1 ≤ o.value) : (q.push i o.value).Ok p where
  hash j := by simp [WaitingQueue.push, hq.hash, or_comm]
  nodup := by
    simpa [WaitingQueue.push, List.nodup_append] using ⟨hq.nodup, fun j hj hji => hnew (hji ▸ hj)⟩
  live j hj := by
    rcases List.mem_append.mp hj with hj | hj
    · exact hq.live j hj
    · obtain rfl := List.mem_singleton.mp hj
      exact ⟨o, ho, hpos⟩
  value := by simp [WaitingQueue.push, hq.value, OrderPool.valueOf_eq ho]

/-- The queue without one of its orders. -/
def remove (q : WaitingQueue) (i : Id) (value : ℤ) : WaitingQueue :=
  { q with orders := q.orders.erase i, hash := q.hash.erase i, value := q.value - value }

/-- Erasing one element takes its term from the sum. -/
theorem sum_erase {f : Id → ℤ} {l : List Id} (hi : i ∈ l) :
    ((l.erase i).map f).sum = (l.map f).sum - f i := by
  have := ((List.perm_cons_erase hi).map f).sum_eq
  rw [List.map_cons, List.sum_cons] at this
  omega

/-- Cancelling an order that waits removes it with its value. -/
theorem cancelOrder_of_mem (hhash : i ∈ q.hash) (hi : i ∈ q.orders) {o : Order}
    (ho : p.live.lookup i = some o) :
    q.cancelOrder p i = some (some (o, q.remove i o.value)) := by
  simp [cancelOrder, hhash, hi, ho, WaitingQueue.remove]

/-- What `cancel_order` returns. -/
theorem cancelOrder_eq (hq : q.Ok p) {r : Option (Order × WaitingQueue)}
    (h : q.cancelOrder p i = some r) :
    (r = none ∧ i ∉ q.orders) ∨
      ∃ o, p.live.lookup i = some o ∧ i ∈ q.orders ∧ r = some (o, q.remove i o.value) := by
  by_cases hi : i ∈ q.orders
  · obtain ⟨o, ho, -⟩ := hq.live i hi
    rw [cancelOrder_of_mem ((hq.hash i).mpr hi) hi ho] at h
    exact Or.inr ⟨o, ho, hi, (Option.some.inj h).symm⟩
  · rw [cancelOrder, if_pos (by simpa [hq.hash] using hi)] at h
    exact Or.inl ⟨(Option.some.inj h).symm, hi⟩

/-- A queue without one of its orders is well formed. -/
theorem Ok.remove (hq : q.Ok p) {o : Order} (ho : p.live.lookup i = some o) (hi : i ∈ q.orders) :
    (q.remove i o.value).Ok p where
  hash j := by
    simp only [WaitingQueue.remove, Finset.mem_erase, hq.hash]
    rw [hq.nodup.mem_erase_iff]
  nodup := hq.nodup.erase i
  live j hj := hq.live j (List.mem_of_mem_erase hj)
  value := by
    simp only [WaitingQueue.remove]
    rw [sum_erase hi, hq.value, OrderPool.valueOf_eq ho]

/-- What the values of other orders come to stays when one order changes. -/
theorem sum_valueOf_set {l : List Id} (hl : l.Nodup) (hi : i ∈ l) {o : Order} :
    (l.map (p.set i o).valueOf).sum = (l.map p.valueOf).sum - p.valueOf i + o.value := by
  have hperm := List.perm_cons_erase hi
  have hafter := (hperm.map (p.set i o).valueOf).sum_eq
  have hbefore := (hperm.map p.valueOf).sum_eq
  have hsame : (l.erase i).map (p.set i o).valueOf = (l.erase i).map p.valueOf := by
    apply List.map_congr_left
    intro j hj
    have hne : j ≠ i := fun hji => hl.not_mem_erase (hji ▸ hj)
    exact OrderPool.valueOf_congr (p.lookup_set_of_ne o hne)
  rw [hafter, hbefore, List.map_cons, List.map_cons, List.sum_cons, List.sum_cons, hsame,
    OrderPool.valueOf_eq (p.lookup_set_self i o)]
  omega

/-- A change of the value of one order, with the cached value. -/
theorem Ok.set (hq : q.Ok p) (hi : i ∈ q.orders) {o o' : Order} (ho : p.live.lookup i = some o)
    (hpos : 1 ≤ o'.value) :
    Ok (p.set i o') { q with value := q.value - o.value + o'.value } where
  hash := hq.hash
  nodup := hq.nodup
  live j hj := by
    by_cases hji : j = i
    · subst hji
      exact ⟨o', p.lookup_set_self j o', hpos⟩
    · rw [p.lookup_set_of_ne o' hji]
      exact hq.live j hj
  value := by
    rw [sum_valueOf_set hq.nodup hi, hq.value, OrderPool.valueOf_eq ho]

/-! ### The match -/

/-- What `could_match_provided_big_amount` refuses has no value, or the rate
leaves nothing of it. -/
theorem ne_zero_of_couldMatch [Rounding] {r v : ℤ} {weak buy : Bool}
    (h : Order.couldMatchProvidedBigAmount r v weak buy = some true) : v ≠ 0 := by
  rintro rfl
  unfold Order.couldMatchProvidedBigAmount at h
  rw [Option.map_eq_some_iff] at h
  obtain ⟨cost, hcost, hne⟩ := h
  rw [decide_eq_true_eq] at hne
  apply hne
  cases buy with
  | true => simpa using hcost.symm
  | false =>
    cases weak with
    | true =>
      obtain ⟨-, rfl⟩ := divRate_eq_some hcost
      exact quotient_zero
    | false => exact (Option.some.inj hcost).symm.trans mulRate_zero

variable {t : MatchTerms} {accepts : ℤ → Prop} {x x' : Matching} {q' : WaitingQueue} {fuel : ℕ}
  {l : List Id}

/-- What a pass writes about its order: nothing, or the order with a value that
is not negative. -/
theorem record_pool [Rounding] {o : Order} {ans : Option (MatchItem × Order × Wallet) × ℤ}
    {rate : ℤ}
    (ho : x.pool.live.lookup i = some o) (hpos : 0 ≤ o.value)
    (h : o.match x.wallet rate t.cur t.layCur t.weak t.buy fuel x.amountLeft = some ans) :
    ∃ o', 0 ≤ o'.value ∧ (x.record i ans).pool.live.lookup i = some o' ∧
      ∀ j ≠ i, (x.record i ans).pool.live.lookup j = x.pool.live.lookup j := by
  obtain ⟨result, left⟩ := ans
  cases result with
  | none => exact ⟨o, hpos, ho, fun _ _ => rfl⟩
  | some r =>
    obtain ⟨item, o', w⟩ := r
    exact ⟨o', (Order.match_executed h).nonneg, x.pool.lookup_set_self i o',
      fun j hj => x.pool.lookup_set_of_ne o' hj⟩

/-- A queue whose first order has a new value. -/
theorem Ok.set_first (hq : q.Ok p) (hi : i ∈ q.orders) {o o' : Order}
    (ho : p.live.lookup i = some o) (ho' : p'.live.lookup i = some o') (hpos : 1 ≤ o'.value)
    (hother : ∀ j ≠ i, p'.live.lookup j = p.live.lookup j) :
    Ok p' { q with value := q.value - o.value + o'.value } := by
  refine (hq.set hi ho hpos).congr fun j _ => ?_
  by_cases hji : j = i
  · rw [hji, ho', p.lookup_set_self]
  · rw [hother j hji, p.lookup_set_of_ne o' hji]

/-- One pass of the loop of `match`, at the first order of a consistent queue. -/
theorem matchFirst_spec [Rounding] (hq : q.Ok x.pool) (hl : q.orders = i :: l)
    (hfunds : Order.couldMatchProvidedBigOrdervalue x.wallet q.rate t.weak t.buy fuel
      x.amountLeft = some true) (h : q.matchFirst t fuel i x = some (q', x')) :
    ∃ expired, Touched t q.rate i expired x x' ∧ q'.Ok x'.pool ∧ q'.rate = q.rate ∧
      q'.invertPriority = q.invertPriority ∧ q'.orders = (if expired then l else i :: l) ∧
      ∀ j ≠ i, x'.pool.live.lookup j = x.pool.live.lookup j := by
  have hi : i ∈ q.orders := hl ▸ List.mem_cons_self
  obtain ⟨o, ho, hpos⟩ := hq.live i hi
  simp only [matchFirst, Option.bind_eq_bind, Option.bind_eq_some_iff, ho, Option.some.injEq,
    exists_eq_left'] at h
  obtain ⟨ans, hmatch, o', ho', expires, hdust, h⟩ := h
  obtain ⟨o'', hnonneg, ho'', hother⟩ := record_pool ho (by omega) hmatch
  obtain rfl := Option.some.inj (ho'.symm.trans ho'')
  cases expires with
  | true =>
    obtain ⟨rfl, rfl⟩ := Prod.mk.injEq _ _ _ _ |>.mp (Option.some.inj h)
    have hne := ne_zero_of_couldMatch hdust
    exact ⟨false, ⟨fuel, o, ans, o', hfunds, ho, hmatch, ho', hdust, rfl⟩,
      hq.set_first hi ho ho' (by omega) hother, rfl, rfl, hl, hother⟩
  | false =>
    have hcancel := cancelOrder_of_mem (q := { q with value := q.value - o.value + o'.value })
      ((hq.hash i).mpr hi) hi ho'
    dsimp only at h
    rw [hcancel] at h
    obtain ⟨rfl, rfl⟩ := Prod.mk.injEq _ _ _ _ |>.mp (Option.some.inj h)
    refine ⟨true, ⟨fuel, o, ans, o', hfunds, ho, hmatch, ho', hdust, rfl⟩, ?_, rfl, rfl, ?_,
      hother⟩
    · have hremove : (q.remove i o.value).Ok (x.record i ans).pool := by
        refine (hq.remove ho hi).congr fun j hj => hother j ?_
        exact fun hji => hq.nodup.not_mem_erase (hji ▸ hj)
      -- the cached value has taken the new value in and out again
      have hvalue : q.value - o.value + o'.value - o'.value = q.value - o.value := by omega
      simpa [WaitingQueue.remove, Matching.expire, hvalue] using hremove
    · simp [WaitingQueue.remove, hl]

/-- A match of a consistent queue is made of rounds, and it ends with an empty
queue or when the funds do not suffice. -/
theorem match_spec [Rounding] (hq : q.Ok x.pool) (hr : accepts q.rate)
    (h : q.match t fuel x = some (q', x')) :
    Rounds t accepts q.listing x q'.listing x' ∧ q'.Ok x'.pool ∧ q'.rate = q.rate ∧
      q'.invertPriority = q.invertPriority ∧
      (∀ j ∉ q.orders, x'.pool.live.lookup j = x.pool.live.lookup j) ∧
      (q'.orders = [] ∨ ∃ fuel, Order.couldMatchProvidedBigOrdervalue x'.wallet q.rate t.weak t.buy
        fuel x'.amountLeft = some false) := by
  induction fuel generalizing q x with
  | zero => cases h
  | succ fuel ih =>
    cases hl : q.orders with
    | nil =>
      simp only [«match», hl, Option.some.injEq, Prod.mk.injEq] at h
      obtain ⟨rfl, rfl⟩ := h
      exact ⟨.nil _ _, hq, rfl, rfl, fun _ _ => rfl, Or.inl hl⟩
    | cons i l =>
      simp only [«match», hl, Option.bind_eq_bind, Option.bind_eq_some_iff] at h
      obtain ⟨funds, hfunds, h⟩ := h
      cases funds with
      | false =>
        obtain ⟨rfl, rfl⟩ := Prod.mk.injEq _ _ _ _ |>.mp (Option.some.inj h)
        exact ⟨.nil _ _, hq, rfl, rfl, fun _ _ => rfl, Or.inr ⟨fuel, hfunds⟩⟩
      | true =>
        simp only [Option.bind_eq_some_iff] at h
        obtain ⟨⟨q₁, x₁⟩, hfirst, h⟩ := h
        obtain ⟨expired, hround, hq₁, hrate, hinvert, horders, hother⟩ :=
          matchFirst_spec hq hl hfunds hfirst
        obtain ⟨hrounds, hq', hrate', hinvert', hother', hend⟩ :=
          ih hq₁ (hrate ▸ hr) h
        have hlisting : q.listing = (q.rate, i) :: l.map fun j => (q.rate, j) := by
          simp [listing, hl]
        refine ⟨?_, hq', hrate'.trans hrate, hinvert'.trans hinvert, ?_, hrate ▸ hend⟩
        · rw [listing, horders, hrate] at hrounds
          rw [hlisting]
          cases expired with
          | false => exact .touch hr hround hrounds
          | true => exact .expire hr hround hrounds
        · intro j hj
          rw [List.mem_cons, not_or] at hj
          rw [hother' j, hother j hj.1]
          rw [horders]
          cases expired <;> simp [hj]

/-- Where the funds do not suffice nothing is matched. -/
theorem match_of_stuck [Rounding] {fuel' : ℕ}
    (hstuck : Order.couldMatchProvidedBigOrdervalue x.wallet q.rate t.weak t.buy fuel'
      x.amountLeft = some false) (h : q.match t fuel x = some (q', x')) : q' = q ∧ x' = x := by
  cases fuel with
  | zero => cases h
  | succ fuel =>
    cases hl : q.orders with
    | nil =>
      simp only [«match», hl, Option.some.injEq, Prod.mk.injEq] at h
      exact ⟨h.1.symm, h.2.symm⟩
    | cons i l =>
      simp only [«match», hl, Option.bind_eq_bind, Option.bind_eq_some_iff] at h
      obtain ⟨funds, hfunds, h⟩ := h
      obtain rfl := Order.couldMatch_unique hfunds hstuck
      obtain ⟨rfl, rfl⟩ := Prod.mk.injEq _ _ _ _ |>.mp (Option.some.inj h)
      exact ⟨rfl, rfl⟩

/-! ### New orders -/

/-- What `new_order` does, in terms of `push`. -/
theorem newOrder_eq {amount : ℤ} {weak buy : Bool} :
    q.newOrder p amount weak buy =
      if amount < 1 then (none, q, p)
      else (some p.next, q.push p.next amount, (p.newOrder amount weak buy).2) := rfl

/-- A queue with a new order is well formed in the pool that has it. -/
theorem Ok.newOrder (hq : q.Ok p) (hp : p.Ok) {amount : ℤ} {weak buy : Bool} (hpos : 1 ≤ amount) :
    (q.push p.next amount).Ok (p.newOrder amount weak buy).2 := by
  have hnew : p.next ∉ q.orders := by
    intro h
    obtain ⟨o, ho, -⟩ := hq.live _ h
    rw [hp.notMem_next] at ho
    cases ho
  have hq' : q.Ok (p.newOrder amount weak buy).2 := hq.congr fun j hj =>
    p.lookup_newOrder_of_ne amount weak buy fun h => hnew (h ▸ hj)
  exact hq'.push hnew (p.lookup_newOrder_self amount weak buy) hpos

end WaitingQueue

/-- What `order::update` does to the order objects. -/
def OrderPool.resize (p : OrderPool) (i : Id) (o : Order) (amount : ℤ) : Option Id × OrderPool :=
  match (o.update amount).2 with
  | none => (none, p.set i (o.update amount).1)
  | some value =>
    (some p.next, ((p.set i (o.update amount).1).newOrder value o.weak o.buy).2)

namespace OrderPool

variable {p : OrderPool} {i : Id} {o : Order} {amount : ℤ}

/-- An order that does not grow gets the new value in its place. -/
theorem resize_of_le (h : amount ≤ o.value) :
    p.resize i o amount = (none, p.set i { o with value := amount }) := by
  unfold resize Order.update
  by_cases heq : amount = o.value
  · simp [heq]
  · simp [heq, show amount < o.value by omega]

/-- An order that grows leaves the difference to a new object. -/
theorem resize_of_lt (h : o.value < amount) :
    p.resize i o amount =
      (some p.next, ((p.set i o).newOrder (amount - o.value) o.weak o.buy).2) := by
  unfold resize Order.update
  simp [show amount ≠ o.value by omega, show ¬ amount < o.value by omega]

/-- Resizing an order keeps the pool well formed. -/
theorem Ok.resize (hp : p.Ok) (ho : p.live.lookup i = some o) : (p.resize i o amount).2.Ok := by
  by_cases h : amount ≤ o.value
  · rw [resize_of_le h]
    exact hp.set ho rfl
  · rw [resize_of_lt (by omega)]
    exact (hp.set ho rfl).newOrder _ _ _

/-- The new order has the next id. -/
theorem eq_next_of_mem_resize {j : Id} (h : j ∈ (p.resize i o amount).1) : j = p.next := by
  by_cases hle : amount ≤ o.value
  · simp [resize_of_le hle] at h
  · rw [resize_of_lt (by omega)] at h
    exact (Option.some.inj h).symm

/-- Resizing an order never takes back an id. -/
theorem next_le_resize : p.next ≤ (p.resize i o amount).2.next := by
  by_cases hle : amount ≤ o.value
  · rw [resize_of_le hle]
    exact le_rfl
  · rw [resize_of_lt (by omega)]
    exact Nat.le_succ _

/-- The id that resizing hands out is below the next one. -/
theorem lt_next_of_mem_resize {j : Id} (h : j ∈ (p.resize i o amount).1) :
    j < (p.resize i o amount).2.next := by
  by_cases hle : amount ≤ o.value
  · simp [resize_of_le hle] at h
  · rw [eq_next_of_mem_resize h, resize_of_lt (by omega)]
    exact Nat.lt_succ_self _

/-- Resizing an order leaves the other objects as they are. -/
theorem lookup_resize_of_ne {j : Id} (hi : j ≠ i) (hj : j ≠ p.next) :
    (p.resize i o amount).2.live.lookup j = p.live.lookup j := by
  by_cases h : amount ≤ o.value
  · rw [resize_of_le h, lookup_set_of_ne p _ hi]
  · rw [resize_of_lt (by omega)]
    exact ((p.set i o).lookup_newOrder_of_ne _ _ _ hj).trans (p.lookup_set_of_ne o hi)

end OrderPool

namespace WaitingQueue

variable {p : OrderPool} {q : WaitingQueue} {i : Id} {o : Order} {amount : ℤ}

/-- The queue after `update_order`. -/
def resized (q : WaitingQueue) (p : OrderPool) (o : Order) (amount : ℤ) : WaitingQueue :=
  if amount ≤ o.value then { q with value := q.value - o.value + amount }
  else q.push p.next (amount - o.value)

/-- Updating an order that waits, in terms of `resize` and `resized`. -/
theorem updateOrder_eq (hq : q.Ok p) (hi : i ∈ q.orders) (ho : p.live.lookup i = some o)
    (hpos : 1 ≤ amount) :
    q.updateOrder p i amount =
      some ((p.resize i o amount).1, q.resized p o amount, (p.resize i o amount).2) := by
  have hhash : i ∈ q.hash := (hq.hash i).mpr hi
  unfold updateOrder
  rw [if_neg (by omega), if_neg (by simpa using hhash), ho, Option.map_some]
  congr 1
  by_cases h : amount ≤ o.value
  · rw [OrderPool.resize_of_le h, resized, if_pos h]
    by_cases heq : amount = o.value
    · simp [Order.update, heq]
    · simp [Order.update, heq, show amount < o.value by omega]
  · rw [OrderPool.resize_of_lt (by omega), resized, if_neg h]
    simp [Order.update, show amount ≠ o.value by omega, show ¬ amount < o.value by omega,
      OrderPool.newOrder, OrderPool.set]

/-- A queue with a resized order is well formed. -/
theorem Ok.resized (hq : q.Ok p) (hp : p.Ok) (hi : i ∈ q.orders)
    (ho : p.live.lookup i = some o) (hpos : 1 ≤ amount) :
    (q.resized p o amount).Ok (p.resize i o amount).2 := by
  unfold WaitingQueue.resized
  by_cases h : amount ≤ o.value
  · rw [OrderPool.resize_of_le h, if_pos h]
    exact hq.set hi ho hpos
  · rw [OrderPool.resize_of_lt (by omega), if_neg h]
    have hsame : q.Ok (p.set i o) := hq.congr fun j _ => by
      by_cases hji : j = i
      · rw [hji, p.lookup_set_self, ho]
      · exact p.lookup_set_of_ne o hji
    exact hsame.newOrder (hp.set ho rfl) (by omega)

/-- The orders of a queue after `update_order`. -/
theorem orders_resized (q : WaitingQueue) (i : Id) :
    (q.resized p o amount).orders = q.orders ++ (p.resize i o amount).1.toList := by
  unfold WaitingQueue.resized
  by_cases h : amount ≤ o.value
  · rw [OrderPool.resize_of_le h, if_pos h]
    simp
  · rw [OrderPool.resize_of_lt (by omega), if_neg h]
    simp [push]

/-- Resizing an order keeps the priority of its queue. -/
@[simp] theorem invertPriority_resized :
    (q.resized p o amount).invertPriority = q.invertPriority := by
  unfold WaitingQueue.resized
  split_ifs <;> rfl

/-- Resizing an order keeps the rate of its queue. -/
@[simp] theorem rate_resized : (q.resized p o amount).rate = q.rate := by
  unfold WaitingQueue.resized
  split_ifs <;> rfl

end WaitingQueue

/-! ## A pair of queues -/

namespace WaitingQueues

/-- The orders of both queues with their rate, those of high priority first. -/
def listing (q : WaitingQueues) : List (ℤ × Id) := q.high.listing ++ q.low.listing

/-- The pair is consistent: the index of the low priority has the orders of low
priority and none of high priority. -/
structure Ok (p : OrderPool) (q : WaitingQueues) : Prop where
  high : q.high.Ok p
  low : q.low.Ok p
  rate : q.low.rate = q.high.rate
  mem_hashLow : ∀ i ∈ q.low.orders, i ∈ q.hashLow
  notMem_hashLow : ∀ i ∈ q.high.orders, i ∉ q.hashLow
  hashLow_lt : ∀ i ∈ q.hashLow, i < p.next

variable {p p' : OrderPool} {q q' : WaitingQueues} {i : Id} {r : ℤ}

/-- The orders that a pair of queues lists are those of both, at its rate. -/
theorem mem_listing (hq : q.Ok p) :
    (r, i) ∈ q.listing ↔ r = q.getRate ∧ (i ∈ q.high.orders ∨ i ∈ q.low.orders) := by
  simp only [listing, WaitingQueue.listing, List.mem_append, List.mem_map, Prod.mk.injEq,
    getRate, hq.rate]
  constructor
  · rintro (⟨j, hj, rfl, rfl⟩ | ⟨j, hj, rfl, rfl⟩)
    · exact ⟨rfl, Or.inl hj⟩
    · exact ⟨rfl, Or.inr hj⟩
  · rintro ⟨rfl, hi | hi⟩
    · exact Or.inl ⟨i, hi, rfl, rfl⟩
    · exact Or.inr ⟨i, hi, rfl, rfl⟩

/-- A pair of queues lists the orders of the high queue, then those of the low one. -/
@[simp] theorem map_snd_listing (q : WaitingQueues) :
    q.listing.map Prod.snd = q.high.orders ++ q.low.orders := by
  simp [listing]

/-- A new pair of queues is well formed. -/
theorem Ok.create (p : OrderPool) (rate : ℤ) (invertPriority : Bool) :
    Ok p (create rate invertPriority) :=
  ⟨WaitingQueue.Ok.create p rate invertPriority, WaitingQueue.Ok.create p rate invertPriority,
    rfl, by simp [WaitingQueues.create, WaitingQueue.create],
    by simp [WaitingQueues.create, WaitingQueue.create], by simp [WaitingQueues.create]⟩

/-- A new pair of queues lists nothing. -/
@[simp] theorem listing_create (rate : ℤ) (invertPriority : Bool) :
    (create rate invertPriority).listing = [] := rfl

/-- A pair looks at the values of its own orders only. -/
theorem Ok.congr_value (hq : q.Ok p) (hnext : p.next ≤ p'.next)
    (h : ∀ i ∈ q.listing.map Prod.snd, p.SameValue p' i) : q.Ok p' where
  high := hq.high.congr_value fun i hi => h i (by simp [hi])
  low := hq.low.congr_value fun i hi => h i (by simp [hi])
  rate := hq.rate
  mem_hashLow := hq.mem_hashLow
  notMem_hashLow := hq.notMem_hashLow
  hashLow_lt i hi := (hq.hashLow_lt i hi).trans_le hnext

/-- A pair of queues stays well formed when the objects of its orders stay. -/
theorem Ok.congr (hq : q.Ok p) (hnext : p.next ≤ p'.next)
    (h : ∀ i ∈ q.listing.map Prod.snd, p'.live.lookup i = p.live.lookup i) : q.Ok p' :=
  hq.congr_value hnext fun i hi => .of_eq (h i hi)

/-- No order waits in both queues. -/
theorem Ok.disjoint (hq : q.Ok p) (hhigh : i ∈ q.high.orders) : i ∉ q.low.orders :=
  fun hlow => hq.notMem_hashLow i hhigh (hq.mem_hashLow i hlow)

/-- A pair of queues lists no order twice. -/
theorem Ok.nodup (hq : q.Ok p) : (q.listing.map Prod.snd).Nodup := by
  rw [map_snd_listing, List.nodup_append]
  refine ⟨hq.high.nodup, hq.low.nodup, ?_⟩
  rintro i hi _ hj rfl
  exact hq.disjoint hi hj

/-- A pair of queues lists nothing exactly when both queues are empty. -/
theorem listing_eq_nil_iff : q.listing = [] ↔ q.high.orders = [] ∧ q.low.orders = [] := by
  rw [listing, List.append_eq_nil_iff]
  simp [WaitingQueue.listing]

/-- A pair of queues lists something exactly when one of its queues does. -/
theorem listing_ne_nil_iff : q.listing ≠ [] ↔ q.high.orders ≠ [] ∨ q.low.orders ≠ [] := by
  rw [ne_eq, listing_eq_nil_iff, not_and_or]

/-- A pair has a cached value unless it is empty. -/
theorem Ok.hasValue_iff (hq : q.Ok p) : q.hasValue = false ↔ q.listing = [] := by
  rw [hasValue, decide_eq_false_iff_not, not_or, not_not, not_not, hq.high.value_eq_zero_iff,
    hq.low.value_eq_zero_iff, listing_eq_nil_iff]

/-- Every order of a pair has a value. -/
theorem Ok.live (hq : q.Ok p) (hi : (r, i) ∈ q.listing) :
    ∃ o, p.live.lookup i = some o ∧ 1 ≤ o.value := by
  rcases ((mem_listing hq).mp hi).2 with hi | hi
  · exact hq.high.live i hi
  · exact hq.low.live i hi

/-! ### The match -/

variable {t : MatchTerms} {accepts : ℤ → Prop} {fuel : ℕ} {x x' : Matching}

/-- Nothing is matched, or nothing more, for an amount of 0. -/
theorem couldMatch_zero [Rounding] {w : Wallet} {weak buy : Bool} (hr : 0 < r) :
    Order.couldMatchProvidedBigOrdervalue w r weak buy 1 0 = some false := by
  have hzero : Order.toMatch r 0 weak buy = some 0 := by
    cases buy <;> cases weak <;> simp [Order.toMatch, toLay_of_pos hr]
  simp [Order.couldMatchProvidedBigOrdervalue, Order.couldMatchPass, hzero]

/-- A match of a consistent pair is made of rounds, and it ends with an empty
pair, or when the amount is used up or the funds do not suffice. -/
theorem match_spec [Rounding] (hq : q.Ok x.pool) (hp : x.pool.Ok) (hr : accepts q.getRate)
    (h : q.match t fuel x = some (q', x')) :
    Rounds t accepts q.listing x q'.listing x' ∧ q'.Ok x'.pool ∧ q'.getRate = q.getRate ∧
      q'.high.invertPriority = q.high.invertPriority ∧
      (∀ j ∉ q.listing.map Prod.snd, x'.pool.live.lookup j = x.pool.live.lookup j) ∧
      (q'.listing = [] ∨ x'.amountLeft = 0 ∨
        ∃ fuel, Order.couldMatchProvidedBigOrdervalue x'.wallet q.getRate t.weak t.buy
          fuel x'.amountLeft = some false) := by
  simp only [«match», Option.bind_eq_bind, Option.bind_eq_some_iff] at h
  obtain ⟨⟨high, y⟩, hhigh, h⟩ := h
  obtain ⟨hrounds, hhigh', hrate, hinvert, hother, hend⟩ :=
    WaitingQueue.match_spec hq.high hr hhigh
  obtain ⟨hp', hnext⟩ := hrounds.pool hp
  have hsub : ∀ i ∈ high.orders, i ∈ q.high.orders := by
    have hsuffix := hrounds.suffix.map Prod.snd
    simp only [WaitingQueue.map_snd_listing] at hsuffix
    exact fun i hi => hsuffix.mem hi
  have hlow : q.low.Ok y.pool := hq.low.congr fun j hj =>
    hother j fun hmem => hq.disjoint hmem hj
  have hmid : Ok y.pool { q with high := high } :=
    ⟨hhigh', hlow, hq.rate.trans hrate.symm, hq.mem_hashLow,
      fun i hi => hq.notMem_hashLow i (hsub i hi), fun i hi => hnext ▸ hq.hashLow_lt i hi⟩
  have happend := hrounds.append q.low.listing
  split_ifs at h with hzero
  · obtain ⟨rfl, rfl⟩ := Prod.mk.injEq _ _ _ _ |>.mp (Option.some.inj h)
    refine ⟨happend, hmid, hrate, hinvert, fun j hj => ?_, Or.inr (Or.inl hzero)⟩
    rw [map_snd_listing, List.mem_append, not_or] at hj
    exact hother j hj.1
  · simp only [Option.bind_eq_some_iff] at h
    obtain ⟨⟨low, z⟩, hmatchLow, h⟩ := h
    obtain ⟨rfl, rfl⟩ := Prod.mk.injEq _ _ _ _ |>.mp (Option.some.inj h)
    rcases hend with hempty | ⟨fuel', hstuck⟩
    · -- the queue of high priority is exhausted
      have hrLow : accepts q.low.rate := by
        rw [hq.rate]
        exact hr
      obtain ⟨hrounds', hlow', hrate', -, hother', hend'⟩ :=
        WaitingQueue.match_spec hlow hrLow hmatchLow
      have hhighNil : high.listing = [] := by simp [WaitingQueue.listing, hempty]
      rw [hhighNil, List.nil_append] at happend
      have hsub' : ∀ i ∈ low.orders, i ∈ q.low.orders := by
        have hsuffix := hrounds'.suffix.map Prod.snd
        simp only [WaitingQueue.map_snd_listing] at hsuffix
        exact fun i hi => hsuffix.mem hi
      have hok : Ok z.pool ⟨high, low, q.hashLow⟩ :=
        ⟨hhigh'.congr fun j hj => by simp [hempty] at hj, hlow',
          hrate'.trans (hq.rate.trans hrate.symm), fun i hi => hq.mem_hashLow i (hsub' i hi),
          fun i hi => hq.notMem_hashLow i (hsub i hi),
          fun i hi => (hrounds'.pool hp').2 ▸ hnext ▸ hq.hashLow_lt i hi⟩
      refine ⟨?_, hok, hrate, hinvert, fun j hj => ?_, ?_⟩
      · rw [show (WaitingQueues.mk high low q.hashLow).listing = low.listing by
          simp [listing, hhighNil]]
        exact happend.trans hrounds'
      · rw [map_snd_listing, List.mem_append, not_or] at hj
        rw [hother' j hj.2, hother j hj.1]
      · rcases hend' with hnil | hstuck
        · exact Or.inl (by simp [listing, WaitingQueue.listing, hempty, hnil])
        · rw [hq.rate] at hstuck
          exact Or.inr (Or.inr hstuck)
    · rw [← hq.rate] at hstuck
      obtain ⟨rfl, rfl⟩ := WaitingQueue.match_of_stuck hstuck hmatchLow
      refine ⟨happend, hmid, hrate, hinvert, fun j hj => ?_, Or.inr (Or.inr ⟨fuel', ?_⟩)⟩
      · rw [map_snd_listing, List.mem_append, not_or] at hj
        exact hother j hj.1
      · rwa [hq.rate] at hstuck

/-! ### New, cancelled and updated orders -/

/-- An order of less than one unit is refused, and the pool stays. -/
theorem newOrder_refused {amount : ℤ} (priLow weak buy : Bool) (h : amount < 1) :
    (q.newOrder priLow p amount weak buy).1 = none ∧
      (q.newOrder priLow p amount weak buy).2.2 = p := by
  cases priLow <;> simp [newOrder, WaitingQueue.newOrder, h]

/-- A new order joins one of the two queues, with the next id of the pool. -/
theorem newOrder_spec (hq : q.Ok p) (hp : p.Ok) {amount : ℤ} (priLow weak buy : Bool)
    (hpos : 1 ≤ amount) :
    ∃ q', q.newOrder priLow p amount weak buy = (some p.next, q', (p.newOrder amount weak buy).2) ∧
      q'.Ok (p.newOrder amount weak buy).2 ∧ q'.getRate = q.getRate ∧
      q'.high.invertPriority = q.high.invertPriority ∧
      q'.listing.Perm ((q.getRate, p.next) :: q.listing) := by
  have hfresh : ∀ i ∈ q.listing.map Prod.snd, i ≠ p.next := by
    rintro _ hi rfl
    obtain ⟨⟨r, i⟩, hmem, rfl⟩ := List.mem_map.mp hi
    obtain ⟨o, ho, -⟩ := hq.live hmem
    exact absurd (hp _ _ ho).2 (lt_irrefl _)
  have hkeep : q.Ok (p.newOrder amount weak buy).2 :=
    hq.congr (Nat.le_succ _) fun i hi => p.lookup_newOrder_of_ne amount weak buy (hfresh i hi)
  simp only [map_snd_listing, List.mem_append] at hfresh
  have hnotLow : p.next ∉ q.hashLow := fun h => lt_irrefl _ (hq.hashLow_lt _ h)
  cases priLow with
  | false =>
    refine ⟨{ q with high := q.high.push p.next amount }, ?_, ⟨hq.high.newOrder hp hpos, hkeep.low,
      hq.rate, hq.mem_hashLow, ?_, hkeep.hashLow_lt⟩, rfl, rfl, ?_⟩
    · simp [newOrder, WaitingQueue.newOrder_eq, show ¬ amount < 1 by omega]
    · intro i hi
      rcases List.mem_append.mp hi with hi | hi
      · exact hq.notMem_hashLow i hi
      · obtain rfl := List.mem_singleton.mp hi
        exact hnotLow
    · simp [listing, WaitingQueue.listing, WaitingQueue.push, getRate]
  | true =>
    refine ⟨{ q with low := q.low.push p.next amount, hashLow := q.hashLow ∪ {p.next} }, ?_,
      ⟨hkeep.high, hq.low.newOrder hp hpos, hq.rate, ?_, ?_, ?_⟩, rfl, rfl, ?_⟩
    · simp [newOrder, WaitingQueue.newOrder_eq, show ¬ amount < 1 by omega]
    · intro i hi
      rcases List.mem_append.mp hi with hi | hi
      · exact Finset.mem_union_left _ (hq.mem_hashLow i hi)
      · exact Finset.mem_union_right _ (Finset.mem_singleton.mpr (List.mem_singleton.mp hi))
    · intro i hi h
      rcases Finset.mem_union.mp h with h | h
      · exact hq.notMem_hashLow i hi h
      · exact hfresh i (Or.inl hi) (Finset.mem_singleton.mp h)
    · intro i hi
      rcases Finset.mem_union.mp hi with hi | hi
      · exact hkeep.hashLow_lt i hi
      · rw [Finset.mem_singleton.mp hi]
        exact Nat.lt_succ_self _
    · have hlast := (List.perm_append_singleton (q.getRate, p.next)
        (q.high.listing ++ q.low.listing))
      simpa [listing, WaitingQueue.listing, WaitingQueue.push, getRate, hq.rate] using hlast

/-- What `cancel_order` returns. -/
theorem cancelOrder_spec (hq : q.Ok p) {c : Option (Order × WaitingQueues)}
    (h : q.cancelOrder p i = some c) :
    (c = none ∧ ∀ r, (r, i) ∉ q.listing) ∨
      ∃ o q', p.live.lookup i = some o ∧ c = some (o, q') ∧ q'.Ok p ∧ q'.getRate = q.getRate ∧
        q'.high.invertPriority = q.high.invertPriority ∧
        q.listing.Perm ((q.getRate, i) :: q'.listing) := by
  unfold cancelOrder at h
  by_cases hlow : i ∈ q.hashLow
  · rw [if_neg (by simpa using hlow)] at h
    have hnotHigh : i ∉ q.high.orders := fun hhigh => hq.notMem_hashLow i hhigh hlow
    obtain ⟨c', hc', rfl⟩ := Option.map_eq_some_iff.mp h
    rcases WaitingQueue.cancelOrder_eq hq.low hc' with ⟨rfl, hi⟩ | ⟨o, ho, hi, rfl⟩
    · refine Or.inl ⟨rfl, fun r hr => ?_⟩
      rcases ((mem_listing hq).mp hr).2 with hmem | hmem
      · exact hnotHigh hmem
      · exact hi hmem
    · refine Or.inr ⟨o, _, ho, rfl, ⟨hq.high, hq.low.remove ho hi, hq.rate, ?_, ?_, ?_⟩, rfl, rfl,
        ?_⟩
      · intro j hj
        have hne : j ≠ i := fun hji => hq.low.nodup.not_mem_erase (hji ▸ hj)
        exact Finset.mem_erase.mpr ⟨hne, hq.mem_hashLow j (List.mem_of_mem_erase hj)⟩
      · exact fun j hj hmem => hq.notMem_hashLow j hj (Finset.mem_of_mem_erase hmem)
      · exact fun j hj => hq.hashLow_lt j (Finset.mem_of_mem_erase hj)
      · have hperm := (List.perm_cons_erase hi).map fun j => (q.low.rate, j)
        have hmiddle := (hperm.append_left q.high.listing).trans List.perm_middle
        simpa [listing, WaitingQueue.listing, WaitingQueue.remove, getRate, hq.rate] using hmiddle
  · rw [if_pos hlow] at h
    have hnotLow : i ∉ q.low.orders := fun hmem => hlow (hq.mem_hashLow i hmem)
    obtain ⟨c', hc', rfl⟩ := Option.map_eq_some_iff.mp h
    rcases WaitingQueue.cancelOrder_eq hq.high hc' with ⟨rfl, hi⟩ | ⟨o, ho, hi, rfl⟩
    · refine Or.inl ⟨rfl, fun r hr => ?_⟩
      rcases ((mem_listing hq).mp hr).2 with hmem | hmem
      · exact hi hmem
      · exact hnotLow hmem
    · refine Or.inr ⟨o, _, ho, rfl, ⟨hq.high.remove ho hi, hq.low, hq.rate, hq.mem_hashLow, ?_,
        hq.hashLow_lt⟩, rfl, rfl, ?_⟩
      · exact fun j hj => hq.notMem_hashLow j (List.mem_of_mem_erase hj)
      · have hperm := (List.perm_cons_erase hi).map fun j => (q.high.rate, j)
        have happend := hperm.append_right q.low.listing
        simpa [listing, WaitingQueue.listing, WaitingQueue.remove, getRate] using happend

/-- What `update_order` returns for an order of the pair. -/
theorem updateOrder_spec (hq : q.Ok p) (hp : p.Ok) (hi : (r, i) ∈ q.listing) {o : Order}
    (ho : p.live.lookup i = some o) {amount : ℤ} (hpos : 1 ≤ amount) :
    ∃ q', q.updateOrder p i amount =
        some ((p.resize i o amount).1, q', (p.resize i o amount).2) ∧
      q'.Ok (p.resize i o amount).2 ∧ q'.getRate = q.getRate ∧
      q'.high.invertPriority = q.high.invertPriority ∧
      q'.listing.Perm
        ((p.resize i o amount).1.toList.map (fun j => (q.getRate, j)) ++ q.listing) := by
  have hfresh : ∀ j, j ∈ q.high.orders ∨ j ∈ q.low.orders → j ≠ p.next := by
    rintro _ hj rfl
    obtain ⟨o', ho', -⟩ := hq.live ((mem_listing hq).mpr ⟨rfl, hj⟩)
    exact absurd (hp _ _ ho').2 (lt_irrefl _)
  have hnew : ∀ j ∈ (p.resize i o amount).1, j = p.next := fun j =>
    OrderPool.eq_next_of_mem_resize
  have hbound : ∀ j ∈ q.hashLow, j < (p.resize i o amount).2.next := fun j hj =>
    (hq.hashLow_lt j hj).trans_le OrderPool.next_le_resize
  rcases ((mem_listing hq).mp hi).2 with hhigh | hlow
  · have hnotLow := hq.notMem_hashLow i hhigh
    refine ⟨{ q with high := q.high.resized p o amount }, ?_,
      ⟨hq.high.resized hp hhigh ho hpos, ?_, by simpa using hq.rate, hq.mem_hashLow, ?_, hbound⟩,
      by simp [getRate], by simp, ?_⟩
    · rw [updateOrder, if_pos hnotLow, WaitingQueue.updateOrder_eq hq.high hhigh ho hpos]
      rfl
    · refine hq.low.congr fun j hj => OrderPool.lookup_resize_of_ne ?_ (hfresh j (Or.inr hj))
      rintro rfl
      exact hq.disjoint hhigh hj
    · intro j hj
      rw [WaitingQueue.orders_resized _ i, List.mem_append, Option.mem_toList] at hj
      rcases hj with hj | hj
      · exact hq.notMem_hashLow j hj
      · rw [hnew j hj]
        exact fun h => lt_irrefl _ (hq.hashLow_lt _ h)
    · simp only [listing, WaitingQueue.listing, WaitingQueue.orders_resized _ i, List.map_append,
        WaitingQueue.rate_resized, getRate]
      rw [List.append_assoc, ← List.append_assoc]
      exact (List.perm_append_comm.append_right _).trans (by simp)
  · have hnotHigh : i ∉ q.high.orders := fun h => hq.disjoint h hlow
    refine ⟨{ q with
        low := q.low.resized p o amount
        hashLow := q.hashLow ∪ (p.resize i o amount).1.toFinset }, ?_,
      ⟨?_, hq.low.resized hp hlow ho hpos, by simpa using hq.rate, ?_, ?_, ?_⟩, rfl, rfl, ?_⟩
    · rw [updateOrder, if_neg (by simpa using hq.mem_hashLow i hlow),
        WaitingQueue.updateOrder_eq hq.low hlow ho hpos]
      rfl
    · refine hq.high.congr fun j hj => OrderPool.lookup_resize_of_ne ?_ (hfresh j (Or.inl hj))
      rintro rfl
      exact hnotHigh hj
    · intro j hj
      rw [WaitingQueue.orders_resized _ i, List.mem_append, Option.mem_toList] at hj
      rcases hj with hj | hj
      · exact Finset.mem_union_left _ (hq.mem_hashLow j hj)
      · exact Finset.mem_union_right _ (by simpa using hj)
    · intro j hj hmem
      rcases Finset.mem_union.mp hmem with hmem | hmem
      · exact hq.notMem_hashLow j hj hmem
      · exact hfresh j (Or.inl hj) (hnew j (by simpa using hmem))
    · intro j hj
      rcases Finset.mem_union.mp hj with hj | hj
      · exact hbound j hj
      · exact OrderPool.lt_next_of_mem_resize (by simpa using hj)
    · simp only [listing, WaitingQueue.listing, WaitingQueue.orders_resized _ i, List.map_append,
        WaitingQueue.rate_resized, getRate, hq.rate]
      rw [← List.append_assoc]
      exact List.perm_append_comm

end WaitingQueues

end AcCore.Tex.Cex
