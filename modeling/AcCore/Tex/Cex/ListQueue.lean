import AcCore.Lib.Linked
import AcCore.Lib.Run
import AcCore.Tex.Cex.Queues

/-!
# Waiting queues, with the places of their orders

The same queues one level further down: the orders are in a linked list, the
table `_hash` has the iterators, and a queue is written to a file and read from
it. Every operation does what it does to the queues of the other level, and
leaves the three views of the orders in agreement.
-/

namespace AcCore.Tex.Cex

open Lib

/-- `waiting_queue`, with the iterators of `_hash`. -/
structure ListQueue where
  rate : ℤ
  invertPriority : Bool
  list : Linked Id
  hash : Table Id ℕ
  value : ℤ

namespace ListQueue

/-- The constructor. -/
def create (rate : ℤ) (invertPriority : Bool) : ListQueue :=
  ⟨rate, invertPriority, Linked.empty, ∅, 0⟩

/-- `emplace_back` of an order, with its index entry and its value. -/
def push (q : ListQueue) (i : Id) (value : ℤ) : ListQueue :=
  { q with
    list := q.list.pushBack i
    hash := Table.emplace i q.list.next q.hash
    value := q.value + value }

/-- `new_order`; no id when the amount is refused. -/
def newOrder (q : ListQueue) (p : OrderPool) (amount : ℤ) (weak buy : Bool) :
    Option Id × ListQueue × OrderPool :=
  if amount < 1 then (none, q, p)
  else
    let (i, p) := p.newOrder amount weak buy
    (some i, q.push i amount, p)

/-- `_cancel_order`: what the iterator of the id leads to is erased, and the
index entry of the order that was there. -/
def cancelOrder (q : ListQueue) (p : OrderPool) (i : Id) : Option (Option (Order × ListQueue)) :=
  match q.hash.lookup i with
  | none => some none
  | some n => do
    let o ← p.live.lookup (← q.list.get n)
    return some (o, { q with
      list := q.list.erase n
      hash := q.hash.erase o.id
      value := q.value - o.value })

/-- `update_order`: the id of the new order, if one is needed. -/
def updateOrder (q : ListQueue) (p : OrderPool) (i : Id) (amount : ℤ) :
    Option (Option Id × ListQueue × OrderPool) :=
  if amount < 1 then some (none, q, p)
  else
    match q.hash.lookup i with
    | none => some (none, q, p)
    | some n => do
      let j ← q.list.get n
      let o ← p.live.lookup j
      let q := { q with value := q.value - o.value + (o.update amount).1.value }
      let p := p.set j (o.update amount).1
      match (o.update amount).2 with
      | none => return (none, q, p)
      | some value =>
        let (k, p) := p.newOrder value o.weak o.buy
        return (some k, q.push k value, p)

/-- The part of the loop of `match` that comes after the test of the funds. -/
def matchFirst (t : MatchTerms) (fuel : ℕ) (q : ListQueue) (i : Id) (x : Matching) :
    Option (ListQueue × Matching) := do
  let o ← x.pool.live.lookup i
  let ans ← o.match x.wallet q.rate t.cur t.layCur t.weak t.buy fuel x.amountLeft
  let x := x.record i ans
  let o' ← x.pool.live.lookup i
  let q := { q with value := q.value - o.value + o'.value }
  match ← Order.couldMatchProvidedBigAmount q.rate o'.value t.weak t.buy with
  | true => return (q, x)
  | false =>
    let (_, q) ← (q.cancelOrder x.pool o'.id).join
    return (q, x.expire i)

/-- `match`. -/
def «match» (t : MatchTerms) : ℕ → ListQueue → Matching → Option (ListQueue × Matching)
  | 0, _, _ => none
  | fuel + 1, q, x =>
    match q.list.values with
    | [] => some (q, x)
    | i :: _ => do
      match ← Order.couldMatchProvidedBigOrdervalue x.wallet q.rate t.weak t.buy fuel
        x.amountLeft with
      | true =>
        let (q, x) ← q.matchFirst t fuel i x
        q.match t fuel x
      | false => return (q, x)

/-- `_save`: the orders of the list are written, each on a line. The file of an
empty queue is removed. -/
def save (q : ListQueue) (p : OrderPool) : Option (List Order) := q.list.values.mapM p.live.lookup

/-- A line of the file: the constructor of an order from it, which is queued. -/
def loadLine (r : ListQueue × OrderPool) (o : Order) : ListQueue × OrderPool :=
  (r.1.push o.id o.value, r.2.set o.id o)

/-- `load`. -/
def load (q : ListQueue) (p : OrderPool) (file : List Order) : ListQueue × OrderPool :=
  file.foldl loadLine (q, p)

/-- The queue without the places. -/
def toQueue (q : ListQueue) : WaitingQueue :=
  ⟨q.rate, q.invertPriority, q.list.values, q.hash.keys, q.value⟩

/-- The three views of the orders agree. -/
structure Ok (p : OrderPool) (q : ListQueue) : Prop where
  list : q.list.Ok
  index : q.list.IndexedBy q.hash
  queue : q.toQueue.Ok p

variable {p p' : OrderPool} {q q' : ListQueue} {i : Id} {o : Order} {amount : ℤ} {n : ℕ}

/-- A new queue is well formed. -/
theorem Ok.create (p : OrderPool) (rate : ℤ) (invertPriority : Bool) :
    (create rate invertPriority).Ok p where
  list := .empty
  index := .empty
  queue := .create p rate invertPriority

/-! ## One order more, or less -/

/-- Appending to the list is pushing to the queue. -/
theorem toQueue_push (q : ListQueue) (i : Id) (value : ℤ) :
    (q.push i value).toQueue = q.toQueue.push i value := by
  have hkeys : (Table.emplace i q.list.next q.hash).keys = insert i q.hash.keys := by
    ext j
    rw [Finmap.mem_keys, Table.mem_emplace, Finset.mem_insert, Finmap.mem_keys]
  simp [toQueue, push, WaitingQueue.push, hkeys]

/-- A live order at the end of the list. -/
theorem Ok.push (hq : q.Ok p) (hnew : i ∉ q.list.values) (ho : p.live.lookup i = some o)
    (hpos : 1 ≤ o.value) : (q.push i o.value).Ok p where
  list := hq.list.pushBack i
  index := hq.index.pushBack hnew
  queue := by
    rw [toQueue_push]
    exact hq.queue.push hnew ho hpos

/-- The queue without the cell of a place. -/
def remove (q : ListQueue) (n : ℕ) (i : Id) (value : ℤ) : ListQueue :=
  { q with list := q.list.erase n, hash := q.hash.erase i, value := q.value - value }

/-- Unlinking a cell is removing its order. -/
theorem Ok.toQueue_remove (hq : q.Ok p) (hn : (n, i) ∈ q.list.cells) (value : ℤ) :
    (q.remove n i value).toQueue = q.toQueue.remove i value := by
  have hkeys : (q.hash.erase i).keys = q.hash.keys.erase i := Finmap.keys_erase i q.hash
  simp [toQueue, remove, WaitingQueue.remove, hkeys,
    hq.list.values_erase (hq.index.nodup_values hq.list) hn]

/-- Cancelling an order that has a cell unlinks it. -/
theorem cancelOrder_of_cell (hlist : q.list.Ok) (hindex : q.list.IndexedBy q.hash)
    (hn : (n, i) ∈ q.list.cells) (ho : p.live.lookup i = some o) (hid : o.id = i) :
    q.cancelOrder p i = some (some (o, q.remove n i o.value)) := by
  unfold cancelOrder
  rw [(hindex i n).mpr hn]
  simp [hlist.get_eq hn, ho, hid, remove]

/-- What `_cancel_order` returns: nothing for an id that is not queued, else the
order, and the queue without its cell. -/
theorem Ok.cancelOrder_eq (hq : q.Ok p) (hp : p.Ok) (i : Id) :
    (i ∉ q.list.values ∧ q.cancelOrder p i = some none) ∨
      ∃ n o, (n, i) ∈ q.list.cells ∧ p.live.lookup i = some o ∧
        q.cancelOrder p i = some (some (o, q.remove n i o.value)) := by
  cases hn : q.hash.lookup i with
  | none =>
    refine Or.inl ⟨fun hi => ?_, by rw [cancelOrder, hn]⟩
    exact Finmap.lookup_eq_none.mp hn (hq.index.mem_iff.mpr hi)
  | some n =>
    have hcell := (hq.index i n).mp hn
    obtain ⟨o, ho, -⟩ := hq.queue.live i (Linked.mem_values.mpr ⟨n, hcell⟩)
    exact Or.inr ⟨n, o, hcell, ho, cancelOrder_of_cell hq.list hq.index hcell ho (hp i o ho).1⟩

/-- A queue without one of its cells is well formed. -/
theorem Ok.remove (hq : q.Ok p) (hn : (n, i) ∈ q.list.cells) (ho : p.live.lookup i = some o) :
    (q.remove n i o.value).Ok p where
  list := hq.list.erase n
  index := hq.index.erase hq.list hn
  queue := by
    rw [hq.toQueue_remove hn]
    exact hq.queue.remove ho (Linked.mem_values.mpr ⟨n, hn⟩)

/-! ## The operations -/

/-- A new order of the list is a new order of the queue. -/
theorem toQueue_newOrder (q : ListQueue) (p : OrderPool) (amount : ℤ) (weak buy : Bool) :
    q.toQueue.newOrder p amount weak buy = ((q.newOrder p amount weak buy).1,
      (q.newOrder p amount weak buy).2.1.toQueue, (q.newOrder p amount weak buy).2.2) := by
  unfold newOrder WaitingQueue.newOrder
  split_ifs
  · rfl
  · exact congrArg (fun r => (some p.next, r, (p.newOrder amount weak buy).2))
      (toQueue_push q _ _).symm

/-- A new order keeps the queue and the pool well formed. -/
theorem Ok.newOrder (hq : q.Ok p) (hp : p.Ok) (amount : ℤ) (weak buy : Bool) :
    (q.newOrder p amount weak buy).2.1.Ok (q.newOrder p amount weak buy).2.2 ∧
      (q.newOrder p amount weak buy).2.2.Ok := by
  unfold ListQueue.newOrder
  split_ifs with hsmall
  · exact ⟨hq, hp⟩
  · have hnew : p.next ∉ q.list.values := by
      intro hi
      obtain ⟨o, ho, -⟩ := hq.queue.live _ hi
      rw [hp.notMem_next] at ho
      cases ho
    refine ⟨⟨hq.list.pushBack _, hq.index.pushBack hnew, ?_⟩, hp.newOrder amount weak buy⟩
    have hqueue : (q.toQueue.push p.next amount).Ok (p.newOrder amount weak buy).2 :=
      hq.queue.newOrder hp (not_lt.mp hsmall)
    rw [← toQueue_push] at hqueue
    exact hqueue

/-- A new order takes back no id. -/
theorem next_le_newOrder (q : ListQueue) (p : OrderPool) (amount : ℤ) (weak buy : Bool) :
    p.next ≤ (q.newOrder p amount weak buy).2.2.next := by
  unfold ListQueue.newOrder
  split_ifs
  · exact le_rfl
  · exact Nat.le_succ _

/-- Updating an order of the list updates it in the queue and keeps everything well formed. -/
theorem Ok.updateOrder {no : Option Id} (hq : q.Ok p) (hp : p.Ok)
    (h : q.updateOrder p i amount = some (no, q', p')) :
    q.toQueue.updateOrder p i amount = some (no, q'.toQueue, p') ∧ q'.Ok p' ∧ p'.Ok ∧
      p.next ≤ p'.next := by
  unfold ListQueue.updateOrder at h
  split_ifs at h with hsmall
  · obtain ⟨rfl, rfl, rfl⟩ : none = no ∧ q = q' ∧ p = p' := by simpa using h
    exact ⟨by rw [WaitingQueue.updateOrder, if_pos hsmall], hq, hp, le_rfl⟩
  cases hn : q.hash.lookup i with
  | none =>
    rw [hn] at h
    obtain ⟨rfl, rfl, rfl⟩ : none = no ∧ q = q' ∧ p = p' := by simpa using h
    have hi : i ∉ q.toQueue.hash := fun hmem =>
      Finmap.lookup_eq_none.mp hn (Finmap.mem_keys.mp hmem)
    exact ⟨by rw [WaitingQueue.updateOrder, if_neg hsmall, if_pos hi], hq, hp, le_rfl⟩
  | some n =>
    have hcell := (hq.index i n).mp hn
    have hi : i ∈ q.toQueue.orders := Linked.mem_values.mpr ⟨n, hcell⟩
    obtain ⟨o, ho, -⟩ := hq.queue.live i hi
    have hpos : 1 ≤ amount := not_lt.mp hsmall
    have heq := WaitingQueue.updateOrder_eq hq.queue hi ho hpos
    have hqueue := hq.queue.resized hp hi ho hpos
    have hpool : (p.resize i o amount).2.Ok := hp.resize ho
    simp only [hn, hq.list.get_eq hcell, ho, Option.bind_eq_bind, Option.bind_some] at h
    have hhash : i ∈ q.toQueue.hash := (hq.queue.hash i).mpr hi
    have hsim : q.toQueue.updateOrder p i amount = some (no, q'.toQueue, p') ∧
        q'.list.Ok ∧ q'.list.IndexedBy q'.hash := by
      rw [WaitingQueue.updateOrder, if_neg hsmall, if_neg (not_not.mpr hhash), ho, Option.map_some]
      cases hup : (o.update amount).2 with
      | none =>
        simp only [hup, Option.pure_def, Option.some.injEq, Prod.mk.injEq] at h
        obtain ⟨rfl, rfl, rfl⟩ := h
        exact ⟨by simp [toQueue], hq.list, hq.index⟩
      | some value =>
        simp only [hup, Option.pure_def, Option.some.injEq, Prod.mk.injEq] at h
        obtain ⟨rfl, rfl, rfl⟩ := h
        refine ⟨?_, hq.list.pushBack _, hq.index.pushBack ?_⟩
        · rw [toQueue_push]
          rfl
        · -- the next id is not queued
          intro hmem
          obtain ⟨o', ho', -⟩ := hq.queue.live _ hmem
          change p.live.lookup p.next = some o' at ho'
          rw [hp.notMem_next] at ho'
          cases ho'
    obtain ⟨hsim, hlist, hindex⟩ := hsim
    have hres : some (no, q'.toQueue, p') = some _ := hsim.symm.trans heq
    obtain ⟨-, hq', hp'⟩ := by simpa only [Option.some.injEq, Prod.mk.injEq] using hres
    refine ⟨hsim, ⟨hlist, hindex, ?_⟩, hp' ▸ hpool, hp' ▸ OrderPool.next_le_resize⟩
    rw [hq', hp']
    exact hqueue

/-! ### The match -/

variable {t : MatchTerms} {fuel : ℕ} {x x' : Matching} {l : List Id}

/-- A pass at the first order: what it does to the queue without the places, and
that the places stay in agreement. -/
theorem Ok.matchFirst (hq : q.Ok x.pool) (hp : x.pool.Ok) (hl : q.list.values = i :: l)
    (h : q.matchFirst t fuel i x = some (q', x')) :
    q.toQueue.matchFirst t fuel i x = some (q'.toQueue, x') ∧ q'.list.Ok ∧
      q'.list.IndexedBy q'.hash := by
  have hi : i ∈ q.list.values := hl ▸ List.mem_cons_self
  obtain ⟨n, hcell⟩ := Linked.mem_values.mp hi
  simp only [ListQueue.matchFirst, Option.bind_eq_bind, Option.bind_eq_some_iff] at h
  obtain ⟨o, ho, ans, hmatch, o', ho', expires, hdust, h⟩ := h
  have hid : o'.id = i := by
    obtain ⟨result, left⟩ := ans
    cases result with
    | none => exact (hp i o' ho').1
    | some r =>
      obtain ⟨item, o₂, w⟩ := r
      rw [Matching.record, OrderPool.lookup_set_self] at ho'
      obtain rfl := Option.some.inj ho'
      rw [(Order.match_executed hmatch).order]
      exact (hp i o ho).1
  have hmatch' : o.match x.wallet q.toQueue.rate t.cur t.layCur t.weak t.buy fuel x.amountLeft =
      some ans := hmatch
  have hdust' : Order.couldMatchProvidedBigAmount q.toQueue.rate o'.value t.weak t.buy =
      some expires := hdust
  simp only [WaitingQueue.matchFirst, Option.bind_eq_bind, ho, Option.bind_some, hmatch', ho',
    hdust']
  cases expires with
  | true =>
    obtain ⟨rfl, rfl⟩ := Prod.mk.inj (Option.some.inj h)
    exact ⟨rfl, hq.list, hq.index⟩
  | false =>
    -- the order expires: its cell is found through the index
    have hfound := cancelOrder_of_cell (q := { q with value := q.value - o.value + o'.value })
      hq.list hq.index hcell ho' hid
    have hhash : i ∈ q.toQueue.hash := (hq.queue.hash i).mpr hi
    have hcancel := WaitingQueue.cancelOrder_of_mem
      (q := { q.toQueue with value := q.toQueue.value - o.value + o'.value }) hhash hi ho'
    dsimp only at h hfound hcancel ⊢
    rw [hid, hfound] at h
    obtain ⟨rfl, rfl⟩ := Prod.mk.inj (Option.some.inj h)
    refine ⟨?_, hq.list.erase n, hq.index.erase hq.list hcell⟩
    rw [hcancel]
    have hremove := hq.toQueue_remove hcell o.value
    simp only [toQueue, ListQueue.remove, WaitingQueue.remove, WaitingQueue.mk.injEq] at hremove
    simp [toQueue, ListQueue.remove, WaitingQueue.remove, hremove]

/-- A match does what it does to the queue without the places. -/
theorem Ok.match (hq : q.Ok x.pool) (hp : x.pool.Ok) (h : q.match t fuel x = some (q', x')) :
    q.toQueue.match t fuel x = some (q'.toQueue, x') ∧ q'.Ok x'.pool ∧ x'.pool.Ok := by
  induction fuel generalizing q x with
  | zero => cases h
  | succ fuel ih =>
    have horders : q.toQueue.orders = q.list.values := rfl
    cases hl : q.list.values with
    | nil =>
      simp only [ListQueue.match, hl, Option.some.injEq, Prod.mk.injEq] at h
      obtain ⟨rfl, rfl⟩ := h
      exact ⟨by simp [WaitingQueue.match, horders, hl], hq, hp⟩
    | cons i l =>
      simp only [ListQueue.match, hl, Option.bind_eq_bind, Option.bind_eq_some_iff] at h
      obtain ⟨funds, hfunds, h⟩ := h
      cases funds with
      | false =>
        obtain ⟨rfl, rfl⟩ := Prod.mk.inj (Option.some.inj h)
        refine ⟨?_, hq, hp⟩
        simp [WaitingQueue.match, horders, hl, show q.toQueue.rate = q.rate from rfl, hfunds]
      | true =>
        simp only [Option.bind_eq_some_iff] at h
        obtain ⟨⟨q₁, x₁⟩, hfirst, h⟩ := h
        obtain ⟨hsim, hlist, hindex⟩ := hq.matchFirst hp hl hfirst
        obtain ⟨expired, hround, hq₁, -⟩ := WaitingQueue.matchFirst_spec hq.queue hl hfunds hsim
        obtain ⟨items, -, -, hpool, -⟩ := hround.cases hp
        obtain ⟨hrest, hq', hp'⟩ := ih ⟨hlist, hindex, hq₁⟩ (hpool ▸ hp.fill items) h
        refine ⟨?_, hq', hp'⟩
        simp [WaitingQueue.match, horders, hl, show q.toQueue.rate = q.rate from rfl, hfunds, hsim,
          hrest]

/-! ### The file -/

/-- A queue stays well formed when the objects of its orders stay. -/
theorem Ok.congr (hq : q.Ok p) (h : ∀ i ∈ q.list.values, p'.live.lookup i = p.live.lookup i) :
    q.Ok p' := ⟨hq.list, hq.index, hq.queue.congr h⟩

/-- What can be loaded: orders with a value, and with ids of their own that were
drawn before. -/
structure Loadable (p : OrderPool) (file : List Order) : Prop where
  nodup : (file.map Order.id).Nodup
  drawn : ∀ o ∈ file, o.id < p.next
  value : ∀ o ∈ file, 1 ≤ o.value

/-- A file that can be loaded can be loaded when more ids are drawn. -/
theorem Loadable.mono {file : List Order} (h : Loadable p file) (hnext : p.next ≤ p'.next) :
    Loadable p' file := ⟨h.nodup, fun o ho => (h.drawn o ho).trans_le hnext, h.value⟩

/-- The orders of a file are queued in turn. -/
theorem Ok.load {file : List Order} (hq : q.Ok p) (hp : p.Ok) (hfile : Loadable p file)
    (hnew : ∀ o ∈ file, o.id ∉ q.list.values) :
    (q.load p file).1.Ok (q.load p file).2 ∧ (q.load p file).2.Ok ∧
      (q.load p file).2.next = p.next := by
  induction file generalizing q p with
  | nil => exact ⟨hq, hp, rfl⟩
  | cons o file ih =>
    have hid := hfile.nodup
    rw [List.map_cons, List.nodup_cons] at hid
    have hset : (p.set o.id o).Ok := by
      intro j o' ho'
      by_cases hj : j = o.id
      · subst hj
        rw [OrderPool.lookup_set_self] at ho'
        obtain rfl := Option.some.inj ho'
        exact ⟨rfl, hfile.drawn o List.mem_cons_self⟩
      · rw [OrderPool.lookup_set_of_ne _ _ hj] at ho'
        exact hp j o' ho'
    have hfirst := hnew o List.mem_cons_self
    have hqueue : q.Ok (p.set o.id o) := hq.congr fun j hj =>
      p.lookup_set_of_ne o fun hji => hfirst (hji ▸ hj)
    have hpush := hqueue.push hfirst (p.lookup_set_self _ _) (hfile.value o List.mem_cons_self)
    refine ih hpush hset ⟨hid.2, fun o' ho' => hfile.drawn o' (List.mem_cons_of_mem _ ho'),
      fun o' ho' => hfile.value o' (List.mem_cons_of_mem _ ho')⟩ fun o' ho' hmem => ?_
    rw [ListQueue.push, Linked.values_pushBack, List.mem_append, List.mem_singleton] at hmem
    rcases hmem with hmem | heq
    · exact hnew o' (List.mem_cons_of_mem _ ho') hmem
    · exact hid.1 (heq ▸ List.mem_map_of_mem ho')

/-- What is saved can be loaded, and it has the orders of the queue in order. -/
theorem Ok.save (hq : q.Ok p) (hp : p.Ok) :
    ∃ file, q.save p = some file ∧ file.map Order.id = q.list.values ∧ Loadable p file := by
  have hlines : ∀ l : List Id, (∀ i ∈ l, ∃ o, p.live.lookup i = some o ∧ 1 ≤ o.value) →
      ∃ file, l.mapM p.live.lookup = some file ∧ file.map Order.id = l ∧
        ∀ o ∈ file, o.id < p.next ∧ 1 ≤ o.value := by
    intro l hl
    induction l with
    | nil => exact ⟨[], rfl, rfl, by simp⟩
    | cons i l ih =>
      obtain ⟨o, ho, hpos⟩ := hl i List.mem_cons_self
      obtain ⟨file, hfile, hids, hlive⟩ := ih fun j hj => hl j (List.mem_cons_of_mem _ hj)
      obtain ⟨hid, hnext⟩ := hp i o ho
      refine ⟨o :: file, by simp [List.mapM_cons, ho, hfile], by rw [List.map_cons, hid, hids], ?_⟩
      intro o' ho'
      rcases List.mem_cons.mp ho' with rfl | ho'
      · exact ⟨hid ▸ hnext, hpos⟩
      · exact hlive o' ho'
  obtain ⟨file, hfile, hids, hlive⟩ := hlines q.list.values hq.queue.live
  refine ⟨file, hfile, hids, ?_, fun o ho => (hlive o ho).1, fun o ho => (hlive o ho).2⟩
  rw [hids]
  exact hq.index.nodup_values hq.list

end ListQueue

/-! ## Runs of one queue -/

/-- A queue, the order objects, and the file of the queue. -/
structure QueueState where
  queue : ListQueue
  pool : OrderPool
  file : List Order

/-- What is called on a queue. An order is made elsewhere when the counter of
the ids gives an id to an order of another queue. -/
inductive QueueOp where
  | newOrder (amount : ℤ) (weak buy : Bool)
  | setData (i : Id) (acid : Id) (receivedCur paidCur : Cur) (rate : ℤ) (weakCur strongCur : Cur)
  | cancelOrder (i : Id) (save : Bool)
  | updateOrder (i : Id) (amount : ℤ)
  | match (t : MatchTerms) (fuel : ℕ) (w : Wallet) (amount : ℤ)
  | load
  | elsewhere (amount : ℤ) (weak buy : Bool)

namespace QueueState

/-- `save`: nothing happens without persistence. -/
def saved (persistence : Bool) (s : QueueState) : Option QueueState :=
  if persistence then (s.queue.save s.pool).map fun file => { s with file := file } else some s

/-- One call. A queue is loaded when the program starts: right after it was
constructed, and before there are other orders. -/
def step (persistence : Bool) (s : QueueState) : QueueOp → Option QueueState
  | .newOrder amount weak buy =>
    let (_, q, p) := s.queue.newOrder s.pool amount weak buy
    some { s with queue := q, pool := p }
  | .setData i acid receivedCur paidCur rate weakCur strongCur => do
    let o ← s.pool.live.lookup i
    let o := o.setData acid receivedCur paidCur rate weakCur strongCur
    { s with pool := s.pool.set i o }.saved persistence
  | .cancelOrder i save => do
    match ← s.queue.cancelOrder s.pool i with
    | none => return s
    | some (_, q) =>
      let s := { s with queue := q }
      if save then s.saved persistence else return s
  | .updateOrder i amount => do
    let (_, q, p) ← s.queue.updateOrder s.pool i amount
    let found := decide (1 ≤ amount ∧ i ∈ s.queue.hash)
    let s := { s with queue := q, pool := p }
    if found then s.saved persistence else return s
  | .match t fuel w amount => do
    let (q, x) ← s.queue.match t fuel ⟨s.pool, w, ⟨[], [], 0⟩, amount⟩
    { s with queue := q, pool := x.pool }.saved persistence
  | .load =>
    let (q, p) :=
      (ListQueue.create s.queue.rate s.queue.invertPriority).load ⟨∅, s.pool.next⟩ s.file
    some { s with queue := q, pool := p }
  | .elsewhere amount weak buy => some { s with pool := (s.pool.newOrder amount weak buy).2 }

/-- The queue is consistent, and so is what would be loaded. -/
structure Ok (s : QueueState) : Prop where
  queue : s.queue.Ok s.pool
  pool : s.pool.Ok
  file : ListQueue.Loadable s.pool s.file

variable {persistence : Bool} {s s' : QueueState}

/-- Saving is possible, and keeps the queue. -/
theorem Ok.saved (hs : s.Ok) (persistence : Bool) :
    ∃ s', s.saved persistence = some s' ∧ s'.Ok := by
  unfold QueueState.saved
  cases persistence with
  | false => exact ⟨s, rfl, hs⟩
  | true =>
    obtain ⟨file, hsave, -, hloadable⟩ := hs.queue.save hs.pool
    exact ⟨{ s with file := file }, by simp [hsave], hs.queue, hs.pool, hloadable⟩

/-- Saving keeps the state well formed. -/
theorem Ok.of_saved (hs : s.Ok) (h : s.saved persistence = some s') : s'.Ok := by
  obtain ⟨s₁, h₁, hs₁⟩ := hs.saved persistence
  rw [h₁] at h
  exact Option.some.inj h ▸ hs₁

/-- The queue among order objects of which some have other data. -/
theorem Ok.setData (hs : s.Ok) {i : Id} {o : Order} (ho : s.pool.live.lookup i = some o) (acid : Id)
    (receivedCur paidCur : Cur) (rate : ℤ) (weakCur strongCur : Cur) :
    Ok { s with pool := s.pool.set i (o.setData acid receivedCur paidCur rate weakCur strongCur) }
    where
  queue := by
    refine ⟨hs.queue.list, hs.queue.index, hs.queue.queue.congr_value fun j _ => ?_⟩
    by_cases hj : j = i
    · subst hj
      rw [OrderPool.SameValue, OrderPool.lookup_set_self, ho]
      rfl
    · exact .of_eq (s.pool.lookup_set_of_ne _ hj)
  pool := hs.pool.set ho rfl
  file := hs.file.mono le_rfl

/-- An order elsewhere keeps the state well formed. -/
theorem Ok.elsewhere (hs : s.Ok) (amount : ℤ) (weak buy : Bool) :
    Ok { s with pool := (s.pool.newOrder amount weak buy).2 } where
  queue := by
    refine hs.queue.congr fun j hj => s.pool.lookup_newOrder_of_ne amount weak buy ?_
    obtain ⟨o, ho, -⟩ := hs.queue.queue.live j hj
    exact (hs.pool j o ho).2.ne
  pool := hs.pool.newOrder amount weak buy
  file := hs.file.mono (Nat.le_succ _)

/-- What one call preserves. -/
theorem Ok.step {op : QueueOp} (hs : s.Ok) (h : s.step persistence op = some s') : s'.Ok := by
  cases op with
  | newOrder amount weak buy =>
    obtain rfl := Option.some.inj h
    obtain ⟨hqueue, hpool⟩ := hs.queue.newOrder hs.pool amount weak buy
    exact ⟨hqueue, hpool, hs.file.mono (s.queue.next_le_newOrder _ _ _ _)⟩
  | setData i acid receivedCur paidCur rate weakCur strongCur =>
    obtain ⟨o, ho, h⟩ := Option.bind_eq_some_iff.mp h
    exact (hs.setData ho _ _ _ _ _ _).of_saved h
  | cancelOrder i save =>
    rcases hs.queue.cancelOrder_eq hs.pool i with ⟨-, hnone⟩ | ⟨n, o, hcell, ho, hfound⟩
    · simp only [QueueState.step, hnone, Option.bind_eq_bind, Option.bind_some] at h
      exact Option.some.inj h ▸ hs
    · simp only [QueueState.step, hfound, Option.bind_eq_bind, Option.bind_some] at h
      have hs₁ : Ok { s with queue := s.queue.remove n i o.value } :=
        ⟨hs.queue.remove hcell ho, hs.pool, hs.file⟩
      split_ifs at h
      · exact hs₁.of_saved h
      · exact Option.some.inj h ▸ hs₁
  | updateOrder i amount =>
    simp only [QueueState.step, Option.bind_eq_bind, Option.bind_eq_some_iff] at h
    obtain ⟨⟨no, q, p⟩, hupdate, h⟩ := h
    obtain ⟨-, hqueue, hpool, hnext⟩ := hs.queue.updateOrder hs.pool hupdate
    have hs₁ : Ok { s with queue := q, pool := p } := ⟨hqueue, hpool, hs.file.mono hnext⟩
    dsimp only at h
    split_ifs at h
    · exact hs₁.of_saved h
    · exact Option.some.inj h ▸ hs₁
  | «match» t fuel w amount =>
    simp only [QueueState.step, Option.bind_eq_bind, Option.bind_eq_some_iff] at h
    obtain ⟨⟨q, x⟩, hmatch, h⟩ := h
    have hstart : (Matching.mk s.pool w ⟨[], [], 0⟩ amount).pool.Ok := hs.pool
    obtain ⟨hsim, hqueue, hpool⟩ := ListQueue.Ok.match hs.queue hstart hmatch
    have hrounds : Rounds t (fun _ => True) s.queue.toQueue.listing _ q.toQueue.listing x :=
      (WaitingQueue.match_spec hs.queue.queue True.intro hsim).1
    have hnext := (hrounds.pool hstart).2
    refine Ok.of_saved ?_ h
    exact ⟨hqueue, hpool, hs.file.mono hnext.ge⟩
  | load =>
    obtain rfl := Option.some.inj h
    have hempty : OrderPool.Ok ⟨∅, s.pool.next⟩ := fun i o ho => by simp at ho
    have hfile : ListQueue.Loadable ⟨∅, s.pool.next⟩ s.file := hs.file.mono le_rfl
    obtain ⟨hqueue, hpool, hnext⟩ :=
      (ListQueue.Ok.create _ s.queue.rate s.queue.invertPriority).load hempty hfile
        fun o _ => List.not_mem_nil
    exact ⟨hqueue, hpool, hfile.mono hnext.ge⟩
  | elsewhere amount weak buy =>
    obtain rfl := Option.some.inj h
    exact hs.elsewhere amount weak buy

/-- No call but a match, which may not return, and the writing of data to an
order that is no more, is without a result: the iterators lead to their cells. -/
theorem Ok.step_isSome {op : QueueOp} (hs : s.Ok)
    (hop : ∀ t fuel w amount, op ≠ .match t fuel w amount)
    (hdata : ∀ i acid recv paid rate weak strong, op = .setData i acid recv paid rate weak strong →
      i ∈ s.queue.list.values) : (s.step persistence op).isSome := by
  cases op with
  | newOrder amount weak buy => rfl
  | setData i acid receivedCur paidCur rate weakCur strongCur =>
    obtain ⟨o, ho, -⟩ := hs.queue.queue.live i (hdata _ _ _ _ _ _ _ rfl)
    obtain ⟨s', h', -⟩ := (hs.setData ho acid receivedCur paidCur rate weakCur strongCur).saved
      persistence
    simp [QueueState.step, ho, h']
  | cancelOrder i save =>
    rcases hs.queue.cancelOrder_eq hs.pool i with ⟨-, hnone⟩ | ⟨n, o, hcell, ho, hfound⟩
    · simp [QueueState.step, hnone]
    · have hs₁ : Ok { s with queue := s.queue.remove n i o.value } :=
        ⟨hs.queue.remove hcell ho, hs.pool, hs.file⟩
      obtain ⟨s', h', -⟩ := hs₁.saved persistence
      cases save <;> simp [QueueState.step, hfound, h']
  | updateOrder i amount =>
    obtain ⟨r, hupdate⟩ : ∃ r, s.queue.updateOrder s.pool i amount = some r := by
      unfold ListQueue.updateOrder
      split_ifs with hsmall
      · exact ⟨_, rfl⟩
      · cases hn : s.queue.hash.lookup i with
        | none => exact ⟨_, rfl⟩
        | some n =>
          have hcell := (hs.queue.index i n).mp hn
          obtain ⟨o, ho, -⟩ := hs.queue.queue.live i (Linked.mem_values.mpr ⟨n, hcell⟩)
          simp only [hs.queue.list.get_eq hcell, ho, Option.bind_eq_bind, Option.bind_some]
          cases (o.update amount).2 <;> exact ⟨_, rfl⟩
    obtain ⟨no, q, p⟩ := r
    obtain ⟨-, hqueue, hpool, hnext⟩ := hs.queue.updateOrder hs.pool hupdate
    have hs₁ : Ok { s with queue := q, pool := p } := ⟨hqueue, hpool, hs.file.mono hnext⟩
    obtain ⟨s', h', -⟩ := hs₁.saved persistence
    simp only [QueueState.step, hupdate, Option.bind_eq_bind, Option.bind_some]
    split_ifs
    · rw [h']
      rfl
    · rfl
  | «match» t fuel w amount => exact absurd rfl (hop t fuel w amount)
  | load => rfl
  | elsewhere amount weak buy => rfl

/-- **The representation of a queue.** After every sequence of calls the cached
value is the sum of the values of the queued orders, the table leads exactly
from their ids to their own places in the list, no id and no place is there
twice, and every order has a value. -/
theorem represented {rate : ℤ} {invertPriority : Bool} {next : Id} {ops : List QueueOp}
    (h : run (QueueState.step persistence)
      ⟨ListQueue.create rate invertPriority, ⟨∅, next⟩, []⟩ ops = some s) :
    s.queue.value = (s.queue.list.values.map s.pool.valueOf).sum ∧
    (∀ i n, s.queue.hash.lookup i = some n ↔ (n, i) ∈ s.queue.list.cells) ∧
    (s.queue.list.cells.map Prod.fst).Nodup ∧ s.queue.list.values.Nodup ∧
    ∀ i ∈ s.queue.list.values, ∃ o, s.pool.live.lookup i = some o ∧ o.id = i ∧ 1 ≤ o.value := by
  have hempty : OrderPool.Ok ⟨∅, next⟩ := fun i o ho => by simp at ho
  have hinit : Ok ⟨ListQueue.create rate invertPriority, ⟨∅, next⟩, []⟩ :=
    ⟨.create _ _ _, hempty, ⟨List.nodup_nil, by simp, by simp⟩⟩
  have hs : s.Ok := run_invariant (C := fun _ _ => True) (fun _ _ _ hs _ h => hs.step h) hinit
    (AlongRun.trivial _ _) h
  refine ⟨hs.queue.queue.value, hs.queue.index, hs.queue.list.nodup,
    hs.queue.index.nodup_values hs.queue.list, fun i hi => ?_⟩
  obtain ⟨o, ho, hpos⟩ := hs.queue.queue.live i hi
  exact ⟨o, ho, (hs.pool i o ho).1, hpos⟩

/-- Orders that are made, updated, cancelled, matched and loaded again, while
there is one in another queue. -/
def sampleOps : List QueueOp :=
  [.newOrder 10 false false, .newOrder 20 false false, .elsewhere 7 false false,
    .newOrder 30 false false, .updateOrder 1 12, .cancelOrder 2 true,
    .match ⟨gbp, eur, true, true⟩ 9 ⟨90⟩ 12, .load]

/-- A run with orders, an update, a cancellation, a match and a reload: the list represents the
queue. -/
theorem represented_sampleOps :
    ∃ s, run (QueueState.step true) ⟨ListQueue.create 110000 false, ⟨∅, 1⟩, []⟩ sampleOps = some s ∧
      s.queue.value = 30 ∧ s.queue.list.cells = [(0, 4), (1, 5)] ∧
      s.queue.value = (s.queue.list.values.map s.pool.valueOf).sum ∧
      s.queue.list.values.Nodup := by
  have hview : (run (QueueState.step true) ⟨ListQueue.create 110000 false, ⟨∅, 1⟩, []⟩
      sampleOps).map (fun s => (s.queue.value, s.queue.list.cells)) =
      some (30, [(0, 4), (1, 5)]) := by decide +kernel
  obtain ⟨s, hs, hview⟩ := Option.map_eq_some_iff.mp hview
  obtain ⟨hvalue, -, -, hnodup, -⟩ := represented hs
  exact ⟨s, hs, congrArg Prod.fst hview, congrArg Prod.snd hview, hvalue, hnodup⟩

end QueueState

end AcCore.Tex.Cex
