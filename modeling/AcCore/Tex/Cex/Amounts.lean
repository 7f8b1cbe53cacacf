import AcCore.Tex.Cex.Indexes

/-!
# Amounts that are updated

An update of an amount leaves the order where it is in its queue. What is added
is another order at the end of the same queue. The wallet is asked for what is
added before the queue is, and what it says is not told to the queue.
-/

namespace AcCore.Tex.Cex

open Lib

namespace WaitingQueues

/-- The orders of high or of low priority. -/
def orders (q : WaitingQueues) (low : Bool) : List Id := if low then q.low.orders else q.high.orders

variable {p : OrderPool} {q : WaitingQueues} {i : Id} {r amount : ℤ} {o : Order}

/-- The queue that has the order gets the order that is added, at its end. -/
theorem updateOrder_orders (hq : q.Ok p) (hi : (r, i) ∈ q.listing) (ho : p.live.lookup i = some o)
    (hpos : 1 ≤ amount) :
    ∃ q' low, q.updateOrder p i amount =
        some ((p.resize i o amount).1, q', (p.resize i o amount).2) ∧
      q'.getRate = q.getRate ∧ i ∈ q.orders low ∧
      ∀ low', q'.orders low' =
        q.orders low' ++ if low' = low then (p.resize i o amount).1.toList else [] := by
  rcases ((mem_listing hq).mp hi).2 with hhigh | hlow
  · refine ⟨{ q with high := q.high.resized p o amount }, false, ?_, by simp [getRate], hhigh, ?_⟩
    · rw [updateOrder, if_pos (hq.notMem_hashLow i hhigh),
        WaitingQueue.updateOrder_eq hq.high hhigh ho hpos]
      rfl
    · intro low'
      cases low' with
      | true => exact (List.append_nil _).symm
      | false => exact WaitingQueue.orders_resized q.high i
  · refine ⟨{ q with
        low := q.low.resized p o amount
        hashLow := q.hashLow ∪ (p.resize i o amount).1.toFinset }, true, ?_, rfl, hlow, ?_⟩
    · rw [updateOrder, if_neg (by simpa using hq.mem_hashLow i hlow),
        WaitingQueue.updateOrder_eq hq.low hlow ho hpos]
      rfl
    · intro low'
      cases low' with
      | true => exact WaitingQueue.orders_resized q.low i
      | false => exact (List.append_nil _).symm

end WaitingQueues

namespace Front

variable {p : OrderPool} {f : Front} {i : Id} {r amount : ℤ} {o : Order}

/-- The orders of a queue of the front. -/
def orders (f : Front) (r : ℤ) (low : Bool) : List Id := (f.queue r).elim [] (·.orders low)

/-- Updating an order appends what is added to the queue that the order is in. -/
theorem updateOrder_orders (hf : f.Ok p) (hi : (r, i) ∈ f.listing) (ho : p.live.lookup i = some o)
    (hpos : 1 ≤ amount) :
    ∃ f' low, f.updateOrder p i amount =
        some ((p.resize i o amount).1, f', (p.resize i o amount).2) ∧
      i ∈ f.orders r low ∧ ∀ r' low', f'.orders r' low' =
        f.orders r' low' ++ if r' = r ∧ low' = low then (p.resize i o amount).1.toList else [] := by
  have hlookup : f.queuesByOrder.lookup i = some r := (hf.byOrder i r).mpr hi
  obtain ⟨q, hqmem, hiq⟩ := mem_listing.mp hi
  have hqr : q.getRate = r := (((WaitingQueues.mem_listing (hf.queues q hqmem)).mp hiq).1).symm
  have hq : f.queue r = some q := hqr ▸ queue_eq hf.toQueuesOk hqmem
  obtain ⟨q', low, hupdate, hrate, hmem, horders⟩ :=
    WaitingQueues.updateOrder_orders (hf.queues q hqmem) hiq ho hpos
  have hq' : q'.getRate = r := hrate.trans hqr
  have hset : ∀ r' low', (f.setQueue q').orders r' low' = f.orders r' low' ++
      if r' = r ∧ low' = low then (p.resize i o amount).1.toList else [] := by
    intro r' low'
    unfold orders queue setQueue
    by_cases hr : r' = r
    · subst hr
      have hself : Keyed.get WaitingQueues.getRate f.queues q'.getRate = some q := hq' ▸ hq
      rw [← hq', Keyed.get_put_self hself, hself]
      simpa using horders low'
    · rw [Keyed.get_put_of_ne (hq' ▸ hr)]
      simp [hr]
  have hmem' : i ∈ f.orders r low := by
    rw [orders, hq]
    exact hmem
  cases hno : (p.resize i o amount).1 with
  | none =>
    refine ⟨f.setQueue q', low, ?_, hmem', hno ▸ hset⟩
    simp [updateOrder, not_lt.mpr hpos, hlookup, hq, hupdate, hno]
  | some j =>
    refine ⟨{ f.setQueue q' with queuesByOrder := Table.emplace j r f.queuesByOrder }, low, ?_,
        hmem',
      hno ▸ hset⟩
    simp [updateOrder, not_lt.mpr hpos, hlookup, hq, hupdate, hno, setQueue]

end Front

namespace Market

variable {p : OrderPool} {m : Market} {s : Place} {amount : ℤ} {o : Order}

/-- An order of a market waits in one of the two queues at its rate. -/
theorem Ok.exists_orders (hm : m.Ok p) (hs : s ∈ m.listing) :
    ∃ low, s.id ∈ (m.front s.weak).orders s.rate low := by
  have hf := (hm.front s.weak).toQueuesOk
  obtain ⟨q, hq, hi⟩ := Front.mem_listing.mp (mem_listing hs).1
  obtain ⟨hrate, hmem⟩ := (WaitingQueues.mem_listing (hf.queues q hq)).mp hi
  have hqueue : (m.front s.weak).queue s.rate = some q := hrate ▸ Front.queue_eq hf hq
  rcases hmem with hhigh | hlow
  · exact ⟨false, by rw [Front.orders, hqueue]; exact hhigh⟩
  · exact ⟨true, by rw [Front.orders, hqueue]; exact hlow⟩

/-- Updating an order of a market appends what is added to the queue that the order is in. -/
theorem updateOrder_orders (hm : m.Ok p) (hs : s ∈ m.listing) (ho : p.live.lookup s.id = some o)
    (hpos : 1 ≤ amount) :
    ∃ m' low, m.updateOrder p s.id amount =
        some ((p.resize s.id o amount).1, m', (p.resize s.id o amount).2) ∧
      m'.weakCurrency = m.weakCurrency ∧ m'.strongCurrency = m.strongCurrency ∧
      s.id ∈ (m.front s.weak).orders s.rate low ∧
      ∀ weak r low', (m'.front weak).orders r low' = (m.front weak).orders r low' ++
        if weak = s.weak ∧ r = s.rate ∧ low' = low then (p.resize s.id o amount).1.toList
          else [] := by
  have hmem := (mem_listing hs).1
  obtain ⟨f', low, hupdate, hi, horders⟩ := Front.updateOrder_orders (hm.front s.weak) hmem ho hpos
  refine ⟨m.setFront s.weak f', low, ?_, by simp, by simp, hi, fun weak r low' => ?_⟩
  · simp [updateOrder, hasOrder_eq hm hs, hupdate]
  · by_cases hweak : weak = s.weak
    · subst hweak
      rw [front_setFront_self, horders]
      simp
    · obtain rfl : weak = !s.weak := by cases weak <;> cases hsw : s.weak <;> simp_all
      rw [front_not_setFront, if_neg fun h => hweak h.1, List.append_nil]

end Market

/-- What names a queue of the exchange. -/
structure QueueName where
  market : Cur × Cur
  weak : Bool
  rate : ℤ
  low : Bool
  deriving DecidableEq

/-- The queue of a place, of high or of low priority. -/
def Place.queue (s : Place) (low : Bool) : QueueName :=
  ⟨marketKey s.weakCur s.strongCur, s.weak, s.rate, low⟩

namespace Engine

variable {e e' : Engine} {s : Place} {acid i : Id} {amount : ℤ} {o : Order} {hash : Text → UInt64}
  {fuel : ℕ}

/-- The orders of a queue, in its order. -/
def queue (e : Engine) (n : QueueName) : List Id :=
  (e.findMarket n.market).elim [] fun m => (m.front n.weak).orders n.rate n.low

/-- What an update adds is at the end of the queue of the order. -/
def Appended (e : Engine) (s : Place) (added : Option Id) (e' : Engine) : Prop :=
  ∃ low, s.id ∈ e.queue (s.queue low) ∧ ∀ n, e'.queue n =
    e.queue n ++ if n = s.queue low then added.toList else []

/-- An order that rests is in a queue of its place. -/
theorem Ok.exists_queue (he : e.Ok) (hs : s ∈ e.listing) : ∃ low, s.id ∈ e.queue (s.queue low) := by
  obtain ⟨m, hm, hsm⟩ := mem_listing.mp hs
  obtain ⟨low, hi⟩ := (he.markets m hm).exists_orders hsm
  refine ⟨low, ?_⟩
  rw [queue, Place.queue, he.findMarket_eq hm hsm]
  exact hi

/-- Where the books stay, so do the queues. -/
theorem SameBooks.queue_eq (h : SameBooks e e') (n : QueueName) : e'.queue n = e.queue n := by
  rw [queue, queue, findMarket, h.markets]
  rfl

/-- An update that leaves the books as they are adds nothing. -/
theorem SameBooks.appended (h : SameBooks e e') (he : e.Ok) (hs : s ∈ e.listing) :
    Appended e s none e' := by
  obtain ⟨low, hi⟩ := he.exists_queue hs
  refine ⟨low, hi, fun n => ?_⟩
  rw [Option.toList_none, ite_self, List.append_nil, h.queue_eq]

/-- An order that rests is updated, for an account that exists. -/
theorem resize_appended (he : e.Ok) (hs : s ∈ e.listing) (ho : e.pool.live.lookup s.id = some o)
    (hpos : 1 ≤ amount) {a : Account} (ha : e.accounts.lookup acid = some a) :
    ∃ e', e.resize acid s.id o amount = some e' ∧
      Appended e s (e.pool.resize s.id o amount).1 e' := by
  obtain ⟨m, hm, hsm⟩ := mem_listing.mp hs
  obtain ⟨o₁, ho₁, hat⟩ := he.placed s hs
  obtain rfl : o = o₁ := Option.some.inj (ho.symm.trans ho₁)
  have hfound := he.findMarket_eq hm hsm
  obtain ⟨m', low, hupdate, hweak, hstrong, hi, horders⟩ :=
    Market.updateOrder_orders (he.markets m hm) hsm ho hpos
  have hkey : m'.getKey = m.getKey := getKey_eq hweak hstrong
  have hname : m.getKey = marketKey s.weakCur s.strongCur := Keyed.key_of_get hfound
  have hset : ∀ (e₁ : Engine), e₁.markets = (e.setMarket m').markets →
      Appended e s (e.pool.resize s.id o amount).1 e₁ := by
    intro e₁ hmarkets
    refine ⟨low, ?_, fun n => ?_⟩
    · rw [queue, Place.queue, hfound]
      exact hi
    · unfold queue findMarket
      rw [hmarkets, setMarket]
      dsimp only
      by_cases hn : n.market = m'.getKey
      · have hself : Keyed.get Market.getKey e.markets m'.getKey = some m := by
          rw [hkey]
          exact Keyed.get_of_mem he.keys hm
        rw [hn, Keyed.get_put_self hself, hself]
        have hsame : n = s.queue low ↔ n.weak = s.weak ∧ n.rate = s.rate ∧ n.low = low := by
          obtain ⟨k, weak, r, low'⟩ := n
          simp [Place.queue,
              show k = marketKey s.weakCur s.strongCur from hn.trans (hkey.trans hname)]
        rw [Option.elim_some, Option.elim_some, horders]
        simp only [hsame]
      · rw [Keyed.get_put_of_ne hn, if_neg, List.append_nil]
        rintro rfl
        exact hn (hkey.trans hname).symm
  have hresize : e.findMarket (marketKey o.weakCur o.strongCur) = some m := by
    rw [hat.weakCur, hat.strongCur, hfound]
  cases hno : (e.pool.resize s.id o amount).1 with
  | none =>
    refine ⟨{ e.setMarket m' with pool := (e.pool.resize s.id o amount).2 }, ?_, hno ▸ hset _ rfl⟩
    simp [resize, hresize, hupdate, hno]
  | some j =>
    obtain rfl : j = e.pool.next := OrderPool.eq_next_of_mem_resize hno
    have hlt : o.value < amount := by
      by_contra hle
      rw [OrderPool.resize_of_le (not_lt.mp hle)] at hno
      cases hno
    obtain ⟨o₂, ho₂⟩ : ∃ o₂, (e.pool.resize s.id o amount).2.live.lookup e.pool.next = some o₂ := by
      rw [OrderPool.resize_of_lt hlt]
      exact ⟨_, OrderPool.lookup_newOrder_self _ _ _ _⟩
    let e₁ : Engine := { e.setMarket m' with
      pool := (e.pool.resize s.id o amount).2.set e.pool.next (o₂.setData o.accountId
        o.receivedCur o.paidCur o.rate o.weakCur o.strongCur)
      orders := insert e.pool.next e.orders }
    have hres : e.resize acid s.id o amount =
        e₁.modifyAccount acid (·.trackOrder e.pool.next) := by
      simp only [resize, hresize, hupdate, hno, ho₂, Option.bind_eq_bind, Option.bind_some]
      rfl
    have hmodify : e₁.modifyAccount acid (·.trackOrder e.pool.next) = some
        { e₁ with accounts := e.accounts.insert acid (a.trackOrder e.pool.next) } := by
      rw [modifyAccount, show e₁.accounts = e.accounts from rfl, ha, Option.map_some]
    rw [hno] at hset
    exact ⟨_, hres.trans hmodify, hset _ rfl⟩

/-! ## The amount of an order -/

/-- The order that `_update_order` adds. -/
def added (e : Engine) (acid : Id) (o : Order) (amount : ℤ) : Option Id :=
  if o.value < amount ∧ e.paid acid o amount ≠ 0 then some e.pool.next else none

/-- An order that rests is updated in the place where it is. -/
theorem updateAmount_appended (he : e.Ok) (hs : s ∈ e.listing)
    (ho : e.pool.live.lookup s.id = some o) (hpos : 1 ≤ amount) {a : Account}
    (ha : e.accounts.lookup acid = some a) :
    ∃ e', e.updateAmount acid s.id amount = some e' ∧
      Appended e s (e.added acid o amount) e' := by
  have hbalance : e.balance (acid, o.paidCur) = a.balance o.paidCur := Table.valueAt_of_lookup ha
  -- the second part, after the wallet was written
  have hresize : ∀ f : Account → Account, (∀ a, (f a).orders = a.orders) → ∃ e₁ e',
      e.modifyAccount acid f = some e₁ ∧ e₁.resize acid s.id o amount = some e' ∧ SameBooks e e₁ ∧
        Appended e s (e.pool.resize s.id o amount).1 e' := by
    intro f hf
    have hmodify : e.modifyAccount acid f =
        some { e with accounts := e.accounts.insert acid (f a) } := by
      rw [modifyAccount, ha, Option.map_some]
    have hsame := sameBooks_of_modify hf hmodify
    have hs₁ := hs
    have ho₁ := ho
    rw [listing, ← hsame.markets, ← listing] at hs₁
    rw [← hsame.pool] at ho₁
    obtain ⟨e', h', low, hi, hqueue⟩ := resize_appended (hsame.ok he) hs₁ ho₁ hpos
      (Finmap.lookup_insert e.accounts)
    rw [hsame.pool] at hqueue
    simp only [hsame.queue_eq] at hi hqueue
    exact ⟨_, e', hmodify, h', hsame, low, hi, hqueue⟩
  simp only [updateAmount, ho, ha, Option.bind_eq_bind, Option.bind_some]
  by_cases hpositive : o.budgetForUpdate amount > 0
  · have hbudget : 0 < amount - o.value := hpositive
    have hpaid : e.paid acid o amount = (a.withdraw o.paidCur (o.budgetForUpdate amount)).1 := by
      rw [paid, if_pos hbudget, hbalance, Account.withdraw_eq hpositive]
      rfl
    obtain ⟨e₁, e', hmodify, h', hsame, happended⟩ :=
      hresize (fun a => (a.withdraw o.paidCur (o.budgetForUpdate amount)).2)
        fun a => (Account.withdraw_other _ _ _).2
    rw [modifyAccount, ha, Option.map_some, Option.some.injEq] at hmodify
    rw [if_pos hpositive]
    by_cases hzero : e.paid acid o amount = 0
    · rw [if_pos (hpaid.symm.trans hzero), added, if_neg fun h => h.2 hzero]
      exact ⟨_, rfl, (hmodify ▸ hsame).appended he hs⟩
    · rw [if_neg fun h => hzero (hpaid.trans h), added, if_pos ⟨by omega, hzero⟩]
      rw [OrderPool.resize_of_lt (by omega)] at happended
      exact ⟨e', hmodify ▸ h', happended⟩
  · have hbudget : ¬0 < amount - o.value := hpositive
    obtain ⟨e₁, e', hmodify, h', -, happended⟩ :=
      hresize (·.deposit o.paidCur (-o.budgetForUpdate amount)) fun _ => rfl
    rw [if_neg hpositive, added, if_neg fun h => by omega]
    rw [OrderPool.resize_of_le (by omega)] at happended
    have hdeposit : e.deposit acid o.paidCur (-o.budgetForUpdate amount) = some e₁ := hmodify
    rw [hdeposit]
    exact ⟨e', h', happended⟩

/-- What rests for an update: the order, and the order that was added. -/
def resting (e : Engine) (i : Id) (added : Option Id) : ℤ :=
  e.pool.valueOf i + (added.toList.map e.pool.valueOf).sum

/-- What rests after an update, and what the wallet has. -/
theorem Solvent.resting_updateAmount (he : e.Solvent) (hs : s ∈ e.listing)
    (ho : e.pool.live.lookup s.id = some o) (hpos : 1 ≤ amount)
    (h : e.updateAmount acid s.id amount = some e') :
    e'.resting s.id (e.added acid o amount) =
        (if o.value < amount ∧ e.paid acid o amount = 0 then o.value else amount) ∧
      e'.balance (acid, o.paidCur) = e.balance (acid, o.paidCur) - e.paid acid o amount := by
  have hbooked : ∀ {e' : Engine}, Booked [((acid, o.paidCur), -e.paid acid o amount)] e e' →
      e'.balance (acid, o.paidCur) = e.balance (acid, o.paidCur) - e.paid acid o amount := by
    intro e' hbooked
    rw [hbooked.balance]
    simp [sub_eq_add_neg]
  have hvalue : e.pool.valueOf s.id = o.value := OrderPool.valueOf_eq ho
  obtain ⟨o₁, ho₁, ⟨hsame, hpost, hreason⟩ | ⟨-, hpaid, s₁, hs₁, hid, hresized⟩⟩ :=
    Engine.updateAmount_spec he.toOk h
  all_goals obtain rfl : o = o₁ := Option.some.inj (ho.symm.trans ho₁)
  · -- there are no funds
    have hnone : o.value < amount ∧ e.paid acid o amount = 0 := by
      rcases hreason with hnone | hsmall | hgone
      · exact hnone
      · omega
      · exact absurd (List.mem_map_of_mem hs) hgone
    refine ⟨?_, hbooked hpost⟩
    rw [if_pos hnone, added, if_neg fun h => h.2 hnone.2, resting, hsame.pool, hvalue]
    simp
  · refine ⟨?_, hbooked hresized.booked⟩
    have hmoved := hresized.moved
    rw [if_neg fun h => hpaid h.1 h.2, resting, added]
    have hkept := hmoved.kept s.id
    by_cases hle : amount ≤ o.value
    · rw [if_neg fun h => absurd h.1 (not_lt.mpr hle)]
      rw [if_pos hle] at hkept
      have hself := hkept (by simp) (by simp)
      rw [ho, Option.map_some] at hself
      rw [OrderPool.valueOf_eq hself, if_pos ⟨hid.symm, hle⟩]
      simp
    · have hlt : o.value < amount := not_le.mp hle
      rw [if_pos ⟨hlt, hpaid hlt⟩]
      rw [if_neg hle] at hkept
      have hne : e.pool.next ≠ s.id := fun h => he.notMem_next (h ▸ List.mem_map_of_mem hs)
      have hself := hkept (by simpa using hne) (by simp)
      rw [ho, Option.map_some] at hself
      have hnew := (hmoved.new ⟨{ s₁ with id := e.pool.next }, addedOrder o amount e.pool.next⟩
        (by rw [if_neg hle]; rfl)).2.2
      dsimp only at hnew
      rw [OrderPool.valueOf_eq hself, if_neg fun h => hle h.2, Option.toList_some, List.map_cons,
        List.map_nil, List.sum_singleton, OrderPool.valueOf_eq hnew]
      simp [addedOrder, Order.setData, Order.create]

/-! ## Runs -/

/-- What holds of the books after they moved is preserved by the parts of the
operations. -/
theorem Preserved.of_moved (G : Guards) (fuel : ℕ) (acid : Id) {P : Engine → Prop}
    (hsolvent : ∀ {e : Engine}, P e → e.Solvent)
    (hmoved : ∀ {e e' : Engine} {cut : Id → ℤ} {gone : List Place} {made : Option (Place × Order)},
      P e → e'.Solvent → Moved e e' cut gone made → P e')
    (hfailed : ∀ {e e' : Engine} {m : Market} {weak buy priLow : Bool} {charge cid : Cur}
      {w : Wallet} {rate amount : ℤ} {y : Matching} {gone : List Place}, P e → e'.Solvent →
      Failed fuel e acid m weak charge cid w rate amount buy priLow e' y gone → P e')
    (haside : ∀ {e e' : Engine}, P e → e'.Solvent → Aside e e' → P e') :
    Preserved G fuel acid P where
  sell he hm _ hamount _ h := by
    have hsolvent' := (hsolvent he).sell hm hamount.le h
    obtain ⟨a, -, ⟨-, rfl⟩ | ⟨w, m', p', w', r, y, gone, -, -, ⟨-, v, -, hsold⟩ |
      ⟨-, -, hfail⟩⟩⟩ := sell_spec (hsolvent he).toOk hm h
    · exact he
    · exact hmoved he hsolvent' hsold.moved
    · exact hfailed he hsolvent' hfail
  cancel he _ h := by
    have hsolvent' := (hsolvent he).cancel h
    obtain ⟨o, -, ⟨-, rfl, -⟩ | ⟨s, -, -, -, hcancelled⟩⟩ := cancel_spec (hsolvent he).toOk h
    · exact he
    · exact hmoved he hsolvent' hcancelled.moved
  update he _ _ _ h := by
    have hsolvent' := (hsolvent he).updateAmount h
    obtain ⟨o, -, ⟨hsame, -, -⟩ | ⟨-, -, s, -, -, hresized⟩⟩ :=
      Engine.updateAmount_spec (hsolvent he).toOk h
    · exact haside he hsolvent' hsame.aside
    · exact hmoved he hsolvent' hresized.moved

/-- The orders that rest are in the table of the engine. -/
structure Registered (e : Engine) : Prop extends e.Solvent where
  orders : ∀ i ∈ e.listing.map Place.id, i ∈ e.orders

/-- Orders stay registered when those that go are removed and those that are added are entered. -/
theorem Registered.moved {cut : Id → ℤ} {gone : List Place} {made : Option (Place × Order)}
    (he : e.Registered) (hsolvent : e'.Solvent) (h : Moved e e' cut gone made) : e'.Registered := by
  refine ⟨hsolvent, fun i hi => ?_⟩
  rw [h.rests he.toMarketsOk] at hi
  rw [h.orders]
  exact ⟨hi.1.imp_left (he.orders i), hi.2⟩

/-- A sale that ends in an error leaves no new order. -/
theorem Failed.rested {m : Market} {weak buy priLow : Bool} {charge cid : Cur} {w : Wallet}
    {rate amount : ℤ} {y : Matching} {gone : List Place}
    (h : Failed fuel e acid m weak charge cid w rate amount buy priLow e' y gone)
    (hi : i ∈ e'.listing.map Place.id) : i ∈ e.listing.map Place.id := by
  refine (h.listing.map Place.id).mem_iff.mp ?_
  rw [List.map_append]
  exact List.mem_append_right _ hi

/-- What leaves the books alone keeps the orders registered. -/
theorem Registered.aside (he : e.Registered) (hsolvent : e'.Solvent) (h : Aside e e') :
    e'.Registered where
  toSolvent := hsolvent
  orders i hi := by
    rw [h.orders]
    exact he.orders i (h.listing ▸ hi)

/-- Every step of an operation keeps the orders registered. -/
theorem Registered.preserved (G : Guards) (fuel : ℕ) (acid : Id) :
    Preserved G fuel acid Registered := by
  refine Preserved.of_moved G fuel acid Registered.toSolvent Registered.moved ?_ Registered.aside
  intro e e' m weak buy priLow charge cid w rate amount y gone he hsolvent hfailed
  refine ⟨hsolvent, fun i hi => ?_⟩
  rw [hfailed.orders]
  exact he.orders i (hfailed.rested hi)

/-- In every engine that operations reach the orders are registered. -/
theorem registered_of_run {ops : List Op}
    (h : run (Engine.step hash fuel) (Engine.init hash) ops = some e) : e.Registered :=
  Preserved.of_run (fun acid _ => Registered.preserved _ fuel acid) Registered.toSolvent
    Registered.aside ⟨Solvent.init hash, fun _ hi => nomatch hi⟩ h

/-- **The amount of an order that is updated.** In every reachable state the
owner of an order that rests can update its amount. The order stays where it is
in its queue, what is added is behind the others, and no other queue changes.
What rests in the end is the new amount, at most what the order and the wallet
have, and the wallet pays the difference, if and only if the wallet does not fund
what is added in part. -/
theorem update_amount {ops : List Op} {pwd amount : Text}
    (h : run (Engine.step hash fuel) (Engine.init hash) ops = some e) (hs : s ∈ e.listing)
    (ho : e.pool.live.lookup s.id = some o) (hauth : e.auth hash o.accountId pwd = true)
    (hpos : 1 ≤ encode amount) :
    ∃ e' added, Engine.step hash fuel e (.api o.accountId pwd (.updateOrder s.id amount)) =
        some e' ∧ (∀ j ∈ added, j = e.pool.next) ∧ Appended e s added e' ∧
      ((e'.resting s.id added = min (encode amount)
            (o.value + e.balance (o.accountId, o.paidCur)) ∧
          e'.balance (o.accountId, o.paidCur) =
            e.balance (o.accountId, o.paidCur) + (o.value - e'.resting s.id added)) ↔
        ¬(0 < e.balance (o.accountId, o.paidCur) ∧
          e.balance (o.accountId, o.paidCur) < encode amount - o.value)) := by
  have he := registered_of_run h
  obtain ⟨a, ha⟩ : ∃ a, e.accounts.lookup o.accountId = some a := by
    simp only [auth, Bool.and_eq_true, Option.any_eq_true] at hauth
    obtain ⟨-, a, ha, -⟩ := hauth
    exact ⟨a, ha⟩
  obtain ⟨e', hupdate, happended⟩ := updateAmount_appended he.toOk hs ho hpos ha
  obtain ⟨hresting, hbalance⟩ := he.toSolvent.resting_updateAmount hs ho hpos hupdate
  refine ⟨e', e.added o.accountId o (encode amount), ?_, fun j hj => ?_, happended, ?_⟩
  · have hi := he.orders s.id (List.mem_map_of_mem hs)
    simp only [Engine.step, hauth, if_true, execute, updateOrder, if_neg (not_lt.mpr hpos)]
    simp [hi, ho, hupdate]
  · unfold added at hj
    split_ifs at hj
    · exact (Option.mem_some_iff.mp hj).symm
    · cases hj
  · have hfunds := he.balance (o.accountId, o.paidCur)
    have hvalue : 1 ≤ o.value := by
      obtain ⟨o₁, ho₁, hlive⟩ := he.live hs
      obtain rfl := Option.some.inj (ho.symm.trans ho₁)
      exact hlive
    rw [hresting, hbalance]
    unfold paid
    split_ifs <;> omega

/-- Four pounds rest and six are in the wallet: the order gets four more. -/
theorem update_amount_sampleTrade :
    ∃ e s o e' added, run (Engine.step sampleHash 8) (Engine.init sampleHash)
        (sampleDeposit ++ [sampleTrade ['1', '.', '5']]) = some e ∧ s ∈ e.listing ∧
      e.pool.live.lookup s.id = some o ∧
      Engine.step sampleHash 8 e
        (.api o.accountId (List.replicate 8 'p') (.updateOrder s.id ['8'])) = some e' ∧
      Appended e s added e' ∧ e'.resting s.id added = min (encode ['8'])
        (o.value + e.balance (o.accountId, o.paidCur)) := by
  have hview : (run (Engine.step sampleHash 8) (Engine.init sampleHash)
      (sampleDeposit ++ [sampleTrade ['1', '.', '5']])).map (fun e =>
        (e.listing.map Place.id, (e.pool.live.lookup 1).map fun o =>
          (o.value, e.balance (o.accountId, o.paidCur),
            e.auth sampleHash o.accountId (List.replicate 8 'p')))) =
      some ([1], some (400000, 600000, true)) := by decide +kernel
  obtain ⟨e, hrun, hview⟩ := Option.map_eq_some_iff.mp hview
  obtain ⟨hids, horder⟩ := Prod.mk.inj hview
  obtain ⟨s, hs, hid⟩ := List.mem_map.mp (hids ▸ List.mem_singleton_self 1)
  obtain ⟨o, ho, horder⟩ := Option.map_eq_some_iff.mp horder
  obtain ⟨hvalue, hfunds, hauth⟩ := by simpa only [Prod.mk.injEq] using horder
  have hencode : encode ['8'] = 800000 := by decide
  rw [← hid] at ho
  have hpos : 1 ≤ encode ['8'] := by
    rw [hencode]
    decide
  obtain ⟨e', added, hstep, -, happended, hiff⟩ := update_amount hrun hs ho hauth hpos
  refine ⟨e, s, o, e', added, hrun, hs, ho, hstep, happended, (hiff.mpr ?_).1⟩
  rw [hvalue, hfunds, hencode]
  decide

/-- The six pounds that are there pay for sixteen. -/
theorem update_amount_overdrawn :
    ∃ e e', run (Engine.step sampleHash 8) (Engine.init sampleHash)
        (sampleDeposit ++ [sampleTrade ['1', '.', '5']]) = some e ∧
      Engine.step sampleHash 8 e (.api 2 (List.replicate 8 'p') (.updateOrder 1 ['2', '0'])) =
        some e' ∧
      e'.listing.map Place.id = [1, 2] ∧ e'.balance (2, gbp) = 0 ∧
      e'.resting 1 (some 2) ≠ min (encode ['2', '0']) (e.pool.valueOf 1 + e.balance (2, gbp)) := by
  have hview : (run (Engine.step sampleHash 8) (Engine.init sampleHash)
      (sampleDeposit ++ [sampleTrade ['1', '.', '5']])).bind (fun e =>
        (Engine.step sampleHash 8 e
          (.api 2 (List.replicate 8 'p') (.updateOrder 1 ['2', '0']))).map fun e' =>
            decide (e'.listing.map Place.id = [1, 2] ∧ e'.balance (2, gbp) = 0 ∧
              e'.resting 1 (some 2) ≠
                min (encode ['2', '0']) (e.pool.valueOf 1 + e.balance (2, gbp)))) =
      some true := by decide +kernel
  obtain ⟨e, hrun, hview⟩ := Option.bind_eq_some_iff.mp hview
  obtain ⟨e', hstep, hview⟩ := Option.map_eq_some_iff.mp hview
  exact ⟨e, e', hrun, hstep, of_decide_eq_true hview⟩

end Engine

end AcCore.Tex.Cex
