import AcCore.Tex.Cex.FrontRuns
import AcCore.Tex.Cex.Indexes
import AcCore.Tex.Cex.Ownership

/-!
# The exit from the exchange

An account takes all its orders off the books with one call. As long as the
indexes agree the call has a result, nobody else notices it, and what the orders
were worth is in the wallets after it.
-/

namespace AcCore.Tex.Cex

open Lib

/-! ## A cancel has a result -/

/-- A well-formed queue answers every cancellation. -/
theorem WaitingQueue.Ok.exists_cancelOrder {q : WaitingQueue} {p : OrderPool} (hq : q.Ok p)
    (i : Id) : ∃ c, q.cancelOrder p i = some c := by
  by_cases hi : i ∈ q.orders
  · obtain ⟨o, ho, -⟩ := hq.live i hi
    exact ⟨_, cancelOrder_of_mem ((hq.hash i).mpr hi) hi ho⟩
  · refine ⟨none, ?_⟩
    rw [cancelOrder, if_pos (by simpa [hq.hash] using hi)]

/-- A well-formed pair of queues answers every cancellation. -/
theorem WaitingQueues.Ok.exists_cancelOrder {q : WaitingQueues} {p : OrderPool} (hq : q.Ok p)
    (i : Id) : ∃ c, q.cancelOrder p i = some c := by
  unfold cancelOrder
  obtain ⟨high, hhigh⟩ := hq.high.exists_cancelOrder i
  obtain ⟨low, hlow⟩ := hq.low.exists_cancelOrder i
  rw [hhigh, hlow]
  split_ifs <;> exact ⟨_, rfl⟩

/-- The front without the order has a result of `trim`. -/
theorem Front.Ok.exists_cancelOrder {f : Front} {p : OrderPool} (hf : f.Ok p) (i : Id) :
    ∃ c, f.cancelOrder p i = some c := by
  unfold cancelOrder
  cases hlookup : f.queuesByOrder.lookup i with
  | none => exact ⟨none, rfl⟩
  | some r =>
    have hlisted := (hf.byOrder i r).mp hlookup
    obtain ⟨q, hq, hmem⟩ := mem_listing.mp hlisted
    have hrate : r = q.getRate := ((WaitingQueues.mem_listing (hf.queues q hq)).mp hmem).1
    have hqueue : f.queue r = some q := by
      rw [hrate]
      exact queue_eq hf.toQueuesOk hq
    obtain ⟨c, hc⟩ := (hf.queues q hq).exists_cancelOrder i
    simp only [hqueue, hc, Option.bind_eq_bind, Option.bind_some]
    cases c with
    | none => exact ⟨none, rfl⟩
    | some oq =>
      obtain ⟨o, q'⟩ := oq
      obtain ⟨-, -, hok⟩ := hf.erase hlookup hqueue hc
      obtain ⟨f', htrim, -⟩ := hok.toQueuesOk.exists_trim
      exact ⟨some (o, f'), by simp [htrim]⟩

/-- A well-formed market answers every cancellation. -/
theorem Market.Ok.exists_cancelOrder {m : Market} {p : OrderPool} (hm : m.Ok p) (i : Id) :
    ∃ c, m.cancelOrder p i = some c := by
  obtain ⟨c, hc⟩ := (hm.front (m.weakFront.hasOrder i)).exists_cancelOrder i
  exact ⟨_, by rw [cancelOrder, hc, Option.map_some]⟩

namespace Engine

variable {e e' e₁ : Engine} {acid i : Id} {c : Cur} {o : Order} {s : Place} {fuel : ℕ}
  {hash : Text → UInt64}

/-- The cancel of an order that rests finds it. -/
theorem exists_cancel (he : e.Ok) (hs : s ∈ e.listing) (hacid : acid ∈ e.accounts) :
    ∃ e' o, e.cancel acid s.id = some (e', true) ∧ e.pool.live.lookup s.id = some o ∧
      Cancelled e acid o s e' := by
  obtain ⟨m, hm, hsm⟩ := mem_listing.mp hs
  obtain ⟨o, ho, hat⟩ := he.placed s hs
  have hfound : e.findMarket (marketKey o.weakCur o.strongCur) = some m := by
    rw [hat.weakCur, hat.strongCur]
    exact he.findMarket_eq hm hsm
  obtain ⟨c, hc⟩ := (he.markets m hm).exists_cancelOrder s.id
  obtain ⟨a, ha⟩ := Finmap.mem_iff.mp hacid
  have hresult : ∃ r, e.cancel acid s.id = some r := by
    simp only [cancel, ho, hfound, hc, Option.bind_eq_bind, Option.bind_some]
    cases c with
    | none => exact ⟨_, rfl⟩
    | some om =>
      obtain ⟨o', m'⟩ := om
      have ha' : (e.setMarket m').accounts.lookup acid = some a := ha
      simp only [modifyAccount, ha', Option.map_some, Option.bind_some]
      exact ⟨_, rfl⟩
  obtain ⟨⟨e', found⟩, h⟩ := hresult
  obtain ⟨o', ho', ⟨-, -, hnot⟩ | ⟨s', hs', rfl, hid, hcancelled⟩⟩ := cancel_spec he h
  · exact absurd (List.mem_map_of_mem hs) hnot
  · obtain rfl := List.inj_on_of_nodup_map he.nodup hs' hs hid
    exact ⟨e', o', h, ho', hcancelled⟩

/-! ## What an account has in its orders -/

/-- What the order of an id is for the account in the currency. -/
def stake (p : OrderPool) (b : Id) (c : Cur) (i : Id) : ℤ := Table.valueAt (share b c) p.live i

/-- What the orders that rest are for the account in the currency. -/
def staked (e : Engine) (b : Id) (c : Cur) : ℤ :=
  (e.listing.map fun s => stake e.pool b c s.id).sum

/-- An account without orders has nothing staked in them. -/
theorem staked_eq_zero (h : ∀ s ∈ e.listing, ownerOf e.pool s.id ≠ some acid) (c : Cur) :
    e.staked acid c = 0 := by
  refine List.sum_eq_zero fun v hv => ?_
  obtain ⟨s, hs, rfl⟩ := List.mem_map.mp hv
  have hother := h s hs
  unfold stake Table.valueAt
  cases ho : e.pool.live.lookup s.id with
  | none => rfl
  | some o =>
    rw [ownerOf, ho, Option.map_some] at hother
    exact if_neg fun hshare => hother (congrArg some hshare.1)

/-- What the cancel of an order takes from the stakes of its owner. -/
theorem Cancelled.staked_eq (he : e.Ok) (ho : e.pool.live.lookup s.id = some o)
    (h : Cancelled e acid o s e') (b : Id) (c : Cur) :
    e'.staked b c = e.staked b c - share b c o := by
  have hnodup := h.moved.nodup he.toMarketsOk
  rw [List.singleton_append, List.map_cons, List.nodup_cons] at hnodup
  have hsame : ∀ s' ∈ e'.listing, stake e'.pool b c s'.id = stake e.pool b c s'.id := by
    intro s' hs'
    have hne : s'.id ≠ s.id := fun heq => hnodup.1 (heq ▸ List.mem_map_of_mem hs')
    have hkept := h.moved.kept s'.id (by simp) (by simpa using hne)
    simp only [sub_zero, Option.map_id'] at hkept
    rw [stake, Table.valueAt, hkept]
    rfl
  have hsum := (h.moved.listing.map fun s => stake e.pool b c s.id).sum_eq
  have hgone : stake e.pool b c s.id = share b c o := Table.valueAt_of_lookup ho
  rw [List.singleton_append, List.map_cons, List.sum_cons, hgone, Option.toList_none, List.map_nil,
    List.nil_append] at hsum
  rw [staked, staked, List.map_congr_left hsame, ← hsum]
  exact (add_sub_cancel_left _ _).symm

/-! ## The exit -/

/-- Orders of the account go back to its wallets, and nobody else notices. -/
structure Returned (acid : Id) (e e' : Engine) : Prop where
  wealth : ∀ c, e'.balance (acid, c) + e'.staked acid c = e.balance (acid, c) + e.staked acid c
  balance : ∀ b ≠ acid, ∀ c, e'.balance (b, c) = e.balance (b, c)
  tracked : ∀ b ≠ acid, e'.tracked b = e.tracked b
  rests : ∀ s, ownerOf e.pool s.id ≠ some acid → (s ∈ e'.listing ↔ s ∈ e.listing)
  kept : ∀ i, ownerOf e.pool i ≠ some acid → e'.pool.live.lookup i = e.pool.live.lookup i
  accounts : ∀ b, b ∈ e'.accounts ↔ b ∈ e.accounts

/-- Where nothing happens nothing has to be returned. -/
theorem Returned.refl (acid : Id) (e : Engine) : Returned acid e e where
  wealth _ := rfl
  balance _ _ _ := rfl
  tracked _ _ := rfl
  rests _ _ := Iff.rfl
  kept _ _ := rfl
  accounts _ := Iff.rfl

/-- What is returned over two steps is returned over both. -/
theorem Returned.trans (h : Returned acid e e₁) (h' : Returned acid e₁ e') :
    Returned acid e e' := by
  have hother : ∀ i, ownerOf e.pool i ≠ some acid → ownerOf e₁.pool i ≠ some acid := fun i hi => by
    rwa [ownerOf, h.kept i hi]
  exact {
    wealth := fun c => (h'.wealth c).trans (h.wealth c)
    balance := fun b hb c => (h'.balance b hb c).trans (h.balance b hb c)
    tracked := fun b hb => (h'.tracked b hb).trans (h.tracked b hb)
    rests := fun s hs => (h'.rests s (hother _ hs)).trans (h.rests s hs)
    kept := fun i hi => (h'.kept i (hother i hi)).trans (h.kept i hi)
    accounts := fun b => (h'.accounts b).trans (h.accounts b) }

/-- The cancel of an own order returns it. -/
theorem Cancelled.returned (he : e.Ok) (ho : e.pool.live.lookup s.id = some o)
    (howner : o.accountId = acid) (h : Cancelled e acid o s e') : Returned acid e e' := by
  have hown : ownerOf e.pool s.id = some acid := by rw [ownerOf, ho, Option.map_some, howner]
  have hne : ∀ j, ownerOf e.pool j ≠ some acid → j ≠ s.id := fun j hj hjs => hj (hjs ▸ hown)
  refine ⟨fun c => ?_, fun b hb c => ?_, fun b hb => ?_, fun s' hs' => ?_, fun j hj => ?_,
    h.booked.accounts⟩
  · rw [h.booked.balance, h.staked_eq he ho, posted_cons, posted_nil, share]
    simp only [howner, true_and, Prod.mk.injEq]
    omega
  · rw [h.booked.balance, posted_cons, posted_nil,
      if_neg fun heq => hb (congrArg Prod.fst heq).symm]
    omega
  · ext j
    rw [h.tracked]
    exact and_iff_left fun heq => hb heq.1
  · have hmem := h.moved.listing.mem_iff (a := s')
    rw [List.singleton_append, List.mem_cons, Option.toList_none, List.map_nil,
      List.nil_append] at hmem
    have hs : s' ≠ s := fun heq => hne _ hs' (congrArg Place.id heq)
    rw [← hmem]
    exact ⟨Or.inr, fun h => h.resolve_left hs⟩
  · have hkept := h.moved.kept j (by simp) (by simpa using hne j hj)
    simpa only [sub_zero, Option.map_id'] using hkept

/-- Only accounts of the table track orders. -/
theorem mem_accounts_of_tracked (hi : i ∈ e.tracked acid) : acid ∈ e.accounts := by
  by_contra hnone
  rw [tracked, Finmap.lookup_eq_none.mpr hnone] at hi
  exact absurd hi (Finset.notMem_empty i)

/-- One pass of the loop: the order leaves the table of the account. -/
theorem Indexed.exists_cancelTracked (he : e.Indexed) (hi : i ∈ e.tracked acid) :
    ∃ e', e.cancelTracked acid i = some e' ∧ e'.Indexed ∧ Returned acid e e' ∧
      ∀ j, j ∈ e'.tracked acid ↔ j ∈ e.tracked acid ∧ j ≠ i := by
  have hacid := mem_accounts_of_tracked hi
  obtain ⟨a, ha⟩ := Finmap.mem_iff.mp hacid
  obtain ⟨hlisted, howner⟩ := (he.tracked acid i).mp hi
  obtain ⟨s, hs, rfl⟩ := List.mem_map.mp ((he.orders i).mp hlisted)
  obtain ⟨e', o, h, ho, hcancelled⟩ := exists_cancel he.toOk hs hacid
  rw [ownerOf, ho, Option.map_some, Option.some.injEq] at howner
  refine ⟨e', ?_, he.cancelled (he.toSolvent.cancel h) ho howner hcancelled,
    hcancelled.returned he.toOk ho howner, fun j => ?_⟩
  · rw [tracked_of_lookup ha] at hi
    simp [cancelTracked, ha, hi, h]
  · rw [hcancelled.tracked]
    simp

/-- The loop, by induction over the table of the account. -/
theorem Indexed.exists_run_cancelTracked {ids : List Id} (he : e.Indexed) (hnodup : ids.Nodup)
    (hids : ∀ i, i ∈ ids ↔ i ∈ e.tracked acid) :
    ∃ e', run (cancelTracked acid) e ids = some e' ∧ e'.Indexed ∧ Returned acid e e' ∧
      e'.tracked acid = ∅ := by
  induction ids generalizing e with
  | nil =>
    refine ⟨e, rfl, he, Returned.refl acid e, Finset.eq_empty_of_forall_notMem fun i hi => ?_⟩
    exact absurd ((hids i).mpr hi) List.not_mem_nil
  | cons i ids ih =>
    obtain ⟨hi, hnodup⟩ := List.nodup_cons.mp hnodup
    obtain ⟨e₁, h₁, he₁, hreturned₁, htracked₁⟩ :=
      he.exists_cancelTracked ((hids i).mp List.mem_cons_self)
    have hids₁ : ∀ j, j ∈ ids ↔ j ∈ e₁.tracked acid := by
      intro j
      rw [htracked₁, ← hids, List.mem_cons]
      constructor
      · exact fun hj => ⟨Or.inr hj, fun heq => hi (heq ▸ hj)⟩
      · exact fun hj => hj.1.resolve_left hj.2
    obtain ⟨e', h, he', hreturned, htracked⟩ := ih he₁ hnodup hids₁
    exact ⟨e', run_cons_eq_some.mpr ⟨e₁, h₁, h⟩, he', hreturned₁.trans hreturned, htracked⟩

/-- **Everybody can leave.** In a state that is reached by operations whose parts
meet the conditions, `cancel_all_orders` has a result, in whatever order the
table of the account gives its orders. After it the account has no order, its
wallets have what they had and what its orders were worth, and the wallets and
orders of all others are as before. -/
theorem exit_returns {ops : List Op}
    (hG : AlongRun (Engine.step hash fuel) ((indexing fuel).Op hash fuel) (Engine.init hash) ops)
    (h : run (Engine.step hash fuel) (Engine.init hash) ops = some e) {pwd : Text}
    (hauth : e.auth hash acid pwd = true) {ids : List Id} (hnodup : ids.Nodup)
    (hids : ∀ i, i ∈ ids ↔ i ∈ e.tracked acid) :
    ∃ e', Engine.step hash fuel e (.api acid pwd (.cancelAllOrders ids)) = some e' ∧
      e'.tracked acid = ∅ ∧ (∀ s ∈ e'.listing, ownerOf e'.pool s.id ≠ some acid) ∧
      (∀ c, e'.balance (acid, c) = e.balance (acid, c) + e.staked acid c) ∧
      (∀ b ≠ acid, e'.tracked b = e.tracked b ∧ ∀ c, e'.balance (b, c) = e.balance (b, c)) ∧
      ∀ s, ownerOf e.pool s.id ≠ some acid → (s ∈ e'.listing ↔ s ∈ e.listing) ∧
        e'.pool.live.lookup s.id = e.pool.live.lookup s.id := by
  have he : e.Indexed := run_invariant (fun _ _ _ he hG h => he.step hG h) (Indexed.init hash) hG h
  obtain ⟨e', hrun, he', hreturned, hnone⟩ := he.exists_run_cancelTracked hnodup hids
  have hacid : acid ∈ e.accounts := by
    obtain ⟨a, ha, -⟩ := Option.any_eq_true _ _ |>.mp (Bool.and_eq_true_iff.mp hauth).2
    exact Finmap.mem_of_lookup_eq_some ha
  obtain ⟨a, ha⟩ := Finmap.mem_iff.mp ((hreturned.accounts acid).mpr hacid)
  have hempty : a.orders = ∅ := (tracked_of_lookup ha).symm.trans hnone
  have hgone : ∀ s ∈ e'.listing, ownerOf e'.pool s.id ≠ some acid := by
    intro s hs howner
    have hlisted := (he'.orders s.id).mpr (List.mem_map_of_mem hs)
    have htracked := (he'.tracked acid s.id).mpr ⟨hlisted, howner⟩
    rw [hnone] at htracked
    exact absurd htracked (Finset.notMem_empty _)
  refine ⟨e', ?_, hnone, hgone, fun c => ?_, fun b hb => ⟨hreturned.tracked b hb,
    hreturned.balance b hb⟩, fun s hs => ⟨hreturned.rests s hs, hreturned.kept _ hs⟩⟩
  · simp [Engine.step, hauth, execute, cancelAllOrders, hrun, ha, hempty]
  · have hwealth := hreturned.wealth c
    rwa [staked_eq_zero hgone, add_zero] at hwealth

/-- Four pounds rest in one order, six are in the wallet. -/
theorem exit_returns_sampleTrade :
    ∃ e, run (Engine.step sampleHash 8) (Engine.init sampleHash)
        (sampleDeposit ++ [sampleTrade ['1', '.', '5']]) = some e ∧
      e.balance (2, gbp) = 600000 ∧ e.staked 2 gbp = 400000 ∧
      ∃ e', Engine.step sampleHash 8 e (.api 2 (List.replicate 8 'p') (.cancelAllOrders [1])) =
          some e' ∧
        e'.tracked 2 = ∅ ∧ (∀ s ∈ e'.listing, ownerOf e'.pool s.id ≠ some 2) ∧
        (∀ c, e'.balance (2, c) = e.balance (2, c) + e.staked 2 c) ∧
        (∀ b ≠ 2, e'.tracked b = e.tracked b ∧ ∀ c, e'.balance (b, c) = e.balance (b, c)) ∧
        ∀ s, ownerOf e.pool s.id ≠ some 2 → (s ∈ e'.listing ↔ s ∈ e.listing) ∧
          e'.pool.live.lookup s.id = e.pool.live.lookup s.id := by
  have hstate : ((run (Engine.step sampleHash 8) (Engine.init sampleHash) sampleDeposit).bind
      fun e => run (Engine.step sampleHash 8) e [sampleTrade ['1', '.', '5']]).map (fun e =>
        (e.auth sampleHash 2 (List.replicate 8 'p'), e.tracked 2, e.balance (2, gbp),
          e.staked 2 gbp)) = some (true, {1}, 600000, 400000) := by
    decide +kernel
  obtain ⟨e, hbind, hstate⟩ := Option.map_eq_some_iff.mp hstate
  simp only [Prod.mk.injEq] at hstate
  obtain ⟨hauth, htracked, hbalance, hstaked⟩ := hstate
  obtain ⟨e₀, h₀, h⟩ := Option.bind_eq_some_iff.mp hbind
  have hrun := (run_append (Engine.init sampleHash) sampleDeposit _).trans hbind
  have hguard : AlongRun (Engine.step sampleHash 8) ((indexing 8).Op sampleHash 8)
      (Engine.init sampleHash) (sampleDeposit ++ [sampleTrade ['1', '.', '5']]) := by
    refine (AlongRun.append_iff h₀).mpr ⟨sampleDeposit_guard _, AlongRun.singleton_iff.mpr ?_⟩
    refine fun _ => sampleTrade_guard fun m hm a ha w hw r hr herror => ?_
    rw [(sampleTrade_error h₀ hm ha hw hr).1] at herror
    cases herror
  refine ⟨e, hrun, hbalance, hstaked,
    exit_returns hguard hrun hauth (List.nodup_singleton 1) fun i => ?_⟩
  rw [htracked, List.mem_singleton, Finset.mem_singleton]

end Engine

end AcCore.Tex.Cex
