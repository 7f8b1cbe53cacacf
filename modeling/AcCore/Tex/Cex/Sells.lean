import AcCore.Tex.Cex.Books

/-!
# What a trade does to the exchange

A trade moves the orders that are taken and made, and it books what it debits,
what the matches pay, and what goes back to the owners of expired orders. When
it ends in an error it books something else: that is where the exchange goes
wrong.
-/

namespace AcCore.Tex.Cex

open Lib

variable [Rounding]

namespace Engine

/-- The order that a trade leaves in its market. -/
def leftOrder (m : Market) (weak buy : Bool) (rate v : ℤ) (acid i : Id) : Order :=
  (Order.create i v weak buy).setData acid (m.currency !weak) (m.currency weak) rate
    m.weakCurrency m.strongCurrency

omit [Rounding] in
/-- The order that a trade leaves is at its place. -/
theorem leftOrder_at (m : Market) (weak buy : Bool) (rate v : ℤ) (acid i : Id) :
    (leftOrder m weak buy rate v acid i).At (m.place weak (rate, i)) := by
  cases weak <;> exact ⟨rfl, rfl, rfl, rfl, rfl, rfl⟩

/-- What a trade debits: the costs of its matches, and the value of the order
that it leaves. -/
def debit (acid : Id) (charge : Cur) (items : List MatchItem) (made : Option ℤ) :
    (Id × Cur) × ℤ :=
  ((acid, charge), -(items.map (·.back.cost)).sum - made.getD 0)

variable {e e' e₁ : Engine} {m m' : Market} {p p' : OrderPool} {acid i : Id} {s : Place}
  {fuel : ℕ} {weak buy priLow : Bool} {charge : Cur} {w w' : Wallet} {rate amount : ℤ}
  {y : Matching} {gone : List Place} {made : Option ℤ} {r : TradeResult}

/-- What a trade does that does not end in an error. -/
structure Sold (fuel : ℕ) (e : Engine) (acid : Id) (m : Market) (weak : Bool) (charge : Cur)
    (w : Wallet) (rate amount : ℤ) (buy priLow : Bool) (e' : Engine) (y : Matching)
    (gone : List Place) (made : Option ℤ) : Prop where
  trade : ∃ m' p' w' r,
    Market.Traded fuel e.pool m weak w rate amount buy priLow m' p' w' r y gone made ∧
      e'.markets = Keyed.put Market.getKey e.markets m'
  moved : Moved e e' (OrderPool.filled y.ms.items) gone (made.map fun v =>
    (m.place weak (rate, e.pool.next), leftOrder m weak buy rate v acid e.pool.next))
  booked : Booked (debit acid charge y.ms.items made ::
    (y.ms.items.flatMap (e.settlement acid) ++
      (gone.map Place.id).flatMap (refund (e.pool.fill y.ms.items)))) e e'
  tracked : ∀ a j, j ∈ e'.tracked a ↔
    (j ∈ e.tracked a ∨ (made ≠ none ∧ a = acid ∧ j = e.pool.next)) ∧
      ¬(j ∈ gone.map Place.id ∧ ownerOf e.pool j = some a)
  registered : ∀ i ∈ y.ms.items, i.layOrderId ∈ e.orders
  nextAccount : e'.nextAccount = e.nextAccount

/-- What a trade does that ends in an error. -/
structure Failed (fuel : ℕ) (e : Engine) (acid : Id) (m : Market) (weak : Bool) (charge cid : Cur)
    (w : Wallet) (rate amount : ℤ) (buy priLow : Bool) (e' : Engine) (y : Matching)
    (gone : List Place) : Prop where
  trade : ∃ m' p' w' r,
    Market.Traded fuel e.pool m weak w rate amount buy priLow m' p' w' r y gone none ∧
      e'.markets = Keyed.put Market.getKey e.markets m'
  ok : e'.Ok
  listing : (gone ++ e'.listing).Perm e.listing
  pool : e'.pool = e.pool.fill y.ms.items
  orders : e'.orders = e.orders
  booked : Booked [debit acid charge y.ms.items none, ((acid, cid), amount)] e e'
  tracked : ∀ a, e'.tracked a = e.tracked a
  nextAccount : e'.nextAccount = e.nextAccount

/-- The books after the market was written, before the trade is processed. -/
theorem marketsOk_of_traded (he : e.Ok) (hm : e.findMarket m.getKey = some m)
    (ht : Market.Traded fuel e.pool m weak w rate amount buy priLow m' p' w' r y gone made) :
    MarketsOk { e.setMarket m' with pool := p' } ∧
      (gone ++ (e.setMarket m').listing).Perm
        (made.toList.map (fun _ => m.place weak (rate, e.pool.next)) ++ e.listing) := by
  have hmOk := he.markets m (Keyed.mem_of_get hm)
  have hkey : m'.getKey = m.getKey := getKey_eq ht.weakCurrency ht.strongCurrency
  have hm' : e.findMarket m'.getKey = some m := hkey ▸ hm
  have hpool : p'.Ok ∧ e.pool.next ≤ p'.next ∧
      ∀ j, j ≠ e.pool.next → (∀ i ∈ y.ms.items, i.layOrderId ≠ j) →
        p'.live.lookup j = e.pool.live.lookup j := by
    have hfill := he.pool.fill y.ms.items
    rw [ht.pool]
    cases made with
    | none =>
      refine ⟨hfill, (OrderPool.next_fill _ _).ge, fun j _ hj => ?_⟩
      exact e.pool.lookup_fill_of_notMem hj
    | some v =>
      refine ⟨hfill.newOrder v weak buy, ?_, fun j hnext hj => ?_⟩
      · exact (OrderPool.next_fill e.pool y.ms.items).ge.trans (Nat.le_succ _)
      · rw [Option.elim, OrderPool.lookup_newOrder_of_ne, e.pool.lookup_fill_of_notMem hj]
        rwa [OrderPool.next_fill]
  have hperm : (gone ++ (e.setMarket m').listing).Perm
      (made.toList.map (fun _ => m.place weak (rate, e.pool.next)) ++ e.listing) := by
    -- the market has what is made, and what it had but for what is gone
    have hside : (gone ++ m'.listing).Perm
        (made.toList.map (fun _ => m.place weak (rate, e.pool.next)) ++ m.listing) := by
      refine ((m'.listing_perm weak).append_left gone).trans ?_
      refine ((ht.left.append_right _).append_left gone).trans ?_
      rw [List.append_assoc, ← List.append_assoc gone]
      refine (List.perm_append_comm.append_right _).trans ?_
      rw [List.append_assoc]
      refine List.Perm.append_left _ ?_
      refine List.Perm.trans ?_ (m.listing_perm weak).symm
      rw [ht.taken, ← List.append_assoc, ← List.append_assoc]
      exact List.perm_append_comm.append_right _
    have hset := listing_setMarket he.toMarketsOk hm'
    refine (List.perm_append_left_iff m.listing).mp ?_
    have hswap : (m.listing ++ (gone ++ (e.setMarket m').listing)).Perm
        (gone ++ (m.listing ++ (e.setMarket m').listing)) := by
      rw [← List.append_assoc, ← List.append_assoc]
      exact List.perm_append_comm.append_right _
    refine (hswap.trans (hset.append_left gone)).trans ?_
    rw [← List.append_assoc]
    refine (hside.append_right e.listing).trans ?_
    rw [← List.append_assoc]
    exact List.perm_append_comm.append_right _
  refine ⟨he.toMarketsOk.setMarket hm' ht.ok hpool.1 hpool.2.1 ?_ ?_, hperm⟩
  · intro j hj hjm
    refine hpool.2.2 j (fun h => he.notMem_next (h ▸ hj)) fun i hi hij => hjm ?_
    rw [← hij]
    have hmem := (ht.fair i hi).2
    have hlisting : m.place (!weak) (i.rate, i.layOrderId) ∈ m.listing := by
      rw [(m.listing_perm weak).mem_iff]
      exact List.mem_append_right _ hmem
    exact List.mem_map_of_mem (f := Place.id) hlisting
  · have hplaces : (gone ++ (e.setMarket m').listing).Perm ((made.map fun v =>
        (m.place weak (rate, e.pool.next),
          leftOrder m weak buy rate v 0 e.pool.next)).toList.map Prod.fst ++ e.listing) := by
      cases made <;> exact hperm
    have hnodup := nodup_of_perm he.toMarketsOk (fun so hso => by
      obtain ⟨v, -, rfl⟩ := Option.mem_map.mp hso
      rfl) hplaces
    rw [List.map_append, List.nodup_append] at hnodup
    exact hnodup.2.1

omit [Rounding] in
/-- What `process` does about the order that was made. -/
theorem registerOrder_spec (h : e.registerOrder acid r = some e') :
    e'.markets = e.markets ∧ e'.nextAccount = e.nextAccount ∧
      e'.autoMatchFree = e.autoMatchFree ∧ Booked [] e e' ∧
      ((r.order = none ∧ e' = e) ∨ ∃ i o, r.order = some i ∧ e.pool.live.lookup i = some o ∧
        e'.orders = insert i e.orders ∧
        e'.pool = e.pool.set i
          (o.setData acid r.recvCur r.paidCur r.orderRate r.weakCur r.strongCur) ∧
        ∀ b j, j ∈ e'.tracked b ↔ j ∈ e.tracked b ∨ (b = acid ∧ j = i)) := by
  unfold registerOrder at h
  cases horder : r.order with
  | none =>
    rw [horder] at h
    obtain rfl := Option.some.inj h
    exact ⟨rfl, rfl, rfl, .refl rfl, Or.inl ⟨rfl, rfl⟩⟩
  | some i =>
    simp only [horder, Option.bind_eq_bind, Option.bind_eq_some_iff] at h
    obtain ⟨o, ho, h⟩ := h
    obtain ⟨a, ha, rfl⟩ := modifyAccount_eq h
    have hbooked : Booked [] e
        { e with accounts := e.accounts.insert acid (a.trackOrder i) } :=
      booked_insert ha (by simp) (fun c => (add_zero _).symm) rfl
    refine ⟨rfl, rfl, rfl, hbooked.congr rfl rfl, Or.inr ⟨i, o, rfl, ho, rfl, rfl, fun b j => ?_⟩⟩
    rw [tracked_insert (e := e) (a := a.trackOrder i) rfl]
    have ha' : e.accounts.lookup acid = some a := ha
    by_cases hb : b = acid
    · subst hb
      rw [if_pos rfl, tracked_of_lookup ha']
      simp [Account.trackOrder, or_comm]
    · simp [hb]

omit [Rounding] in
/-- Matches leave the owners of the orders. -/
theorem ownerOf_fill (p : OrderPool) (items : List MatchItem) (j : Id) :
    ownerOf (p.fill items) j = ownerOf p j := by
  rw [ownerOf, ownerOf, OrderPool.lookup_fill, Option.map_map]
  rfl

/-- The postings of a match depend on the owner of the order only. -/
theorem settlement_congr_owner {i : MatchItem}
    (howner : ownerOf e'.pool i.layOrderId = ownerOf e.pool i.layOrderId)
    (hfree : e'.autoMatchFree = e.autoMatchFree) (hdiscount : ∀ a, e'.discount a = e.discount a)
    (acid : Id) : e'.settlement acid i = e.settlement acid i := by
  unfold ownerOf at howner
  unfold settlement
  cases ho : e.pool.live.lookup i.layOrderId with
  | none =>
    rw [ho, Option.map_none, Option.map_eq_none_iff] at howner
    rw [howner]
  | some o =>
    rw [ho, Option.map_some, Option.map_eq_some_iff] at howner
    obtain ⟨o', ho', haccount⟩ := howner
    simp only [ho', haccount, hfree, hdiscount]

/-- The engine between the trade of the market and its processing. -/
def traded (e : Engine) (acid : Id) (charge : Cur) (a : Account) (m' : Market) (p' : OrderPool)
    (w' : Wallet) : Engine :=
  { e.setMarket m' with
    pool := p'
    accounts := e.accounts.insert acid { a with wallets := a.wallets.insert charge w' } }

/-- The trade takes from the wallet what its items cost and what rests. -/
theorem booked_traded {a : Account} (ha : e.accounts.lookup acid = some a)
    (hw : a.wallets.lookup charge = some w)
    (ht : Market.Traded fuel e.pool m weak w rate amount buy priLow m' p' w' r y gone made) :
    Booked [debit acid charge y.ms.items made] e (traded e acid charge a m' p' w') := by
  have hbooked : Booked [debit acid charge y.ms.items made] e { e with
      accounts := e.accounts.insert acid { a with wallets := a.wallets.insert charge w' } } := by
    refine booked_one ha (fun c => ?_) rfl
    rw [Account.balance_insert]
    by_cases hc : charge = c
    · subst hc
      rw [if_pos rfl, if_pos rfl, Account.balance_of_lookup hw, ht.paid, ht.wallet]
      omega
    · rw [if_neg hc, if_neg hc, add_zero]
  exact hbooked.congr rfl rfl

omit [Rounding] in
/-- The trade itself changes no list of tracked orders. -/
theorem tracked_traded {a : Account} (ha : e.accounts.lookup acid = some a) (b : Id) :
    (traded e acid charge a m' p' w').tracked b = e.tracked b := by
  rw [tracked_insert (e := e) (a := { a with wallets := a.wallets.insert charge w' }) rfl]
  split_ifs with hb
  · rw [hb, tracked_of_lookup ha]
  · rfl

/-- The engine after the order that a trade has left is registered: its order objects, the
table of orders and those of the accounts. -/
structure LeftRegistered (e : Engine) (acid : Id) (m : Market) (weak buy : Bool) (rate : ℤ)
    (items : List MatchItem) (made : Option ℤ) (next : Id) (e' : Engine) : Prop where
  pool : e'.pool.Ok
  next : e'.pool.next = next
  lookup : ∀ j, e'.pool.live.lookup j = if made ≠ none ∧ j = e.pool.next then
      some (leftOrder m weak buy rate (made.getD 0) acid e.pool.next)
    else (e.pool.fill items).live.lookup j
  orders : ∀ j, j ∈ e'.orders ↔ j ∈ e.orders ∨ (made ≠ none ∧ j = e.pool.next)
  tracked : ∀ b j, j ∈ e'.tracked b ↔
    j ∈ e.tracked b ∨ (made ≠ none ∧ b = acid ∧ j = e.pool.next)

/-- What registering does after a trade. -/
theorem leftRegistered_of_registerOrder {a : Account} (he : e.Ok)
    (hm : e.findMarket m.getKey = some m) (ha : e.accounts.lookup acid = some a)
    (ht : Market.Traded fuel e.pool m weak w rate amount buy priLow m' p' w' r y gone made)
    (h : (traded e acid charge a m' p' w').registerOrder acid r = some e') :
    LeftRegistered e acid m weak buy rate y.ms.items made p'.next e' := by
  have hmarkets := (marketsOk_of_traded he hm ht).1
  have hpool := ht.pool
  obtain ⟨-, -, -, -, hcases⟩ := registerOrder_spec h
  rcases hcases with ⟨horder, rfl⟩ | ⟨i, o, horder, ho, horders, hpool', htracked⟩
  · -- nothing was left
    have hmade : made = none := by
      rw [ht.order, Option.map_eq_none_iff] at horder
      exact horder
    subst hmade
    refine ⟨hmarkets.pool, rfl, fun j => ?_, fun j => ?_, fun b j => ?_⟩
    · simp [traded, hpool]
    · simp [traded, setMarket]
    · simp [tracked_traded ha]
  · obtain ⟨v, rfl⟩ : ∃ v, made = some v := by
      cases made with
      | none =>
        rw [ht.order] at horder
        cases horder
      | some v => exact ⟨v, rfl⟩
    obtain rfl : e.pool.next = i := by
      rw [ht.order] at horder
      exact Option.some.inj horder
    obtain ⟨-, hrecv, hpaid, hrate, hweakCur, hstrongCur⟩ := ht.data (by simp [horder])
    simp only [Option.elim] at hpool
    have hnext : (e.pool.fill y.ms.items).next = e.pool.next := OrderPool.next_fill _ _
    have ho' : p'.live.lookup e.pool.next = some (Order.create e.pool.next v weak buy) := by
      rw [hpool, ← hnext]
      exact OrderPool.lookup_newOrder_self _ _ _ _
    obtain rfl : o = Order.create e.pool.next v weak buy :=
      Option.some.inj (Eq.trans (Eq.symm ho) ho')
    rw [hrecv, hpaid, hrate, hweakCur, hstrongCur] at hpool'
    refine ⟨?_, ?_, fun j => ?_, fun j => ?_, fun b j => ?_⟩
    · rw [hpool']
      exact hmarkets.pool.set ho' rfl
    · rw [hpool']
      rfl
    · rw [hpool']
      by_cases hj : j = e.pool.next
      · subst hj
        rw [OrderPool.lookup_set_self, if_pos ⟨by simp, rfl⟩]
        rfl
      · rw [OrderPool.lookup_set_of_ne _ _ hj, if_neg fun hand => hj hand.2]
        change p'.live.lookup j = _
        rw [hpool, OrderPool.lookup_newOrder_of_ne _ _ _ _ (by rwa [hnext])]
    · rw [horders]
      simp [traded, setMarket, or_comm]
    · rw [htracked, tracked_traded ha]
      simp

/-- The order objects have the values that the trade has left. -/
theorem LeftRegistered.marketsOk
    (h : LeftRegistered e acid m weak buy rate y.ms.items made p'.next e')
    (ht : Market.Traded fuel e.pool m weak w rate amount buy priLow m' p' w' r y gone made)
    (hmarkets : MarketsOk { e.setMarket m' with pool := p' })
    (hsame : e'.markets = (e.setMarket m').markets) : e'.MarketsOk := by
  refine hmarkets.congr_value hsame h.pool h.next.ge fun j _ => ?_
  rw [OrderPool.SameValue, h.lookup]
  dsimp only
  rw [ht.pool]
  have hnext : (e.pool.fill y.ms.items).next = e.pool.next := OrderPool.next_fill _ _
  cases made with
  | none => simp
  | some v =>
    by_cases hj : j = e.pool.next
    · subst hj
      simp only [ne_eq, reduceCtorEq, not_false_eq_true, and_self, if_true, Option.elim]
      rw [← hnext, OrderPool.lookup_newOrder_self]
      rfl
    · simp only [hj, and_false, if_false, Option.elim]
      rw [OrderPool.lookup_newOrder_of_ne _ _ _ _ (by rwa [hnext])]

omit [Rounding] in
/-- Every order of the books is where it says. -/
theorem LeftRegistered.placed {items : List MatchItem} {next : Id} (he : e.Ok)
    (h : LeftRegistered e acid m weak buy rate items made next e') {s : Place}
    (hs : s ∈ made.toList.map (fun _ => m.place weak (rate, e.pool.next)) ++ e.listing) :
    ∃ o, e'.pool.live.lookup s.id = some o ∧ o.At s := by
  rcases List.mem_append.mp hs with hmade | hold
  · obtain ⟨v, hv, rfl⟩ := List.mem_map.mp hmade
    have hmadeNe : made ≠ none := by
      rintro rfl
      cases hv
    refine ⟨_, ?_, leftOrder_at m weak buy rate (made.getD 0) acid e.pool.next⟩
    rw [h.lookup, if_pos ⟨hmadeNe, rfl⟩]
  · obtain ⟨o, ho, hat⟩ := he.placed s hold
    have hne : s.id ≠ e.pool.next := fun h => he.notMem_next (h ▸ List.mem_map_of_mem hold)
    refine ⟨_, ?_, hat.withValue (o.value - OrderPool.filled items s.id)⟩
    rw [h.lookup, if_neg fun hand => hne hand.2, OrderPool.lookup_fill, ho, Option.map_some]

omit [Rounding] in
/-- Orders have the owner that they had. -/
theorem LeftRegistered.ownerOf_eq {items : List MatchItem} {next : Id}
    (h : LeftRegistered e acid m weak buy rate items made next e') {j : Id} (hj : j ≠ e.pool.next) :
    ownerOf e'.pool j = ownerOf e.pool j := by
  rw [ownerOf, h.lookup, if_neg fun hand => hj hand.2, ← ownerOf, ownerOf_fill]

/-- The orders that a trade takes off the book have other ids than the next one. -/
theorem gone_ne_next (he : e.Ok) (hm : e.findMarket m.getKey = some m)
    (ht : Market.Traded fuel e.pool m weak w rate amount buy priLow m' p' w' r y gone made) :
    ∀ j ∈ gone.map Place.id, j ≠ e.pool.next := by
  rintro _ hj rfl
  obtain ⟨s, hs, hid⟩ := List.mem_map.mp hj
  have hrest : s ∈ e.listing := by
    refine mem_listing.mpr ⟨m, Keyed.mem_of_get hm, ?_⟩
    rw [(m.listing_perm weak).mem_iff, ht.taken]
    exact List.mem_append_right _ (List.mem_append_left _ hs)
  exact he.notMem_next (hid ▸ List.mem_map_of_mem hrest)

/-- The orders that a trade matches have other ids than the next one. -/
theorem items_ne_next (he : e.Ok) (hm : e.findMarket m.getKey = some m)
    (ht : Market.Traded fuel e.pool m weak w rate amount buy priLow m' p' w' r y gone made) :
    ∀ i ∈ y.ms.items, i.layOrderId ≠ e.pool.next := by
  intro i hi h
  refine he.notMem_next ?_
  rw [← h]
  refine List.mem_map.mpr ⟨m.place (!weak) (i.rate, i.layOrderId),
    mem_listing.mpr ⟨m, Keyed.mem_of_get hm, ?_⟩, rfl⟩
  rw [(m.listing_perm weak).mem_iff]
  exact List.mem_append_right _ (ht.fair i hi).2

/-- A trade without an error. -/
theorem sold_of_process {a : Account} (he : e.Ok) (hm : e.findMarket m.getKey = some m)
    (ha : e.accounts.lookup acid = some a) (hw : a.wallets.lookup charge = some w)
    (ht : Market.Traded fuel e.pool m weak w rate amount buy priLow m' p' w' r y gone made)
    (h : (traded e acid charge a m' p' w').process acid r = some e') :
    Sold fuel e acid m weak charge w rate amount buy priLow e' y gone made := by
  obtain ⟨hmarketsOk, hperm⟩ := marketsOk_of_traded he hm ht
  simp only [process, Option.bind_eq_bind, Option.bind_eq_some_iff] at h
  obtain ⟨eB, hB, eC, hC, hD⟩ := h
  rw [ht.recorded] at hC
  rw [ht.expired] at hD
  obtain ⟨hmarketsB, hnextB, hfreeB, hbookedB, -⟩ := registerOrder_spec hB
  obtain ⟨hbookedC, hsameC, hknownC⟩ := settleAll_spec hC
  have hfill := he.pool.fill y.ms.items
  have hplaces : (gone ++ (e.setMarket m').listing).Perm ((made.map fun v =>
      (m.place weak (rate, e.pool.next),
        leftOrder m weak buy rate v acid e.pool.next)).toList.map Prod.fst ++ e.listing) := by
    cases made <;> exact hperm
  have hnodup := nodup_of_perm he.toMarketsOk (fun so hso => by
    obtain ⟨v, -, rfl⟩ := Option.mem_map.mp hso
    rfl) hplaces
  rw [List.map_append, List.nodup_append] at hnodup
  have hgone := gone_ne_next he hm ht
  have hreg := leftRegistered_of_registerOrder he hm ha ht hB
  have hlistingB : eB.listing = (e.setMarket m').listing := by
    rw [listing, hmarketsB]
    rfl
  have hOkB : eB.Ok := by
    refine ⟨hreg.marketsOk ht hmarketsOk hmarketsB, fun s hs => hreg.placed he ?_⟩
    rw [hlistingB] at hs
    exact hperm.mem_iff.mp (List.mem_append_right gone hs)
  have hOkC := hsameC.ok hOkB
  obtain ⟨hbookedD, hremoved⟩ := expireAll_spec hnodup.1 hD
  have hlistingC : eC.listing = (e.setMarket m').listing := by
    rw [listing, hsameC.markets, ← listing, hlistingB]
  have hlistingD : e'.listing = (e.setMarket m').listing := by
    rw [listing, hremoved.markets, ← listing, hlistingC]
  have hOkD : e'.Ok := hremoved.ok hOkC fun j hj hrest => by
    rw [hlistingC] at hrest
    exact hnodup.2.2 j hj j hrest rfl
  have hlookupD : ∀ j, e'.pool.live.lookup j =
      if j ∈ gone.map Place.id then none else eB.pool.live.lookup j := fun j => by
    rw [hremoved.pool, hsameC.pool]
  have hplaceItem := items_ne_next he hm ht
  have hbookedA := booked_traded ha hw ht
  refine ⟨⟨m', p', w', r, ht, ?_⟩, ⟨hOkD, ?_, ?_, ?_, ?_, ?_, ?_⟩, ?_, ?_, ?_, ?_⟩
  · rw [hremoved.markets, hsameC.markets, hmarketsB]
    rfl
  · rw [hlistingD]
    exact hplaces
  · intro so hso
    obtain ⟨v, hv, rfl⟩ := Option.mem_map.mp hso
    obtain rfl := Option.mem_def.mp hv
    refine ⟨rfl, leftOrder_at m weak buy rate v acid e.pool.next, ?_⟩
    dsimp only [Market.place]
    rw [hlookupD, if_neg fun hmem => hgone _ hmem rfl, hreg.lookup, if_pos ⟨by simp, rfl⟩]
    rfl
  · intro j hmade hj
    have hne : ¬(made ≠ none ∧ j = e.pool.next) := by
      rintro ⟨hsome, rfl⟩
      obtain ⟨v, rfl⟩ := Option.ne_none_iff_exists'.mp hsome
      exact hmade _ rfl rfl
    rw [hlookupD, if_neg hj, hreg.lookup, if_neg hne, OrderPool.lookup_fill]
  · intro j hj
    rw [hlookupD, if_pos hj]
  · rw [hremoved.next, hsameC.pool, hreg.next]
    rw [ht.pool]
    cases made with
    | none => exact (OrderPool.next_fill _ _).ge
    | some v => exact (OrderPool.next_fill e.pool y.ms.items).ge.trans (Nat.le_succ _)
  · intro j
    rw [hremoved.orders, hsameC.orders, hreg.orders]
    refine and_congr_left fun _ => or_congr_right ?_
    cases made with
    | none => simp
    | some v => simp [Market.place, eq_comm]
  · have hsettlement : y.ms.items.flatMap (eB.settlement acid) =
        y.ms.items.flatMap (e.settlement acid) := by
      refine List.flatMap_congr fun i hi =>
        settlement_congr_owner (hreg.ownerOf_eq (hplaceItem i hi)) (hfreeB.trans rfl)
          (fun b => ?_) acid
      rw [hbookedB.discount, hbookedA.discount]
    have hrefund : (gone.map Place.id).flatMap (refund eC.pool) =
        (gone.map Place.id).flatMap (refund (e.pool.fill y.ms.items)) := by
      refine List.flatMap_congr fun j hj => ?_
      rw [refund, refund, hsameC.pool, hreg.lookup, if_neg fun hand => hgone j hj hand.2]
    rw [hsettlement] at hbookedC
    rw [hrefund] at hbookedD
    exact ((hbookedA.trans hbookedB).trans hbookedC).trans hbookedD |>.congr rfl rfl
  · intro b j
    rw [hremoved.tracked, hsameC.tracked, hreg.tracked, hsameC.pool]
    refine and_congr_right fun _ => not_congr (and_congr_right fun hj => ?_)
    rw [hreg.ownerOf_eq (hgone j hj)]
  · intro i hi
    have hmem := hknownC i hi
    rw [hreg.orders] at hmem
    exact hmem.resolve_right fun hand => hplaceItem i hi hand.2
  · rw [hremoved.nextAccount, hsameC.nextAccount, hnextB]
    rfl

/-- A trade that ends in an error deposits the whole amount. -/
theorem failed_of_deposit {a : Account} {cid : Cur} (he : e.Ok)
    (hm : e.findMarket m.getKey = some m) (ha : e.accounts.lookup acid = some a)
    (hw : a.wallets.lookup charge = some w)
    (ht : Market.Traded fuel e.pool m weak w rate amount buy priLow m' p' w' r y gone none)
    (h : (traded e acid charge a m' p' w').deposit acid cid amount = some e') :
    Failed fuel e acid m weak charge cid w rate amount buy priLow e' y gone := by
  obtain ⟨hmarketsOk, hperm⟩ := marketsOk_of_traded he hm ht
  obtain ⟨hbooked, hsame⟩ := deposit_spec h
  have hpool : e'.pool = e.pool.fill y.ms.items := by
    rw [hsame.pool]
    exact ht.pool
  have hlisting : e'.listing = (e.setMarket m').listing := by
    rw [listing, hsame.markets]
    rfl
  have hOk : (traded e acid charge a m' p' w').Ok := by
    refine ⟨hmarketsOk.congr_value rfl hmarketsOk.pool le_rfl fun _ _ => rfl, fun s hs => ?_⟩
    have hold : s ∈ e.listing := hperm.mem_iff.mp (List.mem_append_right gone hs)
    obtain ⟨o, ho, hat⟩ := he.placed s hold
    refine ⟨_, ?_, hat.withValue (o.value - OrderPool.filled y.ms.items s.id)⟩
    change p'.live.lookup s.id = _
    rw [ht.pool, Option.elim, OrderPool.lookup_fill, ho, Option.map_some]
  refine ⟨⟨m', p', w', r, ht, ?_⟩, hsame.ok hOk, ?_, hpool, ?_,
    ((booked_traded ha hw ht).trans hbooked).congr rfl rfl, fun b => ?_, ?_⟩
  · rw [hsame.markets]
    rfl
  · rw [hlisting]
    exact hperm
  · rw [hsame.orders]
    rfl
  · rw [hsame.tracked, tracked_traded ha]
  · rw [hsame.nextAccount]
    rfl

/-- The currency that a trade charges. -/
def chargeCur (m : Market) (cid : Cur) (buy : Bool) : Cur := if buy then m.otherCur cid else cid

/-- What `_sell` does. -/
theorem sell_spec {cid : Cur} (he : e.Ok) (hm : e.findMarket m.getKey = some m)
    (h : e.sell fuel acid m cid rate amount buy priLow = some e') :
    ∃ a, e.accounts.lookup acid = some a ∧
      ((a.wallets.lookup (chargeCur m cid buy) = none ∧ e' = e) ∨
        ∃ w m' p' w' r y gone, a.wallets.lookup (chargeCur m cid buy) = some w ∧
          m.trade fuel e.pool w cid rate amount buy priLow = some (m', p', w', r) ∧
          ((r.error = false ∧ ∃ made,
              Market.Traded fuel e.pool m (m.paysWeak cid buy) w rate amount buy priLow m' p' w' r y
                gone made ∧
              Sold fuel e acid m (m.paysWeak cid buy) (chargeCur m cid buy) w rate amount buy priLow
                e' y gone made) ∨
            (r.error = true ∧
              Market.Traded fuel e.pool m (m.paysWeak cid buy) w rate amount buy priLow m' p' w' r y
                gone none ∧
              Failed fuel e acid m (m.paysWeak cid buy) (chargeCur m cid buy) cid w rate amount buy
                priLow e' y gone))) := by
  unfold sell at h
  simp only [Option.bind_eq_bind, Option.bind_eq_some_iff] at h
  obtain ⟨a, ha, h⟩ := h
  refine ⟨a, ha, ?_⟩
  rw [← chargeCur] at h
  cases hw : a.wallets.lookup (chargeCur m cid buy) with
  | none =>
    rw [hw] at h
    exact Or.inl ⟨rfl, (Option.some.inj h).symm⟩
  | some w =>
    simp only [hw, Option.bind_eq_some_iff] at h
    obtain ⟨⟨m', p', w', r⟩, htrade, e₁, h₁, h⟩ := h
    obtain ⟨a', ha', rfl⟩ := modifyAccount_eq h₁
    obtain rfl : a = a' := Option.some.inj (ha.symm.trans ha')
    have hside : m.tradeSide (m.paysWeak cid buy) fuel e.pool w rate amount buy priLow =
        some (m', p', w', r) := by
      rw [← htrade, Market.trade]
      cases m.paysWeak cid buy <;> rfl
    obtain ⟨y, gone, made, ht⟩ :=
      Market.tradeSide_spec (he.markets m (Keyed.mem_of_get hm)) he.pool hside
    refine Or.inr ⟨w, m', p', w', r, y, gone, rfl, htrade, ?_⟩
    dsimp only at h
    split_ifs at h with herror
    · obtain rfl := ht.error herror
      exact Or.inr ⟨herror, ht, failed_of_deposit he hm ha hw ht h⟩
    · exact Or.inl ⟨Bool.not_eq_true _ ▸ herror, made, ht, sold_of_process he hm ha hw ht h⟩

end Engine

end AcCore.Tex.Cex
