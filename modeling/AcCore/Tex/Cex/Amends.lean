import AcCore.Tex.Cex.Books

/-!
# What cancels and updates do to the exchange

A cancel takes one order from the books and posts its value; an update changes
the value of an order, or makes another order next to it for what is added.
-/

namespace AcCore.Tex.Cex

open Lib

namespace Account

variable {a : Account} {c cid : Cur} {v : ℤ}

/-- What can be withdrawn of a positive amount. -/
theorem withdraw_eq (hv : 0 < v) : (a.withdraw cid v).1 = min (a.balance cid) v := by
  unfold withdraw
  cases hw : a.wallets.lookup cid with
  | none => simp [balance, Table.valueAt, hw, min_eq_left hv.le]
  | some w =>
    rw [balance_of_lookup hw]
    simp only [Wallet.withdraw]
    split_ifs with h
    · rw [min_eq_left (le_of_lt h)]
    · rw [min_eq_right (not_lt.mp h)]

/-- A withdrawal takes what is withdrawn from the balance in its currency. -/
theorem balance_withdraw (a : Account) (cid : Cur) (v : ℤ) (c : Cur) :
    (a.withdraw cid v).2.balance c =
      a.balance c + if cid = c then -(a.withdraw cid v).1 else 0 := by
  unfold withdraw
  cases hw : a.wallets.lookup cid with
  | none => simp
  | some w =>
    dsimp only
    rw [balance_insert]
    split_ifs with hc
    · subst hc
      rw [balance_of_lookup hw]
      exact sub_eq_add_neg _ _
    · exact (add_zero _).symm

/-- A withdrawal leaves the discount and the orders. -/
theorem withdraw_other (a : Account) (cid : Cur) (v : ℤ) :
    (a.withdraw cid v).2.commissionDiscount = a.commissionDiscount ∧
      (a.withdraw cid v).2.orders = a.orders := by
  unfold withdraw
  cases a.wallets.lookup cid <;> exact ⟨rfl, rfl⟩

end Account

namespace Engine

variable {e e' e₁ : Engine} {m m' : Market} {p p' : OrderPool} {acid i : Id} {s : Place}
  {o : Order} {amount : ℤ} {found : Bool} {ps : List ((Id × Cur) × ℤ)}

/-! ## Cancels -/

/-- What `_cancel_order` does when it finds the order. -/
structure Cancelled (e : Engine) (acid : Id) (o : Order) (s : Place) (e' : Engine) : Prop where
  moved : Moved e e' (fun _ => 0) [s] none
  booked : Booked [((acid, o.paidCur), o.value)] e e'
  tracked : ∀ b j, j ∈ e'.tracked b ↔ j ∈ e.tracked b ∧ ¬(b = acid ∧ j = s.id)
  nextAccount : e'.nextAccount = e.nextAccount

/-- What `cancel` does: the order does not rest, or it is cancelled. -/
theorem cancel_spec (he : e.Ok) (h : e.cancel acid i = some (e', found)) :
    ∃ o, e.pool.live.lookup i = some o ∧
      ((found = false ∧ e' = e ∧ i ∉ e.listing.map Place.id) ∨
        ∃ s ∈ e.listing, found = true ∧ s.id = i ∧ Cancelled e acid o s e') := by
  simp only [cancel, Option.bind_eq_bind, Option.bind_eq_some_iff] at h
  obtain ⟨o, ho, m, hm, c, hc, h⟩ := h
  refine ⟨o, ho, ?_⟩
  have hmOk := he.markets m (Keyed.mem_of_get hm)
  rcases Market.cancelOrder_spec hmOk hc with
    ⟨rfl, hi⟩ | ⟨o', m', s, ho', rfl, hm', rfl, hweak, hstrong, hperm⟩
  · simp only [Option.pure_def, Option.some.injEq, Prod.mk.injEq] at h
    obtain ⟨rfl, rfl⟩ := h
    exact Or.inl ⟨rfl, rfl, he.notMem_listing ho hm hi⟩
  · obtain rfl : o = o' := Option.some.inj (ho.symm.trans ho')
    simp only [Option.bind_eq_some_iff, Option.pure_def, Option.some.injEq, Prod.mk.injEq] at h
    obtain ⟨e₁, h₁, rfl, rfl⟩ := h
    obtain ⟨a, ha, rfl⟩ := modifyAccount_eq h₁
    have ha' : e.accounts.lookup acid = some a := ha
    have hkey : m'.getKey = m.getKey := getKey_eq hweak hstrong
    have hfound : e.findMarket m'.getKey = some m := by
      rw [hkey, ← hm]
      exact congrArg _ (Keyed.key_of_get hm)
    have hs : s ∈ m.listing := hperm.mem_iff.mpr List.mem_cons_self
    have hse : s ∈ e.listing := mem_listing.mpr ⟨m, Keyed.mem_of_get hm, hs⟩
    have hlisting : e.listing.Perm (s :: (e.setMarket m').listing) := by
      have hboth := (hperm.append_right (e.setMarket m').listing).symm.trans
        (listing_setMarket he.toMarketsOk hfound)
      rw [List.cons_append] at hboth
      exact ((List.perm_append_left_iff m'.listing).mp (List.perm_middle.trans hboth)).symm
    have hnodup := he.nodup
    rw [(hlisting.map Place.id).nodup_iff, List.map_cons, List.nodup_cons] at hnodup
    have hmarkets := he.toMarketsOk.setMarket hfound hm' he.pool le_rfl (fun _ _ _ => rfl) hnodup.2
    have hlookup : ∀ j, (e.pool.delete s.id).live.lookup j =
        if j = s.id then none else e.pool.live.lookup j := fun j => by
      by_cases hj : j = s.id
      · subst hj
        simp [OrderPool.delete]
      · simp [OrderPool.delete, hj, Finmap.lookup_erase_ne hj]
    have hpool : (e.pool.delete s.id).Ok := fun j o' hj => by
      rw [hlookup] at hj
      split_ifs at hj
      exact he.pool j o' hj
    have hrest : ∀ j ∈ (e.setMarket m').listing.map Place.id, j ≠ s.id := fun j hj hjs =>
      hnodup.1 (hjs ▸ hj)
    refine Or.inr ⟨s, hse, rfl, rfl, ⟨⟨?_, fun s' hs' => ?_⟩, ?_, ?_, ?_, ?_, le_rfl, ?_⟩, ?_, ?_,
      rfl⟩
    · refine hmarkets.congr_value rfl hpool le_rfl fun j hj => .of_eq ?_
      change (e.pool.delete s.id).live.lookup j = e.pool.live.lookup j
      rw [hlookup, if_neg (hrest j hj)]
    · obtain ⟨o', ho', hat⟩ := he.placed s' (hlisting.mem_iff.mpr (List.mem_cons_of_mem _ hs'))
      refine ⟨o', ?_, hat⟩
      change (e.pool.delete s.id).live.lookup s'.id = some o'
      rw [hlookup, if_neg (hrest s'.id (List.mem_map_of_mem hs')), ho']
    · exact hlisting.symm
    · simp
    · intro j _ hj
      change (e.pool.delete s.id).live.lookup j = _
      rw [hlookup, if_neg (by simpa using hj)]
      simp
    · intro j hj
      change (e.pool.delete s.id).live.lookup j = _
      rw [hlookup, if_pos (by simpa using hj)]
    · intro j
      change j ∈ e.orders.erase s.id ↔ _
      simp [and_comm]
    · have hbooked : Booked [((acid, o.paidCur), o.value)] e { e with
          accounts := e.accounts.insert acid ((a.untrackOrder s.id).deposit o.paidCur o.value) } :=
        booked_one ha' (Account.balance_deposit _ _ _) rfl
      exact hbooked.congr rfl rfl
    · intro b j
      rw [tracked_insert (e := e)
        (a := (a.untrackOrder s.id).deposit o.paidCur o.value) rfl]
      by_cases hb : b = acid
      · subst hb
        rw [if_pos rfl, tracked_of_lookup ha']
        simp [Account.deposit, Account.untrackOrder, and_comm]
      · simp [hb]

/-! ## Updates -/

/-- The order that an update makes next to another. -/
def addedOrder (o : Order) (amount : ℤ) (j : Id) : Order :=
  (Order.create j (amount - o.value) o.weak o.buy).setData o.accountId o.receivedCur o.paidCur
    o.rate o.weakCur o.strongCur

/-- What `_update_order` does to an order that rests. -/
structure Resized (ps : List ((Id × Cur) × ℤ)) (e : Engine) (acid : Id) (o : Order) (s : Place)
    (amount : ℤ) (e' : Engine) : Prop where
  moved : Moved e e' (fun j => if j = s.id ∧ amount ≤ o.value then o.value - amount else 0) []
    (if amount ≤ o.value then none
      else some ({ s with id := e.pool.next }, addedOrder o amount e.pool.next))
  booked : Booked ps e e'
  tracked : ∀ b j, j ∈ e'.tracked b ↔
    j ∈ e.tracked b ∨ (o.value < amount ∧ b = acid ∧ j = e.pool.next)
  nextAccount : e'.nextAccount = e.nextAccount

/-- What came before, with the books left, joins the postings of an update. -/
theorem Resized.of_same (hbooked : Booked ps e e₁) (hsame : SameBooks e e₁)
    (h : Resized [] e₁ acid o s amount e') : Resized ps e acid o s amount e' := by
  have hlisting : e₁.listing = e.listing := by rw [listing, hsame.markets, ← listing]
  have hmoved := h.moved
  have htracked := h.tracked
  rw [hsame.pool] at hmoved htracked
  refine ⟨⟨hmoved.ok, ?_, ?_, ?_, hmoved.dropped, ?_, ?_⟩, ?_, fun b j => ?_,
    h.nextAccount.trans hsame.nextAccount⟩
  · rw [← hlisting]
    exact hmoved.listing
  · rw [← hsame.pool]
    rw [hsame.pool]
    intro so hso
    have hnew := hmoved.new so hso
    rw [hsame.pool] at hnew
    exact hnew
  · intro j hj hgone
    rw [hmoved.kept j hj hgone, hsame.pool]
  · rw [← hsame.pool]
    exact hmoved.next
  · intro j
    rw [hmoved.orders, hsame.orders]
  · have htrans := hbooked.trans h.booked
    rwa [List.append_nil] at htrans
  · rw [htracked, hsame.tracked]

/-- An order that gets a smaller value, or the one that it has, keeps its place. -/
theorem resized_value (he : e.Ok) (ho : e.pool.live.lookup s.id = some o) (hle : amount ≤ o.value)
    (hlisting : (e.setMarket m').listing.Perm e.listing)
    (hmarkets : MarketsOk { e.setMarket m' with
      pool := e.pool.set s.id { o with value := amount } }) :
    Resized [] e acid o s amount
      { e.setMarket m' with pool := e.pool.set s.id { o with value := amount } } := by
  have hlookup : ∀ j, (e.pool.set s.id { o with value := amount }).live.lookup j =
      (e.pool.live.lookup j).map fun o' => { o' with
        value := o'.value - if j = s.id ∧ amount ≤ o.value then o.value - amount else 0 } := by
    intro j
    by_cases hj : j = s.id
    · subst hj
      rw [OrderPool.lookup_set_self, ho, Option.map_some, if_pos ⟨rfl, hle⟩, sub_sub_cancel]
    · rw [OrderPool.lookup_set_of_ne _ _ hj, if_neg fun hand => hj hand.1]
      simp
  refine ⟨⟨⟨hmarkets, fun s' hs' => ?_⟩, ?_, ?_, ?_, ?_, le_rfl, ?_⟩, .refl rfl, ?_, rfl⟩
  · obtain ⟨o', ho', hat'⟩ := he.placed s' (hlisting.mem_iff.mp hs')
    refine ⟨_, ?_, hat'.withValue
      (o'.value - if s'.id = s.id ∧ amount ≤ o.value then o.value - amount else 0)⟩
    change (e.pool.set s.id { o with value := amount }).live.lookup s'.id = _
    rw [hlookup, ho', Option.map_some]
  · rw [if_pos hle]
    exact hlisting
  · rw [if_pos hle]
    intro so hso
    cases hso
  · intro j _ _
    exact hlookup j
  · simp
  · rw [if_pos hle]
    intro j
    change j ∈ e.orders ↔ _
    simp
  · intro b j
    change j ∈ e.tracked b ↔ _
    simp [not_lt.mpr hle]

/-- An order that gets a greater value keeps its own, and another order has the rest. -/
theorem resized_added (he : e.Ok) (ho : e.pool.live.lookup s.id = some o) (hat : o.At s)
    (hlt : o.value < amount) (ha : e.accounts.lookup acid = some a)
    (hlisting : (e.setMarket m').listing.Perm ({ s with id := e.pool.next } :: e.listing))
    (hmarkets : MarketsOk { e.setMarket m' with
      pool := ((e.pool.set s.id o).newOrder (amount - o.value) o.weak o.buy).2 }) :
    Resized [] e acid o s amount { e.setMarket m' with
      pool := ((e.pool.set s.id o).newOrder (amount - o.value) o.weak o.buy).2.set e.pool.next
        (addedOrder o amount e.pool.next)
      orders := insert e.pool.next e.orders
      accounts := e.accounts.insert acid (a.trackOrder e.pool.next) } := by
  have hfresh := he.notMem_next
  have hle : ¬amount ≤ o.value := not_le.mpr hlt
  have hsame : ∀ j, (e.pool.set s.id o).live.lookup j = e.pool.live.lookup j := fun j => by
    by_cases hj : j = s.id
    · subst hj
      rw [OrderPool.lookup_set_self, ho]
    · exact OrderPool.lookup_set_of_ne _ _ hj
  have hother : ∀ j ≠ e.pool.next,
      ((e.pool.set s.id o).newOrder (amount - o.value) o.weak o.buy).2.live.lookup j =
        e.pool.live.lookup j := fun j hj =>
    ((e.pool.set s.id o).lookup_newOrder_of_ne _ _ _ hj).trans (hsame j)
  have hnew : ((e.pool.set s.id o).newOrder (amount - o.value) o.weak o.buy).2.live.lookup
      e.pool.next = some (Order.create e.pool.next (amount - o.value) o.weak o.buy) :=
    OrderPool.lookup_newOrder_self _ _ _ _
  set pool := (((e.pool.set s.id o).newOrder (amount - o.value) o.weak o.buy).2.set
    e.pool.next (addedOrder o amount e.pool.next)) with hpool
  have hlookup : ∀ j, pool.live.lookup j = if j = e.pool.next then
      some (addedOrder o amount e.pool.next) else e.pool.live.lookup j := fun j => by
    by_cases hj : j = e.pool.next
    · subst hj
      rw [hpool, OrderPool.lookup_set_self, if_pos rfl]
    · rw [hpool, OrderPool.lookup_set_of_ne _ _ hj, if_neg hj]
      exact hother j hj
  have hadded : (addedOrder o amount e.pool.next).At { s with id := e.pool.next } :=
    ⟨hat.weak, hat.rate, hat.weakCur, hat.strongCur, hat.paidCur, hat.receivedCur⟩
  have hpoolOk : pool.Ok := (hmarkets.pool).set hnew rfl
  have hmarkets' : MarketsOk { e.setMarket m' with pool := pool } := by
    refine hmarkets.congr_value rfl hpoolOk le_rfl fun j _ => ?_
    by_cases hj : j = e.pool.next
    · subst hj
      rw [OrderPool.SameValue]
      dsimp only
      rw [hlookup, if_pos rfl, hnew]
      rfl
    · refine .of_eq ?_
      dsimp only
      rw [hlookup, if_neg hj]
      exact (hother j hj).symm
  refine ⟨⟨⟨hmarkets'.congr_value rfl hpoolOk le_rfl fun _ _ => rfl, fun s' hs' => ?_⟩, ?_, ?_,
    ?_, ?_, Nat.le_succ _, ?_⟩, ?_, ?_, rfl⟩
  · change ∃ o', pool.live.lookup s'.id = some o' ∧ o'.At s'
    rcases List.mem_cons.mp (hlisting.mem_iff.mp hs') with rfl | hs'
    · exact ⟨_, by rw [hlookup, if_pos rfl], hadded⟩
    · obtain ⟨o', ho', hat'⟩ := he.placed s' hs'
      have hold : s'.id ≠ e.pool.next := fun h => hfresh (h ▸ List.mem_map_of_mem hs')
      exact ⟨o', by rw [hlookup, if_neg hold, ho'], hat'⟩
  · rw [if_neg hle]
    exact hlisting
  · rw [if_neg hle]
    intro so hso
    obtain rfl := Option.mem_some_iff.mp hso
    exact ⟨rfl, hadded, by
      change pool.live.lookup e.pool.next = _
      rw [hlookup, if_pos rfl]⟩
  · rw [if_neg hle]
    intro j hj _
    have hjn : j ≠ e.pool.next := fun h => hj _ rfl h.symm
    change pool.live.lookup j = _
    rw [hlookup, if_neg hjn, if_neg fun hand => hle hand.2]
    simp
  · simp
  · rw [if_neg hle]
    intro j
    change j ∈ insert e.pool.next e.orders ↔ _
    simp [or_comm, eq_comm]
  · have hbooked : Booked [] e
        { e with accounts := e.accounts.insert acid (a.trackOrder e.pool.next) } :=
      booked_insert ha (by simp) (fun c => (add_zero _).symm) rfl
    exact hbooked.congr rfl rfl
  · intro b j
    rw [tracked_insert (e := e) (a := a.trackOrder e.pool.next) rfl]
    by_cases hb : b = acid
    · subst hb
      rw [if_pos rfl, tracked_of_lookup ha]
      simp [Account.trackOrder, hlt, or_comm]
    · simp [hb]

/-- What `resize` does: nothing, or what `Resized` says of an order that rests. -/
theorem resize_spec (he : e.Ok) (ho : e.pool.live.lookup i = some o)
    (h : e.resize acid i o amount = some e') :
    (e' = e ∧ (amount < 1 ∨ i ∉ e.listing.map Place.id)) ∨
      (1 ≤ amount ∧ ∃ s ∈ e.listing, s.id = i ∧ Resized [] e acid o s amount e') := by
  simp only [resize, Option.bind_eq_bind, Option.bind_eq_some_iff] at h
  obtain ⟨m, hm, ⟨no, m', p'⟩, hupdate, h⟩ := h
  have hmem := Keyed.mem_of_get hm
  have hmOk := he.markets m hmem
  rcases Market.updateOrder_spec hmOk he.pool hupdate with
    ⟨rfl, rfl, rfl, hreason⟩ | ⟨o', s, hpos, hs, rfl, ho', rfl, rfl, hm', hweak, hstrong, hperm⟩
  · obtain rfl := Option.some.inj h
    refine Or.inl ⟨?_, hreason.imp_right (he.notMem_listing ho hm)⟩
    rw [setMarket_self he.toMarketsOk hm]
  · obtain rfl : o = o' := Option.some.inj (ho.symm.trans ho')
    have hse : s ∈ e.listing := mem_listing.mpr ⟨m, hmem, hs⟩
    obtain ⟨o₁, ho₁, hat⟩ := he.placed s hse
    obtain rfl : o = o₁ := Option.some.inj (ho.symm.trans ho₁)
    have hkey : m'.getKey = m.getKey := getKey_eq hweak hstrong
    have hfound : e.findMarket m'.getKey = some m := by
      rw [hkey, ← hm]
      exact congrArg _ (Keyed.key_of_get hm)
    have hlisting : (e.setMarket m').listing.Perm
        ((e.pool.resize s.id o amount).1.toList.map (fun j => { s with id := j }) ++
          e.listing) := by
      have hboth := (listing_setMarket he.toMarketsOk hfound).trans (hperm.append_right e.listing)
      rw [List.append_assoc] at hboth
      refine (List.perm_append_left_iff m.listing).mp (hboth.trans ?_)
      rw [← List.append_assoc, ← List.append_assoc]
      exact List.perm_append_comm.append_right _
    have hfresh := he.notMem_next
    have hnodup : ((e.setMarket m').listing.map Place.id).Nodup := by
      rw [(hlisting.map Place.id).nodup_iff]
      cases hno : (e.pool.resize s.id o amount).1 with
      | none => simpa using he.nodup
      | some j =>
        rw [OrderPool.eq_next_of_mem_resize hno]
        simpa using ⟨by simpa using hfresh, he.nodup⟩
    have hmarkets := he.toMarketsOk.setMarket hfound hm' (he.pool.resize ho)
      OrderPool.next_le_resize (fun j hj hjm => OrderPool.lookup_resize_of_ne
        (fun h => hjm (h ▸ List.mem_map_of_mem hs)) fun h => hfresh (h ▸ hj)) hnodup
    have hne : s.id ≠ e.pool.next := fun h => hfresh (h ▸ List.mem_map_of_mem hse)
    refine Or.inr ⟨hpos, s, hse, rfl, ?_⟩
    by_cases hle : amount ≤ o.value
    · -- the order itself has the new value
      have hresize := OrderPool.resize_of_le (p := e.pool) (i := s.id) hle
      rw [hresize] at h hmarkets hlisting
      obtain rfl := Option.some.inj h
      exact resized_value he ho hle hlisting hmarkets
    · -- another order has what is added
      have hlt : o.value < amount := not_le.mp hle
      have hresize := OrderPool.resize_of_lt (p := e.pool) (i := s.id) hlt
      rw [hresize] at h hmarkets hlisting
      simp only [Option.bind_eq_some_iff] at h
      obtain ⟨o₂, ho₂, h⟩ := h
      obtain ⟨a, ha, rfl⟩ := modifyAccount_eq h
      have hnew : ((e.pool.set s.id o).newOrder (amount - o.value) o.weak o.buy).2.live.lookup
          e.pool.next = some (Order.create e.pool.next (amount - o.value) o.weak o.buy) :=
        OrderPool.lookup_newOrder_self _ _ _ _
      obtain rfl : o₂ = Order.create e.pool.next (amount - o.value) o.weak o.buy :=
        Option.some.inj (Eq.trans (Eq.symm ho₂) hnew)
      exact resized_added he ho hat hlt ha hlisting hmarkets

/-- What `_update_order` pays for an order of this value: what is added to it, as far as
there are funds; less than nothing when the value goes down. -/
def paid (e : Engine) (acid : Id) (o : Order) (amount : ℤ) : ℤ :=
  if 0 < amount - o.value then min (e.balance (acid, o.paidCur)) (amount - o.value)
  else amount - o.value

/-- What `_update_order` does. -/
theorem updateAmount_spec (he : e.Ok) (h : e.updateAmount acid i amount = some e') :
    ∃ o, e.pool.live.lookup i = some o ∧
      ((SameBooks e e' ∧ Booked [((acid, o.paidCur), -e.paid acid o amount)] e e' ∧
          ((o.value < amount ∧ e.paid acid o amount = 0) ∨ amount < 1 ∨
            i ∉ e.listing.map Place.id)) ∨
        (1 ≤ amount ∧ (o.value < amount → e.paid acid o amount ≠ 0) ∧ ∃ s ∈ e.listing, s.id = i ∧
          Resized [((acid, o.paidCur), -e.paid acid o amount)] e acid o s amount e')) := by
  simp only [updateAmount, Option.bind_eq_bind, Option.bind_eq_some_iff] at h
  obtain ⟨o, ho, a, ha, h⟩ := h
  refine ⟨o, ho, ?_⟩
  have hbalance : e.balance (acid, o.paidCur) = a.balance o.paidCur := Table.valueAt_of_lookup ha
  -- the second part, after the postings
  have hresize : ∀ {e₁ : Engine}, Booked [((acid, o.paidCur), -e.paid acid o amount)] e e₁ →
      SameBooks e e₁ → e₁.resize acid i o amount = some e' →
      (o.value < amount → e.paid acid o amount ≠ 0) →
      ((SameBooks e e' ∧ Booked [((acid, o.paidCur), -e.paid acid o amount)] e e' ∧
          ((o.value < amount ∧ e.paid acid o amount = 0) ∨ amount < 1 ∨
            i ∉ e.listing.map Place.id)) ∨
        (1 ≤ amount ∧ (o.value < amount → e.paid acid o amount ≠ 0) ∧ ∃ s ∈ e.listing, s.id = i ∧
          Resized [((acid, o.paidCur), -e.paid acid o amount)] e acid o s amount e')) := by
    intro e₁ hbooked hsame hresize hne
    have hlisting : e₁.listing = e.listing := by rw [listing, hsame.markets, ← listing]
    rcases resize_spec (hsame.ok he) (hsame.pool ▸ ho) hresize with
      ⟨rfl, hreason⟩ | ⟨hpos, s, hs, hid, hresized⟩
    · rw [hlisting] at hreason
      exact Or.inl ⟨hsame, hbooked, Or.inr hreason⟩
    · rw [hlisting] at hs
      exact Or.inr ⟨hpos, hne, s, hs, hid, hresized.of_same hbooked hsame⟩
  by_cases hpositive : o.budgetForUpdate amount > 0
  · rw [if_pos hpositive] at h
    have hbudget : 0 < amount - o.value := hpositive
    have hpaid : e.paid acid o amount = (a.withdraw o.paidCur (amount - o.value)).1 := by
      rw [paid, if_pos hbudget, hbalance, Account.withdraw_eq hbudget]
    have hbooked : Booked [((acid, o.paidCur), -e.paid acid o amount)] e { e with
        accounts := e.accounts.insert acid (a.withdraw o.paidCur (amount - o.value)).2 } := by
      rw [hpaid]
      exact booked_one ha (Account.balance_withdraw _ _ _) (Account.withdraw_other _ _ _).1
    have hsame : SameBooks e { e with
        accounts := e.accounts.insert acid (a.withdraw o.paidCur (amount - o.value)).2 } := by
      refine ⟨rfl, rfl, rfl, rfl, rfl, fun b => ?_⟩
      rw [tracked_insert rfl]
      split_ifs with hb
      · rw [hb, tracked_of_lookup ha, (Account.withdraw_other _ _ _).2]
      · rfl
    split_ifs at h with hzero
    · obtain rfl := Option.some.inj h
      exact Or.inl ⟨hsame, hbooked, Or.inl ⟨by omega, hpaid.trans hzero⟩⟩
    · exact hresize hbooked hsame h fun _ => hpaid ▸ hzero
  · rw [if_neg hpositive, Option.bind_eq_some_iff] at h
    have hbudget : ¬0 < amount - o.value := hpositive
    obtain ⟨e₁, h₁, h⟩ := h
    obtain ⟨hbooked, hsame⟩ := deposit_spec h₁
    have hpaid : e.paid acid o amount = o.budgetForUpdate amount := if_neg hbudget
    rw [← hpaid] at hbooked
    exact hresize hbooked hsame h fun hlt => absurd hlt (by omega)

end Engine

end AcCore.Tex.Cex
