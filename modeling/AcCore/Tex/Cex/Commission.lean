import AcCore.Tex.Cex.Conservation
import AcCore.Tex.Cex.Indexes

/-!
# Commissions

Of what the two sides of a match receive the system account gets its share, and
the rest is credited to them: nothing is lost between the two roundings, and a
share is at most a unit more than the percentage. The orders of an account are
matched with it for free.
-/

namespace AcCore.Tex.Cex

open Lib

/-- A commission of 0.5 % less the discount, up to one unit. -/
structure Commission (discount : ℚ) (received c : ℤ) : Prop where
  nonneg : 0 ≤ c
  le : (c : ℚ) ≤ 5 / 1000 * (1 - discount) * received + 1

/-- The commission of a payment is the discounted part of it. -/
theorem netcomm_commission {d : ℚ} (hd : 0 ≤ d ∧ d ≤ 1) {amount : ℤ} (ha : 0 ≤ amount) :
    Commission d amount (netcomm d amount).2 := by
  refine ⟨(netcomm_nonneg hd ha).2, ?_⟩
  rw [netcomm_exact d ha]
  have hcommission : (amount : ℚ) * (5 / 1000 * (1 - d)) = 5 / 1000 * (1 - d) * amount :=
    mul_comm _ _
  have hcomm := Int.floor_le ((amount : ℚ) * (5 / 1000 * (1 - d)))
  have hnet := Int.lt_floor_add_one ((amount : ℚ) - amount * (5 / 1000 * (1 - d)))
  dsimp only
  split_ifs
  · -- the net amount loses less than a unit, which the commission gets
    push_cast
    linarith
  · linarith

namespace Engine

variable {e e' : Engine} {acid i : Id} {c cid : Cur} {cut : Id → ℤ} {gone : List Place}
  {made : Option (Place × Order)} {o : Order} {s : Place} {m : Market} {fuel : ℕ}
  {weak buy priLow : Bool} {charge : Cur} {w : Wallet} {rate amount : ℤ} {y : Matching}
  {hash : Text → UInt64} {item : MatchItem}

/-! ## The owners of the orders -/

/-- No order that rests belongs to the system account. -/
structure Customers (e : Engine) : Prop extends e.Solvent where
  owners : ∀ i ∈ e.listing.map Place.id, ownerOf e.pool i ≠ some systemAccount

/-- The orders stay with customers when those that are added are. -/
theorem Customers.moved (he : e.Customers) (hsolvent : e'.Solvent) (h : Moved e e' cut gone made)
    (hmade : ∀ so ∈ made, so.2.accountId ≠ systemAccount) : e'.Customers := by
  refine ⟨hsolvent, fun i hi => ?_⟩
  obtain ⟨hold, hgone⟩ := (h.rests he.toMarketsOk i).mp hi
  rw [h.owner_eq i hgone]
  cases made with
  | none =>
    refine he.owners i (hold.resolve_right ?_)
    simp
  | some so =>
    simp only [Option.elim]
    split_ifs with hnew
    · simpa using hmade so rfl
    · refine he.owners i (hold.resolve_right ?_)
      simpa using hnew

/-- What leaves the books alone leaves the orders with customers. -/
theorem Customers.aside (he : e.Customers) (hsolvent : e'.Solvent) (h : Aside e e') :
    e'.Customers where
  toSolvent := hsolvent
  owners i hi := by
    rw [h.pool]
    exact he.owners i (h.listing ▸ hi)

/-- Every step of a customer's operation leaves the orders with customers. -/
theorem Customers.preserved (G : Guards) (fuel : ℕ) (hacid : acid ≠ systemAccount) :
    Preserved G fuel acid Customers where
  sell he hm _ hamount _ h := by
    have hsolvent := he.toSolvent.sell hm hamount.le h
    obtain ⟨a, ha, ⟨-, rfl⟩ | ⟨w, m', p', w', r, y, gone, hw, htrade, ⟨-, v, -, hsold⟩ |
      ⟨-, -, hfailed⟩⟩⟩ := sell_spec he.toOk hm h
    · exact he
    · refine he.moved hsolvent hsold.moved fun so hso => ?_
      obtain ⟨v, -, rfl⟩ := Option.mem_map.mp hso
      exact hacid
    · refine ⟨hsolvent, fun i hi => ?_⟩
      rw [hfailed.pool, ownerOf_fill]
      refine he.owners i ((hfailed.listing.map Place.id).mem_iff.mp ?_)
      rw [List.map_append]
      exact List.mem_append_right _ hi
  cancel he _ h := by
    have hsolvent := he.toSolvent.cancel h
    obtain ⟨o, -, ⟨-, rfl, -⟩ | ⟨s, -, -, -, hcancelled⟩⟩ := cancel_spec he.toOk h
    · exact he
    · exact he.moved hsolvent hcancelled.moved (by simp)
  update he _ _ _ h := by
    have hsolvent := he.toSolvent.updateAmount h
    obtain ⟨o, ho, ⟨hsame, -, -⟩ | ⟨-, -, s, hs, rfl, hresized⟩⟩ := updateAmount_spec he.toOk h
    · exact he.aside hsolvent hsame.aside
    · -- an order that is added has the owner of the other
      refine he.moved hsolvent hresized.moved fun so hso => ?_
      split_ifs at hso
      · cases hso
      · obtain rfl := Option.mem_some_iff.mp hso
        have howner := he.owners s.id (List.mem_map_of_mem hs)
        rw [ownerOf, ho, Option.map_some] at howner
        exact fun hsystem => howner (congrArg some hsystem)

/-- In every engine that operations reach the orders are with customers. -/
theorem customers_of_run {ops : List Op}
    (h : run (Engine.step hash fuel) (Engine.init hash) ops = some e) : e.Customers :=
  Preserved.of_run (fun _ hacid => Customers.preserved _ fuel hacid) Customers.toSolvent
    Customers.aside ⟨Solvent.init hash, fun _ hi => nomatch hi⟩ h

/-! ## The two sides of a match -/

/-- Whether a match is free. -/
def free (e : Engine) (acid : Id) (i : MatchItem) : Bool :=
  decide (ownerOf e.pool i.layOrderId = some acid ∧ e.autoMatchFree = true)

/-- The discount of the owner of an order. -/
def layDiscount (e : Engine) (i : MatchItem) : ℚ :=
  ((ownerOf e.pool i.layOrderId).map e.discount).getD 0

/-- The commission of the order that rests. -/
def layCommission (e : Engine) (acid : Id) (i : MatchItem) : ℤ :=
  (parts (e.free acid i) (e.layDiscount i) i.lay.received).2

/-- The commission of the account that trades. -/
def backCommission (e : Engine) (acid : Id) (i : MatchItem) : ℤ :=
  (parts (e.free acid i) (e.discount acid) i.back.received).2

/-- What is credited for a match: what is received without the commission. -/
def credits (e : Engine) (acid : Id) (i : MatchItem) : List ((Id × Cur) × ℤ) :=
  ((ownerOf e.pool i.layOrderId).toList.map fun b =>
    ((b, i.lay.receivedCur), i.lay.received - e.layCommission acid i)) ++
  [((acid, i.back.receivedCur), i.back.received - e.backCommission acid i)]

/-- The commissions of a match by currency. -/
def commissions (e : Engine) (acid : Id) (i : MatchItem) : List (Cur × ℤ) :=
  [(i.lay.receivedCur, e.layCommission acid i), (i.back.receivedCur, e.backCommission acid i)]

/-- The four postings of one match. -/
theorem settlement_eq (ho : e.pool.live.lookup item.layOrderId = some o) :
    e.settlement acid item =
      [((systemAccount, item.lay.receivedCur), e.layCommission acid item),
        ((o.accountId, item.lay.receivedCur), item.lay.received - e.layCommission acid item),
        ((systemAccount, item.back.receivedCur), e.backCommission acid item),
        ((acid, item.back.receivedCur), item.back.received - e.backCommission acid item)] := by
  have howner : ownerOf e.pool item.layOrderId = some o.accountId := by rw [ownerOf, ho]; rfl
  have hfree : e.free acid item = decide (acid = o.accountId ∧ e.autoMatchFree = true) := by
    have hcomm : o.accountId = acid ↔ acid = o.accountId := eq_comm
    simp only [free, howner, Option.some_inj, hcomm]
  have hdiscount : e.layDiscount item = e.discount o.accountId := by simp [layDiscount, howner]
  have hlay := parts_add (e.free acid item) (e.discount o.accountId) item.lay.received
  have hback := parts_add (e.free acid item) (e.discount acid) item.back.received
  rw [settlement, ho, layCommission, backCommission, hdiscount]
  dsimp only
  rw [← hfree, payment, payment, List.cons_append, List.cons_append, List.nil_append,
    ← eq_sub_of_add_eq hlay, ← eq_sub_of_add_eq hback]

/-- What is posted for matches to others than the system account is credited to
them; to the system account, the commissions. -/
theorem posted_settlements {items : List MatchItem} (hacid : acid ≠ systemAccount)
    (hitems : ∀ i ∈ items, ∃ o, e.pool.live.lookup i.layOrderId = some o ∧
      o.accountId ≠ systemAccount) (b : Id) (c : Cur) :
    posted (items.flatMap (e.settlement acid)) (b, c) =
      if b = systemAccount then posted (items.flatMap (e.commissions acid)) c
      else posted (items.flatMap (e.credits acid)) (b, c) := by
  induction items with
  | nil => simp
  | cons i items ih =>
    obtain ⟨o, ho, howner⟩ := hitems i List.mem_cons_self
    have hrest := ih fun j hj => hitems j (List.mem_cons_of_mem _ hj)
    rw [List.flatMap_cons, List.flatMap_cons, List.flatMap_cons, posted_append, posted_append,
      posted_append, hrest, settlement_eq ho, credits, commissions, ownerOf, ho]
    by_cases hb : b = systemAccount
    · subst hb
      simp [howner, hacid]
    · simp [hb, Ne.symm hb]

/-- The commissions of a match: none when it is free, else up to one unit what
the discounts of both sides leave of 0.5 %. -/
theorem Solvent.commission_bounds (he : e.Solvent)
    (ho : e.pool.live.lookup item.layOrderId = some o)
    (hlay : 0 ≤ item.lay.received) (hback : 0 ≤ item.back.received) :
    if acid = o.accountId ∧ e.autoMatchFree = true then
      e.layCommission acid item = 0 ∧ e.backCommission acid item = 0
    else Commission (e.discount o.accountId) item.lay.received (e.layCommission acid item) ∧
      Commission (e.discount acid) item.back.received (e.backCommission acid item) := by
  have howner : ownerOf e.pool item.layOrderId = some o.accountId := by rw [ownerOf, ho]; rfl
  have hdiscount : e.layDiscount item = e.discount o.accountId := by simp [layDiscount, howner]
  have hcomm : o.accountId = acid ↔ acid = o.accountId := eq_comm
  rw [layCommission, backCommission, hdiscount]
  split_ifs with hfree
  · have htrue : e.free acid item = true := by simpa [free, howner, hcomm] using hfree
    simp [parts, htrue]
  · have hfalse : e.free acid item = false := by simpa [free, howner, hcomm] using hfree
    simp only [parts, hfalse, Bool.false_eq_true, if_false]
    exact ⟨netcomm_commission (he.discount _) hlay, netcomm_commission (he.discount _) hback⟩

/-- **Commission accounting.** In every reachable state, for every sale that does
not end in an error: each match is of an order whose owner is credited what the
order receives without its commission, and the account that trades what it
receives without its own; besides this the accounts but for that of the system
are only debited what the trade costs and given back what expires; and the
system account gets the sum of the commissions. -/
theorem commissions_booked {ops : List Op} {pwd : Text} {a : Account} {m' : Market}
    {p' : OrderPool} {w' : Wallet} {r : TradeResult}
    (hrun : run (Engine.step hash fuel) (Engine.init hash) ops = some e)
    (hauth : e.auth hash acid pwd = true) (hm : e.findMarket m.getKey = some m)
    (hamount : 0 < amount) (ha : e.accounts.lookup acid = some a)
    (hw : a.wallets.lookup (chargeCur m cid buy) = some w)
    (htrade : m.trade fuel e.pool w cid rate amount buy priLow = some (m', p', w', r))
    (herror : r.error = false)
    (h : e.sell fuel acid m cid rate amount buy priLow = some e') :
    (∀ i ∈ r.ms.items, ∃ o, e.pool.live.lookup i.layOrderId = some o ∧
      if acid = o.accountId ∧ e.autoMatchFree = true then
        e.layCommission acid i = 0 ∧ e.backCommission acid i = 0
      else Commission (e.discount o.accountId) i.lay.received (e.layCommission acid i) ∧
        Commission (e.discount acid) i.back.received (e.backCommission acid i)) ∧
    (∃ made, ∀ k, k.1 ≠ systemAccount → e'.balance k = e.balance k +
      posted [debit acid (chargeCur m cid buy) r.ms.items made] k +
      posted (r.ms.items.flatMap (e.credits acid)) k +
      posted (r.ms.expiredOrders.flatMap (refund (e.pool.fill r.ms.items))) k) ∧
    ∀ c, e'.balance (systemAccount, c) = e.balance (systemAccount, c) +
      posted (r.ms.items.flatMap (e.commissions acid)) c := by
  have he := customers_of_run hrun
  have hacid : acid ≠ systemAccount := by
    simp only [Engine.auth, Bool.and_eq_true, decide_eq_true_eq] at hauth
    exact hauth.1
  have hmem := Keyed.mem_of_get hm
  have hmOk := he.markets m hmem
  obtain ⟨a', ha', ⟨hnone, -⟩ | ⟨w₁, m₁, p₁, w₂, r₁, y, gone, hw₁, htrade₁, hcases⟩⟩ :=
    sell_spec he.toOk hm h
  · obtain rfl : a = a' := Option.some.inj (ha.symm.trans ha')
    rw [hw] at hnone
    cases hnone
  obtain rfl : a = a' := Option.some.inj (ha.symm.trans ha')
  obtain rfl : w = w₁ := Option.some.inj (hw.symm.trans hw₁)
  obtain ⟨rfl, rfl, rfl, rfl⟩ : m' = m₁ ∧ p' = p₁ ∧ w' = w₂ ∧ r = r₁ := by
    simpa using htrade.symm.trans htrade₁
  obtain ⟨-, made, ht, hsold⟩ | ⟨herror', -⟩ := hcases
  swap
  · rw [herror] at herror'
    cases herror'
  have hy := ht.solvent hmOk he.pool (he.wallet_nonneg ha hw) hamount.le
  have hrests :
      ∀ i ∈ y.ms.items, m.place (!m.paysWeak cid buy) (i.rate, i.layOrderId) ∈ e.listing :=
    fun i hi => mem_listing.mpr ⟨m, hmem, (m.listing_perm _).mem_iff.mpr
      (List.mem_append_right _ (ht.fair i hi).2)⟩
  have howners : ∀ s ∈ e.listing, ∃ o, e.pool.live.lookup s.id = some o ∧
      o.accountId ≠ systemAccount := by
    intro s hs
    obtain ⟨o, ho, -⟩ := he.live hs
    have howner := he.owners s.id (List.mem_map_of_mem hs)
    rw [ownerOf, ho, Option.map_some] at howner
    exact ⟨o, ho, fun hsystem => howner (congrArg some hsystem)⟩
  have hposted := posted_settlements hacid fun i hi => howners _ (hrests i hi)
  rw [ht.recorded, ht.expired]
  refine ⟨fun i hi => ?_, ⟨made, fun k hk => ?_⟩, fun c => ?_⟩
  · obtain ⟨o, ho, -⟩ := howners _ (hrests i hi)
    have hfair := (ht.fair i hi).1
    have hpositive := hy.items i hi
    refine ⟨o, ho, he.commission_bounds ho ?_ ?_⟩
    · rw [hfair.layReceived]
      exact zero_le_one.trans hpositive.2
    · rw [← hfair.layCost]
      exact zero_le_one.trans hpositive.1
  · obtain ⟨b, c⟩ := k
    have hbalance := hsold.booked.balance (b, c)
    rw [posted_cons, posted_append, hposted, if_neg hk] at hbalance
    rw [hbalance, posted_cons, posted_nil]
    omega
  · have hbalance := hsold.booked.balance (systemAccount, c)
    have hrefund : posted ((gone.map Place.id).flatMap (refund (e.pool.fill y.ms.items)))
        (systemAccount, c) = 0 := by
      refine posted_eq_zero fun p hp => ?_
      obtain ⟨j, hj, hp⟩ := List.mem_flatMap.mp hp
      obtain ⟨s, hs, rfl⟩ := List.mem_map.mp hj
      obtain ⟨o, ho, howner⟩ := howners s (hsold.moved.mem_of_gone hs)
      rw [refund, OrderPool.lookup_fill, ho] at hp
      obtain rfl := List.mem_singleton.mp hp
      exact fun heq => howner (congrArg Prod.fst heq)
    rw [posted_cons, posted_append, hposted, if_pos rfl, hrefund] at hbalance
    rw [hbalance, debit]
    simp [hacid]

/-- The buyer sells 3 euros, and the order of the first is matched. -/
theorem commissions_booked_sampleBuyer :
    ∃ e e' m a w t, run (Engine.step sampleHash 8) (Engine.init sampleHash)
        (sampleDeposit ++ [sampleTrade ['1', '.', '5']] ++ sampleBuyer) = some e ∧
      e.findMarket (marketKey eur gbp) = some m ∧ e.accounts.lookup 3 = some a ∧
      a.wallets.lookup eur = some w ∧
      m.trade 8 e.pool w eur 150000 300000 false false = some t ∧
      e.sell 8 3 m eur 150000 300000 false false = some e' ∧
      (t.2.2.2.ms.items.map fun i => (e.layCommission 3 i, e.backCommission 3 i)) =
        [(1500, 1000)] ∧
      e'.balance (systemAccount, eur) = e.balance (systemAccount, eur) +
        posted (t.2.2.2.ms.items.flatMap (e.commissions 3)) eur := by
  have hruns : ((run (Engine.step sampleHash 8) (Engine.init sampleHash)
      (sampleDeposit ++ [sampleTrade ['1', '.', '5']] ++ sampleBuyer)).bind fun e =>
        (e.findMarket (marketKey eur gbp)).bind fun m => (e.accounts.lookup 3).bind fun a =>
          (a.wallets.lookup eur).bind fun w =>
            (m.trade 8 e.pool w eur 150000 300000 false false).bind fun t =>
              (e.sell 8 3 m eur 150000 300000 false false).map fun _ =>
                decide (e.auth sampleHash 3 (List.replicate 8 'q') = true ∧
                  m.getKey = marketKey eur gbp ∧ chargeCur m eur false = eur ∧
                  t.2.2.2.error = false ∧ (t.2.2.2.ms.items.map fun i =>
                    (e.layCommission 3 i, e.backCommission 3 i)) = [(1500, 1000)])) =
      some true := by decide +kernel
  simp only [Option.bind_eq_some_iff, Option.map_eq_some_iff, decide_eq_true_eq] at hruns
  obtain ⟨e, h₀, m, hm, a, ha, w, hw, t, ht, e', hsell, hauth, hkey, hcharge, herror, hitems⟩ :=
      hruns
  rw [← hkey] at hm
  rw [← hcharge] at hw
  obtain ⟨-, -, hsystem⟩ := commissions_booked h₀ hauth hm (by decide) ha hw ht herror hsell
  rw [hkey] at hm
  rw [hcharge] at hw
  exact ⟨e, e', m, a, w, t, h₀, hm, ha, hw, ht, hsell, hitems, hsystem eur⟩

end Engine

end AcCore.Tex.Cex
