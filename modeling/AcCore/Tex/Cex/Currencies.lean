import AcCore.Tex.Cex.Conservation
import AcCore.Tex.Cex.Failures

/-!
# The currencies of a trade

Who sells a currency of the market pays in it, and who buys one pays in the
other. The wallet that is charged, the costs of the matches, the value of the
order that is left and what is paid out follow from it. A third currency is
taken for one of the two: the wallet of one currency is charged for an order
that has its value in another.
-/

namespace AcCore.Tex.Cex

open Lib

/-- Two currencies have one market, in either order. -/
theorem mem_of_marketKey_eq {a b c d x : Cur} (h : marketKey a b = marketKey c d) :
    x = a ∨ x = b ↔ x = c ∨ x = d := by
  unfold marketKey at h
  split_ifs at h <;> obtain ⟨rfl, rfl⟩ := Prod.mk.inj h
  · exact Iff.rfl
  · exact or_comm
  · exact or_comm
  · exact Iff.rfl

namespace Engine

variable {e e' : Engine} {m : Market} {acid i : Id} {cid : Cur} {rate amount : ℤ}
  {buy priLow weak : Bool} {fuel : ℕ} {hash : Text → UInt64} {w : Wallet} {y : Matching}
  {gone : List Place} {made : Option ℤ}

/-- What a trade costs, and the value of the order that it leaves, is in one
currency, and what it pays out in another. The wallet pays both, and no other
wallet pays. -/
structure PaidIn (charge proceeds : Cur) (acid : Id) (e e' : Engine) (w w' : Wallet)
    (r : TradeResult) : Prop where
  items : ∀ i ∈ r.ms.items, i.back.costCur = charge ∧ i.back.receivedCur = proceeds ∧
    i.lay.costCur = proceeds ∧ i.lay.receivedCur = charge
  order : ∀ j ∈ r.order, ∃ o, e'.pool.live.lookup j = some o ∧ o.valueCur = charge ∧
    o.paidCur = charge ∧ o.receivedCur = proceeds
  wallet : w.available - w'.available =
    (r.ms.items.map (·.back.cost)).sum + r.order.elim 0 e'.pool.valueOf
  others : ∀ k, k ≠ (acid, charge) → e.balance k ≤ e'.balance k

/-- The debit of a sale posts to its own wallet only. -/
theorem posted_debit_of_ne {charge : Cur} {items : List MatchItem} {k : Id × Cur}
    (hk : k ≠ (acid, charge)) : (debit acid charge items made).1 ≠ k := Ne.symm hk

/-- A sale without an error pays in the currency that it charges and pays out in the other. -/
theorem Sold.paidIn (he : e.Solvent) {a : Account} (ha : e.accounts.lookup acid = some a)
    (hw : a.wallets.lookup (m.currency weak) = some w) (hm : e.findMarket m.getKey = some m)
    (hamount : 0 ≤ amount) {m' : Market} {p' : OrderPool} {w' : Wallet} {r : TradeResult}
    (ht : Market.Traded fuel e.pool m weak w rate amount buy priLow m' p' w' r y gone made)
    (h : Sold fuel e acid m weak (m.currency weak) w rate amount buy priLow e' y gone made) :
    PaidIn (m.currency weak) (m.currency !weak) acid e e' w w' r where
  items i hi := by
    have hfair := (ht.fair i (ht.recorded ▸ hi)).1
    exact ⟨hfair.backCostCur, hfair.backReceivedCur, hfair.layCostCur, hfair.layReceivedCur⟩
  order j hj := by
    rw [ht.order] at hj
    obtain ⟨v, rfl, rfl⟩ := Option.map_eq_some_iff.mp hj
    obtain ⟨-, -, hnew⟩ := h.moved.new _ rfl
    refine ⟨_, hnew, ?_, rfl, rfl⟩
    cases weak <;> rfl
  wallet := by
    have hvalue : r.order.elim 0 e'.pool.valueOf = made.getD 0 := by
      rw [ht.order]
      cases made with
      | none => rfl
      | some v => exact OrderPool.valueOf_eq (h.moved.new _ rfl).2.2
    rw [hvalue, ht.recorded, ht.paid, ht.wallet]
    omega
  others k hk := by
    rw [h.booked.balance, posted_cons, if_neg (posted_debit_of_ne hk)]
    have hcredits := he.credits_nonneg ha hw hm hamount h k
    omega

/-- A sale that ends in an error pays in the currency that it charges, and no other wallet pays. -/
theorem Failed.paidIn {charge : Cur} (hamount : 0 ≤ amount) {m' : Market} {p' : OrderPool}
    {w' : Wallet} {r : TradeResult} (hcharge : charge = m.currency weak)
    (ht : Market.Traded fuel e.pool m weak w rate amount buy priLow m' p' w' r y gone none)
    (h : Failed fuel e acid m weak charge cid w rate amount buy priLow e' y gone) :
    PaidIn charge (m.currency !weak) acid e e' w w' r where
  items i hi := by
    have hfair := (ht.fair i (ht.recorded ▸ hi)).1
    subst hcharge
    exact ⟨hfair.backCostCur, hfair.backReceivedCur, hfair.layCostCur, hfair.layReceivedCur⟩
  order j hj := by
    rw [ht.order] at hj
    cases hj
  wallet := by
    rw [ht.order, ht.recorded, ht.paid, ht.wallet, Option.getD_none, Option.map_none]
    simp
  others k hk := by
    rw [h.booked.balance, posted_cons, if_neg (posted_debit_of_ne hk)]
    have hcredit : 0 ≤ posted [((acid, cid), amount)] k := posted_nonneg (by simpa using hamount) k
    omega

/-- A trade pays in one currency of the market and pays out in the other. With a
third currency it is refused. -/
def RightCurrency (fuel : ℕ) (e : Engine) (acid : Id) (m : Market) (t : TradeOrder)
    (priLow : Bool) (e' : Engine) : Prop :=
  (t.curid = t.weakcur ∨ t.curid = t.strongcur →
    ∀ w ∈ e.sellWallet acid m t.curid t.buy,
      ∀ x ∈ m.trade fuel e.pool w t.curid t.rate t.amount t.buy priLow,
        ∃ weak, chargeCur m t.curid t.buy = m.currency weak ∧
          PaidIn (m.currency weak) (m.currency !weak) acid e e' w x.2.2.1 x.2.2.2) ∧
  (¬(t.curid = t.weakcur ∨ t.curid = t.strongcur) →
    e.SellFails fuel acid m t.curid t.rate t.amount t.buy priLow ∧ e' = e)

/-- A trade for a currency of the market pays in the right one. -/
theorem Solvent.sell_paidIn (he : e.Solvent) (hm : e.findMarket m.getKey = some m)
    (hamount : 0 ≤ amount) (hcid : cid = m.weakCurrency ∨ cid = m.strongCurrency)
    (hw : e.sellWallet acid m cid buy = some w) {x : Market × OrderPool × Wallet × TradeResult}
    (hx : m.trade fuel e.pool w cid rate amount buy priLow = some x)
    (h : e.sell fuel acid m cid rate amount buy priLow = some e') :
    PaidIn (m.currency (m.paysWeak cid buy)) (m.currency !(m.paysWeak cid buy)) acid e e' w
      x.2.2.1 x.2.2.2 := by
  have hcharge : chargeCur m cid buy = m.currency (m.paysWeak cid buy) :=
    chargeCur_eq (he.markets m (Keyed.mem_of_get hm)).ne hcid
  obtain ⟨a, ha, hcases⟩ := sell_spec he.toOk hm h
  rw [sellWallet, ha, Option.bind_some] at hw
  rcases hcases with ⟨hnone, -⟩ | ⟨w₁, m', p', w', r, y, gone, hw₁, htrade, hcases⟩
  · rw [hw] at hnone
    cases hnone
  obtain rfl := Option.some.inj (hw.symm.trans hw₁)
  obtain rfl := Option.some.inj (hx.symm.trans htrade)
  rw [hcharge] at hcases hw
  rcases hcases with ⟨-, made, ht, hsold⟩ | ⟨-, ht, hfailed⟩
  · exact hsold.paidIn he ha hw hm hamount ht
  · exact hfailed.paidIn hamount rfl ht

/-- **Trades pay in the right currency.** In every reachable state and for every
input of a trade that is read, the wallet that is charged has the currency of the
costs and of the order that is left, the other currency is paid out, and a third
currency is refused, if and only if the input names one of the two or there is no
wallet to be charged. -/
theorem right_currency {ops : List Op} {input : TradeInput} {t : TradeOrder}
    (h : run (Engine.step hash fuel) (Engine.init hash) ops = some e)
    (hparse : input.parse = .ok t) (hm : e.findMarket (marketKey t.weakcur t.strongcur) = some m)
    (htrade : e.tradeInput fuel acid priLow input = some e') :
    RightCurrency fuel e acid m t priLow e' ↔
      t.curid = t.weakcur ∨ t.curid = t.strongcur ∨
        e.sellWallet acid m t.curid t.buy = none := by
  have he := solvent_of_run h
  have hpos := (TradeInput.parse_pos hparse).1
  have hkey : m.getKey = marketKey t.weakcur t.strongcur := Keyed.key_of_get hm
  have hunits : ∀ x, x = m.weakCurrency ∨ x = m.strongCurrency ↔ x = t.weakcur ∨ x = t.strongcur :=
    fun x => mem_of_marketKey_eq hkey
  have hfound : e.findMarket m.getKey = some m := hkey ▸ hm
  have hsell : e.sell fuel acid m t.curid t.rate t.amount t.buy priLow = some e' := by
    simpa only [tradeInput, hparse, tradeOrder, hm] using htrade
  rw [← or_assoc]
  constructor
  · rintro ⟨-, hforeign⟩
    refine or_iff_not_imp_left.mpr fun hcid => ?_
    obtain ⟨hfails, hsame⟩ := hforeign hcid
    exact (he.sell_fails hfound hpos hfails hsell).mp (congrArg Engine.accounts hsame)
  · rintro (hcid | hnone)
    · refine ⟨fun _ w hw x hx => ⟨m.paysWeak t.curid t.buy, ?_, ?_⟩, fun hforeign =>
        absurd hcid hforeign⟩
      · exact chargeCur_eq (he.markets m (Keyed.mem_of_get hm)).ne ((hunits _).mpr hcid)
      · exact he.sell_paidIn hfound hpos.le ((hunits _).mpr hcid) hw hx hsell
    · refine ⟨fun _ w hw => ?_, fun _ => ⟨fun w hw => ?_, sell_of_sellWallet_eq_none hnone hsell⟩⟩
      · rw [hnone] at hw
        cases hw
      · rw [hnone] at hw
        cases hw

/-- Pounds of the market of euros and pounds are sold. -/
theorem right_currency_sampleTrade :
    ∃ e m e', run (Engine.step sampleHash 8) (Engine.init sampleHash) sampleDeposit = some e ∧
      e.tradeInput 8 2 false (sampleInput ['1', '.', '5']) = some e' ∧
      RightCurrency 8 e 2 m ⟨false, 400000, gbp, 150000, eur, gbp⟩ false e' := by
  have hview : (run (Engine.step sampleHash 8) (Engine.init sampleHash) sampleDeposit).bind
      (fun e => (e.findMarket (marketKey eur gbp)).bind fun _ =>
        (e.tradeInput 8 2 false (sampleInput ['1', '.', '5'])).map fun _ => true) = some true := by
    decide +kernel
  obtain ⟨e, h₀, hview⟩ := Option.bind_eq_some_iff.mp hview
  obtain ⟨m, hm, hview⟩ := Option.bind_eq_some_iff.mp hview
  obtain ⟨e', h₁, -⟩ := Option.map_eq_some_iff.mp hview
  have hparse : (sampleInput ['1', '.', '5']).parse =
      .ok ⟨false, 400000, gbp, 150000, eur, gbp⟩ := by
    have htoOption : (sampleInput ['1', '.', '5']).parse.toOption =
        some ⟨false, 400000, gbp, 150000, eur, gbp⟩ := by decide +kernel
    cases hresult : (sampleInput ['1', '.', '5']).parse with
    | error err =>
      rw [hresult] at htoOption
      cases htoOption
    | ok t =>
      rw [hresult] at htoOption
      rw [Option.some.inj htoOption]
  exact ⟨e, m, e', h₀, h₁, (right_currency h₀ hparse hm h₁).mpr (Or.inr (Or.inl rfl))⟩

/-- Pounds are sold in the market of dollars and euros: an order of four dollars
rests for them. -/
theorem wrong_currency :
    ∃ e e' o, run (Engine.step sampleHash 8) (Engine.init sampleHash) sampleDeposit = some e ∧
      e.tradeInput 8 2 false ⟨['S'], ['4'], ['G', 'B', 'P'], ['1'],
        ['U', 'S', 'D', '/', 'E', 'U', 'R']⟩ = some e' ∧
      e'.balance (2, gbp) = e.balance (2, gbp) - 400000 ∧
      e'.pool.live.lookup 1 = some o ∧ o.value = 400000 ∧ o.valueCur = usd ∧ o.paidCur = usd := by
  have hview : (run (Engine.step sampleHash 8) (Engine.init sampleHash) sampleDeposit).bind
      (fun e => (e.tradeInput 8 2 false ⟨['S'], ['4'], ['G', 'B', 'P'], ['1'],
        ['U', 'S', 'D', '/', 'E', 'U', 'R']⟩).bind fun e' => (e'.pool.live.lookup 1).map fun o =>
          decide (e'.balance (2, gbp) = e.balance (2, gbp) - 400000 ∧ o.value = 400000 ∧
            o.valueCur = usd ∧ o.paidCur = usd)) = some true := by decide +kernel
  simp only [Option.bind_eq_some_iff, Option.map_eq_some_iff, decide_eq_true_eq] at hview
  obtain ⟨e, h₀, e', h₁, o, ho, hbalance, hvalue, hcur, hpaid⟩ := hview
  exact ⟨e, e', o, h₀, h₁, hbalance, ho, hvalue, hcur, hpaid⟩

end Engine

end AcCore.Tex.Cex
