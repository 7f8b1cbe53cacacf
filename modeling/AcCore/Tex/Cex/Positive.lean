import AcCore.Tex.Cex.Trades

/-!
# Amounts are not negative

With positive rates and values, what a match takes is positive on both sides,
the wallet covers what it pays, and what is left of the amount is not negative:
where conversions there and back gain nothing, rounding never takes more than the
amount.
-/

namespace AcCore.Tex.Cex

open Lib

section

variable [Rounding]

/-- Both sides of a match pay something. -/
def MatchItem.Positive (i : MatchItem) : Prop := 1 ≤ i.lay.cost ∧ 1 ≤ i.back.cost

namespace Order

variable {o o' : Order} {w w' : Wallet} {rate amount left : ℤ} {t : MatchTerms}
  {item : MatchItem} {fuel : ℕ}

/-- What a match converts, and what the conversion back is compared with: the funds
when buying, else the amount. -/
def converted (w : Wallet) (amount : ℤ) (buy : Bool) : ℤ := if buy then w.available else amount

omit [Rounding] in
/-- More that is to be converted allows for more. -/
theorem converted_mono {amount' : ℤ} {buy : Bool} (hle : amount' ≤ amount) :
    converted w amount' buy ≤ converted w amount buy := by
  unfold converted
  split_ifs
  · exact le_rfl
  · exact hle

/-- What a match leaves is not negative, and not more than there was; and what it
takes is positive. -/
structure Solvent (w : Wallet) (amount : ℤ) (ans : Option (MatchItem × Order × Wallet) × ℤ) :
    Prop where
  left : 0 ≤ ans.2
  left_le : ans.2 ≤ amount
  wallet : ∀ r ∈ ans.1, 0 ≤ r.2.2.available ∧ r.2.2.available ≤ w.available
  item : ∀ r ∈ ans.1, r.1.Positive

/-- The amount that the funds suffice for is not negative. -/
theorem newamount_nonneg {weak buy : Bool} (hr : 0 < rate) (hw : 0 ≤ w.available)
    (h : newamount w rate weak buy = some amount) : 0 ≤ amount := by
  unfold newamount at h
  split_ifs at h
  · exact toLay_nonneg hw hr h
  · exact Option.some.inj h ▸ hw

/-- The amount to match is not negative. -/
theorem toMatch_nonneg {weak buy : Bool} {m : ℤ} (hr : 0 < rate) (ha : 0 ≤ amount)
    (h : toMatch rate amount weak buy = some m) : 0 ≤ m := by
  unfold toMatch at h
  split_ifs at h
  · exact Option.some.inj h ▸ ha
  · exact toLay_nonneg ha hr h

omit [Rounding] in
/-- An order receives something, and at most what is to be matched. -/
theorem received_pos {m : ℤ} (hvalue : 1 ≤ o.value) (hm : 1 ≤ m) :
    1 ≤ o.received m ∧ o.received m ≤ m := by
  unfold received
  split_ifs <;> omega

omit [Rounding] in
/-- An order receives nothing negative, and at most what is to be matched. -/
theorem received_nonneg {m : ℤ} (hvalue : 1 ≤ o.value) (hm : 0 ≤ m) :
    0 ≤ o.received m ∧ o.received m ≤ m := by
  unfold received
  split_ifs <;> omega

/-- The cost of a sale is at most the amount. -/
theorem matchCost_le {weak : Bool} {m cost : ℤ} (hgain : Gainless weak rate amount)
    (ha : 0 ≤ amount) (hm : toMatch rate amount weak false = some m)
    (hreceived : 0 ≤ o.received m ∧ o.received m ≤ m)
    (hcost : o.matchCost rate amount m weak false = some cost) : cost ≤ amount := by
  simp only [toMatch, Bool.false_eq_true, if_false] at hm
  simp only [matchCost, Bool.false_eq_true, or_false] at hcost
  split_ifs at hcost
  · exact hgain amount ha le_rfl m hm _ hreceived.1 hreceived.2 cost hcost
  · exact (Option.some.inj hcost).ge

/-- The call of itself is for less: the whole wallet buys less than what costs more. -/
theorem newamount_lt {weak buy : Bool} {m cost amount' : ℤ}
    (hgain : Gainless weak rate (converted w amount buy)) (hw : 0 ≤ w.available) (ha : 0 ≤ amount)
    (hm : toMatch rate amount weak buy = some m)
    (hreceived : 0 ≤ o.received m ∧ o.received m ≤ m)
    (hcost : o.matchCost rate amount m weak buy = some cost) (hfunds : w.available < cost)
    (hnew : newamount w rate weak buy = some amount') : amount' < amount := by
  cases buy with
  | true =>
    simp only [converted, newamount, toMatch, if_true, Option.some.injEq] at hgain hnew hm
    subst hm
    rw [matchCost, if_pos (Or.inr rfl)] at hcost
    by_contra hlt
    have := hgain _ hw le_rfl _ hnew _ hreceived.1 (hreceived.2.trans (not_lt.mp hlt)) _ hcost
    omega
  | false =>
    have hle := matchCost_le (by simpa [converted] using hgain) ha hm hreceived hcost
    obtain rfl := Option.some.inj hnew
    omega

/-- One pass of the match overdraws neither the wallet nor the amount. -/
theorem matchPass_solvent (hr : 0 < rate) (hw : 0 ≤ w.available) (ha : 0 ≤ amount)
    (hvalue : 1 ≤ o.value) (hgain : Gainless t.weak rate (converted w amount t.buy))
    {c : Option (MatchItem × Order × Wallet) × ℤ ⊕ ℤ}
    (h : o.matchPass w rate amount t.cur t.layCur t.weak t.buy = some c) :
    (∀ ans, c = .inl ans → Solvent w amount ans) ∧
      ∀ amount', c = .inr amount' → 0 ≤ amount' ∧ amount' ≤ amount := by
  have hnothing : Solvent w amount (none, amount) := ⟨ha, le_rfl, by simp, by simp⟩
  simp only [matchPass, Option.bind_eq_bind, Option.bind_eq_some_iff, Option.pure_def] at h
  obtain ⟨m, hm, h⟩ := h
  split_ifs at h with hzero
  · obtain rfl := Option.some.inj h
    refine ⟨fun ans hans => ?_, fun _ hc => by cases hc⟩
    obtain rfl := Sum.inl.inj hans
    exact hnothing
  have hmpos : 1 ≤ m := by
    have := toMatch_nonneg hr ha hm
    omega
  have hreceived := received_pos hvalue hmpos
  obtain ⟨cost, hcost, h⟩ := Option.bind_eq_some_iff.mp h
  split_ifs at h with hfunds hnone
  · -- the call of itself
    obtain ⟨amount', hamount', rfl⟩ := Option.map_eq_some_iff.mp h
    refine ⟨fun _ hc => (by cases hc), fun a hc => ?_⟩
    obtain rfl := Sum.inr.inj hc
    exact ⟨newamount_nonneg hr hw hamount',
      (newamount_lt hgain hw ha hm ⟨by omega, hreceived.2⟩ hcost hfunds hamount').le⟩
  · obtain rfl := Option.some.inj h
    refine ⟨fun ans hans => ?_, fun _ hc => by cases hc⟩
    obtain rfl := Sum.inl.inj hans
    exact hnothing
  · obtain rfl := Option.some.inj h
    refine ⟨fun ans hans => ?_, fun _ hc => by cases hc⟩
    obtain rfl := Sum.inl.inj hans
    have hcostNonneg : 0 ≤ cost := by
      unfold matchCost at hcost
      split_ifs at hcost
      · exact toBack_nonneg (by omega) hr hcost
      · exact Option.some.inj hcost ▸ ha
    have hleft : 0 ≤ (if t.buy = true then amount - o.received m else amount - cost) ∧
        (if t.buy = true then amount - o.received m else amount - cost) ≤ amount := by
      by_cases hbuy : t.buy = true
      · rw [toMatch, if_pos hbuy] at hm
        have := Option.some.inj hm
        rw [if_pos hbuy]
        omega
      · rw [Bool.not_eq_true] at hbuy
        rw [hbuy] at hm hcost hgain ⊢
        have := matchCost_le (by simpa [converted] using hgain) ha hm ⟨by omega, hreceived.2⟩ hcost
        simp only [Bool.false_eq_true, if_false]
        omega
    refine ⟨hleft.1, hleft.2, ?_, ?_⟩
    · intro r hr'
      obtain rfl := Option.mem_some_iff.mp hr'
      rw [Wallet.withdraw_of_le (not_lt.mp hfunds)]
      dsimp only
      omega
    · intro r hr'
      obtain rfl := Option.mem_some_iff.mp hr'
      refine ⟨hreceived.1, ?_⟩
      change 1 ≤ cost
      omega

/-- The match of an order overdraws neither the wallet nor the amount. -/
theorem match_solvent (hr : 0 < rate) (hw : 0 ≤ w.available) (ha : 0 ≤ amount)
    (hvalue : 1 ≤ o.value) (hgain : Gainless t.weak rate (converted w amount t.buy))
    {ans : Option (MatchItem × Order × Wallet) × ℤ}
    (h : o.match w rate t.cur t.layCur t.weak t.buy fuel amount = some ans) :
    Solvent w amount ans := by
  induction fuel generalizing amount with
  | zero => cases h
  | succ fuel ih =>
    simp only [«match», Option.bind_eq_bind, Option.bind_eq_some_iff] at h
    obtain ⟨c, hc, h⟩ := h
    obtain ⟨hdone, hagain⟩ := matchPass_solvent hr hw ha hvalue hgain hc
    cases c with
    | inl result =>
      obtain rfl := Option.some.inj h
      exact hdone _ rfl
    | inr amount' =>
      obtain ⟨hnonneg, hle⟩ := hagain _ rfl
      have hans := ih hnonneg (hgain.of_le (converted_mono hle)) h
      exact ⟨hans.left, hans.left_le.trans hle, hans.wallet, hans.item⟩

end Order

/-- The state of a match in which nothing is negative. -/
structure Matching.Solvent (x : Matching) : Prop where
  left : 0 ≤ x.amountLeft
  wallet : 0 ≤ x.wallet.available
  items : ∀ i ∈ x.ms.items, i.Positive

/-- What the passes of a match convert. -/
def Matching.converted (x : Matching) (buy : Bool) : ℤ := Order.converted x.wallet x.amountLeft buy

/-- A pass leaves nothing negative, and takes from what is converted. -/
theorem Touched.solvent {t : MatchTerms} {r : ℤ} {i : Id} {expired : Bool} {x x' : Matching}
    (h : Touched t r i expired x x') (hx : x.Solvent) (hr : 0 < r)
    (hvalue : ∃ o, x.pool.live.lookup i = some o ∧ 1 ≤ o.value)
    (hgain : Gainless t.weak r (x.converted t.buy)) :
    x'.Solvent ∧ x'.amountLeft ≤ x.amountLeft ∧ x'.wallet.available ≤ x.wallet.available := by
  obtain ⟨fuel, o, ans, o', -, ho, hmatch, -, -, rfl⟩ := h.pass
  obtain ⟨o₁, ho₁, hpos⟩ := hvalue
  obtain rfl : o = o₁ := Option.some.inj (ho.symm.trans ho₁)
  have hans := Order.match_solvent hr hx.wallet hx.left hpos hgain hmatch
  have hrecord : (x.record i ans).Solvent ∧ (x.record i ans).amountLeft ≤ x.amountLeft ∧
      (x.record i ans).wallet.available ≤ x.wallet.available := by
    obtain ⟨result, left⟩ := ans
    cases result with
    | none => exact ⟨⟨hans.left, hx.wallet, hx.items⟩, hans.left_le, le_rfl⟩
    | some r =>
      obtain ⟨item, o₂, w⟩ := r
      refine ⟨⟨hans.left, (hans.wallet _ rfl).1, fun j hj => ?_⟩, hans.left_le,
        (hans.wallet _ rfl).2⟩
      rcases List.mem_append.mp hj with hj | hj
      · exact hx.items j hj
      · exact List.mem_singleton.mp hj ▸ hans.item _ rfl
  cases expired
  · exact hrecord
  · exact ⟨⟨hrecord.1.left, hrecord.1.wallet, hrecord.1.items⟩, hrecord.2⟩

omit [Rounding] in
/-- Less is converted after a pass. -/
theorem Matching.converted_le {x x' : Matching} (buy : Bool) (hleft : x'.amountLeft ≤ x.amountLeft)
    (hwallet : x'.wallet.available ≤ x.wallet.available) : x'.converted buy ≤ x.converted buy := by
  unfold converted Order.converted
  split_ifs
  · exact hwallet
  · exact hleft

/-- After a pass the orders that still rest have a value. -/
theorem Touched.values {t : MatchTerms} {r : ℤ} {i : Id} {expired : Bool} {x x' : Matching}
    {l : List (ℤ × Id)} (h : Touched t r i expired x x') (hp : x.pool.Ok)
    (hl : (((r, i) :: l).map Prod.snd).Nodup)
    (hvalues : ∀ e ∈ (r, i) :: l, ∃ o, x.pool.live.lookup e.2 = some o ∧ 1 ≤ o.value) :
    ∀ e ∈ if expired then l else (r, i) :: l,
      ∃ o, x'.pool.live.lookup e.2 = some o ∧ 1 ≤ o.value := by
  obtain ⟨items, -, -, hpool, -, hfair, o', ho', hdust⟩ := h.cases hp
  rw [List.map_cons, List.nodup_cons] at hl
  have hother : ∀ e ∈ l, ∃ o, x'.pool.live.lookup e.2 = some o ∧ 1 ≤ o.value := by
    intro e he
    have hne : ∀ m ∈ items, m.layOrderId ≠ e.2 := fun m hm heq =>
      hl.1 (List.mem_map.mpr ⟨e, he, heq.symm.trans (hfair m hm).2.2⟩)
    rw [hpool, OrderPool.lookup_fill_of_notMem _ hne]
    exact hvalues e (List.mem_cons_of_mem _ he)
  cases expired with
  | true => exact hother
  | false =>
    intro e he
    rcases List.mem_cons.mp he with rfl | he
    · -- what is left of the order is not dust
      refine ⟨o', ho', ?_⟩
      have hne := WaitingQueue.ne_zero_of_couldMatch hdust
      have hnonneg : 0 ≤ o'.value := by
        obtain ⟨fuel, o, ans, o₁, -, ho, hmatch, ho₁, -, hy'⟩ := h.pass
        obtain ⟨o₂, ho₂, hpos⟩ := hvalues _ List.mem_cons_self
        obtain rfl : o = o₂ := Option.some.inj (ho.symm.trans ho₂)
        obtain ⟨o₃, hnonneg, ho₃, -⟩ := WaitingQueue.record_pool ho (by omega) hmatch
        subst hy'
        obtain rfl : o' = o₃ := Option.some.inj (Eq.trans (Eq.symm ho') ho₃)
        exact hnonneg
      omega
    · exact hother e he

/-- A pass keeps the order objects consistent. -/
theorem Touched.pool_ok {t : MatchTerms} {r : ℤ} {i : Id} {expired : Bool} {x x' : Matching}
    (h : Touched t r i expired x x') (hp : x.pool.Ok) : x'.pool.Ok := by
  obtain ⟨items, -, -, hpool, -⟩ := h.cases hp
  exact hpool ▸ hp.fill items

/-- What rounds leave is not negative, and not more than there was; and what they take is
positive. -/
theorem Rounds.solvent {t : MatchTerms} {accepts : ℤ → Prop} {l l' : List (ℤ × Id)}
    {x x' : Matching} (h : Rounds t accepts l x l' x') (hp : x.pool.Ok) (hx : x.Solvent)
    (hl : (l.map Prod.snd).Nodup) (hrates : ∀ e ∈ l, 0 < e.1)
    (hvalues : ∀ e ∈ l, ∃ o, x.pool.live.lookup e.2 = some o ∧ 1 ≤ o.value)
    (hgain : ∀ e ∈ l, accepts e.1 → Gainless t.weak e.1 (x.converted t.buy)) :
    x'.Solvent ∧ x'.amountLeft ≤ x.amountLeft ∧ x'.wallet.available ≤ x.wallet.available := by
  induction h with
  | nil => exact ⟨hx, le_rfl, le_rfl⟩
  | touch haccepts hstep _ ih =>
    obtain ⟨hy, hleft, hwallet⟩ := hstep.solvent hx (hrates _ List.mem_cons_self)
      (hvalues _ List.mem_cons_self) (hgain _ List.mem_cons_self haccepts)
    obtain ⟨hx', hleft', hwallet'⟩ := ih (hstep.pool_ok hp) hy hl hrates
      (hstep.values hp hl hvalues) fun e he haccepts =>
        (hgain e he haccepts).of_le (Matching.converted_le t.buy hleft hwallet)
    exact ⟨hx', hleft'.trans hleft, hwallet'.trans hwallet⟩
  | expire haccepts hstep _ ih =>
    obtain ⟨hy, hleft, hwallet⟩ := hstep.solvent hx (hrates _ List.mem_cons_self)
      (hvalues _ List.mem_cons_self) (hgain _ List.mem_cons_self haccepts)
    have hrest := hstep.values hp hl hvalues
    rw [List.map_cons, List.nodup_cons] at hl
    obtain ⟨hx', hleft', hwallet'⟩ := ih (hstep.pool_ok hp) hy hl.2
      (fun e he => hrates e (List.mem_cons_of_mem _ he)) hrest fun e he haccepts =>
        (hgain e (List.mem_cons_of_mem _ he) haccepts).of_le
          (Matching.converted_le t.buy hleft hwallet)
    exact ⟨hx', hleft'.trans hleft, hwallet'.trans hwallet⟩

/-- Rounds leave no order with a negative value. -/
theorem Rounds.values_nonneg {t : MatchTerms} {accepts : ℤ → Prop} {l l' : List (ℤ × Id)}
    {x x' : Matching} (h : Rounds t accepts l x l' x') {j : Id}
    (hj : ∃ o, x.pool.live.lookup j = some o ∧ 0 ≤ o.value) :
    ∃ o, x'.pool.live.lookup j = some o ∧ 0 ≤ o.value := by
  have hone : ∀ {r : ℤ} {i : Id} {expired : Bool} {x y : Matching}, Touched t r i expired x y →
      (∃ o, x.pool.live.lookup j = some o ∧ 0 ≤ o.value) →
      ∃ o, y.pool.live.lookup j = some o ∧ 0 ≤ o.value := by
    intro r i expired x y hstep ⟨o, ho, hnonneg⟩
    obtain ⟨fuel, o₁, ans, o₂, -, ho₁, hmatch, ho₂, -, rfl⟩ := hstep.pass
    have hpool : (if expired then (x.record i ans).expire i else x.record i ans).pool =
        (x.record i ans).pool := by cases expired <;> rfl
    rw [hpool]
    by_cases hji : j = i
    · subst hji
      obtain rfl : o = o₁ := Option.some.inj (ho.symm.trans ho₁)
      obtain ⟨o₃, hnonneg', ho₃, -⟩ := WaitingQueue.record_pool ho₁ hnonneg hmatch
      exact ⟨o₃, ho₃, hnonneg'⟩
    · obtain ⟨result, left⟩ := ans
      cases result with
      | none => exact ⟨o, ho, hnonneg⟩
      | some r =>
        obtain ⟨item, o', w⟩ := r
        exact ⟨o, (x.pool.lookup_set_of_ne o' hji).trans ho, hnonneg⟩
  induction h with
  | nil => exact hj
  | touch _ hstep _ ih | expire _ hstep _ ih => exact ih (hone hstep hj)

omit [Rounding] in
/-- The rates at which orders rest are positive. -/
theorem Front.QueuesOk.rate_pos {p : OrderPool} {f : Front} (hf : f.QueuesOk p) {e : ℤ × Id}
    (he : e ∈ f.listing) : 0 < e.1 := by
  obtain ⟨q, hq, hmem⟩ := Front.mem_listing.mp he
  rw [((WaitingQueues.mem_listing (hf.queues q hq)).mp hmem).1]
  exact hf.pos q hq

end

/-- In a trade nothing becomes negative. -/
theorem Market.Traded.solvent {fuel : ℕ} {p p' : OrderPool} {m m' : Market} {weak buy priLow : Bool}
    {w w' : Wallet} {limitRate amount : ℤ} {r : TradeResult} {y : Matching} {gone : List Place}
    {made : Option ℤ}
    (h : Traded fuel p m weak w limitRate amount buy priLow m' p' w' r y gone made) (hm : m.Ok p)
    (hp : p.Ok) (hw : 0 ≤ w.available) (ha : 0 ≤ amount) : y.Solvent := by
  have hf := (hm.front !weak).toQueuesOk
  exact (h.rounds.solvent hp ⟨ha, hw, by simp [start]⟩ hf.nodup (fun e he => hf.rate_pos he)
    (fun e he => hf.live he) fun e he _ => gainless_exact (hf.rate_pos he)).1

/-- A trade that leaves the wallet as it was trades nothing. -/
theorem Market.Traded.idle {fuel : ℕ} {p p' : OrderPool} {m m' : Market} {weak buy priLow : Bool}
    {w w' : Wallet} {limitRate amount : ℤ} {r : TradeResult} {y : Matching} {gone : List Place}
    {made : Option ℤ}
    (h : Traded fuel p m weak w limitRate amount buy priLow m' p' w' r y gone made)
    (hw : 0 ≤ w.available) (hm : m.Ok p) (hp : p.Ok) (ha : 0 ≤ amount) (hidle : w' = w) :
    y.ms.items = [] ∧ made = none := by
  have hy := h.solvent hm hp hw ha
  have hpaid := h.paid
  rw [h.wallet, hidle] at hpaid
  have hmade : 0 ≤ made.getD 0 := by
    cases made with
    | none => exact le_rfl
    | some v => exact zero_le_one.trans (h.rest v rfl).1
  have hcosts : 0 ≤ (y.ms.items.map (·.back.cost)).sum := List.sum_nonneg fun c hc => by
    obtain ⟨i, hi, rfl⟩ := List.mem_map.mp hc
    exact zero_le_one.trans (hy.items i hi).2
  constructor
  · cases hitems : y.ms.items with
    | nil => rfl
    | cons i items =>
      have hi := (hy.items i (hitems ▸ List.mem_cons_self)).2
      have hrest : 0 ≤ (items.map (·.back.cost)).sum := List.sum_nonneg fun c hc => by
        obtain ⟨j, hj, rfl⟩ := List.mem_map.mp hc
        exact zero_le_one.trans (hy.items j (hitems ▸ List.mem_cons_of_mem _ hj)).2
      rw [hitems, List.map_cons, List.sum_cons] at hpaid
      omega
  · cases made with
    | none => rfl
    | some v =>
      have hv := (h.rest v rfl).1
      rw [Option.getD_some] at hpaid
      omega

end AcCore.Tex.Cex
