import AcCore.Tex.Cex.Execution

/-!
# What a match leaves

A match that leaves something of its amount has filled the orders that are gone: each
took its whole value. So what is left, and what is left of the funds, follows from the
orders as they were before. Only a sale that is short of funds leaves less: the funds
that are left.
-/

namespace AcCore.Tex.Cex

open Lib

variable [Rounding]

namespace Order

variable {o : Order} {w : Wallet} {rate amount left : ℤ} {t : MatchTerms} {fuel : ℕ}
  {result : Option (MatchItem × Order × Wallet)} {ans : Option (MatchItem × Order × Wallet) × ℤ}

/-- A call of `match` ends in its first pass, or, when the wallet limits it, in the pass for
what leaves the wallet empty. -/
theorem match_cases (hr : 0 < rate) (hw : 0 ≤ w.available) (ha : 0 ≤ amount)
    (hvalue : 1 ≤ o.value) (hgain : Gainless t.weak rate (converted w amount t.buy))
    (h : o.match w rate t.cur t.layCur t.weak t.buy fuel amount = some ans) :
    o.matchPass w rate amount t.cur t.layCur t.weak t.buy = some (.inl ans) ∨
      o.Limited w rate amount t.weak t.buy ∧
          ∃ amount', newamount w rate t.weak t.buy = some amount' ∧
        0 ≤ amount' ∧ amount' < amount ∧
        o.matchPass w rate amount' t.cur t.layCur t.weak t.buy = some (.inl ans) := by
  have hless : ∀ {a a' : ℤ}, 0 ≤ a → a ≤ amount →
      o.matchPass w rate a t.cur t.layCur t.weak t.buy = some (.inr a') →
        newamount w rate t.weak t.buy = some a' ∧ 0 ≤ a' ∧ a' < a := by
    intro a a' ha hle hpass
    obtain ⟨m, cost, hm, hne, hcost, hfunds⟩ := matchPass_limited hpass
    have hnew : newamount w rate t.weak t.buy = some a' := by
      simp only [matchPass, hm, Option.bind_eq_bind, Option.bind_some, if_neg hne, hcost,
        if_pos hfunds] at hpass
      obtain ⟨a₁, hnew, heq⟩ := Option.map_eq_some_iff.mp hpass
      exact Sum.inr.inj heq ▸ hnew
    have hpos : 1 ≤ m := by
      have := toMatch_nonneg hr ha hm
      omega
    have hreceived := received_pos hvalue hpos
    exact ⟨hnew, newamount_nonneg hr hw hnew,
      newamount_lt (hgain.of_le (converted_mono hle)) hw ha hm ⟨by omega, hreceived.2⟩ hcost hfunds
        hnew⟩
  cases fuel with
  | zero => cases h
  | succ fuel =>
    simp only [«match», Option.bind_eq_bind, Option.bind_eq_some_iff] at h
    obtain ⟨c, hc, h⟩ := h
    cases c with
    | inl result => exact Or.inl (Option.some.inj h ▸ hc)
    | inr amount' =>
      obtain ⟨hnew, hnonneg, hlt⟩ := hless ha le_rfl hc
      refine Or.inr ⟨matchPass_limited hc, amount', hnew, hnonneg, hlt, ?_⟩
      cases fuel with
      | zero => cases h
      | succ fuel =>
        simp only [«match», Option.bind_eq_bind, Option.bind_eq_some_iff] at h
        obtain ⟨c, hc', h⟩ := h
        cases c with
        | inl result => exact Option.some.inj h ▸ hc'
        | inr amount'' =>
          -- the amount of a call depends on the wallet only, and it would have to be less
          obtain ⟨hnew', -, hlt'⟩ := hless hnonneg hlt.le hc'
          have := Option.some.inj (hnew.symm.trans hnew')
          omega

/-- An amount that exceeds the value of an order is matched with the whole of it, at the
cost `c`. -/
structure Filled (o : Order) (w : Wallet) (rate amount : ℤ) (t : MatchTerms)
    (ans : Option (MatchItem × Order × Wallet) × ℤ) (c : ℤ) : Prop where
  exceeds : ∃ m, toMatch rate amount t.weak t.buy = some m ∧ o.value < m
  cost : toBack t.weak rate o.value = some c
  funds : c ≤ w.available
  left : ans.2 = amount - if t.buy then o.value else c
  filled : ∃ item w', ans.1 = some (item, { o with value := 0 }, w') ∧
    w'.available = w.available - c

/-- A pass that ends takes the whole amount, or the whole value of the order, or nothing. -/
theorem matchPass_leaves
    (h : o.matchPass w rate amount t.cur t.layCur t.weak t.buy = some (.inl ans)) :
    ans.2 = 0 ∨ (∃ c, o.Filled w rate amount t ans c) ∨ ans = (none, amount) := by
  simp only [matchPass, Option.bind_eq_bind, Option.bind_eq_some_iff, Option.pure_def] at h
  obtain ⟨m, hm, h⟩ := h
  split_ifs at h with hzero
  · exact Or.inr (Or.inr (Sum.inl.inj (Option.some.inj h)).symm)
  obtain ⟨cost, hcost, h⟩ := Option.bind_eq_some_iff.mp h
  split_ifs at h with hfunds hnone
  · simp at h
  · exact Or.inr (Or.inr (Sum.inl.inj (Option.some.inj h)).symm)
  obtain rfl := Sum.inl.inj (Option.some.inj h)
  by_cases hall : m > o.value
  · have hfilled : o.afterMatch m = { o with value := 0 } := by simp [afterMatch, hall]
    refine Or.inr
        (Or.inl ⟨cost, ⟨m, hm, hall⟩, ?_, not_lt.mp hfunds, ?_, _, _, by rw [hfilled], ?_⟩)
    · simpa [matchCost, received, hall] using hcost
    · cases hbuy : t.buy <;> simp [MatchItem.amountLeft, matchItem, received, hall]
    · simp only [Wallet.withdraw]
      rw [if_neg (by omega)]
  · refine Or.inl ?_
    cases hbuy : t.buy with
    | true =>
      -- the amount to buy is in the currency of the order
      rw [hbuy] at hm
      obtain rfl := Option.some.inj hm
      simp [MatchItem.amountLeft, matchItem, received, hall]
    | false =>
      rw [hbuy] at hcost
      simp only [matchCost, hall, Bool.false_eq_true, or_self, if_false] at hcost
      obtain rfl := Option.some.inj hcost
      simp [MatchItem.amountLeft, matchItem]

/-- A smaller amount has less to match. -/
theorem toMatch_mono {amount' m m' : ℤ} {weak buy : Bool} (hr : 0 < rate) (ha : 0 ≤ amount')
    (hle : amount' ≤ amount) (hm : toMatch rate amount weak buy = some m)
    (hm' : toMatch rate amount' weak buy = some m') : m' ≤ m := by
  cases buy with
  | true => exact Option.some.inj hm' ▸ Option.some.inj hm ▸ hle
  | false =>
    have hm : toLay weak rate amount = some m := hm
    have hm' : toLay weak rate amount' = some m' := hm'
    rw [toLay_of_pos hr] at hm hm'
    obtain rfl := Option.some.inj hm
    obtain rfl := Option.some.inj hm'
    cases weak with
    | true => exact mulRate_mono ha hr.le hle
    | false => exact quotient_mono ha hr.le hle

/-- What exhausts an order costs as much for every amount that does. -/
theorem Filled.not_limited {amount' c : ℤ} (hr : 0 < rate) (ha : 0 ≤ amount')
    (hle : amount' ≤ amount)
    (h : o.Filled w rate amount' t ans c) : ¬o.Limited w rate amount t.weak t.buy := by
  rintro ⟨m, cost, hm, -, hcost, hfunds⟩
  obtain ⟨m', hm', hexceeds⟩ := h.exceeds
  have hall : m > o.value := hexceeds.trans_le (toMatch_mono hr ha hle hm hm')
  simp only [matchCost, received, hall, true_or, if_true] at hcost
  have : cost = c := Option.some.inj (hcost.symm.trans h.cost)
  have := h.funds
  omega

/-- A call of `match` leaves nothing, or what the order leaves that it takes as a whole, or it
takes nothing: then all of the amount is left, or what the funds pay. -/
theorem match_leaves (hr : 0 < rate) (hw : 0 ≤ w.available) (ha : 0 ≤ amount) (hvalue : 1 ≤ o.value)
    (hgain : Gainless t.weak rate (converted w amount t.buy))
    (h : o.match w rate t.cur t.layCur t.weak t.buy fuel amount = some ans) :
    ans.2 = 0 ∨ (∃ c, o.Filled w rate amount t ans c) ∨ ans = (none, amount) ∨
      ans.1 = none ∧ ans.2 < amount ∧ newamount w rate t.weak t.buy = some ans.2 ∧
        o.matchPass w rate ans.2 t.cur t.layCur t.weak t.buy = some (.inl (none, ans.2)) := by
  rcases match_cases hr hw ha hvalue hgain h with
    hpass | ⟨hlimited, amount', hnew, hnonneg, hlt, hpass⟩
  · exact Or.imp_right (Or.imp_right Or.inl) (matchPass_leaves hpass)
  · rcases matchPass_leaves hpass with hzero | ⟨c, hfilled⟩ | rfl
    · exact Or.inl hzero
    · exact absurd hlimited (hfilled.not_limited hr hnonneg hlt.le)
    · exact Or.inr (Or.inr (Or.inr ⟨rfl, hlt, hnew, hpass⟩))

end Order

/-! ## The orders that are gone -/

/-- What the orders of a list are worth. -/
def fillValue (p : OrderPool) (l : List (ℤ × Id)) : ℤ := (l.map fun e => p.valueOf e.2).sum

/-- What they cost, each as a whole. -/
def fillCost (p : OrderPool) (weak : Bool) : List (ℤ × Id) → Option ℤ
  | [] => some 0
  | e :: l => do
    let cost ← toBack weak e.1 (p.valueOf e.2)
    return cost + (← fillCost p weak l)

/-- What is left of the funds and of the amount when something of value `v` was matched at
the cost `c`: a sale may have been reduced to what was left of the funds. -/
structure Reduced (buy : Bool) (w : Wallet) (amount v c : ℤ) (w' : Wallet) (left : ℤ) : Prop where
  funds : w'.available = w.available - c
  left : left = amount - (if buy then v else c) ∨
    buy = false ∧ left = w'.available ∧ w'.available ≤ amount - c

/-- What is left when the orders of a list were matched as a whole. -/
def LeftBy (p : OrderPool) (weak buy : Bool) (w : Wallet) (amount : ℤ) (gone : List (ℤ × Id))
    (w' : Wallet) (left : ℤ) : Prop :=
  ∃ c, fillCost p weak gone = some c ∧ Reduced buy w amount (fillValue p gone) c w' left

variable {p p' : OrderPool} {gone gone' : List (ℤ × Id)} {weak buy : Bool} {w w' w₁ : Wallet}
  {amount left left₁ v v' c c' : ℤ}

omit [Rounding] in
/-- What one fill and then another one take off. -/
theorem Reduced.trans (h : Reduced buy w amount v c w₁ left₁)
    (h' : Reduced buy w₁ left₁ v' c' w' left) :
    Reduced buy w amount (v + v') (c + c') w' left := by
  obtain ⟨hfunds, hleft⟩ := h
  obtain ⟨hfunds', hleft'⟩ := h'
  refine ⟨by omega, ?_⟩
  cases buy with
  | true =>
    simp only [if_true, Bool.true_eq_false, false_and, or_false] at hleft hleft' ⊢
    omega
  | false =>
    simp only [Bool.false_eq_true, if_false, true_and] at hleft hleft' ⊢
    omega

/-- The costs of filling two lists of orders add up. -/
theorem fillCost_append (h : fillCost p weak gone = some c) (h' : fillCost p weak gone' = some c') :
    fillCost p weak (gone ++ gone') = some (c + c') := by
  induction gone generalizing c with
  | nil =>
    obtain rfl := Option.some.inj h
    rw [List.nil_append, h', zero_add]
  | cons e gone ih =>
    simp only [fillCost, Option.bind_eq_bind, Option.bind_eq_some_iff, Option.pure_def,
      Option.some.injEq] at h
    obtain ⟨cost, hcost, rest, hrest, rfl⟩ := h
    rw [List.cons_append, fillCost, hcost, ih hrest]
    exact congrArg some (add_assoc cost rest c').symm

/-- Without filled orders nothing is taken. -/
theorem LeftBy.nil (p : OrderPool) (weak buy : Bool) (w : Wallet) (amount : ℤ) :
    LeftBy p weak buy w amount [] w amount :=
  ⟨0, rfl, by simp, Or.inl (by simp [fillValue])⟩

/-- What two lists of filled orders leave, one after the other. -/
theorem LeftBy.append (h : LeftBy p weak buy w amount gone w₁ left₁)
    (h' : LeftBy p weak buy w₁ left₁ gone' w' left) :
    LeftBy p weak buy w amount (gone ++ gone') w' left := by
  obtain ⟨c, hcost, hreduced⟩ := h
  obtain ⟨c', hcost', hreduced'⟩ := h'
  refine ⟨c + c', fillCost_append hcost hcost', ?_⟩
  rw [show fillValue p (gone ++ gone') = fillValue p gone + fillValue p gone' by simp [fillValue]]
  exact hreduced.trans hreduced'

/-- The values of the orders are all that counts. -/
theorem LeftBy.congr (hp : ∀ e ∈ gone, p'.valueOf e.2 = p.valueOf e.2)
    (h : LeftBy p' weak buy w amount gone w' left) : LeftBy p weak buy w amount gone w' left := by
  obtain ⟨c, hcost, hreduced⟩ := h
  have hvalues : fillValue p' gone = fillValue p gone :=
    congrArg List.sum (List.map_congr_left hp)
  have hcosts : ∀ l : List (ℤ × Id), l ⊆ gone → fillCost p' weak l = fillCost p weak l := by
    intro l hl
    induction l with
    | nil => rfl
    | cons e l ih =>
      rw [List.cons_subset] at hl
      rw [fillCost, fillCost, hp e hl.1, ih hl.2]
  exact ⟨c, hcosts gone (List.Subset.refl _) ▸ hcost, hvalues ▸ hreduced⟩

/-! ## One pass -/

variable {t : MatchTerms} {r : ℤ} {i : Id} {expired : Bool} {x x' : Matching}

/-- A purchase was reduced to what the funds pay, and that is worth nothing at the rate: the
order is asked again and again. -/
structure Stuck (t : MatchTerms) (r : ℤ) (i : Id) (x : Matching) : Prop where
  buys : t.buy = true
  left : x.amountLeft ≠ 0
  funds : Order.newamount x.wallet r t.weak t.buy = some x.amountLeft
  order : ∃ o, x.pool.live.lookup i = some o ∧ 1 ≤ o.value ∧
    o.matchPass x.wallet r x.amountLeft t.cur t.layCur t.weak t.buy =
      some (.inl (none, x.amountLeft))

/-- A pass leaves nothing, or it is stuck, or it leaves what the order leaves that it takes as a
whole, if it takes one. -/
theorem Touched.leaves (h : Touched t r i expired x x') (hx : x.Solvent) (hr : 0 < r)
    (hvalue : ∃ o, x.pool.live.lookup i = some o ∧ 1 ≤ o.value)
    (hgain : Gainless t.weak r (x.converted t.buy)) :
    x'.amountLeft = 0 ∨ (expired = false ∧ Stuck t r i x') ∨
      LeftBy x.pool t.weak t.buy x.wallet x.amountLeft (if expired then [(r, i)] else []) x'.wallet
        x'.amountLeft ∧ (expired = false → x'.pool = x.pool) := by
  obtain ⟨fuel, o, ans, o', -, ho, hmatch, ho', hexpired, hx'⟩ := h.pass
  obtain ⟨o₁, ho₁, hpos⟩ := hvalue
  obtain rfl : o = o₁ := Option.some.inj (ho.symm.trans ho₁)
  have hworth : x.pool.valueOf i = o.value := OrderPool.valueOf_eq ho
  obtain ⟨hleft, hwallet, hpool⟩ : x'.amountLeft = ans.2 ∧ x'.wallet = (x.record i ans).wallet ∧
      x'.pool = (x.record i ans).pool := by
    obtain ⟨_ | ⟨item, o₂, w₂⟩, left⟩ := ans <;> subst hx' <;> cases expired <;>
      exact ⟨rfl, rfl, rfl⟩
  -- an order that is not matched expires when its value cannot be paid
  have hkept : ans.1 = none → x'.wallet = x.wallet ∧ x'.pool = x.pool ∧
      (expired = true → t.buy = false ∧ toBack t.weak r (x.pool.valueOf i) = some 0) := by
    intro hnone
    obtain ⟨result, left⟩ := ans
    obtain rfl : result = none := hnone
    obtain rfl : o' = o := Option.some.inj (ho'.symm.trans ho)
    refine ⟨hwallet, hpool, fun hexpires => ?_⟩
    subst hexpires
    unfold Order.couldMatchProvidedBigAmount at hexpired
    cases hbuy : t.buy with
    | true =>
      simp only [hbuy, if_true, Option.map_some, Option.some.injEq, Bool.not_true,
        decide_eq_false_iff_not, not_not] at hexpired
      omega
    | false =>
      simp only [hbuy, Bool.false_eq_true, if_false, Option.map_eq_some_iff, Bool.not_true,
        decide_eq_false_iff_not, not_not] at hexpired
      obtain ⟨cost, hcost, rfl⟩ := hexpired
      exact ⟨rfl, hworth ▸ hcost⟩
  have hleaves : ans.1 = none → (ans.2 = x.amountLeft ∨
      t.buy = false ∧ ans.2 = x.wallet.available ∧ x.wallet.available ≤ x.amountLeft) →
      LeftBy x.pool t.weak t.buy x.wallet x.amountLeft (if expired then [(r, i)] else [])
        x'.wallet x'.amountLeft ∧ (expired = false → x'.pool = x.pool) := by
    intro hnone hans
    obtain ⟨hsame, hlive, hworthless⟩ := hkept hnone
    refine ⟨?_, fun _ => hlive⟩
    rw [hsame, hleft]
    cases expired with
    | true =>
      obtain ⟨hbuy, hcost⟩ := hworthless rfl
      refine ⟨0, by simp [fillCost, hcost], by simp, ?_⟩
      simpa [hbuy] using hans
    | false => exact ⟨0, rfl, by simp, by simpa [fillValue] using hans⟩
  rcases Order.match_leaves hr hx.wallet hx.left hpos hgain hmatch with
    hzero | ⟨c, hfilled⟩ | hall | ⟨hnone, hlt, hnew, hpass⟩
  · exact Or.inl (hleft.trans hzero)
  · -- nothing of the order is left
    refine Or.inr (Or.inr ?_)
    obtain ⟨item, w', hsome, hpaid⟩ := hfilled.filled
    have hans := hfilled.left
    obtain ⟨result, left⟩ := ans
    obtain rfl : result = _ := hsome
    have hempty : o'.value = 0 := by
      rw [Matching.record, OrderPool.lookup_set_self] at ho'
      rw [← Option.some.inj ho']
    have hgone : expired = true := by
      rw [hempty, Order.couldMatchProvidedBigAmount, toBack_of_pos hr] at hexpired
      cases expired with
      | true => rfl
      | false => cases hbuy : t.buy <;> cases hweak : t.weak <;> simp [hbuy, hweak] at hexpired
    subst hgone
    refine ⟨⟨c, by simp [fillCost, hworth, hfilled.cost], ?_, Or.inl ?_⟩, by simp⟩
    · rw [hwallet]
      exact hpaid
    · simpa [hleft, fillValue, hworth] using hans
  · exact Or.inr (Or.inr (hleaves (by rw [hall]) (Or.inl (by rw [hall]))))
  · cases hbuy : t.buy with
    | true =>
      by_cases hzero : ans.2 = 0
      · exact Or.inl (hleft.trans hzero)
      obtain ⟨hsame, hlive, hworthless⟩ := hkept hnone
      have hstays : expired = false := by
        cases expired with
        | true => exact absurd (hworthless rfl).1 (by simp [hbuy])
        | false => rfl
      subst hstays
      refine Or.inr
          (Or.inl ⟨rfl, hbuy, by rwa [hleft], by rw [hsame, hleft, hnew], o, ?_, hpos, ?_⟩)
      · rw [hlive, ho]
      · rw [hsame, hleft, hpass]
    | false =>
      rw [hbuy] at hnew
      have hfunds : ans.2 = x.wallet.available := (Option.some.inj hnew).symm
      have hleft' := hleaves hnone (Or.inr ⟨hbuy, hfunds, by omega⟩)
      rw [hbuy] at hleft'
      exact Or.inr (Or.inr hleft')

/-- The other orders keep their values. -/
theorem Touched.other {l : List (ℤ × Id)} (h : Touched t r i expired x x') (hp : x.pool.Ok)
    (hl : (((r, i) :: l).map Prod.snd).Nodup) {e : ℤ × Id} (he : e ∈ l) :
    x'.pool.valueOf e.2 = x.pool.valueOf e.2 := by
  obtain ⟨items, -, -, hpool, -, hfair, -⟩ := h.cases hp
  rw [List.map_cons, List.nodup_cons] at hl
  have hne : ∀ m ∈ items, m.layOrderId ≠ e.2 := fun m hm heq =>
    hl.1 (List.mem_map.mpr ⟨e, he, heq.symm.trans (hfair m hm).2.2⟩)
  simp only [OrderPool.valueOf, Table.valueAt, hpool, OrderPool.lookup_fill_of_notMem _ hne]

/-- The test of what is left never says that it matches nothing. -/
theorem Stuck.couldMatch (h : Stuck t r i x) (n : ℕ) :
    Order.couldMatchProvidedBigOrdervalue x.wallet r t.weak t.buy n x.amountLeft ≠ some false := by
  have hfunds := h.funds
  obtain ⟨o, -, -, hpass⟩ := h.order
  rw [h.buys] at hfunds ⊢
  induction n with
  | zero => exact fun h => nomatch h
  | succ n ih =>
    simp only [Order.couldMatchProvidedBigOrdervalue, Order.couldMatchPass, Order.toMatch, if_true,
      Option.bind_eq_bind, Option.bind_some, if_neg h.left, Order.testCost]
    cases hdiv : divRate x.amountLeft r with
    | none => simp
    | some quotient =>
      simp only [Option.map_some, Option.bind_some, if_neg h.left]
      split_ifs
      · rw [hfunds]
        exact ih
      · simp

/-- More passes leave it as it is. -/
theorem Stuck.touched (h : Stuck t r i x) (hstep : Touched t r i expired x x') :
    expired = false ∧ Stuck t r i x' := by
  obtain ⟨o, ho, hpos, hpass⟩ := h.order
  obtain ⟨fuel, o₁, ans, o', -, ho₁, hmatch, ho', hexpired, hx'⟩ := hstep.pass
  obtain rfl : o = o₁ := Option.some.inj (ho.symm.trans ho₁)
  obtain rfl : ans = (none, x.amountLeft) := by
    cases fuel with
    | zero => cases hmatch
    | succ fuel =>
      rw [Order.match, hpass] at hmatch
      exact (Option.some.inj hmatch).symm
  obtain rfl : o' = o := Option.some.inj (ho'.symm.trans ho)
  have hstays : expired = false := by
    rw [Order.couldMatchProvidedBigAmount, h.buys, if_pos rfl, Option.map_some] at hexpired
    cases expired with
    | true => simp at hexpired; omega
    | false => rfl
  subst hstays
  subst hx'
  exact ⟨rfl, h.buys, h.left, h.funds, o', ho, hpos, hpass⟩

/-! ## All passes -/

variable {accepts : ℤ → Prop} {l l' : List (ℤ × Id)}

/-- A match that is stuck at its first order goes no further. -/
theorem Stuck.rounds (h : Stuck t r i x) (hrounds : Rounds t accepts ((r, i) :: l) x l' x') :
    l' = (r, i) :: l ∧ Stuck t r i x' := by
  generalize hl : (r, i) :: l = l₁ at hrounds
  induction hrounds with
  | nil => exact ⟨rfl, h⟩
  | touch _ hstep _ ih =>
    obtain ⟨⟨rfl, rfl⟩, rfl⟩ := List.cons_eq_cons.mp hl |>.imp Prod.mk.inj id
    exact ih (h.touched hstep).2 rfl
  | expire _ hstep _ _ =>
    obtain ⟨⟨rfl, rfl⟩, rfl⟩ := List.cons_eq_cons.mp hl |>.imp Prod.mk.inj id
    exact absurd (h.touched hstep).1 (by simp)

/-- **What is left follows from the orders that are gone**, or nothing is left, or the match
is stuck at the first order. -/
theorem Rounds.leaves (h : Rounds t accepts l x l' x') (hp : x.pool.Ok) (hx : x.Solvent)
    (hl : (l.map Prod.snd).Nodup) (hrates : ∀ e ∈ l, 0 < e.1)
    (hvalues : ∀ e ∈ l, ∃ o, x.pool.live.lookup e.2 = some o ∧ 1 ≤ o.value)
    (hgain : ∀ e ∈ l, accepts e.1 → Gainless t.weak e.1 (x.converted t.buy)) :
    x'.amountLeft = 0 ∨ (∃ e ∈ l'.head?, Stuck t e.1 e.2 x') ∨
      ∃ gone, l = gone ++ l' ∧
        LeftBy x.pool t.weak t.buy x.wallet x.amountLeft gone x'.wallet x'.amountLeft := by
  induction h with
  | nil => exact Or.inr (Or.inr ⟨[], rfl, .nil _ _ _ _ _⟩)
  | touch haccepts hstep hrest ih =>
    have hr := hrates _ List.mem_cons_self
    have hgain₁ := hgain _ List.mem_cons_self haccepts
    have hvalue := hvalues _ List.mem_cons_self
    obtain ⟨hy, hleft, hwallet⟩ := hstep.solvent hx hr hvalue hgain₁
    have hgain' := fun e he haccepts => (hgain e he haccepts).of_le
      (Matching.converted_le t.buy hleft hwallet)
    have hvalues' := hstep.values hp hl hvalues
    rcases hstep.leaves hx hr hvalue hgain₁ with hzero | ⟨-, hstuck⟩ | ⟨hby, hpool⟩
    · obtain ⟨hx', hle, -⟩ := hrest.solvent (hstep.pool_ok hp) hy hl hrates hvalues' hgain'
      exact Or.inl (le_antisymm (hle.trans hzero.le) hx'.left)
    · obtain ⟨rfl, hstuck⟩ := hstuck.rounds hrest
      exact Or.inr (Or.inl ⟨_, rfl, hstuck⟩)
    · refine (ih (hstep.pool_ok hp) hy hl hrates hvalues' hgain').imp_right (Or.imp_right ?_)
      rintro ⟨gone, hlisting, hrest'⟩
      rw [hpool rfl] at hrest'
      exact ⟨gone, hlisting, hby.append hrest'⟩
  | expire haccepts hstep hrest ih =>
    have hr := hrates _ List.mem_cons_self
    have hgain₁ := hgain _ List.mem_cons_self haccepts
    have hvalue := hvalues _ List.mem_cons_self
    obtain ⟨hy, hleft, hwallet⟩ := hstep.solvent hx hr hvalue hgain₁
    have hgain' := fun e he haccepts => (hgain e (List.mem_cons_of_mem _ he) haccepts).of_le
      (Matching.converted_le t.buy hleft hwallet)
    have hvalues' := hstep.values hp hl hvalues
    have hrates' := fun e he => hrates e (List.mem_cons_of_mem _ he)
    have hother := fun e he => hstep.other (e := e) hp hl he
    rw [List.map_cons, List.nodup_cons] at hl
    rcases hstep.leaves hx hr hvalue hgain₁ with hzero | ⟨hstays, -⟩ | ⟨hby, -⟩
    · obtain ⟨hx', hle, -⟩ := hrest.solvent (hstep.pool_ok hp) hy hl.2 hrates' hvalues' hgain'
      exact Or.inl (le_antisymm (hle.trans hzero.le) hx'.left)
    · cases hstays
    · refine (ih (hstep.pool_ok hp) hy hl.2 hrates' hvalues' hgain').imp_right (Or.imp_right ?_)
      rintro ⟨gone, rfl, hrest'⟩
      exact ⟨_ :: gone, rfl, hby.append (hrest'.congr fun e he =>
        hother e (List.mem_append_left _ he))⟩

end AcCore.Tex.Cex
