import AcCore.Tex.Cex.Positive
import AcCore.Tex.Cex.Priority

/-!
# The terms of an execution

Every match of a front is at the rate of the resting order, is covered by the
wallet and by the value of the order at that moment, and moves two amounts of
which one is the other converted and rounded down. What is not matched of the
amount is what is left of it, unless the wallet did not cover a pass.
-/

namespace AcCore.Tex.Cex

open Lib

section

variable [Rounding]

/-- What a match takes from the amount: what is received when buying, else the
cost. -/
def MatchItem.taken (buy : Bool) (i : MatchItem) : ℤ := if buy then i.back.received else i.back.cost

/-- What matches take from the amount. -/
def taken (buy : Bool) (items : List MatchItem) : ℤ := (items.map (MatchItem.taken buy)).sum

omit [Rounding] in
/-- Nothing is taken by no items. -/
@[simp] theorem taken_nil (buy : Bool) : taken buy [] = 0 := rfl

omit [Rounding] in
/-- What items take adds up. -/
theorem taken_append (buy : Bool) (items items' : List MatchItem) :
    taken buy (items ++ items') = taken buy items + taken buy items' := by
  simp [taken]

namespace Order

variable {o o' : Order} {w w' : Wallet} {rate amount left : ℤ} {t : MatchTerms}
  {result : Option (MatchItem × Order × Wallet)} {fuel : ℕ}

/-- The wallet does not cover what is to be matched with the order. -/
def Limited (o : Order) (w : Wallet) (rate amount : ℤ) (weak buy : Bool) : Prop :=
  ∃ m cost, toMatch rate amount weak buy = some m ∧ m ≠ 0 ∧
    o.matchCost rate amount m weak buy = some cost ∧ w.available < cost

/-- The items of an answer. -/
def itemsOf (result : Option (MatchItem × Order × Wallet)) : List MatchItem :=
  result.toList.map Prod.fst

/-- A pass that ends takes from the amount what it does not leave. -/
theorem matchPass_taken
    (h : o.matchPass w rate amount t.cur t.layCur t.weak t.buy = some (.inl (result, left))) :
    taken t.buy (itemsOf result) + left = amount := by
  simp only [matchPass, Option.bind_eq_bind, Option.bind_eq_some_iff, Option.pure_def] at h
  obtain ⟨m, -, h⟩ := h
  split_ifs at h with hzero
  · obtain ⟨rfl, rfl⟩ := Prod.mk.inj (Sum.inl.inj (Option.some.inj h))
    simp [itemsOf]
  obtain ⟨cost, -, h⟩ := Option.bind_eq_some_iff.mp h
  split_ifs at h with hfunds hnone
  · simp at h
  · obtain ⟨rfl, rfl⟩ := Prod.mk.inj (Sum.inl.inj (Option.some.inj h))
    simp [itemsOf]
  · obtain ⟨rfl, rfl⟩ := Prod.mk.inj (Sum.inl.inj (Option.some.inj h))
    cases hbuy : t.buy <;>
      simp [itemsOf, taken, MatchItem.taken, MatchItem.amountLeft, matchItem]

/-- A pass calls itself when the wallet limits it. -/
theorem matchPass_limited {amount' : ℤ}
    (h : o.matchPass w rate amount t.cur t.layCur t.weak t.buy = some (.inr amount')) :
    o.Limited w rate amount t.weak t.buy := by
  simp only [matchPass, Option.bind_eq_bind, Option.bind_eq_some_iff, Option.pure_def] at h
  obtain ⟨m, hm, h⟩ := h
  split_ifs at h with hzero
  · simp at h
  obtain ⟨cost, hcost, h⟩ := Option.bind_eq_some_iff.mp h
  split_ifs at h with hfunds hnone
  · exact ⟨m, cost, hm, hzero, hcost, hfunds⟩
  · simp at h
  · simp at h

/-- A match takes from the amount what it does not leave, unless the wallet
limits it. -/
theorem match_taken (hr : 0 < rate) (hw : 0 ≤ w.available) (ha : 0 ≤ amount) (hvalue : 1 ≤ o.value)
    (hgain : Gainless t.weak rate (converted w amount t.buy))
    (h : o.match w rate t.cur t.layCur t.weak t.buy fuel amount = some (result, left)) :
    taken t.buy (itemsOf result) + left ≤ amount ∧
      (taken t.buy (itemsOf result) + left = amount ∨ o.Limited w rate amount t.weak t.buy) := by
  induction fuel generalizing amount with
  | zero => cases h
  | succ fuel ih =>
    simp only [«match», Option.bind_eq_bind, Option.bind_eq_some_iff] at h
    obtain ⟨c, hc, h⟩ := h
    cases c with
    | inl result =>
      obtain rfl := Option.some.inj h
      have hexact := matchPass_taken hc
      exact ⟨hexact.le, Or.inl hexact⟩
    | inr amount' =>
      obtain ⟨hnonneg, hle⟩ := (matchPass_solvent hr hw ha hvalue hgain hc).2 _ rfl
      obtain ⟨hbound, -⟩ := ih hnonneg (hgain.of_le (converted_mono hle)) h
      exact ⟨hbound.trans hle, Or.inr (matchPass_limited hc)⟩

end Order

/-! ## All matches -/

/-- The matches of one match of a front: each on what the ones before it left of
the wallet and of the orders. -/
structure Executions (t : MatchTerms) (l : List (ℤ × Id)) (p : OrderPool) (w : Wallet)
    (items : List MatchItem) : Prop where
  rests : ∀ i ∈ items, (i.rate, i.layOrderId) ∈ l
  fair : ∀ i ∈ items, i.Fair t
  positive : ∀ i ∈ items, i.Positive
  funds : ∀ pre i post, items = pre ++ i :: post →
    i.back.cost ≤ w.available - (pre.map (·.back.cost)).sum
  value : ∀ pre i post, items = pre ++ i :: post →
    i.back.received ≤ (p.fill pre).valueOf i.layOrderId

/-- The wallet limited one of the passes: the cost of what was to be matched
with the first order, after the matches and the expiries before it, was more
than what was available. -/
def WalletLimited (t : MatchTerms) (l : List (ℤ × Id)) (p : OrderPool) (w : Wallet) (amount : ℤ)
    (items : List MatchItem) (expired : List Id) : Prop :=
  ∃ pre post before e later o, items = pre ++ post ∧ l = before ++ e :: later ∧
    before.map Prod.snd <+: expired ∧ (p.fill pre).live.lookup e.2 = some o ∧
    o.Limited ⟨w.available - (pre.map (·.back.cost)).sum⟩ e.1
        (amount - taken t.buy pre) t.weak t.buy

variable {t : MatchTerms} {l l' : List (ℤ × Id)} {p p' : OrderPool} {w w' : Wallet}
  {items first rest : List MatchItem} {amount : ℤ}

/-- Without items nothing is executed. -/
theorem Executions.nil : Executions t l p w [] :=
  ⟨by simp, by simp, by simp, by simp, by simp⟩

/-- Executions after others. -/
theorem Executions.append (hfirst : Executions t l p w first)
    (hpool : p' = p.fill first) (hw : w'.available = w.available - (first.map (·.back.cost)).sum)
    (hl : l' ⊆ l) (hrest : Executions t l' p' w' rest) : Executions t l p w (first ++ rest) := by
  have hsplit : ∀ {pre i post}, first ++ rest = pre ++ i :: post →
      (∃ post', first = pre ++ i :: post') ∨
        ∃ pre', pre = first ++ pre' ∧ rest = pre' ++ i :: post := by
    intro pre i post h
    obtain ⟨a, hpre, hrest⟩ | ⟨a, hfirst, hcons⟩ := List.append_eq_append_iff.mp h
    · exact Or.inr ⟨a, hpre, hrest⟩
    · cases a with
      | nil =>
        rw [List.append_nil] at hfirst
        exact Or.inr ⟨[], by simp [hfirst], by simpa using hcons.symm⟩
      | cons j a =>
        rw [List.cons_append, List.cons.injEq] at hcons
        exact Or.inl ⟨a, by rw [hfirst, hcons.1]⟩
  refine ⟨?_, ?_, ?_, ?_, ?_⟩
  · intro i hi
    exact (List.mem_append.mp hi).elim (hfirst.rests i) fun hi => hl (hrest.rests i hi)
  · intro i hi
    exact (List.mem_append.mp hi).elim (hfirst.fair i) (hrest.fair i)
  · intro i hi
    exact (List.mem_append.mp hi).elim (hfirst.positive i) (hrest.positive i)
  · intro pre i post h
    obtain ⟨post', hpre⟩ | ⟨pre', rfl, hpre⟩ := hsplit h
    · exact hfirst.funds pre i post' hpre
    · have := hrest.funds pre' i post hpre
      rw [List.map_append, List.sum_append]
      omega
  · intro pre i post h
    obtain ⟨post', hpre⟩ | ⟨pre', rfl, hpre⟩ := hsplit h
    · exact hfirst.value pre i post' hpre
    · rw [OrderPool.fill_append, ← hpool]
      exact hrest.value pre' i post hpre

/-- A pass at a later moment that the wallet limits. -/
theorem WalletLimited.append {gone : List (ℤ × Id)} {expired : List Id}
    (hpool : p' = p.fill first)
    (hw : w'.available = w.available - (first.map (·.back.cost)).sum) {amount' : ℤ}
    (hamount : taken t.buy first + amount' = amount) (hl : l = gone ++ l')
    (h : WalletLimited t l' p' w' amount' rest expired) :
    WalletLimited t l p w amount (first ++ rest) (gone.map Prod.snd ++ expired) := by
  obtain ⟨pre, post, before, e, later, o, hrest, hl', hbefore, ho, hlimited⟩ := h
  refine ⟨first ++ pre, post, gone ++ before, e, later, o, by rw [hrest, List.append_assoc],
    by rw [hl, hl', List.append_assoc], ?_, ?_, ?_⟩
  · rw [List.map_append]
    exact (List.prefix_append_right_inj _).mpr hbefore
  · rw [OrderPool.fill_append, ← hpool]
    exact ho
  · have hfunds : w.available - ((first ++ pre).map (·.back.cost)).sum =
        w'.available - (pre.map (·.back.cost)).sum := by
      rw [List.map_append, List.sum_append, hw]
      omega
    have hleft : amount - taken t.buy (first ++ pre) = amount' - taken t.buy pre := by
      rw [taken_append]
      omega
    rw [hfunds, hleft]
    exact hlimited

/-- A part of a match in which `items` are made and the orders `gone` expire:
what it does to the state, and what becomes of the amount. -/
structure Accounted (t : MatchTerms) (accepts : ℤ → Prop) (l : List (ℤ × Id)) (x x' : Matching)
    (items : List MatchItem) (gone : List (ℤ × Id)) : Prop where
  recorded : x'.ms.items = x.ms.items ++ items
  expired : x'.ms.expiredOrders = x.ms.expiredOrders ++ gone.map Prod.snd
  pool : x'.pool = x.pool.fill items
  wallet : x'.wallet.available = x.wallet.available - (items.map (·.back.cost)).sum
  executions : Executions t l x.pool x.wallet items
  accepted : ∀ i ∈ items, accepts i.rate
  bound : taken t.buy items + x'.amountLeft ≤ x.amountLeft
  exact : taken t.buy items + x'.amountLeft = x.amountLeft ∨
    WalletLimited t l x.pool x.wallet x.amountLeft items (gone.map Prod.snd)

variable {accepts : ℤ → Prop} {x y x' : Matching} {gone gone' : List (ℤ × Id)}

/-- A match without items accounts for nothing. -/
theorem Accounted.nil : Accounted t accepts l x x [] [] where
  recorded := by simp
  expired := by simp
  pool := rfl
  wallet := by simp
  executions := .nil
  accepted := by simp
  bound := by simp
  exact := Or.inl (by simp)

/-- A match and its continuation account for the items of both. -/
theorem Accounted.trans (h : Accounted t accepts l x y first gone)
    (h' : Accounted t accepts l' y x' rest gone') (hl : l = gone ++ l') :
    Accounted t accepts l x x' (first ++ rest) (gone ++ gone') where
  recorded := by rw [h'.recorded, h.recorded, List.append_assoc]
  expired := by rw [h'.expired, h.expired, List.map_append, List.append_assoc]
  pool := by rw [h'.pool, h.pool, OrderPool.fill_append]
  wallet := by
    rw [h'.wallet, h.wallet, List.map_append, List.sum_append]
    omega
  executions :=
    h.executions.append h.pool h.wallet (hl ▸ List.subset_append_right _ _) h'.executions
  accepted := fun i hi => (List.mem_append.mp hi).elim (h.accepted i) (h'.accepted i)
  bound := by
    have := h.bound
    have := h'.bound
    rw [taken_append]
    omega
  exact := by
    rw [List.map_append]
    rcases h.exact with hfirst | ⟨pre, post, before, e, later, o, hsplit, hbefore, hgone, hlimited⟩
    · refine h'.exact.imp (fun hrest => ?_) fun hlimited =>
        hlimited.append h.pool h.wallet hfirst hl
      rw [taken_append]
      omega
    · exact Or.inr ⟨pre, post ++ rest, before, e, later, o, by rw [hsplit, List.append_assoc],
        hbefore, hgone.trans (List.prefix_append _ _), hlimited⟩

/-- One pass: at most one match. -/
theorem Touched.accounted {r : ℤ} {i : Id} {expired : Bool} (h : Touched t r i expired x x')
    (hp : x.pool.Ok) (hx : x.Solvent) (hr : 0 < r) (haccepts : accepts r)
    (hvalue : ∃ o, x.pool.live.lookup i = some o ∧ 1 ≤ o.value)
    (hgain : Gainless t.weak r (x.converted t.buy)) :
    ∃ items, Accounted t accepts ((r, i) :: l) x x' items (if expired then [(r, i)] else []) := by
  obtain ⟨hsolvent, -, -⟩ := h.solvent hx hr hvalue hgain
  obtain ⟨fuel, o, ans, o', -, ho, hmatch, -, -, hx'⟩ := h.pass
  obtain ⟨o₁, ho₁, hpos⟩ := hvalue
  obtain rfl : o = o₁ := Option.some.inj (ho.symm.trans ho₁)
  obtain ⟨result, left⟩ := ans
  obtain ⟨hle, hexact⟩ := Order.match_taken hr hx.wallet hx.left hpos hgain hmatch
  have hlimited : ∀ items expired, o.Limited x.wallet r x.amountLeft t.weak t.buy →
      WalletLimited t ((r, i) :: l) x.pool x.wallet x.amountLeft items expired := by
    intro items expired hlimited
    refine ⟨[], items, [], (r, i), l, o, rfl, rfl, List.nil_prefix, ?_, by simpa using hlimited⟩
    simpa [OrderPool.fill] using ho
  have hexpire : x'.ms.items = (x.record i (result, left)).ms.items ∧
      x'.ms.expiredOrders = (x.record i (result, left)).ms.expiredOrders ++
        List.map Prod.snd (if expired then [(r, i)] else []) ∧
      x'.pool = (x.record i (result, left)).pool ∧
      x'.wallet = (x.record i (result, left)).wallet ∧
      x'.amountLeft = (x.record i (result, left)).amountLeft := by
    subst hx'
    cases expired <;> simp [Matching.expire]
  obtain ⟨hitems, hexpired, hpool, hwallet, hleft⟩ := hexpire
  cases result with
  | none =>
    refine ⟨[], by rw [hitems]; simp [Matching.record], hexpired, by rw [hpool]; rfl,
      by rw [hwallet]; simp [Matching.record], .nil, by simp, ?_, ?_⟩
    · rw [hleft]
      exact hle
    · rw [hleft]
      exact hexact.imp id (hlimited _ _)
  | some res =>
    obtain ⟨item, o₂, w₂⟩ := res
    have hdone := Order.match_executed hmatch
    have hid : item.layOrderId = i := hdone.layOrderId.trans (hp i o ho).1
    have hpositive : item.Positive := hsolvent.items item (by simp [hitems, Matching.record])
    have hcovered : 0 ≤ w₂.available := by
      have := hsolvent.wallet
      rwa [hwallet] at this
    have hsingle : ∀ {pre : List MatchItem} {j : MatchItem} {post}, [item] = pre ++ j :: post →
        pre = [] ∧ item = j := by
      intro pre j post hsplit
      cases pre with
      | nil => exact ⟨rfl, (List.cons.inj hsplit).1⟩
      | cons k pre => simp at hsplit
    refine ⟨[item], hitems, hexpired, ?_, ?_, ⟨?_, ?_, ?_, ?_, ?_⟩, ?_, ?_, ?_⟩
    · rw [hpool, Matching.record, hdone.order, OrderPool.fill, List.foldl_cons, List.foldl_nil]
      rw [← hid] at ho ⊢
      exact OrderPool.set_eq_reduce ho
    · rw [hwallet]
      simp [Matching.record, hdone.wallet]
    · simp [hid, hdone.rate]
    · simpa using hdone.fair
    · simpa using hpositive
    · intro pre j post hsplit
      obtain ⟨rfl, rfl⟩ := hsingle hsplit
      have := hdone.wallet
      rw [List.map_nil, List.sum_nil]
      omega
    · intro pre j post hsplit
      obtain ⟨rfl, rfl⟩ := hsingle hsplit
      have hvalueOf : (x.pool.fill []).valueOf item.layOrderId = o.value := by
        rw [hid]
        exact OrderPool.valueOf_eq ho
      have hnonneg := hdone.nonneg
      rw [hdone.order] at hnonneg
      rw [hvalueOf, ← hdone.fair.layCost]
      dsimp only at hnonneg
      omega
    · simpa [hdone.rate] using haccepts
    · rw [hleft]
      exact hle
    · rw [hleft]
      exact hexact.imp id (hlimited _ _)

/-- All passes of a match. -/
theorem Rounds.accounted (h : Rounds t accepts l x l' x') (hp : x.pool.Ok) (hx : x.Solvent)
    (hl : (l.map Prod.snd).Nodup) (hrates : ∀ e ∈ l, 0 < e.1)
    (hvalues : ∀ e ∈ l, ∃ o, x.pool.live.lookup e.2 = some o ∧ 1 ≤ o.value)
    (hgain : ∀ e ∈ l, accepts e.1 → Gainless t.weak e.1 (x.converted t.buy)) :
    ∃ items gone, Accounted t accepts l x x' items gone := by
  induction h with
  | nil => exact ⟨[], [], .nil⟩
  | touch haccepts hstep _ ih =>
    have hr := hrates _ List.mem_cons_self
    have hvalue := hvalues _ List.mem_cons_self
    have hgain₁ := hgain _ List.mem_cons_self haccepts
    obtain ⟨first, hfirst⟩ := hstep.accounted hp hx hr haccepts hvalue hgain₁
    obtain ⟨hy, hleft, hwallet⟩ := hstep.solvent hx hr hvalue hgain₁
    obtain ⟨rest, gone, hrest⟩ := ih (hstep.pool_ok hp) hy hl hrates (hstep.values hp hl hvalues)
      fun e he haccepts => (hgain e he haccepts).of_le (Matching.converted_le t.buy hleft hwallet)
    exact ⟨first ++ rest, _, hfirst.trans hrest rfl⟩
  | expire haccepts hstep _ ih =>
    have hr := hrates _ List.mem_cons_self
    have hvalue := hvalues _ List.mem_cons_self
    have hgain₁ := hgain _ List.mem_cons_self haccepts
    obtain ⟨first, hfirst⟩ := hstep.accounted hp hx hr haccepts hvalue hgain₁
    obtain ⟨hy, hleft, hwallet⟩ := hstep.solvent hx hr hvalue hgain₁
    have hrest' := hstep.values hp hl hvalues
    rw [List.map_cons, List.nodup_cons] at hl
    obtain ⟨rest, gone, hrest⟩ := ih (hstep.pool_ok hp) hy hl.2
      (fun e he => hrates e (List.mem_cons_of_mem _ he)) hrest' fun e he haccepts =>
        (hgain e (List.mem_cons_of_mem _ he) haccepts).of_le
          (Matching.converted_le t.buy hleft hwallet)
    exact ⟨first ++ rest, _, hfirst.trans hrest rfl⟩

namespace Front

variable {f f' : Front} {limitRate : ℤ} {cur layCur : Cur} {buy : Bool} {fuel : ℕ}

end Front

end

namespace Front

/-- A weak front with one order at the rate 1.5. -/
def oneOrder (value : ℤ) : Option (Front × OrderPool) :=
  ((create eur false).newOrder ⟨100000, 200000, 5⟩ false
    ⟨∅, 1⟩ 150000 value true false).map Prod.snd

/-- What a sale to this order takes and receives. -/
def sold [Rounding] (value amount : ℤ) : Option (List (ℤ × ℤ)) :=
  (oneOrder value).bind fun (f, p) =>
    (f.match 9 p ⟨2 * amount⟩ 150000 amount gbp eur false).map fun r =>
      r.2.ms.items.map fun i => (i.back.cost, i.back.received)

end Front

end AcCore.Tex.Cex
