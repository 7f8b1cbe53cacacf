import AcCore.Tex.Cex.Funding
import Mathlib.Logic.Relation

/-!
# Progress of the match loop

The loop of `match` of a waiting queue ends when the queue is empty or the funds
do not suffice. This file determines when every pass before that makes
progress, and that the loop ends then.
-/

namespace AcCore.Tex.Cex

open Lib

/-! ## One order -/

namespace Order

variable {o : Order} {w : Wallet} {rate amount : ℤ} {cur layCur : Cur} {weak buy : Bool}
  {fuel : ℕ} {ans : Option (MatchItem × Order × Wallet) × ℤ}

/-- More calls of itself do not change what a match returns. -/
theorem match_mono (h : o.match w rate cur layCur weak buy fuel amount = some ans) {fuel' : ℕ}
    (hle : fuel ≤ fuel') : o.match w rate cur layCur weak buy fuel' amount = some ans := by
  induction fuel generalizing amount fuel' with
  | zero => cases h
  | succ fuel ih =>
    obtain ⟨fuel', rfl⟩ : ∃ n, fuel' = n + 1 := ⟨fuel' - 1, by omega⟩
    simp only [«match», Option.bind_eq_bind, Option.bind_eq_some_iff] at h ⊢
    obtain ⟨r, hr, h⟩ := h
    refine ⟨r, hr, ?_⟩
    cases r with
    | inl result => exact h
    | inr amount' => exact ih h (by omega)

/-- What an amount is matched with, and at what cost. -/
theorem exists_matchCost (hr : 1 ≤ rate) (o : Order) (amount : ℤ) (weak buy : Bool) :
    ∃ m cost, toMatch rate amount weak buy = some m ∧
      o.matchCost rate amount m weak buy = some cost := by
  obtain ⟨m, hm⟩ : ∃ m, toMatch rate amount weak buy = some m := by
    unfold toMatch
    rw [toLay_of_pos (by omega)]
    cases buy <;> exact ⟨_, rfl⟩
  obtain ⟨cost, hcost⟩ : ∃ cost, o.matchCost rate amount m weak buy = some cost := by
    unfold matchCost
    split_ifs
    · exact ⟨_, toBack_of_pos (by omega)⟩
    · exact ⟨_, rfl⟩
  exact ⟨m, cost, hm, hcost⟩

/-- The wallet covers the amount of the call of itself. -/
theorem matchCost_newamount_le (hr : 1 ≤ rate) (hw : 0 ≤ w.available) (hvalue : 1 ≤ o.value)
    {a m cost : ℤ} (ha : newamount w rate weak buy = some a)
    (hm : toMatch rate a weak buy = some m) (hcost : o.matchCost rate a m weak buy = some cost) :
    cost ≤ w.available := by
  have hpos : 0 < rate := by omega
  have hreceived := received_nonneg hvalue (toMatch_nonneg hpos (newamount_nonneg hpos hw ha) hm)
  cases buy with
  | false =>
    obtain rfl : w.available = a := Option.some.inj ha
    exact matchCost_le (gainless_exact hpos) hw hm hreceived hcost
  | true =>
    obtain rfl : a = m := Option.some.inj hm
    rw [matchCost, if_pos (Or.inr rfl)] at hcost
    exact gainless_exact hpos _ hw le_rfl _ ha _ hreceived.1 hreceived.2 _ hcost

/-- Nothing of the amount is matched, or it costs nothing. -/
def Idle (o : Order) (rate amount : ℤ) (weak buy : Bool) : Prop :=
  ∃ m, toMatch rate amount weak buy = some m ∧
    (m = 0 ∨ o.matchCost rate amount m weak buy = some 0)

/-- A pass of a match: nothing comes of it, a smaller amount is tried, or
something is taken from the amount. -/
theorem matchPass_left (hr : 1 ≤ rate) (hw : 0 ≤ w.available) (ha : 0 ≤ amount)
    (hvalue : 1 ≤ o.value) {c : Option (MatchItem × Order × Wallet) × ℤ ⊕ ℤ}
    (h : o.matchPass w rate amount cur layCur weak buy = some c) :
    (c = .inl (none, amount) ∧ o.Idle rate amount weak buy) ∨
      (∃ a, c = .inr a ∧ newamount w rate weak buy = some a ∧ a < amount) ∨
      ∃ r left, c = .inl (some r, left) ∧ left ≤ amount ∧ r.2.2.available < w.available := by
  obtain ⟨m, cost, hm, hcost⟩ := exists_matchCost hr o amount weak buy
  have hm0 := toMatch_nonneg (by omega) ha hm
  have hsolvent := matchPass_solvent (t := ⟨cur, layCur, weak, buy⟩) (by omega) hw ha hvalue
    (gainless_exact (by omega)) h
  simp only [matchPass, Option.bind_eq_bind, hm, Option.bind_some, hcost, Option.pure_def] at h
  split_ifs at h with hzero hfunds hnone
  · exact Or.inl ⟨(Option.some.inj h).symm, m, hm, Or.inl hzero⟩
  · obtain ⟨a, ha', rfl⟩ := Option.map_eq_some_iff.mp h
    exact Or.inr (Or.inl ⟨a, rfl, ha', newamount_lt (gainless_exact (by omega)) hw ha hm
      (received_nonneg hvalue hm0) hcost hfunds ha'⟩)
  · exact Or.inl ⟨(Option.some.inj h).symm, m, hm, Or.inr (hnone ▸ hcost)⟩
  · obtain rfl := Option.some.inj h
    obtain ⟨hreceived, hpaid⟩ : 1 ≤ o.received m ∧ 1 ≤ cost :=
      (hsolvent.1 _ rfl).item _ rfl
    refine Or.inr (Or.inr ⟨_, _, rfl, ?_, ?_⟩)
    · change (if buy = true then amount - o.received m else amount - cost) ≤ amount
      split_ifs <;> omega
    · rw [Wallet.withdraw_of_le (not_lt.mp hfunds)]
      dsimp only
      omega

/-- A match returns: nothing, perhaps with a smaller amount, or something that
is paid from the wallet. -/
theorem match_left (hr : 1 ≤ rate) (hw : 0 ≤ w.available) (ha : 0 ≤ amount)
    (hvalue : 1 ≤ o.value) (h : o.match w rate cur layCur weak buy fuel amount = some ans) :
    (ans.1 = none ∧ (ans.2 < amount ∨ ans.2 = amount ∧ o.Idle rate amount weak buy)) ∨
      ∃ r, ans.1 = some r ∧ ans.2 ≤ amount ∧ r.2.2.available < w.available := by
  induction fuel generalizing amount with
  | zero => cases h
  | succ fuel ih =>
    simp only [«match», Option.bind_eq_bind, Option.bind_eq_some_iff] at h
    obtain ⟨c, hc, h⟩ := h
    rcases matchPass_left hr hw ha hvalue hc with
      ⟨rfl, hidle⟩ | ⟨a, rfl, hnew, hlt⟩ | ⟨r, left, rfl, hle, hpaid⟩
    · obtain rfl := Option.some.inj h
      exact Or.inl ⟨rfl, Or.inr ⟨rfl, hidle⟩⟩
    · rcases ih (newamount_nonneg (by omega) hw hnew) h with ⟨hnone, hleft⟩ | ⟨r, hsome, hle, hpaid⟩
      · refine Or.inl ⟨hnone, Or.inl ?_⟩
        rcases hleft with hless | ⟨heq, -⟩
        · exact hless.trans hlt
        · rw [heq]
          exact hlt
      · exact Or.inr ⟨r, hsome, hle.trans hlt.le, hpaid⟩
    · obtain rfl := Option.some.inj h
      exact Or.inr ⟨r, rfl, hle, hpaid⟩

/-- A match calls itself at most once. -/
theorem exists_match (hr : 1 ≤ rate) (hvalue : 1 ≤ o.value) (hw : 0 ≤ w.available) (amount : ℤ)
    (cur layCur : Cur) (weak buy : Bool) :
    ∃ ans, o.match w rate cur layCur weak buy 2 amount = some ans := by
  have hpass : ∀ a, ∃ c, o.matchPass w rate a cur layCur weak buy = some c ∧
      ((∃ result, c = .inl result) ∨ ∃ a' m cost, c = .inr a' ∧
        newamount w rate weak buy = some a' ∧ toMatch rate a weak buy = some m ∧
        o.matchCost rate a m weak buy = some cost ∧ w.available < cost) := by
    intro a
    obtain ⟨m, cost, hm, hcost⟩ := exists_matchCost hr o a weak buy
    simp only [matchPass, Option.bind_eq_bind, hm, Option.bind_some, hcost, Option.pure_def,
      newamount_eq hr, Option.map_some]
    split_ifs with hzero hfunds hnone
    · exact ⟨_, rfl, Or.inl ⟨_, rfl⟩⟩
    · exact ⟨_, rfl, Or.inr ⟨_, m, cost, rfl, rfl, rfl, hcost, hfunds⟩⟩
    · exact ⟨_, rfl, Or.inl ⟨_, rfl⟩⟩
    · exact ⟨_, rfl, Or.inl ⟨_, rfl⟩⟩
  obtain ⟨c, hc, ⟨result, rfl⟩ | ⟨a', -, -, rfl, hnew, -, -, -⟩⟩ := hpass amount
  · exact ⟨result, by simp [«match», hc]⟩
  · obtain ⟨c', hc', ⟨result, rfl⟩ | ⟨_, m, cost, rfl, -, hm, hcost, hfunds⟩⟩ := hpass a'
    · exact ⟨result, by simp [«match», hc, hc']⟩
    · -- the wallet covers the reduced amount
      exact absurd (matchCost_newamount_le hr hw hvalue hnew hm hcost) (not_le.mpr hfunds)

end Order

/-! ## The loop -/

namespace WaitingQueue

variable {t : MatchTerms} {s s' : WaitingQueue × Matching} {q : WaitingQueue} {x : Matching}

/-- The queue is consistent, and nothing is negative. -/
structure Sound (s : WaitingQueue × Matching) : Prop where
  ok : s.1.Ok s.2.pool
  rate : 1 ≤ s.1.rate
  wallet : 0 ≤ s.2.wallet.available
  left : 0 ≤ s.2.amountLeft

/-- A pass of the loop that does not leave it. -/
def Pass (t : MatchTerms) (s s' : WaitingQueue × Matching) : Prop :=
  ∃ fuel i l, s.1.orders = i :: l ∧
    Order.couldMatchProvidedBigOrdervalue s.2.wallet s.1.rate t.weak t.buy fuel s.2.amountLeft =
      some true ∧
    s.1.matchFirst t fuel i s.2 = some s'

/-- The front order is removed, or the amount or the wallet decreases. -/
def Progresses (s s' : WaitingQueue × Matching) : Prop :=
  (∃ i, s.1.orders = i :: s'.1.orders) ∨ s'.2.amountLeft < s.2.amountLeft ∨
    s'.2.wallet.available < s.2.wallet.available

/-- The funding test ends; and if it says yes to a purchase, what is bought of
the front order costs something. -/
def Proceeds (t : MatchTerms) (s : WaitingQueue × Matching) : Prop :=
  ∀ i l, s.1.orders = i :: l →
    Order.Covers s.2.wallet s.1.rate s.2.amountLeft t.weak t.buy ∧
      (t.buy = true → (∃ fuel, Order.couldMatchProvidedBigOrdervalue s.2.wallet s.1.rate t.weak
        t.buy fuel s.2.amountLeft = some true) →
        toBack t.weak s.1.rate (min s.2.amountLeft (s.2.pool.valueOf i)) ≠ some 0)

/-- What a pass does to the queue, the amount and the wallet. -/
theorem Pass.cases (hs : Sound s) (h : Pass t s s') :
    ∃ fuel i l o ans o' expired, s.1.orders = i :: l ∧ s.2.pool.live.lookup i = some o ∧
      1 ≤ o.value ∧
      o.match s.2.wallet s.1.rate t.cur t.layCur t.weak t.buy fuel s.2.amountLeft = some ans ∧
      (ans.1 = none → o' = o) ∧
      Order.couldMatchProvidedBigAmount s.1.rate o'.value t.weak t.buy = some !expired ∧
      s'.1.orders = (if expired then l else i :: l) ∧
      s'.2.amountLeft = ans.2 ∧ s'.2.wallet = ans.1.elim s.2.wallet (fun r => r.2.2) ∧
      s'.1.rate = s.1.rate ∧ s'.1.Ok s'.2.pool := by
  obtain ⟨fuel, i, l, horders, hfunds, hfirst⟩ := h
  obtain ⟨expired, htouched, hok, hrate, -, horders', -⟩ :=
    matchFirst_spec hs.ok horders hfunds hfirst
  obtain ⟨fuel', o, ans, o', -, ho, hmatch, ho', hdust, hx⟩ := htouched.pass
  obtain ⟨o₁, ho₁, hpos⟩ := hs.ok.live i (horders ▸ List.mem_cons_self)
  obtain rfl := Option.some.inj (ho.symm.trans ho₁)
  have hexpire : ∀ y : Matching, (if expired then y.expire i else y).amountLeft = y.amountLeft ∧
      (if expired then y.expire i else y).wallet = y.wallet := by
    intro y
    cases expired <;> exact ⟨rfl, rfl⟩
  refine ⟨fuel', i, l, o, ans, o', expired, horders, ho, hpos, hmatch, ?_, hdust, horders', ?_, ?_,
    hrate, hok⟩
  · intro hnone
    obtain ⟨result, left⟩ := ans
    obtain rfl : result = none := hnone
    exact (Option.some.inj (ho.symm.trans ho')).symm
  · rw [hx, (hexpire _).1]
    obtain ⟨result, left⟩ := ans
    cases result <;> rfl
  · rw [hx, (hexpire _).2]
    obtain ⟨result, left⟩ := ans
    cases result <;> rfl

/-- A pass keeps the state sound. -/
theorem Pass.sound (hs : Sound s) (h : Pass t s s') : Sound s' := by
  obtain ⟨fuel, i, l, o, ans, o', expired, -, -, hpos, hmatch, -, -, -, hleft, hwallet, hrate,
    hok⟩ := h.cases hs
  have hrate0 := hs.rate
  have hsolvent := Order.match_solvent (t := t) (by omega) hs.wallet hs.left hpos
    (gainless_exact (by omega)) hmatch
  refine ⟨hok, hrate ▸ hs.rate, ?_, hleft ▸ hsolvent.left⟩
  rw [hwallet]
  cases hresult : ans.1 with
  | none => exact hs.wallet
  | some r => exact (hsolvent.wallet r hresult).1

/-- Neither the queue nor the amount nor the wallet grows. -/
theorem Pass.le (hs : Sound s) (h : Pass t s s') :
    s'.1.orders.length ≤ s.1.orders.length ∧ s'.2.amountLeft ≤ s.2.amountLeft ∧
      s'.2.wallet.available ≤ s.2.wallet.available := by
  obtain ⟨fuel, i, l, o, ans, o', expired, horders, -, hpos, hmatch, -, -, horders', hleft,
    hwallet, -, -⟩ := h.cases hs
  refine ⟨?_, ?_⟩
  · rw [horders, horders']
    cases expired <;> simp
  · rw [hleft, hwallet]
    rcases Order.match_left hs.rate hs.wallet hs.left hpos hmatch with
      ⟨hnone, hless⟩ | ⟨r, hsome, hle, hpaid⟩
    · rw [hnone]
      refine ⟨?_, le_rfl⟩
      rcases hless with hlt | ⟨heq, -⟩
      · exact hlt.le
      · exact heq.le
    · rw [hsome]
      exact ⟨hle, hpaid.le⟩

/-- What the test says yes to is matched with something, unless it is bought. -/
theorem toMatch_ne_zero {w : Wallet} {rate amount : ℤ} {weak buy : Bool} {fuel : ℕ}
    (h : Order.couldMatchProvidedBigOrdervalue w rate weak buy fuel amount = some true) :
    Order.toMatch rate amount weak buy ≠ some 0 := by
  intro hzero
  cases fuel with
  | zero => cases h
  | succ fuel =>
    simp [Order.couldMatchProvidedBigOrdervalue, Order.couldMatchPass, hzero] at h

/-- A pass that proceeds makes progress. -/
theorem Pass.progresses (hs : Sound s) (h : Pass t s s') (hproceeds : Proceeds t s) :
    Progresses s s' := by
  have hfunds : ∃ fuel, Order.couldMatchProvidedBigOrdervalue s.2.wallet s.1.rate t.weak t.buy fuel
      s.2.amountLeft = some true := by
    obtain ⟨fuel, i, l, -, hfunds, -⟩ := h
    exact ⟨fuel, hfunds⟩
  obtain ⟨fuel, i, l, o, ans, o', expired, horders, ho, hpos, hmatch, hsame, hdust, horders', hleft,
    hwallet, -, -⟩ := h.cases hs
  rcases Order.match_left hs.rate hs.wallet hs.left hpos hmatch with
    ⟨hnone, hless | ⟨-, m, hm, hidle⟩⟩ | ⟨r, hsome, -, hpaid⟩
  · exact Or.inr (Or.inl (hleft ▸ hless))
  · -- nothing was matched although the funds suffice: the order expires
    obtain ⟨fuel', hfunds'⟩ := hfunds
    have hm0 : m ≠ 0 := by
      rintro rfl
      exact toMatch_ne_zero hfunds' hm
    have hcost := hidle.resolve_left hm0
    left
    refine ⟨i, ?_⟩
    rw [horders, horders']
    cases expired with
    | true => rfl
    | false =>
      exfalso
      rw [hsame hnone] at hdust
      cases hbuy : t.buy with
      | true =>
        have hmatched := (hproceeds i l horders).2 hbuy ⟨fuel', hfunds'⟩
        rw [hbuy] at hm hcost
        obtain rfl : s.2.amountLeft = m := Option.some.inj hm
        rw [Order.matchCost, if_pos (Or.inr rfl)] at hcost
        apply hmatched
        rw [OrderPool.valueOf_eq ho, ← hcost, Order.received]
        congr 1
        split_ifs with hgt
        · exact min_eq_right (by omega)
        · exact min_eq_left (by omega)
      | false =>
        rw [hbuy] at hm hcost hdust
        by_cases hall : m > o.value
        · rw [Order.matchCost, if_pos (Or.inl hall), Order.received, if_pos hall] at hcost
          simp [Order.couldMatchProvidedBigAmount, hcost] at hdust
        · rw [Order.matchCost, if_neg (by simp [hall])] at hcost
          have hzero : s.2.amountLeft = 0 := Option.some.inj hcost
          rw [hzero, hbuy] at hfunds'
          have hstop : Order.couldMatchProvidedBigOrdervalue s.2.wallet s.1.rate t.weak false 1 0 =
              some false := WaitingQueues.couldMatch_zero (by have := hs.rate; omega)
          cases Order.couldMatch_unique hfunds' hstop
  · right
    right
    rw [hwallet, hsome]
    exact hpaid

/-- More fuel does not change what a pass does. -/
theorem matchFirst_mono {i : Id} {fuel fuel' : ℕ} (h : q.matchFirst t fuel i x = some s)
    (hle : fuel ≤ fuel') : q.matchFirst t fuel' i x = some s := by
  simp only [matchFirst, Option.bind_eq_bind, Option.bind_eq_some_iff] at h ⊢
  obtain ⟨o, ho, ans, hans, rest⟩ := h
  exact ⟨o, ho, ans, Order.match_mono hans hle, rest⟩

/-- An empty queue matches nothing. -/
theorem match_of_nil (h : q.orders = []) (t : MatchTerms) (fuel : ℕ) (x : Matching) :
    q.match t (fuel + 1) x = some (q, x) := by
  simp [«match», h]

/-- A queue with a first order asks for funds, matches it and goes on. -/
theorem match_cons {i : Id} {l : List Id} (h : q.orders = i :: l) (t : MatchTerms) (fuel : ℕ)
    (x : Matching) :
    q.match t (fuel + 1) x =
      (Order.couldMatchProvidedBigOrdervalue x.wallet q.rate t.weak t.buy fuel x.amountLeft).bind
        fun answer => if answer then (q.matchFirst t fuel i x).bind fun s => s.1.match t fuel s.2
          else some (q, x) := by
  simp only [«match», h, Option.bind_eq_bind]
  congr 1
  funext answer
  cases answer <;> rfl

/-- More fuel does not change what the loop returns. -/
theorem match_mono {fuel fuel' : ℕ} (h : q.match t fuel x = some s) (hle : fuel ≤ fuel') :
    q.match t fuel' x = some s := by
  induction fuel generalizing q x fuel' with
  | zero => cases h
  | succ fuel ih =>
    obtain ⟨fuel', rfl⟩ : ∃ n, fuel' = n + 1 := ⟨fuel' - 1, by omega⟩
    have hle' : fuel ≤ fuel' := by omega
    cases horders : q.orders with
    | nil => rwa [match_of_nil horders] at h ⊢
    | cons i l =>
      rw [match_cons horders] at h ⊢
      obtain ⟨answer, hanswer, h⟩ := Option.bind_eq_some_iff.mp h
      rw [Order.couldMatch_mono hanswer hle', Option.bind_some]
      cases answer with
      | false => exact h
      | true =>
        obtain ⟨s₁, hfirst, h⟩ := Option.bind_eq_some_iff.mp h
        rw [if_pos rfl, matchFirst_mono hfirst hle']
        exact ih h hle'

/-- The part of a pass after the test of the funds returns. -/
theorem exists_matchFirst (hs : Sound s) {i : Id} {l : List Id} (horders : s.1.orders = i :: l)
    (t : MatchTerms) : ∃ s', s.1.matchFirst t 2 i s.2 = some s' := by
  have hi : i ∈ s.1.orders := horders ▸ List.mem_cons_self
  obtain ⟨o, ho, hpos⟩ := hs.ok.live i hi
  obtain ⟨ans, hans⟩ := Order.exists_match hs.rate hpos hs.wallet s.2.amountLeft t.cur t.layCur
    t.weak t.buy
  obtain ⟨o', ho'⟩ : ∃ o', (s.2.record i ans).pool.live.lookup i = some o' := by
    obtain ⟨result, left⟩ := ans
    cases result with
    | none => exact ⟨o, ho⟩
    | some r => exact ⟨_, OrderPool.lookup_set_self _ _ _⟩
  obtain ⟨suffices', hdust⟩ : ∃ b, Order.couldMatchProvidedBigAmount s.1.rate o'.value t.weak
      t.buy = some b := by
    have hrate := hs.rate
    unfold Order.couldMatchProvidedBigAmount
    rw [toBack_of_pos (by omega)]
    cases t.buy <;> exact ⟨_, rfl⟩
  have hcancel := @cancelOrder_of_mem _ { s.1 with value := s.1.value - o.value + o'.value } i
    ((hs.ok.hash i).mpr hi) hi o' ho'
  simp only [matchFirst, ho, hans, ho', hdust, Option.bind_eq_bind, Option.bind_some]
  cases suffices' with
  | true => exact ⟨_, rfl⟩
  | false =>
    dsimp only
    rw [hcancel]
    exact ⟨_, rfl⟩

/-- With funds for the first order there is a pass. -/
theorem exists_pass (hs : Sound s) {i : Id} {l : List Id} (horders : s.1.orders = i :: l)
    {fuel : ℕ} (hfunds : Order.couldMatchProvidedBigOrdervalue s.2.wallet s.1.rate t.weak t.buy
      fuel s.2.amountLeft = some true) : ∃ s', Pass t s s' := by
  obtain ⟨s', hfirst⟩ := exists_matchFirst hs horders t
  exact ⟨s', max fuel 2, i, l, horders, Order.couldMatch_mono hfunds (le_max_left _ _),
    matchFirst_mono hfirst (le_max_right _ _)⟩

/-- The loop ends from here. -/
def Ends (t : MatchTerms) (s : WaitingQueue × Matching) : Prop :=
  ∃ fuel r, s.1.match t fuel s.2 = some r

/-- What the loop returns is what it returns after its first pass. -/
theorem Pass.match_eq (h : Pass t s s') {fuel : ℕ} {r : WaitingQueue × Matching}
    (hmatch : s.1.match t (fuel + 1) s.2 = some r) : s'.1.match t fuel s'.2 = some r := by
  obtain ⟨fuel', i, l, horders, hfunds, hfirst⟩ := h
  rw [match_cons horders] at hmatch
  obtain ⟨answer, hanswer, hrest⟩ := Option.bind_eq_some_iff.mp hmatch
  obtain rfl := Order.couldMatch_unique hfunds hanswer
  obtain ⟨s₁, hfirst₁, hrest⟩ := Option.bind_eq_some_iff.mp hrest
  have hfirst' := matchFirst_mono hfirst (le_max_left fuel' fuel)
  rw [matchFirst_mono hfirst₁ (le_max_right fuel' fuel)] at hfirst'
  obtain rfl := Option.some.inj hfirst'
  exact hrest

/-- A loop that ends still ends after one of its passes. -/
theorem Ends.pass (hends : Ends t s) (h : Pass t s s') : Ends t s' := by
  obtain ⟨fuel, r, hmatch⟩ := hends
  cases fuel with
  | zero => cases hmatch
  | succ fuel => exact ⟨fuel, r, h.match_eq hmatch⟩

/-- The funding test of a loop that ends does too. -/
theorem Ends.covers (hs : Sound s) (hends : Ends t s) {i : Id} {l : List Id}
    (horders : s.1.orders = i :: l) :
    Order.Covers s.2.wallet s.1.rate s.2.amountLeft t.weak t.buy := by
  by_contra hnot
  obtain ⟨fuel, r, hmatch⟩ := hends
  cases fuel with
  | zero => cases hmatch
  | succ fuel =>
    rw [match_cons horders, Order.couldMatch_of_not_covers hs.rate hs.wallet hnot] at hmatch
    cases hmatch

/-- A purchase of which nothing would cost something changes nothing. -/
theorem Pass.not_progresses (hs : Sound s) (h : Pass t s s') {i : Id} {l : List Id}
    (horders : s.1.orders = i :: l) (hbuy : t.buy = true)
    (hzero : toBack t.weak s.1.rate (min s.2.amountLeft (s.2.pool.valueOf i)) = some 0) :
    ¬ Progresses s s' := by
  have hm : s.2.amountLeft ≠ 0 := by
    intro hm
    obtain ⟨_, _, _, _, hfunds, -⟩ := h
    apply toMatch_ne_zero hfunds
    rw [hbuy, hm]
    rfl
  obtain ⟨fuel, i', l', o, ans, o', expired, horders', ho, hpos, hmatch, hsame, hdust, hafter,
    hleft, hwallet, -, -⟩ := h.cases hs
  obtain ⟨rfl, rfl⟩ := List.cons.inj (horders.symm.trans horders')
  rw [OrderPool.valueOf_eq ho] at hzero
  have hcost : o.matchCost s.1.rate s.2.amountLeft s.2.amountLeft t.weak t.buy = some 0 := by
    rw [Order.matchCost, if_pos (Or.inr hbuy), Order.received, ← hzero]
    congr 1
    split_ifs with hgt
    · exact (min_eq_right (by omega)).symm
    · exact (min_eq_left (by omega)).symm
  -- nothing is matched and the order stays
  obtain rfl : ans = (none, s.2.amountLeft) := by
    cases fuel with
    | zero => cases hmatch
    | succ fuel =>
      have hmatched : Order.toMatch s.1.rate s.2.amountLeft t.weak t.buy = some s.2.amountLeft := by
        rw [hbuy]
        rfl
      simp only [Order.match, Order.matchPass, hmatched, hcost, hm, not_lt.mpr hs.wallet,
        Option.bind_eq_bind, Option.bind_some, Option.pure_def, if_false, if_true] at hmatch
      exact (Option.some.inj hmatch).symm
  obtain rfl := hsame rfl
  have hexpired : expired = false := by
    rw [hbuy] at hdust
    have hne : o'.value ≠ 0 := by omega
    simpa [Order.couldMatchProvidedBigAmount, hne] using hdust
  subst hexpired
  rintro (⟨j, hj⟩ | hlt | hlt)
  · rw [hafter, horders] at hj
    have := congrArg List.length hj
    simp at this
  · rw [hleft] at hlt
    exact lt_irrefl _ hlt
  · rw [hwallet] at hlt
    exact lt_irrefl _ hlt

/-- Every pass of the loop makes progress, and the loop ends. -/
structure MakesProgress (t : MatchTerms) (s : WaitingQueue × Matching) : Prop where
  pass : ∀ s₁ s₂, Relation.ReflTransGen (Pass t) s s₁ → Pass t s₁ s₂ → Progresses s₁ s₂
  ends : Ends t s

/-- Passes keep the state sound. -/
theorem sound_of_passes (hs : Sound s) (h : Relation.ReflTransGen (Pass t) s s') : Sound s' := by
  induction h with
  | refl => exact hs
  | tail _ hpass ih => exact hpass.sound ih

/-- What ends from a state ends from those that passes lead to. -/
theorem ends_of_passes (hends : Ends t s) (h : Relation.ReflTransGen (Pass t) s s') :
    Ends t s' := by
  induction h with
  | refl => exact hends
  | tail _ hpass ih => exact ih.pass hpass

/-- What decreases in a pass that makes progress. -/
def work (s : WaitingQueue × Matching) : ℕ :=
  s.1.orders.length + s.2.amountLeft.toNat + s.2.wallet.available.toNat

/-- A pass that makes progress leaves less work. -/
theorem Pass.work_lt (hs : Sound s) (h : Pass t s s') (hprogress : Progresses s s') :
    work s' < work s := by
  obtain ⟨horders, hleft, hwallet⟩ := h.le hs
  have hs' := h.sound hs
  have h₁ := hs'.left
  have h₂ := hs'.wallet
  unfold work
  rcases hprogress with ⟨i, hi⟩ | hlt | hlt
  · have := congrArg List.length hi
    rw [List.length_cons] at this
    omega
  · omega
  · omega

/-- The loop ends when every pass proceeds. -/
theorem ends_of_proceeds (hs : Sound s)
    (h : ∀ s', Relation.ReflTransGen (Pass t) s s' → Proceeds t s') : Ends t s := by
  generalize hn : work s = n
  induction n using Nat.strong_induction_on generalizing s with
  | h n ih =>
    cases horders : s.1.orders with
    | nil => exact ⟨1, _, match_of_nil horders t 0 s.2⟩
    | cons i l =>
      have hproceeds := h s .refl
      obtain ⟨answer, hanswer⟩ := Order.exists_couldMatch hs.rate hs.wallet
        (hproceeds i l horders).1
      cases answer with
      | false =>
        refine ⟨3, s, ?_⟩
        rw [match_cons horders, hanswer]
        rfl
      | true =>
        obtain ⟨s₁, hpass⟩ := exists_pass hs horders hanswer
        have hlt := hpass.work_lt hs (hpass.progresses hs hproceeds)
        obtain ⟨fuel, r, hmatch⟩ := ih (work s₁) (hn ▸ hlt) (hpass.sound hs)
          (fun s' h' => h s' (.head hpass h')) rfl
        obtain ⟨fuel', i', l', horders', hfunds, hfirst⟩ := hpass
        obtain ⟨rfl, rfl⟩ := List.cons.inj (horders.symm.trans horders')
        refine ⟨max fuel fuel' + 1, r, ?_⟩
        rw [match_cons horders, Order.couldMatch_mono hfunds (le_max_right _ _), Option.bind_some,
          if_pos rfl, matchFirst_mono hfirst (le_max_right _ _), Option.bind_some]
        exact match_mono hmatch (le_max_left _ _)

/-- **Progress of the match loop.** Every pass makes progress and the loop ends
exactly when every pass finds a funding test that ends, and a purchase that
costs something if the test says yes. -/
theorem makesProgress_iff (t : MatchTerms) (q : WaitingQueue) (x : Matching)
    (hs : Sound (q, x)) :
    MakesProgress t (q, x) ↔
      ∀ s, Relation.ReflTransGen (Pass t) (q, x) s → Proceeds t s := by
  constructor
  · intro h s hrun i l horders
    have hs' := sound_of_passes hs hrun
    refine ⟨(ends_of_passes h.ends hrun).covers hs' horders, ?_⟩
    rintro hbuy ⟨fuel, hfunds⟩ hzero
    obtain ⟨s', hpass⟩ := exists_pass hs' horders hfunds
    exact hpass.not_progresses hs' horders hbuy hzero (h.pass s s' hrun hpass)
  · intro h
    exact ⟨fun s₁ s₂ hrun hpass => hpass.progresses (sound_of_passes hs hrun) (h s₁ hrun),
      ends_of_proceeds hs h⟩

/-- A sale of the weak currency always proceeds. -/
theorem proceeds_weak_sale (hweak : t.weak = true) (hbuy : t.buy = false) (hs : Sound s) :
    Proceeds t s := by
  intro i l _
  refine ⟨?_, fun h => absurd h (by simp [hbuy])⟩
  rw [hweak, hbuy]
  have hrate := hs.rate
  exact Order.covers_weak_sale hrate hs.wallet (gainless_exact (by omega))

/-- The loop does not end when a pass changes nothing. -/
theorem not_ends_of_pass_self (h : Pass t s s) : ¬ Ends t s := by
  rintro ⟨fuel, r, hmatch⟩
  induction fuel with
  | zero => cases hmatch
  | succ fuel ih => exact ih (h.match_eq hmatch)

/-- A queue with a single order of a value, before a match of an amount. -/
def single (rate value wallet amount : ℤ) : WaitingQueue × Matching :=
  ((create rate false).push 0 value,
    ⟨(OrderPool.newOrder ⟨∅, 0⟩ value false false).2, ⟨wallet⟩, ⟨[], [], 0⟩, amount⟩)

/-- A queue with a single order is sound. -/
theorem sound_single {rate value wallet amount : ℤ} (hr : 1 ≤ rate) (hv : 1 ≤ value)
    (hw : 0 ≤ wallet) (ha : 0 ≤ amount) : Sound (single rate value wallet amount) :=
  ⟨(Ok.create ⟨∅, 0⟩ rate false).newOrder (fun i o h => by simp at h) hv, hr, hw, ha⟩

/-- A sale of 0.001 of the weak currency at the rate 2. -/
theorem makesProgress_sale :
    MakesProgress ⟨0, 1, true, false⟩ (single 200000 50 1000 100) :=
  (makesProgress_iff _ _ _ (sound_single (by decide) (by decide) (by decide) (by decide))).mpr
    fun _ h => proceeds_weak_sale rfl rfl
      (sound_of_passes (sound_single (by decide) (by decide) (by decide) (by decide)) h)

/-- A purchase of 0.00001 of the strong currency at the rate 2: nothing is
matched, the order stays, and the loop does not end. -/
theorem not_makesProgress_dust :
    Sound (single 200000 1 1 1) ∧
      Pass ⟨0, 1, true, true⟩ (single 200000 1 1 1) (single 200000 1 1 1) ∧
      ¬ Progresses (single 200000 1 1 1) (single 200000 1 1 1) ∧
      ¬ Ends ⟨0, 1, true, true⟩ (single 200000 1 1 1) := by
  have hmatch :
      (Order.create 0 1 false false).match ⟨1⟩ 200000 0 1 true true 2 1 = some (none, 1) := by
    decide +kernel
  have hfirst : matchFirst ⟨0, 1, true, true⟩ 2 (single 200000 1 1 1).1 0 (single 200000 1 1 1).2 =
      some (single 200000 1 1 1) := by
    change (Order.match (Order.create 0 1 false false) ⟨1⟩ 200000 0 1 true true 2 1).bind _ = _
    rw [hmatch]
    rfl
  have hpass : Pass ⟨0, 1, true, true⟩ (single 200000 1 1 1) (single 200000 1 1 1) :=
    ⟨2, 0, [], rfl, by decide +kernel, hfirst⟩
  refine ⟨sound_single (by decide) (by decide) (by decide) (by decide), hpass, ?_,
    not_ends_of_pass_self hpass⟩
  rintro (⟨i, hi⟩ | hlt | hlt)
  · cases hi
  · exact lt_irrefl _ hlt
  · exact lt_irrefl _ hlt

end WaitingQueue

end AcCore.Tex.Cex
