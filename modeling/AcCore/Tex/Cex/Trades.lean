import AcCore.Tex.Cex.Markets

/-!
# What a trade does to its market

A trade takes orders from the front of the other side in rounds, and what is
left of its amount rests in the front of its own side. This file states it of a
whole trade: the places that are left and taken, what becomes of the order
objects, and what the wallet pays.
-/

namespace AcCore.Tex.Cex

open Lib

variable [Rounding]

omit [Rounding] in
/-- What is available can be withdrawn. -/
theorem Wallet.withdraw_of_le {w : Wallet} {amount : ℤ} (h : amount ≤ w.available) :
    w.withdraw amount = (amount, ⟨w.available - amount⟩) := by
  rw [Wallet.withdraw, if_neg (not_lt.mpr h)]

namespace Market

/-- The terms on which the front of the other side is matched. -/
def terms (m : Market) (weak buy : Bool) : MatchTerms :=
  ⟨m.currency weak, m.currency !weak, !weak, buy⟩

/-- What a match starts with. -/
def start (p : OrderPool) (w : Wallet) (amount : ℤ) : Matching := ⟨p, w, ⟨[], [], 0⟩, amount⟩

/-- A match as it is handed on: what is left of the amount is what is unmatched. -/
def handOn (y : Matching) : Matching := { y with ms := { y.ms with unmatched := y.amountLeft } }

variable {p p' : OrderPool} {m m' : Market} {weak buy priLow : Bool} {w w' : Wallet}
  {limitRate amount : ℤ} {fuel : ℕ} {x y : Matching} {r : TradeResult}

/-- What the first part of a trade does: rounds on the front of the other side. -/
structure Taken (p : OrderPool) (m : Market) (weak : Bool) (w : Wallet) (limitRate amount : ℤ)
    (buy priLow : Bool) (m' : Market) (y : Matching) (gone : List Place) : Prop where
  ok : m'.Ok y.pool
  weakCurrency : m'.weakCurrency = m.weakCurrency
  strongCurrency : m'.strongCurrency = m.strongCurrency
  own : m'.front weak = m.front weak
  rounds : Rounds (m.terms weak buy) (Front.Accepts weak limitRate) (m.front !weak).listing
    (start p w amount) (m'.front !weak).listing y
  taken : m.side (!weak) = gone ++ m'.side !weak
  expired : y.ms.expiredOrders = gone.map Place.id
  pool : y.pool = p.fill y.ms.items
  wallet : y.wallet.available = w.available - (y.ms.items.map (·.back.cost)).sum
  fair : ∀ i ∈ y.ms.items, i.Fair (m.terms weak buy) ∧
    m.place (!weak) (i.rate, i.layOrderId) ∈ m.side !weak
  settled : priLow = false → (m'.front !weak).Settled (m.terms weak buy) limitRate y
  untouched : priLow = true → y = start p w amount ∧ (m.front !weak).testMatch limitRate = false

omit [Rounding] in
/-- The terms of a match against the front across. -/
theorem terms_eq (hm : m.Ok p) : MatchTerms.mk (m.currency weak) (m.currency !weak)
    (!(m.front !weak).invertPriority) buy = m.terms weak buy := by
  rw [hm.invert]
  cases weak <;> rfl

/-- What `take` does: an order of low priority is refused, or the front is matched. -/
theorem take_spec {c : Option (Market × Matching)} (hm : m.Ok p) (hp : p.Ok)
    (h : m.take weak fuel p w limitRate amount buy priLow = some c) :
    (c = none ∧ priLow = true ∧ (m.front !weak).testMatch limitRate = true) ∨
      ∃ m' y gone, c = some (m', handOn y) ∧
        Taken p m weak w limitRate amount buy priLow m' y gone := by
  unfold take at h
  cases priLow with
  | true =>
    rw [if_pos rfl] at h
    split_ifs at h with htest
    · exact Or.inl ⟨(Option.some.inj h).symm, rfl, htest⟩
    · refine Or.inr ⟨m, start p w amount, [], (Option.some.inj h).symm, hm, rfl, rfl, rfl, .nil _ _,
        rfl, rfl, rfl, ?_, ?_, fun hlow => (by cases hlow), fun _ => ⟨rfl, by simpa using htest⟩⟩
      · simp [start]
      · simp [start]
  | false =>
    rw [if_neg Bool.false_ne_true, Option.map_eq_some_iff] at h
    obtain ⟨⟨f, x⟩, hmatch, rfl⟩ := h
    obtain ⟨y, rfl, hrounds, hf, -, hinvert, hsettled⟩ := Front.match_spec (hm.front _) hp hmatch
    have hweak : (m.front !weak).invertPriority = weak := by rw [hm.invert, Bool.not_not]
    rw [terms_eq hm] at hrounds hsettled
    rw [hweak] at hrounds
    obtain ⟨items, gone, heffect⟩ := hrounds.effect hp (hm.front _).nodup
    have hitems : y.ms.items = items := by simpa [start] using heffect.recorded
    obtain rfl := hitems
    have hside : m.side (!weak) =
        gone.map (m.place !weak) ++ f.listing.map (m.place !weak) := by
      rw [side, heffect.listing, List.map_append]
    have hfair : ∀ i ∈ y.ms.items, i.Fair (m.terms weak buy) ∧
        m.place (!weak) (i.rate, i.layOrderId) ∈ m.side !weak := fun i hi =>
      ⟨(heffect.fair i hi).1, List.mem_map_of_mem (heffect.fair i hi).2⟩
    have hnodup : ((m.setFront (!weak) f).listing.map Place.id).Nodup := by
      have hbefore := hm.nodup
      rw [((m.listing_perm !weak).map Place.id).nodup_iff, hside] at hbefore
      rw [(listing_setFront.map Place.id).nodup_iff]
      refine hbefore.sublist (List.Sublist.map _ (List.Sublist.append_right ?_ _))
      exact List.sublist_append_right _ _
    have hown : (m.front weak).Ok y.pool := by
      refine (hm.front weak).congr (hrounds.pool hp).2.ge fun j hj => ?_
      rw [heffect.pool]
      refine p.lookup_fill_of_notMem fun i hi hij => ?_
      have hother : j ∈ (m.front !weak).listing.map Prod.snd := by
        rw [← hij]
        exact List.mem_map.mpr ⟨_, (heffect.fair i hi).2, rfl⟩
      exact hm.disjoint hj hother
    refine Or.inr ⟨m.setFront (!weak) f, y, gone.map (m.place !weak), rfl, ?_, by simp, by simp,
      by simp, ?_, ?_, ?_, heffect.pool, heffect.wallet, hfair, ?_, fun hlow => (by cases hlow)⟩
    · refine hm.setFront hf (hinvert.trans (hm.invert _)) ?_ hnodup
      rw [Bool.not_not]
      exact hown
    · rw [front_setFront_self]
      exact hrounds
    · rw [side_setFront_self]
      exact hside
    · rw [heffect.expired, List.map_map]
      rfl
    · rw [front_setFront_self]
      exact fun _ => hsettled

/-- What a trade does. `y` is where the match of the front of the other side
ends, `gone` has the places that are taken, and `made` the value of the order
that is left. -/
structure Traded (fuel : ℕ) (p : OrderPool) (m : Market) (weak : Bool) (w : Wallet)
    (limitRate amount : ℤ) (buy priLow : Bool) (m' : Market) (p' : OrderPool) (w' : Wallet)
    (r : TradeResult) (y : Matching) (gone : List Place) (made : Option ℤ) : Prop where
  ok : m'.Ok p'
  weakCurrency : m'.weakCurrency = m.weakCurrency
  strongCurrency : m'.strongCurrency = m.strongCurrency
  rounds : Rounds (m.terms weak buy) (Front.Accepts weak limitRate) (m.front !weak).listing
    (start p w amount) (m'.front !weak).listing y
  taken : m.side (!weak) = gone ++ m'.side !weak
  left : (m'.side weak).Perm
    (made.toList.map (fun _ => m.place weak (limitRate, p.next)) ++ m.side weak)
  pool : p' = made.elim (p.fill y.ms.items) fun v => ((p.fill y.ms.items).newOrder v weak buy).2
  fair : ∀ i ∈ y.ms.items, i.Fair (m.terms weak buy) ∧
    m.place (!weak) (i.rate, i.layOrderId) ∈ m.side !weak
  wallet : y.wallet.available = w.available - (y.ms.items.map (·.back.cost)).sum
  paid : w'.available = y.wallet.available - made.getD 0
  recorded : r.ms.items = y.ms.items
  expired : r.ms.expiredOrders = gone.map Place.id
  order : r.order = made.map fun _ => p.next
  error : r.error = true → made = none
  data : r.order ≠ none → r.error = false ∧ r.recvCur = m.currency (!weak) ∧
    r.paidCur = m.currency weak ∧ r.orderRate = limitRate ∧ r.weakCur = m.weakCurrency ∧
    r.strongCur = m.strongCurrency
  rest : ∀ v ∈ made, 1 ≤ v ∧ 0 < limitRate ∧ v ≤ y.wallet.available ∧
    hasRest weak fuel (handOn y) limitRate buy = some true ∧
    restAmount weak (handOn y) limitRate buy = some v ∧
    (priLow = false → (m'.front !weak).Settled (m.terms weak buy) limitRate y) ∧
    (priLow = true → y = start p w amount ∧ (m.front !weak).testMatch limitRate = false)
  took : made ≠ none → ∃ m₁, m.take weak fuel p w limitRate amount buy priLow =
    some (some (m₁, handOn y)) ∧ m'.front (!weak) = m₁.front !weak

/-- What rests is covered by the wallet. -/
theorem restAmount_le {v : ℤ} (h : restAmount weak x limitRate buy = some v) :
    v ≤ x.wallet.available := by
  obtain ⟨u, -, rfl⟩ := Option.map_eq_some_iff.mp h
  split_ifs <;> omega

/-- What is left of a trade is added to the book, or nothing is. -/
theorem rest_spec {gone : List Place} {m₁ : Market} (hp : p.Ok)
    (ht : Taken p m weak w limitRate amount buy priLow m₁ y gone)
    (htake : m.take weak fuel p w limitRate amount buy priLow = some (some (m₁, handOn y)))
    (h : m₁.rest weak fuel (handOn y) limitRate buy priLow = some (m', p', w', r)) :
    ∃ made, Traded fuel p m weak w limitRate amount buy priLow m' p' w' r y gone made := by
  have hm₁ := ht.ok
  have hpool := ht.rounds.pool hp
  have hcurrency : ∀ b, m₁.currency b = m.currency b := by
    intro b
    cases b
    · exact ht.strongCurrency
    · exact ht.weakCurrency
  have hplace : ∀ e, m₁.place weak e = m.place weak e := fun e => by
    rw [place, place, ht.weakCurrency, ht.strongCurrency]
  have hownSide : m₁.side weak = m.side weak := by
    rw [side, side, ht.own]
    exact List.map_congr_left fun e _ => hplace e
  unfold rest at h
  simp only [Option.bind_eq_bind, Option.bind_eq_some_iff] at h
  obtain ⟨more, hmore, h⟩ := h
  cases more with
  | false =>
    simp only [Bool.not_false, if_true, Option.pure_def, Option.some.injEq, Prod.mk.injEq] at h
    obtain ⟨rfl, rfl, rfl, rfl⟩ := h
    refine ⟨none, hm₁, ht.weakCurrency, ht.strongCurrency, ht.rounds, ht.taken, ?_, ht.pool,
      ht.fair, ht.wallet, ?_, rfl, ht.expired, rfl, fun _ => rfl, fun h => absurd rfl h,
      fun v hv => (by cases hv), fun h => absurd rfl h⟩
    · rw [hownSide]
      exact List.Perm.refl _
    · exact (sub_zero _).symm
  | true =>
    simp only [Bool.not_true, Bool.false_eq_true, if_false, Option.bind_eq_some_iff] at h
    obtain ⟨v, hv, ⟨no, f, p₁⟩, hnew, h⟩ := h
    obtain ⟨-, hinvert, hcases⟩ := Front.newOrder_spec hm₁.ruler (hm₁.front weak) hpool.1 hnew
    have hinvert' : f.invertPriority = !weak := hinvert.trans (hm₁.invert weak)
    rcases hcases with ⟨rfl, rfl, hrefused⟩ | ⟨rfl, rfl, hpos, hrate, hf, hperm⟩
    · -- no order can be made
      simp only [Option.pure_def, Option.some.injEq, Prod.mk.injEq] at h
      obtain ⟨rfl, rfl, rfl, rfl⟩ := h
      have hlisting : (m₁.setFront weak f).listing.Perm m₁.listing := by
        refine listing_setFront.trans ?_
        rw [hrefused.listing]
        exact (m₁.listing_perm weak).symm
      have hnodup : ((m₁.setFront weak f).listing.map Place.id).Nodup := by
        rw [(hlisting.map Place.id).nodup_iff]
        exact hm₁.nodup
      refine ⟨none, hm₁.setFront hrefused.ok hinvert' (hm₁.front _) hnodup, by
        simpa using ht.weakCurrency, by simpa using ht.strongCurrency, ?_, ?_, ?_, ht.pool, ht.fair,
        ht.wallet, ?_, rfl, ht.expired, rfl, fun _ => rfl, fun h => absurd rfl h,
        fun v hv => (by cases hv), fun h => absurd rfl h⟩
      · rw [front_not_setFront]
        exact ht.rounds
      · rw [side_setFront_not]
        exact ht.taken
      · rw [side_setFront_self, hrefused.listing, ← side, hownSide]
        exact List.Perm.refl _
      · exact (sub_zero _).symm
    · simp only [Option.pure_def, Option.some.injEq, Prod.mk.injEq] at h
      obtain ⟨rfl, rfl, rfl, rfl⟩ := h
      have hnext : y.pool.next = p.next := hpool.2
      have hvle := restAmount_le hv
      have hfresh : y.pool.next ∉ m₁.listing.map Place.id := by
        intro hmem
        obtain ⟨s, hs, hid⟩ := List.mem_map.mp hmem
        obtain ⟨o, ho, -⟩ := hm₁.live hs
        exact absurd hid (hpool.1 _ _ ho).2.ne
      have hown : (m₁.setFront weak f).side weak =
          f.listing.map (m₁.place weak) := side_setFront_self
      have hlisting : (m₁.setFront weak f).listing.Perm
          (m₁.place weak (limitRate, y.pool.next) :: m₁.listing) := by
        refine listing_setFront.trans ?_
        refine ((hperm.map (m₁.place weak)).append_right _).trans ?_
        rw [List.map_cons, List.cons_append]
        exact (m₁.listing_perm weak).symm.cons _
      have hnodup : ((m₁.setFront weak f).listing.map Place.id).Nodup := by
        rw [(hlisting.map Place.id).nodup_iff, List.map_cons, List.nodup_cons]
        exact ⟨hfresh, hm₁.nodup⟩
      have hother : (m₁.front !weak).Ok (y.pool.newOrder v weak buy).2 := by
        refine (hm₁.front _).congr (Nat.le_succ _) fun j hj => ?_
        refine y.pool.lookup_newOrder_of_ne v weak buy ?_
        rintro rfl
        exact (hm₁.front _).toQueuesOk.notMem_next hpool.1 hj
      refine ⟨some v, hm₁.setFront hf hinvert' hother hnodup, by simpa using ht.weakCurrency,
        by simpa using ht.strongCurrency, ?_, ?_, ?_, ?_, ht.fair, ht.wallet, ?_, rfl, ht.expired,
        ?_, fun herror => (by cases herror), fun _ => ⟨rfl,
          (currency_setFront _).trans (hcurrency _), (currency_setFront _).trans (hcurrency _), rfl,
          weakCurrency_setFront.trans ht.weakCurrency,
          strongCurrency_setFront.trans ht.strongCurrency⟩, ?_,
        fun _ => ⟨m₁, htake, front_not_setFront⟩⟩
      · rw [front_not_setFront]
        exact ht.rounds
      · rw [side_setFront_not]
        exact ht.taken
      · rw [hown, ← hownSide]
        refine (hperm.map (m₁.place weak)).trans ?_
        rw [List.map_cons, hnext, hplace]
        exact List.Perm.refl _
      · simp only [Option.elim]
        rw [← ht.pool]
      · exact congrArg (fun r => r.2.available) (Wallet.withdraw_of_le hvle)
      · rw [← hnext]
        rfl
      · intro v' hv'
        obtain rfl := Option.some.inj hv'
        refine ⟨hpos, hrate, hvle, hmore, hv, fun hlow => ?_, ht.untouched⟩
        rw [front_not_setFront]
        exact ht.settled hlow

/-- What `trade_weak` and `trade_strong` do. -/
theorem tradeSide_spec (hm : m.Ok p) (hp : p.Ok)
    (h : m.tradeSide weak fuel p w limitRate amount buy priLow = some (m', p', w', r)) :
    ∃ y gone made,
      Traded fuel p m weak w limitRate amount buy priLow m' p' w' r y gone made := by
  unfold tradeSide at h
  simp only [Option.bind_eq_bind, Option.bind_eq_some_iff] at h
  obtain ⟨c, hc, h⟩ := h
  rcases take_spec hm hp hc with ⟨rfl, -, -⟩ | ⟨m₁, y, gone, rfl, ht⟩
  · -- low priority, and there is something to match
    simp only [Option.pure_def, Option.some.injEq, Prod.mk.injEq] at h
    obtain ⟨rfl, rfl, rfl, rfl⟩ := h
    refine ⟨start p w amount, [], none, hm, rfl, rfl, .nil _ _, rfl, List.Perm.refl _, rfl, ?_, ?_,
      (sub_zero _).symm, rfl, rfl, rfl, fun _ => rfl, fun h => absurd rfl h,
      fun v hv => (by cases hv), fun h => absurd rfl h⟩
    · simp [start]
    · simp [start]
  · obtain ⟨made, ht'⟩ := rest_spec hp ht hc h
    exact ⟨y, gone, made, ht'⟩

/-- The order objects after the match are those before it, less what is matched. -/
theorem Traded.matched_pool {gone : List Place} {made : Option ℤ} (hm : m.Ok p) (hp : p.Ok)
    (h : Traded fuel p m weak w limitRate amount buy priLow m' p' w' r y gone made) :
    y.pool = p.fill y.ms.items := by
  obtain ⟨items, gone', heffect⟩ := h.rounds.effect hp (hm.front !weak).toQueuesOk.nodup
  have hitems : y.ms.items = items := by simpa [start] using heffect.recorded
  rw [heffect.pool, hitems]
  rfl

/-- The orders that are taken are dust: what is left of them cannot be matched. -/
theorem Traded.dust {gone : List Place} {made : Option ℤ} (hm : m.Ok p) (hp : p.Ok)
    (h : Traded fuel p m weak w limitRate amount buy priLow m' p' w' r y gone made) {s : Place}
    (hs : s ∈ gone) : s.weak = !weak ∧ ∃ o, y.pool.live.lookup s.id = some o ∧
      Order.couldMatchProvidedBigAmount s.rate o.value (!weak) buy = some false := by
  obtain ⟨items, gone', heffect⟩ := h.rounds.effect hp (hm.front !weak).toQueuesOk.nodup
  have hside : m'.side (!weak) = (m'.front !weak).listing.map (m.place !weak) := by
    rw [side]
    refine List.map_congr_left fun e _ => ?_
    rw [place, place, h.weakCurrency, h.strongCurrency]
  have hgone : gone = gone'.map (m.place !weak) := by
    have htaken := h.taken
    rw [hside, side, heffect.listing, List.map_append] at htaken
    exact (List.append_cancel_right htaken).symm
  rw [hgone] at hs
  obtain ⟨e, he, rfl⟩ := List.mem_map.mp hs
  exact ⟨rfl, heffect.dust e he⟩

end Market

end AcCore.Tex.Cex
