import AcCore.Tex.Cex.Conversions
import AcCore.Tex.Cex.Execution

/-!
# Conversions within the range

What is left of the amount, of the funds and of the orders only goes down while a
trade is matched, and a conversion of less is less. So the conversions of a trade
are defined when those of the whole amount, of all the funds and of the whole
values of the orders are, at the limit and at the rates of these orders.
-/

namespace AcCore.Tex.Cex

open Lib

section

variable [Rounding]

omit [Rounding] in
/-- What an optional value contributes to a list comes from that value. -/
theorem mem_elim_nil {α β : Type} {x : Option α} {f : α → List β} {b : β} (h : b ∈ x.elim [] f) :
    ∃ a, x = some a ∧ b ∈ f a := by
  cases x with
  | none => cases h
  | some a => exact ⟨a, rfl, h⟩

/-! ## One conversion -/

omit [Rounding] in
/-- Values between nothing and one that is in range are in range. -/
theorem InRange.of_le {v u : ℤ} (h : InRange u) (hv : 0 ≤ v) (hle : v ≤ u) : InRange v :=
  ⟨le_trans (by decide) hv, hle.trans_lt h.2⟩

/-- A product is defined where that of a greater amount is. -/
theorem Conversion.product_defined {a b r : ℤ} (h : (product b r).Defined) (hr : 0 ≤ r)
    (ha : 0 ≤ a) (hle : a ≤ b) : (product a r).Defined :=
  InRange.of_le h (mulRate_nonneg ha hr) (mulRate_mono ha hr hle)

/-- A quotient is defined where that of a greater amount is. -/
theorem Conversion.quotient_defined {a b r : ℤ} (h : (quotient b r).Defined) (hr : 0 ≤ r)
    (ha : 0 ≤ a) (hle : a ≤ b) : (quotient a r).Defined :=
  ⟨h.1, InRange.of_le h.2 (quotient_nonneg ha hr) (quotient_mono ha hr hle)⟩

/-- A conversion of less is defined. -/
theorem toLayConversion_defined {weak : Bool} {a b r : ℤ} (h : (toLayConversion weak r b).Defined)
    (hr : 0 ≤ r) (ha : 0 ≤ a) (hle : a ≤ b) : (toLayConversion weak r a).Defined := by
  cases weak with
  | true => exact Conversion.product_defined h hr ha hle
  | false => exact Conversion.quotient_defined h hr ha hle

/-- A conversion back is defined where that of a greater value is. -/
theorem toBackConversion_defined {weak : Bool} {a b r : ℤ}
    (h : (toBackConversion weak r b).Defined) (hr : 0 ≤ r) (ha : 0 ≤ a) (hle : a ≤ b) :
    (toBackConversion weak r a).Defined := by
  cases weak with
  | true => exact Conversion.quotient_defined h hr ha hle
  | false => exact Conversion.product_defined h hr ha hle

/-- What a defined conversion gives for less is less. -/
theorem toLay_mono {weak : Bool} {a b r u : ℤ} (h : (toLayConversion weak r b).Defined)
    (hr : 0 ≤ r) (ha : 0 ≤ a) (hle : a ≤ b) (hu : toLay weak r a = some u) :
    0 ≤ u ∧ ∃ v, toLay weak r b = some v ∧ u ≤ v := by
  cases weak with
  | true =>
    obtain rfl := Option.some.inj hu
    exact ⟨mulRate_nonneg ha hr, _, rfl, mulRate_mono ha hr hle⟩
  | false =>
    obtain ⟨hne, rfl⟩ := divRate_eq_some hu
    exact ⟨quotient_nonneg ha hr, _, if_neg hne, quotient_mono ha hr hle⟩

/-! ## One order -/

namespace Order

/-- The conversions that the test of an amount makes at a rate. -/
structure Tests (rate amount : ℤ) (weak buy : Bool) : Prop where
  converted : ∀ c ∈ toMatchConversions rate amount weak buy, c.Defined
  cost : ∀ ev ∈ toMatch rate amount weak buy, ev ≠ 0 → (Conversion.quotient ev rate).Defined

/-- Those for an amount, and for the funds when they do not suffice. -/
structure Converts (w : Wallet) (rate amount : ℤ) (weak buy : Bool) : Prop where
  amount : Tests rate amount weak buy
  converted : ∀ c ∈ newamountConversions w rate weak buy, c.Defined
  funds : ∀ a ∈ newamount w rate weak buy, Tests rate a weak buy

/-- The conversions of a test are finitely many. -/
instance (rate amount : ℤ) (weak buy : Bool) : Decidable (Tests rate amount weak buy) :=
  decidable_of_iff ((∀ c ∈ toMatchConversions rate amount weak buy, c.Defined) ∧
      ∀ ev ∈ (toMatch rate amount weak buy).toList, ev ≠ 0 → (Conversion.quotient ev rate).Defined)
    ⟨fun h => ⟨h.1, fun ev hev => h.2 ev (Option.mem_toList.mpr hev)⟩,
      fun h => ⟨h.1, fun ev hev => h.2 ev (Option.mem_toList.mp hev)⟩⟩

/-- The conversions of an order are finitely many. -/
instance (w : Wallet) (rate amount : ℤ) (weak buy : Bool) :
    Decidable (Converts w rate amount weak buy) :=
  decidable_of_iff (Tests rate amount weak buy ∧
      (∀ c ∈ newamountConversions w rate weak buy, c.Defined) ∧
      ∀ a ∈ (newamount w rate weak buy).toList, Tests rate a weak buy)
    ⟨fun h => ⟨h.1, h.2.1, fun a ha => h.2.2 a (Option.mem_toList.mpr ha)⟩,
      fun h => ⟨h.1, h.2, fun a ha => h.3 a (Option.mem_toList.mp ha)⟩⟩

variable {o o' : Order} {w w' : Wallet} {rate amount amount' : ℤ} {weak buy : Bool} {t : MatchTerms}
  {fuel : ℕ}

/-- The test of an amount is defined where that of a greater one is. -/
theorem Tests.of_le (h : Tests rate amount weak buy) (hr : 0 ≤ rate) (ha : 0 ≤ amount')
    (hle : amount' ≤ amount) : Tests rate amount' weak buy := by
  cases buy with
  | true =>
    refine ⟨by simp [toMatchConversions], fun ev hev hne => ?_⟩
    obtain rfl := Option.some.inj hev
    exact Conversion.quotient_defined (h.cost amount rfl (by omega)) hr ha hle
  | false =>
    have hwhole : (toLayConversion weak rate amount).Defined :=
      h.converted _ (by simp [toMatchConversions])
    refine ⟨fun c hc => ?_, fun ev hev hne => ?_⟩
    · obtain rfl := List.mem_singleton.mp hc
      exact toLayConversion_defined hwhole hr ha hle
    · obtain ⟨hnonneg, v, hv, hlev⟩ := toLay_mono hwhole hr ha hle hev
      exact Conversion.quotient_defined (h.cost v hv (by omega)) hr hnonneg hlev

/-- The conversions of an order are defined where those of greater funds and amounts are. -/
theorem Converts.of_le (h : Converts w rate amount weak buy) (hr : 0 ≤ rate) (ha : 0 ≤ amount')
    (hle : amount' ≤ amount) (hw : 0 ≤ w'.available) (hwle : w'.available ≤ w.available) :
    Converts w' rate amount' weak buy := by
  refine ⟨h.amount.of_le hr ha hle, ?_, ?_⟩
  · cases buy with
    | true =>
      intro c hc
      obtain rfl := List.mem_singleton.mp hc
      exact toLayConversion_defined (h.converted _ (by simp [newamountConversions])) hr hw hwle
    | false => simp [newamountConversions]
  · intro a ha'
    cases buy with
    | true =>
      have hwhole : (toLayConversion weak rate w.available).Defined :=
        h.converted _ (by simp [newamountConversions])
      obtain ⟨hnonneg, v, hv, hlev⟩ := toLay_mono hwhole hr hw hwle ha'
      exact (h.funds v hv).of_le hr hnonneg hlev
    | false =>
      obtain rfl := Option.some.inj ha'
      exact (h.funds w.available rfl).of_le hr hw hwle

/-- Every conversion of `could_match` is defined. -/
theorem couldMatchPass_defined (h : Converts w rate amount weak buy) :
    ∀ c ∈ couldMatchPassConversions w rate amount weak buy, c.Defined := by
  intro c hc
  rcases List.mem_append.mp hc with hc | hc
  · exact h.amount.converted c hc
  · obtain ⟨ev, hev, hc⟩ := mem_elim_nil hc
    split_ifs at hc with hzero
    · cases hc
    rcases List.mem_cons.mp hc with rfl | hc
    · exact h.amount.cost ev hev hzero
    · obtain ⟨cost, hcost, hc⟩ := mem_elim_nil hc
      split_ifs at hc
      · exact h.converted c hc
      · cases hc

/-- The call of itself is for what the funds buy. -/
theorem newamount_of_couldMatchPass
    (h : couldMatchPass w rate amount weak buy = some (.inr amount')) :
    newamount w rate weak buy = some amount' := by
  simp only [couldMatchPass, Option.bind_eq_bind, Option.bind_eq_some_iff, Option.pure_def] at h
  obtain ⟨ev, -, h⟩ := h
  split_ifs at h with hzero
  · cases h
  obtain ⟨cost, -, h⟩ := Option.bind_eq_some_iff.mp h
  split_ifs at h
  · cases h
  · obtain ⟨a, ha, hinr⟩ := Option.map_eq_some_iff.mp h
    obtain rfl := Sum.inr.inj hinr
    exact ha
  · cases h

/-- The test of the funds. -/
theorem couldMatch_defined (h : Converts w rate amount weak buy) :
    ∀ c ∈ couldMatchConversions w rate weak buy fuel amount, c.Defined := by
  induction fuel generalizing amount with
  | zero => exact fun c hc => nomatch hc
  | succ fuel ih =>
    intro c hc
    rcases List.mem_append.mp hc with hc | hc
    · exact couldMatchPass_defined h c hc
    · split at hc
      · next a hpass =>
        exact ih ⟨h.funds a (newamount_of_couldMatchPass hpass), h.converted, h.funds⟩ c hc
      · cases hc

/-- The amount to match is not negative. -/
theorem Tests.toMatch_nonneg (h : Tests rate amount weak buy) (hr : 0 ≤ rate) (ha : 0 ≤ amount)
    {m : ℤ} (hm : toMatch rate amount weak buy = some m) : 0 ≤ m := by
  cases buy with
  | true => exact Option.some.inj hm ▸ ha
  | false => exact (toLay_mono (h.converted _ (by simp [toMatchConversions])) hr ha le_rfl hm).1

/-- Every conversion of one pass of the match is defined. -/
theorem matchPass_defined (h : Converts w rate amount weak buy) (hr : 0 ≤ rate) (ha : 0 ≤ amount)
    (hpos : 0 ≤ o.value) (hvalue : (toBackConversion weak rate o.value).Defined) :
    ∀ c ∈ o.matchPassConversions w rate amount weak buy, c.Defined := by
  intro c hc
  rcases List.mem_append.mp hc with hc | hc
  · exact h.amount.converted c hc
  · obtain ⟨m, hm, hc⟩ := mem_elim_nil hc
    have hmpos := h.amount.toMatch_nonneg hr ha hm
    have hreceived : 0 ≤ o.received m := by
      unfold received
      split_ifs <;> omega
    by_cases hzero : m = 0
    · rw [if_pos hzero] at hc
      cases hc
    rw [if_neg hzero] at hc
    rcases List.mem_append.mp hc with hc | hc
    · split_ifs at hc
      · obtain rfl := List.mem_singleton.mp hc
        exact toBackConversion_defined hvalue hr hreceived (o.received_le m)
      · cases hc
    · obtain ⟨cost, hcost, hc⟩ := mem_elim_nil hc
      split_ifs at hc
      · exact h.converted c hc
      · cases hc

/-- A pass that only lowers the amount lowers it to what the funds suffice for. -/
theorem newamount_of_matchPass {cur layCur : Cur}
    (h : o.matchPass w rate amount cur layCur weak buy = some (.inr amount')) :
    newamount w rate weak buy = some amount' := by
  simp only [matchPass, Option.bind_eq_bind, Option.bind_eq_some_iff, Option.pure_def] at h
  obtain ⟨m, -, h⟩ := h
  split_ifs at h with hzero
  · cases h
  obtain ⟨cost, -, h⟩ := Option.bind_eq_some_iff.mp h
  split_ifs at h
  · obtain ⟨a, ha, hinr⟩ := Option.map_eq_some_iff.mp h
    obtain rfl := Sum.inr.inj hinr
    exact ha
  · cases h
  · cases h

/-- The match of an order. -/
theorem match_defined {cur layCur : Cur} (h : Converts w rate amount weak buy) (hr : 0 < rate)
    (ha : 0 ≤ amount) (hw : 0 ≤ w.available) (hpos : 0 ≤ o.value)
    (hvalue : (toBackConversion weak rate o.value).Defined) :
    ∀ c ∈ o.matchConversions w rate cur layCur weak buy fuel amount, c.Defined := by
  induction fuel generalizing amount with
  | zero => exact fun c hc => nomatch hc
  | succ fuel ih =>
    intro c hc
    rcases List.mem_append.mp hc with hc | hc
    · exact matchPass_defined h hr.le ha hpos hvalue c hc
    · split at hc
      · next a hpass =>
        have hnew := newamount_of_matchPass hpass
        exact ih ⟨h.funds a hnew, h.converted, h.funds⟩ (newamount_nonneg hr hw hnew) c hc
      · cases hc

end Order

/-! ## The matching loops -/

variable {t : MatchTerms} {accepts : ℤ → Prop} {l l' : List (ℤ × Id)} {x x' : Matching} {r : ℤ}
  {i : Id} {fuel : ℕ}

/-- Everything that the orders of a list may be asked to convert is defined. -/
structure Bounded (t : MatchTerms) (accepts : ℤ → Prop) (l : List (ℤ × Id)) (x : Matching) :
    Prop where
  pool : x.pool.Ok
  solvent : x.Solvent
  nodup : (l.map Prod.snd).Nodup
  pos : ∀ e ∈ l, 0 < e.1
  values : ∀ e ∈ l, ∃ o, x.pool.live.lookup e.2 = some o ∧ 1 ≤ o.value
  converts : ∀ e ∈ l, accepts e.1 → Order.Converts x.wallet e.1 x.amountLeft t.weak t.buy
  orders : ∀ e ∈ l, accepts e.1 → ∀ o ∈ x.pool.live.lookup e.2,
    (toBackConversion t.weak e.1 o.value).Defined
  gain : ∀ e ∈ l, accepts e.1 → Gainless t.weak e.1 (x.converted t.buy)

/-- Fewer orders ask for fewer conversions. -/
theorem Bounded.sublist (h : Bounded t accepts l x) (hl : l'.Sublist l) :
    Bounded t accepts l' x where
  pool := h.pool
  solvent := h.solvent
  nodup := h.nodup.sublist (hl.map _)
  pos e he := h.pos e (hl.subset he)
  values e he := h.values e (hl.subset he)
  converts e he := h.converts e (hl.subset he)
  orders e he := h.orders e (hl.subset he)
  gain e he := h.gain e (hl.subset he)

/-- A pass takes from the amount, from the funds and from the order. -/
theorem Touched.bounded {expired : Bool} (h : Touched t r i expired x x') (hr : accepts r)
    (hx : Bounded t accepts ((r, i) :: l) x) :
    Bounded t accepts (if expired then l else (r, i) :: l) x' := by
  have hfirst : (r, i) ∈ (r, i) :: l := List.mem_cons_self
  have hsub : (if expired then l else (r, i) :: l).Sublist ((r, i) :: l) := by
    cases expired with
    | true => exact List.sublist_cons_self _ _
    | false => exact List.Sublist.refl _
  have hgain := hx.gain _ hfirst hr
  obtain ⟨hsolvent, hleft, hwallet⟩ := h.solvent hx.solvent (hx.pos _ hfirst) (hx.values _ hfirst)
    hgain
  have hvalues := h.values hx.pool hx.nodup hx.values
  obtain ⟨items, haccounted⟩ : ∃ items, Accounted t accepts ((r, i) :: l) x x' items
      (if expired then [(r, i)] else []) :=
    h.accounted hx.pool hx.solvent (hx.pos _ hfirst) hr (hx.values _ hfirst) hgain
  have hpositive := haccounted.executions.positive
  refine ⟨h.pool_ok hx.pool, hsolvent, hx.nodup.sublist (hsub.map _),
    fun e he => hx.pos e (hsub.subset he), hvalues, fun e he haccepts => ?_,
    fun e he haccepts o' ho' => ?_, fun e he haccepts =>
      (hx.gain e (hsub.subset he) haccepts).of_le (Matching.converted_le t.buy hleft hwallet)⟩
  · exact (hx.converts e (hsub.subset he) haccepts).of_le (hx.pos e (hsub.subset he)).le
      hsolvent.left hleft hsolvent.wallet hwallet
  · obtain ⟨o₁, ho₁, hpos⟩ := hvalues e he
    obtain rfl := Option.some.inj (ho'.symm.trans ho₁)
    rw [haccounted.pool, OrderPool.lookup_fill] at ho'
    obtain ⟨o, ho, rfl⟩ := Option.map_eq_some_iff.mp ho'
    have hfilled : 0 ≤ OrderPool.filled items e.2 := posted_nonneg (fun p hp => by
      obtain ⟨m, hm, rfl⟩ := List.mem_map.mp hp
      exact zero_le_one.trans (hpositive m hm).1) _
    dsimp only at hpos ⊢
    exact toBackConversion_defined (hx.orders e (hsub.subset he) haccepts o ho)
      (hx.pos e (hsub.subset he)).le (by omega) (by omega)

/-- Rounds of the match keep the conversions defined. -/
theorem Rounds.bounded (h : Rounds t accepts l x l' x') (hx : Bounded t accepts l x) :
    Bounded t accepts l' x' := by
  induction h with
  | nil => exact hx
  | touch hr hstep _ ih => exact ih (hstep.bounded hr hx)
  | expire hr hstep _ ih => exact ih (hstep.bounded hr hx)

namespace WaitingQueue

variable {q : WaitingQueue} {ids : List Id}

/-- A match takes from the value of the order. -/
theorem record_value {o : Order} {ans : Option (MatchItem × Order × Wallet) × ℤ} {rate : ℤ}
    (ho : x.pool.live.lookup i = some o) (hpos : 1 ≤ o.value) (hr : 0 < rate) (hx : x.Solvent)
    (hgain : Gainless t.weak rate (x.converted t.buy))
    (h : o.match x.wallet rate t.cur t.layCur t.weak t.buy fuel x.amountLeft = some ans) :
    ∃ o', 0 ≤ o'.value ∧ (x.record i ans).pool.live.lookup i = some o' ∧ o'.value ≤ o.value := by
  obtain ⟨result, left⟩ := ans
  cases result with
  | none => exact ⟨o, by omega, ho, le_rfl⟩
  | some res =>
    obtain ⟨item, o', w⟩ := res
    have hexecuted := Order.match_executed h
    have hpositive := (Order.match_solvent hr hx.wallet hx.left hpos hgain h).item _ rfl
    refine ⟨o', hexecuted.nonneg, x.pool.lookup_set_self i o', ?_⟩
    rw [hexecuted.order]
    have hcost : 1 ≤ item.lay.cost := hpositive.1
    dsimp only
    omega

/-- Every conversion of the match of the first order is defined. -/
theorem matchFirst_defined (hl : (q.rate, i) ∈ l) (hr : accepts q.rate)
    (hx : Bounded t accepts l x) : ∀ c ∈ q.matchFirstConversions t fuel i x, c.Defined := by
  obtain ⟨o, ho, hpos⟩ := hx.values _ hl
  have hrate := hx.pos _ hl
  have hvalue := hx.orders _ hl hr o ho
  have hconverts := hx.converts _ hl hr
  intro c hc
  rw [matchFirstConversions, ho, Option.elim_some] at hc
  rcases List.mem_append.mp hc with hc | hc
  · exact Order.match_defined hconverts hrate hx.solvent.left hx.solvent.wallet (by omega) hvalue
      c hc
  · obtain ⟨ans, hmatch, hc⟩ := mem_elim_nil hc
    obtain ⟨o', hnonneg, ho', hle⟩ := record_value ho hpos hrate hx.solvent (hx.gain _ hl hr) hmatch
    rw [ho', Option.elim_some, Order.couldMatchAmountConversions] at hc
    split_ifs at hc
    · cases hc
    · obtain rfl := List.mem_singleton.mp hc
      exact toBackConversion_defined hvalue hrate.le hnonneg hle

/-- The match of a queue, pass by pass. -/
theorem match_defined (hq : q.Ok x.pool) (hr : accepts q.rate)
    (hx : Bounded t accepts q.listing x) : ∀ c ∈ q.matchConversions t fuel x, c.Defined := by
  induction fuel generalizing q x with
  | zero => exact fun c hc => nomatch hc
  | succ fuel ih =>
    intro c hc
    rw [matchConversions] at hc
    cases hl : q.orders with
    | nil =>
      rw [hl] at hc
      cases hc
    | cons i ids =>
      rw [hl] at hc
      dsimp only at hc
      have hlisting : q.listing = (q.rate, i) :: ids.map fun j => (q.rate, j) := by
        simp [listing, hl]
      have hmem : (q.rate, i) ∈ q.listing := by simp [hlisting]
      rcases List.mem_append.mp hc with hc | hc
      · exact Order.couldMatch_defined (hx.converts _ hmem hr) c hc
      · split at hc
        · next hfunds =>
          rcases List.mem_append.mp hc with hc | hc
          · exact matchFirst_defined hmem hr hx c hc
          · obtain ⟨⟨q₁, x₁⟩, hfirst, hc⟩ := mem_elim_nil hc
            obtain ⟨expired, htouched, hq₁, hrate, -, horders, -⟩ :=
              matchFirst_spec hq hl hfunds hfirst
            have hbounded := htouched.bounded hr (hlisting ▸ hx)
            have hlisting₁ : q₁.listing =
                if expired then ids.map (fun j => (q.rate, j)) else q.listing := by
              rw [listing, horders, hrate]
              cases expired with
              | true => rfl
              | false => exact hlisting.symm
            rw [← hlisting, ← hlisting₁] at hbounded
            exact ih hq₁ (hrate ▸ hr) hbounded c hc
        · cases hc

end WaitingQueue

/-- The match of the queues of a rate. -/
theorem WaitingQueues.match_defined {q : WaitingQueues} (hq : q.Ok x.pool) (hr : accepts q.getRate)
    (hx : Bounded t accepts q.listing x) : ∀ c ∈ q.matchConversions t fuel x, c.Defined := by
  intro c hc
  rcases List.mem_append.mp hc with hc | hc
  · exact WaitingQueue.match_defined hq.high hr (hx.sublist (List.sublist_append_left _ _)) c hc
  · obtain ⟨⟨high, y⟩, hhigh, hc⟩ := mem_elim_nil hc
    dsimp only at hc
    split_ifs at hc
    · cases hc
    obtain ⟨hrounds, -, -, -, hother, -⟩ := WaitingQueue.match_spec hq.high hr hhigh
    have hlow : q.low.Ok y.pool := hq.low.congr fun j hj =>
      hother j fun hmem => hq.disjoint hmem hj
    have hy := (hrounds.append q.low.listing).bounded hx
    exact WaitingQueue.match_defined hlow (hq.rate ▸ hr)
      (hy.sublist (List.sublist_append_right _ _)) c hc

/-- The match of a front, queue by queue. -/
theorem Front.matchLoop_defined {f : Front} {limitRate : ℤ} {prevq : Option ℤ}
    (hf : f.QueuesOk x.pool)
    (hx : Bounded t (Accepts f.invertPriority limitRate) f.listing x) :
    ∀ c ∈ matchLoopConversions t limitRate fuel prevq f x, c.Defined := by
  induction fuel generalizing prevq f x with
  | zero => exact fun c hc => nomatch hc
  | succ fuel ih =>
    intro c hc
    rw [matchLoopConversions] at hc
    cases hqs : f.queues with
    | nil =>
      rw [hqs] at hc
      cases hc
    | cons q qs =>
      rw [hqs] at hc
      dsimp only at hc
      split_ifs at hc with hstop
      · cases hc
      rw [not_or, Bool.not_eq_true', Bool.not_eq_false] at hstop
      have hq : q ∈ f.queues := by simp [hqs]
      have haccepted : Accepts f.invertPriority limitRate q.getRate :=
        hf.invert q hq ▸ compare_iff.mp hstop.2
      have hlisting : f.listing = q.listing ++ qs.flatMap WaitingQueues.listing := by
        rw [listing, hqs, List.flatMap_cons]
      rcases List.mem_append.mp hc with hc | hc
      · refine WaitingQueues.match_defined (hf.queues q hq) haccepted ?_ c hc
        exact (hlisting ▸ hx).sublist (List.sublist_append_left _ _)
      · obtain ⟨⟨q', x'⟩, hmatch, hc⟩ := mem_elim_nil hc
        dsimp only at hc
        obtain ⟨f', htrim, hc⟩ := mem_elim_nil hc
        obtain ⟨hrounds, hf', -, hinvert, -, -, -, -⟩ :=
          hf.match_first hx.pool hqs hstop.2 hmatch htrim
        refine ih hf' ?_ c hc
        rw [hinvert]
        exact hrounds.bounded hx

/-! ## A trade -/

namespace Market

variable {m : Market} {p : OrderPool} {w : Wallet} {weak buy priLow : Bool} {limitRate amount : ℤ}

/-- The wallet is not negative. The whole amount and all the funds can be converted at the
limit, and, if the other front is matched, at the rates that the limit accepts, and so can
the values of the orders there, and nothing gains by conversions at these rates. -/
structure Converts (m : Market) (weak : Bool) (p : OrderPool) (w : Wallet)
    (limitRate amount : ℤ) (buy priLow : Bool) : Prop where
  funds : 0 ≤ w.available
  limit : Order.Converts w limitRate amount weak buy
  rest : buy = true → (toLayConversion weak limitRate amount).Defined
  rates : priLow = false → ∀ e ∈ (m.front !weak).listing, Front.Accepts weak limitRate e.1 →
    Order.Converts w e.1 amount (!weak) buy
  orders : priLow = false → ∀ e ∈ (m.front !weak).listing, Front.Accepts weak limitRate e.1 →
    ∀ o ∈ p.live.lookup e.2, (toBackConversion (!weak) e.1 o.value).Defined
  gain : priLow = false → ∀ e ∈ (m.front !weak).listing, Front.Accepts weak limitRate e.1 →
    Gainless (!weak) e.1 (Order.converted w amount buy)

omit [Rounding] in
/-- A match begins with a wallet and an amount that are not negative. -/
theorem start_solvent (hw : 0 ≤ w.available) (ha : 0 ≤ amount) : (start p w amount).Solvent :=
  ⟨ha, hw, by simp [start]⟩

/-- The front of the other side. -/
theorem Converts.take (h : m.Converts weak p w limitRate amount buy priLow) (hm : m.Ok p)
    (hp : p.Ok)
    (ha : 0 ≤ amount) :
    ∀ c ∈ m.takeConversions weak fuel p w limitRate amount buy priLow, c.Defined := by
  intro c hc
  unfold takeConversions at hc
  split_ifs at hc with hlow
  · cases hc
  rw [Bool.not_eq_true] at hlow
  have hf := (hm.front !weak).toQueuesOk
  have hweak : (m.front !weak).invertPriority = weak := by rw [hm.invert, Bool.not_not]
  rw [Front.matchConversions, terms_eq hm] at hc
  refine Front.matchLoop_defined hf ?_ c hc
  rw [hweak]
  exact ⟨hp, start_solvent h.funds ha, hf.nodup, fun e he => hf.rate_pos he,
    fun e he => hf.live he, h.rates hlow, h.orders hlow, h.gain hlow⟩

/-- What is left. -/
theorem Converts.restOf (h : m.Converts weak p w limitRate amount buy priLow) (hm : m.Ok p)
    (hp : p.Ok) (ha : 0 ≤ amount) (hlimit : 0 ≤ limitRate) {m₁ : Market} {y : Matching}
    {gone : List Place} (ht : Taken p m weak w limitRate amount buy priLow m₁ y gone) :
    ∀ c ∈ restConversions weak fuel (handOn y) limitRate buy, c.Defined := by
  have hf := (hm.front !weak).toQueuesOk
  have hstart := start_solvent (p := p) h.funds ha
  obtain ⟨hsolvent, hleft, hfunds⟩ : y.Solvent ∧ y.amountLeft ≤ amount ∧
      y.wallet.available ≤ w.available := by
    cases hlow : priLow with
    | true =>
      -- nothing is matched
      obtain ⟨rfl, -⟩ := ht.untouched hlow
      exact ⟨hstart, le_rfl, le_rfl⟩
    | false =>
      exact ht.rounds.solvent hp hstart hf.nodup (fun e he => hf.rate_pos he)
        (fun e he => hf.live he) (h.gain hlow)
  intro c hc
  rcases List.mem_append.mp hc with hc | hc
  · unfold hasRestConversions at hc
    have hlimitOf : Order.Converts y.wallet limitRate y.amountLeft weak buy :=
      h.limit.of_le hlimit hsolvent.left hleft hsolvent.wallet hfunds
    split_ifs at hc
    · exact Order.couldMatch_defined hlimitOf c hc
    · cases hc
    · exact Order.couldMatch_defined hlimitOf c hc
    · cases hc
  · split_ifs at hc with hbuy
    · obtain rfl := List.mem_singleton.mp hc
      exact toLayConversion_defined (h.rest hbuy.2) hlimit hsolvent.left hleft
    · cases hc

/-- Every conversion of a trade is defined. -/
theorem Converts.trade (h : m.Converts weak p w limitRate amount buy priLow) (hm : m.Ok p)
    (hp : p.Ok) (ha : 0 ≤ amount) (hlimit : 0 ≤ limitRate) :
    ∀ c ∈ m.tradeSideConversions weak fuel p w limitRate amount buy priLow, c.Defined := by
  intro c hc
  rcases List.mem_append.mp hc with hc | hc
  · exact h.take hm hp ha c hc
  · obtain ⟨r, htake, hc⟩ := mem_elim_nil hc
    rcases take_spec hm hp htake with ⟨rfl, -, -⟩ | ⟨m₁, y, gone, rfl, ht⟩
    · cases hc
    · exact h.restOf hm hp ha hlimit ht c hc

end Market

namespace Engine

variable {e : Engine} {m : Market} {acid : Id} {cid : Cur} {rate amount : ℤ} {buy priLow : Bool}
  {hash : Text → UInt64}

/-- What the sale of an input of a trade may convert. -/
def TradeConverts (e : Engine) (acid : Id) (priLow : Bool) (input : TradeInput) : Prop :=
  ∀ t, input.parse = .ok t → ∀ m ∈ e.findMarket (marketKey t.weakcur t.strongcur),
    ∀ w ∈ e.sellWallet acid m t.curid t.buy,
      m.Converts (m.paysWeak t.curid t.buy) e.pool w t.rate t.amount t.buy priLow

/-- What the sale of an input of an update may convert, after the order is cancelled. -/
def UpdateConverts (e : Engine) (acid : Id) (input : UpdateInput) : Prop :=
  ∀ i amount rate, input.parse = .ok (i, amount, rate) → i ∈ e.orders →
    ∀ o ∈ e.pool.live.lookup i, 1 ≤ amount → rate ≠ o.rate →
      ∀ e₁ found, e.cancel acid i = some (e₁, found) →
        ∀ m ∈ e₁.findMarket (marketKey o.weakCur o.strongCur),
          ∀ w ∈ e₁.sellWallet acid m (updateCur o) o.buy,
            m.Converts (m.paysWeak (updateCur o) o.buy) e₁.pool w rate amount o.buy false

/-- Every conversion of `_sell` is defined. -/
theorem Ok.sell_defined (he : e.Ok) (hm : m ∈ e.markets) (ha : 0 ≤ amount)
    (hrate : 0 ≤ rate) (h : ∀ w ∈ e.sellWallet acid m cid buy,
      m.Converts (m.paysWeak cid buy) e.pool w rate amount buy priLow) :
    ∀ c ∈ e.sellConversions fuel acid m cid rate amount buy priLow, c.Defined := by
  intro c hc
  unfold sellConversions at hc
  obtain ⟨w, hw, hc⟩ := mem_elim_nil hc
  exact (h w hw).trade (he.markets m hm) he.pool ha hrate c hc

/-- **No undefined arithmetic in matching.** In every reachable state, the
conversions of a trade, and of an update to another rate, have a divisor and give
a number of 64 bits when those of the whole amount, of all the funds and of the
values of the orders do, at the limit and at the rates that it accepts. -/
theorem conversions_defined {ops : List Op}
    (h : run (Engine.step hash fuel) (Engine.init hash) ops = some e) :
    (∀ acid priLow input, e.TradeConverts acid priLow input →
      ∀ c ∈ e.tradeConversions fuel acid priLow input, c.Defined) ∧
    ∀ acid input, e.UpdateConverts acid input →
      ∀ c ∈ e.updateConversions fuel acid input, c.Defined := by
  have he := ok_of_run h
  constructor
  · intro acid priLow input hconverts c hc
    unfold tradeConversions at hc
    cases hparse : input.parse with
    | error err =>
      rw [hparse] at hc
      cases hc
    | ok t =>
      rw [hparse] at hc
      dsimp only at hc
      obtain ⟨m, hm, hc⟩ := mem_elim_nil hc
      obtain ⟨hamount, hrate⟩ := TradeInput.parse_pos hparse
      exact he.sell_defined (Keyed.mem_of_get hm) hamount.le hrate.le
        (hconverts t hparse m hm) c hc
  · intro acid input hconverts c hc
    unfold updateConversions at hc
    cases hparse : input.parse with
    | error err =>
      rw [hparse] at hc
      cases hc
    | ok t =>
      obtain ⟨i, amount, rate⟩ := t
      rw [hparse] at hc
      dsimp only at hc
      by_cases hi : i ∉ e.orders
      · rw [if_pos hi] at hc
        cases hc
      rw [if_neg hi] at hc
      rw [not_not] at hi
      obtain ⟨o, ho, hc⟩ := mem_elim_nil hc
      by_cases hskip : amount < 1 ∨ rate = o.rate
      · rw [if_pos hskip] at hc
        cases hc
      rw [if_neg hskip] at hc
      rw [not_or, not_lt] at hskip
      obtain ⟨⟨e₁, found⟩, hcancel, hc⟩ := mem_elim_nil hc
      dsimp only at hc
      obtain ⟨m, hm, hc⟩ := mem_elim_nil hc
      obtain ⟨hamount, hrate⟩ := UpdateInput.parse_nonneg hparse
      exact (he.cancel hcancel).sell_defined (Keyed.mem_of_get hm) hamount hrate
        (hconverts i amount rate hparse hi o ho hskip.1 hskip.2 e₁ found hcancel m hm) c hc

end Engine

end

namespace Engine

open scoped Doubles in
/-- The sample trade converts four pounds, and ten, at its limit. -/
theorem conversions_defined_sampleTrade :
    ∃ e, run (Engine.step sampleHash 8) (Engine.init sampleHash) sampleDeposit = some e ∧
      .quotient 400000 150000 ∈ e.tradeConversions 8 2 false (sampleInput ['1', '.', '5']) ∧
      ∀ c ∈ e.tradeConversions 8 2 false (sampleInput ['1', '.', '5']), c.Defined := by
  have hview : (run (Engine.step sampleHash 8) (Engine.init sampleHash) sampleDeposit).bind
      (fun e => (e.findMarket (marketKey eur gbp)).bind fun m =>
        (e.sellWallet 2 m gbp false).map fun w =>
          decide (m.paysWeak gbp false = false ∧ m.weakFront.listing = [] ∧ 0 ≤ w.available ∧
            Order.Converts w 150000 400000 false false ∧ .quotient 400000 150000 ∈
              e.tradeConversions 8 2 false (sampleInput ['1', '.', '5']))) = some true := by
    decide +kernel
  simp only [Option.bind_eq_some_iff, Option.map_eq_some_iff, decide_eq_true_eq] at hview
  obtain ⟨e, h₀, m, hm, w, hw, hside, hlisting, hfunds, hlimit, hmem⟩ := hview
  refine ⟨e, h₀, hmem, (conversions_defined h₀).1 2 false _ fun t ht m' hm' w' hw' => ?_⟩
  have hparse : (sampleInput ['1', '.', '5']).parse.toOption =
      some ⟨false, 400000, gbp, 150000, eur, gbp⟩ := by decide +kernel
  rw [ht] at hparse
  obtain rfl := Option.some.inj hparse
  obtain rfl := Option.some.inj (hm'.symm.trans hm)
  obtain rfl := Option.some.inj (hw'.symm.trans hw)
  dsimp only
  rw [hside]
  refine ⟨hfunds, hlimit, (fun hbuy => nomatch hbuy), fun _ e he => ?_, fun _ e he => ?_,
    fun _ e he => ?_⟩
  all_goals
    rw [show (m'.front !false).listing = [] from hlisting] at he
    cases he

open scoped Doubles in
/-- An update to the rate 0 divides by it, and a great amount at a small rate is
out of the range. -/
theorem conversions_undefined :
    ∃ e, run (Engine.step sampleHash 8) (Engine.init sampleHash)
        (sampleDeposit ++ [sampleTrade ['1', '.', '5']]) = some e ∧
      .quotient 400000 0 ∈ e.updateConversions 8 2 ⟨['1'], ['4'], ['0']⟩ ∧
      .quotient 9223372036854700000 50000 ∈ e.tradeConversions 8 2 false
        ⟨['S'], ['9', '2', '2', '3', '3', '7', '2', '0', '3', '6', '8', '5', '4', '7'],
          ['G', 'B', 'P'], ['0', '.', '5'], ['E', 'U', 'R', '/', 'G', 'B', 'P']⟩ ∧
      ¬(Conversion.quotient 400000 0).Defined ∧
      ¬(Conversion.quotient 9223372036854700000 50000).Defined := by
  have hview : (run (Engine.step sampleHash 8) (Engine.init sampleHash)
      (sampleDeposit ++ [sampleTrade ['1', '.', '5']])).map (fun e =>
        decide (.quotient 400000 0 ∈ e.updateConversions 8 2 ⟨['1'], ['4'], ['0']⟩ ∧
          .quotient 9223372036854700000 50000 ∈ e.tradeConversions 8 2 false
            ⟨['S'], ['9', '2', '2', '3', '3', '7', '2', '0', '3', '6', '8', '5', '4', '7'],
              ['G', 'B', 'P'], ['0', '.', '5'], ['E', 'U', 'R', '/', 'G', 'B', 'P']⟩)) =
      some true := by decide +kernel
  obtain ⟨e, hrun, hview⟩ := Option.map_eq_some_iff.mp hview
  obtain ⟨hupdate, htrade⟩ := of_decide_eq_true hview
  exact ⟨e, hrun, hupdate, htrade, by decide +kernel, by decide +kernel⟩

end Engine

end AcCore.Tex.Cex
