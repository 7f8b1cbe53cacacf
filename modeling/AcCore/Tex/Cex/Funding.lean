import AcCore.Tex.Cex.Positive

/-!
# When the funding test ends

The test whether a wallet covers an amount calls itself with a smaller amount
when it does not, which it computes from the wallet in a way that is not always
the inverse of how it computes the cost. This file determines for which
arguments the calls end.
-/

namespace AcCore.Tex.Cex

open Lib

section

variable [Rounding]

namespace Order

variable {w : Wallet} {rate amount : ℤ} {weak buy : Bool}

/-- The cost of an amount to `could_match_provided_big_ordervalue`. -/
def fundingCost (rate amount : ℤ) (weak buy : Bool) : ℤ :=
  if buy then amount
  else if weak then quotient (mulRate amount rate) rate
  else quotient (quotient amount rate) rate

/-- The amount of the call of itself. -/
def reducedAmount (w : Wallet) (rate : ℤ) (weak buy : Bool) : ℤ :=
  if buy then if weak then mulRate w.available rate else quotient w.available rate
  else w.available

/-- At a positive rate the amount that the funds suffice for is defined. -/
theorem newamount_eq (hr : 1 ≤ rate) :
    newamount w rate weak buy = some (reducedAmount w rate weak buy) := by
  unfold newamount reducedAmount
  rw [toLay_of_pos (by omega)]
  cases buy <;> rfl

/-- A pass of the test: the amount costs nothing, the wallet does not cover the
cost, or it does. -/
theorem couldMatchPass_eq (hr : 1 ≤ rate) :
    couldMatchPass w rate amount weak buy = some
      (if fundingCost rate amount weak buy = 0 then .inl false
      else if w.available < fundingCost rate amount weak buy then
        .inr (reducedAmount w rate weak buy)
      else .inl true) := by
  have hpos : 0 < rate := by omega
  have htest : ∀ ev : ℤ, testCost rate ev buy = some (if buy then ev else quotient ev rate) := by
    intro ev
    rw [testCost, divRate_of_pos hpos, Option.map_some]
  have htoMatch : toMatch rate amount weak buy = some (if buy then amount
      else if weak then mulRate amount rate else quotient amount rate) := by
    unfold toMatch
    rw [toLay_of_pos hpos]
    cases buy <;> rfl
  have hpass : ∀ ev : ℤ, toMatch rate amount weak buy = some ev →
      fundingCost rate amount weak buy = (if buy then ev else quotient ev rate) →
      couldMatchPass w rate amount weak buy = some
        (if fundingCost rate amount weak buy = 0 then .inl false
        else if w.available < fundingCost rate amount weak buy then
          .inr (reducedAmount w rate weak buy)
        else .inl true) := by
    intro ev hev hcost
    unfold couldMatchPass
    rw [newamount_eq hr, hev, hcost]
    simp only [Option.bind_eq_bind, Option.bind_some, htest]
    by_cases hzero : ev = 0
    · -- an amount that matches nothing costs nothing
      subst hzero
      simp
    · simp only [hzero, if_false]
      split_ifs <;> rfl
  refine hpass _ htoMatch ?_
  cases buy <;> cases weak <;> rfl

/-- The wallet covers the amount, or what the test reduces it to. -/
def Covers (w : Wallet) (rate amount : ℤ) (weak buy : Bool) : Prop :=
  fundingCost rate amount weak buy ≤ w.available ∨
    fundingCost rate (reducedAmount w rate weak buy) weak buy ≤ w.available

/-- Whether the wallet covers an amount is decided by computing the cost. -/
instance : Decidable (Covers w rate amount weak buy) := inferInstanceAs (Decidable (_ ∨ _))

/-- A test of what the wallet covers ends at once. -/
theorem couldMatch_of_le (hr : 1 ≤ rate) (h : fundingCost rate amount weak buy ≤ w.available)
    (fuel : ℕ) :
    couldMatchProvidedBigOrdervalue w rate weak buy (fuel + 1) amount =
      some (decide (fundingCost rate amount weak buy ≠ 0)) := by
  simp only [couldMatchProvidedBigOrdervalue, couldMatchPass_eq hr, Option.bind_eq_bind,
    Option.bind_some, if_neg (not_lt.mpr h)]
  split_ifs with hzero <;> simp [hzero]

/-- A test of what the wallet does not cover is that of the reduced amount. -/
theorem couldMatch_of_lt (hr : 1 ≤ rate) (hw : 0 ≤ w.available)
    (h : w.available < fundingCost rate amount weak buy) (fuel : ℕ) :
    couldMatchProvidedBigOrdervalue w rate weak buy (fuel + 1) amount =
      couldMatchProvidedBigOrdervalue w rate weak buy fuel (reducedAmount w rate weak buy) := by
  have hne : fundingCost rate amount weak buy ≠ 0 := by omega
  simp only [couldMatchProvidedBigOrdervalue, couldMatchPass_eq hr, Option.bind_eq_bind,
    Option.bind_some, if_neg hne, if_pos h]

/-- The calls never end when the wallet does not cover the reduced amount either. -/
theorem couldMatch_of_not_covers (hr : 1 ≤ rate) (hw : 0 ≤ w.available)
    (h : ¬ Covers w rate amount weak buy) (fuel : ℕ) :
    couldMatchProvidedBigOrdervalue w rate weak buy fuel amount = none := by
  rw [Covers, not_or, not_le, not_le] at h
  have hreduced : ∀ fuel, couldMatchProvidedBigOrdervalue w rate weak buy fuel
      (reducedAmount w rate weak buy) = none := by
    intro fuel
    induction fuel with
    | zero => rfl
    | succ fuel ih => rw [couldMatch_of_lt hr hw h.2, ih]
  cases fuel with
  | zero => rfl
  | succ fuel => rw [couldMatch_of_lt hr hw h.1, hreduced]

/-- What the test says when it ends. -/
theorem exists_couldMatch (hr : 1 ≤ rate) (hw : 0 ≤ w.available)
    (h : Covers w rate amount weak buy) :
    ∃ answer, couldMatchProvidedBigOrdervalue w rate weak buy 2 amount = some answer := by
  by_cases hle : fundingCost rate amount weak buy ≤ w.available
  · exact ⟨_, couldMatch_of_le hr hle 1⟩
  · rw [couldMatch_of_lt hr hw (not_le.mp hle)]
    exact ⟨_, couldMatch_of_le hr (h.resolve_left hle) 0⟩

/-- The test ends, and says yes only if the amount, or what it is reduced to, has
a positive cost that the wallet covers. -/
def Funded (w : Wallet) (rate amount : ℤ) (weak buy : Bool) : Prop :=
  (∃ fuel answer, couldMatchProvidedBigOrdervalue w rate weak buy fuel amount = some answer) ∧
    ((∃ fuel, couldMatchProvidedBigOrdervalue w rate weak buy fuel amount = some true) →
      ∃ a, (a = amount ∨ a = reducedAmount w rate weak buy) ∧
        0 < fundingCost rate a weak buy ∧ fundingCost rate a weak buy ≤ w.available)

/-- What an amount costs is not negative. -/
theorem fundingCost_nonneg (hr : 1 ≤ rate) (ha : 0 ≤ amount) :
    0 ≤ fundingCost rate amount weak buy := by
  unfold fundingCost
  split_ifs
  · exact ha
  · exact quotient_nonneg (mulRate_nonneg ha (by omega)) (by omega)
  · exact quotient_nonneg (quotient_nonneg ha (by omega)) (by omega)

/-- The amount that the funds suffice for is not negative. -/
theorem reducedAmount_nonneg (hr : 1 ≤ rate) (hw : 0 ≤ w.available) :
    0 ≤ reducedAmount w rate weak buy :=
  newamount_nonneg (by omega) hw (newamount_eq hr)

/-- What the test is sure of when it says yes. -/
theorem cost_of_couldMatch (hr : 1 ≤ rate) (hw : 0 ≤ w.available) (ha : 0 ≤ amount) {fuel : ℕ}
    (h : couldMatchProvidedBigOrdervalue w rate weak buy fuel amount = some true) :
    ∃ a, (a = amount ∨ a = reducedAmount w rate weak buy) ∧
      0 < fundingCost rate a weak buy ∧ fundingCost rate a weak buy ≤ w.available := by
  have hpositive : ∀ {a fuel}, 0 ≤ a → fundingCost rate a weak buy ≤ w.available →
      couldMatchProvidedBigOrdervalue w rate weak buy fuel a = some true →
      0 < fundingCost rate a weak buy := by
    intro a fuel ha hle h
    cases fuel with
    | zero => cases h
    | succ fuel =>
      rw [couldMatch_of_le hr hle, Option.some.injEq, decide_eq_true_eq] at h
      have hnonneg : 0 ≤ fundingCost rate a weak buy := fundingCost_nonneg hr ha
      omega
  by_cases hle : fundingCost rate amount weak buy ≤ w.available
  · exact ⟨amount, Or.inl rfl, hpositive ha hle h, hle⟩
  · have hcovers : Covers w rate amount weak buy := by
      by_contra hnot
      rw [couldMatch_of_not_covers hr hw hnot] at h
      cases h
    have hreduced := hcovers.resolve_left hle
    cases fuel with
    | zero => cases h
    | succ fuel =>
      rw [couldMatch_of_lt hr hw (not_le.mp hle)] at h
      exact ⟨_, Or.inr rfl, hpositive (reducedAmount_nonneg hr hw) hreduced h, hreduced⟩

/-- **The funding test.** It ends, and is right when it says yes, exactly when
the wallet covers the amount or what the test reduces it to. -/
theorem funded_iff (w : Wallet) (rate amount : ℤ) (weak buy : Bool) (hw : 0 ≤ w.available)
    (hr : 1 ≤ rate) (ha : 0 ≤ amount) :
    Funded w rate amount weak buy ↔ Covers w rate amount weak buy := by
  constructor
  · rintro ⟨⟨fuel, answer, h⟩, -⟩
    by_contra hnot
    rw [couldMatch_of_not_covers hr hw hnot] at h
    cases h
  · intro h
    obtain ⟨answer, hanswer⟩ := exists_couldMatch hr hw h
    exact ⟨⟨2, answer, hanswer⟩, fun ⟨_, htrue⟩ => cost_of_couldMatch hr hw ha htrue⟩

/-- A sale of the weak currency is covered after the reduction where the wallet does not
gain by conversions. -/
theorem covers_weak_sale (hr : 1 ≤ rate) (hw : 0 ≤ w.available)
    (hgain : Gainless true rate w.available) : Covers w rate amount true false := by
  have hpos : 0 < rate := by omega
  have hback : toBack true rate (mulRate w.available rate) =
      some (quotient (mulRate w.available rate) rate) := toBack_of_pos hpos
  exact Or.inr
      (hgain _ hw le_rfl _ (toLay_of_pos hpos) _ (mulRate_nonneg hw hpos.le) le_rfl _ hback)

end Order

end

namespace Order

open scoped Doubles in
/-- At the rate 1 the amount is reduced to the wallet. -/
theorem funded_at_par : Funded ⟨1000⟩ 100000 2000 true true :=
  (funded_iff ⟨1000⟩ 100000 2000 true true (by decide) (by decide) (by decide)).mpr
    (by decide +kernel)

open scoped Doubles in
/-- At the rate 2 the whole wallet converts to more than the wallet. -/
theorem not_funded_at_two : ¬ Funded ⟨1000⟩ 200000 2000 true true := by
  rintro ⟨⟨fuel, answer, h⟩, -⟩
  rw [couldMatch_of_not_covers (by decide) (by decide) (by decide +kernel)] at h
  cases h

end Order

end AcCore.Tex.Cex
