import AcCore.Tex.Cex.Conversions

/-!
# The ruler

The rates of a market are the multiples of an increment between two bounds. The
bounds are rounded down and put in order, one loop lists the rates, and one function
rounds a value to a rate.
-/

namespace AcCore.Tex.Cex

namespace RulerDef

/-- `snap`. -/
def snap (d : RulerDef) (v : ℤ) : ℤ :=
  let v := v - v.tmod d.increment
  let v := if v < d.min then d.min else v
  if v > d.max then d.max else v

/-- The loop of `generate_rates`; `none` when the fuel does not last, or the rate after
the last is not one of 64 bits. -/
def ratesFrom (d : RulerDef) : ℕ → ℤ → Finset ℤ → Option (Finset ℤ)
  | 0, _, _ => none
  | fuel + 1, r, ans =>
    if r ≤ d.max then
      if InRange (r + d.increment) then d.ratesFrom fuel (r + d.increment) (insert r ans) else none
    else some ans

/-- `generate_rates`. -/
def generateRates (d : RulerDef) (fuel : ℕ) : Option (Finset ℤ) := d.ratesFrom fuel d.min ∅

/-- A multiple of the increment between the bounds. -/
def IsRate (d : RulerDef) (r : ℤ) : Prop := d.min ≤ r ∧ r ≤ d.max ∧ d.increment ∣ r

/-- The bounds of a ruler after an update: multiples of the increment, none of them
below it, in their order. -/
structure Ok (d : RulerDef) : Prop where
  pos : 0 < d.increment
  min_dvd : d.increment ∣ d.min
  max_dvd : d.increment ∣ d.max
  increment_le : d.increment ≤ d.min
  min_le : d.min ≤ d.max

variable {d : RulerDef} {fuel : ℕ} {min max increment v u r : ℤ} {ans rates : Finset ℤ}

/-! ## Rounding -/

/-- A value is rounded down to the greatest multiple up to it. -/
theorem le_sub_tmod_iff (hinc : 0 < increment) (hv : 0 ≤ v) (hr : increment ∣ r) :
    r ≤ v - v.tmod increment ↔ r ≤ v := by
  have hnonneg := Int.emod_nonneg v hinc.ne'
  have hlt := Int.emod_lt_of_pos v hinc
  rw [Int.tmod_eq_emod_of_nonneg hv]
  constructor
  · intro h
    omega
  · intro h
    by_contra hgt
    obtain ⟨a, rfl⟩ := hr
    obtain ⟨b, hb⟩ : increment ∣ v - v % increment := Int.dvd_self_sub_emod
    -- a multiple above the one that is rounded to is at least an increment above it
    have hab : b < a := by
      rw [hb, not_le] at hgt
      exact lt_of_mul_lt_mul_left hgt hinc.le
    have hnext : increment * (b + 1) ≤ increment * a := Int.mul_le_mul_of_nonneg_left hab hinc.le
    rw [mul_add, mul_one] at hnext
    omega

/-- Taking off the remainder leaves a multiple. -/
theorem dvd_sub_tmod (hv : 0 ≤ v) : increment ∣ v - v.tmod increment := by
  rw [Int.tmod_eq_emod_of_nonneg hv]
  exact Int.dvd_self_sub_emod

/-- An update with positive values gives a well-formed ruler. -/
theorem Ok.update (hmin : 0 ≤ min) (hmax : 0 ≤ max) (hinc : 0 < increment) :
    (RulerDef.update min max increment).Ok := by
  have hmindvd : increment ∣ min - min.tmod increment := dvd_sub_tmod hmin
  have hmaxdvd : increment ∣ max - max.tmod increment := dvd_sub_tmod hmax
  unfold RulerDef.update
  dsimp only
  split_ifs with hsmall hbelow hbelow
  · exact ⟨hinc, dvd_rfl, dvd_rfl, le_rfl, le_rfl⟩
  · exact ⟨hinc, dvd_rfl, hmaxdvd, le_rfl, not_lt.mp hbelow⟩
  · exact ⟨hinc, hmindvd, hmindvd, not_lt.mp hsmall, le_rfl⟩
  · exact ⟨hinc, hmindvd, hmaxdvd, not_lt.mp hsmall, not_lt.mp hbelow⟩

namespace Ok

variable (hd : d.Ok)

include hd

/-- The least rate is a rate. -/
theorem isRate_min : d.IsRate d.min := ⟨le_rfl, hd.min_le, hd.min_dvd⟩

/-- No rate is below the increment. -/
theorem increment_le_of_isRate (hr : d.IsRate r) : d.increment ≤ r := hd.increment_le.trans hr.1

/-- Snapping gives a rate. -/
theorem isRate_snap (hv : 0 ≤ v) : d.IsRate (d.snap v) := by
  have hdvd : d.increment ∣ v - v.tmod d.increment := dvd_sub_tmod hv
  have hle := hd.min_le
  unfold snap
  dsimp only
  split_ifs with hbelow habove habove
  · omega
  · exact hd.isRate_min
  · exact ⟨hle, le_rfl, hd.max_dvd⟩
  · exact ⟨not_lt.mp hbelow, not_lt.mp habove, hdvd⟩

/-- The rates up to what a value is rounded to are those up to the value, and the least
rate. -/
theorem le_snap_iff (hv : 0 ≤ v) (hr : d.IsRate r) : r ≤ d.snap v ↔ r ≤ v ∨ r ≤ d.min := by
  have hround := le_sub_tmod_iff hd.pos hv hr.2.2
  have hmax := hr.2.1
  have hle := hd.min_le
  unfold snap
  dsimp only
  split_ifs with hbelow habove habove <;> omega

/-- Snapping keeps the order. -/
theorem snap_mono (hv : 0 ≤ v) (hu : 0 ≤ u) (h : v ≤ u) : d.snap v ≤ d.snap u := by
  have hrate := hd.isRate_snap hv
  rw [hd.le_snap_iff hu hrate]
  rcases (hd.le_snap_iff hv hrate).mp le_rfl with hle | hleast
  · exact Or.inl (hle.trans h)
  · exact Or.inr hleast

/-- A rate is rounded to itself. -/
theorem snap_of_isRate (hr : d.IsRate r) : d.snap r = r := by
  have hnonneg : 0 ≤ r := (hd.pos.trans_le (hd.increment_le_of_isRate hr)).le
  apply le_antisymm
  · rcases (hd.le_snap_iff hnonneg (hd.isRate_snap hnonneg)).mp le_rfl with hle | hleast
    · exact hle
    · exact hleast.trans hr.1
  · exact (hd.le_snap_iff hnonneg hr).mpr (Or.inl le_rfl)

/-- The rates that the queues of a front are made for. -/
theorem lists_iff : d.Lists r ↔ d.IsRate r := by
  unfold Lists IsRate
  rw [← Int.dvd_iff_emod_eq_zero, dvd_sub_left hd.min_dvd]

end Ok

/-! ## The loop -/

/-- The loop adds the rates from where it is. -/
theorem mem_of_ratesFrom (hinc : 0 < d.increment) (h : d.ratesFrom fuel r ans = some rates) :
    v ∈ rates ↔ v ∈ ans ∨ r ≤ v ∧ v ≤ d.max ∧ d.increment ∣ v - r := by
  induction fuel generalizing r ans with
  | zero => cases h
  | succ fuel ih =>
    unfold ratesFrom at h
    split_ifs at h with hle hrange
    · have hdvd : d.increment ∣ v - (r + d.increment) ↔ d.increment ∣ v - r := by
        rw [← sub_sub, dvd_sub_left dvd_rfl]
      rw [ih h, Finset.mem_insert, hdvd]
      constructor
      · rintro ((rfl | hmem) | ⟨hfrom, hto, hmultiple⟩)
        · exact Or.inr ⟨le_rfl, hle, by simp⟩
        · exact Or.inl hmem
        · exact Or.inr ⟨by omega, hto, hmultiple⟩
      · rintro (hmem | ⟨hfrom, hto, hmultiple⟩)
        · exact Or.inl (Or.inr hmem)
        · rcases hfrom.eq_or_lt with rfl | hlt
          · exact Or.inl (Or.inl rfl)
          · have hstep := Int.le_of_dvd (sub_pos.mpr hlt) hmultiple
            exact Or.inr ⟨by omega, hto, hmultiple⟩
    · obtain rfl := Option.some.inj h
      constructor
      · exact Or.inl
      · rintro (hmem | ⟨hfrom, hto, -⟩)
        · exact hmem
        · omega

/-- The loop ends when the step after the last rate is in the range. -/
theorem exists_ratesFrom (hinc : 0 < d.increment) (hrange : InRange (d.max + d.increment))
    (hr : 0 ≤ r) (hfuel : (d.max + 1 - r).toNat < fuel) :
    ∃ rates, d.ratesFrom fuel r ans = some rates := by
  induction fuel generalizing r ans with
  | zero => omega
  | succ fuel ih =>
    unfold ratesFrom
    split_ifs with hle hnext
    · exact ih (by omega) (by omega)
    · refine absurd ⟨?_, ?_⟩ hnext
      · omega
      · have := hrange.2
        omega
    · exact ⟨ans, rfl⟩

namespace Ok

variable (hd : d.Ok)

include hd

/-- The set that the loop leaves. -/
theorem mem_generateRates (h : d.generateRates fuel = some rates) : r ∈ rates ↔ d.IsRate r := by
  rw [mem_of_ratesFrom hd.pos h, dvd_sub_left hd.min_dvd]
  simp [IsRate]

/-- The rates are generated where the greatest fits and the fuel suffices. -/
theorem exists_generateRates (hrange : InRange (d.max + d.increment))
    (hfuel : (d.max + 1 - d.min).toNat < fuel) : ∃ rates, d.generateRates fuel = some rates :=
  exists_ratesFrom hd.pos hrange (hd.pos.le.trans hd.increment_le) hfuel

end Ok

/-- What the loop lists is what the fronts take and what values are rounded to. -/
structure Consistent (d : RulerDef) : Prop where
  generates : ∃ rates bound, (∀ fuel, bound ≤ fuel → d.generateRates fuel = some rates) ∧
    ∀ r, r ∈ rates ↔ d.min ≤ r ∧ r ≤ d.max ∧ d.increment ∣ r
  lists : ∀ r, d.Lists r ↔ d.IsRate r
  increment_le : ∀ r, d.IsRate r → d.increment ≤ r
  snap_mem : ∀ v, 0 ≤ v → d.IsRate (d.snap v)
  snap_idem : ∀ v, 0 ≤ v → d.snap (d.snap v) = d.snap v
  snap_mono : ∀ v u, 0 ≤ v → v ≤ u → d.snap v ≤ d.snap u
  snap_fixed : ∀ v, d.IsRate v → d.snap v = v

/-- **The ruler.** After an update the loop lists the multiples of the increment between
the bounds, and `snap` rounds to them, if the step after the upper bound is in the range. -/
theorem update_consistent (hmin : 0 ≤ min) (hmax : 0 ≤ max) (hinc : 0 < increment)
    (hrange : InRange ((RulerDef.update min max increment).max + increment)) :
    (RulerDef.update min max increment).Consistent := by
  have hd := Ok.update hmin hmax hinc
  set d := RulerDef.update min max increment
  obtain ⟨rates, hrates⟩ := hd.exists_generateRates hrange (Nat.lt_succ_self _)
  refine ⟨⟨rates, (d.max + 1 - d.min).toNat + 1, fun fuel hfuel => ?_, fun r => ?_⟩,
    fun r => hd.lists_iff, fun r hr => hd.increment_le_of_isRate hr,
    fun v hv => hd.isRate_snap hv, fun v hv => ?_,
    fun v u hv h => hd.snap_mono hv (hv.trans h) h, fun v hv => hd.snap_of_isRate hv⟩
  · obtain ⟨rates', hrates'⟩ := hd.exists_generateRates hrange hfuel
    rw [hrates', Option.some.injEq]
    ext r
    rw [hd.mem_generateRates hrates', hd.mem_generateRates hrates]
  · exact hd.mem_generateRates hrates
  · exact hd.snap_of_isRate (hd.isRate_snap hv)

/-- Bounds that are no multiples of five are rounded down to ten and thirty. -/
theorem update_consistent_fives :
    RulerDef.update 12 33 5 = ⟨10, 30, 5⟩ ∧ (RulerDef.update 12 33 5).Consistent :=
  ⟨by decide, update_consistent (by decide) (by decide) (by decide) (by decide)⟩

/-- With an increment of half the range the least rate is the increment, and twice the
increment is computed, however small the bounds are. -/
theorem not_consistent_halfRange :
    ¬ ∀ min max increment : ℤ, 0 ≤ min → 0 ≤ max → 0 < increment → InRange (max + increment) →
      (RulerDef.update min max increment).Consistent := by
  intro hclaim
  obtain ⟨⟨rates, bound, hrates, -⟩, -⟩ :=
    hclaim 0 0 (2 ^ 62) (by decide) (by decide) (by decide) (by decide)
  have hundefined : ∀ fuel, (RulerDef.update 0 0 (2 ^ 62)).generateRates fuel = none := by
    intro fuel
    cases fuel with
    | zero => rfl
    | succ fuel =>
      have hle : (RulerDef.update 0 0 (2 ^ 62)).min ≤ (RulerDef.update 0 0 (2 ^ 62)).max := by
        decide
      have hover : ¬ InRange ((RulerDef.update 0 0 (2 ^ 62)).min +
          (RulerDef.update 0 0 (2 ^ 62)).increment) := by
        decide
      rw [generateRates, ratesFrom, if_pos hle, if_neg hover]
  cases (hundefined bound).symm.trans (hrates bound le_rfl)

end RulerDef

end AcCore.Tex.Cex
