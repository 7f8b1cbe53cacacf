import AcCore.Tex.Cex.Reports

/-!
# The rates next to a value

A market tells which rates it takes, and the greatest of them below a value and the
least above it are looked for in their list. One search steps back in front of the
list and gives nothing beyond its end, and the other takes the value for one in
hundred-thousandths and converts it a second time.
-/

namespace AcCore.Tex.Cex

open Lib

/-- What `decode_dbl` reads, before it is held in a number. -/
theorem decodeDbl_eq_extractDouble [Rounding] {v : ℤ} (hv : 0 ≤ v) :
    decodeDbl v = Rounding.round (extractDouble (decode v) 0) := by
  rw [decodeDbl_of_nonneg hv, extractDouble_decode hv]
  norm_num [one, precision]

/-- `spots`: the rates that a market takes, in their order. The least of them is at
least the increment of the ruler. -/
structure Spots where
  rates : List ℤ
  sorted : rates.Pairwise (· ≤ ·)
  pos : ∀ r ∈ rates, 0 < r

/-- `std::lower_bound`: the position of the first rate that is not below. -/
def lowerBound (rates : List ℤ) (v : ℤ) : ℕ := rates.findIdx fun r => decide (v ≤ r)

/-- `std::upper_bound`: the position of the first rate above. -/
def upperBound (rates : List ℤ) (v : ℤ) : ℕ := rates.findIdx fun r => decide (v < r)

namespace Spots

variable [Rounding]

/-- `spots::lower_rate`: a position of the list, or its end; `none` when the code
steps in front of the list, or the value has no encoding. -/
def lowerRate (s : Spots) (ref : ℚ) : Option ℕ :=
  (encodeDbl ref).bind fun v =>
    let i := lowerBound s.rates v
    match s.rates[i]? with
    | none => some i
    | some r => if r ≥ v then (if i = 0 then none else some (i - 1)) else some i

/-- `spots::upper_rate`. -/
def upperRate (s : Spots) (ref : ℚ) : Option ℕ :=
  (encodeDbl ref).map fun v => upperBound s.rates v

/-- `spots::lower`. -/
def lower (s : Spots) (ref : ℚ) : Option ℚ :=
  (s.lowerRate ref).map fun i => s.rates[i]?.elim 0 decodeDbl

/-- `spots::upper`: the encoding is passed on as a `double`. -/
def upper (s : Spots) (ref : ℚ) : Option ℚ :=
  (encodeDbl ref).bind fun v =>
    (s.upperRate (Rounding.round v)).map fun i => s.rates[i]?.elim 0 decodeDbl

/-- `q` is the value of the greatest of the rates strictly below `ref`, or 0 when there is
none. -/
def IsLower (s : Spots) (ref q : ℚ) : Prop :=
  (∃ r ∈ s.rates, q = decodeDbl r ∧ decodeDbl r < ref ∧
    ∀ r' ∈ s.rates, decodeDbl r' < ref → decodeDbl r' ≤ decodeDbl r) ∨
    q = 0 ∧ ∀ r ∈ s.rates, ref ≤ decodeDbl r

/-- `q` is the value of the least of the rates strictly above `ref`, or 0 when there is
none. -/
def IsUpper (s : Spots) (ref q : ℚ) : Prop :=
  (∃ r ∈ s.rates, q = decodeDbl r ∧ ref < decodeDbl r ∧
    ∀ r' ∈ s.rates, ref < decodeDbl r' → decodeDbl r ≤ decodeDbl r') ∨
    q = 0 ∧ ∀ r ∈ s.rates, decodeDbl r ≤ ref

/-- Both neighbours of a value are found. -/
structure FindsNeighbours (s : Spots) (ref : ℚ) : Prop where
  lower : ∃ q, s.lower ref = some q ∧ s.IsLower ref q
  upper : ∃ q, s.upper ref = some q ∧ s.IsUpper ref q

/-- The values of some of the rates. -/
def values (s : Spots) (p : ℤ → Prop) : Set ℚ := {x | ∃ r ∈ s.rates, p r ∧ decodeDbl r = x}

end Spots

/-! ## Searching a sorted list -/

section Search

variable {p : ℤ → Bool} {rates : List ℤ}

/-- A search in a sorted list divides it: what comes before the position is not
what is looked for, and what comes after it is, if that is so upwards of a rate. -/
theorem findIdx_spec (hup : ∀ a b, a ≤ b → p a = true → p b = true)
    (hsorted : rates.Pairwise (· ≤ ·)) {j : ℕ} {r : ℤ} (hr : rates[j]? = some r) :
    p r = true ↔ rates.findIdx p ≤ j := by
  obtain ⟨hj, rfl⟩ := List.getElem?_eq_some_iff.mp hr
  constructor
  · intro hp
    by_contra hlt
    exact absurd hp (by simpa using List.not_of_lt_findIdx (not_le.mp hlt))
  · intro hle
    have hlt : rates.findIdx p < rates.length := by omega
    have hfound : p rates[rates.findIdx p] = true := List.findIdx_getElem
    refine hup _ _ ?_ hfound
    rcases Nat.eq_or_lt_of_le hle with heq | hbefore
    · exact le_of_eq (getElem_congr_idx heq)
    · exact List.pairwise_iff_getElem.mp hsorted _ _ hlt hj hbefore

/-- At the position is the least of what is looked for. -/
theorem findIdx_least (hup : ∀ a b, a ≤ b → p a = true → p b = true)
    (hsorted : rates.Pairwise (· ≤ ·)) {r : ℤ} (hr : rates[rates.findIdx p]? = some r) :
    p r = true ∧ ∀ r' ∈ rates, p r' = true → r ≤ r' := by
  refine ⟨(findIdx_spec hup hsorted hr).mpr le_rfl, ?_⟩
  intro r' hmem hp
  obtain ⟨j, hj⟩ := List.mem_iff_getElem?.mp hmem
  have hle := (findIdx_spec hup hsorted hj).mp hp
  obtain ⟨hilt, rfl⟩ := List.getElem?_eq_some_iff.mp hr
  obtain ⟨hjlt, rfl⟩ := List.getElem?_eq_some_iff.mp hj
  rcases Nat.eq_or_lt_of_le hle with heq | hbefore
  · exact le_of_eq (getElem_congr_idx heq)
  · exact List.pairwise_iff_getElem.mp hsorted _ _ hilt hjlt hbefore

/-- In front of the position is the greatest of the others. -/
theorem findIdx_greatest (hup : ∀ a b, a ≤ b → p a = true → p b = true)
    (hsorted : rates.Pairwise (· ≤ ·)) (hpos : rates.findIdx p ≠ 0) {r : ℤ}
    (hr : rates[rates.findIdx p - 1]? = some r) :
    ¬ p r = true ∧ ∀ r' ∈ rates, ¬ p r' = true → r' ≤ r := by
  refine ⟨fun hp => ?_, ?_⟩
  · have := (findIdx_spec hup hsorted hr).mp hp
    omega
  · intro r' hmem hp
    obtain ⟨j, hj⟩ := List.mem_iff_getElem?.mp hmem
    have hlt : ¬ rates.findIdx p ≤ j := fun hle => hp ((findIdx_spec hup hsorted hj).mpr hle)
    obtain ⟨hilt, rfl⟩ := List.getElem?_eq_some_iff.mp hr
    obtain ⟨hjlt, rfl⟩ := List.getElem?_eq_some_iff.mp hj
    rcases Nat.eq_or_lt_of_le (by omega : j ≤ rates.findIdx p - 1) with heq | hbefore
    · exact le_of_eq (getElem_congr_idx heq)
    · exact List.pairwise_iff_getElem.mp hsorted _ _ hjlt hilt hbefore

end Search

namespace Spots

section

variable {s : Spots} {v : ℤ}

/-- The position of the first rate that is not below. -/
theorem lowerBound_le_iff {j : ℕ} {r : ℤ} (hr : s.rates[j]? = some r) :
    v ≤ r ↔ lowerBound s.rates v ≤ j := by
  have h := findIdx_spec (p := fun r => decide (v ≤ r))
    (by simpa using fun a b hab ha => ha.trans hab) s.sorted hr
  rwa [decide_eq_true_eq] at h

/-- At the lower bound is the least rate that is not below. -/
theorem lowerBound_least {r : ℤ} (hr : s.rates[lowerBound s.rates v]? = some r) :
    v ≤ r ∧ ∀ r' ∈ s.rates, v ≤ r' → r ≤ r' := by
  have h := findIdx_least (p := fun r => decide (v ≤ r))
    (by simpa using fun a b hab ha => ha.trans hab) s.sorted hr
  simpa only [decide_eq_true_eq] using h

/-- In front of the lower bound is the greatest rate that is below. -/
theorem lowerBound_greatest (hpos : lowerBound s.rates v ≠ 0) {r : ℤ}
    (hr : s.rates[lowerBound s.rates v - 1]? = some r) :
    r < v ∧ ∀ r' ∈ s.rates, r' < v → r' ≤ r := by
  have h := findIdx_greatest (p := fun r => decide (v ≤ r))
    (by simpa using fun a b hab ha => ha.trans hab) s.sorted hpos hr
  simpa only [decide_eq_true_eq, not_le] using h

/-- At the upper bound is the least rate above. -/
theorem upperBound_least {r : ℤ} (hr : s.rates[upperBound s.rates v]? = some r) :
    v < r ∧ ∀ r' ∈ s.rates, v < r' → r ≤ r' := by
  have h := findIdx_least (p := fun r => decide (v < r))
    (by simpa using fun a b hab ha => lt_of_lt_of_le ha hab) s.sorted hr
  simpa only [decide_eq_true_eq] using h

end

section

variable [Rounding] {s : Spots} {ref : ℚ} {v w : ℤ}

/-- The rates on the ruler decode to positive values. -/
theorem values_pos {r : ℤ} (hr : r ∈ s.rates) : 0 < decodeDbl r := decodeDbl_pos (s.pos r hr)

/-- The values keep the order of the rates. -/
theorem values_mono {r r' : ℤ} (hr : r ∈ s.rates) (hle : r ≤ r') : decodeDbl r ≤ decodeDbl r' :=
  decodeDbl_mono (s.pos r hr).le hle

/-! ## Below -/

/-- What `lower` finds for a value with an encoding. -/
theorem lower_eq (hv : encodeDbl ref = some v) :
    s.lower ref =
      if lowerBound s.rates v = s.rates.length then some 0
      else if lowerBound s.rates v = 0 then none
      else s.rates[lowerBound s.rates v - 1]?.map decodeDbl := by
  have hle : lowerBound s.rates v ≤ s.rates.length := List.findIdx_le_length
  rw [lower, lowerRate, hv, Option.bind_some]
  dsimp only
  by_cases hend : lowerBound s.rates v = s.rates.length
  · rw [if_pos hend, hend, List.getElem?_eq_none le_rfl]
    simp
  · rw [if_neg hend]
    have hlt : lowerBound s.rates v < s.rates.length := by omega
    have hfirst := List.getElem?_eq_getElem hlt
    have hge : s.rates[lowerBound s.rates v] ≥ v := (lowerBound_least hfirst).1
    rw [hfirst]
    dsimp only
    rw [if_pos hge]
    by_cases hzero : lowerBound s.rates v = 0
    · rw [if_pos hzero, if_pos hzero, Option.map_none]
    · have hbefore :=
        List.getElem?_eq_getElem (by omega : lowerBound s.rates v - 1 < s.rates.length)
      rw [if_neg hzero, if_neg hzero, Option.map_some, hbefore, Option.elim_some, Option.map_some]

/-- Nothing is given as the rate below exactly when no value is below. -/
theorem isLower_zero_iff : s.IsLower ref 0 ↔ ∀ r ∈ s.rates, ref ≤ decodeDbl r := by
  constructor
  · rintro (⟨r, hr, hzero, -⟩ | ⟨-, hnone⟩)
    · exact absurd hzero (values_pos hr).ne
    · exact hnone
  · exact fun hnone => Or.inr ⟨rfl, hnone⟩

/-- The greatest rate below the encoding is the rate below, if the rates below the
encoding have the values that are below. -/
theorem isLower_rate_iff {r₀ : ℤ} (hmem : r₀ ∈ s.rates) (hbelow : r₀ < v)
    (hgreatest : ∀ r ∈ s.rates, r < v → r ≤ r₀) :
    s.IsLower ref (decodeDbl r₀) ↔ s.values (· < v) = s.values (decodeDbl · < ref) := by
  constructor
  · rintro (⟨r, -, heq, hlt, hmax⟩ | ⟨hzero, -⟩)
    · rw [← heq] at hlt hmax
      ext x
      constructor
      · rintro ⟨r', hr', hunder, rfl⟩
        exact ⟨r', hr', (values_mono hr' (hgreatest r' hr' hunder)).trans_lt hlt, rfl⟩
      · rintro ⟨r', hr', hunder, rfl⟩
        by_cases hcode : r' < v
        · exact ⟨r', hr', hcode, rfl⟩
        -- a greater rate of the same value
        · exact ⟨r₀, hmem, hbelow, le_antisymm (values_mono hmem (by omega)) (hmax r' hr' hunder)⟩
    · exact absurd hzero (values_pos hmem).ne'
  · intro hvalues
    have hin : ∀ x, x ∈ s.values (· < v) ↔ x ∈ s.values (decodeDbl · < ref) := fun x => by
      rw [hvalues]
    obtain ⟨r, -, hlt, heq⟩ := (hin _).mp ⟨r₀, hmem, hbelow, rfl⟩
    refine Or.inl ⟨r₀, hmem, rfl, heq ▸ hlt, fun r' hr' hunder => ?_⟩
    obtain ⟨r₁, hr₁, hcode, hsame⟩ := (hin _).mpr ⟨r', hr', hunder, rfl⟩
    exact hsame ▸ values_mono hr₁ (hgreatest r₁ hr₁ hcode)

/-- When the rate below is found. -/
theorem isLower_iff (hv : encodeDbl ref = some v) :
    (∃ q, s.lower ref = some q ∧ s.IsLower ref q) ↔
      (∀ r ∈ s.rates, r < v) ∧ (∀ r ∈ s.rates, ref ≤ decodeDbl r) ∨
        (∃ r ∈ s.rates, r < v) ∧ (∃ r ∈ s.rates, v ≤ r) ∧
          s.values (· < v) = s.values (decodeDbl · < ref) := by
  have hle : lowerBound s.rates v ≤ s.rates.length := List.findIdx_le_length
  rw [lower_eq hv]
  by_cases hend : lowerBound s.rates v = s.rates.length
  · -- all rates are below, and nothing is given
    have hbelow : ∀ r ∈ s.rates, r < v := by
      simpa using List.findIdx_eq_length.mp hend
    rw [if_pos hend]
    simp only [Option.some.injEq, exists_eq_left', isLower_zero_iff]
    constructor
    · exact fun hnone => Or.inl ⟨hbelow, hnone⟩
    · rintro (⟨-, hnone⟩ | ⟨-, ⟨r, hr, hle⟩, -⟩)
      · exact hnone
      · exact absurd hle (not_le.mpr (hbelow r hr))
  · have hlt : lowerBound s.rates v < s.rates.length := by omega
    have hfirst := List.getElem?_eq_getElem hlt
    have hge := (lowerBound_least hfirst).1
    have hnot : ¬∀ r ∈ s.rates, r < v := fun hall =>
      absurd (hall _ (List.getElem_mem hlt)) (not_lt.mpr hge)
    rw [if_neg hend]
    by_cases hzero : lowerBound s.rates v = 0
    · -- no rate is below, and the code steps in front of the list
      rw [if_pos hzero]
      refine iff_of_false (by simp) ?_
      rintro (⟨hall, -⟩ | ⟨⟨r, hr, hbelow⟩, -⟩)
      · exact hnot hall
      · obtain ⟨j, hj⟩ := List.mem_iff_getElem?.mp hr
        have := lowerBound_le_iff (v := v) hj
        omega
    · rw [if_neg hzero]
      have hbefore :=
        List.getElem?_eq_getElem (by omega : lowerBound s.rates v - 1 < s.rates.length)
      obtain ⟨hbelow, hgreatest⟩ := lowerBound_greatest hzero hbefore
      have hmem : s.rates[lowerBound s.rates v - 1] ∈ s.rates := List.getElem_mem _
      rw [hbefore, Option.map_some]
      simp only [Option.some.injEq, exists_eq_left', isLower_rate_iff hmem hbelow hgreatest]
      constructor
      · exact fun hvalues => Or.inr ⟨⟨_, hmem, hbelow⟩, ⟨_, List.getElem_mem hlt, hge⟩, hvalues⟩
      · exact fun hcases => (hcases.resolve_left fun h => hnot h.1).2.2

/-! ## Above -/

/-- What `upper` finds for a value whose encoding has an encoding. -/
theorem upper_eq (hv : encodeDbl ref = some v) (hw : encodeDbl (Rounding.round v) = some w) :
    s.upper ref = some (s.rates[upperBound s.rates w]?.elim 0 decodeDbl) := by
  rw [upper, hv, Option.bind_some, upperRate, hw, Option.map_some, Option.map_some]

/-- Nothing is given as the rate above exactly when no value is above. -/
theorem isUpper_zero_iff : s.IsUpper ref 0 ↔ ∀ r ∈ s.rates, decodeDbl r ≤ ref := by
  constructor
  · rintro (⟨r, hr, hzero, -⟩ | ⟨-, hnone⟩)
    · exact absurd hzero (values_pos hr).ne
    · exact hnone
  · exact fun hnone => Or.inr ⟨rfl, hnone⟩

/-- The least rate above a number is the rate above, if the rates above that number have
the values that are above. -/
theorem isUpper_rate_iff {r₀ : ℤ} (hmem : r₀ ∈ s.rates)
    (hleast : w < r₀ ∧ ∀ r ∈ s.rates, w < r → r₀ ≤ r) :
    s.IsUpper ref (decodeDbl r₀) ↔ s.values (w < ·) = s.values (ref < decodeDbl ·) := by
  constructor
  · rintro (⟨r, -, heq, hlt, hmin⟩ | ⟨hzero, -⟩)
    · rw [← heq] at hlt hmin
      ext x
      constructor
      · rintro ⟨r', hr', habove, rfl⟩
        exact ⟨r', hr', hlt.trans_le (values_mono hmem (hleast.2 r' hr' habove)), rfl⟩
      · rintro ⟨r', hr', habove, rfl⟩
        by_cases hcode : w < r'
        · exact ⟨r', hr', hcode, rfl⟩
        · exact ⟨r₀, hmem, hleast.1, le_antisymm (hmin r' hr' habove)
            (values_mono hr' (by omega))⟩
    · exact absurd hzero (values_pos hmem).ne'
  · intro hvalues
    have hin : ∀ x, x ∈ s.values (w < ·) ↔ x ∈ s.values (ref < decodeDbl ·) := fun x => by
      rw [hvalues]
    obtain ⟨r, -, hlt, heq⟩ := (hin _).mp ⟨r₀, hmem, hleast.1, rfl⟩
    refine Or.inl ⟨r₀, hmem, rfl, heq ▸ hlt, fun r' hr' habove => ?_⟩
    obtain ⟨r₁, hr₁, hcode, hsame⟩ := (hin _).mpr ⟨r', hr', habove, rfl⟩
    exact hsame ▸ values_mono hmem (hleast.2 r₁ hr₁ hcode)

/-- When the rate above is found. -/
theorem isUpper_iff (hv : encodeDbl ref = some v) (hw : encodeDbl (Rounding.round v) = some w) :
    (∃ q, s.upper ref = some q ∧ s.IsUpper ref q) ↔
      s.values (w < ·) = s.values (ref < decodeDbl ·) := by
  rw [upper_eq hv hw]
  simp only [Option.some.injEq, exists_eq_left']
  cases hr : s.rates[upperBound s.rates w]? with
  | none =>
    have hend : upperBound s.rates w = s.rates.length :=
      le_antisymm List.findIdx_le_length (List.getElem?_eq_none_iff.mp hr)
    have hnone : ∀ r ∈ s.rates, r ≤ w := by
      simpa using List.findIdx_eq_length.mp hend
    have hempty : s.values (w < ·) = ∅ := by
      refine Set.eq_empty_of_forall_notMem ?_
      rintro x ⟨r, hr, habove, -⟩
      exact absurd habove (not_lt.mpr (hnone r hr))
    rw [Option.elim_none, isUpper_zero_iff, hempty]
    constructor
    · intro hall
      refine (Set.eq_empty_of_forall_notMem ?_).symm
      rintro x ⟨r, hr, habove, -⟩
      exact absurd habove (not_lt.mpr (hall r hr))
    · intro hvalues r hr
      by_contra habove
      have hmem : decodeDbl r ∈ s.values (ref < decodeDbl ·) := ⟨r, hr, not_le.mp habove, rfl⟩
      rw [← hvalues] at hmem
      exact hmem
  | some r₀ => exact isUpper_rate_iff (List.mem_of_getElem? hr) (upperBound_least hr)

/-- **When the neighbours of a value are found.** The value `ref` is to have an encoding
`v`, and its encoding another one `w`. The one below is found where there are rates below
`v` and rates that are not, and the former have the values below `ref`; without rates that
are not below `v`, if no value is below `ref`. The one above is found when the rates above
`w` have the values above `ref`. -/
theorem findsNeighbours_iff (s : Spots) (ref : ℚ) :
    s.FindsNeighbours ref ↔ ∃ v w, encodeDbl ref = some v ∧
      encodeDbl (Rounding.round v) = some w ∧
      ((∀ r ∈ s.rates, r < v) ∧ (∀ r ∈ s.rates, ref ≤ decodeDbl r) ∨
        (∃ r ∈ s.rates, r < v) ∧ (∃ r ∈ s.rates, v ≤ r) ∧
          s.values (· < v) = s.values (decodeDbl · < ref)) ∧
      s.values (w < ·) = s.values (ref < decodeDbl ·) := by
  constructor
  · rintro ⟨hlower, q, hq, hupper⟩
    have hsome := hq
    rw [upper] at hsome
    obtain ⟨v, hv, hrate⟩ := Option.bind_eq_some_iff.mp hsome
    obtain ⟨i, hi, -⟩ := Option.map_eq_some_iff.mp hrate
    obtain ⟨w, hw, -⟩ := Option.map_eq_some_iff.mp hi
    exact ⟨v, w, hv, hw, (isLower_iff hv).mp hlower, (isUpper_iff hv hw).mp ⟨q, hq, hupper⟩⟩
  · rintro ⟨v, w, hv, hw, hbelow, habove⟩
    exact ⟨(isLower_iff hv).mpr hbelow, (isUpper_iff hv hw).mpr habove⟩

end

/-- The rate 1 alone. -/
def justOne : Spots := ⟨[100000], List.pairwise_singleton _ _, by simp⟩

open scoped Doubles in
/-- Below 2 there is the rate 1, and above a half too, but neither is found. In
front of 1 the code leaves the list. -/
theorem justOne_not_findsNeighbours :
    justOne.lower 2 = some 0 ∧ justOne.upper (1 / 2) = some 0 ∧ justOne.lower 1 = none ∧
      ¬ justOne.FindsNeighbours 2 := by
  have hlower : justOne.lower 2 = some 0 := by decide +kernel
  refine ⟨hlower, by decide +kernel, by decide +kernel, fun h => ?_⟩
  obtain ⟨q, hq, hfound⟩ := h.lower
  obtain rfl := Option.some.inj (hlower.symm.trans hq)
  have hnone := isLower_zero_iff.mp hfound 100000 (List.mem_singleton_self _)
  have hbelow : decodeDbl 100000 < 2 := by decide +kernel
  exact absurd hnone (not_le.mpr hbelow)

/-- Three rates in a row. -/
def inARow : Spots := ⟨[28998, 28999, 29000], by simp, by simp⟩

open scoped Doubles in
/-- The `double` of a rate is encoded to the rate before it, and this one is passed over. -/
example : encodeDbl (decodeDbl 29000) = some 28999 ∧
    inARow.lower (decodeDbl 29000) = some (decodeDbl 28998) := by decide +kernel

end Spots

end AcCore.Tex.Cex
