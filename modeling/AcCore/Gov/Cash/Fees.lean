import AcCore.Gov.Cash.Overdraft
import AcCore.Gov.Cash.TxRoundTrip

/-!
# Fees

The fees of a transaction are what its inputs take less what its outputs give.
`tx::check` adds both up in words of 64 bits and looks at the sign of the single
amounts only, so the sums may wrap. This file determines which transactions have
the fees that the check computes.
-/

namespace AcCore.Gov.Cash

open Lib Engine

/-- What the inputs of a transaction take together. -/
def Tx.sumInputs (t : Tx) : ℤ := (t.inputs.map fun i => i.amount.toInt).sum

/-- What the outputs of a transaction give together. -/
def Tx.sumOutputs (t : Tx) : ℤ := (t.outputs.map fun o => o.amount.toInt).sum

/-- What the inputs take more than the outputs give. -/
def Tx.surplus (t : Tx) : ℤ := t.sumInputs - t.sumOutputs

/-! ## The check in closed form -/

/-- An arithmetic that may be left to the end of a sum. -/
structure Wraps (wrap : ℤ → ℤ) : Prop where
  zero : wrap 0 = 0
  add : ∀ a b, wrap (wrap a + b) = wrap (a + b)
  sub : ∀ a b, wrap (wrap a - wrap b) = wrap (a - b)

/-- No wrapping is a wrapping. -/
theorem wraps_id : Wraps id := ⟨rfl, fun _ _ => rfl, fun _ _ => rfl⟩

/-- The arithmetic of `int64_t` is a wrapping. -/
theorem wraps_wrapInt64 : Wraps wrapInt64 := by
  refine ⟨rfl, fun a b => ?_, fun a b => ?_⟩
  · exact Int.bmod_add_bmod
  · rw [wrapInt64, wrapInt64, Int.bmod_sub_bmod, wrapInt64, Int.sub_bmod_bmod]
    rfl

variable {wrap : ℤ → ℤ}

/-- The sum of positive amounts is the wrapped sum. -/
theorem Wraps.sumAmounts (hwrap : Wraps wrap) {amounts : List Int64}
    (hpos : ∀ a ∈ amounts, 0 < a.toInt) :
    sumAmounts wrap amounts = some (wrap (amounts.map Int64.toInt).sum) := by
  have hfold : ∀ start : ℤ, amounts.foldlM
      (fun sum a => if a.toInt ≤ 0 then none else some (wrap (sum + a.toInt))) (wrap start) =
        some (wrap (start + (amounts.map Int64.toInt).sum)) := by
    induction amounts with
    | nil => simp
    | cons a amounts ih =>
      intro start
      have ha := hpos a List.mem_cons_self
      have hrest := ih (fun b hb => hpos b (List.mem_cons_of_mem a hb)) (start + a.toInt)
      simp only [List.foldlM_cons, if_neg ha.not_ge, Option.bind_eq_bind, Option.bind_some,
        hwrap.add, hrest, List.map_cons, List.sum_cons, add_assoc]
  have hsum := hfold 0
  rwa [hwrap.zero, zero_add] at hsum

/-- With positive amounts the check is the surplus, wrapped. -/
theorem Wraps.check (hwrap : Wraps wrap) {t : Tx} (ht : t.AmountsPositive) :
    t.check wrap = wrap t.surplus := by
  have hinputs : ∀ a ∈ t.inputs.map Input.amount, 0 < a.toInt := by
    intro a ha
    obtain ⟨i, hi, rfl⟩ := List.mem_map.mp ha
    exact ht.1 i hi
  have houtputs : ∀ a ∈ t.outputs.map Output.amount, 0 < a.toInt := by
    intro a ha
    obtain ⟨o, ho, rfl⟩ := List.mem_map.mp ha
    exact ht.2 o ho
  rw [Tx.check, hwrap.sumAmounts hinputs, hwrap.sumAmounts houtputs, List.map_map, List.map_map]
  exact hwrap.sub _ _

/-! ## Fees that are exact -/

/-- When the check gives fees, the amounts are positive and the fees are the
surplus, and what passes `basic_check` gives no more than it takes. -/
def Tx.FeesExact (t : Tx) : Prop :=
  (0 ≤ t.check wrapInt64 → t.AmountsPositive ∧ t.surplus = t.check wrapInt64) ∧
    ∀ a : App, a.basicCheck wrapInt64 t = true → t.sumOutputs ≤ t.sumInputs

/-- A transaction that passes the basic check leaves no negative fee. -/
theorem check_of_basicCheck {a : App} {t : Tx} (h : a.basicCheck wrap t = true) :
    0 ≤ t.check wrap := by
  unfold App.basicCheck at h
  dsimp only at h
  split_ifs at h with hfee
  have := of_decide_eq_true h
  omega

/-- The wrapped surplus is negative exactly when the upper half of the word is
reached, and otherwise the lower 64 bits. -/
theorem wrapInt64_cases (v : ℤ) :
    (v % 2 ^ 64 < 2 ^ 63 ∧ wrapInt64 v = v % 2 ^ 64) ∨ 2 ^ 63 ≤ v % 2 ^ 64 ∧ wrapInt64 v < 0 := by
  unfold wrapInt64 Int.bmod
  have := Int.emod_lt_of_pos v (by norm_num : (0 : ℤ) < 2 ^ 64)
  norm_num
  split_ifs <;> omega

/-- **When fees are exact.** The fees that the check computes in 64 bits are the
surplus, and no coins are created, exactly when an amount is not positive, the
surplus has 63 bits, or its lower 64 bits are a negative number. -/
theorem fees_exact_iff (t : Tx) :
    t.FeesExact ↔ ¬ t.AmountsPositive ∨ (0 ≤ t.surplus ∧ t.surplus < 2 ^ 63) ∨
      2 ^ 63 ≤ t.surplus % 2 ^ 64 := by
  by_cases ht : t.AmountsPositive
  · have hcheck := wraps_wrapInt64.check ht
    rcases wrapInt64_cases t.surplus with ⟨hlow, hvalue⟩ | ⟨hhigh, hneg⟩
    · have hnonneg : 0 ≤ t.check wrapInt64 := by omega
      constructor
      · intro h
        have hexact := (h.1 hnonneg).2
        omega
      · intro h
        have hexact : t.surplus = t.check wrapInt64 := by
          obtain hnot | hrange | hhigh := h
          · exact absurd ht hnot
          · rw [hcheck, hvalue]
            omega
          · omega
        refine ⟨fun _ => ⟨ht, hexact⟩, fun a _ => ?_⟩
        rw [Tx.surplus] at hexact
        omega
    · have hneg : ¬ 0 ≤ t.check wrapInt64 := by omega
      exact ⟨fun _ => Or.inr (Or.inr hhigh),
        fun _ => ⟨fun h => absurd h hneg, fun a ha => absurd (check_of_basicCheck ha) hneg⟩⟩
  · have hneg : ¬ 0 ≤ t.check wrapInt64 := fun h => ht (Tx.amountsPositive_of_check h)
    exact ⟨fun _ => Or.inl ht,
      fun _ => ⟨fun h => absurd h hneg, fun a ha => absurd (check_of_basicCheck ha) hneg⟩⟩

/-- A transaction that takes 2 and gives 2 ^ 64 + 1. -/
def inflation : Tx where
  inputs := [⟨Ripemd160.set 1, 2, []⟩]
  outputs := [⟨Ripemd160.set 2, Int64.maxValue, Ripemd160.set 1⟩,
    ⟨Ripemd160.set 3, Int64.maxValue, Ripemd160.set 1⟩, ⟨Ripemd160.set 4, 3, Ripemd160.set 1⟩]
  ts := 1550000000000000000

/-- It is read from the network, and a node with the default policies takes it
for one that pays a fee of 1. -/
theorem inflation_not_exact :
    Tx.fromB58 inflation.toB58 = .ok inflation ∧ inflation.check wrapInt64 = 1 ∧
      App.create.basicCheck wrapInt64 inflation = true ∧ inflation.surplus = 1 - 2 ^ 64 ∧
      ¬ inflation.FeesExact := by
  have hread : Tx.fromB58 inflation.toB58 = .ok inflation := by
    rw [Tx.fromB58_toB58]
    refine Tx.Encodable.read_write ⟨by decide, by decide, fun i hi => Or.inl ?_⟩
    rw [List.mem_singleton.mp hi]
  have hcheck : inflation.check wrapInt64 = 1 := by decide
  have hsurplus : inflation.surplus = 1 - 2 ^ 64 := by decide
  refine ⟨hread, hcheck, by decide +kernel, hsurplus, fun h => ?_⟩
  have hexact := (h.1 (by rw [hcheck]; norm_num)).2
  rw [hcheck, hsurplus] at hexact
  norm_num at hexact

end AcCore.Gov.Cash
