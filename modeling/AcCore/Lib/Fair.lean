import Mathlib.Data.List.Range
import Mathlib.Data.Set.Basic

/-!
# Loops that wait for their input

A loop takes one element of a stream after the other. It comes to its end on every
stream in which each element comes again and again, when in every state before the
end there is some element that makes progress, and no element undoes any.
-/

namespace AcCore.Lib

variable {σ α : Type*}

/-- A stream of these elements in which each of them comes again and again. -/
structure Fair (inputs : Set α) (f : ℕ → α) : Prop where
  mem : ∀ k, f k ∈ inputs
  again : ∀ a ∈ inputs, ∀ m, ∃ k, m ≤ k ∧ f k = a

/-- The first elements of a stream. -/
def firsts (f : ℕ → α) (m : ℕ) : List α := (List.range m).map f

/-- The state after the first elements of a stream. -/
def after (step : σ → α → σ) (t : σ) (f : ℕ → α) (m : ℕ) : σ := (firsts f m).foldl step t

/-- One more of the first values. -/
theorem firsts_succ (f : ℕ → α) (m : ℕ) : firsts f (m + 1) = firsts f m ++ [f m] := by
  rw [firsts, firsts, List.range_succ, List.map_append, List.map_singleton]

/-- The number of the first values. -/
@[simp] theorem length_firsts (f : ℕ → α) (m : ℕ) : (firsts f m).length = m := by
  rw [firsts, List.length_map, List.length_range]

/-- One more step. -/
theorem after_succ (step : σ → α → σ) (t : σ) (f : ℕ → α) (m : ℕ) :
    after step t f (m + 1) = step (after step t f m) (f m) := by
  rw [after, after, firsts_succ, List.foldl_append, List.foldl_cons, List.foldl_nil]

/-- Steps after steps. -/
theorem after_add (step : σ → α → σ) (t : σ) (f : ℕ → α) (m j : ℕ) :
    after step t f (m + j) = after step (after step t f m) (fun k => f (m + k)) j := by
  induction j with
  | zero => rfl
  | succ j ih => rw [← Nat.add_assoc, after_succ, ih, after_succ]

section

variable {step : σ → α → σ} {inputs : Set α} {inv : σ → Prop} {t : σ} {f : ℕ → α}

/-- What every element keeps holds after every beginning of the stream. -/
theorem after_invariant (hstep : ∀ u a, inv u → a ∈ inputs → inv (step u a))
    (hf : ∀ k, f k ∈ inputs) (ht : inv t) (m : ℕ) : inv (after step t f m) := by
  induction m with
  | zero => exact ht
  | succ m ih =>
    rw [after_succ]
    exact hstep _ _ ih (hf m)

/-- The state stays as it is until there is progress. -/
theorem after_eq_or_lt {measure : σ → ℕ} (hstep : ∀ u a, inv u → a ∈ inputs → inv (step u a))
    (hdown : ∀ u a, inv u → a ∈ inputs → step u a = u ∨ measure (step u a) < measure u)
    (hf : ∀ k, f k ∈ inputs) (ht : inv t) {k j : ℕ} (hkj : k ≤ j) :
    after step t f j = after step t f k ∨
      measure (after step t f j) < measure (after step t f k) := by
  induction j, hkj using Nat.le_induction with
  | base => exact Or.inl rfl
  | succ j hkj ih =>
    have hinv := after_invariant hstep hf ht j
    rw [after_succ]
    rcases hdown _ _ hinv (hf j) with hsame | hlt
    · rwa [hsame]
    · rcases ih with heq | hlt'
      · exact Or.inr (heq ▸ hlt)
      · exact Or.inr (hlt.trans hlt')

/-- **A loop that waits for its input ends on every fair stream.** -/
theorem Fair.exists_done (measure : σ → ℕ) (done : σ → Prop) (hfair : Fair inputs f)
    (hstep : ∀ u a, inv u → a ∈ inputs → inv (step u a))
    (hdown : ∀ u a, inv u → a ∈ inputs → step u a = u ∨ measure (step u a) < measure u)
    (hlive : ∀ u, inv u → ¬ done u → ∃ a ∈ inputs, measure (step u a) < measure u)
    (ht : inv t) : ∃ m, done (after step t f m) := by
  suffices h : ∀ n k, measure (after step t f k) = n → ∃ m, done (after step t f m) from
    h _ 0 rfl
  intro n
  induction n using Nat.strong_induction_on with
  | h n ih =>
    intro k hk
    by_cases hdone : done (after step t f k)
    · exact ⟨k, hdone⟩
    · obtain ⟨a, ha, hlt⟩ := hlive _ (after_invariant hstep hfair.mem ht k) hdone
      obtain ⟨j, hkj, rfl⟩ := hfair.again a ha k
      have hnext : measure (after step t f (j + 1)) < n := by
        rw [after_succ]
        rcases after_eq_or_lt hstep hdown hfair.mem ht hkj with hsame | hless
        · rwa [hsame, ← hk]
        · rcases hdown _ _ (after_invariant hstep hfair.mem ht j) (hfair.mem j) with heq | hlt'
          · rwa [heq, ← hk]
          · exact hk ▸ hlt'.trans hless
      exact ih _ hnext (j + 1) rfl

end

/-- A stream that goes round and round. -/
theorem fair_mod {n : ℕ} (hn : 0 < n) : Fair {r | r < n} fun k => k % n where
  mem k := Nat.mod_lt k hn
  again a ha m := by
    refine ⟨a + n * m, ?_, ?_⟩
    · have := Nat.le_mul_of_pos_left m hn
      omega
    · rw [Nat.add_mul_mod_self_left]
      exact Nat.mod_eq_of_lt ha

end AcCore.Lib
