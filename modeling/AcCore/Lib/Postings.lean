import Mathlib.Algebra.BigOperators.Group.Finset.Basic
import Mathlib.Algebra.BigOperators.Group.Finset.Piecewise
import Mathlib.Algebra.Order.BigOperators.Group.List
import Mathlib.Data.Int.ConditionallyCompleteOrder
import Mathlib.Data.Int.Interval
import Mathlib.Order.ConditionallyCompleteLattice.Basic
import Mathlib.Order.Interval.Set.OrdConnected

/-!
# Postings

A posting adds an amount to the balance of one key. This file is about lists of
postings that are booked one after the other with the arithmetic of a machine
word: what they add up to at each key and in total, and when no balance leaves
the range in which that arithmetic is exact.
-/

namespace AcCore.Lib

variable {κ : Type*} [DecidableEq κ]

/-- What a list of postings adds up to at a key. -/
def posted (ps : List (κ × ℤ)) (k : κ) : ℤ := (ps.map fun p => if p.1 = k then p.2 else 0).sum

/-- What a list of postings adds up to over all keys. -/
def postedTotal (ps : List (κ × ℤ)) : ℤ := (ps.map Prod.snd).sum

/-- Books one posting, with the arithmetic given by `wrap`. -/
def post (wrap : ℤ → ℤ) (v : κ → ℤ) (p : κ × ℤ) : κ → ℤ :=
  Function.update v p.1 (wrap (v p.1 + p.2))

/-- Without postings nothing is posted. -/
@[simp] theorem posted_nil (k : κ) : posted ([] : List (κ × ℤ)) k = 0 := rfl

/-- A posting adds to its own key. -/
@[simp] theorem posted_cons (p : κ × ℤ) (ps : List (κ × ℤ)) (k : κ) :
    posted (p :: ps) k = (if p.1 = k then p.2 else 0) + posted ps k := by
  simp [posted]

/-- What two lists post adds up. -/
theorem posted_append (ps qs : List (κ × ℤ)) (k : κ) :
    posted (ps ++ qs) k = posted ps k + posted qs k := by
  simp [posted]

omit [DecidableEq κ] in
/-- Without postings the total is nothing. -/
@[simp] theorem postedTotal_nil : postedTotal ([] : List (κ × ℤ)) = 0 := rfl

omit [DecidableEq κ] in
/-- A posting adds to the total. -/
@[simp] theorem postedTotal_cons (p : κ × ℤ) (ps : List (κ × ℤ)) :
    postedTotal (p :: ps) = p.2 + postedTotal ps := by
  simp [postedTotal]

omit [DecidableEq κ] in
/-- The totals of two lists add up. -/
theorem postedTotal_append (ps qs : List (κ × ℤ)) :
    postedTotal (ps ++ qs) = postedTotal ps + postedTotal qs := by
  simp [postedTotal]

/-- Postings that are not negative post nothing negative. -/
theorem posted_nonneg {ps : List (κ × ℤ)} (h : ∀ p ∈ ps, 0 ≤ p.2) (k : κ) : 0 ≤ posted ps k := by
  induction ps with
  | nil => simp
  | cons p ps ih =>
    have hfirst := h p List.mem_cons_self
    have hrest := ih fun q hq => h q (List.mem_cons_of_mem p hq)
    rw [posted_cons]
    split_ifs <;> omega

/-- Postings that are not positive post nothing positive. -/
theorem posted_nonpos {ps : List (κ × ℤ)} (h : ∀ p ∈ ps, p.2 ≤ 0) (k : κ) : posted ps k ≤ 0 := by
  induction ps with
  | nil => simp
  | cons p ps ih =>
    have hfirst := h p List.mem_cons_self
    have hrest := ih fun q hq => h q (List.mem_cons_of_mem p hq)
    rw [posted_cons]
    split_ifs <;> omega

/-- One credit is at most all credits to its key. -/
theorem le_posted {ps : List (κ × ℤ)} (h : ∀ p ∈ ps, 0 ≤ p.2) {p : κ × ℤ} (hp : p ∈ ps) :
    p.2 ≤ posted ps p.1 := by
  induction ps with
  | nil => cases hp
  | cons q ps ih =>
    have hrest : ∀ r ∈ ps, 0 ≤ r.2 := fun r hr => h r (List.mem_cons_of_mem q hr)
    rw [posted_cons]
    rcases List.mem_cons.mp hp with rfl | hp
    · have := posted_nonneg hrest p.1
      rw [if_pos rfl]
      omega
    · have := h q List.mem_cons_self
      have := ih hrest hp
      split_ifs <;> omega

omit [DecidableEq κ] in
/-- The total of postings that are not negative is not negative. -/
theorem postedTotal_nonneg {ps : List (κ × ℤ)} (h : ∀ p ∈ ps, 0 ≤ p.2) : 0 ≤ postedTotal ps := by
  apply List.sum_nonneg
  intro v hv
  obtain ⟨p, hp, rfl⟩ := List.mem_map.mp hv
  exact h p hp

/-- The credits to one key are at most all credits. -/
theorem posted_le_total {ps : List (κ × ℤ)} (h : ∀ p ∈ ps, 0 ≤ p.2) (k : κ) :
    posted ps k ≤ postedTotal ps := by
  induction ps with
  | nil => simp
  | cons p ps ih =>
    have hfirst := h p List.mem_cons_self
    have hrest := ih fun q hq => h q (List.mem_cons_of_mem p hq)
    rw [posted_cons, postedTotal_cons]
    split_ifs <;> omega

/-- A key that no posting names gets nothing. -/
theorem posted_eq_zero {ps : List (κ × ℤ)} {k : κ} (h : ∀ p ∈ ps, p.1 ≠ k) : posted ps k = 0 := by
  apply List.sum_eq_zero
  intro x hx
  obtain ⟨p, hp, rfl⟩ := List.mem_map.mp hx
  exact if_neg (h p hp)

/-- With one posting a key, the balance is the posting. -/
theorem posted_of_mem {ps : List (κ × ℤ)} (hps : (ps.map Prod.fst).Nodup) {p : κ × ℤ}
    (hp : p ∈ ps) : posted ps p.1 = p.2 := by
  induction ps with
  | nil => cases hp
  | cons q ps ih =>
    rw [List.map_cons, List.nodup_cons] at hps
    rw [posted_cons]
    rcases List.mem_cons.mp hp with rfl | hp
    · have hrest : posted ps p.1 = 0 := posted_eq_zero fun q hq hqp =>
        hps.1 (hqp ▸ List.mem_map_of_mem hq)
      rw [if_pos rfl, hrest, add_zero]
    · have hne : q.1 ≠ p.1 := fun hqp => hps.1 (hqp ▸ List.mem_map_of_mem hp)
      rw [if_neg hne, zero_add, ih hps.2 hp]

/-- Over a set of keys that has them all, the balances add up to the total. -/
theorem sum_posted {K : Finset κ} {ps : List (κ × ℤ)} (h : ∀ p ∈ ps, p.1 ∈ K) :
    ∑ k ∈ K, posted ps k = postedTotal ps := by
  induction ps with
  | nil => simp
  | cons p ps ih =>
    have hrest := ih fun q hq => h q (List.mem_cons_of_mem p hq)
    have hfirst : p.1 ∈ K := h p List.mem_cons_self
    simp only [posted_cons, postedTotal_cons, Finset.sum_add_distrib, hrest]
    rw [Finset.sum_ite_eq, if_pos hfirst]

section Range

variable {wrap : ℤ → ℤ} {S : Set ℤ}

/-- Booking is exact when no balance leaves the range on the way. -/
theorem foldl_post_of_prefix (hwrap : ∀ v ∈ S, wrap v = v) {ps : List (κ × ℤ)} {v : κ → ℤ}
    (h : ∀ qs, qs <+: ps → ∀ k, v k + posted qs k ∈ S) (k : κ) :
    ps.foldl (post wrap) v k = v k + posted ps k := by
  induction ps generalizing v with
  | nil => simp
  | cons p ps ih =>
    have hfirst : v p.1 + p.2 ∈ S := by
      have := h [p] (by simp) p.1
      simpa using this
    have hstep : post wrap v p = fun j => v j + if p.1 = j then p.2 else 0 := by
      funext j
      by_cases hj : j = p.1
      · subst hj
        simp [post, hwrap _ hfirst]
      · simp [post, hj, Ne.symm hj]
    rw [List.foldl_cons, hstep, ih, posted_cons, add_assoc]
    intro qs hqs j
    have := h (p :: qs) (List.cons_prefix_cons.mpr ⟨rfl, hqs⟩) j
    rwa [posted_cons, ← add_assoc] at this

/-- Credits raise a balance step by step from its first to its last value. -/
theorem foldl_post_of_nonneg [hS : S.OrdConnected] (hwrap : ∀ v ∈ S, wrap v = v)
    {ps : List (κ × ℤ)} (hps : ∀ p ∈ ps, 0 ≤ p.2) {v : κ → ℤ} (hv : ∀ k, v k ∈ S)
    (hend : ∀ k, v k + posted ps k ∈ S) (k : κ) :
    ps.foldl (post wrap) v k = v k + posted ps k := by
  refine foldl_post_of_prefix hwrap ?_ k
  rintro qs ⟨rs, rfl⟩ j
  have hdone := posted_nonneg (fun p hp => hps p (List.mem_append_left rs hp)) j
  have hleft := posted_nonneg (fun p hp => hps p (List.mem_append_right qs hp)) j
  have hlast := hend j
  rw [posted_append] at hlast
  exact hS.out (hv j) hlast ⟨by omega, by omega⟩

/-- Debits lower a balance step by step from its first to its last value. -/
theorem foldl_post_of_nonpos [hS : S.OrdConnected] (hwrap : ∀ v ∈ S, wrap v = v)
    {ps : List (κ × ℤ)} (hps : ∀ p ∈ ps, p.2 ≤ 0) {v : κ → ℤ} (hv : ∀ k, v k ∈ S)
    (hend : ∀ k, v k + posted ps k ∈ S) (k : κ) :
    ps.foldl (post wrap) v k = v k + posted ps k := by
  refine foldl_post_of_prefix hwrap ?_ k
  rintro qs ⟨rs, rfl⟩ j
  have hdone := posted_nonpos (fun p hp => hps p (List.mem_append_left rs hp)) j
  have hleft := posted_nonpos (fun p hp => hps p (List.mem_append_right qs hp)) j
  have hlast := hend j
  rw [posted_append] at hlast
  exact hS.out hlast (hv j) ⟨by omega, by omega⟩

end Range

end AcCore.Lib
