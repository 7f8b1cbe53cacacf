import AcCore.Gov.Crypto
import Mathlib.Algebra.Order.Field.Rat
import Mathlib.Algebra.BigOperators.Group.List.Basic
import Mathlib.Data.Fintype.Basic

/-!
# Policy votes and their averages

Every contribution carries the policy votes of its sender, an array of
numbers, and the delta that merges contributions averages them. Numbers that
the code holds as `double` are exact rationals here.
-/

namespace AcCore.Gov.Engine

open Lib

/-- How numbers are printed: `operator <<` for a `double`. What is relied on is
that the printed texts have no white space. -/
structure Format where
  double : ℚ → Text
  blankFree_double : ∀ v, BlankFree (double v)

/-- `policies_base`: one number for each parameter. -/
abbrev Policies (n : ℕ) := Fin n → ℚ

/-- There are two policies, so the numerals that index them need no bound. -/
scoped instance (priority := 2000) neZero_two : NeZero 2 := ⟨two_ne_zero⟩

/-- `policies_base::to_stream`. -/
def policiesWords (fmt : Format) {n : ℕ} (p : Policies n) : List Text :=
  List.ofFn fun i => fmt.double (p i)

/-- Printed policies have no blanks. -/
theorem blankFree_policiesWords (fmt : Format) {n : ℕ} (p : Policies n) :
    ∀ w ∈ policiesWords fmt p, BlankFree w := by
  intro w hw
  obtain ⟨i, rfl⟩ := List.mem_ofFn.mp hw
  exact fmt.blankFree_double _

/-- `average_merger::merge`. -/
def averageMerge (v1 v2 : ℚ) : ℚ := v1 + v2

/-- `average_merger::end_merge`. -/
def averageEndMerge (v : ℚ) (multiplicity : ℕ) : ℚ := v / multiplicity

/-- `policies_delta` with the average merger. -/
structure PoliciesDelta (n : ℕ) where
  policies : Policies n
  multiplicity : ℕ

namespace PoliciesDelta

variable {n : ℕ}

/-- The delta as it is created. -/
def create : PoliciesDelta n := ⟨fun _ => 0, 0⟩

/-- `policies_delta::merge`. -/
def merge (d : PoliciesDelta n) (other : Policies n) : PoliciesDelta n where
  policies i := averageMerge (d.policies i) (other i)
  multiplicity := d.multiplicity + 1

/-- `policies_delta::end_merge`. -/
def endMerge (d : PoliciesDelta n) : PoliciesDelta n :=
  { d with policies := fun i => averageEndMerge (d.policies i) d.multiplicity }

/-- Merging adds the votes up and counts them. -/
theorem foldl_merge (ps : List (Policies n)) (d : PoliciesDelta n) :
    ps.foldl merge d =
      ⟨fun i => d.policies i + (ps.map fun p => p i).sum, d.multiplicity + ps.length⟩ := by
  induction ps generalizing d with
  | nil => simp
  | cons p ps ih =>
    rw [List.foldl_cons, ih]
    simp only [merge, averageMerge, List.map_cons, List.sum_cons, List.length_cons,
      PoliciesDelta.mk.injEq]
    exact ⟨funext fun i => by ring, by ring⟩

/-- The averages do not depend on the order in which the votes are merged. -/
theorem foldl_merge_perm {ps ps' : List (Policies n)} (h : ps.Perm ps') (d : PoliciesDelta n) :
    ps.foldl merge d = ps'.foldl merge d := by
  rw [foldl_merge, foldl_merge, h.length_eq]
  congr 1
  funext i
  rw [(h.map fun p => p i).sum_eq]

end PoliciesDelta

end AcCore.Gov.Engine
