import Mathlib.Data.List.Basic
import Mathlib.Data.List.Induction
import Mathlib.Tactic.Ring

/-!
# Iterated hash functions

A hash function of this kind cuts its input into blocks of the same length and folds a
compression function over them. When the input is extended by a padding that ends in its
length, two inputs of one digest lead to two calls of the compression function with one
result, among the calls that were made for these inputs.
-/

namespace AcCore.Lib

variable {σ α : Type*}

/-- So many blocks of `n` elements, from the front. -/
def blocks (n : ℕ) : ℕ → List α → List (List α)
  | 0, _ => []
  | k + 1, xs => xs.take n :: blocks n k (xs.drop n)

/-- The full blocks are taken in by the compression function, one after the other. -/
def absorb (f : σ → List α → σ) (n : ℕ) (s : σ) (xs : List α) : σ :=
  (blocks n (xs.length / n) xs).foldl f s

/-- The elements after the last full block. -/
def remainder (n : ℕ) (xs : List α) : List α := xs.drop (xs.length / n * n)

variable {f : σ → List α → σ} {n : ℕ} {s : σ}

/-- The number of blocks. -/
@[simp] theorem length_blocks (n k : ℕ) (xs : List α) : (blocks n k xs).length = k := by
  induction k generalizing xs with
  | zero => rfl
  | succ k ih => simp [blocks, ih]

/-- The remainder is shorter than a block. -/
theorem length_remainder (n : ℕ) (xs : List α) : (remainder n xs).length = xs.length % n := by
  have hsplit := Nat.div_add_mod' xs.length n
  rw [remainder, List.length_drop]
  omega

/-- Blocks of one side by side are blocks of both. -/
theorem blocks_append (k l : ℕ) {xs : List α} (hxs : xs.length = k * n) (ys : List α) :
    blocks n (k + l) (xs ++ ys) = blocks n k xs ++ blocks n l ys := by
  induction k generalizing xs with
  | zero =>
    rw [Nat.zero_mul, List.length_eq_zero_iff] at hxs
    simp [hxs, blocks]
  | succ k ih =>
    rw [Nat.succ_mul] at hxs
    have hdrop : (xs.drop n).length = k * n := by
      rw [List.length_drop]
      omega
    rw [Nat.add_right_comm, blocks, blocks, List.take_append_of_le_length (by omega),
      List.drop_append_of_le_length (by omega), ih hdrop, List.cons_append]

/-- Blocks side by side are what they were cut from. -/
theorem flatten_blocks {k : ℕ} {xs : List α} (hxs : xs.length ≤ k * n) :
    (blocks n k xs).flatten = xs := by
  induction k generalizing xs with
  | zero =>
    rw [Nat.zero_mul, Nat.le_zero, List.length_eq_zero_iff] at hxs
    simp [hxs, blocks]
  | succ k ih =>
    rw [Nat.succ_mul] at hxs
    have hdrop : (xs.drop n).length ≤ k * n := by
      rw [List.length_drop]
      omega
    rw [blocks, List.flatten_cons, ih hdrop, List.take_append_drop]

/-- Nothing is absorbed of nothing. -/
@[simp] theorem absorb_nil : absorb f n s [] = s := by simp [absorb, blocks]

/-- Less than a block is not absorbed. -/
theorem absorb_of_lt {xs : List α} (h : xs.length < n) : absorb f n s xs = s := by
  rw [absorb, Nat.div_eq_of_lt h]
  rfl

/-- Whole blocks are absorbed before what follows. -/
theorem absorb_append (hn : 0 < n) {k : ℕ} {xs : List α} (hxs : xs.length = k * n) (ys : List α) :
    absorb f n s (xs ++ ys) = absorb f n (absorb f n s xs) ys := by
  have hdiv : (xs ++ ys).length / n = k + ys.length / n := by
    rw [List.length_append, hxs, Nat.add_comm, Nat.add_mul_div_right _ _ hn, Nat.add_comm]
  rw [absorb, hdiv, blocks_append k _ hxs, List.foldl_append, absorb, absorb, hxs,
    Nat.mul_div_cancel k hn]

/-- One block is one call. -/
theorem absorb_block (hn : 0 < n) {b : List α} (hb : b.length = n) : absorb f n s b = f s b := by
  rw [absorb, hb, Nat.div_self hn, blocks, blocks, ← hb, List.take_length]
  rfl

/-- What follows is absorbed after the remainder. -/
theorem absorb_remainder (hn : 0 < n) (xs ys : List α) :
    absorb f n s (xs ++ ys) = absorb f n (absorb f n s xs) (remainder n xs ++ ys) := by
  have hlength : (xs.take (xs.length / n * n)).length = xs.length / n * n :=
    List.length_take_of_le (Nat.div_mul_le_self _ _)
  have hsplit : xs = xs.take (xs.length / n * n) ++ remainder n xs :=
    (List.take_append_drop _ _).symm
  have hwhole : absorb f n s xs = absorb f n s (xs.take (xs.length / n * n)) := by
    have hlast : absorb f n (absorb f n s (xs.take (xs.length / n * n))) (remainder n xs) =
        absorb f n s (xs.take (xs.length / n * n)) := by
      refine absorb_of_lt ?_
      rw [length_remainder]
      exact Nat.mod_lt _ hn
    rw [← hlast, ← absorb_append hn hlength, ← hsplit]
  rw [hwhole, ← absorb_append hn hlength, ← List.append_assoc, ← hsplit]

/-! ## Collisions -/

/-- The arguments of the calls of the compression function. -/
def calls (f : σ → List α → σ) : σ → List (List α) → List (σ × List α)
  | _, [] => []
  | s, b :: bs => (s, b) :: calls f (f s b) bs

/-- Two calls with different arguments and one result. -/
def Collide (f : σ → List α → σ) (c c' : σ × List α) : Prop := c ≠ c' ∧ f c.1 c.2 = f c'.1 c'.2

/-- The calls on two lists of blocks, one after the other. -/
theorem calls_append (s : σ) (bs cs : List (List α)) :
    calls f s (bs ++ cs) = calls f s bs ++ calls f (bs.foldl f s) cs := by
  induction bs generalizing s with
  | nil => rfl
  | cons b bs ih => rw [List.cons_append, calls, calls, ih, List.cons_append, List.foldl_cons]

/-- Sequences of blocks that end in different blocks, and give one state. -/
theorem exists_collide_of_last {bs bs' : List (List α)} {b b' : List α} (hne : b ≠ b')
    (h : (bs ++ [b]).foldl f s = (bs' ++ [b']).foldl f s) :
    ∃ c ∈ calls f s (bs ++ [b]), ∃ c' ∈ calls f s (bs' ++ [b']), Collide f c c' := by
  refine ⟨(bs.foldl f s, b), ?_, (bs'.foldl f s, b'), ?_, ?_, ?_⟩
  · rw [calls_append]
    exact List.mem_append_right _ (by simp [calls])
  · rw [calls_append]
    exact List.mem_append_right _ (by simp [calls])
  · exact fun heq => hne (congrArg Prod.snd heq)
  · simpa [List.foldl_append] using h

/-- Different sequences of so many blocks each, which give one state. -/
theorem exists_collide_of_length {bs bs' : List (List α)} (hlength : bs.length = bs'.length)
    (hne : bs ≠ bs') (h : bs.foldl f s = bs'.foldl f s) :
    ∃ c ∈ calls f s bs, ∃ c' ∈ calls f s bs', Collide f c c' := by
  induction bs using List.reverseRecOn generalizing bs' with
  | nil => exact absurd (List.length_eq_zero_iff.mp hlength.symm).symm hne
  | append_singleton bs b ih =>
    rcases List.eq_nil_or_concat' bs' with rfl | ⟨bs', b', rfl⟩
    · simp at hlength
    · by_cases hcall : (bs.foldl f s, b) = (bs'.foldl f s, b')
      · -- the last calls are the same, so the blocks before them differ
        obtain ⟨hstate, rfl⟩ := Prod.mk.inj hcall
        have hbefore : bs ≠ bs' := fun heq => hne (heq ▸ rfl)
        obtain ⟨c, hc, c', hc', hcollide⟩ := ih (by simpa using hlength) hbefore hstate
        refine ⟨c, ?_, c', ?_, hcollide⟩
        · rw [calls_append]
          exact List.mem_append_left _ hc
        · rw [calls_append]
          exact List.mem_append_left _ hc'
      · refine ⟨(bs.foldl f s, b), ?_, (bs'.foldl f s, b'), ?_, hcall, ?_⟩
        · rw [calls_append]
          exact List.mem_append_right _ (by simp [calls])
        · rw [calls_append]
          exact List.mem_append_right _ (by simp [calls])
        · simpa [List.foldl_append] using h

end AcCore.Lib
