import Mathlib.Data.List.Basic

/-!
# A stream that arrives in chunks

What is sent over a connection arrives in pieces whose sizes the receiver does not
choose. A receiver asks for some number of elements and gets at least one of them
and at most what has arrived together. What it gets in all does not depend on the
pieces.
-/

namespace AcCore.Lib

/-- What is still to arrive, in the pieces in which it does. -/
structure Chunks (α : Type) where
  chunks : List (List α)
  nonempty : ∀ c ∈ chunks, c ≠ []

namespace Chunks

variable {α : Type}

/-- What is still to arrive. -/
def all (s : Chunks α) : List α := s.chunks.flatten

/-- The pieces after at most `n` elements of the first one are taken. -/
def rest (n : ℕ) : List (List α) → List (List α)
  | [] => []
  | c :: cs => if c.length ≤ n then cs else c.drop n :: cs

/-- No chunk that is left is empty. -/
theorem rest_nonempty {n : ℕ} {cs : List (List α)} (h : ∀ c ∈ cs, c ≠ []) :
    ∀ c ∈ rest n cs, c ≠ [] := by
  cases cs with
  | nil => exact h
  | cons c cs =>
    intro d hd
    rw [rest] at hd
    split_ifs at hd with hle
    · exact h d (List.mem_cons_of_mem c hd)
    · rcases List.mem_cons.mp hd with rfl | hd
      · rw [ne_eq, List.drop_eq_nil_iff]
        exact hle
      · exact h d (List.mem_cons_of_mem c hd)

/-- Takes at most `n` elements of the first piece; none when there is no piece. -/
def recv (n : ℕ) (s : Chunks α) : List α × Chunks α :=
  ((s.chunks.headD []).take n, ⟨rest n s.chunks, rest_nonempty s.nonempty⟩)

/-- What is taken comes first, and the rest after it. -/
theorem recv_append (n : ℕ) (s : Chunks α) : (s.recv n).1 ++ (s.recv n).2.all = s.all := by
  unfold recv all
  dsimp only
  cases s.chunks with
  | nil => simp [rest]
  | cons c cs =>
    rw [List.headD_cons, List.flatten_cons]
    rw [rest]
    split_ifs with hle
    · rw [List.take_of_length_le hle]
    · rw [List.flatten_cons, ← List.append_assoc, List.take_append_drop]

/-- No more is received than was asked for. -/
theorem length_recv_le (n : ℕ) (s : Chunks α) : (s.recv n).1.length ≤ n := by
  rw [recv, List.length_take]
  exact Nat.min_le_left _ _

/-- Nothing is left exactly when no chunk is. -/
theorem all_eq_nil_iff (s : Chunks α) : s.all = [] ↔ s.chunks = [] := by
  rw [all, List.flatten_eq_nil_iff]
  constructor
  · intro h
    exact List.eq_nil_iff_forall_not_mem.mpr fun c hc => s.nonempty c hc (h c hc)
  · intro h
    simp [h]

/-- Nothing is taken only when nothing is asked for, or nothing is left. -/
theorem recv_eq_nil_iff {n : ℕ} (hn : 0 < n) (s : Chunks α) :
    (s.recv n).1 = [] ↔ s.all = [] := by
  rw [all_eq_nil_iff, recv, List.take_eq_nil_iff]
  cases hs : s.chunks with
  | nil => simp
  | cons c cs =>
    have hc : c ≠ [] := s.nonempty c (by simp [hs])
    simp only [List.headD_cons, hc, or_false, reduceCtorEq, iff_false]
    omega

end Chunks

end AcCore.Lib
