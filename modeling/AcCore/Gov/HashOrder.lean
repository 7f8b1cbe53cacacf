import AcCore.Gov.Crypto
import AcCore.Lib.StrictOrder
import Mathlib.Data.Fin.VecNotation

/-!
# The order of hashes

Ordered containers compare hashes word by word. One of the two comparisons stops at the
first word that differs, and the other goes on when a word is above.
-/

namespace AcCore.Gov

open Lib

/-- `sha256::value_type`, an array of 32 bytes, as the words that `operator <` reads. -/
@[ext] structure Sha256Value where
  w0 : UInt64
  w1 : UInt64
  w2 : UInt64
  w3 : UInt64
  deriving DecidableEq, Repr

namespace Sha256Value

/-- The words as numbers, from the first to the last. -/
def words (v : Sha256Value) : Fin 4 → ℕ :=
  ![v.w0.toNat, v.w1.toNat, v.w2.toNat, v.w3.toNat]

/-- `value_type::operator <`. -/
def lt (a b : Sha256Value) : Bool :=
  if a.w0 < b.w0 then true
  else if a.w1 < b.w1 then true
  else if a.w2 < b.w2 then true
  else if a.w3 < b.w3 then true
  else false

/-- Different digests have different words. -/
theorem words_injective : Function.Injective words := by
  intro a b h
  ext1
  · exact UInt64.toNat_inj.mp (congrFun h 0)
  · exact UInt64.toNat_inj.mp (congrFun h 1)
  · exact UInt64.toNat_inj.mp (congrFun h 2)
  · exact UInt64.toNat_inj.mp (congrFun h 3)

/-- One word below is enough. -/
theorem lt_iff (a b : Sha256Value) : a.lt b = true ↔ ∃ i, a.words i < b.words i := by
  have hwords : (∃ i, a.words i < b.words i) ↔
      a.w0 < b.w0 ∨ a.w1 < b.w1 ∨ a.w2 < b.w2 ∨ a.w3 < b.w3 := by
    simp [Fin.exists_fin_succ, words, UInt64.lt_iff_toNat_lt]
  rw [hwords, lt]
  split_ifs with h0 h1 h2 h3 <;> simp [*]

end Sha256Value

/-- Both comparisons order the hashes of two containers, strictly and totally. -/
structure HashesOrdered (r : Set Ripemd160) (s : Set Sha256Value) : Prop where
  ripemd160 : StrictTotalOn (fun a b => a.lt b = true) r
  sha256 : StrictTotalOn (fun a b => a.lt b = true) s

/-- **The order of hashes.** The comparisons order the hashes of two containers exactly when
of any two of 256 bits one is in no word above the other. -/
theorem hashesOrdered_iff (r : Set Ripemd160) (s : Set Sha256Value) :
    HashesOrdered r s ↔
      ∀ a ∈ s, ∀ b ∈ s, (∀ i, a.words i ≤ b.words i) ∨ ∀ i, b.words i ≤ a.words i := by
  have hsha : StrictTotalOn (fun a b : Sha256Value => a.lt b = true) s ↔
      StrictTotalOn (fun a b : Sha256Value => ∃ i, a.words i < b.words i) s := by
    simp only [Sha256Value.lt_iff]
  have hripemd : StrictTotalOn (fun a b : Ripemd160 => a.lt b = true) r :=
    (StrictTotalOn.lt r).congr fun a _ b _ => (Ripemd160.lt_eq_true_iff a b).symm
  constructor
  · rintro ⟨-, h⟩
    exact (StrictTotalOn.exists_lt Sha256Value.words_injective).mp (hsha.mp h)
  · intro h
    exact ⟨hripemd, hsha.mpr ((StrictTotalOn.exists_lt Sha256Value.words_injective).mpr h)⟩

/-- Two hashes, one with a bit in the first word and one with a bit in the second, are below
each other. -/
theorem not_hashesOrdered_univ : ¬ HashesOrdered Set.univ Set.univ := by
  intro h
  have hasymm := h.sha256.asymm ⟨0, 1, 0, 0⟩ trivial ⟨1, 0, 0, 0⟩ trivial (by decide)
  exact hasymm (by decide)

end AcCore.Gov
