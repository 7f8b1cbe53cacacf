import Mathlib.Data.Set.Basic
import Mathlib.Order.Basic

/-!
# Strict total orders on a set

What an ordered container needs of the comparison of its keys. A linear order gives it
on every set. The comparison that finds one component below does not look at the others,
and gives it on chains only.
-/

namespace AcCore.Lib

variable {α ι β : Type*}

/-- The comparison orders the elements of the set, strictly and totally. -/
structure StrictTotalOn (r : α → α → Prop) (s : Set α) : Prop where
  irrefl : ∀ a ∈ s, ¬ r a a
  asymm : ∀ a ∈ s, ∀ b ∈ s, r a b → ¬ r b a
  trans : ∀ a ∈ s, ∀ b ∈ s, ∀ c ∈ s, r a b → r b c → r a c
  exactlyOne : ∀ a ∈ s, ∀ b ∈ s, a ≠ b → (r a b ∧ ¬ r b a) ∨ (r b a ∧ ¬ r a b)

namespace StrictTotalOn

/-- The strict part of a linear order. -/
theorem lt [LinearOrder α] (s : Set α) : StrictTotalOn (· < ·) s where
  irrefl a _ := lt_irrefl a
  asymm _ _ _ _ h := h.asymm
  trans _ _ _ _ _ _ hab hbc := hab.trans hbc
  exactlyOne _ _ _ _ hne := by
    rcases lt_or_gt_of_ne hne with h | h
    · exact Or.inl ⟨h, h.asymm⟩
    · exact Or.inr ⟨h, h.asymm⟩

/-- A comparison that agrees with another on the set. -/
theorem congr {r r' : α → α → Prop} {s : Set α} (h : ∀ a ∈ s, ∀ b ∈ s, r a b ↔ r' a b)
    (hr : StrictTotalOn r s) : StrictTotalOn r' s where
  irrefl a ha := by
    rw [← h a ha a ha]
    exact hr.irrefl a ha
  asymm a ha b hb := by
    rw [← h a ha b hb, ← h b hb a ha]
    exact hr.asymm a ha b hb
  trans a ha b hb c hc := by
    rw [← h a ha b hb, ← h b hb c hc, ← h a ha c hc]
    exact hr.trans a ha b hb c hc
  exactlyOne a ha b hb hne := by
    rw [← h a ha b hb, ← h b hb a ha]
    exact hr.exactlyOne a ha b hb hne

variable [LinearOrder β] {f : α → ι → β} {s : Set α}

/-- Some component is below exactly when not all are at least as great. -/
theorem exists_lt_iff {a b : α} : (∃ i, f a i < f b i) ↔ ¬ f b ≤ f a := by
  simp [Pi.le_def]

/-- The comparison that finds one component below is a strict total order exactly where
of any two elements one is nowhere above the other. -/
theorem exists_lt (hf : Function.Injective f) :
    StrictTotalOn (fun a b => ∃ i, f a i < f b i) s ↔
      ∀ a ∈ s, ∀ b ∈ s, f a ≤ f b ∨ f b ≤ f a := by
  constructor
  · intro h a ha b hb
    by_contra hneither
    obtain ⟨hab, hba⟩ := not_or.mp hneither
    exact h.asymm b hb a ha (exists_lt_iff.mpr hab) (exists_lt_iff.mpr hba)
  · intro hchain
    -- on a chain the comparison is that of the product order
    have hlt : ∀ a ∈ s, ∀ b ∈ s, (∃ i, f a i < f b i) ↔ f a < f b := by
      intro a ha b hb
      rw [exists_lt_iff, lt_iff_le_not_ge]
      constructor
      · exact fun h => ⟨(hchain a ha b hb).resolve_right h, h⟩
      · exact fun h => h.2
    refine congr (fun a ha b hb => (hlt a ha b hb).symm) ⟨?_, ?_, ?_, ?_⟩
    · exact fun a _ => lt_irrefl _
    · exact fun a _ b _ h => h.asymm
    · exact fun a _ b _ c _ hab hbc => hab.trans hbc
    · intro a ha b hb hne
      rcases hchain a ha b hb with h | h
      · have hlt := lt_of_le_of_ne h (hf.ne hne)
        exact Or.inl ⟨hlt, hlt.asymm⟩
      · have hlt := lt_of_le_of_ne h (hf.ne hne.symm)
        exact Or.inr ⟨hlt, hlt.asymm⟩

end StrictTotalOn

end AcCore.Lib
