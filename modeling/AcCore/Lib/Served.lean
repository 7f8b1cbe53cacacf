import Mathlib.Data.List.Nodup

/-!
# Service at the head of a list

A list of elements is served from its head: every touch is at the first element,
which stays first or is removed. An element is then touched only after all
that were in front of it have been removed.
-/

namespace AcCore.Lib

variable {α : Type*}

/-- The touches take the first list to the second; the flag of a touch says
whether the element was removed. -/
inductive Served : List α → List (α × Bool) → List α → Prop
  | nil (l : List α) : Served l [] l
  | keep {a : α} {l l' : List α} {touches : List (α × Bool)}
      (h : Served (a :: l) touches l') : Served (a :: l) ((a, false) :: touches) l'
  | remove {a : α} {l l' : List α} {touches : List (α × Bool)}
      (h : Served l touches l') : Served (a :: l) ((a, true) :: touches) l'

namespace Served

variable {l l' l'' : List α} {ts ts' : List (α × Bool)}

/-- What is served and then served further. -/
theorem trans (h : Served l ts l') (h' : Served l' ts' l'') : Served l (ts ++ ts') l'' := by
  induction h with
  | nil => exact h'
  | keep _ ih => exact .keep (ih h')
  | remove _ ih => exact .remove (ih h')

/-- Elements further down are not touched. -/
theorem append (h : Served l ts l') (m : List α) : Served (l ++ m) ts (l' ++ m) := by
  induction h with
  | nil => exact .nil _
  | keep _ ih => exact .keep ih
  | remove _ ih => exact .remove ih

/-- Only what was waiting is served. -/
theorem mem (h : Served l ts l') {t : α × Bool} (ht : t ∈ ts) : t.1 ∈ l := by
  induction h with
  | nil => cases ht
  | keep _ ih =>
    rcases List.mem_cons.mp ht with rfl | ht
    · exact List.mem_cons_self
    · exact ih ht
  | remove _ ih =>
    rcases List.mem_cons.mp ht with rfl | ht
    · exact List.mem_cons_self
    · exact List.mem_cons_of_mem _ (ih ht)

/-- What was removed is not left. -/
theorem notMem_of_removed (h : Served l ts l') (hl : l.Nodup) {a : α} (ha : (a, true) ∈ ts) :
    a ∉ l' := by
  have hsub : ∀ {l ts l'}, Served (α := α) l ts l' → l' ⊆ l := by
    intro l ts l' h
    induction h with
    | nil => exact List.Subset.refl _
    | keep _ ih => exact ih
    | remove _ ih => exact List.Subset.trans ih (List.subset_cons_self _ _)
  induction h with
  | nil => cases ha
  | keep _ ih =>
    rcases List.mem_cons.mp ha with heq | ha
    · cases heq
    · exact ih hl ha
  | remove h ih =>
    rw [List.nodup_cons] at hl
    rcases List.mem_cons.mp ha with heq | ha
    · cases heq
      exact fun hmem => hl.1 (hsub h hmem)
    · exact ih hl.2 ha

/-- **Service rule.** What is in front of an element was removed before the
element is touched. -/
theorem removed_before (h : Served l ts l') (hl : l.Nodup) {pre post : List (α × Bool)}
    {t : α × Bool} (hts : ts = pre ++ t :: post) {m n : List α} (hsplit : l = m ++ t.1 :: n)
    {b : α} (hb : b ∈ m) : (b, true) ∈ pre := by
  induction h generalizing pre m with
  | nil => simp at hts
  | @keep a l l' ts h ih =>
    cases pre with
    | nil =>
      -- the first touch is at the first element
      obtain ⟨rfl, -⟩ := List.cons_eq_cons.mp hts
      cases m with
      | nil => cases hb
      | cons c m =>
        rw [hsplit] at hl
        obtain ⟨rfl, -⟩ := List.cons_eq_cons.mp hsplit
        simp at hl
    | cons u pre =>
      obtain ⟨rfl, hrest⟩ := List.cons_eq_cons.mp hts
      exact List.mem_cons_of_mem _ (ih hl hrest hsplit hb)
  | @remove a l l' ts h ih =>
    cases pre with
    | nil =>
      obtain ⟨rfl, -⟩ := List.cons_eq_cons.mp hts
      cases m with
      | nil => cases hb
      | cons c m =>
        rw [hsplit] at hl
        obtain ⟨rfl, -⟩ := List.cons_eq_cons.mp hsplit
        simp at hl
    | cons u pre =>
      obtain ⟨rfl, hrest⟩ := List.cons_eq_cons.mp hts
      rw [List.nodup_cons] at hl
      cases m with
      | nil => cases hb
      | cons c m =>
        obtain ⟨rfl, htail⟩ := List.cons_eq_cons.mp hsplit
        rcases List.mem_cons.mp hb with rfl | hb
        · exact List.mem_cons_self
        · exact List.mem_cons_of_mem _ (ih hl.2 hrest htail hb)

end Served

end AcCore.Lib
