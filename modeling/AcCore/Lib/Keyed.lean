import Mathlib.Algebra.BigOperators.Group.List.Basic
import Mathlib.Data.List.Nodup
import Mathlib.Tactic.Abel

/-!
# Lists with keys

A list whose elements have different keys, one of which can be found by its key
and replaced by another of the same key.
-/

namespace AcCore.Lib.Keyed

variable {κ α : Type*} [DecidableEq κ] (key : α → κ)

/-- The element of a key. -/
def get (l : List α) (k : κ) : Option α := l.find? fun a => key a = k

/-- Replaces the element of the same key. -/
def put (l : List α) (a : α) : List α := l.map fun b => if key b = key a then a else b

variable {key}

/-- What is found is in the list. -/
theorem mem_of_get {l : List α} {k : κ} {a : α} (h : get key l k = some a) : a ∈ l :=
  List.mem_of_find?_eq_some h

/-- What is found has the key that was asked for. -/
theorem key_of_get {l : List α} {k : κ} {a : α} (h : get key l k = some a) : key a = k := by
  simpa using List.find?_some h

/-- An element is found by its key. -/
theorem get_of_mem {l : List α} (hl : (l.map key).Nodup) {a : α} (ha : a ∈ l) :
    get key l (key a) = some a := by
  cases h : get key l (key a) with
  | none =>
    have := List.find?_eq_none.mp h a ha
    simp at this
  | some b =>
    have hkey : key b = key a := key_of_get h
    rw [List.inj_on_of_nodup_map hl (mem_of_get h) ha hkey]

/-- The elements of several keys are found. -/
theorem exists_mapM_get {l : List α} {ks : List κ} (h : ∀ k ∈ ks, k ∈ l.map key) :
    ∃ as, ks.mapM (get key l) = some as ∧ as.map key = ks := by
  induction ks with
  | nil => exact ⟨[], rfl, rfl⟩
  | cons k ks ih =>
    obtain ⟨as, has, hkeys⟩ := ih fun k' hk' => h k' (List.mem_cons_of_mem _ hk')
    obtain ⟨b, hb, hkey⟩ := List.mem_map.mp (h k List.mem_cons_self)
    cases hget : get key l k with
    | none => exact absurd hkey (by simpa using List.find?_eq_none.mp hget b hb)
    | some a =>
      refine ⟨a :: as, ?_, ?_⟩
      · rw [List.mapM_cons, hget, has]
        rfl
      · rw [List.map_cons, hkeys, key_of_get hget]

/-- Replacing an entry keeps the keys. -/
@[simp] theorem map_key_put (l : List α) (a : α) : (put key l a).map key = l.map key := by
  rw [put, List.map_map]
  apply List.map_congr_left
  intro b _
  by_cases hb : key b = key a <;> simp [hb]

/-- After an entry is replaced there are the new one and those of other keys. -/
theorem mem_put {l : List α} {a b : α} (h : b ∈ put key l a) :
    b = a ∨ b ∈ l ∧ key b ≠ key a := by
  obtain ⟨c, hc, rfl⟩ := List.mem_map.mp h
  by_cases hkey : key c = key a
  · exact Or.inl (if_pos hkey)
  · simp only [hkey, if_false]
    exact Or.inr ⟨hc, hkey⟩

/-- The new entry is there when one of its key was. -/
theorem mem_put_self {l : List α} {a b : α} (hb : b ∈ l) (hkey : key a = key b) :
    a ∈ put key l a :=
  List.mem_map.mpr ⟨b, hb, if_pos hkey.symm⟩

/-- Without an entry of its key nothing is replaced. -/
theorem put_of_forall_ne {l : List α} {a : α} (h : ∀ b ∈ l, key b ≠ key a) : put key l a = l := by
  rw [put]
  conv_rhs => rw [← List.map_id l]
  apply List.map_congr_left
  intro b hb
  simp [h b hb]

/-- The new entry is found under its key. -/
theorem get_put_self {l : List α} {a b : α} (h : get key l (key a) = some b) :
    get key (put key l a) (key a) = some a := by
  induction l with
  | nil => cases h
  | cons c l ih =>
    by_cases hc : key c = key a
    · simp [get, put, hc]
    · have hrest : get key l (key a) = some b := by simpa [get, hc] using h
      simpa [get, put, hc] using ih hrest

/-- The entries under other keys stay. -/
theorem get_put_of_ne {l : List α} {a : α} {k : κ} (h : k ≠ key a) :
    get key (put key l a) k = get key l k := by
  induction l with
  | nil => rfl
  | cons c l ih =>
    by_cases hc : key c = key a
    · simpa [get, put, hc, h.symm] using ih
    · by_cases hk : key c = k
      · subst hk
        simp [get, put, h]
      · simpa [get, put, hc, hk] using ih

/-- A sum over the elements changes by what the replaced element counts for. -/
theorem sum_put {M : Type*} [AddCommMonoid M] (f : α → M) {l : List α} (hl : (l.map key).Nodup)
    {a a' : α} (ha : get key l (key a') = some a) :
    f a + ((put key l a').map f).sum = f a' + (l.map f).sum := by
  induction l with
  | nil => simp [get] at ha
  | cons b l ih =>
    rw [List.map_cons, List.nodup_cons] at hl
    by_cases hb : key b = key a'
    · have hba : b = a := by simpa [get, hb] using ha
      have hrest : put key l a' = l := put_of_forall_ne fun c hc hkey =>
        hl.1 (hb.trans hkey.symm ▸ List.mem_map_of_mem hc)
      have hput : put key (b :: l) a' = a' :: put key l a' := by simp [put, hb]
      rw [hput, hrest, ← hba, List.map_cons, List.map_cons, List.sum_cons, List.sum_cons]
      abel
    · have hget : get key l (key a') = some a := by simpa [get, hb] using ha
      have hput : put key (b :: l) a' = b :: put key l a' := by simp [put, hb]
      rw [hput, List.map_cons, List.map_cons, List.sum_cons, List.sum_cons, add_left_comm,
        ih hl.2 hget, add_left_comm]

end AcCore.Lib.Keyed
