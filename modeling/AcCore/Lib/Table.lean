import Mathlib.Algebra.BigOperators.Group.Finset.Basic
import Mathlib.Algebra.BigOperators.Group.Finset.Piecewise
import Mathlib.Algebra.BigOperators.Group.Multiset.Basic
import Mathlib.Data.Finmap
import Mathlib.Data.List.Sort
import Mathlib.Tactic.Abel

/-!
# Tables

A table is a finite map. Hash tables and ordered maps are both modelled by
it: it has no order of its own, an ordered map lists its keys in ascending
order, and a sum over the entries changes with one entry at a time.
-/

namespace AcCore.Lib

/-- A finite map from keys to values. -/
abbrev Table (κ α : Type*) := Finmap fun _ : κ => α

namespace Table

variable {κ α M : Type*}

/-! ## Ascending keys -/

section Ordered

variable [LinearOrder κ]

/-- Sorting forgets the order that a list came in. -/
theorem insertionSort_eq_of_perm {xs ys : List κ} (h : xs.Perm ys) :
    xs.insertionSort (· ≤ ·) = ys.insertionSort (· ≤ ·) :=
  List.Perm.eq_of_pairwise' (List.pairwise_insertionSort (· ≤ ·) xs)
    (List.pairwise_insertionSort (· ≤ ·) ys)
    (((List.perm_insertionSort (· ≤ ·) xs).trans h).trans
      (List.perm_insertionSort (· ≤ ·) ys).symm)

/-- The keys in ascending order, as an ordered map lists them. -/
def keyList (t : Table κ α) : List κ :=
  Quot.liftOn t.keys.val (List.insertionSort (· ≤ ·)) fun _ _ h => insertionSort_eq_of_perm h

/-- The key list has the keys, each once. -/
@[simp] theorem coe_keyList (t : Table κ α) : (keyList t : Multiset κ) = t.keys.val := by
  unfold keyList
  induction t.keys.val using Quot.inductionOn with
  | h l => exact Quot.sound (List.perm_insertionSort (· ≤ ·) l)

/-- The key list has exactly the keys. -/
@[simp] theorem mem_keyList {t : Table κ α} {k : κ} : k ∈ keyList t ↔ k ∈ t := by
  rw [← Multiset.mem_coe, coe_keyList, Finset.mem_val, Finmap.mem_keys]

/-- Tables with the same keys list them alike. -/
theorem keyList_congr {s t : Table κ α} (h : ∀ k, k ∈ s ↔ k ∈ t) : keyList s = keyList t := by
  have hkeys : s.keys = t.keys := Finset.ext fun k => by
    rw [Finmap.mem_keys, Finmap.mem_keys, h k]
  unfold keyList
  rw [hkeys]

variable [DecidableEq κ]

/-- The entries by ascending keys. -/
def toList (t : Table κ α) : List (κ × α) :=
  (keyList t).filterMap fun k => (t.lookup k).map (Prod.mk k)

/-- The list of entries has exactly the entries. -/
theorem mem_toList {t : Table κ α} {k : κ} {a : α} :
    (k, a) ∈ toList t ↔ t.lookup k = some a := by
  simp only [toList, List.mem_filterMap, mem_keyList, Option.map_eq_some_iff, Prod.mk.injEq]
  constructor
  · rintro ⟨_, -, _, ha, rfl, rfl⟩
    exact ha
  · intro ha
    exact ⟨k, Finmap.mem_of_lookup_eq_some ha, a, ha, rfl, rfl⟩

omit [DecidableEq κ] in
/-- No key is listed twice. -/
theorem nodup_keyList (t : Table κ α) : (keyList t).Nodup := by
  rw [← Multiset.coe_nodup, coe_keyList]
  exact t.keys.nodup

/-- The keys of the listed entries, in order. -/
@[simp] theorem map_fst_toList (t : Table κ α) : (toList t).map Prod.fst = keyList t := by
  rw [toList, List.map_filterMap]
  have hkey : ∀ k ∈ keyList t,
      ((t.lookup k).map (Prod.mk k)).map Prod.fst = some k := by
    intro k hk
    obtain ⟨a, ha⟩ := Finmap.mem_iff.mp (mem_keyList.mp hk)
    rw [ha]
    rfl
  rw [List.filterMap_congr hkey, List.filterMap_some]

/-- Only the empty table lists nothing. -/
theorem toList_eq_nil {t : Table κ α} : toList t = [] ↔ t = ∅ := by
  rw [← List.map_eq_nil_iff (f := Prod.fst), map_fst_toList]
  constructor
  · intro h
    apply Finmap.ext_lookup
    intro k
    rw [Finmap.lookup_empty, Finmap.lookup_eq_none, ← mem_keyList, h]
    exact List.not_mem_nil
  · rintro rfl
    rw [List.eq_nil_iff_forall_not_mem]
    intro k hk
    exact Finmap.notMem_empty (mem_keyList.mp hk)

end Ordered

/-! ## Emplacing -/

section Emplace

variable [DecidableEq κ]

/-- Puts an entry in, unless the key is there already. -/
def emplace (k : κ) (a : α) (t : Table κ α) : Table κ α :=
  match t.lookup k with
  | some _ => t
  | none => t.insert k a

/-- A key that is there keeps its value; another one gets the new value. -/
theorem lookup_emplace (k : κ) (a : α) (t : Table κ α) (k' : κ) :
    (emplace k a t).lookup k' = if k' = k then some ((t.lookup k).getD a) else t.lookup k' := by
  unfold emplace
  by_cases hk : k' = k
  · subst hk
    cases hlookup : t.lookup k' with
    | none => simp
    | some b => simp [hlookup]
  · cases hlookup : t.lookup k with
    | none => simp [hk, Finmap.lookup_insert_of_ne _ hk]
    | some b => simp [hk]

/-- After `emplace` the key is there. -/
theorem mem_emplace {k : κ} {a : α} {t : Table κ α} {k' : κ} :
    k' ∈ emplace k a t ↔ k' = k ∨ k' ∈ t := by
  rw [← Finmap.lookup_isSome, ← Finmap.lookup_isSome, lookup_emplace]
  by_cases hk : k' = k <;> simp [hk]

/-- The keys after several entries are put in. -/
theorem mem_foldl_emplace {β : Type*} (key : β → κ) (value : β → α) (l : List β) (t : Table κ α)
    {k : κ} :
    k ∈ l.foldl (fun t b => emplace (key b) (value b) t) t ↔ k ∈ l.map key ∨ k ∈ t := by
  induction l generalizing t with
  | nil => simp
  | cons b l ih =>
    rw [List.foldl_cons, ih, mem_emplace, List.map_cons, List.mem_cons, ← or_assoc,
      or_comm (a := k ∈ l.map key)]

/-- The first of several entries of a key counts, unless the key was there before. -/
theorem lookup_foldl_emplace (es : List (κ × α)) (t : Table κ α) (k : κ) :
    (es.foldl (fun t e => emplace e.1 e.2 t) t).lookup k =
      (t.lookup k).or ((es.find? fun e => e.1 = k).map Prod.snd) := by
  induction es generalizing t with
  | nil => simp
  | cons e es ih =>
    rw [List.foldl_cons, ih, lookup_emplace]
    by_cases hk : e.1 = k
    · subst hk
      cases t.lookup e.1 <;> simp
    · simp [hk, Ne.symm hk]

/-- A table is the same after its entries are put in again, in any order. -/
theorem foldl_emplace_of_perm [LinearOrder κ] {es : List (κ × α)} {t : Table κ α}
    (h : es.Perm (toList t)) : es.foldl (fun t e => emplace e.1 e.2 t) ∅ = t := by
  apply Finmap.ext_lookup
  intro k
  rw [lookup_foldl_emplace, Finmap.lookup_empty, Option.none_or]
  cases hfind : es.find? fun e => e.1 = k with
  | none =>
    symm
    rw [Option.map_none, Finmap.lookup_eq_none]
    intro hk
    obtain ⟨a, ha⟩ := Finmap.mem_iff.mp hk
    have hnot := List.find?_eq_none.mp hfind (k, a) (h.mem_iff.mpr (mem_toList.mpr ha))
    exact hnot (decide_eq_true rfl)
  | some e =>
    obtain rfl : e.1 = k := by simpa using List.find?_some hfind
    have hmem := h.mem_iff.mp (List.mem_of_find?_eq_some hfind)
    rw [Option.map_some, mem_toList.mp hmem]

end Emplace

/-! ## Erasing -/

section EraseAll

variable [DecidableEq κ]

/-- Erases several keys. -/
def eraseAll (ks : List κ) (t : Table κ α) : Table κ α := ks.foldl (fun t k => t.erase k) t

/-- The keys of the list are gone, and the others stay. -/
theorem lookup_eraseAll (ks : List κ) (t : Table κ α) (k : κ) :
    (eraseAll ks t).lookup k = if k ∈ ks then none else t.lookup k := by
  unfold eraseAll
  induction ks generalizing t with
  | nil => simp
  | cons k' ks ih =>
    rw [List.foldl_cons, ih]
    by_cases hk : k = k'
    · subst hk
      simp
    · simp [hk, Finmap.lookup_erase_ne hk]

end EraseAll

/-! ## Sums -/

/-- The sum over the entries of what each value counts for. -/
def sum [AddCommMonoid M] (f : α → M) (t : Table κ α) : M :=
  (t.entries.map fun e => f e.2).sum

/-- The sum over the empty table. -/
@[simp] theorem sum_empty [AddCommMonoid M] (f : α → M) : sum f (∅ : Table κ α) = 0 := rfl

variable [DecidableEq κ]

/-- A new key adds its term. -/
theorem sum_insert_of_notMem [AddCommMonoid M] (f : α → M) {t : Table κ α} {k : κ} (h : k ∉ t)
    (a : α) : sum f (t.insert k a) = f a + sum f t := by
  rw [sum, Finmap.entries_insert_of_notMem h, Multiset.map_cons, Multiset.sum_cons, sum]

/-- What the entry of a key counts for: nothing when there is none. -/
def valueAt [Zero M] (f : α → M) (t : Table κ α) (k : κ) : M := (t.lookup k).elim 0 f

/-- Erasing an entry and putting it back. -/
theorem insert_erase_of_lookup {t : Table κ α} {k : κ} {a : α} (h : t.lookup k = some a) :
    (t.erase k).insert k a = t := by
  apply Finmap.ext_lookup
  intro k'
  by_cases hk : k' = k
  · subst hk
    rw [Finmap.lookup_insert, h]
  · rw [Finmap.lookup_insert_of_ne _ hk, Finmap.lookup_erase_ne hk]

/-- Erasing a key before it is overwritten makes no difference. -/
theorem insert_erase (t : Table κ α) (k : κ) (a : α) : (t.erase k).insert k a = t.insert k a := by
  apply Finmap.ext_lookup
  intro k'
  by_cases hk : k' = k
  · subst hk
    rw [Finmap.lookup_insert, Finmap.lookup_insert]
  · rw [Finmap.lookup_insert_of_ne _ hk, Finmap.lookup_insert_of_ne _ hk,
      Finmap.lookup_erase_ne hk]

/-- The sum is the term of one key and the sum over the others. -/
theorem valueAt_add_sum_erase [AddCommMonoid M] (f : α → M) (t : Table κ α) (k : κ) :
    valueAt f t k + sum f (t.erase k) = sum f t := by
  cases h : t.lookup k with
  | none =>
    have herase : t.erase k = t := by
      apply Finmap.ext_lookup
      intro k'
      by_cases hk : k' = k
      · subst hk
        rw [Finmap.lookup_erase, h]
      · rw [Finmap.lookup_erase_ne hk]
    simp [valueAt, h, herase]
  | some a =>
    have hsum := sum_insert_of_notMem f (t := t.erase k) Finmap.notMem_erase_self a
    rw [insert_erase_of_lookup h] at hsum
    simp [valueAt, h, hsum]

/-- An insertion puts the new value in the place of what the key counted for. -/
theorem sum_insert [AddCommGroup M] (f : α → M) (t : Table κ α) (k : κ) (a : α) :
    sum f (t.insert k a) = sum f t - valueAt f t k + f a := by
  rw [← insert_erase, sum_insert_of_notMem f Finmap.notMem_erase_self,
    ← valueAt_add_sum_erase f t k]
  abel

/-- An erasure takes away what the key counted for. -/
theorem sum_erase [AddCommGroup M] (f : α → M) (t : Table κ α) (k : κ) :
    sum f (t.erase k) = sum f t - valueAt f t k := by
  rw [← valueAt_add_sum_erase f t k]
  abel

/-- The term of a key that is there. -/
theorem valueAt_of_lookup [Zero M] {f : α → M} {t : Table κ α} {k : κ} {a : α}
    (h : t.lookup k = some a) : valueAt f t k = f a := by
  simp [valueAt, h]

/-- A key that is not there has no term. -/
theorem valueAt_of_notMem [Zero M] {f : α → M} {t : Table κ α} {k : κ} (h : k ∉ t) :
    valueAt f t k = 0 := by
  simp [valueAt, Finmap.lookup_eq_none.mpr h]

/-- The sum over the entries, taken over any set of keys that has them all. -/
theorem sum_eq_sum_valueAt [AddCommMonoid M] (f : α → M) {K : Finset κ} {t : Table κ α}
    (h : t.keys ⊆ K) : sum f t = ∑ k ∈ K, valueAt f t k := by
  induction K using Finset.induction_on generalizing t with
  | empty =>
    have hempty : t = ∅ := by
      apply Finmap.ext_lookup
      intro k
      rw [Finmap.lookup_empty, Finmap.lookup_eq_none]
      exact fun hk => Finset.notMem_empty k (h (Finmap.mem_keys.mpr hk))
    rw [hempty, sum_empty, Finset.sum_empty]
  | insert k K hk ih =>
    have hsub : (t.erase k).keys ⊆ K := by
      rw [Finmap.keys_erase]
      exact Finset.subset_insert_iff.mp h
    have hrest : ∑ j ∈ K, valueAt f (t.erase k) j = ∑ j ∈ K, valueAt f t j := by
      apply Finset.sum_congr rfl
      intro j hj
      have hne : j ≠ k := by
        rintro rfl
        exact hk hj
      rw [valueAt, valueAt, Finmap.lookup_erase_ne hne]
    rw [Finset.sum_insert hk, ← valueAt_add_sum_erase f t k, ih hsub, hrest]

/-- Tables that count for the same at each key have the same sum. -/
theorem sum_congr [AddCommMonoid M] (f : α → M) {s t : Table κ α}
    (h : ∀ k, valueAt f s k = valueAt f t k) : sum f s = sum f t := by
  rw [sum_eq_sum_valueAt f (t := s) (K := s.keys ∪ t.keys) Finset.subset_union_left,
    sum_eq_sum_valueAt f (t := t) (K := s.keys ∪ t.keys) Finset.subset_union_right]
  exact Finset.sum_congr rfl fun k _ => h k

/-- When the values at the keys of one table are put in the place of those of
another, the sum changes by the differences at these keys. -/
theorem sum_of_overwrite [AddCommGroup M] (f : α → M) {s s' t : Table κ α}
    (h : ∀ k, valueAt f s' k = if k ∈ t then valueAt f t k else valueAt f s k) :
    sum f s' = sum f s + ∑ k ∈ t.keys, (valueAt f t k - valueAt f s k) := by
  have hs' := sum_eq_sum_valueAt f (t := s') (K := s'.keys ∪ (s.keys ∪ t.keys))
    Finset.subset_union_left
  have hs := sum_eq_sum_valueAt f (t := s) (K := s'.keys ∪ (s.keys ∪ t.keys))
    (Finset.subset_union_left.trans Finset.subset_union_right)
  have hchange : ∀ k, valueAt f s' k = valueAt f s k +
      if k ∈ t.keys then valueAt f t k - valueAt f s k else 0 := by
    intro k
    rw [h k]
    simp only [Finmap.mem_keys]
    split_ifs <;> simp
  have hsub : t.keys ⊆ s'.keys ∪ (s.keys ∪ t.keys) :=
    Finset.subset_union_right.trans Finset.subset_union_right
  rw [hs', hs, Finset.sum_congr rfl fun k _ => hchange k, Finset.sum_add_distrib,
    Finset.sum_ite_mem, Finset.inter_eq_right.mpr hsub]

end Table

end AcCore.Lib
