import AcCore.Lib.Table
import Mathlib.Data.List.Count
import Mathlib.Data.List.Induction
import Mathlib.Order.Basic

/-!
# Plurality of a collection of votes

Votes are counted in a table that is kept in the order of the candidates. The
table, and so the winner read from it, depends on the votes only and not on
the order in which they are counted.
-/

namespace AcCore.Lib

variable {α : Type*}

/-- Counts one more vote in an ascending table of candidates. -/
def tallyAdd [LinearOrder α] (a : α) : List (α × ℕ) → List (α × ℕ)
  | [] => [(a, 1)]
  | (b, n) :: t =>
    if a < b then (a, 1) :: (b, n) :: t
    else if a = b then (b, n + 1) :: t
    else (b, n) :: tallyAdd a t

/-- The ascending table of the candidates and their votes. -/
def tally [LinearOrder α] (votes : List α) : List (α × ℕ) :=
  votes.foldl (fun t a => tallyAdd a t) []

/-- The last candidate of the table among those with the most votes. -/
def lastMost (t : List (α × ℕ)) : Option α :=
  (t.foldl (fun best e => if e.2 ≥ best.1 then (e.2, some e.1) else best) (0, none)).2

/-- The first candidate of the table among those with the most votes, if any
has votes at all. -/
def firstMost (t : List (α × ℕ)) : Option α :=
  (t.foldl (fun best e => if e.2 > best.1 then (e.2, some e.1) else best) (0, none)).2

/-- `a` has the most votes, and is the greatest candidate with as many. -/
def IsPlurality [LinearOrder α] (votes : List α) (a : α) : Prop :=
  a ∈ votes ∧ ∀ b ∈ votes,
    votes.count b < votes.count a ∨ votes.count b = votes.count a ∧ b ≤ a

/-! ## The winner of the ascending table -/

section Tally

variable [LinearOrder α]

/-- A table of candidates in ascending order, each with its number of votes. -/
structure Tallies (t : List (α × ℕ)) (votes : List α) : Prop where
  ascending : t.Pairwise fun e f => e.1 < f.1
  mem_iff : ∀ a n, (a, n) ∈ t ↔ a ∈ votes ∧ n = votes.count a

/-- A tally stays in ascending order, with one more vote for its candidate. -/
theorem ascending_tallyAdd {a : α} {t : List (α × ℕ)} (h : t.Pairwise fun e f => e.1 < f.1) :
    (tallyAdd a t).Pairwise (fun e f => e.1 < f.1) ∧
      ∀ c k, (c, k) ∈ tallyAdd a t ↔
        (c ≠ a ∧ (c, k) ∈ t) ∨
          c = a ∧ ((∃ n, (a, n) ∈ t ∧ k = n + 1) ∨ (∀ n, (a, n) ∉ t) ∧ k = 1) := by
  induction t with
  | nil => simp [tallyAdd]
  | cons e t ih =>
    obtain ⟨b, n⟩ := e
    obtain ⟨hb, ht⟩ := List.pairwise_cons.mp h
    obtain ⟨hasc, hmem⟩ := ih ht
    unfold tallyAdd
    split_ifs with hlt heq
    · grind
    · subst heq
      exact ⟨List.pairwise_cons.mpr ⟨hb, ht⟩, by grind⟩
    · constructor
      · refine List.pairwise_cons.mpr ⟨?_, hasc⟩
        rintro ⟨c, k⟩ hc
        grind
      · grind

/-- A tally of the votes is one of one more vote. -/
theorem Tallies.tallyAdd {t : List (α × ℕ)} {votes : List α} (h : Tallies t votes) (a : α) :
    Tallies (Lib.tallyAdd a t) (votes ++ [a]) := by
  obtain ⟨hasc, hmem⟩ := ascending_tallyAdd (a := a) h.ascending
  refine ⟨hasc, fun c k => (hmem c k).trans ?_⟩
  have ht := h.mem_iff
  by_cases hc : c = a
  · subst hc
    have hcount : (votes ++ [c]).count c = votes.count c + 1 := by simp
    by_cases hin : c ∈ votes
    · have hold : (c, votes.count c) ∈ t := (ht c _).mpr ⟨hin, rfl⟩
      grind
    · have hzero : votes.count c = 0 := List.count_eq_zero.mpr hin
      grind
  · have hcount : (votes ++ [a]).count c = votes.count c := by
      simp [List.count_append, Ne.symm hc]
    grind

/-- The table counts the votes. -/
theorem tallies_tally (votes : List α) : Tallies (tally votes) votes := by
  induction votes using List.reverseRecOn with
  | nil => exact ⟨List.Pairwise.nil, by simp [tally]⟩
  | append_singleton votes a ih =>
    have : tally (votes ++ [a]) = tallyAdd a (tally votes) := by simp [tally]
    rw [this]
    exact ih.tallyAdd a

/-- What the fold of `lastMost` holds after an ascending table: the last entry
with the most votes, or the entry it started from. -/
theorem lastMost_fold {t : List (α × ℕ)} (hasc : t.Pairwise fun e f => e.1 < f.1) {m : ℕ} {a : α}
    (ha : ∀ e ∈ t, a < e.1) :
    ∃ m' a', t.foldl (fun best e => if e.2 ≥ best.1 then (e.2, some e.1) else best) (m, some a) =
        (m', some a') ∧ ((a', m') = (a, m) ∨ (a', m') ∈ t) ∧
      ∀ e, e = (a, m) ∨ e ∈ t → e.2 < m' ∨ e.2 = m' ∧ e.1 ≤ a' := by
  induction t generalizing m a with
  | nil => exact ⟨m, a, rfl, by simp⟩
  | cons e t ih =>
    obtain ⟨he, ht⟩ := List.pairwise_cons.mp hasc
    rw [List.foldl_cons]
    by_cases hge : e.2 ≥ m
    · obtain ⟨m', a', hfold, hfrom, hmax⟩ := ih ht (m := e.2) (a := e.1) he
      have hae := ha e (by simp)
      have hbest := hmax (e.1, e.2) (Or.inl rfl)
      exact ⟨m', a', by simpa only [if_pos hge] using hfold, by grind, by grind⟩
    · obtain ⟨m', a', hfold, hfrom, hmax⟩ :=
        ih ht (m := m) (a := a) fun f hf => ha f (List.mem_cons_of_mem _ hf)
      have hbest := hmax (a, m) (Or.inl rfl)
      exact ⟨m', a', by simpa only [if_neg hge] using hfold, by grind, by grind⟩

/-- The last of the most voted in the ascending table is the plurality. -/
theorem lastMost_tally {votes : List α} (h : votes ≠ []) :
    ∃ a, lastMost (tally votes) = some a ∧ IsPlurality votes a := by
  have htally := tallies_tally votes
  cases ht : tally votes with
  | nil =>
    obtain ⟨a, as, rfl⟩ := List.exists_cons_of_ne_nil h
    have := (htally.mem_iff a _).mpr ⟨by simp, rfl⟩
    simp [ht] at this
  | cons e t =>
    rw [ht] at htally
    obtain ⟨he, hasc⟩ := List.pairwise_cons.mp htally.ascending
    obtain ⟨m, a, hfold, hfrom, hmax⟩ := lastMost_fold hasc (m := e.2) (a := e.1) he
    refine ⟨a, ?_, ?_⟩
    · simp [lastMost, hfold]
    · have hmem : (a, m) ∈ e :: t := by grind
      obtain ⟨ha, rfl⟩ := (htally.mem_iff a m).mp hmem
      refine ⟨ha, fun b hb => ?_⟩
      have := hmax (b, votes.count b) (by
        have := (htally.mem_iff b _).mpr ⟨hb, rfl⟩
        grind)
      simpa using this

/-- There is only one plurality. -/
theorem IsPlurality.unique {votes : List α} {a b : α} (ha : IsPlurality votes a)
    (hb : IsPlurality votes b) : a = b := by
  have hab := ha.2 b hb.1
  have hba := hb.2 a ha.1
  apply le_antisymm <;> grind

/-- The plurality does not depend on the order of the votes. -/
theorem IsPlurality.perm {votes votes' : List α} (h : votes.Perm votes') {a : α}
    (ha : IsPlurality votes a) : IsPlurality votes' a := by
  refine ⟨h.mem_iff.mp ha.1, fun b hb => ?_⟩
  simpa only [h.count_eq] using ha.2 b (h.mem_iff.mpr hb)

/-- The winner of the table does not depend on the order of the votes. -/
theorem lastMost_tally_perm {votes votes' : List α} (h : votes.Perm votes') :
    lastMost (tally votes) = lastMost (tally votes') := by
  cases votes with
  | nil => rw [h.nil_eq]
  | cons v votes =>
    have hne' : votes' ≠ [] := fun hnil => by simp [hnil] at h
    obtain ⟨a, ha, hpl⟩ := lastMost_tally (List.cons_ne_nil v votes)
    obtain ⟨b, hb, hpl'⟩ := lastMost_tally hne'
    rw [ha, hb, (hpl.perm h).unique hpl']

end Tally

/-! ## Counting by classes -/

section Classes

variable {κ : Type*} [DecidableEq κ] (key : α → κ)

/-- Counts one more vote in a table with one entry for each class of
candidates, represented by the first of the class that came. -/
def classAdd (m : Table κ (α × ℕ)) (v : α) : Table κ (α × ℕ) :=
  match m.lookup (key v) with
  | some (r, n) => m.insert (key v) (r, n + 1)
  | none => m.insert (key v) (v, 1)

/-- The table of the classes after all votes. -/
def classes (votes : List α) : Table κ (α × ℕ) := votes.foldl (classAdd key) ∅

/-- The number of votes in a class. -/
def classCount (votes : List α) (k : κ) : ℕ := votes.countP fun w => key w = k

/-- The candidate belongs to a class with the most votes. -/
def IsMostCommon (votes : List α) (v : α) : Prop :=
  v ∈ votes ∧ ∀ w ∈ votes, classCount key votes (key w) ≤ classCount key votes (key v)

/-- Whether a vote is most common is decided by counting. -/
instance [DecidableEq α] (votes : List α) (v : α) : Decidable (IsMostCommon key votes v) :=
  inferInstanceAs (Decidable (_ ∧ _))

variable {key}

/-- A vote adds to its class, or opens it. -/
theorem lookup_classAdd (m : Table κ (α × ℕ)) (v : α) (k : κ) :
    (classAdd key m v).lookup k =
      if k = key v then some (((m.lookup k).map fun e => (e.1, e.2 + 1)).getD (v, 1))
      else m.lookup k := by
  unfold classAdd
  by_cases hk : k = key v
  · subst hk
    cases hlookup : m.lookup (key v) with
    | none => simp
    | some e => simp
  · cases hlookup : m.lookup (key v) with
    | none => simp [hk, Finmap.lookup_insert_of_ne _ hk]
    | some e => simp [hk, Finmap.lookup_insert_of_ne _ hk]

/-- A class is represented by its first vote, and has all its votes. -/
theorem lookup_classes (votes : List α) (k : κ) :
    (classes key votes).lookup k =
      (votes.find? fun w => key w = k).map fun r => (r, classCount key votes k) := by
  induction votes using List.reverseRecOn with
  | nil => simp [classes]
  | append_singleton votes v ih =>
    have hstep : classes key (votes ++ [v]) = classAdd key (classes key votes) v := by
      simp [classes]
    rw [hstep, lookup_classAdd, ih, List.find?_append]
    by_cases hk : key v = k
    · subst hk
      cases hfind : votes.find? fun w => key w = key v with
      | some r => simp [classCount, List.countP_append]
      | none =>
        have hzero : votes.countP (fun w => key w = key v) = 0 := by
          rw [List.countP_eq_zero]
          simpa using hfind
        simp [classCount, List.countP_append, hzero]
    · simp [classCount, List.countP_append, hk, Ne.symm hk]

/-- The table has an entry for every vote. -/
theorem exists_lookup_classes {votes : List α} {v : α} (h : v ∈ votes) :
    ∃ r, (classes key votes).lookup (key v) = some (r, classCount key votes (key v)) := by
  have hsome : (votes.find? fun w => key w = key v).isSome := by
    rw [List.find?_isSome]
    exact ⟨v, h, by simp⟩
  obtain ⟨r, hr⟩ := Option.isSome_iff_exists.mp hsome
  exact ⟨r, by rw [lookup_classes, hr, Option.map_some]⟩

/-- The class of a vote has a vote. -/
theorem classCount_pos {votes : List α} {v : α} (h : v ∈ votes) :
    0 < classCount key votes (key v) :=
  List.countP_pos_iff.mpr ⟨v, h, by simp⟩

/-- The fold of `firstMost` keeps an entry that no later one exceeds. -/
theorem firstMost_fold_eq {t : List (α × ℕ)} {m : ℕ} {x : Option α} (h : ∀ e ∈ t, e.2 ≤ m) :
    t.foldl (fun best e => if e.2 > best.1 then (e.2, some e.1) else best) (m, x) = (m, x) := by
  induction t with
  | nil => rfl
  | cons e t ih =>
    have he : ¬ e.2 > m := not_lt.mpr (h e (by simp))
    rw [List.foldl_cons]
    simp only [if_neg he]
    exact ih fun f hf => h f (List.mem_cons_of_mem _ hf)

/-- The fold of `firstMost` ends at an entry of the table, or at the one it
started from, that nothing exceeds. -/
theorem firstMost_fold (t : List (α × ℕ)) (m : ℕ) (x : Option α) :
    ∃ m' x', t.foldl (fun best e => if e.2 > best.1 then (e.2, some e.1) else best) (m, x) =
        (m', x') ∧ m ≤ m' ∧ (∀ e ∈ t, e.2 ≤ m') ∧
      ((m', x') = (m, x) ∨ ∃ a, x' = some a ∧ (a, m') ∈ t) := by
  induction t generalizing m x with
  | nil => exact ⟨m, x, rfl, le_rfl, by simp, Or.inl rfl⟩
  | cons e t ih =>
    rw [List.foldl_cons]
    by_cases hgt : e.2 > m
    · obtain ⟨m', x', hfold, hle, hmax, hfrom⟩ := ih e.2 (some e.1)
      exact ⟨m', x', by simpa only [if_pos hgt] using hfold, by omega, by grind, by grind⟩
    · obtain ⟨m', x', hfold, hle, hmax, hfrom⟩ := ih m x
      exact ⟨m', x', by simpa only [if_neg hgt] using hfold, hle, by grind, by grind⟩

/-- In whatever order the classes are listed, the first of the most voted
ones is represented by a most common vote. -/
theorem exists_firstMost_classes {votes : List α} (hne : votes ≠ [])
    {entries : List (Σ _ : κ, α × ℕ)} (h : (entries : Multiset _) = (classes key votes).entries) :
    ∃ r, firstMost (entries.map Sigma.snd) = some r ∧ IsMostCommon key votes r := by
  have hmem : ∀ k e, ⟨k, e⟩ ∈ entries ↔ (classes key votes).lookup k = some e := by
    intro k e
    rw [Finmap.lookup_eq_some_iff, ← h, Multiset.mem_coe]
  obtain ⟨m, x, hfold, -, hmax, hfrom⟩ := firstMost_fold (entries.map Sigma.snd) 0 none
  have hentry : ∀ v ∈ votes, classCount key votes (key v) ≤ m := by
    intro v hv
    obtain ⟨r, hr⟩ : ∃ r, (classes key votes).lookup (key v) =
        some (r, classCount key votes (key v)) := exists_lookup_classes hv
    exact hmax (r, classCount key votes (key v)) (List.mem_map_of_mem ((hmem _ _).mpr hr))
  obtain ⟨v, hv⟩ := List.exists_mem_of_ne_nil votes hne
  have hpos : 0 < m := lt_of_lt_of_le (classCount_pos hv) (hentry v hv)
  obtain hstart | ⟨r, rfl, hr⟩ := hfrom
  · simp only [Prod.mk.injEq] at hstart
    omega
  · refine ⟨r, by simp only [firstMost, hfold], ?_⟩
    obtain ⟨⟨k, e⟩, he, heq⟩ := List.mem_map.mp hr
    obtain rfl : e = (r, m) := heq
    have hlookup := (hmem k _).mp he
    rw [lookup_classes] at hlookup
    obtain ⟨r', hr', heq⟩ := Option.map_eq_some_iff.mp hlookup
    obtain ⟨rfl, rfl⟩ := Prod.mk.injEq _ _ _ _ |>.mp heq
    have hk : key r' = k := by simpa using List.find?_some hr'
    subst hk
    exact ⟨List.mem_of_find?_eq_some hr', hentry⟩

/-- The order of the votes does not matter. -/
theorem IsMostCommon.perm {votes votes' : List α} (h : votes.Perm votes') {v : α}
    (hv : IsMostCommon key votes v) : IsMostCommon key votes' v := by
  have hcount : ∀ k, classCount key votes' k = classCount key votes k :=
    fun k => (h.countP_eq _).symm
  refine ⟨h.mem_iff.mp hv.1, fun w hw => ?_⟩
  simpa only [hcount] using hv.2 w (h.mem_iff.mpr hw)

/-- A most common vote that comes first represents the first of the most voted
classes for some order in which the classes are listed. -/
theorem IsMostCommon.exists_firstMost {votes : List α} {v : α}
    (h : IsMostCommon key (v :: votes) v) :
    ∃ entries : List (Σ _ : κ, α × ℕ),
      (entries : Multiset _) = (classes key (v :: votes)).entries ∧
        firstMost (entries.map Sigma.snd) = some v := by
  have hlookup : (classes key (v :: votes)).lookup (key v) =
      some (v, classCount key (v :: votes) (key v)) := by
    rw [lookup_classes]
    simp
  obtain ⟨entries, hentries⟩ :=
    Quot.exists_rep ((classes key (v :: votes)).erase (key v)).entries
  refine ⟨⟨key v, (v, classCount key (v :: votes) (key v))⟩ :: entries, ?_, ?_⟩
  · rw [← Table.insert_erase_of_lookup hlookup,
      Finmap.entries_insert_of_notMem Finmap.notMem_erase_self, ← hentries]
    rfl
  · have hmax : ∀ e ∈ entries.map Sigma.snd, e.2 ≤ classCount key (v :: votes) (key v) := by
      intro e he
      obtain ⟨⟨k, e'⟩, hmem, rfl⟩ := List.mem_map.mp he
      have hlookup' : ((classes key (v :: votes)).erase (key v)).lookup k = some e' := by
        rw [Finmap.lookup_eq_some_iff, ← hentries]
        exact hmem
      have hk : k ≠ key v := by
        rintro rfl
        simp at hlookup'
      rw [Finmap.lookup_erase_ne hk, lookup_classes] at hlookup'
      obtain ⟨w, hw, rfl⟩ := Option.map_eq_some_iff.mp hlookup'
      have hwk : key w = k := by simpa using List.find?_some hw
      simpa only [← hwk] using h.2 w (List.mem_of_find?_eq_some hw)
    have hpos : 0 < classCount key (v :: votes) (key v) := classCount_pos h.1
    rw [firstMost, List.map_cons, List.foldl_cons]
    simp only [gt_iff_lt, hpos, if_true]
    exact congrArg Prod.snd (firstMost_fold_eq (x := some v) hmax)

end Classes

end AcCore.Lib
