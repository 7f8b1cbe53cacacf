import AcCore.Gov.Cash.Delta

/-!
# The pool of the majority

Pools are merged by counting equal ones. A pool has the policy votes of its
sender in it, and the table that counts compares these and a hash code of the
rest. This file determines when the pool that is taken is, in its accounts and
fees, one that the most contributors sent.
-/

namespace AcCore.Gov.Cash

open Lib Engine

/-- What the majority decides on: everything that `compute_hash` covers. -/
def LocalDelta.content (g : LocalDelta) : Accounts × ℤ := (g.accounts, g.fees)

variable {ripemd : List UInt8 → Ripemd160}

namespace Delta

/-- The classes of merged contributions. -/
theorem table_foldl_merge (gs : List LocalDelta) :
    (gs.foldl (merge ripemd) create).m = classes (LocalDelta.key ripemd) gs := by
  rw [foldl_merge]
  rfl

/-- The pool that is taken belongs to a class with the most contributors. -/
theorem isMostCommon_merged {gs : List LocalDelta} (hne : gs ≠ []) {entries : Listing}
    (h : MergeLists ripemd gs entries) :
    IsMostCommon (LocalDelta.key ripemd) gs (merged ripemd gs entries).g := by
  rw [MergeLists, table_foldl_merge] at h
  obtain ⟨r, hr, hmost⟩ := exists_firstMost_classes hne h
  have hmerged : (merged ripemd gs entries).g = r := by
    simp only [merged, endMerge, hr, Option.getD_some]
  rwa [hmerged]

/-- Every pool of a class with the most contributors is taken for some order in
which the pools arrive and the table lists its entries. -/
theorem exists_merged_eq {gs : List LocalDelta} {g : LocalDelta}
    (h : IsMostCommon (LocalDelta.key ripemd) gs g) :
    ∃ gs' entries, gs'.Perm gs ∧ MergeLists ripemd gs' entries ∧
      (merged ripemd gs' entries).g = g := by
  obtain ⟨before, after, rfl⟩ := List.append_of_mem h.1
  have hperm : (g :: (before ++ after)).Perm (before ++ g :: after) := List.perm_middle.symm
  obtain ⟨entries, hentries, hfirst⟩ := (h.perm hperm.symm).exists_firstMost
  refine ⟨_, entries, hperm, ?_, ?_⟩
  · rw [MergeLists, table_foldl_merge, hentries]
  · simp only [merged, endMerge, hfirst, Option.getD_some]

end Delta

/-- **The mempool of the majority wins**, for every order in which the pools
arrive and the table lists its entries, exactly when the pools that agree in
policies and hash code with the most others have accounts and fees that no
others outnumber. -/
theorem majority_wins_iff (ripemd : List UInt8 → Ripemd160) {gs : List LocalDelta}
    (hne : gs ≠ []) :
    (∀ gs' entries, gs'.Perm gs → Delta.MergeLists ripemd gs' entries →
        IsMostCommon LocalDelta.content gs (Delta.merged ripemd gs' entries).g) ↔
      ∀ g, IsMostCommon (LocalDelta.key ripemd) gs g → IsMostCommon LocalDelta.content gs g := by
  constructor
  · intro h g hg
    obtain ⟨gs', entries, hperm, hentries, rfl⟩ := Delta.exists_merged_eq hg
    exact h gs' entries hperm hentries
  · intro h gs' entries hperm hentries
    have hne' : gs' ≠ [] := fun hnil => hne (hnil ▸ hperm).nil_eq.symm
    exact h _ ((Delta.isMostCommon_merged hne' hentries).perm hperm)

/-- A pool without accounts, with a policy vote. -/
def poolWith (fees : ℤ) (minimumFee : ℚ) : LocalDelta := ⟨fun _ => minimumFee, ∅, fees⟩

/-- A hash function that tells small fees apart. -/
def feesHash (bytes : List UInt8) : Ripemd160 := ⟨(bytes.headD 0).toUInt64, 0, 0⟩

/-- Three contributors with one vote agree on the fees, and two do not. -/
def agreedPools : List LocalDelta :=
  [poolWith 5 1, poolWith 7 1, poolWith 5 1, poolWith 7 2, poolWith 5 1]

/-- Three contributors agree on the fees and vote differently on the policies,
two others agree on both. -/
def splitPools : List LocalDelta :=
  [poolWith 5 1, poolWith 5 2, poolWith 5 3, poolWith 7 1, poolWith 7 1]

/-- An entry of the table of the merger. -/
def entryOf (g : LocalDelta) (count : ℕ) : Σ _ : UInt64 × Policies 1, LocalDelta × ℕ :=
  ⟨g.key feesHash, g, count⟩

/-- Pools that agree on the content: the most common one wins. -/
theorem majority_wins_iff_agreedPools :
    IsMostCommon LocalDelta.content agreedPools (Delta.merged feesHash agreedPools
      [entryOf (poolWith 7 1) 1, entryOf (poolWith 5 1) 3, entryOf (poolWith 7 2) 1]).g := by
  refine (majority_wins_iff feesHash (show agreedPools ≠ [] from List.cons_ne_nil _ _)).mpr ?_ _ _
    (List.Perm.refl _) (by decide +kernel)
  have hall : ∀ g ∈ agreedPools, IsMostCommon (LocalDelta.key feesHash) agreedPools g →
      IsMostCommon LocalDelta.content agreedPools g := by decide +kernel
  exact fun g hg => hall g hg.1 hg

/-- The pool of two contributors is taken against that of three. -/
theorem split_majority_loses :
    Delta.MergeLists feesHash splitPools [entryOf (poolWith 5 1) 1, entryOf (poolWith 5 2) 1,
        entryOf (poolWith 5 3) 1, entryOf (poolWith 7 1) 2] ∧
      (Delta.merged feesHash splitPools [entryOf (poolWith 5 1) 1, entryOf (poolWith 5 2) 1,
        entryOf (poolWith 5 3) 1, entryOf (poolWith 7 1) 2]).g = poolWith 7 1 ∧
      classCount LocalDelta.content splitPools (poolWith 7 1).content = 2 ∧
      classCount LocalDelta.content splitPools (poolWith 5 1).content = 3 ∧
      ¬ IsMostCommon LocalDelta.content splitPools (poolWith 7 1) := by
  decide +kernel

end AcCore.Gov.Cash
