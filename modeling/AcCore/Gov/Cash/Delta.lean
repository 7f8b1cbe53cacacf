import AcCore.Gov.Engine.Policies
import AcCore.Lib.Plurality

/-!
# What the cash app contributes

A contribution of the cash app (app 30) is a pool: the accounts that its
transactions touched, with their new balances, and the fees. The delta that
merges pools takes one of those that most contributors agree on.
-/

namespace AcCore.Gov.Cash

open Lib Engine

/-- `cash::app::id`. -/
def appId : ℕ := 30

/-- `local_delta::account_t`. -/
structure Account where
  lockingProgram : Ripemd160
  box : ℤ
  deriving DecidableEq, Repr

/-- `local_delta::accounts_t`. -/
abbrev Accounts := Table Ripemd160 Account

/-- `cash::app::local_delta`. -/
structure LocalDelta where
  policies : Policies 1
  accounts : Accounts
  fees : ℤ
  deriving DecidableEq

namespace LocalDelta

/-- The pool as it is created, also `operator =(int zero)`. -/
def create : LocalDelta := ⟨fun _ => 0, ∅, 0⟩

/-- The bytes that `compute_hash` writes: only what the majority decides on. -/
def hashBytes (g : LocalDelta) : List UInt8 :=
  ((Table.toList g.accounts).flatMap fun e =>
    e.1.bytes ++ int64Codec.enc (Int64.ofInt e.2.box) ++ e.2.lockingProgram.bytes) ++
  int64Codec.enc (Int64.ofInt g.fees)

/-- `compute_hash`, for the hash function of the hasher. -/
def computeHash (ripemd : List UInt8 → Ripemd160) (g : LocalDelta) : Ripemd160 :=
  ripemd g.hashBytes

/-- `std::hash<local_delta>`: the first eight bytes of the hash. -/
def hashCode (ripemd : List UInt8 → Ripemd160) (g : LocalDelta) : UInt64 :=
  (g.computeHash ripemd).w0

/-- What a hash table of pools tells apart: the hash code, and `==`. A pool has
no `==` of its own, so that is the one of its base `array`, the policies. -/
def key (ripemd : List UInt8 → Ripemd160) (g : LocalDelta) : UInt64 × Policies 1 :=
  (g.hashCode ripemd, g.policies)

/-- `local_delta::to_stream`. -/
def words (fmt : Format) (g : LocalDelta) : List Text :=
  natText (Table.keyList g.accounts).length ::
    ((Table.toList g.accounts).flatMap fun e =>
      [e.1.toB58, e.2.lockingProgram.toB58, intText e.2.box]) ++
    intText g.fees :: policiesWords fmt g.policies

/-- The words of a cash contribution have no blanks. -/
theorem blankFree_words (fmt : Format) (g : LocalDelta) : ∀ w ∈ g.words fmt, BlankFree w := by
  intro w hw
  simp only [words, List.cons_append, List.mem_cons, List.mem_append, List.mem_flatMap,
    List.not_mem_nil, or_false] at hw
  rcases hw with rfl | ⟨e, -, rfl | rfl | rfl⟩ | rfl | hw
  · exact blankFree_natText _
  · exact Ripemd160.blankFree_toB58 _
  · exact Ripemd160.blankFree_toB58 _
  · exact blankFree_intText _
  · exact blankFree_intText _
  · exact blankFree_policiesWords fmt _ w hw

end LocalDelta

/-- `cash::app::delta`, with the table `m` of the majority merger. -/
structure Delta extends PoliciesDelta 1 where
  g : LocalDelta
  m : Table (UInt64 × Policies 1) (LocalDelta × ℕ)

namespace Delta

/-- The delta as it is created. -/
def create : Delta := ⟨PoliciesDelta.create, LocalDelta.create, ∅⟩

/-- `cash::app::delta::merge`. -/
def merge (ripemd : List UInt8 → Ripemd160) (d : Delta) (other : LocalDelta) : Delta where
  toPoliciesDelta := d.toPoliciesDelta.merge other.policies
  g := d.g
  m := classAdd (LocalDelta.key ripemd) d.m other

/-- An order in which the hash table of the majority merger may list its entries. -/
abbrev Listing := List (Σ _ : UInt64 × Policies 1, LocalDelta × ℕ)

/-- `cash::app::delta::end_merge`, when the table lists its entries as given:
`majority_merger::end_merge` takes the first that none of the others exceeds. -/
def endMerge (d : Delta) (entries : Listing) : Delta where
  toPoliciesDelta := d.toPoliciesDelta.endMerge
  g := (firstMost (entries.map Sigma.snd)).getD LocalDelta.create
  m := ∅

/-- `cash::app::delta::to_stream`: the pool with the policies of its sender,
then the averaged ones. -/
def words (fmt : Format) (d : Delta) : List Text :=
  d.g.words fmt ++ policiesWords fmt d.policies

/-- Merging contributions merges their policies and classes. -/
theorem foldl_merge (ripemd : List UInt8 → Ripemd160) (gs : List LocalDelta) (d : Delta) :
    gs.foldl (merge ripemd) d =
      ⟨(gs.map LocalDelta.policies).foldl PoliciesDelta.merge d.toPoliciesDelta, d.g,
        gs.foldl (classAdd (LocalDelta.key ripemd)) d.m⟩ := by
  induction gs generalizing d with
  | nil => rfl
  | cons g gs ih =>
    rw [List.foldl_cons, ih]
    rfl

/-- The delta that merges pools. -/
def merged (ripemd : List UInt8 → Ripemd160) (gs : List LocalDelta) (entries : Listing) : Delta :=
  (gs.foldl (merge ripemd) create).endMerge entries

/-- The hash table of the majority merger may list its entries in this order
after the pools are merged. -/
def MergeLists (ripemd : List UInt8 → Ripemd160) (gs : List LocalDelta) (entries : Listing) :
    Prop :=
  (entries : Multiset _) = (gs.foldl (merge ripemd) create).m.entries

/-- Listings are compared with the merged table. -/
instance (ripemd : List UInt8 → Ripemd160) (gs : List LocalDelta) (entries : Listing) :
    Decidable (MergeLists ripemd gs entries) :=
  inferInstanceAs (Decidable (_ = _))

/-- The pool of a delta is one of those that were merged. -/
theorem merged_g_mem {ripemd : List UInt8 → Ripemd160} {gs : List LocalDelta}
    {entries : Listing} (h : MergeLists ripemd gs entries) :
    (merged ripemd gs entries).g ∈ gs ∨ (merged ripemd gs entries).g = LocalDelta.create := by
  unfold MergeLists at h
  have hm : (gs.foldl (merge ripemd) create).m = classes (LocalDelta.key ripemd) gs := by
    rw [foldl_merge]
    rfl
  cases gs with
  | nil =>
    have hnil : entries = [] := by
      rw [← Multiset.coe_eq_zero, h]
      rfl
    right
    rw [hnil]
    rfl
  | cons g gs =>
    rw [hm] at h
    obtain ⟨r, hr, hmost⟩ := exists_firstMost_classes (List.cons_ne_nil g gs) h
    left
    simp only [merged, endMerge, hr, Option.getD_some]
    exact hmost.1

/-- The pool of a single contributor is the pool of the delta. -/
theorem merged_g_singleton {ripemd : List UInt8 → Ripemd160} {g : LocalDelta} {entries : Listing}
    (h : MergeLists ripemd [g] entries) : (merged ripemd [g] entries).g = g := by
  have hm : ([g].foldl (merge ripemd) create).m = classes (LocalDelta.key ripemd) [g] := by
    rw [foldl_merge]
    rfl
  unfold MergeLists at h
  rw [hm] at h
  obtain ⟨r, hr, hmost⟩ := exists_firstMost_classes (List.cons_ne_nil g []) h
  simp only [merged, endMerge, hr, Option.getD_some]
  exact List.mem_singleton.mp hmost.1

/-- The words of the cash section have no blanks. -/
theorem blankFree_words (fmt : Format) (d : Delta) : ∀ w ∈ d.words fmt, BlankFree w := by
  intro w hw
  rcases List.mem_append.mp hw with hw | hw
  · exact d.g.blankFree_words fmt w hw
  · exact blankFree_policiesWords fmt _ w hw

end Delta

end AcCore.Gov.Cash
