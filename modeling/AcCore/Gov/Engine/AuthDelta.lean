import AcCore.Gov.Engine.Policies
import AcCore.Lib.Table

/-!
# What the auth app contributes

A contribution of the auth app (app 20) lists candidates for the hall, with
their addresses. The delta that merges them keeps the first address that it
gets for a key.
-/

namespace AcCore.Gov.Engine.Auth

open Lib

/-- `auth::app::id`. -/
def appId : ℕ := 20

/-- `auth::address`: a string that is read from and written to streams as one
word. -/
abbrev Address := { w : Text // BlankFree w }

/-- `auth::app::local_delta`. -/
structure LocalDelta where
  policies : Policies 2
  toHall : List (Ripemd160 × Address)

/-- `local_delta::to_stream`. -/
def LocalDelta.words (fmt : Format) (g : LocalDelta) : List Text :=
  natText g.toHall.length :: (g.toHall.flatMap fun e => [e.1.toB58, e.2.val]) ++
    policiesWords fmt g.policies

/-- `auth::app::delta`. -/
structure Delta extends PoliciesDelta 2 where
  toHall : Table Ripemd160 Address

namespace Delta

/-- The delta as it is created. -/
def create : Delta := ⟨PoliciesDelta.create, ∅⟩

/-- Emplaces the entries of a list one after the other. -/
def emplaceAll (t : Table Ripemd160 Address) (es : List (Ripemd160 × Address)) :
    Table Ripemd160 Address :=
  es.foldl (fun t e => Table.emplace e.1 e.2 t) t

/-- `auth::app::delta::merge`. -/
def merge (d : Delta) (other : LocalDelta) : Delta where
  toPoliciesDelta := d.toPoliciesDelta.merge other.policies
  toHall := emplaceAll d.toHall other.toHall

/-- `end_merge`, inherited from `policies_delta`. -/
def endMerge (d : Delta) : Delta := { d with toPoliciesDelta := d.toPoliciesDelta.endMerge }

/-- The entries of `to_hall` as `to_stream` writes them. -/
def hallWords (t : Table Ripemd160 Address) : List Text :=
  (Table.keyList t).flatMap fun k => [k.toB58, ((t.lookup k).map Subtype.val).getD []]

/-- `auth::app::delta::to_stream`. -/
def words (fmt : Format) (d : Delta) : List Text :=
  natText (Table.keyList d.toHall).length :: hallWords d.toHall ++
    policiesWords fmt d.policies

/-- The first address of a list for a key. -/
def firstAddress (es : List (Ripemd160 × Address)) (k : Ripemd160) : Option Address :=
  (es.find? fun e => e.1 = k).map Prod.snd

/-- Emplacing keeps what is there, and otherwise the first that comes. -/
theorem lookup_emplaceAll (t : Table Ripemd160 Address) (es : List (Ripemd160 × Address))
    (k : Ripemd160) : (emplaceAll t es).lookup k = (t.lookup k).or (firstAddress es k) := by
  induction es generalizing t with
  | nil => simp [emplaceAll, firstAddress]
  | cons e es ih =>
    have hstep : emplaceAll t (e :: es) = emplaceAll (Table.emplace e.1 e.2 t) es := rfl
    rw [hstep, ih, Table.lookup_emplace]
    by_cases hk : e.1 = k
    · subst hk
      cases t.lookup e.1 <;> simp [firstAddress]
    · simp [firstAddress, hk, Ne.symm hk]

/-- Merging contributions merges their policies and adds their candidates to the hall. -/
theorem foldl_merge (gs : List LocalDelta) (d : Delta) :
    gs.foldl merge d =
      ⟨(gs.map LocalDelta.policies).foldl PoliciesDelta.merge d.toPoliciesDelta,
        emplaceAll d.toHall (gs.flatMap LocalDelta.toHall)⟩ := by
  induction gs generalizing d with
  | nil => rfl
  | cons g gs ih =>
    rw [List.foldl_cons, ih]
    simp [merge, emplaceAll, List.foldl_append]

/-- Two halls with the same keys and different addresses are written differently. -/
theorem hallWords_inj {t t' : Table Ripemd160 Address}
    (hkeys : ∀ k, k ∈ t ↔ k ∈ t') (h : hallWords t = hallWords t') : t = t' := by
  unfold hallWords at h
  rw [← Table.keyList_congr hkeys] at h
  have heach : ∀ ks : List Ripemd160,
      (ks.flatMap fun k => [k.toB58, ((t.lookup k).map Subtype.val).getD []]) =
        (ks.flatMap fun k => [k.toB58, ((t'.lookup k).map Subtype.val).getD []]) →
      ∀ k ∈ ks, ((t.lookup k).map Subtype.val).getD [] =
        ((t'.lookup k).map Subtype.val).getD [] := by
    intro ks
    induction ks with
    | nil => simp
    | cons k ks ih =>
      intro h
      simp only [List.flatMap_cons, List.cons_append, List.nil_append, List.cons.injEq,
        true_and] at h
      intro k' hk'
      rcases List.mem_cons.mp hk' with rfl | hk'
      · exact h.1
      · exact ih h.2 k' hk'
  apply Finmap.ext_lookup
  intro k
  by_cases hk : k ∈ t
  · obtain ⟨a, ha⟩ := Finmap.mem_iff.mp hk
    obtain ⟨a', ha'⟩ := Finmap.mem_iff.mp ((hkeys k).mp hk)
    have := heach _ h k (Table.mem_keyList.mpr hk)
    rw [ha, ha'] at this ⊢
    exact congrArg some (Subtype.ext (by simpa using this))
  · rw [Finmap.lookup_eq_none.mpr hk, Finmap.lookup_eq_none.mpr (mt (hkeys k).mpr hk)]

/-- Every candidate prints as two words. -/
theorem length_hallWords (t : Table Ripemd160 Address) :
    (hallWords t).length = 2 * (Table.keyList t).length := by
  simp [hallWords, List.length_flatMap, mul_comm]

/-- The words of the auth section have no blanks. -/
theorem blankFree_words (fmt : Format) (d : Delta) : ∀ w ∈ d.words fmt, BlankFree w := by
  intro w hw
  simp only [words, hallWords, List.cons_append, List.mem_cons, List.mem_append,
    List.mem_flatMap, List.not_mem_nil, or_false] at hw
  rcases hw with rfl | ⟨k, -, rfl | rfl⟩ | hw
  · exact blankFree_natText _
  · exact Ripemd160.blankFree_toB58 k
  · cases d.toHall.lookup k with
    | none =>
      intro c hc
      cases hc
    | some a => exact a.2
  · exact blankFree_policiesWords fmt _ w hw

end Delta

end AcCore.Gov.Engine.Auth
