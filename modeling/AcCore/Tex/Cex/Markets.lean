import AcCore.Tex.Cex.Fronts

/-!
# The markets, consistent

A market is consistent when both of its fronts are and no order rests twice.
This file says what the operations of a market do to the places of its orders:
which are left, which are taken, and what becomes of the order objects.
-/

namespace AcCore.Tex.Cex

open Lib

/-- The place in which an order rests. -/
structure Place where
  weakCur : Cur
  strongCur : Cur
  weak : Bool
  rate : ℤ
  id : Id
  deriving DecidableEq, Repr

namespace Place

/-- The currency of what rests. -/
def cur (s : Place) : Cur := if s.weak then s.weakCur else s.strongCur

/-- The currency in which what rests is paid. -/
def otherCur (s : Place) : Cur := if s.weak then s.strongCur else s.weakCur

end Place

/-- The data of the order are those of its place. -/
structure Order.At (o : Order) (s : Place) : Prop where
  weak : o.weak = s.weak
  rate : o.rate = s.rate
  weakCur : o.weakCur = s.weakCur
  strongCur : o.strongCur = s.strongCur
  paidCur : o.paidCur = s.cur
  receivedCur : o.receivedCur = s.otherCur

/-- An order at a place is in the currency of the place. -/
theorem Order.At.valueCur {o : Order} {s : Place} (h : o.At s) : o.valueCur = s.cur := by
  rw [Order.valueCur, Place.cur, h.weak, h.weakCur, h.strongCur]

/-- An order stays at its place whatever its value. -/
theorem Order.At.withValue {o : Order} {s : Place} (h : o.At s) (v : ℤ) :
    Order.At { o with value := v } s :=
  ⟨h.weak, h.rate, h.weakCur, h.strongCur, h.paidCur, h.receivedCur⟩

namespace Market

/-- The place of an order in one of the fronts. -/
def place (m : Market) (weak : Bool) (e : ℤ × Id) : Place :=
  ⟨m.weakCurrency, m.strongCurrency, weak, e.1, e.2⟩

/-- The places of one front, in the order of the front. -/
def side (m : Market) (weak : Bool) : List Place := (m.front weak).listing.map (m.place weak)

/-- The places of both fronts. -/
def listing (m : Market) : List Place := m.side true ++ m.side false

/-- The market is consistent. -/
structure Ok (p : OrderPool) (m : Market) : Prop where
  front : ∀ weak, (m.front weak).Ok p
  invert : ∀ weak, (m.front weak).invertPriority = !weak
  ne : m.weakCurrency ≠ m.strongCurrency
  ruler : ∀ r, m.rulerDef.Lists r → 0 < r
  nodup : (m.listing.map Place.id).Nodup

variable {p p' : OrderPool} {m m' : Market} {weak : Bool} {f : Front} {i : Id}

/-- The front that was set. -/
@[simp] theorem front_setFront_self : (m.setFront weak f).front weak = f := by
  cases weak <;> rfl

/-- The front across from the one that was set. -/
@[simp] theorem front_setFront_not : (m.setFront (!weak) f).front weak = m.front weak := by
  cases weak <;> rfl

/-- Setting a front leaves the one across from it. -/
@[simp] theorem front_not_setFront : (m.setFront weak f).front (!weak) = m.front !weak := by
  cases weak <;> rfl

/-- Setting a front leaves the weak currency. -/
@[simp] theorem weakCurrency_setFront : (m.setFront weak f).weakCurrency = m.weakCurrency := by
  cases weak <;> rfl

/-- Setting a front leaves the strong currency. -/
@[simp] theorem strongCurrency_setFront :
    (m.setFront weak f).strongCurrency = m.strongCurrency := by
  cases weak <;> rfl

/-- Setting a front leaves both currencies. -/
@[simp] theorem currency_setFront (b : Bool) :
    (m.setFront weak f).currency b = m.currency b := by
  cases weak <;> rfl

/-- Setting a front leaves the ruler. -/
@[simp] theorem rulerDef_setFront : (m.setFront weak f).rulerDef = m.rulerDef := by
  cases weak <;> rfl

/-- Setting a front to itself changes nothing. -/
@[simp] theorem setFront_front : m.setFront weak (m.front weak) = m := by
  cases weak <;> rfl

/-- The orders of a side are those that its front lists. -/
theorem map_id_side : (m.side weak).map Place.id = (m.front weak).listing.map Prod.snd := by
  rw [side, List.map_map]
  rfl

/-- Both fronts make up the listing, whichever comes first. -/
theorem listing_perm (m : Market) (weak : Bool) : m.listing.Perm (m.side weak ++ m.side !weak) := by
  cases weak
  · exact List.perm_append_comm
  · exact List.Perm.refl _

/-- A place of the listing belongs to the front of its side. -/
theorem mem_listing {s : Place} (h : s ∈ m.listing) :
    (s.rate, s.id) ∈ (m.front s.weak).listing ∧ s = m.place s.weak (s.rate, s.id) := by
  rcases List.mem_append.mp h with h | h
  · obtain ⟨e, he, rfl⟩ := List.mem_map.mp h
    exact ⟨he, rfl⟩
  · obtain ⟨e, he, rfl⟩ := List.mem_map.mp h
    exact ⟨he, rfl⟩

/-- What a front lists is listed by the market. -/
theorem mem_listing_of_mem {e : ℤ × Id} (h : e ∈ (m.front weak).listing) :
    m.place weak e ∈ m.listing := by
  rw [(m.listing_perm weak).mem_iff]
  exact List.mem_append_left _ (List.mem_map_of_mem h)

/-- A market looks at the values of its own orders only. -/
theorem Ok.congr_value (hm : m.Ok p) (hnext : p.next ≤ p'.next)
    (h : ∀ i ∈ m.listing.map Place.id, p.SameValue p' i) : m.Ok p' where
  front weak := (hm.front weak).congr_value hnext fun i hi => h i (by
    obtain ⟨e, he, rfl⟩ := List.mem_map.mp hi
    exact List.mem_map.mpr ⟨m.place weak e, mem_listing_of_mem he, rfl⟩)
  invert := hm.invert
  ne := hm.ne
  ruler := hm.ruler
  nodup := hm.nodup

/-- Every order of a market has an object that is not empty. -/
theorem Ok.live (hm : m.Ok p) {s : Place} (hs : s ∈ m.listing) :
    ∃ o, p.live.lookup s.id = some o ∧ 1 ≤ o.value :=
  (hm.front s.weak).toQueuesOk.live (mem_listing hs).1

/-- The fronts of a market have different orders. -/
theorem Ok.disjoint (hm : m.Ok p) (h : i ∈ (m.front weak).listing.map Prod.snd) :
    i ∉ (m.front !weak).listing.map Prod.snd := by
  have hnodup := hm.nodup
  rw [((m.listing_perm weak).map Place.id).nodup_iff, List.map_append, List.nodup_append,
    map_id_side, map_id_side] at hnodup
  exact fun h' => hnodup.2.2 i h i h' rfl

/-- A market after one of its fronts was changed. -/
theorem Ok.setFront (hm : m.Ok p) (hf : f.Ok p') (hinvert : f.invertPriority = !weak)
    (hother : (m.front !weak).Ok p')
    (hnodup : ((m.setFront weak f).listing.map Place.id).Nodup) : (m.setFront weak f).Ok p' where
  front weak' := by
    by_cases h : weak' = weak
    · rw [h, front_setFront_self]
      exact hf
    · obtain rfl : weak' = !weak := by cases weak <;> cases weak' <;> simp_all
      rw [front_not_setFront]
      exact hother
  invert weak' := by
    by_cases h : weak' = weak
    · rw [h, front_setFront_self]
      exact hinvert
    · obtain rfl : weak' = !weak := by cases weak <;> cases weak' <;> simp_all
      rw [front_not_setFront]
      exact hm.invert _
  ne := by simpa using hm.ne
  ruler := by simpa using hm.ruler
  nodup := hnodup

/-- The side whose front was set. -/
theorem side_setFront_self :
    (m.setFront weak f).side weak = f.listing.map (m.place weak) := by
  rw [side, front_setFront_self]
  cases weak <;> rfl

/-- The side across from the front that was set. -/
theorem side_setFront_not : (m.setFront weak f).side (!weak) = m.side !weak := by
  rw [side, front_not_setFront]
  cases weak <;> rfl

/-- The listing of a market after one of its fronts was changed. -/
theorem listing_setFront :
    (m.setFront weak f).listing.Perm (f.listing.map (m.place weak) ++ m.side !weak) := by
  rw [← side_setFront_self, ← side_setFront_not (f := f)]
  exact listing_perm _ weak

/-! ## Cancelled and updated orders -/

/-- Where an order rests is where `has_order` says. -/
theorem hasOrder_iff (hm : m.Ok p) : m.weakFront.hasOrder i = true ↔
    i ∈ (m.front true).listing.map Prod.snd := by
  rw [Front.hasOrder, decide_eq_true_iff, ← Finmap.lookup_isSome, Option.isSome_iff_exists,
    List.mem_map]
  constructor
  · rintro ⟨r, hr⟩
    exact ⟨(r, i), ((hm.front true).byOrder i r).mp hr, rfl⟩
  · rintro ⟨⟨r, j⟩, hr, rfl⟩
    exact ⟨r, ((hm.front true).byOrder j r).mpr hr⟩

/-- A market looks for an order in the front that has it. -/
theorem hasOrder_eq (hm : m.Ok p) {s : Place} (hs : s ∈ m.listing) :
    m.weakFront.hasOrder s.id = s.weak := by
  obtain ⟨hmem, -⟩ := mem_listing hs
  cases hsw : s.weak with
  | true =>
    rw [hsw] at hmem
    exact (hasOrder_iff hm).mpr (List.mem_map_of_mem (f := Prod.snd) hmem)
  | false =>
    rw [hsw] at hmem
    rw [← Bool.not_eq_true, hasOrder_iff hm]
    have hstrong : s.id ∈ (m.front false).listing.map Prod.snd := List.mem_map_of_mem hmem
    exact hm.disjoint hstrong

/-- An order that the front in charge does not have is not in the market. -/
theorem notMem_listing (hm : m.Ok p)
    (h : ∀ r, (r, i) ∉ (m.front (m.weakFront.hasOrder i)).listing) :
    i ∉ m.listing.map Place.id := by
  intro hi
  obtain ⟨s, hs, rfl⟩ := List.mem_map.mp hi
  rw [hasOrder_eq hm hs] at h
  exact h _ (mem_listing hs).1

/-- What `cancel_order` returns. -/
theorem cancelOrder_spec {c : Option (Order × Market)} (hm : m.Ok p)
    (h : m.cancelOrder p i = some c) :
    (c = none ∧ i ∉ m.listing.map Place.id) ∨
      ∃ o m' s, p.live.lookup i = some o ∧ c = some (o, m') ∧ m'.Ok p ∧ s.id = i ∧
        m'.weakCurrency = m.weakCurrency ∧ m'.strongCurrency = m.strongCurrency ∧
        m.listing.Perm (s :: m'.listing) := by
  obtain ⟨c', hc, rfl⟩ := Option.map_eq_some_iff.mp h
  set weak := m.weakFront.hasOrder i with hweak
  rcases Front.cancelOrder_spec (hm.front weak) hc with
    ⟨rfl, hnot⟩ | ⟨o, f, r, ho, rfl, hf, -, hinvert, hperm⟩
  · exact Or.inl ⟨rfl, notMem_listing hm (hweak ▸ hnot)⟩
  · have hlisting : m.listing.Perm (m.place weak (r, i) :: (m.setFront weak f).listing) := by
      refine (m.listing_perm weak).trans ?_
      refine ((hperm.map (m.place weak)).append_right _).trans ?_
      rw [List.map_cons, List.cons_append]
      exact listing_setFront.symm.cons _
    have hnodup := hm.nodup
    rw [(hlisting.map Place.id).nodup_iff, List.map_cons, List.nodup_cons] at hnodup
    exact Or.inr ⟨o, m.setFront weak f, _, ho, rfl,
      hm.setFront hf (hinvert.trans (hm.invert weak)) (hm.front _) hnodup.2, rfl, by simp,
      by simp, hlisting⟩

/-- What `update_order` returns. -/
theorem updateOrder_spec {amount : ℤ} {no : Option Id} (hm : m.Ok p) (hp : p.Ok)
    (h : m.updateOrder p i amount = some (no, m', p')) :
    (no = none ∧ m' = m ∧ p' = p ∧ (amount < 1 ∨ i ∉ m.listing.map Place.id)) ∨
      ∃ o s, 1 ≤ amount ∧ s ∈ m.listing ∧ s.id = i ∧ p.live.lookup i = some o ∧
        no = (p.resize i o amount).1 ∧ p' = (p.resize i o amount).2 ∧ m'.Ok p' ∧
        m'.weakCurrency = m.weakCurrency ∧ m'.strongCurrency = m.strongCurrency ∧
        m'.listing.Perm (no.toList.map (fun j => { s with id := j }) ++ m.listing) := by
  obtain ⟨⟨no', f, p₁⟩, hupdate, hr⟩ := Option.map_eq_some_iff.mp h
  simp only [Prod.mk.injEq] at hr
  obtain ⟨rfl, rfl, rfl⟩ := hr
  set weak := m.weakFront.hasOrder i with hweak
  rcases Front.updateOrder_spec (hm.front weak) hp hupdate with
    ⟨rfl, rfl, rfl, hreason⟩ | ⟨o, r, hpos, hmem, ho, rfl, rfl, hf, -, hinvert, hperm⟩
  · refine Or.inl ⟨rfl, setFront_front, rfl, hreason.imp_right fun hnot => ?_⟩
    exact notMem_listing hm (hweak ▸ hnot)
  · have hlisting : (m.setFront weak f).listing.Perm
        ((p.resize i o amount).1.toList.map (fun j => { m.place weak (r, i) with id := j }) ++
          m.listing) := by
      refine listing_setFront.trans ?_
      refine ((hperm.map (m.place weak)).append_right _).trans ?_
      rw [List.map_append, List.append_assoc, List.map_map]
      exact (m.listing_perm weak).symm.append_left _
    have hfresh : p.next ∉ m.listing.map Place.id := by
      intro hnext
      obtain ⟨s, hs, hid⟩ := List.mem_map.mp hnext
      obtain ⟨o', ho', -⟩ := hm.live hs
      exact absurd hid (hp _ _ ho').2.ne
    have hnodup : ((m.setFront weak f).listing.map Place.id).Nodup := by
      rw [(hlisting.map Place.id).nodup_iff]
      cases hno : (p.resize i o amount).1 with
      | none => simpa using hm.nodup
      | some j =>
        rw [OrderPool.eq_next_of_mem_resize hno]
        simpa using ⟨by simpa using hfresh, hm.nodup⟩
    have hi : i ∈ (m.front weak).listing.map Prod.snd := List.mem_map.mpr ⟨(r, i), hmem, rfl⟩
    have hother : (m.front !weak).Ok (p.resize i o amount).2 := by
      refine (hm.front _).congr OrderPool.next_le_resize fun j hj => ?_
      refine OrderPool.lookup_resize_of_ne ?_ ?_
      · rintro rfl
        exact hm.disjoint hi hj
      · rintro rfl
        exact (hm.front _).toQueuesOk.notMem_next hp hj
    exact Or.inr ⟨o, m.place weak (r, i), hpos, mem_listing_of_mem hmem, rfl, ho, rfl, rfl,
      hm.setFront hf (hinvert.trans (hm.invert weak)) hother hnodup, by simp, by simp, hlisting⟩

end Market

end AcCore.Tex.Cex
