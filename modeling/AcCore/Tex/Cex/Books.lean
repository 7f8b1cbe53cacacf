import AcCore.Tex.Cex.Ledger

/-!
# The books of the exchange

The markets of the engine are consistent, no order rests twice, and the order
objects have the data of the places in which they rest. This file proves what
each operation on the books does to the places, to the order objects, to the
two tables and to the balances.
-/

namespace AcCore.Tex.Cex

open Lib

namespace Engine

/-- The places of all orders. -/
def listing (e : Engine) : List Place := e.markets.flatMap Market.listing

/-- The markets are consistent, and no order rests twice. -/
structure MarketsOk (e : Engine) : Prop where
  pool : e.pool.Ok
  keys : (e.markets.map Market.getKey).Nodup
  markets : ∀ m ∈ e.markets, m.Ok e.pool
  nodup : (e.listing.map Place.id).Nodup

/-- The books are consistent: the order objects have the data of their places. -/
structure Ok (e : Engine) : Prop extends MarketsOk e where
  placed : ∀ s ∈ e.listing, ∃ o, e.pool.live.lookup s.id = some o ∧ o.At s

variable {e e' e₁ : Engine} {m m' : Market} {p p' : OrderPool} {acid i : Id} {s : Place}

/-- The engine lists what its markets list. -/
theorem mem_listing : s ∈ e.listing ↔ ∃ m ∈ e.markets, s ∈ m.listing := List.mem_flatMap

/-- Every order of the books has an object that is not empty. -/
theorem MarketsOk.live (he : e.MarketsOk) (hs : s ∈ e.listing) :
    ∃ o, e.pool.live.lookup s.id = some o ∧ 1 ≤ o.value := by
  obtain ⟨m, hm, hs⟩ := mem_listing.mp hs
  exact (he.markets m hm).live hs

/-- The next id is in no book. -/
theorem MarketsOk.notMem_next (he : e.MarketsOk) : e.pool.next ∉ e.listing.map Place.id := by
  intro hmem
  obtain ⟨s, hs, hid⟩ := List.mem_map.mp hmem
  obtain ⟨o, ho, -⟩ := he.live hs
  exact absurd hid (he.pool _ _ ho).2.ne

/-- The market in which an order rests is found by the currencies of the place. -/
theorem MarketsOk.findMarket_eq (he : e.MarketsOk) (hm : m ∈ e.markets) (hs : s ∈ m.listing) :
    e.findMarket (marketKey s.weakCur s.strongCur) = some m := by
  rw [(Market.mem_listing hs).2]
  exact Keyed.get_of_mem he.keys hm

/-- An order that does not rest in the market of its data does not rest. -/
theorem Ok.notMem_listing (he : e.Ok) {o : Order} (ho : e.pool.live.lookup i = some o)
    (hm : e.findMarket (marketKey o.weakCur o.strongCur) = some m)
    (hi : i ∉ m.listing.map Place.id) : i ∉ e.listing.map Place.id := by
  intro hmem
  obtain ⟨s, hs, rfl⟩ := List.mem_map.mp hmem
  obtain ⟨m₁, hm₁, hs₁⟩ := mem_listing.mp hs
  obtain ⟨o₁, ho₁, hat⟩ := he.placed s hs
  obtain rfl : o = o₁ := Option.some.inj (ho.symm.trans ho₁)
  have hfound := he.findMarket_eq hm₁ hs₁
  rw [← hat.weakCur, ← hat.strongCur, hm] at hfound
  obtain rfl := Option.some.inj hfound
  exact hi (List.mem_map_of_mem hs₁)

/-- The books look at the values of the orders that rest. -/
theorem MarketsOk.congr_value (he : e.MarketsOk) (hmarkets : e'.markets = e.markets)
    (hpool : e'.pool.Ok) (hnext : e.pool.next ≤ e'.pool.next)
    (h : ∀ i ∈ e.listing.map Place.id, e.pool.SameValue e'.pool i) : e'.MarketsOk where
  pool := hpool
  keys := by
    rw [hmarkets]
    exact he.keys
  markets m hm := by
    rw [hmarkets] at hm
    refine (he.markets m hm).congr_value hnext fun i hi => h i ?_
    obtain ⟨s, hs, rfl⟩ := List.mem_map.mp hi
    exact List.mem_map_of_mem (mem_listing.mpr ⟨m, hm, hs⟩)
  nodup := by
    rw [listing, hmarkets]
    exact he.nodup

/-- The engine stays well formed when the objects of its orders stay. -/
theorem Ok.congr_value (he : e.Ok) (hmarkets : e'.markets = e.markets) (hpool : e'.pool.Ok)
    (hnext : e.pool.next ≤ e'.pool.next)
    (h : ∀ i ∈ e.listing.map Place.id, e'.pool.live.lookup i = e.pool.live.lookup i) : e'.Ok where
  toMarketsOk := he.toMarketsOk.congr_value hmarkets hpool hnext fun i hi => .of_eq (h i hi)
  placed s hs := by
    rw [listing, hmarkets] at hs
    rw [h s.id (List.mem_map_of_mem hs)]
    exact he.placed s hs

/-- Payments leave the books as they are. -/
theorem SameBooks.ok (h : SameBooks e e') (he : e.Ok) : e'.Ok :=
  he.congr_value h.markets (h.pool ▸ he.pool) (by rw [h.pool]) fun i _ => by rw [h.pool]

/-- Orders that do not rest can be removed. -/
theorem Removed.ok {ids : List Id} (h : Removed ids e e') (he : e.Ok)
    (hids : ∀ j ∈ ids, j ∉ e.listing.map Place.id) : e'.Ok := by
  refine he.congr_value h.markets ?_ h.next.ge fun i hi => ?_
  · intro i o ho
    rw [h.pool] at ho
    split_ifs at ho
    rw [h.next]
    exact he.pool i o ho
  · rw [h.pool, if_neg fun hmem => hids i hmem hi]

/-! ## Writing a market -/

/-- Setting a market to itself changes nothing. -/
theorem setMarket_self (he : e.MarketsOk) {k : Cur × Cur} (hm : e.findMarket k = some m) :
    e.setMarket m = e := by
  have hput : Keyed.put Market.getKey e.markets m = e.markets := by
    conv_rhs => rw [← List.map_id e.markets]
    refine List.map_congr_left fun m₁ hm₁ => ?_
    dsimp only [id_eq]
    split_ifs with hkey
    · exact (List.inj_on_of_nodup_map he.keys hm₁ (Keyed.mem_of_get hm) hkey).symm
    · rfl
  rw [setMarket, hput]

/-- The places of a market that is written take the place of those it had. -/
theorem listing_setMarket (he : e.MarketsOk) (hm : e.findMarket m'.getKey = some m) :
    (m.listing ++ (e.setMarket m').listing).Perm (m'.listing ++ e.listing) := by
  have hsum := Keyed.sum_put (fun m => (m.listing : Multiset Place)) he.keys hm
  have hflat : ∀ ms : List Market,
      (ms.map fun m => (m.listing : Multiset Place)).sum =
        (ms.flatMap Market.listing : List Place) := by
    intro ms
    induction ms with
    | nil => rfl
    | cons m ms ih =>
      rw [List.map_cons, List.sum_cons, ih, List.flatMap_cons, Multiset.coe_add]
  rw [hflat, hflat, Multiset.coe_add, Multiset.coe_add, Multiset.coe_eq_coe] at hsum
  exact hsum

/-- Different markets have different orders. -/
theorem MarketsOk.disjoint (he : e.MarketsOk) (hm : m ∈ e.markets) (hm' : m' ∈ e.markets)
    (hne : m' ≠ m) (hi : i ∈ m'.listing.map Place.id) : i ∉ m.listing.map Place.id := by
  intro hmem
  obtain ⟨s, hs, rfl⟩ := List.mem_map.mp hi
  obtain ⟨s', hs', hsame⟩ := List.mem_map.mp hmem
  have heq := List.inj_on_of_nodup_map he.nodup (mem_listing.mpr ⟨m, hm, hs'⟩)
    (mem_listing.mpr ⟨m', hm', hs⟩) hsame
  subst heq
  have hfound := he.findMarket_eq hm hs'
  rw [he.findMarket_eq hm' hs] at hfound
  exact hne (Option.some.inj hfound)

/-- The markets stay well formed when one is replaced by a well-formed one. -/
theorem MarketsOk.setMarket (he : e.MarketsOk) (hm : e.findMarket m'.getKey = some m)
    (hm' : m'.Ok p') (hp' : p'.Ok) (hnext : e.pool.next ≤ p'.next)
    (hother : ∀ j ∈ e.listing.map Place.id, j ∉ m.listing.map Place.id →
      p'.live.lookup j = e.pool.live.lookup j)
    (hnodup : ((e.setMarket m').listing.map Place.id).Nodup) :
    MarketsOk { e.setMarket m' with pool := p' } where
  pool := hp'
  keys := by
    change ((Keyed.put Market.getKey e.markets m').map Market.getKey).Nodup
    rw [Keyed.map_key_put]
    exact he.keys
  markets m₁ hm₁ := by
    rcases Keyed.mem_put hm₁ with rfl | ⟨hm₁, hkey⟩
    · exact hm'
    · have hne : m₁ ≠ m := fun heq => hkey (heq ▸ Keyed.key_of_get hm)
      refine (he.markets m₁ hm₁).congr_value hnext fun j hj => .of_eq (hother j ?_
        (he.disjoint (Keyed.mem_of_get hm) hm₁ hne hj))
      obtain ⟨s, hs, rfl⟩ := List.mem_map.mp hj
      exact List.mem_map_of_mem (mem_listing.mpr ⟨m₁, hm₁, hs⟩)
  nodup := hnodup

/-- Markets of the same currencies have the same key. -/
theorem getKey_eq (hweak : m'.weakCurrency = m.weakCurrency)
    (hstrong : m'.strongCurrency = m.strongCurrency) : m'.getKey = m.getKey := by
  rw [Market.getKey, Market.getKey, hweak, hstrong]

/-! ## What moves -/

/-- What an operation does to the books: the orders of some places are gone, an
order is made, and the values of the others are cut. -/
structure Moved (e e' : Engine) (cut : Id → ℤ) (gone : List Place)
    (made : Option (Place × Order)) : Prop where
  ok : e'.Ok
  listing : (gone ++ e'.listing).Perm (made.toList.map Prod.fst ++ e.listing)
  new : ∀ so ∈ made, so.1.id = e.pool.next ∧ so.2.At so.1 ∧
    e'.pool.live.lookup so.1.id = some so.2
  kept : ∀ j, (∀ so ∈ made, so.1.id ≠ j) → j ∉ gone.map Place.id →
    e'.pool.live.lookup j = (e.pool.live.lookup j).map fun o => { o with value := o.value - cut j }
  dropped : ∀ j ∈ gone.map Place.id, e'.pool.live.lookup j = none
  next : e.pool.next ≤ e'.pool.next
  orders : ∀ j, j ∈ e'.orders ↔
    (j ∈ e.orders ∨ ∃ so ∈ made, so.1.id = j) ∧ j ∉ gone.map Place.id

variable {cut : Id → ℤ} {gone : List Place} {made : Option (Place × Order)}

/-- The ids of the places, before and after, are all different. -/
theorem nodup_of_perm (he : e.MarketsOk) {l : List Place}
    (hfresh : ∀ so ∈ made, so.1.id = e.pool.next)
    (h : (gone ++ l).Perm (made.toList.map Prod.fst ++ e.listing)) :
    ((gone ++ l).map Place.id).Nodup := by
  rw [(h.map Place.id).nodup_iff]
  cases made with
  | none => simpa using he.nodup
  | some so =>
    have hnext := he.notMem_next
    rw [← hfresh so rfl] at hnext
    simpa using ⟨by simpa using hnext, he.nodup⟩

/-- No order is both gone and listed, or listed twice. -/
theorem Moved.nodup (h : Moved e e' cut gone made) (he : e.MarketsOk) :
    ((gone ++ e'.listing).map Place.id).Nodup :=
  nodup_of_perm he (fun so hso => (h.new so hso).1) h.listing

/-- What is gone did rest. -/
theorem Moved.mem_of_gone (h : Moved e e' cut gone made) (hs : s ∈ gone) : s ∈ e.listing := by
  have hmem := h.listing.mem_iff.mp (List.mem_append_left _ hs)
  rcases List.mem_append.mp hmem with hmem | hmem
  · obtain ⟨so, hso, rfl⟩ := List.mem_map.mp hmem
    have hnew := (h.new so (Option.mem_toList.mp hso)).2.2
    rw [h.dropped _ (List.mem_map_of_mem hs)] at hnew
    cases hnew
  · exact hmem

end Engine

end AcCore.Tex.Cex
