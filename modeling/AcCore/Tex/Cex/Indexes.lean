import AcCore.Tex.Cex.Solvency

/-!
# The indexes of the exchange

An order is in the table of the engine, in a queue of a market, and in the table
of its account. The three agree as long as updates name own orders only, and no
trade takes an order off the books before it ends in an error.
-/

namespace AcCore.Tex.Cex

open Lib

namespace Engine

variable {e e' : Engine} {acid i : Id} {c cid : Cur} {gone : List Place} {o : Order} {s : Place}
  {m : Market} {fuel : ℕ} {weak buy priLow : Bool} {w : Wallet} {rate amount : ℤ} {y : Matching}
  {charge : Cur} {hash : Text → UInt64}

/-- The tables have the orders that rest, and each is tracked by its owner. -/
structure Indexed (e : Engine) : Prop extends e.Solvent where
  orders : ∀ i, i ∈ e.orders ↔ i ∈ e.listing.map Place.id
  tracked : ∀ a i, i ∈ e.tracked a ↔ i ∈ e.orders ∧ ownerOf e.pool i = some a

/-- The conditions under which the indexes stay in agreement: a trade that takes
an order off the books does not end in an error, and an update names an order of
its account. -/
def indexing (fuel : ℕ) : Guards where
  sell e acid m cid rate amount buy priLow :=
    ∀ a ∈ e.accounts.lookup acid, ∀ w ∈ a.wallets.lookup (chargeCur m cid buy),
      ∀ t ∈ m.trade fuel e.pool w cid rate amount buy priLow,
        t.2.2.2.error = true → t.2.2.2.ms.expiredOrders = []
  cancel e acid i := ownerOf e.pool i = some acid
  update e acid i _ := ownerOf e.pool i = some acid

/-! ## What moves -/

variable {cut : Id → ℤ} {made : Option (Place × Order)}

/-- The orders that rest after the books moved. -/
theorem Moved.rests (h : Moved e e' cut gone made) (he : e.MarketsOk) (j : Id) :
    j ∈ e'.listing.map Place.id ↔
      (j ∈ e.listing.map Place.id ∨ ∃ so ∈ made, so.1.id = j) ∧ j ∉ gone.map Place.id := by
  have hnodup := h.nodup he
  rw [List.map_append, List.nodup_append] at hnodup
  have hmem := (h.listing.map Place.id).mem_iff (a := j)
  have hmade : j ∈ (made.toList.map Prod.fst).map Place.id ↔ ∃ so ∈ made, so.1.id = j := by
    simp
  rw [List.map_append, List.map_append, List.mem_append, List.mem_append, hmade] at hmem
  constructor
  · intro hj
    exact ⟨(hmem.mp (Or.inr hj)).symm, fun hgone => hnodup.2.2 j hgone j hj rfl⟩
  · rintro ⟨hj, hgone⟩
    exact (hmem.mpr hj.symm).resolve_left hgone

/-- The owners of the orders after the books moved. -/
theorem Moved.owner_eq (h : Moved e e' cut gone made) (j : Id) (hgone : j ∉ gone.map Place.id) :
    ownerOf e'.pool j = made.elim (ownerOf e.pool j) fun so =>
      if so.1.id = j then some so.2.accountId else ownerOf e.pool j := by
  have hkept : (∀ so ∈ made, so.1.id ≠ j) → ownerOf e'.pool j = ownerOf e.pool j := by
    intro hj
    rw [ownerOf, h.kept j hj hgone, Option.map_map]
    rfl
  cases made with
  | none => exact hkept (by simp)
  | some so =>
    simp only [Option.elim]
    split_ifs with hj
    · rw [← hj, ownerOf, (h.new so rfl).2.2, Option.map_some]
    · exact hkept fun so' hso' => Option.mem_some_iff.mp hso' ▸ hj

/-- The indexes agree after the books moved when the orders that are made and
gone are tracked and untracked. -/
theorem Indexed.moved (he : e.Indexed) (hsolvent : e'.Solvent) (h : Moved e e' cut gone made)
    (htracked : ∀ a j, j ∈ e'.tracked a ↔
      (j ∈ e.tracked a ∨ ∃ so ∈ made, so.2.accountId = a ∧ so.1.id = j) ∧
        j ∉ gone.map Place.id) : e'.Indexed := by
  have horders : ∀ j, j ∈ e'.orders ↔ j ∈ e'.listing.map Place.id := fun j => by
    rw [h.orders, h.rests he.toMarketsOk, he.orders]
  refine ⟨hsolvent, horders, fun a j => ?_⟩
  rw [htracked, h.orders, and_assoc, and_comm (b := ownerOf e'.pool j = some a), ← and_assoc]
  refine and_congr_left fun hgone => ?_
  rw [h.owner_eq j hgone, he.tracked]
  cases made with
  | none => simp
  | some so =>
    have hnext := (h.new so rfl).1
    have hnew : so.1.id ∉ e.orders := by
      rw [he.orders, hnext]
      exact he.notMem_next
    simp only [Option.mem_some_iff, exists_eq_left', Option.elim]
    by_cases hj : so.1.id = j
    · subst hj
      simp [hnew]
    · simp [hj]

/-- A sale keeps the indexes in agreement. -/
theorem Indexed.sold {v : Option ℤ} (he : e.Indexed) (hsolvent : e'.Solvent)
    (h : Sold fuel e acid m weak charge w rate amount buy priLow e' y gone v) : e'.Indexed := by
  refine he.moved hsolvent h.moved fun a j => ?_
  rw [h.tracked]
  have hmade : (∃ so ∈ v.map fun v => (m.place weak (rate, e.pool.next),
      leftOrder m weak buy rate v acid e.pool.next), so.2.accountId = a ∧ so.1.id = j) ↔
      v ≠ none ∧ a = acid ∧ j = e.pool.next := by
    cases v with
    | none => simp
    | some v => simp [Market.place, leftOrder, Order.setData, eq_comm]
  rw [hmade]
  refine and_congr_right fun hj => not_congr ⟨fun hgone => hgone.1, fun hgone => ⟨hgone, ?_⟩⟩
  -- what is gone did rest, so its account tracked it as its owner
  rcases hj with hj | ⟨-, -, rfl⟩
  · exact ((he.tracked a j).mp hj).2
  · obtain ⟨s, hs, hid⟩ := List.mem_map.mp hgone
    exact absurd (hid ▸ List.mem_map_of_mem (h.moved.mem_of_gone hs)) he.notMem_next

/-- A trade that ends in an error and took no order leaves the indexes as they are. -/
theorem Indexed.failed (he : e.Indexed) (hsolvent : e'.Solvent)
    (h : Failed fuel e acid m weak charge cid w rate amount buy priLow e' y []) : e'.Indexed := by
  refine ⟨hsolvent, fun j => ?_, fun a j => ?_⟩
  · rw [h.orders, he.orders, (h.listing.map Place.id).mem_iff.symm]
    rfl
  · rw [h.tracked, h.orders, h.pool, ownerOf_fill, he.tracked]

/-- Cancelling keeps the indexes in agreement. -/
theorem Indexed.cancelled (he : e.Indexed) (hsolvent : e'.Solvent)
    (ho : e.pool.live.lookup s.id = some o) (howner : o.accountId = acid)
    (h : Cancelled e acid o s e') : e'.Indexed := by
  refine he.moved hsolvent h.moved fun a j => ?_
  rw [h.tracked]
  simp only [Option.not_mem_none, false_and, exists_false, or_false, List.map_cons, List.map_nil,
    List.mem_singleton]
  refine and_congr_right fun hj => not_congr ⟨fun hgone => hgone.2, fun hgone => ⟨?_, hgone⟩⟩
  have htracked := ((he.tracked a j).mp hj).2
  rw [hgone, ownerOf, ho, Option.map_some, howner] at htracked
  exact (Option.some.inj htracked).symm

/-- Updating keeps the indexes in agreement. -/
theorem Indexed.resized {ps : List ((Id × Cur) × ℤ)} (he : e.Indexed) (hsolvent : e'.Solvent)
    (howner : o.accountId = acid) (h : Resized ps e acid o s amount e') : e'.Indexed := by
  refine he.moved hsolvent h.moved fun a j => ?_
  rw [h.tracked]
  by_cases hle : amount ≤ o.value
  · simp [hle, not_lt.mpr hle]
  · simp [hle, not_le.mp hle, addedOrder, Order.setData, howner, eq_comm]

/-- What leaves the books alone keeps the indexes in agreement. -/
theorem Indexed.aside (he : e.Indexed) (hsolvent : e'.Solvent) (h : Aside e e') : e'.Indexed where
  toSolvent := hsolvent
  orders j := by rw [h.orders, h.listing, he.orders]
  tracked a j := by rw [h.tracked, h.orders, h.pool, he.tracked]

/-! ## The operations -/

/-- Every step of an operation keeps the indexes in agreement. -/
theorem Indexed.preserved (fuel : ℕ) (acid : Id) : Preserved (indexing fuel) fuel acid Indexed where
  sell he hm _ hamount hG h := by
    have hsolvent := he.toSolvent.sell hm hamount.le h
    obtain ⟨a, ha, ⟨-, rfl⟩ | ⟨w, m', p', w', r, y, gone, hw, htrade, ⟨-, v, -, hsold⟩ |
      ⟨herror, ht, hfailed⟩⟩⟩ := sell_spec he.toOk hm h
    · exact he
    · exact he.sold hsolvent hsold
    · have hnone := hG a ha w hw _ htrade herror
      rw [ht.expired, List.map_eq_nil_iff] at hnone
      subst hnone
      exact he.failed hsolvent hfailed
  cancel {e e' i found} he hG h := by
    have hsolvent := he.toSolvent.cancel h
    obtain ⟨o, ho, ⟨-, rfl, -⟩ | ⟨s, -, -, rfl, hcancelled⟩⟩ := cancel_spec he.toOk h
    · exact he
    · refine he.cancelled hsolvent ho ?_ hcancelled
      have howner : ownerOf e.pool s.id = some acid := by
        rcases hG with hG | hG | ⟨a, ha, hi⟩
        · exact hG
        · exact hG
        · rw [← tracked_of_lookup ha] at hi
          exact ((he.tracked acid s.id).mp hi).2
      rw [ownerOf, ho, Option.map_some] at howner
      exact Option.some.inj howner
  update {e e' i amount} he _ _ hG h := by
    have hsolvent := he.toSolvent.updateAmount h
    obtain ⟨o, ho, ⟨hsame, -, -⟩ | ⟨-, -, s, -, -, hresized⟩⟩ := updateAmount_spec he.toOk h
    · exact he.aside hsolvent hsame.aside
    · refine he.resized hsolvent ?_ hresized
      have howner : ownerOf e.pool i = some acid := hG
      rw [ownerOf, ho, Option.map_some] at howner
      exact Option.some.inj howner

/-- Every operation that meets the guards keeps the indexes in agreement. -/
theorem Indexed.step {op : Op} (he : e.Indexed) (hG : (indexing fuel).Op hash fuel e op)
    (h : Engine.step hash fuel e op = some e') : e'.Indexed :=
  Preserved.step (fun acid _ => Indexed.preserved fuel acid) he.toSolvent he.aside he hG h

/-- The indexes of the first engine agree: they are empty. -/
theorem Indexed.init (hash : Text → UInt64) : (Engine.init hash).Indexed := by
  have hlisting : (Engine.init hash).listing = [] := rfl
  have horders : (Engine.init hash).orders = ∅ := rfl
  refine ⟨Solvent.init hash, fun j => ?_, fun a j => ?_⟩
  · rw [hlisting, horders]
    simp
  · have hone : (Engine.init hash).tracked a = if a = 1 then _ else
        Engine.tracked { Engine.init hash with accounts := ∅ } a := tracked_insert rfl a
    have htracked : (Engine.init hash).tracked a = ∅ := by
      rw [hone]
      split_ifs <;> rfl
    rw [htracked, horders]
    simp

/-- An order that an account does not own, with nothing as its amount. -/
def sampleUpdate : AccountOp := .update [⟨['1'], ['0'], ['1', '.', '5']⟩]

/-- Another account that updates the order. -/
def sampleTheft : List Op :=
  let pwd := List.replicate 8 'q'
  [.newAccount pwd, .api 3 pwd sampleUpdate]

end Engine

end AcCore.Tex.Cex
