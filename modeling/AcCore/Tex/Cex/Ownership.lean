import AcCore.Tex.Cex.Indexes

/-!
# The orders of other accounts

What an account does to the orders of another is to match them: at their own
rates, and for what their owner receives. An update can do more: it does not ask
whose order it names.
-/

namespace AcCore.Tex.Cex

open Lib

/-- A match of an order at its own rate: what is paid and what is received agree
up to one rounding. -/
structure Order.Matched (o : Order) (i : MatchItem) : Prop where
  rate : i.rate = o.rate
  costCur : i.lay.costCur = o.paidCur
  receivedCur : i.lay.receivedCur = o.receivedCur
  cost : 1 ≤ i.lay.cost
  received : 1 ≤ i.lay.received
  price : toBack o.weak o.rate i.lay.cost = some i.lay.received ∨
    toLay o.weak o.rate i.lay.received = some i.lay.cost

/-- The value is too small to be matched at the rate of the order. -/
def Order.Dust (o : Order) (v : ℤ) : Prop :=
  ∃ buy, couldMatchProvidedBigAmount o.rate v o.weak buy = some false

namespace Engine

variable {e e' e₁ : Engine} {acid b i : Id} {c cid : Cur} {cut : Id → ℤ} {gone : List Place}
  {made : Option (Place × Order)} {o : Order} {s : Place} {m : Market} {fuel : ℕ}
  {weak buy priLow : Bool} {w : Wallet} {rate amount : ℤ} {y : Matching} {charge : Cur}
  {items items' : List MatchItem} {hash : Text → UInt64}

/-- What the order is for the account in the currency. -/
def share (b : Id) (c : Cur) (o : Order) : ℤ :=
  if o.accountId = b ∧ o.paidCur = c then o.value else 0

/-- What the account has in the currency, in its wallet and in its orders. -/
def wealth (e : Engine) (b : Id) (c : Cur) : ℤ :=
  e.balance (b, c) + Table.sum (share b c) e.pool.live

/-- What matches cost the orders in the currency. -/
def costs (items : List MatchItem) (c : Cur) : ℤ :=
  (items.map fun i => if i.lay.costCur = c then i.lay.cost else 0).sum

/-- What matches bring the owner of the orders in the currency, after the commission. -/
def proceeds (d : ℚ) (items : List MatchItem) (c : Cur) : ℤ :=
  (items.map fun i => if i.lay.receivedCur = c then (netcomm d i.lay.received).1 else 0).sum

/-- All that happens to the orders of the account is that they are matched, each
at its own rate; what is left of an order is removed when it cannot be matched.
They stay where they are, for whom they are tracked, and what the account has
goes down by the costs of the matches and up by what they bring. -/
structure Isolated (b : Id) (items : List MatchItem) (e e' : Engine) : Prop where
  matched : ∀ i ∈ items, ∃ o, e.pool.live.lookup i.layOrderId = some o ∧ o.accountId = b ∧
    o.Matched i
  kept : ∀ j o, e.pool.live.lookup j = some o → o.accountId = b →
    e'.pool.live.lookup j = some { o with value := o.value - OrderPool.filled items j } ∨
      (e'.pool.live.lookup j = none ∧ o.Dust (o.value - OrderPool.filled items j))
  new : ∀ j, ownerOf e'.pool j = some b → ownerOf e.pool j = some b
  rests : ∀ s ∈ e.listing, ownerOf e'.pool s.id = some b → s ∈ e'.listing
  tracked : ∀ a j, ownerOf e'.pool j = some b → (j ∈ e'.tracked a ↔ j ∈ e.tracked a)
  next : e.pool.next ≤ e'.pool.next
  dead : ∀ j < e.pool.next, e.pool.live.lookup j = none → e'.pool.live.lookup j = none
  discount : e'.discount b = e.discount b
  wealth : ∀ c, e.wealth b c - costs items c + proceeds (e.discount b) items c ≤ e'.wealth b c

/-- The owner of an order is the account that its object names. -/
theorem ownerOf_eq_some : ownerOf e.pool i = some b ↔
    ∃ o, e.pool.live.lookup i = some o ∧ o.accountId = b := Option.map_eq_some_iff

/-- What is isolated over two steps is isolated over both. -/
theorem Isolated.trans (he : e.Ok) (h : Isolated b items e e₁) (h' : Isolated b items' e₁ e') :
    Isolated b (items ++ items') e e' := by
  have hback : ∀ {j o₁}, e₁.pool.live.lookup j = some o₁ → o₁.accountId = b →
      ∃ o, e.pool.live.lookup j = some o ∧ o.accountId = b ∧
        o₁ = { o with value := o.value - OrderPool.filled items j } := by
    intro j o₁ ho₁ hb
    obtain ⟨o, ho, hob⟩ := ownerOf_eq_some.mp (h.new j (ownerOf_eq_some.mpr ⟨o₁, ho₁, hb⟩))
    refine ⟨o, ho, hob, ?_⟩
    rcases h.kept j o ho hob with hlook | ⟨hlook, -⟩
    · exact Option.some.inj (ho₁.symm.trans hlook)
    · rw [hlook] at ho₁
      cases ho₁
  refine ⟨fun i hi => ?_, fun j o ho hb => ?_, fun j hj => h.new j (h'.new j hj),
    fun s hs hj => h'.rests s (h.rests s hs (h'.new _ hj)) hj,
    fun a j hj => (h'.tracked a j hj).trans (h.tracked a j (h'.new j hj)), h.next.trans h'.next,
    fun j hj hnone => h'.dead j (hj.trans_le h.next) (h.dead j hj hnone),
    h'.discount.trans h.discount, fun c => ?_⟩
  · rcases List.mem_append.mp hi with hi | hi
    · exact h.matched i hi
    · obtain ⟨o₁, ho₁, hb, hmatched⟩ := h'.matched i hi
      obtain ⟨o, ho, hob, rfl⟩ := hback ho₁ hb
      exact ⟨o, ho, hob, hmatched.rate, hmatched.costCur, hmatched.receivedCur, hmatched.cost,
        hmatched.received, hmatched.price⟩
  · rw [OrderPool.filled_append, ← sub_sub]
    rcases h.kept j o ho hb with hlook | ⟨hlook, hdust⟩
    · exact h'.kept j _ hlook hb
    · have hzero : OrderPool.filled items' j = 0 := OrderPool.filled_eq_zero fun i hi hij => by
        obtain ⟨o₁, ho₁, -⟩ := h'.matched i hi
        rw [hij, hlook] at ho₁
        cases ho₁
      rw [hzero, sub_zero]
      exact Or.inr ⟨h'.dead j ((he.pool j o ho).2.trans_le h.next) hlook, hdust⟩
  · have hfirst := h.wealth c
    have hsecond := h'.wealth c
    rw [h.discount] at hsecond
    simp only [costs, proceeds, List.map_append, List.sum_append] at hfirst hsecond ⊢
    omega

/-! ## What an account has -/

/-- What is left of the orders that are gone, for the account in the currency. -/
def residue (e : Engine) (b : Id) (c : Cur) (cut : Id → ℤ) (s : Place) : ℤ :=
  Table.valueAt (fun o => if o.accountId = b ∧ o.paidCur = c then o.value - cut s.id else 0)
    e.pool.live s.id

/-- What matches take from one order. -/
theorem posted_costs {j : Id} (hitems : ∀ i ∈ items, ∃ o, e.pool.live.lookup i.layOrderId = some o ∧
      o.accountId = b ∧ o.Matched i) :
    posted (items.map fun i => (i.layOrderId, if i.lay.costCur = c then i.lay.cost else 0)) j =
      Table.valueAt (fun o => if o.accountId = b ∧ o.paidCur = c then
        OrderPool.filled items j else 0) e.pool.live j := by
  induction items with
  | nil =>
    unfold Table.valueAt
    cases e.pool.live.lookup j <;> simp
  | cons i items ih =>
    obtain ⟨o, ho, hb, hmatched⟩ := hitems i List.mem_cons_self
    rw [List.map_cons, posted_cons, ih fun i' hi' => hitems i' (List.mem_cons_of_mem _ hi')]
    by_cases hj : i.layOrderId = j
    · subst hj
      simp only [Table.valueAt_of_lookup ho, OrderPool.filled_cons, if_true, hb, true_and,
        hmatched.costCur]
      split_ifs <;> omega
    · simp [OrderPool.filled_cons, hj]

/-- What the orders of an account come to after the books moved. -/
theorem Moved.sum_share (he : e.Ok) (h : Moved e e' cut gone made)
    (hitems : ∀ i ∈ items, ∃ o, e.pool.live.lookup i.layOrderId = some o ∧ o.accountId = b ∧
      o.Matched i)
    (hcut : ∀ j, ownerOf e.pool j = some b → cut j = OrderPool.filled items j)
    (hmade : ∀ so ∈ made, so.2.accountId ≠ b) (c : Cur) :
    Table.sum (share b c) e'.pool.live + (gone.map (e.residue b c cut)).sum =
      Table.sum (share b c) e.pool.live - costs items c := by
  set K := e.pool.live.keys ∪ e'.pool.live.keys with hK
  have hnodup : (gone.map Place.id).Nodup := by
    have hall := h.nodup he.toMarketsOk
    rw [List.map_append] at hall
    exact hall.of_append_left
  have hgone : ∀ s ∈ gone, ∃ o, e.pool.live.lookup s.id = some o := fun s hs => by
    obtain ⟨o, ho, -⟩ := he.live (h.mem_of_gone hs)
    exact ⟨o, ho⟩
  have hkey : ∀ {j o}, e.pool.live.lookup j = some o → j ∈ K := fun ho =>
    Finset.mem_union_left _ (Finmap.mem_keys.mpr (Finmap.mem_of_lookup_eq_some ho))
  have hcosts : ∑ j ∈ K, posted (items.map fun i =>
      (i.layOrderId, if i.lay.costCur = c then i.lay.cost else 0)) j = costs items c := by
    rw [sum_posted, postedTotal, List.map_map]
    · rfl
    · intro p hp
      obtain ⟨i, hi, rfl⟩ := List.mem_map.mp hp
      obtain ⟨o, ho, -⟩ := hitems i hi
      exact hkey ho
  have hresidue : ∑ j ∈ K, posted (gone.map fun s => (s.id, e.residue b c cut s)) j =
      (gone.map (e.residue b c cut)).sum := by
    rw [sum_posted, postedTotal, List.map_map]
    · rfl
    · intro p hp
      obtain ⟨s, hs, rfl⟩ := List.mem_map.mp hp
      obtain ⟨o, ho⟩ := hgone s hs
      exact hkey ho
  rw [Table.sum_eq_sum_valueAt _ (t := e'.pool.live) (K := K) Finset.subset_union_right,
    Table.sum_eq_sum_valueAt _ (t := e.pool.live) (K := K) Finset.subset_union_left, ← hcosts,
    ← hresidue, ← Finset.sum_add_distrib, ← Finset.sum_sub_distrib]
  refine Finset.sum_congr rfl fun j _ => ?_
  rw [posted_costs hitems]
  by_cases hj : j ∈ gone.map Place.id
  · -- the order is gone: what is left of it goes back
    obtain ⟨s, hs, rfl⟩ := List.mem_map.mp hj
    obtain ⟨o, ho⟩ := hgone s hs
    have hone : posted (gone.map fun s => (s.id, e.residue b c cut s)) s.id =
        e.residue b c cut s := by
      refine posted_of_mem ?_ (p := (s.id, e.residue b c cut s)) (List.mem_map.mpr ⟨s, hs, rfl⟩)
      rw [List.map_map]
      exact hnodup
    rw [hone, residue, Table.valueAt_of_lookup ho, Table.valueAt_of_lookup ho,
      Table.valueAt_of_lookup ho, Table.valueAt, h.dropped _ hj]
    simp only [Option.elim, share]
    split_ifs with hshare
    · rw [hcut s.id (ownerOf_eq_some.mpr ⟨o, ho, hshare.1⟩)]
      omega
    · rfl
  · have hzero : posted (gone.map fun s => (s.id, e.residue b c cut s)) j = 0 :=
      posted_eq_zero fun p hp hpj => hj (by
        obtain ⟨s, hs, rfl⟩ := List.mem_map.mp hp
        exact hpj ▸ List.mem_map_of_mem hs)
    rw [hzero, add_zero]
    by_cases hnew : ∃ so ∈ made, so.1.id = j
    · -- the order that was made belongs to another account
      obtain ⟨so, hso, rfl⟩ := hnew
      have hnone := he.pool.notMem_next
      rw [← (h.new so hso).1] at hnone
      simp [Table.valueAt, hnone, (h.new so hso).2.2, share, hmade so hso]
    · have hother : ∀ so ∈ made, so.1.id ≠ j := fun so hso hid => hnew ⟨so, hso, hid⟩
      rw [Table.valueAt, h.kept j hother hj]
      cases ho : e.pool.live.lookup j with
      | none => simp [Table.valueAt, ho]
      | some o =>
        rw [Table.valueAt_of_lookup ho, Table.valueAt_of_lookup ho]
        simp only [Option.map_some, Option.elim, share]
        split_ifs with hshare
        · rw [hcut j (ownerOf_eq_some.mpr ⟨o, ho, hshare.1⟩)]
        · rfl

/-- Matches of orders of the account, when the books move as the matches say. -/
theorem Moved.isolated (he : e.Ok) (h : Moved e e' cut gone made)
    (hitems : ∀ i ∈ items, ∃ o, e.pool.live.lookup i.layOrderId = some o ∧ o.accountId = b ∧
      o.Matched i)
    (hcut : ∀ j, ownerOf e.pool j = some b → cut j = OrderPool.filled items j)
    (hmade : ∀ so ∈ made, so.2.accountId ≠ b)
    (hdust : ∀ s ∈ gone, ∀ o, e.pool.live.lookup s.id = some o → o.accountId = b →
      o.Dust (o.value - cut s.id))
    (htracked : ∀ a j, ownerOf e'.pool j = some b → (j ∈ e'.tracked a ↔ j ∈ e.tracked a))
    (hdiscount : e'.discount b = e.discount b)
    (hbalance : ∀ c, e.balance (b, c) + proceeds (e.discount b) items c +
      (gone.map (e.residue b c cut)).sum ≤ e'.balance (b, c)) : Isolated b items e e' := by
  have hfresh : ∀ {j o}, e.pool.live.lookup j = some o → ∀ so ∈ made, so.1.id ≠ j := by
    intro j o ho so hso hj
    have hnone := he.pool.notMem_next
    rw [← (h.new so hso).1, hj, ho] at hnone
    cases hnone
  refine ⟨hitems, fun j o ho hb => ?_, fun j hj => ?_, fun s hs hj => ?_, htracked, h.next,
    fun j hj hnone => ?_, hdiscount, fun c => ?_⟩
  · have hjb := hcut j (ownerOf_eq_some.mpr ⟨o, ho, hb⟩)
    rw [← hjb]
    by_cases hj : j ∈ gone.map Place.id
    · obtain ⟨s, hs, rfl⟩ := List.mem_map.mp hj
      exact Or.inr ⟨h.dropped _ hj, hdust s hs o ho hb⟩
    · refine Or.inl ?_
      rw [h.kept j (hfresh ho) hj, ho, Option.map_some]
  · have hgone : j ∉ gone.map Place.id := fun hgone => by
      rw [ownerOf, h.dropped j hgone] at hj
      cases hj
    rw [h.owner_eq j hgone] at hj
    cases made with
    | none => exact hj
    | some so =>
      simp only [Option.elim] at hj
      split_ifs at hj
      · exact absurd (Option.some.inj hj) (hmade so rfl)
      · exact hj
  · have hmem := h.listing.mem_iff.mpr (List.mem_append_right _ hs)
    refine (List.mem_append.mp hmem).resolve_left fun hgone => ?_
    rw [ownerOf, h.dropped _ (List.mem_map_of_mem hgone)] at hj
    cases hj
  · have hmadeNe : ∀ so ∈ made, so.1.id ≠ j := fun so hso hso' =>
      hj.ne (hso'.symm.trans (h.new so hso).1)
    by_cases hgone : j ∈ gone.map Place.id
    · exact h.dropped j hgone
    · rw [h.kept j hmadeNe hgone, hnone, Option.map_none]
  · have hsum := h.sum_share he hitems hcut hmade c
    have hb := hbalance c
    unfold Engine.wealth
    omega

/-! ## The parts of operations -/

/-- The matches of the orders of an account. -/
def matchesOf (p : OrderPool) (b : Id) (items : List MatchItem) : List MatchItem :=
  items.filter fun i => ownerOf p i.layOrderId = some b

/-- The matches of an account's own orders fill them as all the matches do. -/
theorem filled_matchesOf {p : OrderPool} {j : Id} (hj : ownerOf p j = some b) :
    OrderPool.filled (matchesOf p b items) j = OrderPool.filled items j := by
  induction items with
  | nil => rfl
  | cons i items ih =>
    unfold matchesOf at ih ⊢
    rw [List.filter_cons, OrderPool.filled_cons]
    split_ifs with howner hij hij
    · rw [OrderPool.filled_cons, if_pos hij, ih]
    · rw [OrderPool.filled_cons, if_neg hij, ih]
    · rw [hij] at howner
      exact absurd (decide_eq_true hj) howner
    · rw [ih, zero_add]

/-- What the matches bring the owner of an order is posted to him. -/
theorem Solvent.proceeds_le (he : e.Solvent) (hb : b ≠ acid)
    (hitems : ∀ i ∈ items, 0 ≤ i.lay.received ∧ 0 ≤ i.back.received) (c : Cur) :
    proceeds (e.discount b) (matchesOf e.pool b items) c ≤
      posted (items.flatMap (e.settlement acid)) (b, c) := by
  induction items with
  | nil => exact le_rfl
  | cons i items ih =>
    have hrest := ih fun i' hi' => hitems i' (List.mem_cons_of_mem _ hi')
    obtain ⟨hlay, hback⟩ := hitems i List.mem_cons_self
    have hnonneg : ∀ p ∈ e.settlement acid i, 0 ≤ p.2 := he.settlement_nonneg hlay hback
    rw [List.flatMap_cons, posted_append]
    unfold matchesOf at hrest ⊢
    rw [List.filter_cons]
    split_ifs with howner
    · obtain ⟨o, ho, haccount⟩ := ownerOf_eq_some.mp (of_decide_eq_true howner)
      have hpay : (if i.lay.receivedCur = c then (netcomm (e.discount b) i.lay.received).1 else 0) ≤
          posted (e.settlement acid i) (b, c) := by
        by_cases hc : i.lay.receivedCur = c
        · subst hc
          rw [if_pos rfl]
          refine le_posted hnonneg (p := ((b, i.lay.receivedCur), _)) ?_
          have hfree : ¬(acid = b ∧ e.autoMatchFree = true) := fun h => hb h.1.symm
          simp [settlement, ho, payment, parts, hfree, haccount]
        · rw [if_neg hc]
          exact posted_nonneg hnonneg _
      rw [proceeds, List.map_cons, List.sum_cons]
      exact add_le_add hpay hrest
    · have hzero := posted_nonneg hnonneg (b, c)
      omega

/-- What goes back for the orders that expire is what is left of them. -/
theorem posted_refunds {p : OrderPool} (hcut : ∀ s ∈ gone, ∀ o, e.pool.live.lookup s.id = some o →
      p.live.lookup s.id = some { o with value := o.value - cut s.id })
    (hlive : ∀ s ∈ gone, ∃ o, e.pool.live.lookup s.id = some o) (c : Cur) :
    posted ((gone.map Place.id).flatMap (refund p)) (b, c) =
      (gone.map (e.residue b c cut)).sum := by
  induction gone with
  | nil => rfl
  | cons s gone ih =>
    obtain ⟨o, ho⟩ := hlive s List.mem_cons_self
    have ho' := hcut s List.mem_cons_self o ho
    rw [List.map_cons, List.flatMap_cons, posted_append, List.map_cons, List.sum_cons,
      ih (fun s hs => hcut s (List.mem_cons_of_mem _ hs))
        fun s hs => hlive s (List.mem_cons_of_mem _ hs)]
    congr 1
    rw [refund, ho', residue, Table.valueAt_of_lookup ho]
    simp [Prod.ext_iff]

/-- A sale reaches the other accounts only through the matches of their orders. -/
theorem Solvent.isolated_sold {v : Option ℤ} (he : e.Solvent) {a : Account}
    (ha : e.accounts.lookup acid = some a) (hw : a.wallets.lookup charge = some w)
    (hm : e.findMarket m.getKey = some m) (hamount : 0 ≤ amount) (hb : b ≠ acid)
    (h : Sold fuel e acid m weak charge w rate amount buy priLow e' y gone v) :
    Isolated b (matchesOf e.pool b y.ms.items) e e' := by
  obtain ⟨m', p', w', r, ht, -⟩ := h.trade
  have hmem := Keyed.mem_of_get hm
  have hmOk := he.markets m hmem
  have hy := ht.solvent hmOk he.pool (he.wallet_nonneg ha hw) hamount
  have hside : ∀ i ∈ y.ms.items, m.place (!weak) (i.rate, i.layOrderId) ∈ e.listing := fun i hi =>
    mem_listing.mpr ⟨m, hmem, (m.listing_perm weak).mem_iff.mpr
      (List.mem_append_right _ (ht.fair i hi).2)⟩
  refine h.moved.isolated he.toOk (fun i hi => ?_) (fun j hj => (filled_matchesOf hj).symm)
    (fun so hso => ?_) (fun s hs o ho _ => ?_) (fun a j hj => ?_) (h.booked.discount b) fun c => ?_
  · obtain ⟨hi, howner⟩ := List.mem_filter.mp hi
    obtain ⟨hfair, -⟩ := ht.fair i hi
    obtain ⟨o, ho, hat⟩ := he.placed _ (hside i hi)
    obtain ⟨o', ho', haccount⟩ := ownerOf_eq_some.mp (of_decide_eq_true howner)
    obtain rfl : o = o' := Option.some.inj (Eq.trans (Eq.symm ho) ho')
    have hpositive := hy.items i hi
    refine ⟨o, ho, haccount, hat.rate.symm, hfair.layCostCur.trans ?_,
        hfair.layReceivedCur.trans ?_,
      hpositive.1, hfair.layReceived ▸ hpositive.2, ?_⟩
    · rw [hat.paidCur]
      cases weak <;> rfl
    · rw [hat.receivedCur]
      cases weak <;> rfl
    · rw [hat.rate, hat.weak, hfair.layCost, hfair.layReceived]
      exact hfair.rate
  · obtain ⟨v, -, rfl⟩ := Option.mem_map.mp hso
    exact hb.symm
  · obtain ⟨o', ho', hat⟩ := he.placed s (h.moved.mem_of_gone hs)
    obtain rfl : o = o' := Option.some.inj (ho.symm.trans ho')
    obtain ⟨hweak, o₁, ho₁, hdust⟩ := ht.dust hmOk he.pool hs
    rw [ht.matched_pool hmOk he.pool, OrderPool.lookup_fill, ho, Option.map_some] at ho₁
    obtain rfl := Option.some.inj ho₁
    rw [← hweak, ← hat.weak, ← hat.rate] at hdust
    exact ⟨buy, hdust⟩
  · have hgone : j ∉ gone.map Place.id := fun hgone => by
      rw [ownerOf, h.moved.dropped j hgone] at hj
      cases hj
    have hnext : ¬(v ≠ none ∧ a = acid ∧ j = e.pool.next) := by
      rintro ⟨hv, -, rfl⟩
      obtain ⟨v, rfl⟩ := Option.ne_none_iff_exists'.mp hv
      have hnew := (h.moved.new _ rfl).2.2
      dsimp only [Market.place] at hnew
      rw [ownerOf, hnew, Option.map_some] at hj
      exact hb (Option.some.inj hj).symm
    rw [h.tracked]
    simp [hgone, hnext]
  · have hdebit : ((acid, charge) : Id × Cur) ≠ (b, c) := fun h => hb (Prod.mk.inj h).1.symm
    have hproceeds : proceeds (e.discount b) (matchesOf e.pool b y.ms.items) c ≤
        posted (y.ms.items.flatMap (e.settlement acid)) (b, c) := by
      refine he.proceeds_le hb (fun i hi => ?_) c
      have hfair := (ht.fair i hi).1
      have hpositive := hy.items i hi
      rw [hfair.layReceived, ← hfair.layCost]
      exact ⟨zero_le_one.trans hpositive.2, zero_le_one.trans hpositive.1⟩
    have hrefunds : posted ((gone.map Place.id).flatMap (refund (e.pool.fill y.ms.items))) (b, c) =
        (gone.map (e.residue b c (OrderPool.filled y.ms.items))).sum := by
      refine posted_refunds (fun s _ o ho => ?_) (fun s hs => ?_) c
      · rw [OrderPool.lookup_fill, ho, Option.map_some]
      · obtain ⟨o, ho, -⟩ := he.live (h.moved.mem_of_gone hs)
        exact ⟨o, ho⟩
    rw [h.booked.balance, posted_cons, posted_append, hrefunds, debit, if_neg hdebit]
    omega

/-- Nothing happens to the orders of the account when the books and its wallets
stay as they are. -/
theorem Isolated.of_same (hpool : e'.pool = e.pool) (hlisting : e'.listing = e.listing)
    (htracked : ∀ a, e'.tracked a = e.tracked a) (hdiscount : e'.discount b = e.discount b)
    (hbalance : ∀ c, e.balance (b, c) ≤ e'.balance (b, c)) : Isolated b [] e e' where
  matched := by simp
  kept j o ho _ := Or.inl (by simp [hpool, ho])
  new j hj := hpool ▸ hj
  rests s hs _ := hlisting ▸ hs
  tracked a j _ := by rw [htracked]
  next := hpool ▸ le_rfl
  dead j _ hnone := hpool ▸ hnone
  discount := hdiscount
  wealth c := by
    have hb := hbalance c
    unfold Engine.wealth
    rw [hpool]
    simp only [costs, proceeds, List.map_nil, List.sum_nil]
    omega

/-- Where nothing happens an account is isolated. -/
theorem Isolated.refl (b : Id) (e : Engine) : Isolated b [] e e :=
  .of_same rfl rfl (fun _ => rfl) rfl fun _ => le_rfl

/-- A trade that ends in an error and matched no order of the account. -/
theorem Failed.isolated (hb : b ≠ acid)
    (hitems : ∀ i ∈ y.ms.items, ownerOf e.pool i.layOrderId = some acid)
    (hgone : ∀ s ∈ gone, ownerOf e.pool s.id = some acid)
    (h : Failed fuel e acid m weak charge cid w rate amount buy priLow e' y gone) :
    Isolated b [] e e' := by
  have howner : ∀ {j}, ownerOf e'.pool j = ownerOf e.pool j := by
    intro j
    rw [h.pool, ownerOf_fill]
  have hfilled : ∀ {j}, ownerOf e.pool j = some b → OrderPool.filled y.ms.items j = 0 := by
    intro j hj
    refine OrderPool.filled_eq_zero fun i hi hij => hb ?_
    have hi' := hitems i hi
    rw [hij, hj] at hi'
    exact Option.some.inj hi'
  have hkept : ∀ {j o}, e.pool.live.lookup j = some o → o.accountId = b →
      e'.pool.live.lookup j = some o := by
    intro j o ho hob
    rw [h.pool, OrderPool.lookup_fill, ho, Option.map_some,
      hfilled (ownerOf_eq_some.mpr ⟨o, ho, hob⟩), sub_zero]
  refine ⟨by simp, fun j o ho hob => Or.inl (by simp [hkept ho hob]), fun j hj => howner ▸ hj,
    fun s hs hj => ?_, fun a j _ => by rw [h.tracked], ?_, fun j _ hnone => ?_, h.booked.discount b,
    fun c => ?_⟩
  · have hmem := h.listing.mem_iff.mpr hs
    refine (List.mem_append.mp hmem).resolve_left fun hs => hb ?_
    have howned := hgone s hs
    rw [← howner, hj] at howned
    exact Option.some.inj howned
  · rw [h.pool, OrderPool.next_fill]
  · rw [h.pool, OrderPool.lookup_fill, hnone, Option.map_none]
  · have hshare : Table.sum (share b c) e'.pool.live = Table.sum (share b c) e.pool.live := by
      refine Table.sum_congr _ fun j => ?_
      rw [h.pool, Table.valueAt, OrderPool.lookup_fill]
      cases ho : e.pool.live.lookup j with
      | none => simp [Table.valueAt, ho]
      | some o =>
        rw [Table.valueAt_of_lookup ho]
        simp only [Option.map_some, Option.elim, share]
        split_ifs with hob
        · rw [hfilled (ownerOf_eq_some.mpr ⟨o, ho, hob.1⟩), sub_zero]
        · rfl
    have hdebit : ∀ {c' : Cur}, ((acid, c') : Id × Cur) ≠ (b, c) := fun h =>
      hb (Prod.mk.inj h).1.symm
    have hbalance : e'.balance (b, c) = e.balance (b, c) := by
      rw [h.booked.balance, posted_cons, posted_cons, posted_nil, debit, if_neg hdebit,
        if_neg hdebit]
      omega
    unfold Engine.wealth
    rw [hshare, hbalance]
    simp [costs, proceeds]

/-- Cancelling one's own order reaches no other account. -/
theorem Cancelled.isolated (he : e.Ok) (hb : b ≠ acid) (ho : e.pool.live.lookup s.id = some o)
    (howner : o.accountId = acid) (h : Cancelled e acid o s e') : Isolated b [] e e' := by
  have hnot : ownerOf e.pool s.id ≠ some b := by
    rw [ownerOf, ho, Option.map_some, howner]
    exact fun h => hb (Option.some.inj h).symm
  refine h.moved.isolated he (by simp) (fun _ _ => rfl) (by simp) (fun s' hs' o' ho' hob => ?_)
    (fun a j hj => ?_) (h.booked.discount b) fun c => ?_
  · obtain rfl := List.mem_singleton.mp hs'
    exact absurd (ownerOf_eq_some.mpr ⟨o', ho', hob⟩) hnot
  · have hne : j ≠ s.id := by
      rintro rfl
      rw [ownerOf, h.moved.dropped _ (by simp)] at hj
      cases hj
    rw [h.tracked]
    simp [hne]
  · have hresidue : e.residue b c (fun _ => 0) s = 0 := by
      rw [residue, Table.valueAt_of_lookup ho, if_neg]
      exact fun hob => hb (hob.1.symm.trans howner)
    have hdebit : ((acid, o.paidCur) : Id × Cur) ≠ (b, c) := fun h => hb (Prod.mk.inj h).1.symm
    rw [h.booked.balance, posted_cons, posted_nil, if_neg hdebit]
    simp [proceeds, hresidue]

/-- Updating one's own order reaches no other account. -/
theorem Resized.isolated {ps : List ((Id × Cur) × ℤ)} {v : ℤ} (he : e.Ok) (hb : b ≠ acid)
    (ho : e.pool.live.lookup s.id = some o) (howner : o.accountId = acid)
    (hps : ps = [((acid, o.paidCur), v)]) (h : Resized ps e acid o s amount e') :
    Isolated b [] e e' := by
  refine h.moved.isolated he (by simp) (fun j hj => ?_) (fun so hso => ?_) (by simp)
    (fun a j hj => ?_) (h.booked.discount b) fun c => ?_
  · refine if_neg fun hand => hb ?_
    rw [hand.1, ownerOf, ho, Option.map_some, howner] at hj
    exact (Option.some.inj hj).symm
  · split_ifs at hso with hle
    · cases hso
    · obtain rfl := Option.mem_some_iff.mp hso
      exact fun h => hb (h.symm.trans howner)
  · rw [h.tracked]
    refine ⟨fun hj' => hj'.resolve_right ?_, Or.inl⟩
    rintro ⟨hlt, -, rfl⟩
    have hnew := h.moved.new
    rw [if_neg (not_le.mpr hlt)] at hnew
    have hlook := (hnew _ rfl).2.2
    dsimp only at hlook
    rw [ownerOf, hlook, Option.map_some] at hj
    exact hb ((Option.some.inj hj).symm.trans howner)
  · have hdebit : ((acid, o.paidCur) : Id × Cur) ≠ (b, c) := fun h => hb (Prod.mk.inj h).1.symm
    rw [h.booked.balance, hps, posted_cons, posted_nil, if_neg hdebit]
    simp [proceeds]

/-! ## Who tracks an order -/

/-- Accounts track orders of their own only. -/
structure Owned (e : Engine) : Prop extends e.Solvent where
  own : ∀ a j, j ∈ e.tracked a → ownerOf e.pool j = some a

/-- The conditions under which the orders of others are only matched: a trade
that takes some of them does not end in an error, and an update names an order
of its account. -/
def owning (fuel : ℕ) : Guards where
  sell e acid m cid rate amount buy priLow :=
    ∀ a ∈ e.accounts.lookup acid, ∀ w ∈ a.wallets.lookup (chargeCur m cid buy),
      ∀ t ∈ m.trade fuel e.pool w cid rate amount buy priLow, t.2.2.2.error = true →
        (∀ i ∈ t.2.2.2.ms.items, ownerOf e.pool i.layOrderId = some acid) ∧
        ∀ j ∈ t.2.2.2.ms.expiredOrders, ownerOf e.pool j = some acid
  cancel e acid i := ownerOf e.pool i = some acid
  update e acid i _ := ownerOf e.pool i = some acid

/-- Orders stay owned when only tracked orders are added and those that go are untracked. -/
theorem Owned.moved (he : e.Owned) (hsolvent : e'.Solvent) (h : Moved e e' cut gone made)
    (htracked : ∀ a j, j ∈ e'.tracked a →
      (j ∈ e.tracked a ∨ ∃ so ∈ made, so.2.accountId = a ∧ so.1.id = j) ∧
        j ∉ gone.map Place.id) : e'.Owned := by
  refine ⟨hsolvent, fun a j hj => ?_⟩
  obtain ⟨hj, hgone⟩ := htracked a j hj
  rw [h.owner_eq j hgone]
  cases made with
  | none => exact he.own a j (hj.resolve_right (by simp))
  | some so =>
    simp only [Option.elim]
    rcases hj with hj | ⟨so', hso', rfl, rfl⟩
    · have howner := he.own a j hj
      have hne : so.1.id ≠ j := by
        rintro rfl
        rw [ownerOf, (h.new so rfl).1, he.pool.notMem_next] at howner
        cases howner
      rw [if_neg hne, howner]
    · obtain rfl := Option.mem_some_iff.mp hso'
      rw [if_pos rfl]

/-- A sale keeps the orders owned. -/
theorem Owned.sold {v : Option ℤ} (he : e.Owned) (hsolvent : e'.Solvent)
    (h : Sold fuel e acid m weak charge w rate amount buy priLow e' y gone v) : e'.Owned := by
  refine he.moved hsolvent h.moved fun a j hj => ?_
  obtain ⟨hj, hgone⟩ := (h.tracked a j).mp hj
  rcases hj with hj | ⟨hv, rfl, rfl⟩
  · exact ⟨Or.inl hj, fun hmem => hgone ⟨hmem, he.own a j hj⟩⟩
  · obtain ⟨v, rfl⟩ := Option.ne_none_iff_exists'.mp hv
    refine ⟨Or.inr ⟨_, rfl, rfl, rfl⟩, fun hmem => ?_⟩
    obtain ⟨s, hs, hid⟩ := List.mem_map.mp hmem
    exact he.notMem_next (hid ▸ List.mem_map_of_mem (h.moved.mem_of_gone hs))

/-- Cancelling keeps the orders owned. -/
theorem Owned.cancelled (he : e.Owned) (hsolvent : e'.Solvent)
    (ho : e.pool.live.lookup s.id = some o) (howner : o.accountId = acid)
    (h : Cancelled e acid o s e') : e'.Owned := by
  refine he.moved hsolvent h.moved fun a j hj => ?_
  obtain ⟨hj, hne⟩ := (h.tracked a j).mp hj
  refine ⟨Or.inl hj, fun hmem => hne ?_⟩
  obtain rfl : j = s.id := by simpa using hmem
  have hown := he.own a _ hj
  rw [ownerOf, ho, Option.map_some, howner] at hown
  exact ⟨(Option.some.inj hown).symm, rfl⟩

/-- Updating keeps the orders owned. -/
theorem Owned.resized {ps : List ((Id × Cur) × ℤ)} (he : e.Owned) (hsolvent : e'.Solvent)
    (howner : o.accountId = acid) (h : Resized ps e acid o s amount e') : e'.Owned := by
  refine he.moved hsolvent h.moved fun a j hj => ⟨?_, by simp⟩
  rcases (h.tracked a j).mp hj with hj | ⟨hlt, rfl, rfl⟩
  · exact Or.inl hj
  · rw [if_neg (not_le.mpr hlt)]
    exact Or.inr ⟨_, rfl, howner, rfl⟩

/-- What leaves the books alone keeps the orders owned. -/
theorem Owned.aside (he : e.Owned) (hsolvent : e'.Solvent) (h : Aside e e') : e'.Owned := by
  refine ⟨hsolvent, fun a j hj => ?_⟩
  rw [h.tracked] at hj
  rw [h.pool]
  exact he.own a j hj

/-! ## The operations -/

variable {e₀ : Engine}

/-- Every step of an operation on one account isolates the others. -/
theorem isolated_preserved (fuel : ℕ) (hb : b ≠ acid) (he₀ : e₀.Ok) :
    Preserved (owning fuel) fuel acid fun e => e.Owned ∧ ∃ items, Isolated b items e₀ e where
  sell := by
    rintro e e' m cid rate amount buy priLow ⟨he, items, hsofar⟩ hm - hamount hG h
    have hsolvent := he.toSolvent.sell hm hamount.le h
    obtain ⟨a, ha, ⟨-, rfl⟩ | ⟨w, m', p', w', r, y, gone, hw, htrade, ⟨-, v, -, hsold⟩ |
      ⟨herror, ht, hfailed⟩⟩⟩ := sell_spec he.toOk hm h
    · exact ⟨he, items, hsofar⟩
    · exact ⟨he.sold hsolvent hsold, _,
        hsofar.trans he₀ (he.isolated_sold ha hw hm hamount.le hb hsold)⟩
    · obtain ⟨hitems, hgone⟩ := hG a ha w hw _ htrade herror
      rw [ht.recorded] at hitems
      rw [ht.expired] at hgone
      refine ⟨⟨hsolvent, fun b j hj => ?_⟩, _, hsofar.trans he₀
        (hfailed.isolated hb hitems fun s hs => hgone _ (List.mem_map_of_mem hs))⟩
      rw [hfailed.tracked] at hj
      rw [hfailed.pool, ownerOf_fill]
      exact he.own b j hj
  cancel := by
    rintro e e' i found ⟨he, items, hsofar⟩ hG h
    have hsolvent := he.toSolvent.cancel h
    obtain ⟨o, ho, ⟨-, rfl, -⟩ | ⟨s, -, -, rfl, hcancelled⟩⟩ := cancel_spec he.toOk h
    · exact ⟨he, items, hsofar⟩
    · have howner : ownerOf e.pool s.id = some acid := by
        rcases hG with hG | hG | ⟨a, ha, hi⟩
        · exact hG
        · exact hG
        · rw [← tracked_of_lookup ha] at hi
          exact he.own acid s.id hi
      rw [ownerOf, ho, Option.map_some] at howner
      have hown := Option.some.inj howner
      exact ⟨he.cancelled hsolvent ho hown hcancelled, _,
        hsofar.trans he₀ (hcancelled.isolated he.toOk hb ho hown)⟩
  update := by
    rintro e e' i amount ⟨he, items, hsofar⟩ - - hG h
    have hsolvent := he.toSolvent.updateAmount h
    obtain ⟨o, ho, ⟨hsame, hbooked, -⟩ | ⟨-, -, s, -, rfl, hresized⟩⟩ := updateAmount_spec he.toOk h
    · refine ⟨he.aside hsolvent hsame.aside, _,
        hsofar.trans he₀ (.of_same hsame.pool ?_ hsame.tracked
        (hbooked.discount b) fun c => ?_)⟩
      · rw [listing, hsame.markets, ← listing]
      · have hdebit : ((acid, o.paidCur) : Id × Cur) ≠ (b, c) := fun h =>
          hb (Prod.mk.inj h).1.symm
        rw [hbooked.balance, posted_cons, posted_nil, if_neg hdebit]
        omega
    · have howner : ownerOf e.pool s.id = some acid := hG
      rw [ownerOf, ho, Option.map_some] at howner
      have hown := Option.some.inj howner
      exact ⟨he.resized hsolvent hown hresized, _,
        hsofar.trans he₀ (hresized.isolated he.toOk hb ho hown rfl)⟩

/-- Writing to an account leaves the others as they are. -/
theorem isolated_of_modify {f : Account → Account} (hf : ∀ a, (f a).orders = a.orders)
    (hb : b ≠ acid) (h : e.modifyAccount acid f = some e') : Isolated b [] e e' := by
  have hsame := sameBooks_of_modify hf h
  obtain ⟨a, -, rfl⟩ := modifyAccount_eq h
  refine .of_same rfl rfl hsame.tracked ?_ fun c => ?_
  · rw [Engine.discount, Engine.discount, Finmap.lookup_insert_of_ne _ hb]
  · unfold Engine.balance Table.valueAt
    dsimp only
    rw [Finmap.lookup_insert_of_ne _ hb]

/-- An operation on one account keeps the orders owned and isolates the others. -/
theorem Owned.execute {op : AccountOp} (he : e.Owned) (hb : b ≠ acid)
    (hG : (owning fuel).Account fuel acid e op) (h : e.execute fuel acid op = some e') :
    e'.Owned ∧ ∃ items, Isolated b items e e' := by
  have hrefl : Isolated b [] e e := .refl b e
  cases hop : op.onOrders with
  | true => exact (isolated_preserved fuel hb he.toOk).execute hop ⟨he, _, hrefl⟩ hG h
  | false =>
    have hsolvent := he.toSolvent.execute h
    rcases execute_account hop h with rfl | ⟨f, hf, h⟩
    · exact ⟨he, _, hrefl⟩
    · exact ⟨he.aside hsolvent (sameBooks_of_modify hf.orders h).aside, _,
        isolated_of_modify hf.orders hb h⟩

/-- Every step of an operation keeps the orders owned. -/
theorem Owned.preserved (fuel : ℕ) (acid : Id) : Preserved (owning fuel) fuel acid Owned where
  sell he hm hr ha hG h := ((isolated_preserved fuel (Nat.succ_ne_self acid) he.toOk).sell
    ⟨he, [], .refl _ _⟩ hm hr ha hG h).1
  cancel he hG h := ((isolated_preserved fuel (Nat.succ_ne_self acid) he.toOk).cancel
    ⟨he, [], .refl _ _⟩ hG h).1
  update he hi ha hG h := ((isolated_preserved fuel (Nat.succ_ne_self acid) he.toOk).update
    ⟨he, [], .refl _ _⟩ hi ha hG h).1

/-- Every operation that meets the guards keeps the orders owned. -/
theorem Owned.step {op : Op} (he : e.Owned) (hG : (owning fuel).Op hash fuel e op)
    (h : Engine.step hash fuel e op = some e') : e'.Owned :=
  Preserved.step (fun acid _ => Owned.preserved fuel acid) he.toSolvent he.aside he hG h

/-- The first engine has no orders. -/
theorem owned_init (hash : Text → UInt64) : (Engine.init hash).Owned :=
  ⟨Solvent.init hash, fun a j hj => (((Indexed.init hash).tracked a j).mp hj).2⟩

/-- The sale of 3 euros to the order of the other account. -/
def sampleMatch : TradeInput :=
  ⟨['S'], ['3'], ['E', 'U', 'R'], ['1', '.', '5'], ['E', 'U', 'R', '/', 'G', 'B', 'P']⟩

end Engine

end AcCore.Tex.Cex
