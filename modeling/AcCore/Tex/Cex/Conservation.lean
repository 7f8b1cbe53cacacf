import AcCore.Tex.Cex.Solvency

/-!
# Conservation

What a trade, an update or a cancel moves it moves from one place to another:
wallets, resting orders and commissions add up to the same total in each
currency. The exchange misses it in three ways: a trade that ends in an error
deposits an amount that it never withdrew, a trade that names a third currency
charges one wallet and pays in another currency, and an update that is funded in
part adds the whole.
-/

namespace AcCore.Tex.Cex

open Lib

namespace Engine

/-- What the order of an id has, if it has it in the currency. -/
def worth (p : OrderPool) (c : Cur) (i : Id) : ℤ :=
  Table.valueAt (fun o => if o.valueCur = c then o.value else 0) p.live i

/-- The sum over all orders that rest. -/
def held (e : Engine) (c : Cur) : ℤ := (e.listing.map fun s => worth e.pool c s.id).sum

/-- `total_money`, of one currency. -/
def total (e : Engine) (c : Cur) : ℤ := e.funds c + e.held c

variable {e e' : Engine} {acid i : Id} {c cid : Cur} {cut : Id → ℤ} {gone : List Place}
  {made : Option (Place × Order)} {o : Order} {s : Place} {m : Market} {fuel : ℕ}
  {weak buy priLow : Bool} {w : Wallet} {rate amount : ℤ} {y : Matching} {charge : Cur}
  {hash : Text → UInt64}

/-- An order is worth its value in the currency of its place. -/
theorem worth_of_at (ho : e.pool.live.lookup s.id = some o) (hat : o.At s) :
    worth e.pool c s.id = if s.cur = c then o.value else 0 := by
  rw [worth, Table.valueAt_of_lookup ho, hat.valueCur]

/-- Where the books stay, as much is held in orders. -/
theorem SameBooks.held (h : SameBooks e e') (c : Cur) : e'.held c = e.held c := by
  unfold Engine.held listing
  rw [h.markets, h.pool]

/-- What the resting orders come to after the books moved. -/
theorem Moved.held (h : Moved e e' cut gone made) (he : e.Ok) (c : Cur) :
    e'.held c = e.held c - (e.listing.map fun s => if s.cur = c then cut s.id else 0).sum -
      (gone.map fun s => if s.cur = c then e.pool.valueOf s.id - cut s.id else 0).sum +
      made.elim 0 fun so => if so.1.cur = c then so.2.value else 0 := by
  -- what each place counts for after the move
  set f : Place → ℤ := fun s => if s.cur = c then
    (if s.id = e.pool.next then made.elim 0 fun so => so.2.value
      else e.pool.valueOf s.id - cut s.id) else 0 with hf
  have hsum := (h.listing.map f).sum_eq
  rw [List.map_append, List.map_append, List.sum_append, List.sum_append] at hsum
  have hold : ∀ s ∈ e.listing, s.id ≠ e.pool.next := fun s hs hid =>
    he.notMem_next (hid ▸ List.mem_map_of_mem hs)
  have hafter : e'.held c = (e'.listing.map f).sum := by
    unfold Engine.held
    congr 1
    refine List.map_congr_left fun s hs => ?_
    obtain ⟨o, ho, hat⟩ := h.ok.placed s hs
    rw [worth_of_at ho hat, hf]
    dsimp only
    split_ifs with hcur hnext
    · -- the order that was made
      have hmem := h.listing.mem_iff.mp (List.mem_append_right gone hs)
      rcases List.mem_append.mp hmem with hmade | hmem
      · obtain ⟨so, hso, rfl⟩ := List.mem_map.mp hmade
        rw [Option.mem_toList] at hso
        obtain rfl := Option.mem_def.mp hso
        have hnew := (h.new so rfl).2.2
        rw [hnew] at ho
        rw [← Option.some.inj ho]
        rfl
      · exact absurd hnext (hold s hmem)
    · have hmade : ∀ so ∈ made, so.1.id ≠ s.id := fun so hso hid =>
        hnext (hid ▸ (h.new so hso).1)
      have hgone : s.id ∉ gone.map Place.id := fun hmem => by
        rw [h.dropped _ hmem] at ho
        cases ho
      rw [h.kept _ hmade hgone, Option.map_eq_some_iff] at ho
      obtain ⟨o', ho', rfl⟩ := ho
      rw [OrderPool.valueOf_eq ho']
    · rfl
  have hbefore : e.held c = (e.listing.map f).sum +
      (e.listing.map fun s => if s.cur = c then cut s.id else 0).sum := by
    unfold Engine.held
    rw [← List.sum_map_add]
    congr 1
    refine List.map_congr_left fun s hs => ?_
    obtain ⟨o, ho, hat⟩ := he.placed s hs
    rw [worth_of_at ho hat, hf]
    dsimp only
    rw [if_neg (hold s hs), OrderPool.valueOf_eq ho]
    split_ifs <;> omega
  have hgone : (gone.map f).sum =
      (gone.map fun s => if s.cur = c then e.pool.valueOf s.id - cut s.id else 0).sum := by
    congr 1
    refine List.map_congr_left fun s hs => ?_
    rw [hf]
    dsimp only
    rw [if_neg (hold s (h.mem_of_gone hs))]
  have hmade : ((made.toList.map Prod.fst).map f).sum =
      made.elim 0 fun so => if so.1.cur = c then so.2.value else 0 := by
    cases hm : made with
    | none => rfl
    | some so =>
      have hnext := (h.new so hm).1
      simp [hf, hnext, hm]
  rw [hgone, hmade] at hsum
  omega

/-- The sum over different ids of what belongs to one of them. -/
theorem sum_ite_id {l : List Place} (hl : (l.map Place.id).Nodup) (hs : s ∈ l) (v : ℤ) :
    (l.map fun s' => if s'.cur = c then (if s.id = s'.id then v else 0) else 0).sum =
      if s.cur = c then v else 0 := by
  induction l with
  | nil => cases hs
  | cons s' l ih =>
    rw [List.map_cons, List.nodup_cons] at hl
    rw [List.map_cons, List.sum_cons]
    rcases List.mem_cons.mp hs with rfl | hs
    · have hrest : (l.map fun s' => if s'.cur = c then (if s.id = s'.id then v else 0)
          else 0).sum = 0 := by
        refine List.sum_eq_zero fun x hx => ?_
        obtain ⟨s', hs', rfl⟩ := List.mem_map.mp hx
        have hne : s.id ≠ s'.id := fun h => hl.1 (h ▸ List.mem_map_of_mem hs')
        simp [hne]
      rw [hrest]
      simp
    · have hne : s.id ≠ s'.id := fun h => hl.1 (h ▸ List.mem_map_of_mem hs)
      rw [ih hl.2 hs]
      simp [hne]

/-- What is matched of all places is what the matches take. -/
theorem sum_filled {l : List Place} (hl : (l.map Place.id).Nodup) {k : Cur} {items : List MatchItem}
    (h : ∀ i ∈ items, ∃ s ∈ l, s.id = i.layOrderId ∧ s.cur = k) :
    (l.map fun s => if s.cur = c then OrderPool.filled items s.id else 0).sum =
      if k = c then (items.map (·.lay.cost)).sum else 0 := by
  induction items with
  | nil => simp
  | cons i items ih =>
    obtain ⟨s, hs, hid, hcur⟩ := h i List.mem_cons_self
    have hrest := ih fun j hj => h j (List.mem_cons_of_mem _ hj)
    have hsplit :
        (fun s' : Place => if s'.cur = c then OrderPool.filled (i :: items) s'.id else 0) =
        fun s' => (if s'.cur = c then (if s.id = s'.id then i.lay.cost else 0) else 0) +
          if s'.cur = c then OrderPool.filled items s'.id else 0 := by
      funext s'
      rw [OrderPool.filled_cons, hid]
      by_cases hs' : s'.cur = c <;> simp [hs']
    rw [hsplit, List.sum_map_add, hrest, sum_ite_id hl hs, hcur]
    split_ifs <;> simp

/-! ## Payments -/

/-- The two parts of a payment add up to the amount. -/
theorem parts_add (free : Bool) (d : ℚ) (amount : ℤ) :
    (parts free d amount).1 + (parts free d amount).2 = amount := by
  cases free with
  | true => simp [parts]
  | false =>
    simp only [parts, Bool.false_eq_true, if_false, netcomm, encodeNetComm]
    split_ifs <;> dsimp only <;> omega

/-- What a payment posts in a currency. -/
theorem posted_payment (parts : ℤ × ℤ) (acid : Id) (cur c : Cur) :
    posted (byCur (payment parts acid cur)) c = if cur = c then parts.1 + parts.2 else 0 := by
  simp only [byCur, payment, List.map_cons, List.map_nil, posted_cons, posted_nil]
  split_ifs <;> omega

/-- What lists of postings post adds up. -/
theorem posted_flatMap {α : Type*} (l : List α) (g : α → List ((Id × Cur) × ℤ)) (c : Cur) :
    posted (byCur (l.flatMap g)) c = (l.map fun a => posted (byCur (g a)) c).sum := by
  induction l with
  | nil => rfl
  | cons a l ih =>
    rw [List.flatMap_cons, byCur, List.map_append, posted_append, ← byCur, ← byCur, ih,
      List.map_cons, List.sum_cons]

/-- What is paid for a match. -/
theorem posted_settlement {item : MatchItem} (ho : e.pool.live.lookup item.layOrderId = some o) :
    posted (byCur (e.settlement acid item)) c =
      (if item.lay.receivedCur = c then item.lay.received else 0) +
        if item.back.receivedCur = c then item.back.received else 0 := by
  rw [settlement, ho]
  dsimp only
  rw [byCur, List.map_append, posted_append, ← byCur, ← byCur, posted_payment, posted_payment,
    parts_add, parts_add]

/-- What goes back for the orders that expire. -/
theorem posted_refund {p : OrderPool} (ho : p.live.lookup s.id = some o) (hat : o.At s) :
    posted (byCur (refund p s.id)) c = if s.cur = c then o.value else 0 := by
  rw [refund, ho]
  simp [byCur, hat.paidCur]

/-! ## The parts of operations -/

/-- What a trade moves it moves between wallets, orders and commissions, if it
charges the currency in which it pays, or nothing. -/
theorem Sold.total {v : Option ℤ}
    (h : Sold fuel e acid m weak charge w rate amount buy priLow e' y gone v) (he : e.Ok)
    (hm : m ∈ e.markets) (c : Cur)
    (hcharge : charge = m.currency weak ∨ (y.ms.items = [] ∧ v = none)) :
    e'.total c = e.total c := by
  obtain ⟨m', p', w', r, ht, -⟩ := h.trade
  have hfunds := h.booked.funds c
  have hheld := h.moved.held he c
  have hside : ∀ s ∈ m.side !weak, s ∈ e.listing ∧ s.cur = m.currency !weak := by
    intro s hs
    refine ⟨mem_listing.mpr ⟨m, hm, ?_⟩, ?_⟩
    · rw [(m.listing_perm weak).mem_iff]
      exact List.mem_append_right _ hs
    · obtain ⟨e₁, -, rfl⟩ := List.mem_map.mp hs
      cases weak <;> rfl
  -- what is matched
  have hfilled : (e.listing.map fun s => if s.cur = c then OrderPool.filled y.ms.items s.id
      else 0).sum = if m.currency (!weak) = c then (y.ms.items.map (·.lay.cost)).sum else 0 :=
    sum_filled he.nodup fun i hi =>
      ⟨_, (hside _ (ht.fair i hi).2).1, rfl, (hside _ (ht.fair i hi).2).2⟩
  have hsettled : (y.ms.items.map fun i => posted (byCur (e.settlement acid i)) c).sum =
      (if m.currency weak = c then (y.ms.items.map (·.back.cost)).sum else 0) +
        if m.currency (!weak) = c then (y.ms.items.map (·.lay.cost)).sum else 0 := by
    have heach : ∀ i ∈ y.ms.items, posted (byCur (e.settlement acid i)) c =
        (if m.currency weak = c then i.back.cost else 0) +
          if m.currency (!weak) = c then i.lay.cost else 0 := by
      intro i hi
      obtain ⟨hfair, hmem⟩ := ht.fair i hi
      obtain ⟨o, ho, -⟩ := he.placed _ (hside _ hmem).1
      rw [posted_settlement ho, hfair.layReceivedCur, hfair.backReceivedCur, hfair.layReceived,
        ← hfair.layCost]
      rfl
    rw [List.map_congr_left heach, List.sum_map_add]
    congr 1 <;> split_ifs <;> simp
  have hrefunds : ((gone.map Place.id).map fun j =>
      posted (byCur (refund (e.pool.fill y.ms.items) j)) c).sum =
      (gone.map fun s => if s.cur = c then
        e.pool.valueOf s.id - OrderPool.filled y.ms.items s.id else 0).sum := by
    rw [List.map_map]
    congr 1
    refine List.map_congr_left fun s hs => ?_
    obtain ⟨o, ho, hat⟩ := he.placed s (h.moved.mem_of_gone hs)
    have ho' : (e.pool.fill y.ms.items).live.lookup s.id =
        some { o with value := o.value - OrderPool.filled y.ms.items s.id } := by
      rw [OrderPool.lookup_fill, ho, Option.map_some]
    rw [Function.comp, posted_refund ho' (hat.withValue _), OrderPool.valueOf_eq ho]
  have hdebit : posted (byCur [debit acid charge y.ms.items v]) c =
      if charge = c then -(y.ms.items.map (·.back.cost)).sum - v.getD 0 else 0 := by
    simp [byCur, debit]
  have hmade : (Option.elim (v.map fun v => (m.place weak (rate, e.pool.next),
      leftOrder m weak buy rate v acid e.pool.next)) 0 fun so =>
        if so.1.cur = c then so.2.value else 0) = if m.currency weak = c then v.getD 0 else 0 := by
    cases v with
    | none => simp
    | some v => cases weak <;> rfl
  have hpost : posted (byCur (debit acid charge y.ms.items v ::
      (y.ms.items.flatMap (e.settlement acid) ++
        (gone.map Place.id).flatMap (refund (e.pool.fill y.ms.items))))) c =
      posted (byCur [debit acid charge y.ms.items v]) c +
        (posted (byCur (y.ms.items.flatMap (e.settlement acid))) c +
          posted (byCur ((gone.map Place.id).flatMap (refund (e.pool.fill y.ms.items)))) c) := by
    rw [← posted_append, ← posted_append]
    simp [byCur]
  rw [hpost, hdebit, posted_flatMap, posted_flatMap, hsettled, hrefunds] at hfunds
  rw [hfilled, hmade] at hheld
  unfold Engine.total
  rcases hcharge with rfl | ⟨hitems, rfl⟩
  · split_ifs at hfunds hheld <;> omega
  · rw [hitems] at hfunds hheld
    simp only [List.map_nil, List.sum_nil, Option.getD_none, neg_zero, sub_zero, ite_self,
      add_zero, zero_add] at hfunds hheld
    omega

/-- A cancel pays what the order had. -/
theorem Cancelled.total (h : Cancelled e acid o s e') (he : e.Ok)
    (ho : e.pool.live.lookup s.id = some o) (hs : s ∈ e.listing) (c : Cur) :
    e'.total c = e.total c := by
  obtain ⟨o', ho', hat⟩ := he.placed s hs
  obtain rfl : o = o' := Option.some.inj (ho.symm.trans ho')
  have hfunds := h.booked.funds c
  have hheld := h.moved.held he c
  simp only [byCur, List.map_cons, List.map_nil, posted_cons, posted_nil, hat.paidCur] at hfunds
  simp only [ite_self, List.map_const', List.sum_replicate, nsmul_zero, List.map_cons, List.map_nil,
    List.sum_cons, List.sum_nil, Option.elim, OrderPool.valueOf_eq ho] at hheld
  unfold Engine.total
  split_ifs at hfunds hheld <;> omega

/-- An update pays what it adds to the order, or is paid what it takes from it. -/
theorem Resized.total {ps : List ((Id × Cur) × ℤ)} (h : Resized ps e acid o s amount e') (he : e.Ok)
    (ho : e.pool.live.lookup s.id = some o) (hs : s ∈ e.listing)
    (hps : ps = [((acid, o.paidCur), o.value - amount)]) (c : Cur) : e'.total c = e.total c := by
  obtain ⟨o', ho', hat⟩ := he.placed s hs
  obtain rfl : o = o' := Option.some.inj (ho.symm.trans ho')
  have hfunds := h.booked.funds c
  have hheld := h.moved.held he c
  rw [hps] at hfunds
  simp only [byCur, List.map_cons, List.map_nil, posted_cons, posted_nil, hat.paidCur] at hfunds
  unfold Engine.total
  by_cases hle : amount ≤ o.value
  · have hcut := sum_ite_id (c := c) he.nodup hs (o.value - amount)
    simp only [hle, and_true, if_true, List.map_nil, List.sum_nil, Option.elim] at hheld
    simp only [eq_comm (a := s.id)] at hcut
    rw [hcut] at hheld
    split_ifs at hfunds hheld <;> omega
  · simp only [hle, and_false, if_false, ite_self, List.map_const', List.sum_replicate, nsmul_zero,
      List.map_nil, List.sum_nil, Option.elim] at hheld
    have hvalue : (addedOrder o amount e.pool.next).value = amount - o.value := rfl
    have hcur : ({ s with id := e.pool.next } : Place).cur = s.cur := rfl
    rw [hvalue, hcur] at hheld
    split_ifs at hfunds hheld <;> omega

/-! ## When money is kept -/

/-- An update pays what it adds: the order rests, and there are no funds at all
or enough of them; or there is nothing to pay. -/
def Covered (e : Engine) (acid i : Id) (amount : ℤ) : Prop :=
  ∀ o ∈ e.pool.live.lookup i,
    (i ∈ e.listing.map Place.id → o.value < amount →
      e.balance (acid, o.paidCur) = 0 ∨ amount - o.value ≤ e.balance (acid, o.paidCur)) ∧
    (i ∉ e.listing.map Place.id →
      amount = o.value ∨ (o.value < amount ∧ e.balance (acid, o.paidCur) = 0))

/-- The conditions under which trades and updates keep money: a trade does not
end in an error, and it names a currency of the market or trades nothing; an
update is covered. -/
def conserving (fuel : ℕ) : Guards where
  sell e acid m cid rate amount buy priLow :=
    ∀ a ∈ e.accounts.lookup acid, ∀ w ∈ a.wallets.lookup (chargeCur m cid buy),
      ∀ t ∈ m.trade fuel e.pool w cid rate amount buy priLow, t.2.2.2.error = false ∧
        (cid = m.weakCurrency ∨ cid = m.strongCurrency ∨ t.2.2.1 = w)
  cancel _ _ _ := True
  update := Covered

/-- A sale charges the currency of the side that it pays. -/
theorem chargeCur_eq {buy : Bool} (hne : m.weakCurrency ≠ m.strongCurrency)
    (hcid : cid = m.weakCurrency ∨ cid = m.strongCurrency) :
    chargeCur m cid buy = m.currency (m.paysWeak cid buy) := by
  unfold chargeCur Market.otherCur Market.paysWeak Market.currency
  rcases hcid with rfl | rfl <;> cases buy <;> simp [hne, hne.symm]

/-- A sale without flow to the system conserves every currency. -/
theorem Solvent.total_sell (he : e.Solvent) (hm : e.findMarket m.getKey = some m)
    (hamount : 0 ≤ amount) (hG : (conserving fuel).sell e acid m cid rate amount buy priLow)
    (h : e.sell fuel acid m cid rate amount buy priLow = some e') : e'.total c = e.total c := by
  have hmem := Keyed.mem_of_get hm
  obtain ⟨a, ha, ⟨-, rfl⟩ | ⟨w, m', p', w', r, y, gone, hw, htrade, hcases⟩⟩ :=
    sell_spec he.toOk hm h
  · rfl
  obtain ⟨herror, hcid⟩ := hG a ha w hw _ htrade
  rcases hcases with ⟨-, v, ht, hsold⟩ | ⟨herror', -⟩
  · refine hsold.total he.toOk hmem c ?_
    rw [← or_assoc] at hcid
    exact hcid.imp (chargeCur_eq (he.markets m hmem).ne) fun hidle => ht.idle
      (he.wallet_nonneg ha hw) (he.markets m hmem) he.pool hamount hidle
  · rw [herror'] at herror
    cases herror

/-- Cancelling conserves every currency. -/
theorem Solvent.total_cancel {found : Bool} (he : e.Solvent)
    (h : e.cancel acid i = some (e', found)) : e'.total c = e.total c := by
  obtain ⟨o, ho, ⟨-, rfl, -⟩ | ⟨s, hs, -, rfl, hcancelled⟩⟩ := cancel_spec he.toOk h
  · rfl
  · exact hcancelled.total he.toOk ho hs c

/-- An update that is covered conserves every currency. -/
theorem Solvent.total_updateAmount (he : e.Solvent) (hpos : 1 ≤ amount)
    (hG : Covered e acid i amount) (h : e.updateAmount acid i amount = some e') :
    e'.total c = e.total c := by
  obtain ⟨o, ho, hcases⟩ := updateAmount_spec he.toOk h
  obtain ⟨hrests, hgone⟩ := hG o ho
  have hbalance := he.balance (acid, o.paidCur)
  rcases hcases with ⟨hsame, hbooked, hreason⟩ | ⟨-, hpaid, s, hs, rfl, hresized⟩
  · have hzero : e.paid acid o amount = 0 := by
      rcases hreason with ⟨-, hzero⟩ | hsmall | hi
      · exact hzero
      · omega
      · unfold paid
        rcases hgone hi with heq | ⟨hlt, hnone⟩
        · rw [if_neg (by omega), heq, sub_self]
        · rw [if_pos (by omega), hnone, min_eq_left (by omega)]
    have hfunds := hbooked.funds c
    rw [hzero] at hfunds
    simp only [byCur, List.map_cons, List.map_nil, posted_cons, posted_nil, neg_zero, ite_self,
      add_zero] at hfunds
    rw [Engine.total, Engine.total, hfunds, hsame.held]
  · refine hresized.total he.toOk ho hs ?_ c
    have hall : e.paid acid o amount = amount - o.value := by
      unfold paid at hpaid ⊢
      split_ifs with hlt
      · refine min_eq_right ?_
        rcases hrests (List.mem_map_of_mem hs) (by omega) with hnone | hall
        · refine absurd ?_ (hpaid (by omega))
          rw [if_pos hlt, hnone, min_eq_left hlt.le]
        · exact hall
      · rfl
    rw [hall, neg_sub]

/-- Every step of an operation on orders conserves every currency. -/
theorem total_preserved (fuel : ℕ) (acid : Id) (c : Cur) (t : ℤ) :
    Preserved (conserving fuel) fuel acid fun e => e.Solvent ∧ e.total c = t where
  sell he hm _ hamount hG h :=
    ⟨he.1.sell hm hamount.le h, (he.1.total_sell hm hamount.le hG h).trans he.2⟩
  cancel he _ h := ⟨he.1.cancel h, (he.1.total_cancel h).trans he.2⟩
  update he _ hpos hG h := ⟨he.1.updateAmount h, (he.1.total_updateAmount hpos hG h).trans he.2⟩

/-! ## Operations that are not on orders -/

/-- What is written to an account is what its balance changes by. -/
theorem total_modify {f : Account → Account} (h : e.modifyAccount acid f = some e') :
    ∃ a, e.accounts.lookup acid = some a ∧
      e'.total c = e.total c + ((f a).balance c - a.balance c) := by
  obtain ⟨a, ha, rfl⟩ := modifyAccount_eq h
  refine ⟨a, ha, ?_⟩
  have hheld : held { e with accounts := e.accounts.insert acid (f a) } c = e.held c := rfl
  unfold Engine.total
  rw [hheld, funds, Table.sum_insert, Table.valueAt_of_lookup ha, ← funds]
  ring

/-- The amount that is read, 0 when none is. -/
def amountOf (amount : Text) : ℤ :=
  match parseAmount amount with
  | .ok v => v
  | .error _ => 0

/-- What an operation of an account brings in, or takes out. -/
def accountFlow (e : Engine) (acid : Id) (c : Cur) : AccountOp → ℤ
  | .deposit cid amount => if isValid cid ∧ cid = c then amountOf amount else 0
  | .withdraw cid amount =>
    if isValid cid ∧ cid = c then -min (e.balance (acid, cid)) (amountOf amount) else 0
  | _ => 0

/-- What an operation brings in, or takes out. -/
def flow (hash : Text → UInt64) (c : Cur) (e : Engine) : Op → ℤ
  | .api acid pwd op => if e.auth hash acid pwd then e.accountFlow acid c op else 0
  | _ => 0

/-- An operation that is not on orders changes a total by its own flow. -/
theorem Solvent.total_account {op : AccountOp} (he : e.Solvent) (hop : op.onOrders = false)
    (h : e.execute fuel acid op = some e') : e'.total c = e.total c + e.accountFlow acid c op := by
  have hsame : ∀ {f : Account → Account}, (∀ a, a.Solvent → (f a).balance c = a.balance c) →
      e.modifyAccount acid f = some e' → e'.total c = e.total c + 0 := by
    intro f hf h
    obtain ⟨a, ha, htotal⟩ := total_modify (c := c) h
    rw [htotal, hf a (he.account ha), sub_self]
  cases op with
  | newWallet cid =>
    simp only [Engine.execute] at h
    split_ifs at h
    · exact hsame (fun a _ => a.balance_newWallet cid c) h
    · exact Option.some.inj h ▸ (add_zero _).symm
  | deleteWallet cid =>
    simp only [Engine.execute] at h
    split_ifs at h
    · exact hsame (fun a ha => ha.balance_deleteWallet cid c) h
    · exact Option.some.inj h ▸ (add_zero _).symm
  | deleteAllWallets => exact hsame (fun a ha => ha.balance_deleteAllWallets c) h
  | deposit cid amount =>
    simp only [Engine.execute] at h
    simp only [accountFlow]
    by_cases hvalid : isValid cid = true
    · rw [hvalid] at h
      cases hparse : parseAmount amount with
      | error err =>
        rw [hparse] at h
        obtain rfl := Option.some.inj h
        simp [amountOf, hparse]
      | ok v =>
        rw [hparse] at h
        obtain ⟨a, ha, htotal⟩ := total_modify (c := c) h
        rw [htotal, Account.balance_deposit]
        simp [amountOf, hparse, hvalid]
    · rw [Bool.not_eq_true] at hvalid
      rw [hvalid] at h
      obtain rfl := Option.some.inj h
      simp [hvalid]
  | withdraw cid amount =>
    simp only [Engine.execute] at h
    simp only [accountFlow]
    by_cases hvalid : isValid cid = true
    · rw [hvalid] at h
      cases hparse : parseAmount amount with
      | error err =>
        rw [hparse] at h
        obtain rfl := Option.some.inj h
        simp [amountOf, hparse, min_eq_right (he.balance (acid, cid))]
      | ok v =>
        rw [hparse] at h
        obtain ⟨a, ha, htotal⟩ := total_modify (c := c) h
        have hbalance : e.balance (acid, cid) = a.balance cid := Table.valueAt_of_lookup ha
        rw [htotal, Account.balance_withdraw, Account.withdraw_eq (parseAmount_pos hparse),
          hbalance]
        simp [amountOf, hparse, hvalid]
    · rw [Bool.not_eq_true] at hvalid
      rw [hvalid] at h
      obtain rfl := Option.some.inj h
      simp [hvalid]
  | _ => cases hop

/-- An operation changes a total by its flow. -/
theorem Solvent.total_step {op : Op} (he : e.Solvent) (hG : (conserving fuel).Op hash fuel e op)
    (h : Engine.step hash fuel e op = some e') : e'.total c = e.total c + flow hash c e op := by
  cases op with
  | api acid pwd op =>
    simp only [Engine.step] at h
    simp only [flow]
    by_cases hauth : e.auth hash acid pwd = true
    · rw [if_pos hauth] at h ⊢
      cases hop : op.onOrders with
      | true =>
        have hflow : e.accountFlow acid c op = 0 := by cases op <;> first | rfl | cases hop
        rw [hflow, add_zero]
        exact ((total_preserved fuel acid c (e.total c)).execute hop ⟨he, rfl⟩ (hG hauth) h).2
      | false => exact he.total_account hop h
    · rw [if_neg hauth] at h ⊢
      exact Option.some.inj h ▸ (add_zero _).symm
  | newAccount pwd =>
    obtain rfl := Option.some.inj h
    unfold newAccount
    split_ifs
    · exact (add_zero _).symm
    · -- the id of the account is new
      have hnew : e.nextAccount ∉ e.accounts := fun hmem => (he.numbered _ hmem).false
      have hnone : (Account.create (hash pwd)).balance c = 0 := by
        simp [Account.balance, Table.valueAt, Account.create]
      simp only [Engine.total, flow, funds, add_zero]
      rw [Table.sum_insert, Table.valueAt_of_notMem hnew, Account.balance_newWallet,
        Account.balance_newWallet, Account.balance_newWallet, hnone]
      simp [held, listing]
  | setCommissionDiscount acid d =>
    simp only [Engine.step] at h
    simp only [flow, add_zero]
    split at h
    · exact Option.some.inj h ▸ rfl
    · obtain ⟨a, ha, htotal⟩ := total_modify (c := c) h
      have hdiscount : (a.setCommissionDiscount d).balance c = a.balance c := by
        unfold Account.setCommissionDiscount
        split_ifs <;> rfl
      rw [htotal, hdiscount, sub_self, add_zero]
  | setRuler cid1 cid2 min max increment =>
    obtain ⟨-, hlisting, hpool, -, haccounts, -⟩ := setRuler_spec he.toOk h
    simp only [Engine.total, flow, funds, held, hlisting, hpool, haccounts, add_zero]
  | autoMatchIsNotFree =>
    obtain rfl := Option.some.inj h
    exact (add_zero _).symm

/-- **Money is kept.** From every reachable state, operations whose parts meet
the conditions change the total of a currency by what is deposited and
withdrawn. -/
theorem money_conserved {ops₀ ops : List Op}
    (h₀ : run (Engine.step hash fuel) (Engine.init hash) ops₀ = some e)
    (hG : AlongRun (Engine.step hash fuel) ((conserving fuel).Op hash fuel) e ops)
    (h : run (Engine.step hash fuel) e ops = some e') (c : Cur) :
    e'.total c = e.total c + runSum (Engine.step hash fuel) (flow hash c) e ops := by
  have hstep : ∀ (e : Engine) op e', e.Solvent → (conserving fuel).Op hash fuel e op →
      Engine.step hash fuel e op = some e' → e'.Solvent := fun _ _ _ he _ h => he.step h
  exact run_balance hstep (fun _ _ _ he hG h => he.total_step hG h) (solvent_of_run h₀) hG h

/-- A trade within the ruler, with its conditions. -/
theorem money_conserved_sampleTrade :
    ∃ e e', run (Engine.step sampleHash 8) (Engine.init sampleHash) sampleDeposit = some e ∧
      run (Engine.step sampleHash 8) e [sampleTrade ['1', '.', '5']] = some e' ∧
      e'.total gbp = e.total gbp +
        runSum (Engine.step sampleHash 8) (flow sampleHash gbp) e
            [sampleTrade ['1', '.', '5']] := by
  have hruns : ((run (Engine.step sampleHash 8) (Engine.init sampleHash) sampleDeposit).bind
      fun e => run (Engine.step sampleHash 8) e [sampleTrade ['1', '.', '5']]).isSome := by
    decide +kernel
  have hbind := (Option.some_get hruns).symm
  obtain ⟨e, h₀, h⟩ := Option.bind_eq_some_iff.mp hbind
  refine ⟨e, _, h₀, h, money_conserved h₀ ?_ h gbp⟩
  refine AlongRun.singleton_iff.mpr fun _ => sampleTrade_guard fun m hm a ha w hw r hr => ?_
  obtain ⟨herror, hstrong⟩ := sampleTrade_error h₀ hm ha hw hr
  exact ⟨herror, Or.inr (Or.inl hstrong.symm)⟩

/-- A trade at a rate that no ruler lists makes money: its amount is deposited
and was not withdrawn. -/
theorem money_not_conserved :
    ∃ e e', run (Engine.step sampleHash 8) (Engine.init sampleHash) sampleDeposit = some e ∧
      run (Engine.step sampleHash 8) e [sampleTrade ['3']] = some e' ∧
      e'.total gbp ≠ e.total gbp +
        runSum (Engine.step sampleHash 8) (flow sampleHash gbp) e [sampleTrade ['3']] := by
  have h : ((run (Engine.step sampleHash 8) (Engine.init sampleHash) sampleDeposit).bind
      fun e => (run (Engine.step sampleHash 8) e [sampleTrade ['3']]).map fun e' =>
        decide (e'.total gbp ≠ e.total gbp + runSum (Engine.step sampleHash 8)
          (flow sampleHash gbp) e [sampleTrade ['3']])) = some true := by decide +kernel
  obtain ⟨e, h₀, h⟩ := Option.bind_eq_some_iff.mp h
  obtain ⟨e', h₁, h⟩ := Option.map_eq_some_iff.mp h
  exact ⟨e, e', h₀, h₁, of_decide_eq_true h⟩

end Engine

end AcCore.Tex.Cex
