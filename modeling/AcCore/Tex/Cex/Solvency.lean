import AcCore.Tex.Cex.Positive
import AcCore.Tex.Cex.Reach

/-!
# Nothing goes negative

Wallets pay what they have, and what is posted besides is not negative: the
matched amounts, both parts of a payment, and the values of expired or cancelled
orders.
-/

namespace AcCore.Tex.Cex

open Lib

/-- With exact percentages both parts of a payment are counted in units and rounded down,
and the difference to the total goes to the commission if this is more than 100. -/
theorem netcomm_exact (d : ℚ) {amount : ℤ} (ha : 0 ≤ amount) :
    netcomm d amount =
      let commission := (amount : ℚ) * (5 / 1000 * (1 - d))
      let diff := amount - (⌊amount - commission⌋ + ⌊commission⌋)
      if ⌊commission⌋ > 100 then (⌊amount - commission⌋, ⌊commission⌋ + diff)
      else (⌊amount - commission⌋ + diff, ⌊commission⌋) := by
  have hone : (one : ℚ) ≠ 0 := by norm_num [one]
  have hcomm : (amount : ℚ) / one * (5 / 1000 * (1 - d)) * one = amount * (5 / 1000 * (1 - d)) := by
    rw [mul_right_comm, div_mul_cancel₀ _ hone]
  have hnet : ((amount : ℚ) / one - amount / one * (5 / 1000 * (1 - d))) * one =
      amount - amount * (5 / 1000 * (1 - d)) := by
    rw [sub_mul, hcomm, div_mul_cancel₀ _ hone]
  simp only [netcomm, encodeNetComm, floorOne, Rounding.round_exact, decodeDbl_of_nonneg ha, hcomm,
    hnet]

/-- Both parts of a payment are not negative. -/
theorem netcomm_nonneg {d : ℚ} (hd : 0 ≤ d ∧ d ≤ 1) {amount : ℤ} (ha : 0 ≤ amount) :
    0 ≤ (netcomm d amount).1 ∧ 0 ≤ (netcomm d amount).2 := by
  have hamount : (0 : ℚ) ≤ amount := Int.cast_nonneg ha
  have hshare : (0 : ℚ) ≤ 5 / 1000 * (1 - d) ∧ 5 / 1000 * (1 - d) ≤ 1 := by
    constructor <;> linarith [hd.1, hd.2]
  rw [netcomm_exact d ha]
  set commission : ℚ := amount * (5 / 1000 * (1 - d)) with hcommission
  have hcomm : 0 ≤ commission := mul_nonneg hamount hshare.1
  have hnet : 0 ≤ amount - commission := by
    have := mul_le_mul_of_nonneg_left hshare.2 hamount
    linarith
  have hfloor : ⌊(amount : ℚ) - commission⌋ + ⌊commission⌋ ≤ amount := by
    have hsum := Int.le_floor_add_floor (amount - commission) commission
    have hadd := Int.le_floor_add (amount - commission) commission
    rw [sub_add_cancel, Int.floor_intCast] at hadd
    exact hadd
  have hcommFloor := Int.floor_nonneg.mpr hcomm
  have hnetFloor := Int.floor_nonneg.mpr hnet
  dsimp only
  split_ifs <;> constructor <;> dsimp only <;> omega

/-- No wallet of the account is negative, and its discount is a share. -/
structure Account.Solvent (a : Account) : Prop where
  balance : ∀ c, 0 ≤ a.balance c
  discount : 0 ≤ a.commissionDiscount ∧ a.commissionDiscount ≤ 1

namespace Account.Solvent

variable {a : Account}

/-- A new wallet leaves the account solvent. -/
theorem newWallet (ha : a.Solvent) (cid : Cur) : (a.newWallet cid).Solvent where
  balance c := by
    have hbalance := ha.balance c
    unfold Account.balance Table.valueAt at hbalance ⊢
    rw [Account.newWallet, Table.lookup_emplace]
    split_ifs with hc
    · subst hc
      cases hw : a.wallets.lookup c with
      | none => simp
      | some w => simpa [hw] using hbalance
    · exact hbalance
  discount := ha.discount

/-- A new account with its three wallets is solvent. -/
theorem new (password : UInt64) :
    ((((Account.create password).newWallet eur).newWallet gbp).newWallet usd).Solvent := by
  have hnone : (Account.create password).Solvent :=
    ⟨fun c => le_of_eq (by simp [Account.balance, Table.valueAt, Account.create]), le_rfl,
        zero_le_one⟩
  exact ((hnone.newWallet _).newWallet _).newWallet _

/-- Deleting a wallet leaves the account solvent. -/
theorem deleteWallet (ha : a.Solvent) (cid : Cur) : (a.deleteWallet cid).Solvent := by
  unfold Account.deleteWallet
  split
  · exact ha
  · split_ifs
    · exact ha
    · refine ⟨fun c => ?_, ha.discount⟩
      by_cases hc : c = cid
      · subst hc
        simp [Account.balance, Table.valueAt]
      · have hbalance := ha.balance c
        unfold Account.balance Table.valueAt at hbalance ⊢
        rwa [Finmap.lookup_erase_ne hc]

/-- Deleting all wallets leaves the account solvent. -/
theorem deleteAllWallets (ha : a.Solvent) : a.deleteAllWallets.Solvent :=
  List.foldlRecOn _ _ ha fun _ hb c _ => hb.deleteWallet c

/-- A deposit of nothing or more leaves the account solvent. -/
theorem deposit (ha : a.Solvent) (cid : Cur) {amount : ℤ} (hamount : 0 ≤ amount) :
    (a.deposit cid amount).Solvent where
  balance c := by
    rw [balance_deposit]
    have hbalance := ha.balance c
    split_ifs <;> omega
  discount := ha.discount

/-- A withdrawal leaves the account solvent, whatever the wallet has. -/
theorem withdraw (ha : a.Solvent) (cid : Cur) {amount : ℤ} (hamount : 0 < amount) :
    (a.withdraw cid amount).2.Solvent where
  balance c := by
    rw [balance_withdraw, withdraw_eq hamount]
    have hbalance := ha.balance c
    split_ifs with hc
    · subst hc
      have hmin := min_le_left (a.balance cid) amount
      omega
    · omega
  discount := by
    rw [(withdraw_other a cid amount).1]
    exact ha.discount

/-- The discount is kept between nothing and the whole commission. -/
theorem setCommissionDiscount (ha : a.Solvent) (d : ℚ) : (a.setCommissionDiscount d).Solvent := by
  unfold Account.setCommissionDiscount
  split_ifs with hd
  · exact ha
  · rw [not_or, not_lt, not_lt] at hd
    exact ⟨ha.balance, hd.2, hd.1⟩

end Account.Solvent

/-- A new wallet has nothing in it. -/
theorem Account.balance_newWallet (a : Account) (cid c : Cur) :
    (a.newWallet cid).balance c = a.balance c := by
  unfold balance Table.valueAt newWallet
  rw [Table.lookup_emplace]
  split_ifs with hc
  · subst hc
    cases a.wallets.lookup c <;> rfl
  · rfl

/-- Only wallets with nothing in them are deleted. -/
theorem Account.Solvent.balance_deleteWallet {a : Account} (ha : a.Solvent) (cid c : Cur) :
    (a.deleteWallet cid).balance c = a.balance c := by
  unfold Account.deleteWallet
  split
  · rfl
  · rename_i w hw
    split_ifs with hfunds
    · rfl
    · -- a wallet that is deleted has nothing
      have hbalance := ha.balance cid
      rw [Account.balance_of_lookup hw] at hbalance
      by_cases hc : c = cid
      · subst hc
        rw [Account.balance_of_lookup hw]
        simp only [Account.balance, Table.valueAt, Finmap.lookup_erase, Option.elim]
        omega
      · unfold Account.balance Table.valueAt
        rw [Finmap.lookup_erase_ne hc]

/-- Deleting all wallets changes no balance. -/
theorem Account.Solvent.balance_deleteAllWallets {a : Account} (ha : a.Solvent) (c : Cur) :
    a.deleteAllWallets.balance c = a.balance c := by
  have hboth : a.deleteAllWallets.Solvent ∧ a.deleteAllWallets.balance c = a.balance c :=
    List.foldlRecOn (motive := fun b : Account =>
        b.Solvent ∧ b.balance c = a.balance c) _ _ ⟨ha, rfl⟩
      fun b hb cid _ => ⟨hb.1.deleteWallet cid, (hb.1.balance_deleteWallet cid c).trans hb.2⟩
  exact hboth.2

/-- What is done to an account that is solvent leaves it so. -/
theorem AccountChange.solvent {f : Account → Account} (hf : AccountChange f) {a : Account}
    (ha : a.Solvent) : (f a).Solvent := by
  cases hf with
  | newWallet cid => exact ha.newWallet cid
  | deleteWallet cid => exact ha.deleteWallet cid
  | deleteAllWallets => exact ha.deleteAllWallets
  | deposit cid h => exact ha.deposit cid h.le
  | withdraw cid h => exact ha.withdraw cid h
  | discount d => exact ha.setCommissionDiscount d

/-- An account is paid something for what is matched. -/
theorem netcomm_pos {d : ℚ} (hd : 0 ≤ d ∧ d ≤ 1) {amount : ℤ} (ha : 1 ≤ amount) :
    1 ≤ (netcomm d amount).1 := by
  have hamount : (1 : ℚ) ≤ amount := by exact_mod_cast ha
  set commission : ℚ := amount * (5 / 1000 * (1 - d)) with hcommission
  have hcomm : 0 ≤ commission ∧ commission ≤ amount * (5 / 1000) := by
    have hrate : 0 ≤ 5 / 1000 * (1 - d) ∧ 5 / 1000 * (1 - d) ≤ 5 / 1000 := by
      constructor <;> linarith [hd.1, hd.2]
    exact ⟨mul_nonneg (by linarith) hrate.1, mul_le_mul_of_nonneg_left hrate.2 (by linarith)⟩
  have hfloor : (⌊commission⌋ : ℚ) ≤ commission := Int.floor_le commission
  rw [netcomm_exact d (by omega), ← hcommission]
  dsimp only
  split_ifs with hlarge
  · -- so much commission is taken from a large amount only
    have hlarge' : (101 : ℚ) ≤ ⌊commission⌋ := by exact_mod_cast hlarge
    refine Int.le_floor.mpr ?_
    push_cast
    linarith
  · have hnet : (0 : ℚ) < amount - ⌊commission⌋ := by linarith
    have hpos : 0 < amount - ⌊commission⌋ := by exact_mod_cast hnet
    dsimp only
    omega

namespace Engine

variable {e e' : Engine} {acid i : Id} {c cid : Cur} {ps : List ((Id × Cur) × ℤ)} {fuel : ℕ}
  {hash : Text → UInt64}

/-- No wallet is negative, the discounts are shares, and no account has the
next id. -/
structure Solvent (e : Engine) : Prop extends e.Ok where
  balance : ∀ k, 0 ≤ e.balance k
  discount : ∀ a, 0 ≤ e.discount a ∧ e.discount a ≤ 1
  numbered : ∀ a ∈ e.accounts, a < e.nextAccount

/-- Postings that are covered leave nothing negative. -/
theorem Solvent.booked (he : e.Solvent) (hok : e'.Ok) (h : Booked ps e e')
    (hnext : e'.nextAccount = e.nextAccount) (hps : ∀ k, 0 ≤ e.balance k + posted ps k) :
    e'.Solvent where
  toOk := hok
  balance k := by
    rw [h.balance]
    exact hps k
  discount a := by
    rw [h.discount]
    exact he.discount a
  numbered a ha := by
    rw [hnext]
    exact he.numbered a ((h.accounts a).mp ha)

/-- An account that is solvent can be written. -/
theorem Solvent.insert {a : Account} (he : e.Solvent) (hok : e'.Ok)
    (haccounts : e'.accounts = e.accounts.insert acid a) (hnext : e.nextAccount ≤ e'.nextAccount)
    (hacid : acid < e'.nextAccount) (ha : a.Solvent) : e'.Solvent where
  toOk := hok
  balance k := by
    rw [Engine.balance, haccounts, Table.valueAt]
    by_cases hk : k.1 = acid
    · rw [hk, Finmap.lookup_insert]
      exact ha.balance k.2
    · rw [Finmap.lookup_insert_of_ne _ hk]
      exact he.balance k
  discount b := by
    rw [Engine.discount, haccounts]
    by_cases hb : b = acid
    · rw [hb, Finmap.lookup_insert]
      exact ha.discount
    · rw [Finmap.lookup_insert_of_ne _ hb]
      exact he.discount b
  numbered b hb := by
    rw [haccounts, Finmap.mem_insert] at hb
    rcases hb with rfl | hb
    · exact hacid
    · exact (he.numbered b hb).trans_le hnext

/-- Neither part of what a match pays out is negative. -/
theorem parts_nonneg (free : Bool) {d : ℚ} (hd : 0 ≤ d ∧ d ≤ 1) {amount : ℤ} (ha : 0 ≤ amount) :
    0 ≤ (parts free d amount).1 ∧ 0 ≤ (parts free d amount).2 := by
  unfold parts
  split_ifs
  · exact ⟨ha, le_rfl⟩
  · exact netcomm_nonneg hd ha

/-- A settlement posts nothing negative. -/
theorem Solvent.settlement_nonneg (he : e.Solvent) {item : MatchItem}
    (hlay : 0 ≤ item.lay.received) (hback : 0 ≤ item.back.received) :
    ∀ p ∈ e.settlement acid item, 0 ≤ p.2 := by
  unfold settlement
  cases e.pool.live.lookup item.layOrderId with
  | none => simp
  | some o =>
    have hpart := fun free a {v : ℤ} (hv : 0 ≤ v) => parts_nonneg free (he.discount a) hv
    intro p hp
    simp only [payment, List.mem_append, List.mem_cons, List.not_mem_nil, or_false] at hp
    rcases hp with (rfl | rfl) | rfl | rfl
    · exact (hpart _ _ hlay).2
    · exact (hpart _ _ hlay).1
    · exact (hpart _ _ hback).2
    · exact (hpart _ _ hback).1

variable {m : Market} {weak buy priLow : Bool} {charge : Cur} {w : Wallet} {rate amount : ℤ}
  {y : Matching} {gone : List Place} {made : Option ℤ}

/-- No wallet of a solvent engine is overdrawn. -/
theorem Solvent.wallet_nonneg (he : e.Solvent) {a : Account} (ha : e.accounts.lookup acid = some a)
    (hw : a.wallets.lookup cid = some w) : 0 ≤ w.available := by
  have hbalance := he.balance (acid, cid)
  rwa [Engine.balance, Table.valueAt_of_lookup ha, Account.balance_of_lookup hw] at hbalance

/-- What a trade debits is covered by the wallet that it charges. -/
theorem debit_covered (he : e.Solvent) {a : Account} (ha : e.accounts.lookup acid = some a)
    (hw : a.wallets.lookup charge = some w) {m' : Market} {p' : OrderPool} {w' : Wallet}
    {r : TradeResult} (hm : e.findMarket m.getKey = some m) (hamount : 0 ≤ amount)
    (ht : Market.Traded fuel e.pool m weak w rate amount buy priLow m' p' w' r y gone made) :
    y.Solvent ∧ ∀ k, 0 ≤ e.balance k + posted [debit acid charge y.ms.items made] k := by
  have hbalance : e.balance (acid, charge) = w.available := by
    rw [Engine.balance, Table.valueAt_of_lookup ha]
    exact Account.balance_of_lookup hw
  have hwallet := he.wallet_nonneg ha hw
  have hy := ht.solvent (he.markets m (Keyed.mem_of_get hm)) he.pool hwallet hamount
  refine ⟨hy, fun k => ?_⟩
  have hk := he.balance k
  have hpaid := ht.wallet
  have hcovered : made.getD 0 ≤ y.wallet.available := by
    cases made with
    | none => exact hy.wallet
    | some v => exact (ht.rest v rfl).2.2.1
  simp only [debit, posted_cons, posted_nil, add_zero]
  split_ifs with hkey
  · rw [← hkey, hbalance]
    omega
  · omega

/-- Matches pay, and expired orders are refunded. -/
theorem Solvent.credits_nonneg (he : e.Solvent) {a : Account}
    (ha : e.accounts.lookup acid = some a) (hw : a.wallets.lookup charge = some w)
    (hm : e.findMarket m.getKey = some m) (hamount : 0 ≤ amount)
    (h : Sold fuel e acid m weak charge w rate amount buy priLow e' y gone made) (k : Id × Cur) :
    0 ≤ posted (y.ms.items.flatMap (e.settlement acid) ++
      (gone.map Place.id).flatMap (refund (e.pool.fill y.ms.items))) k := by
  obtain ⟨m', p', w', r, ht, -⟩ := h.trade
  obtain ⟨hy, -⟩ := debit_covered he ha hw hm hamount ht
  refine posted_nonneg (fun p hp => ?_) k
  rcases List.mem_append.mp hp with hp | hp
  · obtain ⟨item, hitem, hp⟩ := List.mem_flatMap.mp hp
    have hfair := (ht.fair item hitem).1
    have hpositive := hy.items item hitem
    refine he.settlement_nonneg ?_ ?_ p hp
    · rw [hfair.layReceived]
      exact le_trans (by decide) hpositive.2
    · rw [← hfair.layCost]
      exact le_trans (by decide) hpositive.1
  · obtain ⟨j, hj, hp⟩ := List.mem_flatMap.mp hp
    obtain ⟨s, hs, rfl⟩ := List.mem_map.mp hj
    obtain ⟨o, ho, hpos⟩ := he.live (h.moved.mem_of_gone hs)
    obtain ⟨o', ho', hnonneg⟩ := ht.rounds.values_nonneg ⟨o, ho, by omega⟩
    have hpool := ht.matched_pool (he.markets m (Keyed.mem_of_get hm)) he.pool
    rw [refund, ← hpool, ho'] at hp
    obtain rfl := List.mem_singleton.mp hp
    exact hnonneg

/-- A trade without an error leaves the engine solvent. -/
theorem Solvent.sold (he : e.Solvent) {a : Account} (ha : e.accounts.lookup acid = some a)
    (hw : a.wallets.lookup charge = some w) (hm : e.findMarket m.getKey = some m)
    (hamount : 0 ≤ amount)
    (h : Sold fuel e acid m weak charge w rate amount buy priLow e' y gone made) : e'.Solvent := by
  obtain ⟨m', p', w', r, ht, -⟩ := h.trade
  refine he.booked h.moved.ok h.booked h.nextAccount fun k => ?_
  have hk := (debit_covered he ha hw hm hamount ht).2 k
  have hcredits := he.credits_nonneg ha hw hm hamount h k
  rw [posted_cons, posted_nil] at hk
  rw [posted_cons]
  omega

/-- A trade that ends in an error credits an amount besides. -/
theorem Solvent.failed (he : e.Solvent) {a : Account} (ha : e.accounts.lookup acid = some a)
    (hw : a.wallets.lookup charge = some w) (hm : e.findMarket m.getKey = some m)
    (hamount : 0 ≤ amount)
    (h : Failed fuel e acid m weak charge cid w rate amount buy priLow e' y gone) : e'.Solvent := by
  obtain ⟨m', p', w', r, ht, -⟩ := h.trade
  refine he.booked h.ok h.booked h.nextAccount fun k => ?_
  have hk := (debit_covered he ha hw hm hamount ht).2 k
  have hcredit : 0 ≤ posted [((acid, cid), amount)] k := posted_nonneg (by simpa using hamount) k
  rw [posted_cons] at hk ⊢
  rw [posted_nil] at hk
  omega

/-- `_sell` leaves the engine solvent, whether or not it ends in an error. -/
theorem Solvent.sell (he : e.Solvent) (hm : e.findMarket m.getKey = some m) (hamount : 0 ≤ amount)
    (h : e.sell fuel acid m cid rate amount buy priLow = some e') : e'.Solvent := by
  obtain ⟨a, ha,
      ⟨-, rfl⟩ | ⟨w, _, _, _, _, y, gone, hw, -, ⟨-, made, -, hsold⟩ | ⟨-, -, hfailed⟩⟩⟩ :=
    sell_spec he.toOk hm h
  · exact he
  · exact he.sold ha hw hm hamount hsold
  · exact he.failed ha hw hm hamount hfailed

/-- Cancelling an order leaves the engine solvent. -/
theorem Solvent.cancel {found : Bool} (he : e.Solvent)
    (h : e.cancel acid i = some (e', found)) : e'.Solvent := by
  obtain ⟨o, ho, ⟨-, rfl, -⟩ | ⟨s, hs, -, rfl, hcancelled⟩⟩ := cancel_spec he.toOk h
  · exact he
  · refine he.booked hcancelled.moved.ok hcancelled.booked hcancelled.nextAccount fun k => ?_
    obtain ⟨o', ho', hpos⟩ := he.live hs
    obtain rfl : o = o' := Option.some.inj (ho.symm.trans ho')
    have hvalue : 0 ≤ posted [((acid, o.paidCur), o.value)] k :=
      posted_nonneg (by simpa using zero_le_one.trans hpos) k
    exact add_nonneg (he.balance k) hvalue

/-- What an update pays is there. -/
theorem Solvent.paid_le (he : e.Solvent) (acid : Id) (o : Order) (amount : ℤ) :
    e.paid acid o amount ≤ e.balance (acid, o.paidCur) := by
  have hbalance := he.balance (acid, o.paidCur)
  unfold paid
  split_ifs
  · exact min_le_left _ _
  · omega

/-- Updating the amount of an order leaves the engine solvent. -/
theorem Solvent.updateAmount (he : e.Solvent) (h : e.updateAmount acid i amount = some e') :
    e'.Solvent := by
  obtain ⟨o, -, hcases⟩ := updateAmount_spec he.toOk h
  have hcovered : ∀ k,
      0 ≤ e.balance k + posted [((acid, o.paidCur), -e.paid acid o amount)] k := by
    intro k
    have hpaid := he.paid_le acid o amount
    have hbalance := he.balance k
    rw [posted_cons, posted_nil]
    dsimp only
    split_ifs with hk
    · rw [hk] at hpaid
      omega
    · omega
  rcases hcases with ⟨hsame, hbooked, -⟩ | ⟨-, -, s, -, -, hresized⟩
  · exact he.booked (hsame.ok he.toOk) hbooked hsame.nextAccount hcovered
  · exact he.booked hresized.moved.ok hresized.booked hresized.nextAccount hcovered

/-! ## Operations that are not on orders -/

/-- The accounts of a solvent engine are solvent. -/
theorem Solvent.account (he : e.Solvent) {a : Account} (ha : e.accounts.lookup acid = some a) :
    a.Solvent := by
  refine ⟨fun c => ?_, ?_⟩
  · have hbalance := he.balance (acid, c)
    rwa [Engine.balance, Table.valueAt_of_lookup ha] at hbalance
  · have hdiscount := he.discount acid
    rwa [Engine.discount, ha] at hdiscount

/-- A change that keeps accounts solvent keeps the engine so. -/
theorem Solvent.modify {f : Account → Account} (he : e.Solvent) (hf : AccountChange f)
    (h : e.modifyAccount acid f = some e') : e'.Solvent := by
  have hok := (sameBooks_of_modify hf.orders h).ok he.toOk
  obtain ⟨a, ha, rfl⟩ := modifyAccount_eq h
  exact he.insert hok rfl le_rfl (he.numbered acid (Finmap.mem_of_lookup_eq_some ha))
    (hf.solvent (he.account ha))

/-- Every step of an operation on an account keeps the engine solvent. -/
theorem Solvent.preserved (G : Guards) (fuel : ℕ) (acid : Id) :
    Preserved G fuel acid Solvent where
  sell he hm _ hamount _ h := he.sell hm hamount.le h
  cancel he _ h := he.cancel h
  update he _ _ _ h := he.updateAmount h

/-- An operation on an account keeps the engine solvent. -/
theorem Solvent.execute (he : e.Solvent) {op : AccountOp}
    (h : e.execute fuel acid op = some e') : e'.Solvent := by
  cases hop : op.onOrders with
  | true =>
    exact (Solvent.preserved Guards.none fuel acid).execute hop he (Guards.none_account op) h
  | false =>
    rcases execute_account hop h with rfl | ⟨f, hf, h⟩
    · exact he
    · exact he.modify hf h

/-- Every operation keeps the engine solvent. -/
theorem Solvent.step (he : e.Solvent) {op : Op} (h : step hash fuel e op = some e') :
    e'.Solvent := by
  have hok := he.toOk.step h
  cases op with
  | api acid pwd op =>
    simp only [Engine.step] at h
    split_ifs at h
    · exact he.execute h
    · exact Option.some.inj h ▸ he
  | newAccount pwd =>
    obtain rfl := Option.some.inj h
    unfold newAccount at hok ⊢
    split_ifs at hok ⊢
    · exact he
    · exact he.insert hok rfl (Nat.le_succ _) (Nat.lt_succ_self _) (.new _)
  | setCommissionDiscount acid d =>
    simp only [Engine.step] at h
    split at h
    · exact Option.some.inj h ▸ he
    · exact he.modify (.discount d) h
  | setRuler cid1 cid2 min max increment =>
    obtain ⟨-, -, -, -, haccounts, hnext⟩ := setRuler_spec he.toOk h
    exact he.booked hok (.refl haccounts) hnext fun k => by simpa using he.balance k
  | autoMatchIsNotFree =>
    obtain rfl := Option.some.inj h
    exact he.booked hok (.refl rfl) rfl fun k => by simpa using he.balance k

/-- An operation that leaves the orders, and who tracks them, as they are. -/
structure Aside (e e' : Engine) : Prop where
  listing : e'.listing = e.listing
  orders : e'.orders = e.orders
  pool : e'.pool = e.pool
  tracked : ∀ a, e'.tracked a = e.tracked a

/-- Where the books stay, the orders stay. -/
theorem SameBooks.aside (h : SameBooks e e') : Aside e e' where
  listing := by rw [Engine.listing, h.markets, ← Engine.listing]
  orders := h.orders
  pool := h.pool
  tracked := h.tracked

/-- An operation is one on orders, of an account that is not that of the system,
or it leaves the orders as they are. -/
theorem Solvent.step_cases (he : e.Solvent) {op : Op} (h : Engine.step hash fuel e op = some e') :
    (∃ acid pwd aop, op = .api acid pwd aop ∧ e.auth hash acid pwd = true ∧
      aop.onOrders = true ∧ e.execute fuel acid aop = some e') ∨ Aside e e' := by
  have hrefl : Aside e e := (SameBooks.refl e).aside
  cases op with
  | api acid pwd op =>
    simp only [Engine.step] at h
    split_ifs at h with hauth
    · cases hop : op.onOrders with
      | true => exact Or.inl ⟨acid, pwd, op, rfl, hauth, hop, h⟩
      | false =>
        rcases execute_account hop h with rfl | ⟨f, hf, h⟩
        · exact Or.inr hrefl
        · exact Or.inr (sameBooks_of_modify hf.orders h).aside
    · exact Or.inr (Option.some.inj h ▸ hrefl)
  | newAccount pwd =>
    obtain rfl := Option.some.inj h
    unfold newAccount
    split_ifs
    · exact Or.inr hrefl
    · refine Or.inr ⟨rfl, rfl, rfl, fun a => ?_⟩
      rw [tracked_insert rfl]
      split_ifs with ha
      · -- no account has the id of the new one, so no orders are tracked for it
        subst ha
        rw [Engine.tracked, Finmap.lookup_eq_none.mpr fun hmem => (he.numbered _ hmem).false]
        rfl
      · rfl
  | setCommissionDiscount acid d =>
    simp only [Engine.step] at h
    split at h
    · exact Or.inr (Option.some.inj h ▸ hrefl)
    · exact Or.inr (sameBooks_of_modify (AccountChange.discount d).orders h).aside
  | setRuler cid1 cid2 min max increment =>
    obtain ⟨-, hlisting, hpool, horders, haccounts, -⟩ := setRuler_spec he.toOk h
    refine Or.inr ⟨hlisting, horders, hpool, fun a => ?_⟩
    rw [Engine.tracked, haccounts, ← Engine.tracked]
  | autoMatchIsNotFree =>
    obtain rfl := Option.some.inj h
    exact Or.inr ⟨rfl, rfl, rfl, fun _ => rfl⟩

/-- **Step rule.** What the parts of the operations preserve, and what depends
on the orders only, a step preserves. -/
theorem Preserved.step {G : Guards} {P : Engine → Prop}
    (hP : ∀ acid, acid ≠ systemAccount → Preserved G fuel acid P) (hsolvent : e.Solvent)
    (haside : e'.Solvent → Aside e e' → P e') (he : P e) {op : Op} (hG : G.Op hash fuel e op)
    (h : Engine.step hash fuel e op = some e') : P e' := by
  rcases hsolvent.step_cases h with ⟨acid, pwd, aop, rfl, hauth, hop, hexecute⟩ | hsame
  · have hne : acid ≠ systemAccount := by
      simp only [Engine.auth, Bool.and_eq_true, decide_eq_true_eq] at hauth
      exact hauth.1
    exact (hP acid hne).execute hop he (hG hauth) hexecute
  · exact haside (hsolvent.step h) hsame

/-- The first engine is solvent. -/
theorem Solvent.init (hash : Text → UInt64) : (init hash).Solvent := by
  have hnone : ({ Engine.init hash with accounts := ∅ } : Engine).Solvent :=
    ⟨(Ok.init hash).congr_value rfl (Ok.init hash).pool le_rfl fun _ _ => rfl,
      fun k => le_of_eq (by simp [Engine.balance, Table.valueAt]),
      fun a => by simp [Engine.discount], fun a ha => absurd ha Finmap.notMem_empty⟩
  exact hnone.insert (Ok.init hash) rfl le_rfl Nat.one_lt_two (.new _)

/-- Every engine that operations reach is solvent. -/
theorem solvent_of_run {ops : List Op}
    (h : run (Engine.step hash fuel) (Engine.init hash) ops = some e) : e.Solvent :=
  run_invariant (C := fun _ _ => True) (fun _ _ _ he _ h => he.step h) (Solvent.init hash)
    (AlongRun.trivial _ _) h

/-- **Run rule.** What the parts of the operations preserve without conditions
holds in every reachable state. -/
theorem Preserved.of_run {P : Engine → Prop}
    (hP : ∀ acid, acid ≠ systemAccount → Preserved Guards.none fuel acid P)
    (hsolvent : ∀ {e}, P e → e.Solvent)
    (haside : ∀ {e e'}, P e → e'.Solvent → Aside e e' → P e') (hinit : P (Engine.init hash))
    {ops : List Op} (h : run (Engine.step hash fuel) (Engine.init hash) ops = some e) : P e := by
  have hstep : ∀ (e : Engine) op e', P e → Guards.none.Op hash fuel e op →
      Engine.step hash fuel e op = some e' → P e' :=
    fun _ _ _ he hG h => Preserved.step hP (hsolvent he) (haside he) he hG h
  refine run_invariant hstep hinit ((AlongRun.trivial _ _).imp fun e op _ => ?_) h
  cases op with
  | api acid pwd op => exact fun _ => Guards.none_account op
  | _ => exact True.intro

/-- **Nothing goes negative.** In every reachable state the wallets are not
negative, and an order that rests has at least 1. -/
theorem nothing_negative {ops : List Op}
    (h : run (Engine.step hash fuel) (Engine.init hash) ops = some e) :
    (∀ acid a, e.accounts.lookup acid = some a → ∀ cid w, a.wallets.lookup cid = some w →
      0 ≤ w.available) ∧
    ∀ s ∈ e.listing, ∃ o, e.pool.live.lookup s.id = some o ∧ 1 ≤ o.value := by
  have he := solvent_of_run h
  exact ⟨fun acid a ha cid w hw => he.wallet_nonneg ha hw, fun s hs => he.live hs⟩

/-- An account with pounds. -/
def sampleDeposit : List Op :=
  let pwd := List.replicate 8 'p'
  [.newAccount pwd, .api 2 pwd (.deposit gbp ['1', '0'])]

/-- It sells some of them for euros. -/
def sampleInput (rate : Text) : TradeInput :=
  ⟨['S'], ['4'], ['G', 'B', 'P'], rate, ['E', 'U', 'R', '/', 'G', 'B', 'P']⟩

/-- The trade of these pounds. -/
def sampleTrade (rate : Text) : Op := .api 2 (List.replicate 8 'p') (.trade [sampleInput rate])

/-- Another account with euros. -/
def sampleBuyer : List Op :=
  let pwd := List.replicate 8 'q'
  [.newAccount pwd, .api 3 pwd (.deposit eur ['1', '0'])]

/-- A hash of passwords. -/
def sampleHash (s : Text) : UInt64 := s.length.toUInt64

/-- The deposits meet every guard: they sell nothing. -/
theorem sampleDeposit_guard [Rounding] (G : Guards) : AlongRun (Engine.step sampleHash 8)
    (G.Op sampleHash 8) (Engine.init sampleHash) sampleDeposit := by
  refine AlongRun.of_forall fun op hop e => ?_
  simp only [sampleDeposit, List.mem_cons, List.not_mem_nil, or_false] at hop
  rcases hop with rfl | rfl
  · exact True.intro
  · exact fun _ => True.intro

/-- The buyer's account and deposit meet every guard. -/
theorem sampleBuyer_guard [Rounding] (G : Guards) (e : Engine) :
    AlongRun (Engine.step sampleHash 8) (G.Op sampleHash 8) e sampleBuyer := by
  refine AlongRun.of_forall fun op hop e => ?_
  simp only [sampleBuyer, List.mem_cons, List.not_mem_nil, or_false] at hop
  rcases hop with rfl | rfl
  · exact True.intro
  · exact fun _ => True.intro

/-- What is asked of a trade is asked of its sale. -/
theorem trade_guard [Rounding] {G : Guards} {fuel : ℕ} {acid : Id} {input : TradeInput}
    {t : TradeOrder}
    (hparse : input.parse.toOption = some t)
    (h : ∀ m, e.findMarket (marketKey t.weakcur t.strongcur) = some m →
      G.sell e acid m t.curid t.rate t.amount t.buy false) :
    G.Account fuel acid e (.trade [input]) := by
  refine AlongRun.singleton_iff.mpr fun t' ht m hm => ?_
  rw [ht] at hparse
  obtain rfl := Option.some.inj hparse
  exact h m hm

/-- The trade meets the guards when its sale does. -/
theorem sampleTrade_guard {G : Guards} (h : ∀ m, e.findMarket (marketKey eur gbp) = some m →
    G.sell e 2 m gbp 150000 400000 false false) :
    G.Account 8 2 e (.trade [sampleInput ['1', '.', '5']]) :=
  trade_guard (t := ⟨false, 400000, gbp, 150000, eur, gbp⟩) (by decide +kernel) h

/-- The trade does not end in an error. -/
theorem sampleTrade_error (h₀ : run (Engine.step sampleHash 8) (Engine.init sampleHash)
      sampleDeposit = some e) {m : Market} (hm : e.findMarket (marketKey eur gbp) = some m)
    {a : Account} (ha : e.accounts.lookup 2 = some a) {w : Wallet}
    (hw : a.wallets.lookup (chargeCur m gbp false) = some w)
    {t : Market × OrderPool × Wallet × TradeResult}
    (ht : m.trade 8 e.pool w gbp 150000 400000 false false = some t) :
    t.2.2.2.error = false ∧ m.strongCurrency = gbp := by
  have htrade : ((run (Engine.step sampleHash 8) (Engine.init sampleHash) sampleDeposit).bind
      fun e => (e.findMarket (marketKey eur gbp)).bind fun m =>
        (e.accounts.lookup 2).bind fun a =>
          (a.wallets.lookup (chargeCur m gbp false)).bind fun w =>
            (m.trade 8 e.pool w gbp 150000 400000 false false).map fun r =>
              (r.2.2.2.error, m.strongCurrency)) = some (false, gbp) := by decide +kernel
  simp only [h₀, Option.bind_some] at htrade
  rw [hm, Option.bind_some, ha, Option.bind_some, hw, Option.bind_some, ht, Option.map_some,
    Option.some.injEq, Prod.mk.injEq] at htrade
  exact htrade

/-- After a deposit and a trade that leaves an order, no wallet is negative and the order is not
empty. -/
theorem nothing_negative_sampleTrade :
    ∃ e, run (Engine.step sampleHash 8) (Engine.init sampleHash)
        (sampleDeposit ++ [sampleTrade ['1', '.', '5']]) = some e ∧
      (∀ acid a, e.accounts.lookup acid = some a → ∀ cid w, a.wallets.lookup cid = some w →
        0 ≤ w.available) ∧
      ∀ s ∈ e.listing, ∃ o, e.pool.live.lookup s.id = some o ∧ 1 ≤ o.value := by
  have h : (run (Engine.step sampleHash 8) (Engine.init sampleHash)
      (sampleDeposit ++ [sampleTrade ['1', '.', '5']])).isSome := by decide +kernel
  have hrun := (Option.some_get h).symm
  exact ⟨_, hrun, nothing_negative hrun⟩

end Engine

end AcCore.Tex.Cex
