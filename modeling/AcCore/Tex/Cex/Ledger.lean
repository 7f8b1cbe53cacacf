import AcCore.Tex.Cex.Engine
import AcCore.Tex.Cex.Trades

/-!
# The ledger of the exchange

What the accounts hold, and what the operations of the engine post to them. The
payments of a trade are postings that move nothing else; an order that expires
is posted to its owner and leaves the tables.
-/

namespace AcCore.Tex.Cex

open Lib

/-- What an account has in a currency. -/
def Account.balance (a : Account) (c : Cur) : ℤ := Table.valueAt Wallet.available a.wallets c

namespace Account

variable {a : Account} {c cid : Cur} {amount : ℤ}

/-- The balance in a currency is what its wallet has. -/
theorem balance_of_lookup {w : Wallet} (h : a.wallets.lookup c = some w) :
    a.balance c = w.available := Table.valueAt_of_lookup h

/-- The balances after a wallet is written. -/
theorem balance_insert (a : Account) (cid c : Cur) (w : Wallet) :
    balance { a with wallets := a.wallets.insert cid w } c =
      if cid = c then w.available else a.balance c := by
  unfold balance Table.valueAt
  by_cases h : cid = c
  · subst h
    simp
  · simp [h, Finmap.lookup_insert_of_ne _ (Ne.symm h)]

/-- A deposit adds to the balance in its currency. -/
theorem balance_deposit (a : Account) (cid : Cur) (amount : ℤ) (c : Cur) :
    (a.deposit cid amount).balance c = a.balance c + if cid = c then amount else 0 := by
  rw [Account.deposit, balance_insert]
  by_cases h : cid = c
  · subst h
    cases hw : a.wallets.lookup cid with
    | none => simp [balance, Table.valueAt, hw, Wallet.deposit]
    | some w => simp [balance, Table.valueAt, hw, Wallet.deposit]
  · simp [h]

end Account

namespace Engine

/-- What the account of an id has in a currency. -/
def balance (e : Engine) (k : Id × Cur) : ℤ := Table.valueAt (·.balance k.2) e.accounts k.1

/-- The orders that are tracked for an account. -/
def tracked (e : Engine) (acid : Id) : Finset Id := (e.accounts.lookup acid).elim ∅ Account.orders

/-- The discount of an account. -/
def discount (e : Engine) (acid : Id) : ℚ :=
  (e.accounts.lookup acid).elim 0 Account.commissionDiscount

/-- What all accounts have in a currency. -/
def funds (e : Engine) (c : Cur) : ℤ := Table.sum (·.balance c) e.accounts

/-- The amounts of postings by currency. -/
def byCur (ps : List ((Id × Cur) × ℤ)) : List (Cur × ℤ) := ps.map fun p => (p.1.2, p.2)

variable {e e' e₁ : Engine} {acid i : Id} {cid c : Cur} {amount : ℤ}
  {ps qs : List ((Id × Cur) × ℤ)}

/-- The postings are what happens to the balances; the accounts stay, with
their discounts. -/
structure Booked (ps : List ((Id × Cur) × ℤ)) (e e' : Engine) : Prop where
  balance : ∀ k, e'.balance k = e.balance k + posted ps k
  funds : ∀ c, e'.funds c = e.funds c + posted (byCur ps) c
  accounts : ∀ a, a ∈ e'.accounts ↔ a ∈ e.accounts
  discount : ∀ a, e'.discount a = e.discount a

/-- Where the accounts stay nothing is booked. -/
theorem Booked.refl (h : e'.accounts = e.accounts) : Booked [] e e' where
  balance k := by simp [Engine.balance, h]
  funds c := by simp [Engine.funds, h, byCur]
  accounts a := by rw [h]
  discount a := by simp [Engine.discount, h]

/-- Postings after postings. -/
theorem Booked.trans (h : Booked ps e e₁) (h' : Booked qs e₁ e') : Booked (ps ++ qs) e e' where
  balance k := by rw [h'.balance, h.balance, posted_append, add_assoc]
  funds c := by rw [h'.funds, h.funds, byCur, byCur, byCur, List.map_append, posted_append,
    add_assoc]
  accounts a := (h'.accounts a).trans (h.accounts a)
  discount a := (h'.discount a).trans (h.discount a)

/-- Postings look at the accounts only. -/
theorem Booked.congr (h : Booked ps e e') {d d' : Engine} (hd : d.accounts = e.accounts)
    (hd' : d'.accounts = e'.accounts) : Booked ps d d' where
  balance k := by simpa [Engine.balance, hd, hd'] using h.balance k
  funds c := by simpa [Engine.funds, hd, hd'] using h.funds c
  accounts a := by simpa [hd, hd'] using h.accounts a
  discount a := by simpa [Engine.discount, hd, hd'] using h.discount a

/-! ## Writing to an account -/

/-- Modifying an account writes it back to the table. -/
theorem modifyAccount_eq {f : Account → Account} (h : e.modifyAccount acid f = some e') :
    ∃ a, e.accounts.lookup acid = some a ∧
      e' = { e with accounts := e.accounts.insert acid (f a) } := by
  obtain ⟨a, ha, rfl⟩ := Option.map_eq_some_iff.mp h
  exact ⟨a, ha, rfl⟩

/-- An account that is written with what postings to it change. -/
theorem booked_insert {a a' : Account} (ha : e.accounts.lookup acid = some a)
    (hps : ∀ p ∈ ps, p.1.1 = acid)
    (hbalance : ∀ c, a'.balance c = a.balance c + posted ps (acid, c))
    (hdiscount : a'.commissionDiscount = a.commissionDiscount) :
    Booked ps e { e with accounts := e.accounts.insert acid a' } where
  balance k := by
    obtain ⟨b, c⟩ := k
    simp only [Engine.balance, Table.valueAt]
    by_cases hb : b = acid
    · subst hb
      simp [ha, hbalance]
    · have hzero : posted ps (b, c) = 0 := posted_eq_zero fun p hp heq => by
        rw [← hps p hp, heq] at hb
        exact hb rfl
      simp [Finmap.lookup_insert_of_ne _ hb, hzero]
  funds c := by
    have hcur : posted (byCur ps) c = posted ps (acid, c) := by
      clear hbalance
      induction ps with
      | nil => rfl
      | cons p ps ih =>
        have hp := hps p List.mem_cons_self
        have hrest := ih fun q hq => hps q (List.mem_cons_of_mem _ hq)
        rw [byCur, List.map_cons, posted_cons, posted_cons, ← byCur, hrest]
        congr 1
        simp [Prod.ext_iff, hp]
    simp only [Engine.funds]
    rw [Table.sum_insert, Table.valueAt_of_lookup ha, hbalance, hcur]
    omega
  accounts b := by
    rw [Finmap.mem_insert]
    constructor
    · rintro (rfl | hb)
      · exact Finmap.mem_of_lookup_eq_some ha
      · exact hb
    · exact Or.inr
  discount b := by
    simp only [Engine.discount]
    by_cases hb : b = acid
    · subst hb
      simp [ha, hdiscount]
    · simp [Finmap.lookup_insert_of_ne _ hb]

/-- An account that is written with what one posting changes of it. -/
theorem booked_one {a a' : Account} (ha : e.accounts.lookup acid = some a)
    (hbalance : ∀ c, a'.balance c = a.balance c + if cid = c then amount else 0)
    (hdiscount : a'.commissionDiscount = a.commissionDiscount) :
    Booked [((acid, cid), amount)] e { e with accounts := e.accounts.insert acid a' } := by
  refine booked_insert ha (by simp) (fun c => ?_) hdiscount
  simp [hbalance]

/-- The orders that accounts track after one of them is written. -/
theorem tracked_insert {a : Account} (h : e'.accounts = e.accounts.insert acid a) (b : Id) :
    e'.tracked b = if b = acid then a.orders else e.tracked b := by
  unfold tracked
  rw [h]
  by_cases hb : b = acid
  · subst hb
    simp
  · simp [hb, Finmap.lookup_insert_of_ne _ hb]

/-- The orders that an account tracks. -/
theorem tracked_of_lookup {a : Account} (h : e.accounts.lookup acid = some a) :
    e.tracked acid = a.orders := by
  simp [tracked, h]

/-! ## Payments -/

/-- The engine differs in its accounts only, and tracks the same orders. -/
structure SameBooks (e e' : Engine) : Prop where
  markets : e'.markets = e.markets
  orders : e'.orders = e.orders
  pool : e'.pool = e.pool
  nextAccount : e'.nextAccount = e.nextAccount
  autoMatchFree : e'.autoMatchFree = e.autoMatchFree
  tracked : ∀ a, e'.tracked a = e.tracked a

/-- The books of an engine are its own. -/
theorem SameBooks.refl (e : Engine) : SameBooks e e := ⟨rfl, rfl, rfl, rfl, rfl, fun _ => rfl⟩

/-- Books that stay over two steps stay over both. -/
theorem SameBooks.trans (h : SameBooks e e₁) (h' : SameBooks e₁ e') : SameBooks e e' where
  markets := h'.markets.trans h.markets
  orders := h'.orders.trans h.orders
  pool := h'.pool.trans h.pool
  nextAccount := h'.nextAccount.trans h.nextAccount
  autoMatchFree := h'.autoMatchFree.trans h.autoMatchFree
  tracked a := (h'.tracked a).trans (h.tracked a)

/-- A deposit posts its amount and leaves the books. -/
theorem deposit_spec (h : e.deposit acid cid amount = some e') :
    Booked [((acid, cid), amount)] e e' ∧ SameBooks e e' := by
  obtain ⟨a, ha, rfl⟩ := modifyAccount_eq h
  refine ⟨booked_one ha (a.balance_deposit cid amount) rfl, rfl, rfl, rfl, rfl, rfl, fun b => ?_⟩
  rw [tracked_insert rfl]
  split_ifs with hb
  · rw [hb, tracked_of_lookup ha]
    rfl
  · rfl

/-- The postings of a payment of which a part is the commission. -/
def payment (parts : ℤ × ℤ) (acid : Id) (cur : Cur) : List ((Id × Cur) × ℤ) :=
  [((systemAccount, cur), parts.2), ((acid, cur), parts.1)]

/-- `pay0` posts the net amount and the commission and leaves the books. -/
theorem pay0_spec {net commission : ℤ} (h : e.pay0 acid cid net commission = some e') :
    Booked (payment (net, commission) acid cid) e e' ∧ SameBooks e e' := by
  obtain ⟨e₁, h₁, h₂⟩ := Option.bind_eq_some_iff.mp h
  obtain ⟨hbooked₁, hsame₁⟩ := deposit_spec h₁
  obtain ⟨hbooked₂, hsame₂⟩ := deposit_spec h₂
  exact ⟨hbooked₁.trans hbooked₂, hsame₁.trans hsame₂⟩

/-- `pay` posts the amount less the commission, and the commission, and leaves the books. -/
theorem pay_spec [Rounding] (h : e.pay acid cid amount = some e') :
    Booked (payment (netcomm (e.discount acid) amount) acid cid) e e' ∧ SameBooks e e' := by
  simp only [pay, Option.bind_eq_bind, Option.bind_eq_some_iff] at h
  obtain ⟨a, ha, h⟩ := h
  have hdiscount : e.discount acid = a.commissionDiscount := by simp [Engine.discount, ha]
  rw [hdiscount]
  exact pay0_spec h

/-- The parts of a payment: all of it goes to the account when it is free. -/
def parts [Rounding] (free : Bool) (discount : ℚ) (amount : ℤ) : ℤ × ℤ :=
  if free then (amount, 0) else netcomm discount amount

/-- The postings for one match: to the owner of the order that rests, and to the
account that trades. -/
def settlement [Rounding] (e : Engine) (acid : Id) (i : MatchItem) : List ((Id × Cur) × ℤ) :=
  match e.pool.live.lookup i.layOrderId with
  | none => []
  | some o =>
    let free := decide (acid = o.accountId ∧ e.autoMatchFree = true)
    payment (parts free (e.discount o.accountId) i.lay.received) o.accountId i.lay.receivedCur ++
      payment (parts free (e.discount acid) i.back.received) acid i.back.receivedCur

/-- Settling one match posts its settlement, and its order was in the table. -/
theorem settle_spec [Rounding] {i : MatchItem} (h : settle acid e i = some e') :
    Booked (e.settlement acid i) e e' ∧ SameBooks e e' ∧ i.layOrderId ∈ e.orders := by
  unfold settle at h
  split_ifs at h with hmem
  simp only [Option.bind_eq_bind, Option.bind_eq_some_iff] at h
  obtain ⟨o, ho, h⟩ := h
  unfold settlement
  rw [ho]
  split_ifs at h with hfree
  · obtain ⟨e₁, h₁, h₂⟩ := Option.bind_eq_some_iff.mp h
    obtain ⟨hbooked₁, hsame₁⟩ := pay0_spec h₁
    obtain ⟨hbooked₂, hsame₂⟩ := pay0_spec h₂
    simp only [decide_eq_true hfree, parts, if_true]
    exact ⟨hbooked₁.trans hbooked₂, hsame₁.trans hsame₂, hmem⟩
  · obtain ⟨e₁, h₁, h₂⟩ := Option.bind_eq_some_iff.mp h
    obtain ⟨hbooked₁, hsame₁⟩ := pay_spec h₁
    obtain ⟨hbooked₂, hsame₂⟩ := pay_spec h₂
    rw [hbooked₁.discount] at hbooked₂
    simp only [decide_eq_false hfree, parts, Bool.false_eq_true, if_false]
    exact ⟨hbooked₁.trans hbooked₂, hsame₁.trans hsame₂, hmem⟩

/-- The settlement of a match does not depend on the balances. -/
theorem settlement_congr [Rounding] (hbooked : Booked ps e e') (hsame : SameBooks e e') (acid : Id)
    (i : MatchItem) : e'.settlement acid i = e.settlement acid i := by
  unfold settlement
  rw [hsame.pool, hsame.autoMatchFree, hbooked.discount]
  cases e.pool.live.lookup i.layOrderId with
  | none => rfl
  | some o => simp only [hbooked.discount]

/-- The loop of `process` over the matches. -/
theorem settleAll_spec [Rounding] {items : List MatchItem}
    (h : items.foldlM (settle acid) e = some e') :
    Booked (items.flatMap (e.settlement acid)) e e' ∧ SameBooks e e' ∧
      ∀ i ∈ items, i.layOrderId ∈ e.orders := by
  induction items generalizing e with
  | nil =>
    obtain rfl := Option.some.inj h
    exact ⟨.refl rfl, .refl _, by simp⟩
  | cons i items ih =>
    simp only [List.foldlM_cons, Option.bind_eq_bind, Option.bind_eq_some_iff] at h
    obtain ⟨e₁, h₁, h⟩ := h
    obtain ⟨hbooked₁, hsame₁, hmem₁⟩ := settle_spec h₁
    obtain ⟨hbooked, hsame, hmem⟩ := ih h
    have hflat : items.flatMap (e₁.settlement acid) = items.flatMap (e.settlement acid) :=
      List.flatMap_congr fun j _ => settlement_congr hbooked₁ hsame₁ acid j
    rw [hflat] at hbooked
    refine ⟨hbooked₁.trans hbooked, hsame₁.trans hsame, fun j hj => ?_⟩
    rcases List.mem_cons.mp hj with rfl | hj
    · exact hmem₁
    · exact hsame₁.orders ▸ hmem j hj

/-! ## Expired orders -/

/-- What an order that expires is posted as. -/
def refund (p : OrderPool) (i : Id) : List ((Id × Cur) × ℤ) :=
  match p.live.lookup i with
  | none => []
  | some o => [((o.accountId, o.paidCur), o.value)]

/-- The owner of an order. -/
def ownerOf (p : OrderPool) (i : Id) : Option Id := (p.live.lookup i).map Order.accountId

/-- Orders that are posted to their owners leave the tables. -/
structure Removed (ids : List Id) (e e' : Engine) : Prop where
  markets : e'.markets = e.markets
  orders : ∀ j, j ∈ e'.orders ↔ j ∈ e.orders ∧ j ∉ ids
  pool : ∀ j, e'.pool.live.lookup j = if j ∈ ids then none else e.pool.live.lookup j
  next : e'.pool.next = e.pool.next
  nextAccount : e'.nextAccount = e.nextAccount
  autoMatchFree : e'.autoMatchFree = e.autoMatchFree
  tracked : ∀ a j, j ∈ e'.tracked a ↔ j ∈ e.tracked a ∧ ¬(j ∈ ids ∧ ownerOf e.pool j = some a)

/-- Expiring an order refunds its value and removes it. -/
theorem expireOrder_spec (h : e.expireOrder i = some e') :
    Booked (refund e.pool i) e e' ∧ Removed [i] e e' := by
  simp only [expireOrder, Option.bind_eq_bind, Option.bind_eq_some_iff] at h
  obtain ⟨o, ho, e₁, h₁, h⟩ := h
  obtain rfl := Option.some.inj h
  obtain ⟨a, ha, rfl⟩ := modifyAccount_eq h₁
  have hbooked : Booked [((o.accountId, o.paidCur), o.value)] e { e with
      accounts := e.accounts.insert o.accountId ((a.deposit o.paidCur o.value).untrackOrder i) } :=
    booked_one ha (a.balance_deposit o.paidCur o.value) rfl
  refine ⟨?_, rfl, fun j => ?_, fun j => ?_, rfl, rfl, rfl, fun b j => ?_⟩
  · rw [refund, ho]
    exact hbooked.congr rfl rfl
  · simp [and_comm]
  · dsimp only [OrderPool.delete]
    by_cases hj : j = i
    · subst hj
      simp
    · simp [hj, Finmap.lookup_erase_ne hj]
  · rw [tracked_insert (e := e) (a := (a.deposit o.paidCur o.value).untrackOrder i) rfl]
    by_cases hb : b = o.accountId
    · subst hb
      rw [if_pos rfl, tracked_of_lookup ha]
      by_cases hj : j = i
      · subst hj
        simp [Account.untrackOrder, ownerOf, ho]
      · simp [Account.untrackOrder, Account.deposit, hj]
    · rw [if_neg hb]
      by_cases hj : j = i
      · subst hj
        simp [ownerOf, ho, Ne.symm hb]
      · simp [hj]

/-- The loop of `process` over the expired orders. -/
theorem expireAll_spec {ids : List Id} (hids : ids.Nodup)
    (h : ids.foldlM expireOrder e = some e') :
    Booked (ids.flatMap (refund e.pool)) e e' ∧ Removed ids e e' := by
  induction ids generalizing e with
  | nil =>
    obtain rfl := Option.some.inj h
    exact ⟨.refl rfl, rfl, by simp, by simp, rfl, rfl, rfl, by simp⟩
  | cons i ids ih =>
    simp only [List.foldlM_cons, Option.bind_eq_bind, Option.bind_eq_some_iff] at h
    obtain ⟨e₁, h₁, h⟩ := h
    rw [List.nodup_cons] at hids
    obtain ⟨hbooked₁, hremoved₁⟩ := expireOrder_spec h₁
    obtain ⟨hbooked, hremoved⟩ := ih hids.2 h
    have hother : ∀ j ∈ ids, e₁.pool.live.lookup j = e.pool.live.lookup j := fun j hj => by
      have hne : j ≠ i := fun hji => hids.1 (hji ▸ hj)
      simp [hremoved₁.pool, hne]
    have hflat : ids.flatMap (refund e₁.pool) = ids.flatMap (refund e.pool) :=
      List.flatMap_congr fun j hj => by simp only [refund, hother j hj]
    rw [hflat] at hbooked
    refine ⟨hbooked₁.trans hbooked, hremoved.markets.trans hremoved₁.markets, fun j => ?_,
      fun j => ?_, hremoved.next.trans hremoved₁.next,
      hremoved.nextAccount.trans hremoved₁.nextAccount,
      hremoved.autoMatchFree.trans hremoved₁.autoMatchFree, fun b j => ?_⟩
    · rw [hremoved.orders, hremoved₁.orders]
      simp [not_or, and_assoc]
    · rw [hremoved.pool, hremoved₁.pool]
      by_cases hj : j ∈ ids <;> simp [hj]
    · rw [hremoved.tracked, hremoved₁.tracked]
      by_cases hj : j ∈ ids
      · have hne : j ≠ i := fun hji => hids.1 (hji ▸ hj)
        simp [hj, hne, ownerOf, hother j hj]
      · simp [hj]

end Engine

end AcCore.Tex.Cex
