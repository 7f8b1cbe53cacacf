import AcCore.Gov.Cash.Fees
import AcCore.Wallet.Wallet

/-!
# The accounts that are withdrawn from

They are the first in the order of their boxes, each but the last is emptied, and
together they give what was asked for when there is enough.
-/

namespace AcCore.Wallet

open Lib Gov Gov.Cash Gov.Engine

/-- What some accounts have together. -/
def boxes (es : List (Ripemd160 × Account)) : ℤ := (es.map fun e => e.2.box).sum

/-- Without accounts there are no boxes. -/
@[simp] theorem boxes_nil : boxes [] = 0 := rfl

/-- An account adds its box. -/
@[simp] theorem boxes_cons (e : Ripemd160 × Account) (es : List (Ripemd160 × Account)) :
    boxes (e :: es) = e.2.box + boxes es := by
  rw [boxes, List.map_cons, List.sum_cons, boxes]

/-- The account of an input, with its address. -/
def InputAccount.entry (a : InputAccount) : Ripemd160 × Account := (a.address, a.toAccount)

/-- The accounts are the first ones. -/
theorem prefix_withdraw (remaining : ℤ) (es : List (Ripemd160 × Account)) :
    (withdraw remaining es).map InputAccount.entry <+: es := by
  induction es generalizing remaining with
  | nil => exact List.nil_prefix
  | cons e es ih =>
    unfold withdraw
    split_ifs
    · rw [List.map_cons]
      exact List.cons_prefix_cons.mpr ⟨rfl, ih _⟩
    · rw [List.map_cons]
      exact List.cons_prefix_cons.mpr ⟨rfl, List.nil_prefix⟩

/-- The account of an input is the one at its index. -/
theorem getElem?_of_withdraw {remaining : ℤ} {es : List (Ripemd160 × Account)} {n : ℕ}
    {a : InputAccount} (h : (withdraw remaining es)[n]? = some a) : es[n]? = some a.entry := by
  obtain ⟨rest, hrest⟩ := prefix_withdraw remaining es
  have hentry : ((withdraw remaining es).map InputAccount.entry)[n]? = some a.entry := by
    rw [List.getElem?_map, h, Option.map_some]
  obtain ⟨hlt, -⟩ := List.getElem?_eq_some_iff.mp hentry
  rw [← hrest, List.getElem?_append_left hlt, hentry]

section Positive

variable {es : List (Ripemd160 × Account)}

/-- Positive boxes add up to no negative sum. -/
theorem boxes_nonneg (hpos : ∀ e ∈ es, 0 < e.2.box) : 0 ≤ boxes es := by
  apply List.sum_nonneg
  intro b hb
  obtain ⟨e, he, rfl⟩ := List.mem_map.mp hb
  exact (hpos e he).le

/-- The first accounts have positive boxes when all have. -/
theorem pos_of_mem_take (hpos : ∀ e ∈ es, 0 < e.2.box) {n : ℕ} :
    ∀ e ∈ es.take n, 0 < e.2.box := fun e he => hpos e (List.mem_of_mem_take he)

/-- What is withdrawn from an account is between nothing and what is left to
withdraw. -/
theorem withdrawAmount_bounds (hpos : ∀ e ∈ es, 0 < e.2.box) {remaining : ℤ}
    (hremaining : 0 ≤ remaining) :
    ∀ a ∈ withdraw remaining es, 0 ≤ a.withdrawAmount ∧ a.withdrawAmount ≤ remaining := by
  induction es generalizing remaining with
  | nil => simp [withdraw]
  | cons e es ih =>
    have hbox := hpos e List.mem_cons_self
    have hrest := fun f hf => hpos f (List.mem_cons_of_mem e hf)
    intro a ha
    unfold withdraw at ha
    split_ifs at ha with hle
    · rcases List.mem_cons.mp ha with rfl | ha
      · exact ⟨hbox.le, hle⟩
      · have := ih hrest (by omega) a ha
        omega
    · rw [List.mem_singleton.mp ha]
      exact ⟨hremaining, le_rfl⟩

/-- What is withdrawn is what was asked for, or all there is. -/
theorem sum_withdraw (hpos : ∀ e ∈ es, 0 < e.2.box) {remaining : ℤ}
    (hremaining : 0 ≤ remaining) :
    ((withdraw remaining es).map InputAccount.withdrawAmount).sum = min remaining (boxes es) := by
  induction es generalizing remaining with
  | nil =>
    rw [boxes_nil, withdraw]
    exact (min_eq_right hremaining).symm
  | cons e es ih =>
    have hrest := fun f hf => hpos f (List.mem_cons_of_mem e hf)
    have hnonneg := boxes_nonneg hrest
    rw [boxes_cons]
    unfold withdraw
    split_ifs with hle
    · have hleft : 0 ≤ remaining - e.2.box := by omega
      have hsum := ih hrest hleft
      rw [List.map_cons, List.sum_cons, hsum]
      dsimp only
      omega
    · rw [List.map_singleton, List.sum_singleton]
      dsimp only
      omega

/-- **How many accounts are withdrawn from**, when something is withdrawn from
each: as many as it takes to have the amount. -/
theorem lt_length_withdraw_iff (hpos : ∀ e ∈ es, 0 < e.2.box) {remaining : ℤ}
    (hsum : ((withdraw remaining es).map InputAccount.withdrawAmount).sum = remaining)
    (hamounts : ∀ a ∈ withdraw remaining es, 0 < a.withdrawAmount) (n : ℕ) :
    n < (withdraw remaining es).length ↔ boxes (es.take n) < remaining := by
  induction es generalizing remaining n with
  | nil =>
    rw [withdraw, List.map_nil, List.sum_nil] at hsum
    rw [withdraw, List.take_nil, boxes_nil, List.length_nil, ← hsum]
    omega
  | cons e es ih =>
    have hbox := hpos e List.mem_cons_self
    have hrest := fun f hf => hpos f (List.mem_cons_of_mem e hf)
    unfold withdraw at hsum hamounts ⊢
    split_ifs at hsum hamounts ⊢ with hle
    · rw [List.map_cons, List.sum_cons] at hsum
      dsimp only at hsum
      have hleft : ((withdraw (remaining - e.2.box) es).map InputAccount.withdrawAmount).sum =
          remaining - e.2.box := by omega
      have hlength := ih hrest hleft (fun a ha => hamounts a (List.mem_cons_of_mem _ ha))
      cases n with
      | zero =>
        rw [List.take_zero, boxes_nil, List.length_cons]
        omega
      | succ n =>
        have hn := hlength n
        rw [List.take_succ_cons, boxes_cons, List.length_cons]
        omega
    · have hamount : 0 < remaining := hamounts _ (List.mem_singleton_self _)
      cases n with
      | zero =>
        rw [List.take_zero, boxes_nil, List.length_singleton]
        omega
      | succ n =>
        have hnonneg := boxes_nonneg (pos_of_mem_take hrest (n := n))
        rw [List.take_succ_cons, boxes_cons, List.length_singleton]
        omega

/-- What is not positive is all taken from one account. -/
theorem withdrawAmount_of_nonpos (hpos : ∀ e ∈ es, 0 < e.2.box) {remaining : ℤ}
    (hremaining : remaining ≤ 0) :
    ∀ a ∈ withdraw remaining es, a.withdrawAmount = remaining := by
  cases es with
  | nil => simp [withdraw]
  | cons e es =>
    have hbox := hpos e List.mem_cons_self
    have hlt : ¬ e.2.box ≤ remaining := by omega
    intro a ha
    rw [withdraw, if_neg hlt, List.mem_singleton] at ha
    rw [ha]

end Positive

/-! ## What is selected -/

/-- The sorted sources are the accounts of the data. -/
theorem mem_sources {std : BoxSort} {data : Accounts} {e : Ripemd160 × Account} :
    e ∈ sources std data ↔ data.lookup e.1 = some e.2 := by
  rw [sources, (std.perm _).mem_iff, Table.mem_toList]

/-- No address is withdrawn from twice. -/
theorem nodup_sources (std : BoxSort) (data : Accounts) :
    ((sources std data).map Prod.fst).Nodup := by
  have hperm : ((sources std data).map Prod.fst).Perm (Table.keyList data) := by
    have := (std.perm (Table.toList data)).map Prod.fst
    rwa [Table.map_fst_toList] at this
  exact hperm.nodup_iff.mpr (Table.nodup_keyList data)

/-- The sources have what the accounts have. -/
theorem boxes_sources (std : BoxSort) (data : Accounts) :
    boxes (sources std data) = boxes (Table.toList data) := by
  have hperm : (sources std data).Perm (Table.toList data) := std.perm _
  exact (hperm.map _).sum_eq

/-- What `select_sources` takes from the accounts that are reported. -/
def select (std : BoxSort) (data : Accounts) (amount : ℤ) : List InputAccount :=
  withdraw amount (sources std data)

/-- What is missing in the outputs of a transaction that is built from accounts. -/
theorem surplus_unsignedTx {accounts : List InputAccount}
    (hvalue : ∀ a ∈ accounts, (Int64.ofInt a.withdrawAmount).toInt = a.withdrawAmount)
    {i : TxMakeP2pkhInput} {ts : UInt64} :
    (unsignedTx accounts i ts).surplus =
      (accounts.map InputAccount.withdrawAmount).sum - i.amount.toInt := by
  have htaken : (unsignedTx accounts i ts).sumInputs =
      (accounts.map InputAccount.withdrawAmount).sum := by
    rw [Tx.sumInputs, unsignedTx, List.map_map]
    exact congrArg List.sum (List.map_congr_left hvalue)
  have hgiven : (unsignedTx accounts i ts).sumOutputs = i.amount.toInt := by
    simp [Tx.sumOutputs, unsignedTx]
  rw [Tx.surplus, htaken, hgiven]

/-- What a selection of accounts for an amount is to be: something from each
account, all of it but once, the amount together or all there is; and the
transaction that is built from it has nothing but positive amounts. -/
structure Selects (data : Accounts) (amount : ℤ) (selected : List InputAccount) : Prop where
  nodup : (selected.map InputAccount.address).Nodup
  withdrawn : ∀ a ∈ selected, data.lookup a.address = some a.toAccount ∧
    0 < a.withdrawAmount ∧ a.withdrawAmount ≤ a.box
  emptied : (selected.filter fun a => a.withdrawAmount ≠ a.box).length ≤ 1
  sum : (selected.map InputAccount.withdrawAmount).sum =
    min amount (boxes (Table.toList data))
  check : amount ≤ boxes (Table.toList data) → ∀ (i : TxMakeP2pkhInput) (ts : UInt64),
    i.amount.toInt + i.fee.toInt = amount → 0 < i.amount.toInt →
      (unsignedTx selected i ts).AmountsPositive ∧
        (unsignedTx selected i ts).check wrapInt64 = i.fee.toInt

/-- No account gives more than it has, and all but the last are emptied. -/
theorem withdrawAmount_le_box (remaining : ℤ) (es : List (Ripemd160 × Account)) :
    (∀ a ∈ withdraw remaining es, a.withdrawAmount ≤ a.box) ∧
      ((withdraw remaining es).filter fun a => a.withdrawAmount ≠ a.box).length ≤ 1 := by
  induction es generalizing remaining with
  | nil => simp [withdraw]
  | cons e es ih =>
    obtain ⟨hle, hemptied⟩ := ih (remaining - e.2.box)
    unfold withdraw
    split_ifs with hbox
    · refine ⟨fun a ha => ?_, ?_⟩
      · rcases List.mem_cons.mp ha with rfl | ha
        · exact le_rfl
        · exact hle a ha
      · rwa [List.filter_cons_of_neg (by simp)]
    · refine ⟨fun a ha => ?_, List.length_filter_le _ _⟩
      rw [List.mem_singleton.mp ha]
      exact (not_le.mp hbox).le

/-- Something is withdrawn from every account when no beginning of them has just
the amount. -/
theorem withdraw_pos {es : List (Ripemd160 × Account)} (hpos : ∀ e ∈ es, 0 < e.2.box)
    {remaining : ℤ} (hremaining : 0 < remaining)
    (hbeginning : ∀ n, n < es.length → boxes (es.take n) ≠ remaining) :
    ∀ a ∈ withdraw remaining es, 0 < a.withdrawAmount := by
  induction es generalizing remaining with
  | nil => simp [withdraw]
  | cons e es ih =>
    have hbox := hpos e List.mem_cons_self
    have hrest := fun f hf => hpos f (List.mem_cons_of_mem e hf)
    intro a ha
    unfold withdraw at ha
    split_ifs at ha with hle
    · rcases List.mem_cons.mp ha with rfl | ha
      · exact hbox
      · cases es with
        | nil => cases ha
        | cons f fs =>
          -- the first account alone does not have the amount
          have hfirst := hbeginning 1 (by simp)
          rw [List.take_succ_cons, List.take_zero, boxes_cons, boxes_nil] at hfirst
          refine ih hrest (by omega) (fun n hn => ?_) a ha
          have hnext := hbeginning (n + 1) (by simpa using hn)
          rw [List.take_succ_cons, boxes_cons] at hnext
          omega
    · rw [List.mem_singleton.mp ha]
      exact hremaining

/-- After a beginning that has just the amount, nothing is withdrawn from one more. -/
theorem exists_withdrawAmount_eq_zero {es : List (Ripemd160 × Account)}
    (hpos : ∀ e ∈ es, 0 < e.2.box) {remaining : ℤ} {n : ℕ} (hn : n < es.length)
    (hbeginning : boxes (es.take n) = remaining) :
    ∃ a ∈ withdraw remaining es, a.withdrawAmount = 0 := by
  induction es generalizing remaining n with
  | nil => cases hn
  | cons e es ih =>
    have hbox := hpos e List.mem_cons_self
    have hrest := fun f hf => hpos f (List.mem_cons_of_mem e hf)
    cases n with
    | zero =>
      rw [List.take_zero, boxes_nil] at hbeginning
      subst hbeginning
      rw [withdraw, if_neg hbox.not_ge]
      exact ⟨_, List.mem_singleton_self _, rfl⟩
    | succ n =>
      rw [List.take_succ_cons, boxes_cons] at hbeginning
      have hnonneg := boxes_nonneg (pos_of_mem_take hrest (n := n))
      obtain ⟨a, ha, hzero⟩ := ih hrest (by simpa using hn)
        (show boxes (es.take n) = remaining - e.2.box by omega)
      rw [withdraw, if_pos (by omega)]
      exact ⟨a, List.mem_cons_of_mem _ ha, hzero⟩

/-- **When the selection of sources is right.** It is exactly when no beginning of
the accounts, in the order of their boxes, has just the amount, unless these are
all accounts: otherwise nothing is withdrawn from the account that comes next. -/
theorem selects_iff (std : BoxSort) {data : Accounts}
    (hdata : ∀ address a, data.lookup address = some a → 0 < a.box) {amount : Int64}
    (hamount : 0 < amount.toInt) :
    (∀ {PrivKey PubKey : Type} {curve : Curve PrivKey PubKey} {ripemd : List UInt8 → Ripemd160}
        (w : Wallet curve ripemd) (report : Report), w.queryAccounts report = .ok data →
          w.selectSources std report amount.toInt = .ok (select std data amount.toInt)) ∧
      (Selects data amount.toInt (select std data amount.toInt) ↔
        ∀ n, n < (sources std data).length →
          boxes ((sources std data).take n) ≠ amount.toInt) := by
  have hpos : ∀ e ∈ sources std data, 0 < e.2.box := fun e he => hdata _ _ (mem_sources.mp he)
  refine ⟨fun w report hreport => by rw [selectSources, hreport]; rfl, fun h n hn heq => ?_,
    fun hbeginning => ?_⟩
  · obtain ⟨a, ha, hzero⟩ := exists_withdrawAmount_eq_zero hpos hn heq
    have := (h.withdrawn a ha).2.1
    omega
  · have hselected := withdraw_pos hpos hamount hbeginning
    have hsum := sum_withdraw hpos hamount.le
    rw [boxes_sources] at hsum
    refine ⟨?_, fun a ha => ⟨?_, hselected a ha, (withdrawAmount_le_box _ _).1 a ha⟩,
      (withdrawAmount_le_box _ _).2, hsum, fun henough i ts htotal hpaid => ?_⟩
    · have hprefix := (prefix_withdraw amount.toInt (sources std data)).map Prod.fst
      rw [List.map_map] at hprefix
      exact hprefix.sublist.nodup (nodup_sources std data)
    · have hentry := (prefix_withdraw amount.toInt (sources std data)).subset
        (List.mem_map_of_mem ha)
      exact mem_sources.mp hentry
    · have hvalue : ∀ a ∈ select std data amount.toInt,
          (Int64.ofInt a.withdrawAmount).toInt = a.withdrawAmount := by
        intro a ha
        have := withdrawAmount_bounds hpos hamount.le a ha
        have := amount.toInt_lt
        exact toInt_ofInt (by omega)
      have hpositive : (unsignedTx (select std data amount.toInt) i ts).AmountsPositive := by
        refine ⟨fun input hinput => ?_, fun output houtput => ?_⟩
        · obtain ⟨a, ha, rfl⟩ := List.mem_map.mp hinput
          rw [hvalue a ha]
          exact hselected a ha
        · obtain rfl := List.mem_singleton.mp houtput
          exact hpaid
      refine ⟨hpositive, ?_⟩
      have hfee : (unsignedTx (select std data amount.toInt) i ts).surplus = i.fee.toInt := by
        have htaken : ((select std data amount.toInt).map InputAccount.withdrawAmount).sum =
            min amount.toInt (boxes (Table.toList data)) := hsum
        rw [surplus_unsignedTx hvalue, htaken, min_eq_left henough]
        omega
      rw [wraps_wrapInt64.check hpositive, hfee]
      exact wrapInt64_of_mem i.fee.le_toInt i.fee.toInt_lt

/-- Accounts by their boxes, the earlier ones first. -/
def insertionSort : BoxSort where
  sort es := es.insertionSort fun e f => e.2.box ≤ f.2.box
  perm es := List.perm_insertionSort _ es
  sorted es := by
    have htotal : Std.Total fun e f : Ripemd160 × Account => e.2.box ≤ f.2.box :=
      ⟨fun e f => le_total e.2.box f.2.box⟩
    have htrans : IsTrans (Ripemd160 × Account) fun e f => e.2.box ≤ f.2.box :=
      ⟨fun _ _ _ => le_trans⟩
    exact List.pairwise_insertionSort _ es

/-- Two accounts with five in each. -/
def twoFives : Accounts :=
  emplaced [(Ripemd160.set 2, ⟨P2pkh.lockingProgramHash, 5⟩),
    (Ripemd160.set 3, ⟨P2pkh.lockingProgramHash, 5⟩)]

/-- Every account of the sample data has a positive box. -/
theorem twoFives_pos (address : Ripemd160) (a : Account) (h : twoFives.lookup address = some a) :
    0 < a.box := by
  rw [twoFives, lookup_emplaced, Option.map_eq_some_iff] at h
  obtain ⟨e, hfind, rfl⟩ := h
  have hmem := List.mem_of_find?_eq_some hfind
  rcases List.mem_cons.mp hmem with rfl | hmem
  · decide
  · obtain rfl := List.mem_singleton.mp hmem
    decide

/-- Eight are five from one and three from the other. -/
theorem selects_iff_twoFives :
    Selects twoFives (8 : Int64).toInt (select insertionSort twoFives (8 : Int64).toInt) :=
  (selects_iff insertionSort twoFives_pos (by decide)).2.mpr (by decide +kernel)

/-- Five are five from one and nothing from the other, which no transaction may
take. -/
theorem twoFives_not_selects :
    (0 : ℤ) ∈ (select insertionSort twoFives (5 : Int64).toInt).map InputAccount.withdrawAmount ∧
      ¬ Selects twoFives (5 : Int64).toInt (select insertionSort twoFives (5 : Int64).toInt) := by
  have hzero : (0 : ℤ) ∈
      (select insertionSort twoFives (5 : Int64).toInt).map InputAccount.withdrawAmount := by
    decide +kernel
  refine ⟨hzero, fun h => ?_⟩
  obtain ⟨a, ha, hnothing⟩ := List.mem_map.mp hzero
  have := (h.withdrawn a ha).2.1
  omega

/-! ## The sum in words of 64 bits -/

/-- The withdrawn amount is the wrapped sum over the accounts. -/
theorem getWithdrawAmount_eq (accounts : List InputAccount) :
    getWithdrawAmount accounts =
      wrapInt64 (accounts.map InputAccount.withdrawAmount).sum := by
  have hfold : ∀ start : ℤ, accounts.foldl (fun w i => wrapInt64 (w + i.withdrawAmount))
      (wrapInt64 start) =
        wrapInt64 (start + (accounts.map InputAccount.withdrawAmount).sum) := by
    induction accounts with
    | nil => simp
    | cons a accounts ih =>
      intro start
      rw [List.foldl_cons, wraps_wrapInt64.add, ih, List.map_cons, List.sum_cons, add_assoc]
  have hsum := hfold 0
  rwa [wraps_wrapInt64.zero, zero_add] at hsum

end AcCore.Wallet
