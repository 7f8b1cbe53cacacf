import AcCore.Gov.Cash.Balance
import AcCore.Lib.Run

/-!
# The money supply

A pool holds balances, not changes of balances: what a block writes over the
accounts is what they were when the transactions were processed. This file
determines, in exact integers, when the accounts and the supply that is left
keep their total in the runs of a single contributor.
-/

namespace AcCore.Gov.Cash

open Lib Engine

/-! ## The reward is paid in full -/

/-- What the accounts of a table have together. -/
def Accounts.total (accounts : Accounts) : ℤ := Table.sum Account.box accounts

/-- Truncating what is not negative gives at most that much. -/
theorem truncate_le {q : ℚ} (h : 0 ≤ q) : 0 ≤ truncate q ∧ (truncate q : ℚ) ≤ q := by
  rw [truncate, if_pos h]
  exact ⟨Int.floor_nonneg.mpr h, Int.floor_le q⟩

/-- No contributor has a negative part of the work. -/
theorem relWork_nonneg [Rounding] (w : Pow) (work : ℕ) : 0 ≤ relWork w work := by
  unfold relWork
  split_ifs
  · exact Rounding.round_nonneg (div_nonneg (Rounding.round_nonneg (Nat.cast_nonneg _))
      (Rounding.round_nonneg (Nat.cast_nonneg _)))
  · exact Rounding.round_nonneg (one_div_nonneg.mpr (Rounding.round_nonneg (Nat.cast_nonneg _)))

/-- All the work of the contributors together. -/
def Pow.total (w : Pow) : ℕ := ((Table.toList w).map Prod.snd).sum

/-- The sum of the works in 64 bits is their sum, or zero. -/
def Pow.Exact (w : Pow) : Prop := w.total < 2 ^ 64 ∨ 2 ^ 64 ∣ w.total

/-- The parts of the contributors add up to one. -/
theorem sum_relWork {w : Pow} (hne : Table.toList w ≠ []) (hw : w.Exact) :
    ((Table.toList w).map fun e => relWork w e.2).sum = 1 := by
  simp only [relWork_exact]
  split_ifs with hpos
  · have hdiv : ∀ es : List (Ripemd160 × ℕ), (es.map fun e => (e.2 : ℚ) / w.sum).sum =
        ((es.map Prod.snd).sum : ℚ) / w.sum := by
      intro es
      induction es with
      | nil => simp
      | cons e es ih => simp [ih, add_div]
    have hexact : w.sum = ((Table.toList w).map Prod.snd).sum := by
      obtain hlt | hdvd := hw
      · exact Nat.mod_eq_of_lt hlt
      · exact absurd (Nat.mod_eq_zero_of_dvd hdvd) hpos.ne'
    rw [hdiv, ← hexact, div_self (by exact_mod_cast hpos.ne')]
  · have hlength : ((Table.toList w).length : ℚ) ≠ 0 := by
      exact_mod_cast List.length_pos_of_ne_nil hne |>.ne'
    rw [List.map_const', List.sum_replicate, nsmul_eq_mul, mul_one_div, div_self hlength]

/-- What is paid adds up to the total of the postings. -/
theorem foldl_paid (ps : List (Ripemd160 × ℤ)) (start : ℤ) :
    ps.foldl (fun paid p => id (paid + p.2)) start = start + postedTotal ps := by
  induction ps generalizing start with
  | nil => simp
  | cons p ps ih =>
    rw [List.foldl_cons, ih, postedTotal_cons, id_eq, add_assoc]

section

variable [Rounding] {totalCash : ℤ} {w : Pow} {drawn : ℕ}

/-- A part of the reward as it is computed, before it is made an integer. -/
def shareOf (totalCash : ℤ) (w : Pow) (work : ℕ) : ℚ :=
  Rounding.round (Rounding.round totalCash * relWork w work)

/-- No contributor has a negative share. -/
theorem shareOf_nonneg (h : 0 ≤ totalCash) (work : ℕ) : 0 ≤ shareOf totalCash w work :=
  Rounding.round_nonneg (mul_nonneg (Rounding.round_nonneg (by exact_mod_cast h))
    (relWork_nonneg w work))

/-- No share is negative. -/
theorem shares_nonneg (h : 0 ≤ totalCash) : ∀ p ∈ shares totalCash w, 0 ≤ p.2 := by
  intro p hp
  obtain ⟨e, -, rfl⟩ := List.mem_map.mp hp
  exact (truncate_le (shareOf_nonneg h e.2)).1

/-- The shares together are at most the parts that they are made of. -/
theorem postedTotal_shares_le_sum (h : 0 ≤ totalCash) :
    (postedTotal (shares totalCash w) : ℚ) ≤
      ((Table.toList w).map fun e => shareOf totalCash w e.2).sum := by
  unfold shares
  induction Table.toList w with
  | nil => simp
  | cons e es ih =>
    have hfirst := (truncate_le (shareOf_nonneg (w := w) h e.2)).2
    simp only [List.map_cons, postedTotal_cons, List.sum_cons, Int.cast_add]
    exact add_le_add hfirst ih

end

/-- The shares are not negative, and together at most the reward. -/
theorem postedTotal_shares {totalCash : ℤ} (h : 0 ≤ totalCash) {w : Pow}
    (hne : Table.toList w ≠ []) (hw : w.Exact) :
    (∀ p ∈ shares totalCash w, 0 ≤ p.2) ∧ postedTotal (shares totalCash w) ≤ totalCash := by
  refine ⟨shares_nonneg h, ?_⟩
  have hle := postedTotal_shares_le_sum (w := w) h
  have hparts : ((Table.toList w).map fun e => shareOf totalCash w e.2).sum =
      totalCash * ((Table.toList w).map fun e => relWork w e.2).sum :=
    List.sum_map_mul_left _ _ _
  rw [hparts, sum_relWork hne hw, mul_one] at hle
  exact_mod_cast hle

section

variable [Rounding] {totalCash : ℤ} {w : Pow} {drawn : ℕ}

/-- What the shares are more than the reward. -/
def excess (totalCash : ℤ) (w : Pow) : ℤ := max 0 (postedTotal (shares totalCash w) - totalCash)

/-- What the parts are, up to the four results that are rounded. -/
theorem near_relWork (hne : Table.toList w ≠ []) (work : ℕ) :
    Rounding.Near 4 (relWork w work) (@relWork Rounding.exact w work) := by
  rw [relWork_exact, relWork]
  split_ifs with hpos
  · have hsum : (0 : ℚ) < w.sum := by exact_mod_cast hpos
    have hwork : (0 : ℚ) ≤ work := Nat.cast_nonneg work
    rw [div_eq_mul_inv, div_eq_mul_inv]
    exact (((Rounding.Near.refl _).round hwork).mul
        (((Rounding.Near.refl _).round hsum.le).inv hsum)
      hwork (inv_nonneg.mpr hsum.le)).round (mul_nonneg hwork (inv_nonneg.mpr hsum.le))
  · have hlength : (0 : ℚ) < (Table.toList w).length := by
      exact_mod_cast List.length_pos_of_ne_nil hne
    have hinv := inv_nonneg.mpr hlength.le
    rw [one_div, one_div]
    exact ((((Rounding.Near.refl _).round hlength.le).inv hlength).round hinv).le hinv (by omega)

/-- What a part of the reward is, up to the six results that are rounded. -/
theorem near_shareOf (h : 0 ≤ totalCash) (hne : Table.toList w ≠ []) (work : ℕ) :
    Rounding.Near 6 (shareOf totalCash w work) (totalCash * @relWork Rounding.exact w work) := by
  have hcash : (0 : ℚ) ≤ totalCash := by exact_mod_cast h
  have hpart := @relWork_nonneg Rounding.exact w work
  exact (((Rounding.Near.refl _).round hcash).mul (near_relWork hne work) hcash hpart).round
    (mul_nonneg hcash hpart)

/-- A reward of up to 50 binary digits is not exceeded when the works add up. -/
theorem excess_eq_zero (h : 0 ≤ totalCash) (hle : totalCash ≤ 2 ^ 50)
    (hne : Table.toList w ≠ []) (hw : w.Exact) : excess totalCash w = 0 := by
  have hshares := postedTotal_shares_le_sum (w := w) h
  have hparts : ((Table.toList w).map fun e => shareOf totalCash w e.2).sum ≤
      ((Table.toList w).map fun e =>
        (totalCash : ℚ) * @relWork Rounding.exact w e.2 * (1 + Rounding.unit) ^ 6).sum :=
    List.sum_le_sum fun e _ => (near_shareOf h hne e.2).upper
  rw [List.sum_map_mul_right, List.sum_map_mul_left, sum_relWork hne hw, mul_one] at hparts
  have hgain : 2 ^ 50 * ((1 + Rounding.unit) ^ 6 - 1) < 1 := by norm_num [Rounding.unit]
  have hshare : 0 ≤ (1 + Rounding.unit) ^ 6 - 1 := by norm_num [Rounding.unit]
  have hsmall : (totalCash : ℚ) ≤ 2 ^ 50 := by exact_mod_cast hle
  have hmore := (mul_le_mul_of_nonneg_right hsmall hshare).trans_lt hgain
  have hlt : (postedTotal (shares totalCash w) : ℚ) < totalCash + 1 := by linarith
  have hlt' : postedTotal (shares totalCash w) < totalCash + 1 := by exact_mod_cast hlt
  rw [excess]
  omega

end

/-- Leaving out empty payments changes no total. -/
theorem postedTotal_paid {ps : List (Ripemd160 × ℤ)} (h : ∀ p ∈ ps, 0 ≤ p.2) :
    postedTotal (paid ps) = postedTotal ps := by
  induction ps with
  | nil => rfl
  | cons p ps ih =>
    have hfirst := h p List.mem_cons_self
    have hrest := ih fun q hq => h q (List.mem_cons_of_mem p hq)
    by_cases hpos : 0 < p.2
    · have hpaid : paid (p :: ps) = p :: paid ps := by simp [paid, hpos]
      rw [hpaid, postedTotal_cons, postedTotal_cons, hrest]
    · have hpaid : paid (p :: ps) = paid ps := by simp [paid, hpos]
      rw [hpaid, hrest, postedTotal_cons]
      omega

section

variable [Rounding] {totalCash : ℤ} {w : Pow} {drawn : ℕ}

/-- The payments of a block add up to its reward, or to the shares that exceed it. -/
theorem postedTotal_payments_add (h : 0 ≤ totalCash) (hdrawn : drawn < (Table.toList w).length) :
    postedTotal (paid (payments id totalCash w drawn)) = totalCash + excess totalCash w := by
  have hshares := shares_nonneg (w := w) h
  have hremainder : remainder id totalCash w = totalCash - postedTotal (shares totalCash w) := by
    rw [remainder, foldl_paid, zero_add, id_eq]
  have hget : (Table.toList w)[drawn]? = some (Table.toList w)[drawn] :=
    List.getElem?_eq_getElem hdrawn
  unfold payments excess
  by_cases hpos : 0 < remainder id totalCash w
  · rw [if_pos hpos, hget, postedTotal_paid]
    · simp only [Option.toList_some, List.map_cons, List.map_nil, postedTotal_append,
        postedTotal_cons, postedTotal_nil]
      omega
    · intro p hp
      rcases List.mem_append.mp hp with hp | hp
      · exact hshares p hp
      · simp only [Option.toList_some, List.map_cons, List.map_nil, List.mem_singleton] at hp
        rw [hp]
        exact hpos.le
  · rw [if_neg hpos, List.append_nil, postedTotal_paid hshares]
    omega

end

/-- The payments of a block add up to its reward. -/
theorem postedTotal_payments {totalCash : ℤ} (h : 0 ≤ totalCash) {w : Pow}
    (hne : Table.toList w ≠ []) (hw : w.Exact) {drawn : ℕ}
    (hdrawn : drawn < (Table.toList w).length) :
    postedTotal (paid (payments id totalCash w drawn)) = totalCash := by
  have hle := (postedTotal_shares h hne hw).2
  rw [postedTotal_payments_add h hdrawn, excess]
  omega

/-! ## What a block does to the total -/

/-- What the accounts have together and what is left to mint. -/
def Db.worth (db : Db) : ℤ := db.accounts.total + db.supplyLeft

/-- Neither the supply that is left nor the reward is negative. -/
def Db.SupplyNonneg (db : Db) : Prop := 0 ≤ db.supplyLeft ∧ 0 ≤ db.blockReward

/-- What is minted comes out of the supply that is left. -/
theorem getNewcash_exact (db : Db) (h : db.SupplyNonneg) :
    0 ≤ (db.getNewcash id).1 ∧ (db.getNewcash id).2.SupplyNonneg ∧
      (db.getNewcash id).1 + (db.getNewcash id).2.supplyLeft = db.supplyLeft := by
  obtain ⟨hsupply, hreward⟩ := h
  unfold Db.getNewcash Db.SupplyNonneg
  split_ifs with hge <;> simp only [id_eq] <;> omega

/-- A payment adds its amount to the total of the accounts. -/
theorem total_pay {p : Ripemd160 × ℤ} (h : 0 < p.2) (accounts : Accounts) :
    Accounts.total (accounts.pay id p.1 p.2).1 = accounts.total + p.2 := by
  unfold Accounts.pay Accounts.total
  rw [if_neg (by omega)]
  cases hlookup : accounts.lookup p.1 with
  | none =>
    have hvalue : Table.valueAt Account.box accounts p.1 = 0 := by
      simp [Table.valueAt, hlookup]
    simp only [Table.sum_insert, hvalue]
    omega
  | some acc =>
    simp only [Table.sum_insert, Table.valueAt_of_lookup hlookup, id_eq]
    omega

/-- Payments add their amounts to the total of the accounts. -/
theorem total_payAll (ps : List (Ripemd160 × ℤ)) (accounts : Accounts) :
    Accounts.total (payAll id accounts ps) = accounts.total + postedTotal (paid ps) := by
  induction ps generalizing accounts with
  | nil => simp [payAll, paid]
  | cons p ps ih =>
    have hcons : payAll id accounts (p :: ps) = payAll id (accounts.pay id p.1 p.2).1 ps := rfl
    by_cases hpos : 0 < p.2
    · have hpaid : paid (p :: ps) = p :: paid ps := by simp [paid, hpos]
      rw [hcons, ih, total_pay hpos, hpaid, postedTotal_cons, add_assoc]
    · have hpaid : paid (p :: ps) = paid ps := by simp [paid, hpos]
      have hrefused : accounts.pay id p.1 p.2 = (accounts, false) := by
        rw [Accounts.pay, if_pos (by omega)]
      rw [hcons, ih, hrefused, hpaid]

/-- A block that somebody contributed to, with a drawn contributor. -/
def Pow.Pays (w : Pow) (drawn : ℕ) : Prop := drawn < (Table.toList w).length

/-- Whether a reward is paid is decided by adding up the works. -/
instance (w : Pow) (drawn : ℕ) : Decidable (w.Pays drawn) := inferInstanceAs (Decidable (_ < _))

section

variable [Rounding]

/-- What a block with these fees pays more than its reward and the fees. -/
def Db.overpaid (db : Db) (fees : ℤ) (w : Pow) : ℤ := excess ((db.getNewcash id).1 + fees) w

/-- The reward adds the fees to the total: the rest comes from the supply. -/
theorem worth_spread {db : Db} (hdb : db.SupplyNonneg) {fees : ℤ} (hfees : 0 ≤ fees) {w : Pow}
    {drawn : ℕ} (hw : w.Pays drawn) :
    (App.spread id db fees w drawn).worth = db.worth + fees + db.overpaid fees w ∧
      (App.spread id db fees w drawn).SupplyNonneg := by
  have hne : Table.toList w ≠ [] := List.ne_nil_of_length_pos (Nat.zero_lt_of_lt hw)
  obtain ⟨hnewcash, hnonneg, hminted⟩ := getNewcash_exact db hdb
  have hpaid := postedTotal_payments_add (add_nonneg hnewcash hfees) hw
  unfold App.spread
  rw [if_neg hne]
  refine ⟨?_, hnonneg⟩
  simp only [Db.worth, Db.overpaid, total_payAll, id_eq, hpaid, accounts_getNewcash]
  omega

/-- **A block and the total.** The total changes by what the accounts of the
block have now less than what the pool has for them, by the fees, and by what is paid
too much. -/
theorem worth_importDelta {a : App} (ha : a.db.SupplyNonneg) {d : Delta} (hfees : 0 ≤ d.g.fees)
    {w : Pow} {drawn : ℕ} (hw : w.Pays drawn) :
    (a.importDelta id d w drawn).db.worth =
        a.db.worth + ∑ k ∈ d.g.accounts.keys,
          (d.g.accounts.balance k - a.db.accounts.balance k) + d.g.fees +
            a.db.overpaid d.g.fees w ∧
      (a.importDelta id d w drawn).db.SupplyNonneg := by
  have hover : Accounts.total (a.db.accounts.importAccounts d.g.accounts) =
      a.db.accounts.total + ∑ k ∈ d.g.accounts.keys,
        (d.g.accounts.balance k - a.db.accounts.balance k) :=
    Table.sum_of_overwrite Account.box (balance_importAccounts a.db.accounts d.g.accounts)
  have hdb : ({ a.db with accounts := a.db.accounts.importAccounts d.g.accounts } :
      Db).SupplyNonneg := ha
  obtain ⟨hworth, hnonneg⟩ := worth_spread hdb hfees hw
  refine ⟨?_, hnonneg⟩
  rw [App.importDelta, hworth]
  have hsame : Db.overpaid { a.db with accounts := a.db.accounts.importAccounts d.g.accounts }
      d.g.fees w = a.db.overpaid d.g.fees w := by
    unfold Db.overpaid
    rw [newcash_withAccounts]
  simp only [Db.worth, hover, hsame]
  omega

end

/-! ## What a transaction does to the pool -/

/-- Without wrapping the sum of the amounts is exact. -/
theorem sumAmounts_exact {amounts : List Int64} {start sum : ℤ}
    (h : amounts.foldlM (fun sum a => if a.toInt ≤ 0 then none else some (id (sum + a.toInt)))
      start = some sum) :
    sum = start + (amounts.map Int64.toInt).sum := by
  induction amounts generalizing start with
  | nil =>
    cases h
    simp
  | cons a amounts ih =>
    simp only [List.foldlM_cons, Option.bind_eq_bind, Option.bind_eq_some_iff] at h
    obtain ⟨next, hnext, hrest⟩ := h
    split_ifs at hnext
    cases hnext
    rw [ih hrest, List.map_cons, List.sum_cons, id_eq, add_assoc]

/-- The fee is what the inputs take more than the outputs give. -/
theorem check_exact {t : Tx} (h : 0 ≤ t.check id) :
    postedTotal t.debits + postedTotal t.credits = -t.check id := by
  unfold Tx.check at h ⊢
  cases hin : sumAmounts id (t.inputs.map Input.amount) with
  | none => simp [hin] at h
  | some sumInputs =>
    cases hout : sumAmounts id (t.outputs.map Output.amount) with
    | none => simp [hin, hout] at h
    | some sumOutputs =>
      have hdebits : postedTotal t.debits = -sumInputs := by
        rw [sumAmounts_exact hin, zero_add]
        simp [postedTotal, Tx.debits, List.sum_neg, Function.comp_def]
      have hcredits : postedTotal t.credits = sumOutputs := by
        rw [sumAmounts_exact hout, zero_add]
        simp [postedTotal, Tx.credits, Function.comp_def]
      simp only [hdebits, hcredits, id_eq]
      omega

/-- Without wrapping every integer is exact. -/
theorem exactOn_univ : ExactOn id Set.univ where
  ordConnected := Set.ordConnected_univ
  zero_mem := Set.mem_univ 0
  wrap_eq _ _ := rfl
  wrap_amount _ := rfl

/-! ## Runs of a single contributor -/

/-- A node that contributes alone: its app, and the pool of the block in flight.
With each pool goes `base`, which is not part of the code: the balance that each
of its addresses had in the db when it entered the pool. -/
structure Contributor where
  app : App
  base : Ripemd160 → ℤ
  inFlight : Option (LocalDelta × (Ripemd160 → ℤ))

/-- What happens to the app. -/
inductive ContributorEvent where
  /-- A transaction that passes the check is processed. -/
  | process (t : Tx)
  /-- The pool goes out: the block in flight is made of it. -/
  | createLocalDelta
  /-- The block in flight is imported, with the works `w` of its contributors. -/
  | importBlock (entries : Delta.Listing) (w : Pow) (drawn : ℕ)

namespace Contributor

/-- Before the first block. -/
def genesis : Contributor := ⟨App.create, fun _ => 0, none⟩

/-- The base of the pool after an event that may have brought addresses into it. -/
def rebase (a : App) (base : Ripemd160 → ℤ) (x : Ripemd160) : ℤ :=
  if x ∈ a.pool.accounts then base x else a.db.accounts.balance x

variable [Rounding] (ripemd : List UInt8 → Ripemd160) (programs : LockingPrograms)

/-- One event; `none` when the cycle does not allow it. -/
def step (s : Contributor) : ContributorEvent → Option Contributor
  | .process t =>
    if 0 ≤ t.check id then
      some { s with app := s.app.process id programs t, base := rebase s.app s.base }
    else none
  | .createLocalDelta =>
    if s.inFlight.isNone then
      let (g, app) := s.app.createLocalDelta
      some ⟨app, fun _ => 0, some (g, s.base)⟩
    else none
  | .importBlock entries w drawn =>
    s.inFlight.bind fun g =>
      if Delta.MergeLists ripemd [g.1] entries ∧ w.Pays drawn then
        some { s with
          app := s.app.importDelta id (Delta.merged ripemd [g.1] entries) w drawn
          inFlight := none }
      else none

end Contributor

/-- The balances of the pool differ from its base by the fees only. -/
def BalancedOver (g : LocalDelta) (base : Ripemd160 → ℤ) : Prop :=
  0 ≤ g.fees ∧ ∑ k ∈ g.accounts.keys, (g.accounts.balance k - base k) = -g.fees

/-- What holds in every state of a run. -/
structure Balanced (s : Contributor) : Prop where
  pool : BalancedOver s.app.pool s.base
  inFlight : ∀ g base, s.inFlight = some (g, base) → BalancedOver g base
  supply : s.app.db.SupplyNonneg

/-- When a block is imported, the addresses of its pool have together in the db
what they had when they entered the pool, and besides what the block pays too much. -/
def Undisturbed [Rounding] (s : Contributor) : ContributorEvent → Prop
  | .importBlock _ w _ => ∀ g base, s.inFlight = some (g, base) →
      ∑ k ∈ g.accounts.keys, s.app.db.accounts.balance k =
        ∑ k ∈ g.accounts.keys, base k + s.app.db.overpaid g.fees w
  | _ => True

variable {ripemd : List UInt8 → Ripemd160} {programs : LockingPrograms}

/-- What a transaction adds to the difference of pool and base at an address. -/
theorem pool_sub_base {a : App} {t : Tx} {batch : Accounts} (hcheck : 0 ≤ t.check id)
    (h : a.batchOf id programs t = some batch) (base : Ripemd160 → ℤ) (k : Ripemd160)
    (hk : k ∈ (a.process id programs t).pool.accounts) :
    (a.process id programs t).pool.accounts.balance k - Contributor.rebase a base k =
      (if k ∈ a.pool.accounts then a.pool.accounts.balance k - base k else 0) +
        posted t.debits k + posted t.credits k := by
  have hfits : a.Fits Set.univ t := ⟨fun _ => Set.mem_univ _, fun _ => Set.mem_univ _⟩
  obtain ⟨htouched, huntouched⟩ := balance_pool_process exactOn_univ.wrap_amount h k
  unfold Contributor.rebase
  by_cases hx : t.Touches k
  · rw [htouched hx, balance_batchOf exactOn_univ h (Tx.amountsPositive_of_check hcheck)
      (fun _ => Set.mem_univ _) hfits, balance_empty]
    split_ifs <;> omega
  · have hdebits : posted t.debits k = 0 := by
      apply posted_eq_zero
      intro p hp heq
      obtain ⟨i, hi, rfl⟩ := List.mem_map.mp hp
      exact hx (Or.inl ⟨i, hi, heq⟩)
    have hcredits : posted t.credits k = 0 := by
      apply posted_eq_zero
      intro p hp heq
      obtain ⟨o, ho, rfl⟩ := List.mem_map.mp hp
      exact hx (Or.inr ⟨o, ho, heq⟩)
    have hold : k ∈ a.pool.accounts := by
      rw [← Finmap.lookup_isSome, lookup_pool_process h,
        Finmap.lookup_eq_none.mpr (mt ((batchOf_eq_some exactOn_univ.wrap_amount h).2 k).mp hx),
        Option.none_or, Finmap.lookup_isSome] at hk
      exact hk
    rw [huntouched hx, if_pos hold, if_pos hold, hdebits, hcredits]
    omega

/-- A transaction changes the balances of the pool by its fee. -/
theorem BalancedOver.process {a : App} {base : Ripemd160 → ℤ} (hpool : BalancedOver a.pool base)
    {t : Tx} (hcheck : 0 ≤ t.check id) :
    BalancedOver (a.process id programs t).pool (Contributor.rebase a base) := by
  cases h : a.batchOf id programs t with
  | none =>
    have hsame : a.process id programs t = a := by rw [App.process, h]
    have hbase : ∑ k ∈ a.pool.accounts.keys,
        (a.pool.accounts.balance k - Contributor.rebase a base k) =
          ∑ k ∈ a.pool.accounts.keys, (a.pool.accounts.balance k - base k) := by
      apply Finset.sum_congr rfl
      intro k hk
      rw [Contributor.rebase, if_pos (Finmap.mem_keys.mp hk)]
    rw [hsame]
    exact ⟨hpool.1, hbase.trans hpool.2⟩
  | some batch =>
    obtain ⟨hfees, hsum⟩ := hpool
    have hfees' : (a.process id programs t).pool.fees = a.pool.fees + t.check id := by
      rw [App.process, h]
      rfl
    have hkeys : ∀ k, k ∈ (a.process id programs t).pool.accounts ↔
        t.Touches k ∨ k ∈ a.pool.accounts := by
      intro k
      rw [← Finmap.lookup_isSome, lookup_pool_process h, Option.isSome_or, Bool.or_eq_true,
        Finmap.lookup_isSome, Finmap.lookup_isSome,
        (batchOf_eq_some exactOn_univ.wrap_amount h).2 k]
    have hsub : a.pool.accounts.keys ⊆ (a.process id programs t).pool.accounts.keys := by
      intro k hk
      rw [Finmap.mem_keys] at hk ⊢
      exact (hkeys k).mpr (Or.inr hk)
    have hdebits : ∀ p ∈ t.debits, p.1 ∈ (a.process id programs t).pool.accounts.keys := by
      intro p hp
      obtain ⟨i, hi, rfl⟩ := List.mem_map.mp hp
      exact Finmap.mem_keys.mpr ((hkeys _).mpr (Or.inl (Or.inl ⟨i, hi, rfl⟩)))
    have hcredits : ∀ p ∈ t.credits, p.1 ∈ (a.process id programs t).pool.accounts.keys := by
      intro p hp
      obtain ⟨o, ho, rfl⟩ := List.mem_map.mp hp
      exact Finmap.mem_keys.mpr ((hkeys _).mpr (Or.inl (Or.inr ⟨o, ho, rfl⟩)))
    have hold : ∑ k ∈ (a.process id programs t).pool.accounts.keys,
        (if k ∈ a.pool.accounts then a.pool.accounts.balance k - base k else 0) =
          -a.pool.fees := by
      simp only [← Finmap.mem_keys]
      rw [Finset.sum_ite_mem, Finset.inter_eq_right.mpr hsub, hsum]
    refine ⟨by rw [hfees']; omega, ?_⟩
    rw [Finset.sum_congr rfl fun k hk => pool_sub_base hcheck h base k (Finmap.mem_keys.mp hk),
      Finset.sum_add_distrib, Finset.sum_add_distrib, hold, sum_posted hdebits,
      sum_posted hcredits, hfees']
    have := check_exact hcheck
    omega

/-- Every event keeps the pools balanced. -/
theorem Balanced.step [Rounding] {s s' : Contributor} {e : ContributorEvent} (hs : Balanced s)
    (h : s.step ripemd programs e = some s') : Balanced s' := by
  cases e with
  | process t =>
    simp only [Contributor.step, Option.ite_none_right_eq_some, Option.some.injEq] at h
    obtain ⟨hcheck, rfl⟩ := h
    have hdb : (s.app.process id programs t).db = s.app.db := by
      unfold App.process
      split <;> rfl
    exact ⟨hs.pool.process hcheck, hs.inFlight, by rw [hdb]; exact hs.supply⟩
  | createLocalDelta =>
    simp only [Contributor.step, Option.ite_none_right_eq_some, Option.some.injEq] at h
    obtain ⟨-, rfl⟩ := h
    refine ⟨⟨le_rfl, rfl⟩, fun g base hg => ?_, hs.supply⟩
    cases hg
    exact hs.pool
  | importBlock entries w drawn =>
    simp only [Contributor.step, Option.bind_eq_some_iff, Option.ite_none_right_eq_some,
      Option.some.injEq] at h
    obtain ⟨g, hg, ⟨hentries, hw⟩, rfl⟩ := h
    have hfees : 0 ≤ (Delta.merged ripemd [g.1] entries).g.fees := by
      rw [Delta.merged_g_singleton hentries]
      exact (hs.inFlight g.1 g.2 hg).1
    refine ⟨hs.pool, fun _ _ hnone => (by cases hnone), ?_⟩
    exact (worth_importDelta hs.supply hfees hw).2

/-- An event keeps the total exactly when it is no import of a pool whose
addresses have another total in the db than when they entered the pool. -/
theorem Balanced.worth_eq_iff [Rounding] {s s' : Contributor} {e : ContributorEvent}
    (hs : Balanced s)
    (h : s.step ripemd programs e = some s') :
    s'.app.db.worth = s.app.db.worth ↔ Undisturbed s e := by
  cases e with
  | process t =>
    simp only [Contributor.step, Option.ite_none_right_eq_some, Option.some.injEq] at h
    obtain ⟨-, rfl⟩ := h
    have hdb : (s.app.process id programs t).db = s.app.db := by
      unfold App.process
      split <;> rfl
    simp [Undisturbed, hdb]
  | createLocalDelta =>
    simp only [Contributor.step, Option.ite_none_right_eq_some, Option.some.injEq] at h
    obtain ⟨-, rfl⟩ := h
    simp [Undisturbed, App.createLocalDelta]
  | importBlock entries w drawn =>
    simp only [Contributor.step, Option.bind_eq_some_iff, Option.ite_none_right_eq_some,
      Option.some.injEq] at h
    obtain ⟨⟨g, base⟩, hg, ⟨hentries, hw⟩, rfl⟩ := h
    obtain ⟨hfees, hsum⟩ := hs.inFlight g base hg
    have hmerged : (Delta.merged ripemd [g] entries).g = g := Delta.merged_g_singleton hentries
    have hworth := (worth_importDelta hs.supply (by rw [hmerged]; exact hfees) hw).1
    rw [hmerged, Finset.sum_sub_distrib] at hworth
    rw [Finset.sum_sub_distrib] at hsum
    have hcond : Undisturbed s (.importBlock entries w drawn) ↔
        ∑ k ∈ g.accounts.keys, s.app.db.accounts.balance k =
          ∑ k ∈ g.accounts.keys, base k + s.app.db.overpaid g.fees w := by
      constructor
      · exact fun h => h g base hg
      · intro heq g' base' hg'
        cases hg.symm.trans hg'
        exact heq
    rw [hcond]
    change (s.app.importDelta id (Delta.merged ripemd [g] entries) w drawn).db.worth = _ ↔ _
    omega

/-- **The money supply.** In every run of a single contributor, the accounts
and the supply that is left have their genesis total in every state, which only
imports could change, exactly when at every import the addresses of the pool
have together in the db what they had when they entered the pool, and besides what
the rounded shares of the block exceed its reward by. -/
theorem supply_conserved_iff [Rounding] (ripemd : List UInt8 → Ripemd160)
    (programs : LockingPrograms)
    {es : List ContributorEvent} {s : Contributor}
    (hrun : run (Contributor.step ripemd programs) Contributor.genesis es = some s) :
    (∀ es' s', es' <+: es →
        run (Contributor.step ripemd programs) Contributor.genesis es' = some s' →
        s'.app.db.worth = 2100000000000000) ↔
      AlongRun (Contributor.step ripemd programs) Undisturbed Contributor.genesis es := by
  have hinit : Balanced Contributor.genesis :=
    ⟨⟨le_rfl, rfl⟩, fun _ _ hnone => (by cases hnone), by decide, by decide⟩
  have hgenesis : Contributor.genesis.app.db.worth = 2100000000000000 := rfl
  rw [← hgenesis]
  exact constant_iff_alongRun (q := fun s => s.app.db.worth) (fun _ _ _ hs h => hs.step h)
    (fun _ _ _ hs h => hs.worth_eq_iff h) hinit hrun

/-! ## A payment while a block is in flight -/

/-- Locking programs that accept every input. -/
def openPrograms : LockingPrograms := ⟨fun _ _ _ _ => true, fun _ => true⟩

/-- The contributor, as the only one in the work of a block. -/
def soleWork : Pow := Finmap.singleton (Ripemd160.set 7) 0

/-- A payment of 100 by the contributor. -/
def paymentOfSeven : Tx where
  inputs := [⟨Ripemd160.set 7, 100, []⟩]
  outputs := [⟨Ripemd160.set 8, 100, Ripemd160.set 1⟩]
  ts := 1550000000000000000

/-- The import of a block made of a pool with the given accounts. -/
def importOf (g : LocalDelta) : ContributorEvent :=
  .importBlock [⟨g.key fun _ => Ripemd160.zero, (g, 1)⟩] soleWork 0

/-- The pool without a transaction, as it goes out. -/
def emptyPool : LocalDelta := { LocalDelta.create with policies := tempLoad }

/-- The pool with the payment, as it goes out, when the contributor has had one
reward. -/
def paymentPool : LocalDelta where
  policies := tempLoad
  accounts := (Finmap.singleton (Ripemd160.set 7) ⟨Ripemd160.set 1, 499999900⟩ : Accounts).insert
    (Ripemd160.set 8) ⟨Ripemd160.set 1, 100⟩
  fees := 0

/-- After the first reward the payment is processed and its block imported. -/
def calmRun : List ContributorEvent :=
  [.createLocalDelta, importOf emptyPool, .process paymentOfSeven, .createLocalDelta,
    importOf paymentPool]

/-- After the first reward the payment is processed while the next block is in
flight, which pays a reward to the contributor. -/
def disturbedRun : List ContributorEvent :=
  [.createLocalDelta, importOf emptyPool, .createLocalDelta, .process paymentOfSeven,
    importOf emptyPool, .createLocalDelta, importOf paymentPool]

open scoped Doubles in
/-- The equivalence at the run in which nothing comes in between. -/
theorem supply_conserved_iff_calmRun :
    ∃ s, run (Contributor.step (fun _ => Ripemd160.zero) openPrograms) Contributor.genesis
        calmRun = some s ∧ s.app.db.worth = 2100000000000000 ∧
      ((∀ es' s', es' <+: calmRun →
          run (Contributor.step (fun _ => Ripemd160.zero) openPrograms) Contributor.genesis es' =
            some s' → s'.app.db.worth = 2100000000000000) ↔
        AlongRun (Contributor.step (fun _ => Ripemd160.zero) openPrograms) Undisturbed
          Contributor.genesis calmRun) := by
  have hworth : (run (Contributor.step (fun _ => Ripemd160.zero) openPrograms)
      Contributor.genesis calmRun).map (fun s => s.app.db.worth) = some 2100000000000000 := by
    decide +kernel
  obtain ⟨s, hs, hlast⟩ := Option.map_eq_some_iff.mp hworth
  exact ⟨s, hs, hlast, supply_conserved_iff _ openPrograms hs⟩

open scoped Doubles in
/-- The payment that is processed while a block is in flight makes the next
block take a reward back from the contributor. -/
theorem disturbedRun_loses_reward :
    ∃ s, run (Contributor.step (fun _ => Ripemd160.zero) openPrograms) Contributor.genesis
        disturbedRun = some s ∧ s.app.db.worth = 2100000000000000 - 500000000 := by
  have hworth : (run (Contributor.step (fun _ => Ripemd160.zero) openPrograms)
      Contributor.genesis disturbedRun).map (fun s => s.app.db.worth) =
        some (2100000000000000 - 500000000) := by
    decide +kernel
  exact Option.map_eq_some_iff.mp hworth

open scoped Doubles in
/-- A reward that is not a `double` is rounded up, and more is paid than there is. -/
example : excess 9007199254740995 soleWork = 1 := by decide +kernel

end AcCore.Gov.Cash
