import AcCore.Gov.Cash.Overdraft
import AcCore.Gov.Cash.Supply

/-!
# Rewards

The import of a block spreads the fees and the new cash over the contributors
by their work. `pow_t::sum` adds the work up in a word of 64 bits. This file
determines for which works the shares add up to what is spread, and follows the
supply that is left over any number of blocks.
-/

namespace AcCore.Gov.Cash

open Lib Engine

variable {wrap : ℤ → ℤ}

/-! ## What the spreading has to do -/

/-- The listed contributors are credited, together with the new cash and the
fees, and nobody else is. -/
structure RewardSpread (wrap : ℤ → ℤ) (db : Db) (fees : ℤ) (w : Pow) (drawn : ℕ) : Prop where
  credited : ∀ x, db.accounts.balance x ≤ (App.spread wrap db fees w drawn).accounts.balance x
  exact : ∑ x ∈ w.keys, ((App.spread wrap db fees w drawn).accounts.balance x -
    db.accounts.balance x) = (db.getNewcash wrap).1 + fees
  others : ∀ x ∉ w, (App.spread wrap db fees w drawn).accounts.lookup x = db.accounts.lookup x

/-! ## Works that add up in 64 bits -/

/-- What is left of the reward, when its parts are added up exactly. -/
theorem remainder_exact {totalCash : ℤ} (hexact : ∀ v, 0 ≤ v → v ≤ totalCash → wrap v = v)
    {w : Pow} (hshares : ∀ p ∈ shares totalCash w, 0 ≤ p.2)
    (hle : postedTotal (shares totalCash w) ≤ totalCash) :
    remainder wrap totalCash w = remainder id totalCash w := by
  have hfold : ∀ (ps : List (Ripemd160 × ℤ)) (start : ℤ), (∀ p ∈ ps, 0 ≤ p.2) → 0 ≤ start →
      start + postedTotal ps ≤ totalCash →
      ps.foldl (fun paid p => wrap (paid + p.2)) start = start + postedTotal ps := by
    intro ps
    induction ps with
    | nil => simp
    | cons p ps ih =>
      intro start hps hstart hbound
      have hp := hps p List.mem_cons_self
      have hrest : ∀ q ∈ ps, 0 ≤ q.2 := fun q hq => hps q (List.mem_cons_of_mem p hq)
      have hnonneg := postedTotal_nonneg hrest
      rw [postedTotal_cons] at hbound ⊢
      rw [List.foldl_cons, hexact _ (by omega) (by omega), ih _ hrest (by omega) (by omega),
        add_assoc]
  have hnonneg := postedTotal_nonneg hshares
  rw [remainder, remainder, hfold _ 0 hshares le_rfl (by omega), foldl_paid, zero_add, id_eq,
    hexact _ (by omega) (by omega)]

/-- No payment is negative when no share is. -/
theorem payments_nonneg {totalCash : ℤ} {w : Pow} {drawn : ℕ}
    (hshares : ∀ p ∈ shares totalCash w, 0 ≤ p.2) :
    ∀ p ∈ payments wrap totalCash w drawn, 0 ≤ p.2 := by
  intro p hp
  rcases List.mem_append.mp hp with hshare | hlast
  · exact hshares p hshare
  · split_ifs at hlast with hpos
    · obtain ⟨e, -, rfl⟩ := List.mem_map.mp hlast
      exact hpos.le
    · cases hlast

/-- The shares are the first of the payments. -/
theorem postedTotal_shares_le (wrap : ℤ → ℤ) (totalCash : ℤ) (w : Pow) (drawn : ℕ) :
    postedTotal (shares totalCash w) ≤ postedTotal (payments wrap totalCash w drawn) := by
  unfold payments
  rw [postedTotal_append, le_add_iff_nonneg_right]
  apply postedTotal_nonneg
  intro p hp
  split_ifs at hp with hpos
  · obtain ⟨e, -, rfl⟩ := List.mem_map.mp hp
    exact hpos.le
  · cases hp

/-- The new cash does not depend on the arithmetic. -/
theorem newcash_eq (db : Db) : (db.getNewcash wrap).1 = (db.getNewcash id).1 := by
  unfold Db.getNewcash
  split_ifs <;> rfl

/-- Where the balances have room for the reward and the works add up, the
reward is spread. -/
theorem RewardSpread.of_exact {S : Set ℤ} (hS : ExactOn wrap S) {db : Db} (hdb : db.SupplyNonneg)
    {fees : ℤ} (hfees : 0 ≤ fees) {w : Pow} (hne : Table.toList w ≠ []) (hw : w.Exact) {drawn : ℕ}
    (hdrawn : drawn < (Table.toList w).length)
    (htotal : (db.getNewcash wrap).1 + fees ∈ S) (hbox : ∀ x, db.accounts.balance x ∈ S)
    (hroom : ∀ x, db.accounts.balance x + ((db.getNewcash wrap).1 + fees) ∈ S) :
    RewardSpread wrap db fees w drawn := by
  have := hS.ordConnected
  set total := (db.getNewcash wrap).1 + fees with htotal_def
  have hnonneg : 0 ≤ total := by
    have := (getNewcash_exact db hdb).1
    rw [htotal_def, newcash_eq]
    omega
  have hexact : ∀ v, 0 ≤ v → v ≤ total → wrap v = v := fun v hlow hhigh =>
    hS.wrap_eq v (hS.ordConnected.out hS.zero_mem htotal ⟨hlow, hhigh⟩)
  obtain ⟨hshares, hle⟩ := postedTotal_shares hnonneg hne hw
  have hrewards : db.rewards wrap fees w drawn = payments id total w drawn := by
    rw [Db.rewards, if_neg hne, ← htotal_def, hexact total hnonneg le_rfl, payments, payments,
      remainder_exact hexact hshares hle]
  set ps := paid (payments id total w drawn) with hps
  have hsum : postedTotal ps = total := postedTotal_payments hnonneg hne hw hdrawn
  have hpos : ∀ p ∈ ps, 0 ≤ p.2 := fun p hp =>
    payments_nonneg hshares p (List.mem_of_mem_filter hp)
  have hamount : ∀ p ∈ ps, wrap p.2 = p.2 := fun p hp =>
    hexact p.2 (hpos p hp)
      ((le_posted hpos hp).trans ((posted_le_total hpos p.1).trans hsum.le))
  have hbound : ∀ x, 0 ≤ posted ps x ∧ posted ps x ≤ total := fun x =>
    ⟨posted_nonneg hpos x, (posted_le_total hpos x).trans hsum.le⟩
  have hlisted : ∀ p ∈ payments id total w drawn, p.1 ∈ w := fun p hp =>
    mem_of_mem_rewards (hrewards ▸ hp)
  have hbalance : ∀ x, (App.spread wrap db fees w drawn).accounts.balance x =
      db.accounts.balance x + posted ps x := by
    intro x
    rw [accounts_spread, hrewards, balance_payAll hamount]
    refine foldl_post_of_nonneg hS.wrap_eq hpos hbox (fun y => ?_) x
    have := hbound y
    exact hS.ordConnected.out (hbox y) (hroom y) ⟨by omega, by omega⟩
  refine ⟨fun x => ?_, ?_, fun x hx => ?_⟩
  · have := (hbound x).1
    rw [hbalance]
    omega
  · have hkeys : ∀ p ∈ ps, p.1 ∈ w.keys := fun p hp =>
      Finmap.mem_keys.mpr (hlisted p (List.mem_of_mem_filter hp))
    simp only [hbalance, add_sub_cancel_left]
    rw [sum_posted hkeys, hsum]
  · rw [accounts_spread, hrewards]
    refine lookup_payAll (fun p hp hxp => hx ?_) db.accounts
    exact hxp ▸ hlisted p hp

/-! ## Works that do not -/

/-- The shares are more than the parts of the reward, less one each. -/
theorem lt_postedTotal_shares {totalCash : ℤ} (h : 0 ≤ totalCash) {w : Pow} (hw : 0 < w.sum)
    (hne : Table.toList w ≠ []) :
    (totalCash : ℚ) * w.total / w.sum - (Table.toList w).length <
      postedTotal (shares totalCash w) := by
  have hshare : ∀ e : Ripemd160 × ℕ, (totalCash : ℚ) * e.2 / w.sum - 1 <
      truncate (totalCash * relWork w e.2) := by
    intro e
    have hnonneg : 0 ≤ (totalCash : ℚ) * relWork w e.2 :=
      mul_nonneg (by exact_mod_cast h) (relWork_nonneg w e.2)
    rw [truncate, if_pos hnonneg, relWork_exact, if_pos hw, ← mul_div_assoc]
    exact Int.sub_one_lt_floor _
  have hsum : ∀ es : List (Ripemd160 × ℕ), es ≠ [] →
      (totalCash : ℚ) * (es.map Prod.snd).sum / w.sum - es.length <
        postedTotal (es.map fun e => (e.1, truncate (totalCash * relWork w e.2))) := by
    intro es
    induction es with
    | nil => exact fun hnil => absurd rfl hnil
    | cons e es ih =>
      intro _
      have hfirst := hshare e
      have hsplit : (totalCash : ℚ) * ((e :: es).map Prod.snd).sum / w.sum =
          totalCash * e.2 / w.sum + totalCash * (es.map Prod.snd).sum / w.sum := by
        rw [List.map_cons, List.sum_cons, Nat.cast_add, mul_add, add_div]
      rw [hsplit, List.map_cons, postedTotal_cons, List.length_cons, Int.cast_add, Nat.cast_succ]
      cases es with
      | nil =>
        simp only [List.map_nil, List.sum_nil, List.length_nil, postedTotal_nil]
        norm_num
        linarith
      | cons f es =>
        have hrest := ih (List.cons_ne_nil f es)
        linarith
  exact hsum (Table.toList w) hne

/-- A db without a supply, in which the fees are all there is to spread. -/
def exhausted : Db := ⟨∅, 0, 0⟩

/-- Where the works do not add up in 64 bits, the contributors get more than a
fee of one unit for each of them. -/
theorem not_rewardSpread {w : Pow} (hne : Table.toList w ≠ []) (hw : ¬ w.Exact) (drawn : ℕ) :
    ¬ RewardSpread id exhausted (Table.toList w).length w drawn := by
  intro h
  rw [Pow.Exact, not_or, not_lt] at hw
  obtain ⟨hgreat, hdvd⟩ := hw
  have hsum : w.sum = w.total % 2 ^ 64 := rfl
  have hpos : 0 < w.sum := Nat.pos_of_ne_zero fun hzero => hdvd (Nat.dvd_of_mod_eq_zero hzero)
  have htwice : 2 * w.sum ≤ w.total := by omega
  set n := (Table.toList w).length with hn
  have hshares : (n : ℤ) < postedTotal (shares n w) := by
    have hlt := lt_postedTotal_shares (Int.natCast_nonneg n) hpos hne
    have hratio : (2 : ℚ) ≤ w.total / w.sum := by
      rw [le_div_iff₀ (by exact_mod_cast hpos)]
      exact_mod_cast htwice
    have hparts : (2 : ℚ) * n ≤ (n : ℤ) * w.total / w.sum := by
      rw [mul_div_assoc, mul_comm]
      push_cast
      gcongr
    have : (n : ℚ) < postedTotal (shares n w) := by linarith
    exact_mod_cast this
  have hnonneg := shares_nonneg (w := w) (Int.natCast_nonneg n)
  have hnewcash : (exhausted.getNewcash id).1 = 0 := rfl
  have hrewards : exhausted.rewards id n w drawn = payments id n w drawn := by
    rw [Db.rewards, if_neg hne, hnewcash, zero_add, id_eq]
  have hbalance : ∀ x, (App.spread id exhausted n w drawn).accounts.balance x =
      exhausted.accounts.balance x + posted (paid (payments id n w drawn)) x := by
    intro x
    rw [accounts_spread, hrewards, balance_payAll (fun _ _ => rfl)]
    exact foldl_post_of_prefix (S := Set.univ) (fun _ _ => rfl) (fun _ _ _ => trivial) x
  have hkeys : ∀ p ∈ paid (payments id n w drawn), p.1 ∈ w.keys := fun p hp =>
    Finmap.mem_keys.mpr (mem_of_mem_rewards (hrewards ▸ List.mem_of_mem_filter hp))
  have hexact := h.exact
  simp only [hbalance, add_sub_cancel_left] at hexact
  have hpaid := postedTotal_shares_le id n w drawn
  rw [sum_posted hkeys, postedTotal_paid (payments_nonneg hnonneg), hnewcash] at hexact
  omega

/-! ## Emission -/

/-- The new cash of a block: none when nobody contributed to it. -/
def App.newcash (wrap : ℤ → ℤ) (a : App) (w : Pow) : ℤ :=
  if Table.toList w = [] then 0 else (a.db.getNewcash wrap).1

/-- A block, as it is imported. -/
structure Imported where
  d : Delta
  w : Pow
  drawn : ℕ

/-- The import of one block after the other. -/
def App.importBlock (wrap : ℤ → ℤ) (a : App) (b : Imported) : Option App :=
  some (a.importDelta wrap b.d b.w b.drawn)

/-- The new cash of a chain of blocks. -/
def App.minted (wrap : ℤ → ℤ) (a : App) (blocks : List Imported) : ℤ :=
  runSum (App.importBlock wrap) (fun a b => a.newcash wrap b.w) a blocks

/-- The new cash of blocks comes out of the supply that is left, until nothing
is left of it. -/
structure EmissionKept (wrap : ℤ → ℤ) (a a' : App) (blocks : List Imported) : Prop where
  supply : 0 ≤ a'.db.supplyLeft
  total : a.minted wrap blocks + a'.db.supplyLeft = a.db.supplyLeft
  ended : a'.db.supplyLeft = 0 → ∀ later, a'.minted wrap later = 0

/-- A supply that is not negative and in the range where the arithmetic is exact. -/
def Db.SupplyWithin (wrap : ℤ → ℤ) (db : Db) : Prop :=
  db.SupplyNonneg ∧ ∀ v, 0 ≤ v → v ≤ db.supplyLeft → wrap v = v

/-- What is minted comes out of the supply that is left. -/
theorem supply_getNewcash {db : Db} (h : db.SupplyWithin wrap) :
    0 ≤ (db.getNewcash wrap).1 ∧ (db.getNewcash wrap).2.SupplyWithin wrap ∧
      (db.getNewcash wrap).1 + (db.getNewcash wrap).2.supplyLeft = db.supplyLeft := by
  obtain ⟨⟨hsupply, hreward⟩, hexact⟩ := h
  unfold Db.getNewcash Db.SupplyWithin Db.SupplyNonneg
  split_ifs with hge
  · have hleft := hexact (db.supplyLeft - db.blockReward) (by omega) (by omega)
    simp only [hleft]
    exact ⟨hreward, ⟨⟨by omega, hreward⟩, fun v hv hle => hexact v hv (by omega)⟩, by omega⟩
  · exact ⟨hsupply, ⟨⟨le_rfl, hsupply⟩, fun v hv hle => hexact v hv (le_trans hle hsupply)⟩,
      add_zero _⟩

/-- What one block takes out of the supply. -/
theorem supply_importDelta {a : App} (ha : a.db.SupplyWithin wrap) (d : Delta) (w : Pow)
    (drawn : ℕ) :
    0 ≤ a.newcash wrap w ∧ (a.importDelta wrap d w drawn).db.SupplyWithin wrap ∧
      a.newcash wrap w + (a.importDelta wrap d w drawn).db.supplyLeft = a.db.supplyLeft := by
  unfold App.newcash App.importDelta App.spread
  split_ifs with hnil
  · exact ⟨le_rfl, ha, zero_add _⟩
  · have hdb : ({ a.db with accounts := a.db.accounts.importAccounts d.g.accounts } :
        Db).SupplyWithin wrap := ha
    obtain ⟨hnonneg, hwithin, hleft⟩ := supply_getNewcash hdb
    rw [newcash_withAccounts] at hnonneg hleft
    exact ⟨hnonneg, hwithin, hleft⟩

/-- Importing a block keeps the supply within its bound. -/
theorem supplyWithin_importBlock {a a' : App} {b : Imported} (ha : a.db.SupplyWithin wrap)
    (h : a.importBlock wrap b = some a') : a'.db.SupplyWithin wrap := by
  obtain rfl := Option.some.inj h
  exact (supply_importDelta ha b.d b.w b.drawn).2.1

/-- The new cash of a chain of blocks is what the supply has lost. -/
theorem minted_add_supplyLeft {a a' : App} {blocks : List Imported}
    (ha : a.db.SupplyWithin wrap) (h : run (App.importBlock wrap) a blocks = some a') :
    a.minted wrap blocks + a'.db.supplyLeft = a.db.supplyLeft := by
  have hbalance : -a'.db.supplyLeft = -a.db.supplyLeft + a.minted wrap blocks :=
    run_balance (q := fun a : App => -a.db.supplyLeft) (C := fun _ _ => True)
    (fun _ _ _ hs _ hstep => supplyWithin_importBlock hs hstep)
    (fun a b a' hs _ hstep => by
      obtain rfl := Option.some.inj hstep
      have := (supply_importDelta hs b.d b.w b.drawn).2.2
      omega)
    ha (AlongRun.trivial a blocks) h
  omega

/-- Blocks can always be imported. -/
theorem run_importBlock (wrap : ℤ → ℤ) (a : App) (blocks : List Imported) :
    ∃ a', run (App.importBlock wrap) a blocks = some a' := by
  induction blocks generalizing a with
  | nil => exact ⟨a, rfl⟩
  | cons b blocks ih => exact ih (a.importDelta wrap b.d b.w b.drawn)

/-- The supply is never negative and keeps its total with what is minted, and
nothing is minted once it is used up. -/
theorem EmissionKept.of_run {a a' : App} {blocks : List Imported}
    (ha : a.db.SupplyWithin wrap) (h : run (App.importBlock wrap) a blocks = some a') :
    EmissionKept wrap a a' blocks := by
  have hwithin : ∀ {a a' : App} {blocks : List Imported}, a.db.SupplyWithin wrap →
      run (App.importBlock wrap) a blocks = some a' → a'.db.SupplyWithin wrap :=
    fun ha h => run_invariant (C := fun _ _ => True)
      (fun _ _ _ hs _ hstep => supplyWithin_importBlock hs hstep) ha (AlongRun.trivial _ _) h
  have ha' := hwithin ha h
  refine ⟨ha'.1.1, minted_add_supplyLeft ha h, fun hzero later => ?_⟩
  obtain ⟨a'', hlater⟩ := run_importBlock wrap a' later
  have htotal := minted_add_supplyLeft ha' hlater
  have hleft := (hwithin ha' hlater).1.1
  have hminted : 0 ≤ a'.minted wrap later :=
    runSum_nonneg (fun _ _ _ hs hstep => supplyWithin_importBlock hs hstep)
      (fun _ b hs => (supply_importDelta hs b.d b.w b.drawn).1) ha' later
  omega

/-! ## Which rewards are exact -/

/-- What is promised, in exact integers: a block with the works `w` spreads the
reward, whatever is in the db, and a chain of blocks keeps to the supply. -/
structure RewardsExact (w : Pow) : Prop where
  spread : ∀ (db : Db) (fees : ℤ) (drawn : ℕ), db.SupplyNonneg → 0 ≤ fees →
    drawn < (Table.toList w).length → RewardSpread id db fees w drawn
  emission : ∀ (a a' : App) (blocks : List Imported), a.db.SupplyNonneg →
    run (App.importBlock id) a blocks = some a' → EmissionKept id a a' blocks

/-- Every box has room for the reward in 64 bits. -/
def Db.HasRoom (db : Db) (reward : ℤ) : Prop :=
  reward < 2 ^ 63 ∧ ∀ x, -2 ^ 63 ≤ db.accounts.balance x ∧ db.accounts.balance x + reward < 2 ^ 63

/-- The boxes of 64 bits. -/
theorem exactOn_int64 : ExactOn wrapInt64 (Set.Ico (-2 ^ 63) (2 ^ 63)) where
  ordConnected := Set.ordConnected_Ico
  zero_mem := by norm_num
  wrap_eq _ hv := wrapInt64_of_mem hv.1 hv.2
  wrap_amount := exactOn_boxRange.wrap_amount

/-- **When rewards are exact.** The shares of the contributors add up to the new
cash and the fees, in every db, exactly when the sum of the works fits in 64
bits or is zero there. In 64-bit arithmetic the same holds of every db that has
room for the reward, and every chain of blocks keeps to the supply. -/
theorem rewards_exact_iff {w : Pow} (hne : w ≠ ∅) :
    (RewardsExact w ↔ w.Exact) ∧
      (w.Exact → ∀ (db : Db) (fees : ℤ) (drawn : ℕ), db.SupplyNonneg → 0 ≤ fees →
        drawn < (Table.toList w).length → db.HasRoom ((db.getNewcash wrapInt64).1 + fees) →
        RewardSpread wrapInt64 db fees w drawn) ∧
      ∀ (a a' : App) (blocks : List Imported), a.db.SupplyNonneg → a.db.supplyLeft < 2 ^ 63 →
        run (App.importBlock wrapInt64) a blocks = some a' →
            EmissionKept wrapInt64 a a' blocks := by
  have hlist : Table.toList w ≠ [] := mt Table.toList_eq_nil.mp hne
  refine ⟨⟨fun h => ?_, fun hw => ⟨?_, ?_⟩⟩, ?_, ?_⟩
  · by_contra hw
    have hspread := h.spread exhausted _ 0 ⟨le_rfl, le_rfl⟩
      (Int.natCast_nonneg (Table.toList w).length) (List.length_pos_of_ne_nil hlist)
    exact not_rewardSpread hlist hw 0 hspread
  · intro db fees drawn hdb hfees hdrawn
    exact .of_exact exactOn_univ hdb hfees hlist hw hdrawn trivial (fun _ => trivial)
      fun _ => trivial
  · intro a a' blocks ha hrun
    exact .of_run ⟨ha, fun _ _ _ => rfl⟩ hrun
  · intro hw db fees drawn hdb hfees hdrawn ⟨htotal, hboxes⟩
    have hnonneg : 0 ≤ (db.getNewcash wrapInt64).1 := by
      rw [newcash_eq]
      exact (getNewcash_exact db hdb).1
    refine .of_exact exactOn_int64 hdb hfees hlist hw hdrawn ⟨by omega, htotal⟩
      (fun x => ?_) fun x => ?_
    all_goals
      obtain ⟨hlow, hhigh⟩ := hboxes x
      exact ⟨by omega, by omega⟩
  · intro a a' blocks ha hsupply hrun
    exact .of_run ⟨ha, fun v hv hle => wrapInt64_of_mem (by omega) (by omega)⟩ hrun

/-- Two contributors, with works 1 and 3. -/
def smallWork : Pow := (Finmap.singleton (Ripemd160.set 1) 1).insert (Ripemd160.set 2) 3

/-- Two contributors, with the greatest works that a word holds. -/
def greatWork : Pow :=
  (Finmap.singleton (Ripemd160.set 1) (2 ^ 64 - 1)).insert (Ripemd160.set 2) (2 ^ 64 - 1)

/-- The equivalence at works that add up in 64 bits. -/
theorem rewards_exact_iff_smallWork :
    smallWork.Exact ∧ (RewardsExact smallWork ↔ smallWork.Exact) := by
  have hne : smallWork ≠ ∅ := mt Table.toList_eq_nil.mpr (by decide +kernel)
  exact ⟨Or.inl (by decide +kernel), (rewards_exact_iff hne).1⟩

/-- The first block of a chain pays its new cash to both contributors in full. -/
theorem greatWork_pays_twice :
    (∀ x ∈ Table.keyList greatWork,
        (App.spread wrapInt64 Db.cleared 0 greatWork 0).accounts.balance x = 500000000) ∧
      (Db.cleared.getNewcash wrapInt64).1 = 500000000 ∧ ¬ RewardsExact greatWork := by
  refine ⟨by decide +kernel, rfl, fun h => ?_⟩
  have hexact := (h.spread Db.cleared 0 0 ⟨by decide, by decide⟩ le_rfl (by decide +kernel)).exact
  have htwice : ∑ x ∈ greatWork.keys, ((App.spread id Db.cleared 0 greatWork 0).accounts.balance x -
      Db.cleared.accounts.balance x) = 1000000000 := by decide +kernel
  rw [htwice] at hexact
  exact absurd hexact (by decide)

end AcCore.Gov.Cash
