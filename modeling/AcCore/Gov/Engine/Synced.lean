import AcCore.Gov.Cash.Balance
import AcCore.Gov.Engine.Growth
import AcCore.Gov.Engine.RoundTrip

/-!
# Blocks from the network and blocks from disk

A node that takes part in a cycle imports the diff that it has formed. A node
that has missed the cycle reads the text of the diff and imports what it has
read. This file determines for which diffs both come to the same accounts,
nodes, candidates and policies, whatever their state is.
-/

namespace AcCore.Gov

open Lib Engine

namespace Engine.Auth.App

/-- `import`, where `order` says how a hash table lists its keys. -/
def importOrdered (a : App) (d : Delta) (draws : List ℕ)
    (order : Table Ripemd160 Address → List Ripemd160) : Option App :=
  a.importListed d draws (order (a.addHall d).growthSource)

/-- An import uses the policies of a delta and its candidates. -/
theorem importOrdered_congr {d d' : Delta} (hpolicies : d'.policies = d.policies)
    (hall : d'.toHall = d.toHall) (a : App) (draws : List ℕ)
    (order : Table Ripemd160 Address → List Ripemd160) :
    a.importOrdered d' draws order = a.importOrdered d draws order := by
  simp only [importOrdered, importListed, importDelta, addHall, hpolicies, hall]

/-- There are draws that pick as many entries as there are. -/
theorem exists_drawPicks {α : Type} (s : ℕ) (listing : List α) (uniq : List UInt32)
    (hs : s ≤ listing.length) (hsize : listing.length ≤ 2 ^ 32)
    (huniq : ∀ u ∈ uniq, listing.length ≤ u.toNat) :
    ∃ draws picks, drawPicks s uniq listing draws = some picks := by
  induction s generalizing listing uniq with
  | zero => exact ⟨[], [], rfl⟩
  | succ s ih =>
    -- the last entry is drawn, so that its index is not drawn again
    have hlast : listing.length - 1 < listing.length := by omega
    have hword : (UInt32.ofNat (listing.length - 1)).toNat = listing.length - 1 :=
      UInt32.toNat_ofNat_of_lt' (hlast.trans_le hsize)
    have hrest : (listing.eraseIdx (listing.length - 1)).length = listing.length - 1 := by
      rw [List.length_eraseIdx_of_lt hlast]
    have hused : ∀ u ∈ UInt32.ofNat (listing.length - 1) :: uniq,
        (listing.eraseIdx (listing.length - 1)).length ≤ u.toNat := by
      intro u hu
      rw [hrest]
      rcases List.mem_cons.mp hu with rfl | hu
      · exact hword.ge
      · have := huniq u hu
        omega
    obtain ⟨draws, picks, hpicks⟩ := ih _ _ (by omega) (by omega) hused
    have hnew : UInt32.ofNat (listing.length - 1) ∉ uniq := by
      intro hu
      have := huniq _ hu
      omega
    have hindex : drawIndex uniq listing.length ((listing.length - 1) :: draws) =
        some (listing.length - 1, UInt32.ofNat (listing.length - 1) :: uniq, draws) := by
      rw [drawIndex, if_neg hnew, if_neg (by omega)]
    refine ⟨(listing.length - 1) :: draws, listing[listing.length - 1] :: picks, ?_⟩
    simp only [drawPicks, hindex, Option.bind_some, List.getElem?_eq_getElem hlast, hpicks,
      Option.map_some]

/-- Where the growth takes no more than there is, some draws complete an import. -/
theorem exists_importOrdered {a : App} {d : Delta}
    (hcount : (a.addHall d).growthCount ≤ (Table.keyList (a.addHall d).growthSource).length)
    (hsize : (Table.keyList (a.addHall d).growthSource).length ≤ 2 ^ 32) :
    ∃ draws a', a.importOrdered d draws Table.keyList = some a' := by
  obtain ⟨draws, picks, hpicks⟩ := exists_drawPicks _ _ [] hcount hsize (by simp)
  obtain ⟨hlength, rest, hperm⟩ := drawPicks_perm hpicks
  have hnodup := (hperm.nodup_iff.mp (Table.nodup_keyList _)).of_append_left
  have hsource : ∀ k ∈ picks, k ∈ (a.addHall d).growthSource := fun k hk =>
    Table.mem_keyList.mp (hperm.mem_iff.mpr (List.mem_append_left _ hk))
  obtain ⟨a', ha'⟩ := exists_addGrowthTransactions hlength hnodup hsource
  exact ⟨draws, a', importListed_eq_some.mpr ⟨picks, Table.coe_keyList _, hpicks, ha'⟩⟩

/-- Without nodes the growth takes no more than there is. -/
theorem growthCount_le {a : App} (h : a.db.nodes = ∅) :
    a.growthCount ≤ (Table.keyList a.growthSource).length := by
  have hcard : ∀ t : Table Ripemd160 Address, (Table.keyList t).length = t.keys.card := fun t =>
    congrArg Multiset.card (Table.coe_keyList t)
  unfold growthCount growthSource fromHall growth
  dsimp only
  by_cases hnone : |a.policies 0| < leastGrowth
  · rw [if_pos hnone]
    exact Nat.zero_le _
  · rw [if_neg hnone]
    by_cases hpos : 0 ≤ a.policies 0
    · rw [if_pos hpos]
      simp only [Option.elim_some, if_true, hcard]
      split_ifs <;> omega
    · rw [if_neg hpos]
      simp [h]

/-- Without growth nothing is moved. -/
theorem addGrowthTransactions_of_none {a : App} (h : a.growth = none) :
    a.addGrowthTransactions [] = some a := by
  unfold addGrowthTransactions
  rw [h]
  rfl

/-- The policies after an import. -/
theorem policies_importOrdered {a a' : App} {d : Delta} {draws : List ℕ}
    {order : Table Ripemd160 Address → List Ripemd160}
    (h : a.importOrdered d draws order = some a') : a'.policies = d.policies := by
  obtain ⟨picks, -, -, hgrow⟩ := importListed_eq_some.mp h
  obtain ⟨-, t, ⟨-, -, rfl⟩ | ⟨-, -, rfl⟩⟩ := addGrowthTransactions_eq_some.mp hgrow
  · rfl
  · rfl

/-- Drawing members forgets no key. -/
theorem knows_addGrowthTransactions {a a' : App} {picks : List Ripemd160}
    (h : a.addGrowthTransactions picks = some a') {k : Ripemd160} (hk : a.Knows k) :
    a'.Knows k := by
  obtain ⟨-, ⟨src, dst⟩, ⟨-, ht, rfl⟩ | ⟨-, ht, rfl⟩⟩ := addGrowthTransactions_eq_some.mp h
  all_goals
    obtain ⟨-, hsrc, hdst⟩ := mem_of_moveAll ht
    simp only [Knows, hsrc, hdst] at hk ⊢
    tauto

end Engine.Auth.App

namespace Cash

variable {wrap : ℤ → ℤ}

/-! ## What an import leaves alone -/

/-- Importing an account leaves the others. -/
theorem lookup_importAccount_of_ne {e : Ripemd160 × Account} {k : Ripemd160} (hk : k ≠ e.1)
    (accounts : Accounts) : (accounts.importAccount e).lookup k = accounts.lookup k := by
  unfold Accounts.importAccount
  split
  · split_ifs
    · exact Finmap.lookup_insert_of_ne _ hk
    · rfl
  · split_ifs
    · exact Finmap.lookup_erase_ne hk
    · exact Finmap.lookup_insert_of_ne _ hk

/-- Importing accounts leaves those that are not among them. -/
theorem lookup_foldl_importAccount {es : List (Ripemd160 × Account)} {k : Ripemd160}
    (h : ∀ e ∈ es, k ≠ e.1) (accounts : Accounts) :
    Finmap.lookup k (es.foldl Accounts.importAccount accounts) = accounts.lookup k := by
  induction es generalizing accounts with
  | nil => rfl
  | cons e es ih =>
    rw [List.foldl_cons, ih fun e' he' => h e' (List.mem_cons_of_mem _ he'),
      lookup_importAccount_of_ne (h e List.mem_cons_self)]

/-- An account that a block brings does not depend on what was there. -/
theorem foldl_importAccount_congr {es : List (Ripemd160 × Account)} {k : Ripemd160}
    (hk : k ∈ es.map Prod.fst) {t₁ t₂ : Accounts} (h₁ : k ∈ t₁) (h₂ : k ∈ t₂)
    (hother : ∀ x, x ≠ k → t₁.lookup x = t₂.lookup x) :
    es.foldl Accounts.importAccount t₁ = es.foldl Accounts.importAccount t₂ := by
  induction es generalizing t₁ t₂ with
  | nil => cases hk
  | cons e es ih =>
    rw [List.foldl_cons, List.foldl_cons]
    by_cases he : e.1 = k
    · have hsame : t₁.importAccount e = t₂.importAccount e := by
        obtain ⟨acc₁, hacc₁⟩ := Finmap.mem_iff.mp h₁
        obtain ⟨acc₂, hacc₂⟩ := Finmap.mem_iff.mp h₂
        unfold Accounts.importAccount
        rw [he, hacc₁, hacc₂]
        dsimp only
        apply Finmap.ext_lookup
        intro x
        by_cases hx : x = k
        · subst hx
          split_ifs <;> simp
        · split_ifs <;>
            simp [Finmap.lookup_erase_ne hx, Finmap.lookup_insert_of_ne _ hx, hother x hx]
      rw [hsame]
    · have hlookup : ∀ t : Accounts, (t.importAccount e).lookup k = t.lookup k := fun t =>
        lookup_importAccount_of_ne (Ne.symm he) t
      refine ih ?_ ?_ ?_ fun x hx => ?_
      · rcases List.mem_cons.mp hk with heq | hk
        · exact absurd heq.symm he
        · exact hk
      · rwa [← Finmap.lookup_isSome, hlookup, Finmap.lookup_isSome]
      · rwa [← Finmap.lookup_isSome, hlookup, Finmap.lookup_isSome]
      · by_cases hxe : x = e.1
        · subst hxe
          unfold Accounts.importAccount
          rw [hother _ hx]
          cases t₂.lookup e.1 with
          | none => split_ifs <;> simp [hother _ hx]
          | some acc => split_ifs <;> simp
        · rw [lookup_importAccount_of_ne hxe, lookup_importAccount_of_ne hxe, hother x hx]

/-- The accounts after an import. -/
theorem accounts_importDelta (a : App) (d : Delta) (w : Pow) (drawn : ℕ) :
    (a.importDelta wrap d w drawn).db.accounts =
      payAll wrap (a.db.accounts.importAccounts d.g.accounts)
        (a.db.rewards wrap d.g.fees w drawn) := by
  rw [App.importDelta, accounts_spread, rewards_withAccounts]

/-- An account that a block neither brings nor pays stays as it is. -/
theorem lookup_importDelta {d : Delta} {w : Pow} {k : Ripemd160} (hd : k ∉ d.g.accounts)
    (hw : k ∉ w) (a : App) (drawn : ℕ) :
    (a.importDelta wrap d w drawn).db.accounts.lookup k = a.db.accounts.lookup k := by
  rw [accounts_importDelta, lookup_payAll, Accounts.importAccounts, lookup_foldl_importAccount]
  · rintro e he rfl
    rw [← Table.mem_keyList, ← Table.map_fst_toList] at hd
    exact hd (List.mem_map_of_mem he)
  · rintro p hp rfl
    exact hw (mem_of_mem_rewards hp)

end Cash

namespace Engine

/-! ## The two imports -/

/-- `import` of the daemon for the auth app. -/
def Diff.importAuth (d : Diff) (a : Auth.App) (draws : List ℕ)
    (order : Table Ripemd160 Auth.Address → List Ripemd160) : Option Auth.App :=
  d.auth.elim (some a) fun g => a.importOrdered g draws order

/-- `import` of the daemon for the cash app. -/
def Diff.importCash (d : Diff) (c : Cash.App) (drawn : ℕ) : Cash.App :=
  d.cash.elim c fun g => c.importDelta Cash.wrapInt64 g d.proofOfWork drawn

/-- The imports of two diffs have one effect in every state: on nodes,
candidates and accounts, and on the policies. The seed of the random numbers and
the order of the hash tables are part of the state. -/
structure Diff.ImportsAlike (d d' : Diff) : Prop where
  prev : d'.prev = d.prev
  auth : ∀ a draws order, (∀ t, (order t : Multiset Ripemd160) = t.keys.val) →
    (d'.importAuth a draws order).map (fun a => (a.db, a.policies)) =
      (d.importAuth a draws order).map fun a => (a.db, a.policies)
  cashDb : ∀ c drawn, (d'.importCash c drawn).db = (d.importCash c drawn).db
  cashPolicies : ∀ c drawn, (d'.importCash c drawn).policies = (d.importCash c drawn).policies

/-- A node that reads the text of the diff imports what a node does that has it. -/
def Diff.SyncsAlike (debug : Bool) (d : Diff) : Prop :=
  ∃ d', Diff.fromStream debug (some (d.toStream sixFormat)) = some (some d') ∧ d.ImportsAlike d'

/-- The counts that an import depends on fit in an `int`. -/
structure Diff.ImportFits (d : Diff) : Prop where
  auth : ∀ a ∈ d.auth, (Table.keyList a.toHall).length < 2 ^ 31
  cash : ∀ c ∈ d.cash, (Table.keyList c.g.accounts).length < 2 ^ 31
  works : ∀ c ∈ d.cash, (Table.keyList d.proofOfWork).length < 2 ^ 31

/-- The averages have no more than six digits. -/
structure Diff.PrintsExactly (d : Diff) : Prop where
  auth : ∀ a ∈ d.auth, Policies.rounded a.policies = a.policies
  cash : ∀ c ∈ d.cash, Policies.rounded c.policies = c.policies

/-- What is read, when the counts fit. -/
theorem Diff.ImportFits.fromStream {d : Diff} (hfits : d.ImportFits) (hd : d.Readable)
    (debug : Bool) :
    ∃ pow, Diff.fromStream debug (some (d.toStream sixFormat)) =
        some (some { d.reread with proofOfWork := pow }) ∧
      (d.cash = none ∨ pow = d.proofOfWork) := by
  by_cases hworks : (Table.keyList d.proofOfWork).length < 2 ^ 31
  · exact ⟨d.proofOfWork, d.fromStream_toStream debug hd ⟨hfits.auth, hfits.cash, hworks⟩,
      Or.inr rfl⟩
  · obtain ⟨pow, hread, -⟩ :=
      d.fromStream_worksOverflow debug hd hfits.auth hfits.cash (not_lt.mp hworks)
    refine ⟨pow, hread, Or.inl ?_⟩
    cases hcash : d.cash with
    | none => rfl
    | some c => exact absurd (hfits.works c hcash) hworks

/-- Averages of six digits are imported alike. -/
theorem Diff.PrintsExactly.importsAlike {d : Diff} (h : d.PrintsExactly) {pow : Table Ripemd160 ℕ}
    (hpow : d.cash = none ∨ pow = d.proofOfWork) :
    d.ImportsAlike { d.reread with proofOfWork := pow } := by
  have hcash : ∀ c drawn,
      (({ d.reread with proofOfWork := pow } : Diff).importCash c drawn) =
        d.importCash c drawn := by
    intro c drawn
    cases hd : d.cash with
    | none => simp [importCash, reread, hd]
    | some g =>
      have hpow : pow = d.proofOfWork := hpow.resolve_left (by simp [hd])
      simp only [importCash, reread, hd, Option.map_some, Option.elim_some, hpow,
        Cash.App.importDelta, Cash.Delta.reread, Cash.LocalDelta.reread, h.cash g hd]
  refine ⟨rfl, fun a draws order _ => ?_, fun c drawn => by rw [hcash],
    fun c drawn => by rw [hcash]⟩
  cases hd : d.auth with
  | none => simp only [importAuth, reread, hd, Option.map_none, Option.elim_none]
  | some g =>
    have hpolicies : g.reread.policies = g.policies := h.auth g hd
    have hall : g.reread.toHall = g.toHall := rfl
    simp only [importAuth, reread, hd, Option.map_some, Option.elim_some,
      Auth.App.importOrdered_congr hpolicies hall]

/-! ## Where the imports differ -/

/-- A machine that has just been created takes part in an import of any delta
that is not too great. -/
theorem exists_importAuth {d : Diff} {g : Auth.Delta} (hg : d.auth = some g)
    (hsize : (Table.keyList g.toHall).length ≤ 2 ^ 32) :
    ∃ draws a, d.importAuth (Auth.App.create Ripemd160.zero) draws Table.keyList = some a ∧
      a.policies = g.policies := by
  have hnodes : ((Auth.App.create Ripemd160.zero).addHall g).db.nodes = ∅ := rfl
  have hall : Table.keyList ((Auth.App.create Ripemd160.zero).addHall g).db.hall =
      Table.keyList g.toHall :=
    Table.keyList_congr fun k => by
      rw [Auth.App.addHall, Auth.App.create, Auth.App.mem_emplaceAll_toList]
      exact or_iff_right Finmap.notMem_empty
  have hsource : (Table.keyList
      ((Auth.App.create Ripemd160.zero).addHall g).growthSource).length ≤ 2 ^ 32 := by
    unfold Auth.App.growthSource
    split_ifs
    · rwa [hall]
    · rw [hnodes]
      exact Nat.zero_le _
  obtain ⟨draws, a, himport⟩ :=
    Auth.App.exists_importOrdered (Auth.App.growthCount_le hnodes) hsource
  exact ⟨draws, a, by rw [Diff.importAuth, hg, Option.elim_some, himport],
    Auth.App.policies_importOrdered himport⟩

/-- The policies after a completed import are those of the diff. -/
theorem Diff.ImportsAlike.policies_auth {d d' : Diff} (h : d.ImportsAlike d') {g g' : Auth.Delta}
    (hg : d.auth = some g) (hg' : d'.auth = some g')
    (hsize : (Table.keyList g.toHall).length ≤ 2 ^ 32) : g'.policies = g.policies := by
  obtain ⟨draws, a, himport, hpolicies⟩ := exists_importAuth hg hsize
  have hsame := h.auth (Auth.App.create Ripemd160.zero) draws Table.keyList Table.coe_keyList
  rw [himport, Option.map_some, Option.map_eq_some_iff] at hsame
  obtain ⟨a', himport', heq⟩ := hsame
  rw [importAuth, hg', Option.elim_some] at himport'
  rw [← hpolicies, ← (Prod.mk.inj heq).2, Auth.App.policies_importOrdered himport']

/-- A hall without the candidates is another one. -/
theorem Diff.ImportsAlike.hall {d d' : Diff} (h : d.ImportsAlike d') {g : Auth.Delta}
    (hg : d.auth = some g) {hall : Table Ripemd160 Auth.Address}
    (hg' : d'.auth = some ⟨⟨fun _ => 0, 0⟩, hall⟩) {k : Ripemd160} (hk : k ∈ g.toHall) :
    k ∈ hall := by
  -- the policies that are read let nothing grow
  set a := (Auth.App.create Ripemd160.zero).addHall ⟨⟨fun _ => 0, 0⟩, hall⟩ with ha
  have hgrowth : a.growth = none :=
    if_pos (by simp [ha, Auth.App.addHall, Auth.App.leastGrowth_pos])
  have hgrown := Auth.App.addGrowthTransactions_of_none hgrowth
  have himport' : d'.importAuth (Auth.App.create Ripemd160.zero) [] Table.keyList = some a := by
    rw [importAuth, hg', Option.elim_some]
    refine Auth.App.importListed_eq_some.mpr ⟨[], Table.coe_keyList _, ?_, hgrown⟩
    rw [← ha, Auth.App.growthCount, hgrowth]
    rfl
  have hsame := h.auth (Auth.App.create Ripemd160.zero) [] Table.keyList Table.coe_keyList
  rw [himport', Option.map_some, eq_comm, Option.map_eq_some_iff] at hsame
  obtain ⟨b, himport, heq⟩ := hsame
  rw [importAuth, hg, Option.elim_some] at himport
  obtain ⟨picks, -, -, hgrow⟩ := Auth.App.importListed_eq_some.mp himport
  have hknown : ((Auth.App.create Ripemd160.zero).addHall g).Knows k :=
    Or.inr (Auth.App.mem_emplaceAll_toList.mpr (Or.inr hk))
  have hknows := Auth.App.knows_addGrowthTransactions hgrow hknown
  rw [Auth.App.Knows, (Prod.mk.inj heq).1, ha, Auth.App.addHall,
    Auth.App.mem_emplaceAll_toList] at hknows
  rcases hknows with hnode | hhall | hhall
  · exact absurd hnode Finmap.notMem_empty
  · exact absurd hhall Finmap.notMem_empty
  · exact hhall

/-- A ledger with one account. -/
def oneAccount (k : Ripemd160) (box : ℤ) : Cash.App :=
  { Cash.App.create with
    db := { Cash.Db.cleared with
      accounts := (∅ : Cash.Accounts).insert k ⟨Ripemd160.zero, box⟩ } }

/-- A pool without an account does not set it. -/
theorem Diff.ImportsAlike.accounts {d d' : Diff} (h : d.ImportsAlike d') {c c' : Cash.Delta}
    (hc : d.cash = some c) (hc' : d'.cash = some c') {k : Ripemd160} (hk : k ∈ c.g.accounts) :
    k ∈ c'.g.accounts ∨ k ∈ d'.proofOfWork := by
  by_contra hnot
  rw [not_or] at hnot
  have hkept : ∀ box, ((d'.importCash (oneAccount k box) 0).db.accounts).lookup k =
      some ⟨Ripemd160.zero, box⟩ := by
    intro box
    rw [importCash, hc', Option.elim_some, Cash.lookup_importDelta hnot.1 hnot.2]
    exact Finmap.lookup_insert _
  have hset : (d.importCash (oneAccount k 0) 0).db = (d.importCash (oneAccount k 1) 0).db := by
    have hlisted : k ∈ (Table.toList c.g.accounts).map Prod.fst := by
      rwa [Table.map_fst_toList, Table.mem_keyList]
    have haccounts : (oneAccount k 0).db.accounts.importAccounts c.g.accounts =
        (oneAccount k 1).db.accounts.importAccounts c.g.accounts :=
      Cash.foldl_importAccount_congr hlisted (Finmap.mem_insert.mpr (Or.inl rfl))
        (Finmap.mem_insert.mpr (Or.inl rfl)) fun x hx => by
          simp only [oneAccount, Finmap.lookup_insert_of_ne _ hx]
    simp only [importCash, hc, Option.elim_some, Cash.App.importDelta, haccounts]
    rfl
  have hboth := (h.cashDb (oneAccount k 0) 0).trans (hset.trans (h.cashDb (oneAccount k 1) 0).symm)
  have hlookup : some (⟨Ripemd160.zero, 0⟩ : Cash.Account) = some ⟨Ripemd160.zero, 1⟩ := by
    rw [← hkept 0, hboth, hkept 1]
  cases hlookup

/-- One unit shows on an account. -/
theorem lookup_pay_one (accounts : Cash.Accounts) (k : Ripemd160) :
    ((accounts.pay Cash.wrapInt64 k 1).1).lookup k ≠ accounts.lookup k := by
  unfold Cash.Accounts.pay
  rw [if_neg (by decide)]
  cases hlookup : accounts.lookup k with
  | none => simp
  | some acc =>
    simp only [Finmap.lookup_insert, ne_eq, Option.some.injEq]
    intro hacc
    have hbox : (acc.box + 1).bmod (2 ^ 64) = acc.box := congrArg Cash.Account.box hacc
    have hmod : (acc.box + 1) % 2 ^ 64 = acc.box % 2 ^ 64 := by
      conv_rhs => rw [← hbox]
      exact (Int.bmod_emod ..).symm
    omega

/-- Contributors without work share a unit by lot. -/
theorem payments_one {w : Cash.Pow} (hzero : ∀ k x, w.lookup k = some x → x = 0)
    (hmany : 2 ≤ (Table.keyList w).length) {drawn : ℕ} {e : Ripemd160 × ℕ}
    (hdrawn : (Table.toList w)[drawn]? = some e) :
    ∃ refused, Cash.payments Cash.wrapInt64 1 w drawn = refused ++ [(e.1, 1)] ∧
      ∀ p ∈ refused, p.2 = 0 := by
  have hentries : ∀ e ∈ Table.toList w, e.2 = 0 := fun e he =>
    hzero e.1 e.2 (Table.mem_toList.mp he)
  have hsum : w.sum = 0 := by
    have hworks : (Table.toList w).map Prod.snd = (Table.toList w).map fun _ => 0 :=
      List.map_congr_left hentries
    rw [Cash.Pow.sum, hworks]
    simp
  have hshares : ∀ p ∈ Cash.shares 1 w, p.2 = 0 := by
    intro p hp
    rw [Cash.shares_exact] at hp
    obtain ⟨e, he, rfl⟩ := List.mem_map.mp hp
    have hlength : (2 : ℚ) ≤ (Table.toList w).length := by
      rw [length_toList]
      exact_mod_cast hmany
    have hpart : Cash.relWork w e.2 = 1 / (Table.toList w).length := by
      rw [Cash.relWork_exact, hsum, if_neg (lt_irrefl 0)]
    have hsmall : (1 : ℚ) / (Table.toList w).length < 1 := by
      rw [div_lt_one (by linarith)]
      linarith
    rw [hpart, Int.cast_one, one_mul, Cash.truncate, if_pos (by positivity)]
    exact Int.floor_eq_zero_iff.mpr ⟨by positivity, hsmall⟩
  have hpaid : ∀ ps : List (Ripemd160 × ℤ), (∀ p ∈ ps, p.2 = 0) →
      ps.foldl (fun paid p => Cash.wrapInt64 (paid + p.2)) 0 = 0 := by
    intro ps hps
    induction ps with
    | nil => rfl
    | cons p ps ih =>
      rw [List.foldl_cons, hps p List.mem_cons_self]
      exact ih fun q hq => hps q (List.mem_cons_of_mem _ hq)
  have hremainder : Cash.remainder Cash.wrapInt64 1 w = 1 := by
    rw [Cash.remainder, hpaid _ hshares]
    rfl
  refine ⟨Cash.shares 1 w, ?_, hshares⟩
  rw [Cash.payments, hremainder, if_pos (by decide), hdrawn]
  rfl

/-- Payments of nothing are refused. -/
theorem payAll_refused {ps : List (Ripemd160 × ℤ)} (h : ∀ p ∈ ps, p.2 = 0)
    (accounts : Cash.Accounts) (k : Ripemd160) :
    Cash.payAll Cash.wrapInt64 accounts (ps ++ [(k, 1)]) =
      (accounts.pay Cash.wrapInt64 k 1).1 := by
  induction ps with
  | nil => rfl
  | cons p ps ih =>
    have hrefused : (accounts.pay Cash.wrapInt64 p.1 p.2).1 = accounts := by
      rw [h p List.mem_cons_self]
      rfl
    rw [List.cons_append, Cash.payAll, List.foldl_cons, hrefused]
    exact ih fun q hq => h q (List.mem_cons_of_mem _ hq)

/-- A diff without a contributor does not pay him. -/
theorem Diff.ImportsAlike.works {d d' : Diff} (h : d.ImportsAlike d') {c c' : Cash.Delta}
    (hc : d.cash = some c) (hc' : d'.cash = some c')
    (haccounts : c'.g.accounts = c.g.accounts)
    (hzero : ∀ k w, d.proofOfWork.lookup k = some w → w = 0)
    (hmany : 2 ≤ (Table.keyList d.proofOfWork).length) {k : Ripemd160}
    (hk : k ∈ d.proofOfWork) : k ∈ d'.proofOfWork := by
  by_contra hnot
  obtain ⟨work, hwork⟩ := Finmap.mem_iff.mp hk
  obtain ⟨drawn, hdrawn⟩ := List.getElem?_of_mem (Table.mem_toList.mpr hwork)
  -- a ledger whose reward makes up for the fees, but for one unit
  set reward := Cash.wrapInt64 (1 - c.g.fees) with hreward
  set ledger : Cash.App := { Cash.App.create with db := ⟨∅, reward, reward⟩ } with hledger
  have htotal : Cash.wrapInt64 ((ledger.db.getNewcash Cash.wrapInt64).1 + c.g.fees) = 1 := by
    have hnewcash : (ledger.db.getNewcash Cash.wrapInt64).1 = reward := by
      rw [hledger, Cash.Db.getNewcash, if_pos le_rfl]
    rw [hnewcash, hreward, Cash.wrapInt64, Cash.wrapInt64, Int.bmod_add_bmod, sub_add_cancel]
    decide
  obtain ⟨refused, hpayments, hrefused⟩ := payments_one hzero hmany hdrawn
  have hne : Table.toList d.proofOfWork ≠ [] := fun hnil => by
    rw [hnil] at hdrawn
    cases hdrawn
  have hpaid : (d.importCash ledger drawn).db.accounts =
      ((ledger.db.accounts.importAccounts c.g.accounts).pay Cash.wrapInt64 k 1).1 := by
    rw [importCash, hc, Option.elim_some, Cash.accounts_importDelta, Cash.Db.rewards, if_neg hne,
      htotal, hpayments, payAll_refused hrefused]
  have hunpaid : (d'.importCash ledger drawn).db.accounts.lookup k =
      (ledger.db.accounts.importAccounts c.g.accounts).lookup k := by
    rw [importCash, hc', Option.elim_some, Cash.accounts_importDelta, haccounts, Cash.lookup_payAll]
    rintro p hp rfl
    exact hnot (Cash.mem_of_mem_rewards hp)
  rw [h.cashDb ledger drawn, hpaid] at hunpaid
  exact lookup_pay_one _ k hunpaid

/-- **Blocks from disk.** What is read of a diff is imported as the diff itself,
exactly when the counts fit in an `int` and the averages have six digits. -/
theorem Diff.Readable.syncsAlike_iff {d : Diff} (hd : d.Readable)
    (hzero : ∀ k w, d.proofOfWork.lookup k = some w → w = 0) (debug : Bool) :
    d.SyncsAlike debug ↔ d.ImportFits ∧ d.PrintsExactly := by
  constructor
  · rintro ⟨d', hread, himports⟩
    have hauthFits : ∀ a ∈ d.auth, (Table.keyList a.toHall).length < 2 ^ 31 := by
      intro a ha
      by_contra hmany
      obtain ⟨hall, pow, hover, hzero⟩ := d.fromStream_authOverflow debug ha (not_lt.mp hmany)
      rw [hread] at hover
      split_ifs at hover
      obtain rfl := Option.some.inj (Option.some.inj hover)
      have hone : (Table.keyList a.toHall).length < 2 :=
        length_keyList_lt_two fun k hk => hzero k (himports.hall ha rfl hk)
      omega
    have hcashFits : ∀ c ∈ d.cash, (Table.keyList c.g.accounts).length < 2 ^ 31 := by
      intro c hc
      by_contra hmany
      obtain ⟨c', pow, hover, haccounts, hpow⟩ :=
        d.fromStream_cashOverflow debug hd hauthFits hc (not_lt.mp hmany)
      obtain rfl := Option.some.inj (Option.some.inj (hread.symm.trans hover))
      have hone : (Table.keyList c.g.accounts).length < 2 := length_keyList_lt_two fun k hk =>
        (himports.accounts hc rfl hk).elim (haccounts k) (hpow k)
      omega
    have hworksFit : ∀ c ∈ d.cash, (Table.keyList d.proofOfWork).length < 2 ^ 31 := by
      intro c hc
      by_contra hmany
      obtain ⟨pow, hover, hpow⟩ :=
        d.fromStream_worksOverflow debug hd hauthFits hcashFits (not_lt.mp hmany)
      obtain rfl := Option.some.inj (Option.some.inj (hread.symm.trans hover))
      have hc' : d.reread.cash = some c.reread := by rw [Diff.reread, Option.mem_def.mp hc]; rfl
      have hone : (Table.keyList d.proofOfWork).length < 2 := length_keyList_lt_two fun k hk =>
        hpow k (himports.works hc hc' rfl hzero (by omega) hk)
      omega
    have hfits : d.ImportFits := ⟨hauthFits, hcashFits, hworksFit⟩
    obtain ⟨pow, hread', -⟩ := hfits.fromStream hd debug
    obtain rfl := Option.some.inj (Option.some.inj (hread.symm.trans hread'))
    refine ⟨hfits, ⟨fun a ha => ?_, fun c hc => ?_⟩⟩
    · have ha' : d.reread.auth = some a.reread := by rw [Diff.reread, Option.mem_def.mp ha]; rfl
      have hsmall := hauthFits a ha
      exact himports.policies_auth ha ha' (by omega)
    · have hpolicies := himports.cashPolicies Cash.App.create 0
      rw [Diff.importCash, Diff.importCash, Diff.reread, Option.mem_def.mp hc] at hpolicies
      exact hpolicies
  · rintro ⟨hfits, hexact⟩
    obtain ⟨pow, hread, hpow⟩ := hfits.fromStream hd debug
    exact ⟨_, hread, hexact.importsAlike hpow⟩

/-- A contribution without candidates, with a vote for the growth. -/
def growthVote (pubkey : UInt32) (growth : ℚ) : LocalDeltas UInt32 where
  pubkey := pubkey
  signature := []
  auth := some ⟨fun i => if i = 0 then growth else 1, []⟩
  cash := none

/-- A vote on growth within the range of doubles is readable. -/
theorem readable_growthVote (pubkey : UInt32) {growth : ℚ} (h : |growth| ≤ doubleMax) :
    (growthVote pubkey growth).Readable := by
  refine ⟨?_, ?_, ?_⟩
  · rintro a ⟨⟩ i
    dsimp only
    split_ifs
    · exact h
    · decide +kernel
  · rintro a ⟨⟩ e he
    cases he
  · rintro c ⟨⟩

/-- The diff of votes for the growth, which are allowed and added one by one. -/
def growthVotes (votes : List (UInt32 × ℚ)) : List (Arrival UInt32) :=
  votes.flatMap fun v => [.allow (growthVote v.1 v.2), .add (growthVote v.1 v.2)]

/-- Votes on growth within the range of doubles are readable. -/
theorem readable_growthVotes {votes : List (UInt32 × ℚ)} (h : ∀ v ∈ votes, |v.2| ≤ doubleMax) :
    ∀ g ∈ Arrival.added (growthVotes votes), g.Readable := by
  induction votes with
  | nil =>
    intro g hg
    cases hg
  | cons v votes ih =>
    intro g hg
    rcases List.mem_cons.mp hg with rfl | hg
    · exact readable_growthVote v.1 (h v List.mem_cons_self)
    · exact ih (fun w hw => h w (List.mem_cons_of_mem _ hw)) g hg

end Engine

end AcCore.Gov
