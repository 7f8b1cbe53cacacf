import AcCore.Gov.Engine.Membership
import Mathlib.Data.List.InsertIdx
import Mathlib.Data.List.Perm.Basic
import Mathlib.Logic.Equiv.Basic

/-!
# Which keys the growth of the network moves

The random indices that move keys between hall and nodes count along hash
tables, and the order in which these list their entries is not part of the
chain. This file determines for which chains every order gives the same
membership.
-/

namespace AcCore.Gov.Engine.Auth

open Lib

/-! ## The draws -/

/-- The inner loop of `add_growth_transactions`: the index, the indices used up
to it and the draws that are left. `none` when the loop needs more draws. -/
def drawIndex (uniq : List UInt32) (size : ℕ) : List ℕ → Option (ℕ × List UInt32 × List ℕ)
  | [] => none
  | r :: draws =>
    if UInt32.ofNat r ∈ uniq then drawIndex uniq size draws
    else if r ≥ size then drawIndex (UInt32.ofNat r :: uniq) size draws
    else some (r, UInt32.ofNat r :: uniq, draws)

/-- What the outer loop takes from a table that is listed in this order, `s`
entries. An erasure keeps the order of the others. -/
def drawPicks {α : Type} : ℕ → List UInt32 → List α → List ℕ → Option (List α)
  | 0, _, _, _ => some []
  | s + 1, uniq, listing, draws =>
    (drawIndex uniq listing.length draws).bind fun (r, uniq, draws) =>
      listing[r]?.bind fun x => (drawPicks s uniq (listing.eraseIdx r) draws).map (x :: ·)

/-- The draws pick positions, whatever stands there. -/
theorem drawPicks_map {α β : Type} (f : α → β) (s : ℕ) (uniq : List UInt32) (listing : List α)
    (draws : List ℕ) :
    drawPicks s uniq (listing.map f) draws = (drawPicks s uniq listing draws).map (List.map f) := by
  induction s generalizing uniq listing draws with
  | zero => rfl
  | succ s ih =>
    simp only [drawPicks, List.length_map, Option.map_bind]
    congr 1
    funext t
    simp only [Function.comp_apply, List.getElem?_map, Option.bind_map, Option.map_bind]
    congr 1
    funext x
    simp only [List.eraseIdx_map, ih, Option.map_map]
    rfl

/-- What is picked, with what is not, is the table. -/
theorem drawPicks_perm {α : Type} {s : ℕ} {uniq : List UInt32} {listing picks : List α}
    {draws : List ℕ} (h : drawPicks s uniq listing draws = some picks) :
    picks.length = s ∧ ∃ rest, listing.Perm (picks ++ rest) := by
  induction s generalizing uniq listing draws picks with
  | zero =>
    obtain rfl := Option.some.inj h
    exact ⟨rfl, listing, List.Perm.refl _⟩
  | succ s ih =>
    simp only [drawPicks, Option.bind_eq_some_iff, Option.map_eq_some_iff] at h
    obtain ⟨⟨r, uniq', draws'⟩, -, x, hx, picks', hpicks, rfl⟩ := h
    obtain ⟨hlength, rest, hperm⟩ := ih hpicks
    obtain ⟨hr, rfl⟩ := List.getElem?_eq_some_iff.mp hx
    refine ⟨by rw [List.length_cons, hlength], rest, ?_⟩
    exact (List.getElem_cons_eraseIdx_perm hr).symm.trans (hperm.cons _)

namespace App

variable [Rounding]

/-- `import` before the growth. -/
def addHall (a : App) (d : Delta) : App :=
  { a with
    db := ⟨a.db.nodes, Delta.emplaceAll a.db.hall (Table.toList d.toHall)⟩
    policies := d.policies }

/-- The table from which `add_growth_transactions` takes. -/
def growthSource (a : App) : Table Ripemd160 Address :=
  if a.fromHall then a.db.hall else a.db.nodes

/-- What the draws pick, when the hash table lists its keys in this order. -/
def growthPicks (a : App) (listing : List Ripemd160) (draws : List ℕ) :
    Option (List Ripemd160) :=
  if (listing : Multiset Ripemd160) = a.growthSource.keys.val then
    drawPicks a.growthCount [] listing draws
  else none

/-- `import` with these draws, when the hash table lists its keys in this order. -/
def importListed (a : App) (d : Delta) (draws : List ℕ) (listing : List Ripemd160) :
    Option App :=
  ((a.addHall d).growthPicks listing draws).bind fun picks => a.importDelta d picks

end App

/-! ## What a set of picks does -/

/-- Distinct entries of a table can be moved. -/
theorem exists_moveAll {picks : List Ripemd160} {src dst : Table Ripemd160 Address}
    (hpicks : picks.Nodup) (hsrc : ∀ k ∈ picks, k ∈ src) :
    ∃ t, moveAll picks (src, dst) = some t := by
  induction picks generalizing src dst with
  | nil => exact ⟨(src, dst), rfl⟩
  | cons p picks ih =>
    obtain ⟨hp, hnodup⟩ := List.nodup_cons.mp hpicks
    obtain ⟨address, haddress⟩ := Finmap.mem_iff.mp (hsrc p List.mem_cons_self)
    have hrest : ∀ k ∈ picks, k ∈ src.erase p := by
      intro k hk
      refine Finmap.mem_erase.mpr ⟨?_, hsrc k (List.mem_cons_of_mem _ hk)⟩
      rintro rfl
      exact hp hk
    obtain ⟨t, ht⟩ : ∃ t, moveAll picks (src.erase p, Table.emplace p address dst) = some t :=
      ih hnodup hrest
    refine ⟨t, ?_⟩
    rw [moveAll, List.foldlM_cons, App.move, haddress]
    exact ht

/-- What the tables have after the moves. -/
theorem lookup_moveAll {picks : List Ripemd160} {src dst src' dst' : Table Ripemd160 Address}
    (h : moveAll picks (src, dst) = some (src', dst')) (k : Ripemd160) :
    src'.lookup k = (if k ∈ picks then none else src.lookup k) ∧
      dst'.lookup k = if k ∈ picks then (dst.lookup k).or (src.lookup k) else dst.lookup k := by
  induction picks generalizing src dst with
  | nil =>
    obtain ⟨rfl, rfl⟩ := Prod.mk.injEq _ _ _ _ |>.mp (Option.some.inj h)
    simp
  | cons p picks ih =>
    obtain ⟨hpicks, -, -⟩ := mem_of_moveAll h
    rw [moveAll, List.foldlM_cons, App.move] at h
    cases hp : src.lookup p with
    | none => simp [hp] at h
    | some address =>
      rw [hp] at h
      obtain ⟨hsrc, hdst⟩ := ih h
      rw [hsrc, hdst, Table.lookup_emplace]
      by_cases hk : k = p
      · subst hk
        rw [hp, Finmap.lookup_erase]
        cases dst.lookup k <;> simp
      · simp [hk, Finmap.lookup_erase_ne hk]

/-- The order of the moves does not matter. -/
theorem moveAll_congr {picks picks' : List Ripemd160} (hpicks : ∀ k, k ∈ picks ↔ k ∈ picks')
    {t t₁ t₂ : Table Ripemd160 Address × Table Ripemd160 Address}
    (h₁ : moveAll picks t = some t₁) (h₂ : moveAll picks' t = some t₂) : t₁ = t₂ := by
  obtain ⟨src, dst⟩ := t
  obtain ⟨src₁, dst₁⟩ := t₁
  obtain ⟨src₂, dst₂⟩ := t₂
  refine Prod.ext (Finmap.ext_lookup fun k => ?_) (Finmap.ext_lookup fun k => ?_)
  · rw [(lookup_moveAll h₁ k).1, (lookup_moveAll h₂ k).1]
    simp only [hpicks]
  · rw [(lookup_moveAll h₁ k).2, (lookup_moveAll h₂ k).2]
    simp only [hpicks]

/-! ## Replaying a chain -/

namespace App

section

variable [Rounding]

/-- The machines have the same nodes and the same candidates. -/
def SameMembers (a b : App) : Prop :=
  (∀ k, k ∈ a.db.nodes ↔ k ∈ b.db.nodes) ∧ ∀ k, k ∈ a.db.hall ↔ k ∈ b.db.hall

/-- Growth depends on the ledger and the policies only. -/
theorem growth_congr {a b : App} (hdb : a.db = b.db) (hpolicies : a.policies = b.policies) :
    a.growth = b.growth := by
  unfold growth
  rw [hdb, hpolicies]

/-- What an import of a block with these draws leads to. -/
theorem importListed_eq_some {a a' : App} {d : Delta} {draws : List ℕ}
    {listing : List Ripemd160} :
    a.importListed d draws listing = some a' ↔ ∃ picks,
      (listing : Multiset Ripemd160) = (a.addHall d).growthSource.keys.val ∧
      drawPicks (a.addHall d).growthCount [] listing draws = some picks ∧
      (a.addHall d).addGrowthTransactions picks = some a' := by
  rw [importListed, Option.bind_eq_some_iff]
  constructor
  · rintro ⟨picks, hpicks, himport⟩
    obtain ⟨hlisting, hdraw⟩ := Option.ite_none_right_eq_some.mp hpicks
    exact ⟨picks, hlisting, hdraw, himport⟩
  · rintro ⟨picks, hlisting, hdraw, himport⟩
    exact ⟨picks, Option.ite_none_right_eq_some.mpr ⟨hlisting, hdraw⟩, himport⟩

/-- The tables after the growth do not depend on the order of the picks, nor on
what else the machine has. -/
theorem addGrowthTransactions_congr {a b a' b' : App} {picks picks' : List Ripemd160}
    (hdb : a.db = b.db) (hpolicies : a.policies = b.policies)
    (hpicks : ∀ k, k ∈ picks ↔ k ∈ picks')
    (ha : a.addGrowthTransactions picks = some a')
    (hb : b.addGrowthTransactions picks' = some b') : a'.db = b'.db := by
  have hgrowth := growth_congr hdb hpolicies
  have hfrom : a.fromHall = b.fromHall := by rw [fromHall, fromHall, hgrowth]
  obtain ⟨-, t, h⟩ := addGrowthTransactions_eq_some.mp ha
  obtain ⟨-, t', h'⟩ := addGrowthTransactions_eq_some.mp hb
  rw [← hfrom, ← hdb] at h'
  rcases h with ⟨hall, ht, rfl⟩ | ⟨hall, ht, rfl⟩
  · rcases h' with ⟨-, ht', rfl⟩ | ⟨hnodes, -⟩
    · rw [moveAll_congr hpicks ht ht']
    · rw [hall] at hnodes
      cases hnodes
  · rcases h' with ⟨hhall, -⟩ | ⟨-, ht', rfl⟩
    · rw [hall] at hhall
      cases hhall
    · rw [moveAll_congr hpicks ht ht']

/-- Distinct entries of the source can be picked, as many as the growth takes. -/
theorem exists_addGrowthTransactions {a : App} {picks : List Ripemd160}
    (hlength : picks.length = a.growthCount) (hnodup : picks.Nodup)
    (hsource : ∀ k ∈ picks, k ∈ a.growthSource) :
    ∃ a', a.addGrowthTransactions picks = some a' := by
  unfold growthSource at hsource
  cases hfrom : a.fromHall with
  | true =>
    rw [hfrom] at hsource
    obtain ⟨t, ht⟩ : ∃ t, moveAll picks (a.db.hall, a.db.nodes) = some t :=
      exists_moveAll hnodup hsource
    exact ⟨_, addGrowthTransactions_eq_some.mpr ⟨hlength, t, Or.inl ⟨hfrom, ht, rfl⟩⟩⟩
  | false =>
    rw [hfrom] at hsource
    obtain ⟨t, ht⟩ : ∃ t, moveAll picks (a.db.nodes, a.db.hall) = some t :=
      exists_moveAll hnodup hsource
    exact ⟨_, addGrowthTransactions_eq_some.mpr ⟨hlength, t, Or.inr ⟨hfrom, ht, rfl⟩⟩⟩

/-- Machines that have moved different keys have different members. -/
theorem mem_picks_iff_of_sameMembers {a a' a'' : App} {picks picks' : List Ripemd160}
    (h : a.addGrowthTransactions picks = some a')
    (h' : a.addGrowthTransactions picks' = some a'') (hsame : a'.SameMembers a'')
    {k : Ripemd160} (hk : k ∈ a.growthSource) : k ∈ picks ↔ k ∈ picks' := by
  obtain ⟨-, t, h⟩ := addGrowthTransactions_eq_some.mp h
  obtain ⟨-, t', h'⟩ := addGrowthTransactions_eq_some.mp h'
  unfold growthSource at hk
  rcases h with ⟨hfrom, ht, rfl⟩ | ⟨hfrom, ht, rfl⟩
  · rcases h' with ⟨-, ht', rfl⟩ | ⟨hfrom', -⟩
    · have hleft := hsame.2 k
      simp only [(mem_of_moveAll ht).2.1, (mem_of_moveAll ht').2.1] at hleft
      rw [hfrom] at hk
      exact not_iff_not.mp ((and_congr_right_iff.mp hleft) hk)
    · rw [hfrom] at hfrom'
      cases hfrom'
  · rcases h' with ⟨hfrom', -⟩ | ⟨-, ht', rfl⟩
    · rw [hfrom] at hfrom'
      cases hfrom'
    · have hleft := hsame.1 k
      simp only [(mem_of_moveAll ht).2.1, (mem_of_moveAll ht').2.1] at hleft
      rw [hfrom] at hk
      exact not_iff_not.mp ((and_congr_right_iff.mp hleft) hk)

/-- The growth that follows a block moves nothing, or all that there is. -/
def MovesNoneOrAll (a : App) (e : (Delta × List ℕ) × List Ripemd160) : Prop :=
  (a.addHall e.1.1).growthCount = 0 ∨
    (a.addHall e.1.1).growthCount = (a.addHall e.1.1).growthSource.keys.card

/-- The import of a block, with the order in which the hash table lists its keys. -/
def replayStep (a : App) (e : (Delta × List ℕ) × List Ripemd160) : Option App :=
  a.importListed e.1.1 e.1.2 e.2

/-- Where all or nothing is moved, the order does not show. -/
theorem db_eq_of_movesNoneOrAll {a b a' b' : App} {e e' : (Delta × List ℕ) × List Ripemd160}
    (hdb : a.db = b.db) (hblock : e.1 = e'.1) (hmoves : a.MovesNoneOrAll e)
    (ha : a.replayStep e = some a') (hb : b.replayStep e' = some b') : a'.db = b'.db := by
  obtain ⟨block, listing⟩ := e
  obtain ⟨block', listing'⟩ := e'
  obtain rfl : block = block' := hblock
  have hdb' : (a.addHall block.1).db = (b.addHall block.1).db := by rw [addHall, addHall, hdb]
  have hgrowth : (a.addHall block.1).growth = (b.addHall block.1).growth := growth_congr hdb' rfl
  have hsource : (a.addHall block.1).growthSource = (b.addHall block.1).growthSource := by
    rw [growthSource, growthSource, fromHall, fromHall, hgrowth, hdb']
  have hcount : (a.addHall block.1).growthCount = (b.addHall block.1).growthCount := by
    rw [growthCount, growthCount, hgrowth]
  obtain ⟨picks, hlisting, hdraw, ha⟩ := importListed_eq_some.mp ha
  obtain ⟨picks', hlisting', hdraw', hb⟩ := importListed_eq_some.mp hb
  obtain ⟨hlength, rest, hperm⟩ := drawPicks_perm hdraw
  obtain ⟨hlength', rest', hperm'⟩ := drawPicks_perm hdraw'
  rw [← hcount] at hlength'
  rw [← hsource, ← hlisting, Multiset.coe_eq_coe] at hlisting'
  refine addGrowthTransactions_congr hdb' rfl ?_ ha hb
  rcases hmoves with hnone | hall
  · rw [hnone] at hlength hlength'
    rw [List.length_eq_zero_iff.mp hlength, List.length_eq_zero_iff.mp hlength']
    exact fun _ => Iff.rfl
  · -- both picks are the whole table
    have hcard : listing.length = (a.addHall block.1).growthSource.keys.card :=
      congrArg Multiset.card hlisting
    have hwhole : ∀ (l ps qs : List Ripemd160), l.Perm (ps ++ qs) → l.length = ps.length →
        l.Perm ps := by
      intro l ps qs h hl
      have hqs : qs.length = 0 := by
        have := h.length_eq
        rw [List.length_append] at this
        omega
      rwa [List.length_eq_zero_iff.mp hqs, List.append_nil] at h
    have hpicks := hwhole _ _ _ hperm (by rw [hcard, hlength, hall])
    have hpicks' := hwhole _ _ _ hperm' (by rw [hlisting'.length_eq, hcard, hlength', hall])
    exact fun k => ((hpicks.symm.trans hlisting'.symm).trans hpicks').mem_iff

/-- Otherwise another order of the table gives other members. -/
theorem exists_other_members {a a' : App} {e : (Delta × List ℕ) × List Ripemd160}
    (hmoves : ¬ a.MovesNoneOrAll e) (h : a.replayStep e = some a') :
    ∃ listing a'', a.replayStep (e.1, listing) = some a'' ∧ ¬ a'.SameMembers a'' := by
  obtain ⟨⟨d, draws⟩, listing⟩ := e
  have h : a.importListed d draws listing = some a' := h
  obtain ⟨picks, hlisting, hdraw, himport⟩ := importListed_eq_some.mp h
  obtain ⟨hlength, rest, hperm⟩ := drawPicks_perm hdraw
  have hsome : (a.addHall d).growthCount ≠ 0 := fun hnone => hmoves (Or.inl hnone)
  have hleft : (a.addHall d).growthCount ≠ (a.addHall d).growthSource.keys.card := fun hall =>
    hmoves (Or.inr hall)
  have hnodup : (picks ++ rest).Nodup := by
    rw [← hperm.nodup_iff, ← Multiset.coe_nodup, hlisting]
    exact (a.addHall d).growthSource.keys.nodup
  have hmem : ∀ k, k ∈ (a.addHall d).growthSource ↔ k ∈ picks ++ rest := by
    intro k
    rw [← hperm.mem_iff, ← Multiset.mem_coe, hlisting, Finset.mem_val, Finmap.mem_keys]
  have hcard : (picks ++ rest).length = (a.addHall d).growthSource.keys.card := by
    rw [← hperm.length_eq]
    exact congrArg Multiset.card hlisting
  obtain ⟨x, hx⟩ := List.exists_mem_of_length_pos (l := picks) (by
    rw [hlength]
    exact Nat.pos_of_ne_zero hsome)
  obtain ⟨y, hy⟩ := List.exists_mem_of_length_pos (l := rest) (by
    rw [List.length_append, hlength] at hcard
    omega)
  have hyx : y ∉ picks := fun hpick => (List.nodup_append.mp hnodup).2.2 y hpick y hy rfl
  -- the other order has the two keys in each other's place
  have hswap : ∀ k, k ∈ picks ++ rest ↔ Equiv.swap x y k ∈ picks ++ rest := by
    intro k
    rcases eq_or_ne k x with rfl | hkx
    · simp [Equiv.swap_apply_left, hx, hy]
    · rcases eq_or_ne k y with rfl | hky
      · simp [Equiv.swap_apply_right, hx, hy]
      · rw [Equiv.swap_apply_of_ne_of_ne hkx hky]
  have hmap : ∀ (l : List Ripemd160) k, k ∈ l.map (Equiv.swap x y) ↔ Equiv.swap x y k ∈ l := by
    intro l k
    rw [List.mem_map]
    constructor
    · rintro ⟨j, hj, rfl⟩
      rwa [Equiv.swap_apply_self]
    · intro hk
      exact ⟨_, hk, Equiv.swap_apply_self _ _ _⟩
  have hlisting' : (listing.map (Equiv.swap x y) : Multiset Ripemd160) =
      (a.addHall d).growthSource.keys.val := by
    rw [← hlisting, Multiset.coe_eq_coe]
    refine (List.perm_ext_iff_of_nodup ?_ (hperm.nodup_iff.mpr hnodup)).mpr fun k => ?_
    · exact (hperm.nodup_iff.mpr hnodup).map (Equiv.injective _)
    · rw [hmap, hperm.mem_iff, hperm.mem_iff, ← hswap]
  have hdraw' : drawPicks (a.addHall d).growthCount [] (listing.map (Equiv.swap x y)) draws =
      some (picks.map (Equiv.swap x y)) := by
    rw [drawPicks_map, hdraw]
    rfl
  obtain ⟨a'', ha''⟩ : ∃ a'', (a.addHall d).addGrowthTransactions (picks.map (Equiv.swap x y)) =
      some a'' := exists_addGrowthTransactions (by rw [List.length_map, hlength])
    ((List.nodup_append.mp hnodup).1.map (Equiv.injective _)) (by
      intro k hk
      rw [hmem, hswap]
      exact List.mem_append_left _ ((hmap picks k).mp hk))
  refine ⟨_, a'', importListed_eq_some.mpr ⟨_, hlisting', hdraw', ha''⟩, fun hsame => ?_⟩
  have hboth := mem_picks_iff_of_sameMembers himport ha'' hsame
    ((hmem x).mpr (List.mem_append_left _ hx))
  rw [hmap, Equiv.swap_apply_left] at hboth
  exact hyx (hboth.mp hx)

/-- A machine with an empty db may have come to this state by importing these
blocks, its hash tables listing their keys in some order. -/
def Replays (nodeKey : Ripemd160) (blocks : List (Delta × List ℕ)) (a : App) : Prop :=
  ∃ es : List ((Delta × List ℕ) × List Ripemd160), es.map Prod.fst = blocks ∧
    run replayStep (create nodeKey) es = some a

/-- Every two machines that import the blocks have the same members. -/
def Reproducible (blocks : List (Delta × List ℕ)) : Prop :=
  ∀ nodeKey nodeKey' a a', Replays nodeKey blocks a → Replays nodeKey' blocks a' →
    a.SameMembers a'

/-- In every replay of the blocks each growth moves nothing, or all that there is. -/
def AlwaysNoneOrAll (blocks : List (Delta × List ℕ)) : Prop :=
  ∀ nodeKey (es : List ((Delta × List ℕ) × List Ripemd160)) a, es.map Prod.fst <+: blocks →
    run replayStep (create nodeKey) es = some a →
      AlongRun replayStep MovesNoneOrAll (create nodeKey) es

/-- Replays from the same tables stay together while all or nothing is moved. -/
theorem db_eq_of_run {es es' : List ((Delta × List ℕ) × List Ripemd160)} {a b a' b' : App}
    (hdb : a.db = b.db) (hblocks : es.map Prod.fst = es'.map Prod.fst)
    (hmoves : AlongRun replayStep MovesNoneOrAll a es)
    (ha : run replayStep a es = some a') (hb : run replayStep b es' = some b') :
    a'.db = b'.db := by
  induction es generalizing es' a b with
  | nil =>
    obtain rfl := List.map_eq_nil_iff.mp hblocks.symm
    obtain rfl := Option.some.inj ha
    obtain rfl := Option.some.inj hb
    exact hdb
  | cons e es ih =>
    obtain ⟨e', es', rfl, hblock, hblocks⟩ := List.map_eq_cons_iff.mp hblocks.symm
    obtain ⟨a₁, ha₁, ha⟩ := run_cons_eq_some.mp ha
    obtain ⟨b₁, hb₁, hb⟩ := run_cons_eq_some.mp hb
    obtain ⟨hfirst, hrest⟩ := (AlongRun.cons_iff ha₁).mp hmoves
    exact ih (db_eq_of_movesNoneOrAll hdb hblock.symm hfirst ha₁ hb₁) hblocks.symm hrest ha hb

/-- **Replaying a chain.** All machines that import the blocks of a chain have
the same members after each of them, exactly when every growth moves nothing or
all that there is to move. -/
theorem reproducible_iff (blocks : List (Delta × List ℕ)) :
    (∀ blocks', blocks' <+: blocks → Reproducible blocks') ↔ AlwaysNoneOrAll blocks := by
  constructor
  · intro hsame nodeKey es a hprefix hrun
    refine alongRun_iff.mpr fun before e after t hsplit ht => ?_
    by_contra hmoves
    subst hsplit
    rw [run_append, ht] at hrun
    obtain ⟨t', ht', -⟩ := run_cons_eq_some.mp hrun
    obtain ⟨listing, t'', ht'', hdiffer⟩ := exists_other_members hmoves ht'
    have hreplay : ∀ (listing : List Ripemd160) u, t.replayStep (e.1, listing) = some u →
        Replays nodeKey (before.map Prod.fst ++ [e.1]) u := by
      intro listing u hu
      refine ⟨before ++ [(e.1, listing)], by simp, ?_⟩
      rw [run_append, ht]
      exact run_cons_eq_some.mpr ⟨u, hu, rfl⟩
    refine hdiffer (hsame (before.map Prod.fst ++ [e.1]) ?_ nodeKey nodeKey _ _
      (hreplay e.2 t' ht') (hreplay listing t'' ht''))
    exact List.IsPrefix.trans ⟨after.map Prod.fst, by simp⟩ hprefix
  · rintro hmoves blocks' hprefix nodeKey nodeKey' a a' ⟨es, rfl, hrun⟩ ⟨es', hblocks, hrun'⟩
    have hempty : (create nodeKey).db = (create nodeKey').db := rfl
    have hdb := db_eq_of_run hempty hblocks.symm (hmoves nodeKey es a hprefix hrun) hrun hrun'
    rw [SameMembers, hdb]
    exact ⟨fun _ => Iff.rfl, fun _ => Iff.rfl⟩

end

/-- A block that lists the keys of these numbers, with the votes of a machine
as it is created, and one draw. -/
def candidatesBlock (keys : List UInt32) : Delta × List ℕ :=
  (blockOf [⟨tempLoad, keys.map fun k => (Ripemd160.set k, ⟨['a'], blankFree_letter⟩)⟩],
    [0])

/-- Two candidates, of which one becomes a node. -/
theorem not_reproducible_two_candidates : ¬ Reproducible [candidatesBlock [8, 9]] := by
  have himport : [(8 : UInt32), 9].all fun k =>
      ((create Ripemd160.zero).replayStep (candidatesBlock [8, 9],
        [Ripemd160.set k, Ripemd160.set (17 - k)])).any fun a =>
          Ripemd160.set k ∈ a.db.nodes ∧ Ripemd160.set (17 - k) ∉ a.db.nodes := by
    decide +kernel
  have himports := List.all_eq_true.mp himport
  obtain ⟨a, ha, hfirst⟩ := Option.any_eq_true _ _ |>.mp (himports 8 (by simp))
  obtain ⟨a', ha', hsecond⟩ := Option.any_eq_true _ _ |>.mp (himports 9 (by simp))
  obtain ⟨hnode, -⟩ := of_decide_eq_true hfirst
  obtain ⟨-, hnot⟩ := of_decide_eq_true hsecond
  intro hsame
  have hreplay : ∀ listing u,
      (create Ripemd160.zero).replayStep (candidatesBlock [8, 9], listing) = some u →
      Replays Ripemd160.zero [candidatesBlock [8, 9]] u := fun listing u hu =>
    ⟨[(candidatesBlock [8, 9], listing)], rfl, run_cons_eq_some.mpr ⟨u, hu, rfl⟩⟩
  have hmembers := hsame _ _ a a' (hreplay _ _ ha) (hreplay _ _ ha')
  exact hnot ((hmembers.1 _).mp hnode)

end App

end AcCore.Gov.Engine.Auth
