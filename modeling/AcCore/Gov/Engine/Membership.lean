import AcCore.Gov.Engine.AuthApp
import AcCore.Lib.Run

/-!
# Nodes and candidates

Several machines run the auth app. Each queues the keys that it does not know
when they connect, contributes what it queued, and imports blocks that are
merged from contributions. This file determines in which runs no machine ever
has a key both among its nodes and among its candidates.
-/

namespace AcCore.Gov.Engine.Auth

open Lib

deriving instance DecidableEq for LocalDelta

/-! ## What an import does to the tables -/

/-- The moves of `add_growth_transactions`. -/
def moveAll (picks : List Ripemd160) (t : Table Ripemd160 Address × Table Ripemd160 Address) :
    Option (Table Ripemd160 Address × Table Ripemd160 Address) :=
  picks.foldlM (fun t key => App.move key t.1 t.2) t

/-- What is picked leaves the one table for the other. -/
theorem mem_of_moveAll {picks : List Ripemd160}
    {src dst src' dst' : Table Ripemd160 Address}
    (h : moveAll picks (src, dst) = some (src', dst')) :
    (∀ k ∈ picks, k ∈ src) ∧ (∀ k, k ∈ src' ↔ k ∈ src ∧ k ∉ picks) ∧
      ∀ k, k ∈ dst' ↔ k ∈ dst ∨ k ∈ picks := by
  induction picks generalizing src dst with
  | nil =>
    obtain ⟨rfl, rfl⟩ := Prod.mk.injEq _ _ _ _ |>.mp (Option.some.inj h)
    simp
  | cons p picks ih =>
    rw [moveAll, List.foldlM_cons, App.move] at h
    cases hp : src.lookup p with
    | none => simp [hp] at h
    | some address =>
      rw [hp] at h
      obtain ⟨hpicks, hsrc, hdst⟩ := ih h
      have hmem : p ∈ src := Finmap.mem_of_lookup_eq_some hp
      refine ⟨?_, ?_, ?_⟩
      · intro k hk
        rcases List.mem_cons.mp hk with rfl | hk
        · exact hmem
        · exact (Finmap.mem_erase.mp (hpicks k hk)).2
      · intro k
        rw [hsrc, Finmap.mem_erase, List.mem_cons]
        tauto
      · intro k
        rw [hdst, Table.mem_emplace, List.mem_cons]
        tauto

namespace App

variable [Rounding]

/-- Whether `add_growth_transactions` takes from the hall. -/
def fromHall (a : App) : Bool := a.growth.elim true Prod.fst

/-- How many entries it takes. -/
def growthCount (a : App) : ℕ := a.growth.elim 0 Prod.snd

/-- Growth moves what is picked from the hall to the nodes, or back. -/
theorem addGrowthTransactions_eq_some {a a' : App} {picks : List Ripemd160} :
    a.addGrowthTransactions picks = some a' ↔ picks.length = a.growthCount ∧ ∃ t,
      (a.fromHall = true ∧ moveAll picks (a.db.hall, a.db.nodes) = some t ∧
        a' = { a with db := ⟨t.2, t.1⟩ }) ∨
      (a.fromHall = false ∧ moveAll picks (a.db.nodes, a.db.hall) = some t ∧
        a' = { a with db := ⟨t.1, t.2⟩ }) := by
  unfold addGrowthTransactions fromHall growthCount
  cases a.growth with
  | none =>
    constructor
    · intro h
      obtain ⟨rfl, h⟩ := Option.ite_none_right_eq_some.mp h
      obtain rfl := Option.some.inj h
      exact ⟨rfl, (a.db.hall, a.db.nodes), Or.inl ⟨rfl, rfl, rfl⟩⟩
    · rintro ⟨hlength, t, ⟨-, ht, rfl⟩ | ⟨hfalse, -⟩⟩
      · obtain rfl := List.length_eq_zero_iff.mp hlength
        obtain rfl := Option.some.inj ht
        rfl
      · cases hfalse
  | some r =>
    obtain ⟨fromHall, s⟩ := r
    cases fromHall with
    | true =>
      constructor
      · intro h
        obtain ⟨hlength, h⟩ := Option.ite_none_right_eq_some.mp h
        obtain ⟨t, ht, rfl⟩ := Option.map_eq_some_iff.mp h
        exact ⟨hlength, t, Or.inl ⟨rfl, ht, rfl⟩⟩
      · rintro ⟨hlength, t, ⟨-, ht, rfl⟩ | ⟨hfalse, -⟩⟩
        · exact Option.ite_none_right_eq_some.mpr
            ⟨hlength, Option.map_eq_some_iff.mpr ⟨t, ht, rfl⟩⟩
        · cases hfalse
    | false =>
      constructor
      · intro h
        obtain ⟨hlength, h⟩ := Option.ite_none_right_eq_some.mp h
        obtain ⟨t, ht, rfl⟩ := Option.map_eq_some_iff.mp h
        exact ⟨hlength, t, Or.inr ⟨rfl, ht, rfl⟩⟩
      · rintro ⟨hlength, t, ⟨hfalse, -⟩ | ⟨-, ht, rfl⟩⟩
        · cases hfalse
        · exact Option.ite_none_right_eq_some.mpr
            ⟨hlength, Option.map_eq_some_iff.mpr ⟨t, ht, rfl⟩⟩

/-- The shell command that sets a vote of the machine. -/
def setVote (a : App) (n : Fin 2) (value : ℚ) : App :=
  { a with policiesLocal := Function.update a.policiesLocal n value }

/-- A node or a candidate. -/
def Knows (a : App) (k : Ripemd160) : Prop := k ∈ a.db.nodes ∨ k ∈ a.db.hall

/-- No key is both a node and a candidate. -/
def Exclusive (a : App) : Prop := a.db.nodes.Disjoint a.db.hall

omit [Rounding] in
/-- The candidates after those that a block lists have been added. -/
theorem mem_emplaceAll_toList {t hall : Table Ripemd160 Address} {k : Ripemd160} :
    k ∈ Delta.emplaceAll hall (Table.toList t) ↔ k ∈ hall ∨ k ∈ t := by
  have hlisted : (Delta.firstAddress (Table.toList t) k).isSome ↔ k ∈ t := by
    simp only [Delta.firstAddress, Option.isSome_map, List.find?_isSome, decide_eq_true_eq]
    rw [← Table.mem_keyList, ← Table.map_fst_toList, List.mem_map]
  rw [← Finmap.lookup_isSome, Delta.lookup_emplaceAll, Option.isSome_or, Bool.or_eq_true, hlisted,
    Finmap.lookup_isSome]

/-- An import leaves a node that is also a candidate exactly when the block
lists a node that is not moved. -/
theorem exclusive_importDelta {a a' : App} {d : Delta} {picks : List Ripemd160}
    (ha : a.Exclusive) (h : a.importDelta d picks = some a') :
    a'.Exclusive ↔ ∀ k ∈ d.toHall, k ∈ a.db.nodes → k ∈ picks := by
  obtain ⟨-, ⟨src, dst⟩, ⟨-, ht, rfl⟩ | ⟨-, ht, rfl⟩⟩ := addGrowthTransactions_eq_some.mp h
  all_goals
    obtain ⟨hpicks, hsrc, hdst⟩ := mem_of_moveAll ht
    simp only [Exclusive, Finmap.Disjoint, hsrc, hdst, mem_emplaceAll_toList] at ha hpicks ⊢
    constructor
  · intro hdisjoint k hk hnode
    by_contra hpick
    exact hdisjoint k (Or.inl hnode) ⟨Or.inr hk, hpick⟩
  · rintro hlisted k (hnode | hpick) ⟨hhall | hk, hnot⟩
    · exact ha k hnode hhall
    · exact hnot (hlisted k hk hnode)
    · exact hnot hpick
    · exact hnot hpick
  · intro hdisjoint k hk hnode
    by_contra hpick
    exact hdisjoint k ⟨hnode, hpick⟩ (Or.inl (Or.inr hk))
  · rintro hlisted k ⟨hnode, hnot⟩ ((hhall | hk) | hpick)
    · exact ha k hnode hhall
    · exact hnot (hlisted k hk hnode)
    · exact hnot hpick

/-- An import loses no key. -/
theorem knows_importDelta {a a' : App} {d : Delta} {picks : List Ripemd160}
    (h : a.importDelta d picks = some a') {k : Ripemd160} (hk : a.Knows k) : a'.Knows k := by
  obtain ⟨-, ⟨src, dst⟩, ⟨-, ht, rfl⟩ | ⟨-, ht, rfl⟩⟩ := addGrowthTransactions_eq_some.mp h
  all_goals
    obtain ⟨-, hsrc, hdst⟩ := mem_of_moveAll ht
    simp only [Knows, hsrc, hdst, mem_emplaceAll_toList] at hk ⊢
    tauto

end App

/-! ## Machines that contribute to each other's blocks -/

/-- The machines, and the contributions that they have made. -/
structure Machines (ι : Type) where
  apps : ι → App
  made : List LocalDelta

/-- What happens on a machine. -/
inductive MachineEvent (ι : Type) where
  /-- The id handshake with a peer is completed. -/
  | basicAuthCompleted (i : ι) (key : Ripemd160) (address : Address)
  /-- The shell command that sets a vote. -/
  | vote (i : ι) (n : Fin 2) (value : ℚ)
  | createLocalDelta (i : ι)
  /-- A block is imported that is merged from these contributions. -/
  | importBlock (i : ι) (gs : List LocalDelta) (picks : List Ripemd160)

/-- The delta of a block. -/
def blockOf (gs : List LocalDelta) : Delta := (gs.foldl Delta.merge Delta.create).endMerge

namespace Machines

variable {ι : Type} [DecidableEq ι]

/-- Machines with an empty db. -/
def init (nodeKey : ι → Ripemd160) : Machines ι := ⟨fun i => App.create (nodeKey i), []⟩

/-- One event; `none` when it cannot happen. -/
def step (m : Machines ι) : MachineEvent ι → Option (Machines ι)
  | .basicAuthCompleted i key address =>
    some { m with apps := Function.update m.apps i ((m.apps i).basicAuthCompleted key address).1 }
  | .vote i n value =>
    some { m with apps := Function.update m.apps i ((m.apps i).setVote n value) }
  | .createLocalDelta i =>
    let (g, a) := (m.apps i).createLocalDelta
    some ⟨Function.update m.apps i a, g :: m.made⟩
  | .importBlock i gs picks =>
    if gs ⊆ m.made then
      ((m.apps i).importDelta (blockOf gs) picks).map fun a =>
        { m with apps := Function.update m.apps i a }
    else none

/-- No machine has a key that is both a node and a candidate. -/
def Exclusive (m : Machines ι) : Prop := ∀ i, (m.apps i).Exclusive

/-- All keys that machines know are still known. -/
def KeepsKeys (m m' : Machines ι) : Prop := ∀ i k, (m.apps i).Knows k → (m'.apps i).Knows k

/-- Every node of the machine that the block lists is moved by its growth. -/
def RelistsOnlyMoved (m : Machines ι) : MachineEvent ι → Prop
  | .importBlock i gs picks => ∀ k ∈ (blockOf gs).toHall, k ∈ (m.apps i).db.nodes → k ∈ picks
  | _ => True

/-- Only an import changes the tables of a machine. -/
theorem step_cases {m m' : Machines ι} {e : MachineEvent ι} (h : m.step e = some m') :
    (∃ i gs picks a, e = .importBlock i gs picks ∧
        (m.apps i).importDelta (blockOf gs) picks = some a ∧
        m' = { m with apps := Function.update m.apps i a }) ∨
      ((∀ i gs picks, e ≠ .importBlock i gs picks) ∧ ∀ i, (m'.apps i).db = (m.apps i).db) := by
  have hupdate : ∀ (i : ι) (a : App), a.db = (m.apps i).db →
      ∀ j, (Function.update m.apps i a j).db = (m.apps j).db := by
    intro i a ha j
    by_cases hj : j = i
    · subst hj
      rw [Function.update_self, ha]
    · rw [Function.update_of_ne hj]
  cases e with
  | basicAuthCompleted i key address =>
    right
    refine ⟨fun _ _ _ h => (nomatch h), ?_⟩
    obtain rfl := Option.some.inj h
    apply hupdate
    unfold App.basicAuthCompleted
    split_ifs
    · rfl
    · split <;> rfl
  | vote i n value =>
    right
    refine ⟨fun _ _ _ h => (nomatch h), ?_⟩
    obtain rfl := Option.some.inj h
    exact hupdate i _ rfl
  | createLocalDelta i =>
    right
    refine ⟨fun _ _ _ h => (nomatch h), ?_⟩
    obtain rfl := Option.some.inj h
    exact hupdate i _ rfl
  | importBlock i gs picks =>
    left
    simp only [step] at h
    split at h
    · obtain ⟨a, ha, rfl⟩ := Option.map_eq_some_iff.mp h
      exact ⟨i, gs, picks, a, rfl, ha, rfl⟩
    · cases h

/-- A step keeps nodes and candidates apart exactly when every node that the
block lists is moved. -/
theorem exclusive_step {m m' : Machines ι} {e : MachineEvent ι} (hm : m.Exclusive)
    (h : m.step e = some m') : m'.Exclusive ↔ m.RelistsOnlyMoved e := by
  rcases step_cases h with ⟨i, gs, picks, a, rfl, ha, rfl⟩ | ⟨he, hdb⟩
  · rw [RelistsOnlyMoved, ← App.exclusive_importDelta (hm i) ha]
    constructor
    · intro hall
      simpa using hall i
    · intro hexclusive j
      by_cases hj : j = i
      · subst hj
        simpa using hexclusive
      · simpa [Function.update_of_ne hj] using hm j
  · constructor
    · intro _
      cases e <;> simp_all [RelistsOnlyMoved]
    · intro _ i
      rw [App.Exclusive, hdb]
      exact hm i

/-- No step loses a key. -/
theorem keepsKeys_step {m m' : Machines ι} {e : MachineEvent ι} (h : m.step e = some m') :
    m.KeepsKeys m' := by
  intro j k hk
  rcases step_cases h with ⟨i, gs, picks, a, rfl, ha, rfl⟩ | ⟨-, hdb⟩
  · by_cases hj : j = i
    · subst hj
      simpa using App.knows_importDelta ha hk
    · simpa [Function.update_of_ne hj] using hk
  · rw [App.Knows, hdb]
    exact hk

/-- In no state of the run does a machine have a key that is both a node and a
candidate. -/
def NeverBoth (m : Machines ι) (es : List (MachineEvent ι)) : Prop :=
  ∀ es' m', es' <+: es → run step m es' = some m' → m'.Exclusive

/-- No step of the run loses a key. -/
def NeverLost (m : Machines ι) (es : List (MachineEvent ι)) : Prop :=
  AlongRun step (fun m e => ∀ m', m.step e = some m' → m.KeepsKeys m') m es

/-- **Nodes and candidates.** In a run from an empty db no key is both a node
and a candidate, and none is lost, exactly when every block that lists a node
moves it. -/
theorem never_both_iff (nodeKey : ι → Ripemd160) (es : List (MachineEvent ι)) (m : Machines ι)
    (h : run step (init nodeKey) es = some m) :
    NeverBoth (init nodeKey) es ∧ NeverLost (init nodeKey) es ↔
      AlongRun step RelistsOnlyMoved (init nodeKey) es := by
  have hinit : (init nodeKey).Exclusive := fun _ k hk => absurd hk Finmap.notMem_empty
  have hlost : NeverLost (init nodeKey) es :=
    .of_forall fun _ _ _ _ hstep => keepsKeys_step hstep
  have hsafe : NeverBoth (init nodeKey) es ↔ AlongRun step RelistsOnlyMoved (init nodeKey) es :=
    @safe_iff_alongRun _ _ step (fun _ => True) Exclusive _ (fun _ _ _ _ _ => trivial)
      (fun _ _ _ _ hq hstep => exclusive_step hq hstep) _ _ _ trivial hinit h
  exact ⟨fun hboth => hsafe.mp hboth.1, fun hlisted => ⟨hsafe.mpr hlisted, hlost⟩⟩

/-- Two machines, with keys 1 and 2. -/
def twoKeys (i : Bool) : Ripemd160 := Ripemd160.set (if i then 2 else 1)

/-- An address, as the handshake gives it. -/
def someAddress : Address := ⟨['a'], blankFree_letter⟩

/-- What a machine contributes that queued the keys of these numbers. -/
def contribution (keys : List UInt32) : LocalDelta :=
  ⟨tempLoad, keys.map fun k => (Ripemd160.set k, someAddress)⟩

/-- One machine queues a key, and a block makes it a candidate and then a node. -/
def listedOnce : List (MachineEvent Bool) :=
  [.basicAuthCompleted true (Ripemd160.set 8) someAddress, .createLocalDelta true,
    .importBlock true [contribution [8]] [Ripemd160.set 8]]

/-- A candidate that one contribution lists is never both. -/
theorem never_both_listedOnce : NeverBoth (init twoKeys) listedOnce := by
  obtain ⟨m, h⟩ : ∃ m, run step (init twoKeys) listedOnce = some m :=
    Option.isSome_iff_exists.mp (by decide +kernel)
  have hmoved : AlongRun step RelistsOnlyMoved (init twoKeys) listedOnce := by
    rw [listedOnce, AlongRun.cons_iff rfl, AlongRun.cons_iff rfl, AlongRun.singleton_iff]
    exact ⟨trivial, trivial, fun k _ hnode => absurd hnode Finmap.notMem_empty⟩
  exact ((never_both_iff twoKeys listedOnce m h).mpr hmoved).1

/-- Two machines queue a key. The block of the one makes it a node, and the
block of the other, which moves another key, makes it a candidate again. -/
def listedTwice : List (MachineEvent Bool) :=
  [.basicAuthCompleted false (Ripemd160.set 8) someAddress,
    .basicAuthCompleted true (Ripemd160.set 8) someAddress,
    .basicAuthCompleted true (Ripemd160.set 9) someAddress,
    .createLocalDelta false, .createLocalDelta true,
    .importBlock false [contribution [8]] [Ripemd160.set 8],
    .importBlock false [contribution [8, 9]] [Ripemd160.set 9]]

/-- A candidate that is listed again after it became a node is both. -/
theorem both_listedTwice : ¬ NeverBoth (init twoKeys) listedTwice := by
  obtain ⟨m, h, hboth⟩ : ∃ m, run step (init twoKeys) listedTwice = some m ∧
      Ripemd160.set 8 ∈ (m.apps false).db.nodes ∧ Ripemd160.set 8 ∈ (m.apps false).db.hall := by
    have hend : ∃ m ∈ run step (init twoKeys) listedTwice,
        Ripemd160.set 8 ∈ (m.apps false).db.nodes ∧
          Ripemd160.set 8 ∈ (m.apps false).db.hall := by
      decide +kernel
    exact hend
  intro hnever
  exact hnever _ m List.prefix_rfl h false _ hboth.1 hboth.2

end Machines

end AcCore.Gov.Engine.Auth
