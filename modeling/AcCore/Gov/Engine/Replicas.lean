import AcCore.Gov.Engine.Replication

/-!
# The network as one machine

Cycle follows cycle: the nodes begin a cycle with the apps that the one before has left
them. This file compares the network with a single machine that processes all transactions
of a cycle in the order of their time stamps, makes its own pool the block, and imports it.
After any number of cycles every node has the cash app of this machine.
-/

namespace AcCore.Gov.Engine

open Lib Gov.Cash

variable {PrivKey PubKey : Type} {curve : Curve PrivKey PubKey}
  {ripemd : List UInt8 → Ripemd160} {programs : LockingPrograms}

/-! ## A single machine -/

/-- The cash part of a block that has one pool. -/
def soloDelta (ripemd : List UInt8 → Ripemd160) (g : Cash.LocalDelta) : Cash.Delta :=
  Cash.Delta.merged ripemd [g] [⟨g.key ripemd, (g, 1)⟩]

/-- A cycle of a single machine: it processes transactions, and its pool is the block. -/
def soloCycle (ripemd : List UInt8 → Ripemd160) (programs : LockingPrograms) (a : App)
    (ts : List Tx) (w : Pow) (drawn : ℕ) : App :=
  let (g, b) := (ts.foldl (App.process wrapInt64 programs) a).createLocalDelta
  b.importDelta wrapInt64 (soloDelta ripemd g) w drawn

/-- The pool of a single machine is the pool of the block, with its policies. -/
theorem soloDelta_eq (ripemd : List UInt8 → Ripemd160) (g : Cash.LocalDelta) :
    (soloDelta ripemd g).g = g ∧ (soloDelta ripemd g).policies = g.policies := by
  refine ⟨rfl, ?_⟩
  have hmerged : (soloDelta ripemd g).policies =
      ([g.policies].foldl PoliciesDelta.merge PoliciesDelta.create).endMerge.policies := rfl
  rw [hmerged]
  exact PoliciesDelta.policies_endMerge_of_forall (List.cons_ne_nil _ _)
    fun p hp => List.mem_singleton.mp hp

/-- Two blocks with one pool and the same policies do the same. -/
theorem importDelta_congr {b : App} {d d' : Cash.Delta} (hpool : d.g = d'.g)
    (hpolicies : d.policies = d'.policies) (w : Pow) (drawn : ℕ) :
    b.importDelta wrapInt64 d w drawn = b.importDelta wrapInt64 d' w drawn := by
  rw [App.importDelta, App.importDelta, hpool, hpolicies]

/-! ## Cycle after cycle -/

section Votes

variable {V : Type*} [DecidableEq V] {priv : V → PrivKey} {getPeople : V → List V}
  {start : V → Daemon} {es : List (NetworkEvent V (DaemonEvent PubKey))}
  {t : Network V Daemon Text}

/-- All nodes have the cash app that they had. -/
def SameApps (start : V → Daemon) (s : Network V Daemon Text) : Prop :=
  ∀ v, (s.nodes v).cash = (start v).cash

/-- When no transaction is processed while the votes come in, they leave the cash apps as
they are. -/
theorem VotesFlooded.sameApps (h : VotesFlooded curve ripemd programs priv getPeople start es t)
    (hquiet : ∀ v t, .act v (.process t) ∉ es) : SameApps start t := by
  have hacts : AlongRun (voteFlood curve ripemd programs priv getPeople).step
      (fun _ e => e ∈ es) ⟨start, []⟩ es := .of_forall fun e he _ => he
  have hstart : SameApps start ⟨start, []⟩ := fun _ => rfl
  refine run_invariant (fun s e s' hs he hs' => ?_) hstart hacts h.run
  refine Flood.inv_of_step (F := voteFlood curve ripemd programs priv getPeople)
    (fun v (s : Daemon) => s.cash = (start v).cash) hs ?_ ?_ hs'
  · rintro v b r rfl hr
    exact (cash_actVoting (h.acts v b he) (fun t hb => hquiet v t (hb ▸ he)) hr).trans (hs v)
  · exact fun p _ => hs p.dst

end Votes

/-- What a node has between two cycles: the cash app, and the last block. -/
abbrev Standing : Type := App × Ripemd160

namespace Cycle

variable {V : Type*} [DecidableEq V]

/-- The nodes take this cycle from where they stand, and import the block `block`. The cycle
is one as in `Runs` where all stand alike. A node votes with the app from which it has taken
its contribution, and processes no transaction before it has imported the block. The index
that is drawn is one of the block before and the number of contributors. -/
structure Extends (curve : Curve PrivKey PubKey) (ripemd : List UInt8 → Ripemd160)
    (programs : LockingPrograms) (computeHash : Datagram → Ripemd160) (debug : Bool) (limit : ℕ)
    (priv : V → PrivKey) (getNodes : V → List V) (vs : List V) (draw : Ripemd160 → ℕ → ℕ)
    (before : V → Standing) (c : Cycle V PubKey) (block : Ripemd160) (after : V → Daemon) :
    Prop where
  runs : ∀ a last, (∀ v, before v = (a, last)) →
    c.Runs curve ripemd programs computeHash debug limit priv getNodes vs a last
  contributed : ∀ v, (c.voters v).cash = (c.mempools.nodes v).intake.app.createLocalDelta.2
  quiet : ∀ v t, .act v (.process t) ∉ c.voted
  tip : ∃ u, (c.formed (before u).2 u).hash ripemd sixFormat = block
  nonzero : block.isZero = false
  imported : ∀ v, ∃ picks, (c.votes.nodes v).stage2 (nodeWith curve ripemd programs (priv v)) picks
    (draw (before v).2 vs.length) = some (after v)

/-- Cycles one after the other, each with its block, and where they leave the nodes. -/
inductive Chain (curve : Curve PrivKey PubKey) (ripemd : List UInt8 → Ripemd160)
    (programs : LockingPrograms) (computeHash : Datagram → Ripemd160) (debug : Bool) (limit : ℕ)
    (priv : V → PrivKey) (getNodes : V → List V) (vs : List V) (draw : Ripemd160 → ℕ → ℕ) :
    (V → Standing) → List (Cycle V PubKey × Ripemd160) → (V → Standing) → Prop where
  | nil (s : V → Standing) :
    Chain curve ripemd programs computeHash debug limit priv getNodes vs draw s [] s
  | cons {s t : V → Standing} {c : Cycle V PubKey} {block : Ripemd160} {after : V → Daemon}
    {cs : List (Cycle V PubKey × Ripemd160)} :
    c.Extends curve ripemd programs computeHash debug limit priv getNodes vs draw s block after →
    Chain curve ripemd programs computeHash debug limit priv getNodes vs draw
      (fun v => ((after v).cash, (after v).lastBlockImported)) cs t →
    Chain curve ripemd programs computeHash debug limit priv getNodes vs draw s ((c, block) :: cs) t

/-- A cycle of the single machine, with the nodes at these addresses as contributors. -/
def solo (ripemd : List UInt8 → Ripemd160) (programs : LockingPrograms)
    (addresses : List Ripemd160) (draw : Ripemd160 → ℕ → ℕ) (s : Standing)
    (e : Cycle V PubKey × Ripemd160) : Standing :=
  (soloCycle ripemd programs s.1 (e.1.transactions s.1) (contributorsOf addresses)
    (draw s.2 addresses.length), e.2)

variable {computeHash : Datagram → Ripemd160} {debug : Bool} {limit : ℕ} {priv : V → PrivKey}
  {getNodes : V → List V} {vs : List V} {draw : Ripemd160 → ℕ → ℕ} {a : App} {last : Ripemd160}

/-- From where all nodes stand alike, a cycle takes them where it takes the machine. -/
theorem Extends.standing_eq (hcurve : curve.Lawful) (hpeers : Peers curve ripemd priv getNodes vs)
    {before : V → Standing} {c : Cycle V PubKey} {block : Ripemd160} {after : V → Daemon}
    (h : c.Extends curve ripemd programs computeHash debug limit priv getNodes vs draw before block
      after)
    (hbefore : ∀ v, before v = (a, last)) (v : V) :
    ((after v).cash, (after v).lastBlockImported) =
      Cycle.solo ripemd programs (vs.map (addressOf curve ripemd priv)) draw (a, last) (c, block)
      := by
  have hc := h.runs a last hbefore
  obtain ⟨picks, hafter⟩ := h.imported v
  rw [hbefore] at hafter
  have hblock : ∃ u, (c.formed last u).hash ripemd sixFormat = block := by
    obtain ⟨u, hu⟩ := h.tip
    rw [hbefore] at hu
    exact ⟨u, hu⟩
  obtain ⟨himported, d, hcash, hpool, hpolicies⟩ :=
    hc.imports hpeers hcurve hblock h.nonzero hafter
  have hopening : (c.votes.nodes v).cash =
      ((c.transactions a).foldl (App.process wrapInt64 programs) a).createLocalDelta.2 := by
    rw [hc.voted.sameApps h.quiet v, h.contributed,
      hc.evidence.app_eq hc.distinct hpeers.connected]
    rfl
  obtain ⟨hsolo, hsoloPolicies⟩ := soloDelta_eq ripemd d.g
  rw [hcash, himported, hopening,
    importDelta_congr hsolo.symm (hpolicies.trans hsoloPolicies.symm), hpool, Cycle.solo,
    List.length_map]
  rfl

end Cycle

end AcCore.Gov.Engine
