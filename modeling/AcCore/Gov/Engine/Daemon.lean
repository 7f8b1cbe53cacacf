import AcCore.Gov.Cash.App
import AcCore.Gov.Engine.AuthApp
import AcCore.Gov.Engine.Diff
import AcCore.Gov.Engine.Votes

/-!
# The engine

A node of the network: its two apps, the votes and the contributions that it
receives, and the main loop of four stages that votes for a tip, imports the
block that was voted for, contributes, and forms the next block.
-/

namespace AcCore.Gov.Engine

open Lib

/-- What a node runs with: the cryptography, how numbers are printed, the
locking programs, and its keys. -/
structure Setting (PubKey : Type) where
  ec : Ec PubKey
  ripemd : List UInt8 → Ripemd160
  fmt : Format
  programs : Cash.LockingPrograms
  /-- `id.pub`. -/
  pub : PubKey
  /-- `sign_encode` with `id.priv`. -/
  signEncode : Text → Text

/-- Where the main loop is. -/
inductive CycleStage where
  | newCycle
  | localDeltasIo
  | syncDb
  | consensusVoteTipIo
  deriving DecidableEq, Repr

/-- `engine::daemon`. The lists `tips` and `formed` are not part of the code:
the tips that were selected and the diffs that were formed, latest first. -/
structure Daemon where
  auth : Auth.App
  cash : Cash.App
  votes : Votes
  pool : Diff
  newDiff : Option Diff
  lastBlockImported : Ripemd160
  /-- `syncd.head`. -/
  head : Ripemd160
  /-- `syncd.tail`. -/
  tail : Ripemd160
  stage : CycleStage
  tips : List Ripemd160
  formed : List Diff

/-- What happens to a node. Random draws and the order in which hash tables
list their entries come with the events that use them. -/
inductive DaemonEvent (PubKey : Type) where
  /-- A `vote_tip` datagram arrives. -/
  | voteTip (s : Text)
  /-- A `local_deltas` datagram arrives that can be read. -/
  | localDeltas (g : LocalDeltas PubKey)
  /-- The id handshake with a peer is completed. -/
  | basicAuthCompleted (key : Ripemd160) (address : Auth.Address)
  /-- A transaction is passed on from the calendar. -/
  | process (t : Cash.Tx)
  /-- `syncd` imports a block from the disk. -/
  | patchDb (d : Diff) (picks : List Ripemd160) (drawn : ℕ)
  | stage1
  | stage2 (picks : List Ripemd160) (drawn : ℕ)
  | stage3
  | stage4 (entries : Cash.Delta.Listing)

/-- `local_deltas::verify`. -/
def LocalDeltas.verify {PubKey : Type} (ec : Ec PubKey) (fmt : Format) (g : LocalDeltas PubKey) :
    Bool :=
  ec.verify g.pubkey (g.messageToSign fmt) g.signature

namespace Daemon

variable {PubKey : Type} (σ : Setting PubKey)

/-- A node that starts with an empty db. -/
def init : Daemon where
  auth := Auth.App.create (σ.ec.hash σ.pub)
  cash := Cash.App.create
  votes := ∅
  pool := Diff.create
  newDiff := none
  lastBlockImported := Ripemd160.zero
  head := Ripemd160.zero
  tail := Ripemd160.zero
  stage := .newCycle
  tips := []
  formed := []

/-- `clear`. -/
def clear (s : Daemon) : Daemon :=
  { s with
    auth := s.auth.clear
    cash := { s.cash with policies := fun _ => 0, db := Cash.Db.cleared }
    lastBlockImported := Ripemd160.zero }

/-- `import`: whether the block is in sequence, and the node after it; `none`
when the draws do not fit. -/
def importDiff (s : Daemon) (d : Diff) (picks : List Ripemd160) (drawn : ℕ) :
    Option (Daemon × Bool) :=
  if d.prev ≠ s.lastBlockImported then some (s, false)
  else
    (d.auth.elim (some s.auth) fun a => s.auth.importDelta a picks).map fun auth =>
      ({ s with
          auth := auth
          cash := d.cash.elim s.cash fun c =>
            s.cash.importDelta Cash.wrapInt64 c d.proofOfWork drawn
          lastBlockImported := d.hash σ.ripemd σ.fmt }, true)

/-- Imports a block, and clears the db when that fails. -/
def importOrClear (s : Daemon) (d : Diff) (picks : List Ripemd160) (drawn : ℕ) : Option Daemon :=
  (s.importDiff σ d picks drawn).map fun r => if r.2 then r.1 else r.1.clear

/-- `process_incoming_local_deltas`: what is correctly signed and the first of
its key goes into the pool. -/
def processIncomingLocalDeltas (s : Daemon) (g : LocalDeltas PubKey) : Option Daemon :=
  if g.verify σ.ec σ.fmt then
    let (pool, allowed) := s.pool.allow σ.ec g
    if allowed then (pool.add σ.ec σ.ripemd g).map fun pool => { s with pool := pool }
    else some s
  else some s

/-- `create_local_deltas`: the pools of both apps, signed. -/
def createLocalDeltas (s : Daemon) : LocalDeltas PubKey × Daemon :=
  let (auth, authApp) := s.auth.createLocalDelta
  let (cash, cashApp) := s.cash.createLocalDelta
  let g : LocalDeltas PubKey := ⟨σ.pub, [], some auth, some cash⟩
  ({ g with signature := σ.signEncode (g.messageToSign σ.fmt) },
    { s with auth := authApp, cash := cashApp })

/-- `stage1`, with `vote_tip`. -/
def stage1 (s : Daemon) : Daemon :=
  match s.newDiff with
  | none => s
  | some d =>
    if s.auth.myStage ≠ .node then s
    else { s with votes := (s.votes.add (σ.ec.hash σ.pub) (d.hash σ.ripemd σ.fmt)).1 }

/-- `eat_diff`. -/
def eatDiff (s : Daemon) (votedTip : Ripemd160) (picks : List Ripemd160) (drawn : ℕ) :
    Option Daemon :=
  let eaten :=
    match s.newDiff with
    | none => some s
    | some d => if votedTip = d.hash σ.ripemd σ.fmt then s.importOrClear σ d picks drawn else some s
  eaten.map fun s => { s with newDiff := none, head := votedTip, tail := s.lastBlockImported }

/-- `stage2`. -/
def stage2 (s : Daemon) (picks : List Ripemd160) (drawn : ℕ) : Option Daemon :=
  let (tip, votes) := s.votes.select
  let s := { s with votes := votes, tips := tip :: s.tips }
  if tip.isZero then some s else s.eatDiff σ tip picks drawn

/-- `stage3`: whether the node contributes. -/
def stage3 (s : Daemon) : Option (Daemon × Bool) :=
  if !s.auth.isNode then some (s, false)
  else if s.head ≠ s.tail then some (s, false)
  else
    let (g, s) := s.createLocalDeltas σ
    let (pool, allowed) := s.pool.allow σ.ec g
    if allowed then (pool.add σ.ec σ.ripemd g).map fun pool => ({ s with pool := pool }, true)
    else some ({ s with pool := pool }, true)

/-- `stage4`; `none` when its assertion fails. -/
def stage4 (s : Daemon) (entries : Cash.Delta.Listing) : Option Daemon :=
  if s.newDiff.isNone ∧ s.pool.Lists entries then
    let d := { s.pool.endAdding entries with prev := s.lastBlockImported }
    some { s with newDiff := some d, pool := Diff.create, formed := d :: s.formed }
  else none

/-- One event; `none` when it cannot happen. -/
def step (s : Daemon) : DaemonEvent PubKey → Option Daemon
  | .voteTip t => some { s with votes := (processVoteTip σ.ec s.votes t).1 }
  | .localDeltas g => s.processIncomingLocalDeltas σ g
  | .basicAuthCompleted key address =>
    some { s with auth := (s.auth.basicAuthCompleted key address).1 }
  | .process t => some { s with cash := s.cash.process Cash.wrapInt64 σ.programs t }
  | .patchDb d picks drawn =>
    (s.importOrClear σ d picks drawn).map fun s => { s with tail := s.lastBlockImported }
  | .stage1 =>
    if s.stage = .newCycle then some { s.stage1 σ with stage := .localDeltasIo } else none
  | .stage2 picks drawn =>
    if s.stage = .localDeltasIo then
      (s.stage2 σ picks drawn).map fun s => { s with stage := .syncDb }
    else none
  | .stage3 =>
    if s.stage = .syncDb then
      (s.stage3 σ).map fun r =>
        { r.1 with stage := if r.2 then .consensusVoteTipIo else .newCycle }
    else none
  | .stage4 entries =>
    if s.stage = .consensusVoteTipIo then
      (s.stage4 entries).map fun s => { s with stage := .newCycle }
    else none

/-! ## What the steps leave alone -/

variable {σ}

/-- Importing a block changes the apps and the last block. -/
theorem importOrClear_frame {s s' : Daemon} {d : Diff} {picks : List Ripemd160} {drawn : ℕ}
    (h : s.importOrClear σ d picks drawn = some s') :
    ∃ auth cash lastBlockImported,
      s' = { s with auth := auth, cash := cash, lastBlockImported := lastBlockImported } := by
  obtain ⟨⟨t, imported⟩, ht, rfl⟩ := Option.map_eq_some_iff.mp h
  have hframe : ∃ auth cash lastBlockImported,
      t = { s with auth := auth, cash := cash, lastBlockImported := lastBlockImported } := by
    unfold importDiff at ht
    split at ht
    · cases ht
      exact ⟨_, _, _, rfl⟩
    · obtain ⟨auth, -, himport⟩ := Option.map_eq_some_iff.mp ht
      cases himport
      exact ⟨_, _, _, rfl⟩
  obtain ⟨auth, cash, lastBlockImported, rfl⟩ := hframe
  cases imported
  · exact ⟨_, _, _, rfl⟩
  · exact ⟨_, _, _, rfl⟩

/-- Stage 2 disposes of the diff that was formed, unless no tip is selected. -/
theorem stage2_frame {s s' : Daemon} {picks : List Ripemd160} {drawn : ℕ}
    (h : s.stage2 σ picks drawn = some s') :
    ∃ auth cash lastBlockImported newDiff head tail,
      s' = { s with
        auth := auth
        cash := cash
        votes := ∅
        newDiff := newDiff
        lastBlockImported := lastBlockImported
        head := head
        tail := tail
        tips := s.votes.winner :: s.tips } := by
  simp only [stage2] at h
  split at h
  · cases h
    exact ⟨_, _, _, _, _, _, rfl⟩
  · obtain ⟨t, ht, rfl⟩ := Option.map_eq_some_iff.mp h
    split at ht
    · cases ht
      exact ⟨_, _, _, _, _, _, rfl⟩
    · split at ht
      · obtain ⟨_, _, _, rfl⟩ := importOrClear_frame ht
        exact ⟨_, _, _, _, _, _, rfl⟩
      · cases ht
        exact ⟨_, _, _, _, _, _, rfl⟩

/-- A contribution changes the pool. -/
theorem processIncomingLocalDeltas_frame {s s' : Daemon} {g : LocalDeltas PubKey}
    (h : s.processIncomingLocalDeltas σ g = some s') : ∃ pool, s' = { s with pool := pool } := by
  simp only [processIncomingLocalDeltas] at h
  split at h
  · split at h
    · obtain ⟨pool, -, rfl⟩ := Option.map_eq_some_iff.mp h
      exact ⟨pool, rfl⟩
    · cases h
      exact ⟨s.pool, rfl⟩
  · cases h
    exact ⟨s.pool, rfl⟩

/-- Stage 1 changes the votes. -/
theorem stage1_frame (s : Daemon) : ∃ votes, s.stage1 σ = { s with votes := votes } := by
  unfold stage1
  split
  · exact ⟨s.votes, rfl⟩
  · split
    · exact ⟨s.votes, rfl⟩
    · exact ⟨_, rfl⟩

/-- Stage 3 changes the pools of the apps and of the node. -/
theorem stage3_frame {s : Daemon} {r : Daemon × Bool} (h : s.stage3 σ = some r) :
    ∃ auth cash pool, r.1 = { s with auth := auth, cash := cash, pool := pool } := by
  unfold stage3 at h
  split at h
  · cases h
    exact ⟨_, _, _, rfl⟩
  · split at h
    · cases h
      exact ⟨_, _, _, rfl⟩
    · dsimp only [createLocalDeltas] at h
      split at h
      · obtain ⟨pool, -, rfl⟩ := Option.map_eq_some_iff.mp h
        exact ⟨_, _, _, rfl⟩
      · cases h
        exact ⟨_, _, _, rfl⟩

end Daemon

end AcCore.Gov.Engine
