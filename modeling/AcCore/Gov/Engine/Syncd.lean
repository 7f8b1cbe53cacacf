import AcCore.Gov.Engine.Patches

/-!
# The threads that synchronise

`syncd` walks back from `cur` to `tail` and collects the blocks whose files it
finds, while the main loop sets `head` and `tail` after every vote. Each has its
own critical sections, and what is collected under one head may be applied under
another. The steps here are those sections, in any order.
-/

namespace AcCore.Gov.Engine

open Lib Cash

/-- Where the thread of `syncd` is. -/
inductive SyncdAt where
  /-- Before it reads `head`, `cur` and `tail`. -/
  | check (patches : List Ripemd160)
  /-- Before it looks for the file of `cu`. -/
  | look (cu : Ripemd160) (patches : List Ripemd160)
  /-- Before it sets `cur` to the block that was found to be the previous one. -/
  | found (prev : Ripemd160) (patches : List Ripemd160)
  /-- Before it sets `head`, `cur` and `tail` to 0. -/
  | reset (patches : List Ripemd160)
  /-- In the loop of `patch_db`, with what is left of the reversed list. -/
  | patching (rest : List Ripemd160) (front : Ripemd160)
  /-- Before `update` of the last block imported. -/
  | updating (lbi front : Ripemd160)
  /-- Before it sets `tail` to the first of the patches. -/
  | setting (front : Ripemd160)
  /-- Before `clear`; the loop goes on with the patches, if there are any. -/
  | clearing (next : Option (List Ripemd160))
  /-- In `clear`, when the apps are cleared. -/
  | cleared (next : Option (List Ripemd160))
  /-- In `wait`. -/
  | waiting
  deriving DecidableEq

/-- Where the main loop is. -/
inductive MainAt where
  /-- Outside of `eat_diff` and `load_head`. -/
  | idle
  | clearing (votedTip : Ripemd160)
  | cleared (votedTip : Ripemd160)
  /-- Before it reads the last block imported. -/
  | evaluating (head : Ripemd160)
  /-- Before `update`. -/
  | updating (head tail : Ripemd160)
  deriving DecidableEq

/-- The thread is in `clear`, when the apps are cleared. -/
@[simp] def SyncdAt.inClear : SyncdAt → Bool
  | .cleared _ => true
  | _ => false

/-- The same of the main loop. -/
@[simp] def MainAt.inClear : MainAt → Bool
  | .cleared _ => true
  | _ => false

/-- A node with the threads that synchronise it. The node has `head` and `tail`
of `syncd`. -/
structure Syncing where
  node : Daemon
  cur : Ripemd160
  resume : Bool
  dir : BlocksDir
  lastQueryed : Ripemd160
  queryReps : ℤ
  syncd : SyncdAt
  main : MainAt

/-- What can happen next. -/
inductive SyncEvent where
  /-- The thread of `syncd` goes on: whether a petition is delivered, and the draws
  of an import. -/
  | syncd (delivered : Bool) (picks : List Ripemd160) (drawn : ℕ)
  | loadHead
  | eatDiff (votedTip : Ripemd160) (newDiff : Option Diff) (picks : List Ripemd160) (drawn : ℕ)
  /-- The main loop goes on. -/
  | main
  /-- Files arrive, or are lost. -/
  | files (dir : BlocksDir)
  /-- `in_sync` is called. -/
  | inSync

/-- The first half of `clear`. -/
def Daemon.clearApps (s : Daemon) : Daemon :=
  { s with
    auth := s.auth.clear
    cash := { s.cash with policies := fun _ => 0, db := Cash.Db.cleared } }

/-- Clearing forgets the ledger and the last block. -/
theorem Daemon.clear_eq (s : Daemon) :
    s.clear = { s.clearApps with lastBlockImported := Ripemd160.zero } := rfl

namespace Syncing

variable {PubKey : Type} (σ : Setting PubKey) (debug : Bool)

/-- The threads begin, with an empty db and some files. -/
def start (dir : BlocksDir) : Syncing where
  node := Daemon.init σ
  cur := Ripemd160.zero
  resume := false
  dir := dir
  lastQueryed := Ripemd160.zero
  queryReps := 100
  syncd := .check []
  main := .idle

/-- `in_sync`. -/
def inSync (s : Syncing) : Bool := s.node.head == s.node.tail

/-- `get_prev`. -/
def getPrev (s : Syncing) (h : Ripemd160) : Option Ripemd160 :=
  (s.dir.lookup h.toB58).map fun text => (extractHash (some text)).1

/-- The file of `cu` is not there: it is asked for, and after a hundred times in a
row everything is reset. -/
def query (s : Syncing) (delivered : Bool) (cu : Ripemd160) (patches : List Ripemd160) : Syncing :=
  if !delivered then { s with syncd := .check patches }
  else if s.lastQueryed ≠ cu then
    { s with lastQueryed := cu, queryReps := 100, syncd := .check patches }
  else if s.queryReps - 1 = 0 then { s with queryReps := 0, syncd := .reset patches }
  else { s with queryReps := s.queryReps - 1, syncd := .check patches }

/-- The next step of `syncd_t::run`; `none` while it waits. -/
def syncdStep (s : Syncing) (delivered : Bool) (picks : List Ripemd160) (drawn : ℕ) :
    Option Syncing :=
  match s.syncd with
  | .check patches =>
    if s.cur = s.node.tail ∨ s.node.head.isZero ∨ s.cur.isZero then
      match patches with
      | [] => some { s with syncd := .waiting }
      | front :: ps => some { s with syncd := .patching (front :: ps).reverse front }
    else
      let patches := if s.cur = s.node.head then [] else patches
      some { s with syncd := .look s.cur patches }
  | .look cu patches =>
    match s.getPrev cu with
    | some prev => some { s with syncd := .found prev (patches ++ [cu]) }
    | none => some (s.query delivered cu patches)
  | .found prev patches => some { s with cur := prev, syncd := .check patches }
  | .reset patches =>
    some { s with
      node := { s.node with head := Ripemd160.zero, tail := Ripemd160.zero }
      cur := Ripemd160.zero
      syncd := .clearing (some patches) }
  | .patching [] front => some { s with syncd := .updating s.node.lastBlockImported front }
  | .patching (hash :: rest) front =>
    (s.node.patchLoop σ debug s.dir [⟨hash, picks, drawn⟩]).map fun r =>
      { s with
        node := r.1
        dir := r.2.1
        syncd := if r.2.2 then .patching rest front else .clearing none }
  | .updating lbi front =>
    some { s with
      node := { s.node with tail := lbi }
      cur := s.node.head
      resume := true
      syncd := .setting front }
  | .setting front => some { s with node := { s.node with tail := front }, syncd := .waiting }
  | .clearing next => some { s with node := s.node.clearApps, syncd := .cleared next }
  | .cleared next =>
    some { s with
      node := { s.node with lastBlockImported := Ripemd160.zero }
      dir := s.dir.writeHead Ripemd160.zero
      syncd := next.elim .waiting .check }
  | .waiting => if s.resume then some { s with resume := false, syncd := .check [] } else none

/-- `eat_diff` until it is imported; the diff is saved first. -/
def eatDiff (s : Syncing) (votedTip : Ripemd160) (newDiff : Option Diff)
    (picks : List Ripemd160) (drawn : ℕ) : Option Syncing :=
  match newDiff with
  | none => some { s with main := .evaluating votedTip }
  | some d =>
    if votedTip = d.hash σ.ripemd σ.fmt then
      let dir : BlocksDir := s.dir.insert votedTip.toB58 (d.toStream σ.fmt)
      (s.node.importDiff σ d picks drawn).map fun r =>
        { s with
          node := r.1
          dir := if r.2 then dir.writeHead r.1.lastBlockImported else dir
          main := if r.2 then .evaluating votedTip else .clearing votedTip }
    else some { s with main := .evaluating votedTip }

/-- The main loop goes on in `eat_diff` or `load_head`. -/
def mainStep (s : Syncing) : Option Syncing :=
  match s.main with
  | .idle => none
  | .clearing votedTip => some { s with node := s.node.clearApps, main := .cleared votedTip }
  | .cleared votedTip =>
    some { s with
      node := { s.node with lastBlockImported := Ripemd160.zero }
      dir := s.dir.writeHead Ripemd160.zero
      main := .evaluating votedTip }
  | .evaluating head => some { s with main := .updating head s.node.lastBlockImported }
  | .updating head tail =>
    some { s with
      node := { s.node with head := head, tail := tail }
      cur := head
      resume := true
      main := .idle }

/-- One event. -/
def step (s : Syncing) : SyncEvent → Option Syncing
  | .syncd delivered picks drawn => s.syncdStep σ debug delivered picks drawn
  | .loadHead =>
    if s.main = .idle then
      let head := (s.dir.lookup headFile).elim Ripemd160.zero fun text =>
        (extractHash (some text)).1
      some { s with main := .evaluating head }
    else none
  | .eatDiff votedTip newDiff picks drawn =>
    if s.main = .idle then s.eatDiff σ votedTip newDiff picks drawn else none
  | .main => s.mainStep
  | .files dir => some { s with dir := dir }
  | .inSync => some s

end Syncing

/-! ## The replay of a chain -/

/-- An empty db. -/
structure Daemon.Blank (s : Daemon) : Prop where
  auth : s.auth.db = ⟨∅, ∅⟩
  cash : s.cash.db = Db.cleared
  last : s.lastBlockImported = Ripemd160.zero

/-- The databases are what the import of a chain, from its first block to the last
block imported, makes of an empty db. -/
def Daemon.Replays {PubKey : Type} (σ : Setting PubKey) (s : Daemon) : Prop :=
  ∃ (u : Daemon) (bs : List (Diff × Patch)) (t : Daemon), u.Blank ∧
    LinkedFrom σ Ripemd160.zero (bs.map Prod.fst) ∧ run (Daemon.importPatch σ) u bs = some t ∧
    t.auth = s.auth ∧ t.cash = s.cash ∧ t.lastBlockImported = s.lastBlockImported

variable {PubKey : Type} {σ : Setting PubKey} {debug : Bool}

/-- Whether a daemon replays its chain depends on the ledger and the last block. -/
theorem Daemon.Replays.congr {s s' : Daemon} (h : s.Replays σ) (hauth : s'.auth = s.auth)
    (hcash : s'.cash = s.cash) (hlast : s'.lastBlockImported = s.lastBlockImported) :
    s'.Replays σ := by
  obtain ⟨u, bs, t, hblank, hlinked, hrun, hta, htc, htl⟩ := h
  exact ⟨u, bs, t, hblank, hlinked, hrun, hta.trans hauth.symm, htc.trans hcash.symm,
    htl.trans hlast.symm⟩

/-- A blank daemon replays the empty chain. -/
theorem Daemon.Blank.replays {s : Daemon} (h : s.Blank) : s.Replays σ :=
  ⟨s, [], s, h, trivial, rfl, rfl, rfl, rfl⟩

/-- What has been imported one after the other is a chain. -/
theorem linkedFrom_of_run {s t : Daemon} {bs : List (Diff × Patch)}
    (h : run (Daemon.importPatch σ) s bs = some t) :
    LinkedFrom σ s.lastBlockImported (bs.map Prod.fst) := by
  induction bs generalizing s with
  | nil => trivial
  | cons b bs ih =>
    obtain ⟨u, hb, hrest⟩ := run_cons_eq_some.mp h
    obtain ⟨⟨v, imported⟩, himport, hkept⟩ := Option.bind_eq_some_iff.mp hb
    obtain ⟨rfl, -⟩ | ⟨rfl, hprev, hlast⟩ := Daemon.importDiff_eq_some himport
    · cases hkept
    · obtain rfl := Option.some.inj hkept
      rw [List.map_cons]
      exact ⟨hprev, hlast ▸ ih hrest⟩

/-- An import uses the apps and the last block imported. -/
theorem Daemon.importDiff_congr {s t u : Daemon} {d : Diff} {picks : List Ripemd160} {drawn : ℕ}
    (hauth : t.auth = s.auth) (hcash : t.cash = s.cash)
    (hlast : t.lastBlockImported = s.lastBlockImported)
    (h : s.importDiff σ d picks drawn = some (u, true)) :
    ∃ v, t.importDiff σ d picks drawn = some (v, true) ∧ v.auth = u.auth ∧ v.cash = u.cash ∧
      v.lastBlockImported = u.lastBlockImported := by
  unfold importDiff at h ⊢
  rw [hauth, hcash, hlast]
  split_ifs at h ⊢ with hprev
  · simp at h
  · obtain ⟨auth, himport, hu⟩ := Option.map_eq_some_iff.mp h
    obtain ⟨rfl, -⟩ := Prod.mk.inj hu
    simp only [himport, Option.map_some]
    exact ⟨_, rfl, rfl, rfl, rfl⟩

/-- One block more. -/
theorem Daemon.Replays.importDiff {s s' : Daemon} {d : Diff} {picks : List Ripemd160} {drawn : ℕ}
    (h : s.Replays σ) (himport : s.importDiff σ d picks drawn = some (s', true)) :
    s'.Replays σ := by
  obtain ⟨u, bs, t, hblank, -, hrun, hauth, hcash, hlast⟩ := h
  obtain ⟨v, hv, hva, hvc, hvl⟩ := Daemon.importDiff_congr hauth hcash hlast himport
  have hstep : t.importPatch σ (d, ⟨s'.lastBlockImported, picks, drawn⟩) = some v := by
    rw [importPatch, hv]
    rfl
  have hmore : run (Daemon.importPatch σ) u (bs ++ [(d, ⟨s'.lastBlockImported, picks, drawn⟩)]) =
      some v := by
    rw [run_append, hrun, Option.bind_some]
    exact run_cons_eq_some.mpr ⟨v, hstep, rfl⟩
  have hlinked := linkedFrom_of_run hmore
  rw [hblank.last] at hlinked
  exact ⟨u, _, v, hblank, hlinked, hmore, hva, hvc, hvl⟩

namespace Syncing

/-! ## What holds in every state -/

/-- One of the threads is in `clear`, when the apps are cleared. -/
def inClear (s : Syncing) : Bool := s.syncd.inClear || s.main.inClear

/-- What the threads keep: the databases are a replay, but for an empty one within
`clear`; and outside of `eat_diff` and `load_head` a node in sync has imported its head. -/
structure Consistent (σ : Setting PubKey) (s : Syncing) : Prop where
  blank : s.inClear = true → s.node.auth.db = ⟨∅, ∅⟩ ∧ s.node.cash.db = Db.cleared
  replays : s.inClear = false → s.node.Replays σ
  settled : s.main = .idle → s.inSync = true → s.node.head ≠ Ripemd160.zero →
    s.node.lastBlockImported = s.node.head ∧ s.inClear = false

/-- Whoever sets `tail` to the head has read a last block that is still the last
one, with no `clear` under way; nobody imports into what another one clears;
`syncd` neither imports nor clears in a node that is in sync, unless the main loop
is about to set head and tail; and while it is, `in_sync` is not called. -/
def Careful (σ : Setting PubKey) (debug : Bool) (s : Syncing) : SyncEvent → Prop
  | .inSync => s.main = .idle
  | .main =>
    match s.main with
    | .updating head tail => head = tail → head ≠ Ripemd160.zero →
        tail = s.node.lastBlockImported ∧ s.inClear = false
    | _ => True
  | .eatDiff votedTip newDiff _ _ =>
    newDiff.any (fun d => d.hash σ.ripemd σ.fmt = votedTip ∧ d.prev = s.node.lastBlockImported) →
      s.inClear = false
  | .syncd _ picks drawn =>
    match s.syncd with
    | .patching (hash :: _) _ =>
      (s.node.patchLoop σ debug s.dir [⟨hash, picks, drawn⟩]).any (fun r => r.2.2) →
        s.inClear = false ∧ (s.main = .idle → s.inSync = true → s.node.head = Ripemd160.zero)
    | .clearing _ => s.main = .idle → s.inSync = true → s.node.head = Ripemd160.zero
    | .updating tail _ | .setting tail => s.main = .idle → s.node.head = tail →
        s.node.head ≠ Ripemd160.zero → tail = s.node.lastBlockImported
    | _ => True
  | _ => True

/-- Whether a step is careful is decided case by case. -/
instance (s : Syncing) (e : SyncEvent) : Decidable (s.Careful σ debug e) := by
  cases e <;> dsimp only [Careful] <;> (try split) <;> infer_instance

/-! ## The steps -/

variable {s s' : Syncing}

/-- A step that leaves the node alone and the main loop where it is. -/
theorem Consistent.of_node_eq (h : s.Consistent σ) (hnode : s'.node = s.node)
    (hmain : s'.main = s.main) (hclear : s'.inClear = s.inClear) : s'.Consistent σ := by
  obtain ⟨hblank, hreplays, hsettled⟩ := h
  refine ⟨?_, ?_, ?_⟩
  · rwa [hnode, hclear]
  · rwa [hnode, hclear]
  · rwa [inSync, hnode, hclear, hmain]

/-- A step that leaves the apps and the last block alone, with the main loop in
`eat_diff` or `load_head` after it. -/
theorem Consistent.of_busy (h : s.Consistent σ) (hnode : s'.node = s.node)
    (hbusy : s'.main ≠ .idle) (hclear : s'.inClear = s.inClear) : s'.Consistent σ := by
  refine ⟨?_, ?_, fun hidle => absurd hidle hbusy⟩
  · rw [hnode, hclear]
    exact h.blank
  · rw [hnode, hclear]
    exact h.replays

/-- A step that sets head or tail. -/
theorem Consistent.of_tail (h : s.Consistent σ) (hauth : s'.node.auth = s.node.auth)
    (hcash : s'.node.cash = s.node.cash)
    (hlast : s'.node.lastBlockImported = s.node.lastBlockImported)
    (hclear : s'.inClear = s.inClear)
    (hsettled : s'.main = .idle → s'.inSync = true → s'.node.head ≠ Ripemd160.zero →
      s.node.lastBlockImported = s'.node.head ∧ s.inClear = false) : s'.Consistent σ := by
  refine ⟨?_, ?_, ?_⟩
  · rw [hclear, hauth, hcash]
    exact h.blank
  · intro hnot
    rw [hclear] at hnot
    exact (h.replays hnot).congr hauth hcash hlast
  · rw [hclear, hlast]
    exact hsettled

/-- One patch: nothing happens to the node, or its block is imported. -/
theorem patchLoop_singleton {n t : Daemon} {dir dir' : BlocksDir} {p : Patch} {ok : Bool}
    (h : n.patchLoop σ debug dir [p] = some (t, dir', ok)) :
    (ok = false ∧ t = n) ∨
      (ok = true ∧ ∃ b, n.importDiff σ b p.picks p.drawn = some (t, true)) := by
  obtain ⟨done, rest, bs, hsplit, hok, happlied⟩ := Daemon.applied_of_patchLoop h
  cases ok with
  | false =>
    have hrest : rest ≠ [] := fun hnil => Bool.false_ne_true (hok.mpr hnil)
    have hdone : done = [] := by
      have hlength := congrArg List.length hsplit
      rw [List.length_append, List.length_singleton] at hlength
      have := List.length_pos_of_ne_nil hrest
      exact List.eq_nil_of_length_eq_zero (by omega)
    subst hdone
    have himported := happlied.imported
    rw [List.zip_nil_right] at himported
    exact Or.inl ⟨rfl, (Option.some.inj himported).symm⟩
  | true =>
    obtain rfl := hok.mp rfl
    obtain rfl : [p] = done := by rw [hsplit, List.append_nil]
    obtain ⟨b, bs, -, hnil, rfl⟩ := List.forall₂_cons_left_iff.mp happlied.held
    obtain rfl := List.forall₂_nil_left_iff.mp hnil
    obtain ⟨u, himport, hrun⟩ := run_cons_eq_some.mp happlied.imported
    obtain rfl := Option.some.inj hrun
    obtain ⟨⟨v, imported⟩, hb, hkept⟩ := Option.bind_eq_some_iff.mp himport
    cases imported with
    | false => cases hkept
    | true =>
      obtain rfl := Option.some.inj hkept
      exact Or.inr ⟨rfl, b, hb⟩

/-- The loop of `patch_db` takes one patch after the other, until one fails. -/
theorem patchLoop_cons (n : Daemon) (dir : BlocksDir) (p : Patch) (ps : List Patch) :
    n.patchLoop σ debug dir (p :: ps) =
      (n.patchLoop σ debug dir [p]).bind fun r =>
        if r.2.2 then r.1.patchLoop σ debug r.2.1 ps else some r := by
  rw [Daemon.patchLoop, Daemon.patchLoop]
  cases dir.lookup p.hash.toB58 with
  | none => rfl
  | some text =>
    dsimp only
    rw [Option.bind_assoc]
    congr 1
    funext read
    cases read with
    | none => rfl
    | some b =>
      dsimp only
      split_ifs
      · rfl
      · rw [Option.bind_assoc]
        congr 1
        funext r
        split_ifs with himported
        · rfl
        · rfl

/-- Undisturbed, the steps of the thread are those of `patch_db`. -/
theorem run_patching {ps : List Patch} {front : Ripemd160} {delivered : Bool} {t : Daemon}
    {dir : BlocksDir} (hat : s.syncd = .patching (ps.map Patch.hash) front)
    (h : s.node.patchLoop σ debug s.dir ps = some (t, dir, true)) :
    run (step σ debug) s (ps.map fun p => .syncd delivered p.picks p.drawn) =
      some { s with node := t, dir := dir, syncd := .patching [] front } := by
  induction ps generalizing s with
  | nil =>
    obtain ⟨rfl, rfl, -⟩ := by simpa [Daemon.patchLoop] using h
    rw [List.map_nil] at hat
    rw [← hat]
    rfl
  | cons p ps ih =>
    rw [patchLoop_cons] at h
    obtain ⟨⟨u, dir', ok⟩, hfirst, hrest⟩ := Option.bind_eq_some_iff.mp h
    cases ok with
    | false => simp at hrest
    | true =>
      have hnext : s.step σ debug (.syncd delivered p.picks p.drawn) =
          some { s with node := u, dir := dir', syncd := .patching (ps.map Patch.hash) front } := by
        simp only [step, syncdStep, hat, List.map_cons, hfirst, Option.map_some, if_true]
      exact run_cons_eq_some.mpr ⟨_, hnext, ih rfl hrest⟩

/-- Importing a block leaves head and tail. -/
theorem head_importDiff {n t : Daemon} {d : Diff} {picks : List Ripemd160} {drawn : ℕ}
    {imported : Bool} (h : n.importDiff σ d picks drawn = some (t, imported)) :
    t.head = n.head ∧ t.tail = n.tail := by
  unfold Daemon.importDiff at h
  split_ifs at h
  · cases h
    exact ⟨rfl, rfl⟩
  · obtain ⟨auth, -, himport⟩ := Option.map_eq_some_iff.mp h
    cases himport
    exact ⟨rfl, rfl⟩

/-- A step in which a block is imported, by nobody who is in `clear`. -/
theorem Consistent.of_import (h : s.Consistent σ) (hnot : s.inClear = false) {d : Diff}
    {picks : List Ripemd160} {drawn : ℕ}
    (himport : s.node.importDiff σ d picks drawn = some (s'.node, true))
    (hclear : s'.inClear = false)
    (hsync : s'.main = .idle → s.inSync = true → s.node.head = Ripemd160.zero) :
    s'.Consistent σ := by
  obtain ⟨hhead, htail⟩ := head_importDiff himport
  refine ⟨fun htrue => ?_, fun _ => (h.replays hnot).importDiff himport, fun hidle hin hne => ?_⟩
  · rw [hclear] at htrue
    cases htrue
  · rw [inSync, hhead, htail] at hin
    rw [hhead] at hne
    exact absurd (hsync hidle hin) hne

/-- The apps are cleared, in a node that is not in sync or about to be set. -/
theorem Consistent.of_clearApps (h : s'.node = s.node.clearApps) (hclear : s'.inClear = true)
    (hsync : s'.main = .idle → s.inSync = true → s.node.head = Ripemd160.zero) :
    s'.Consistent σ := by
  refine ⟨fun _ => ?_, fun hnot => ?_, fun hidle hin hne => ?_⟩
  · rw [h]
    exact ⟨rfl, rfl⟩
  · rw [hclear] at hnot
    cases hnot
  · rw [inSync, h] at hin
    rw [h] at hne
    exact absurd (hsync hidle hin) hne

/-- The end of `clear`: there is no last block any more. -/
theorem Consistent.of_cleared (h : s.Consistent σ) (hclear : s.inClear = true)
    (hnode : s'.node = { s.node with lastBlockImported := Ripemd160.zero })
    (hsync : s'.main = .idle → s.main = .idle) : s'.Consistent σ := by
  obtain ⟨hauth, hcash⟩ := h.blank hclear
  refine ⟨fun _ => ?_, fun _ => ?_, fun hidle hin hne => ?_⟩
  · rw [hnode]
    exact ⟨hauth, hcash⟩
  · rw [hnode]
    exact Daemon.Blank.replays ⟨hauth, hcash, rfl⟩
  · rw [inSync, hnode] at hin
    rw [hnode] at hne
    have hnot := (h.settled (hsync hidle) hin hne).2
    rw [hclear] at hnot
    cases hnot

/-- A careful step of the syncing thread keeps the daemon consistent. -/
theorem Consistent.syncdStep {delivered : Bool} {picks : List Ripemd160} {drawn : ℕ}
    (h : s.Consistent σ) (hcareful : s.Careful σ debug (.syncd delivered picks drawn))
    (hstep : s.syncdStep σ debug delivered picks drawn = some s') : s'.Consistent σ := by
  unfold Syncing.syncdStep at hstep
  dsimp only [Careful] at hcareful
  split at hstep
  next patches hat =>
    split at hstep
    · split at hstep
      · obtain rfl := Option.some.inj hstep
        exact h.of_node_eq rfl rfl (by simp [inClear, hat])
      · obtain rfl := Option.some.inj hstep
        exact h.of_node_eq rfl rfl (by simp [inClear, hat])
    · obtain rfl := Option.some.inj hstep
      exact h.of_node_eq rfl rfl (by simp [inClear, hat])
  next cu patches hat =>
    split at hstep
    · obtain rfl := Option.some.inj hstep
      exact h.of_node_eq rfl rfl (by simp [inClear, hat])
    · obtain rfl := Option.some.inj hstep
      unfold query
      split_ifs <;> exact h.of_node_eq rfl rfl (by simp [inClear, hat])
  next prev patches hat =>
    obtain rfl := Option.some.inj hstep
    exact h.of_node_eq rfl rfl (by simp [inClear, hat])
  next patches hat =>
    obtain rfl := Option.some.inj hstep
    exact h.of_tail rfl rfl rfl (by simp [inClear, hat]) fun _ _ hne => absurd rfl hne
  next front hat =>
    obtain rfl := Option.some.inj hstep
    exact h.of_node_eq rfl rfl (by simp [inClear, hat])
  next hash rest front hat =>
    rw [hat] at hcareful
    obtain ⟨⟨t, dir, ok⟩, hloop, rfl⟩ := Option.map_eq_some_iff.mp hstep
    obtain ⟨rfl, rfl⟩ | ⟨rfl, b, himport⟩ := patchLoop_singleton hloop
    · exact h.of_node_eq rfl rfl (by simp [inClear, hat])
    · obtain ⟨hnot, hsync⟩ := hcareful (by rw [hloop]; rfl)
      refine h.of_import hnot himport ?_ hsync
      rwa [inClear, hat] at hnot
  next lbi front hat =>
    rw [hat] at hcareful
    obtain rfl := Option.some.inj hstep
    refine h.of_tail rfl rfl rfl (by simp [inClear, hat]) fun hidle hin hne => ?_
    have heq : s.node.head = lbi := by simpa [inSync] using hin
    refine ⟨(hcareful hidle heq hne).symm.trans heq.symm, ?_⟩
    rw [inClear, hat, show s.main = .idle from hidle]
    rfl
  next front hat =>
    rw [hat] at hcareful
    obtain rfl := Option.some.inj hstep
    refine h.of_tail rfl rfl rfl (by simp [inClear, hat]) fun hidle hin hne => ?_
    have heq : s.node.head = front := by simpa [inSync] using hin
    refine ⟨(hcareful hidle heq hne).symm.trans heq.symm, ?_⟩
    rw [inClear, hat, show s.main = .idle from hidle]
    rfl
  next next hat =>
    rw [hat] at hcareful
    obtain rfl := Option.some.inj hstep
    exact .of_clearApps rfl rfl hcareful
  next next hat =>
    obtain rfl := Option.some.inj hstep
    exact h.of_cleared (by simp [inClear, hat]) rfl id
  next hat =>
    obtain ⟨-, hstep⟩ := Option.ite_none_right_eq_some.mp hstep
    obtain rfl := Option.some.inj hstep
    exact h.of_node_eq rfl rfl (by simp [inClear, hat])

/-- A careful step of the main thread keeps the daemon consistent. -/
theorem Consistent.mainStep (h : s.Consistent σ) (hcareful : s.Careful σ debug .main)
    (hstep : s.mainStep = some s') : s'.Consistent σ := by
  unfold Syncing.mainStep at hstep
  dsimp only [Careful] at hcareful
  split at hstep
  next hat => cases hstep
  next tip hat =>
    obtain rfl := Option.some.inj hstep
    exact .of_clearApps rfl (by simp [inClear]) fun hidle => by cases hidle
  next tip hat =>
    obtain rfl := Option.some.inj hstep
    exact h.of_cleared (by simp [inClear, hat]) rfl fun hidle => by cases hidle
  next head hat =>
    obtain rfl := Option.some.inj hstep
    exact h.of_busy rfl (fun hidle => by cases hidle) (by simp [inClear, hat])
  next head tail hat =>
    rw [hat] at hcareful
    obtain rfl := Option.some.inj hstep
    refine h.of_tail rfl rfl rfl (by simp [inClear, hat]) fun _ hin hne => ?_
    have heq : head = tail := by simpa [inSync] using hin
    obtain ⟨hlast, hnot⟩ := hcareful heq hne
    exact ⟨hlast.symm.trans heq.symm, hnot⟩

/-- Importing the block that was voted for keeps the daemon consistent. -/
theorem Consistent.eatDiff {votedTip : Ripemd160} {newDiff : Option Diff}
    {picks : List Ripemd160} {drawn : ℕ} (h : s.Consistent σ)
    (hcareful : s.Careful σ debug (.eatDiff votedTip newDiff picks drawn)) (hidle : s.main = .idle)
    (hstep : s.eatDiff σ votedTip newDiff picks drawn = some s') : s'.Consistent σ := by
  unfold Syncing.eatDiff at hstep
  dsimp only [Careful] at hcareful
  split at hstep
  next =>
    obtain rfl := Option.some.inj hstep
    exact h.of_busy rfl (fun hidle => by cases hidle) (by simp [inClear, hidle])
  next d =>
    split_ifs at hstep with hhash
    · obtain ⟨⟨t, imported⟩, himport, rfl⟩ := Option.map_eq_some_iff.mp hstep
      obtain ⟨rfl, rfl⟩ | ⟨rfl, hprev, -⟩ := Daemon.importDiff_eq_some himport
      · exact h.of_busy rfl (fun hidle => by cases hidle) (by simp [inClear, hidle])
      · have hnot := hcareful (decide_eq_true ⟨hhash.symm, hprev⟩)
        refine h.of_import hnot himport ?_ fun hidle => by cases hidle
        rwa [inClear, hidle] at hnot
    · obtain rfl := Option.some.inj hstep
      exact h.of_busy rfl (fun hidle => by cases hidle) (by simp [inClear, hidle])

/-- **What one step keeps.** -/
theorem Consistent.step {e : SyncEvent} (h : s.Consistent σ) (hcareful : s.Careful σ debug e)
    (hstep : s.step σ debug e = some s') : s'.Consistent σ := by
  cases e with
  | syncd delivered picks drawn => exact h.syncdStep hcareful hstep
  | loadHead =>
    obtain ⟨hidle, hstep⟩ := Option.ite_none_right_eq_some.mp hstep
    obtain rfl := Option.some.inj hstep
    exact h.of_busy rfl (fun hidle => by cases hidle) (by simp [inClear, hidle])
  | eatDiff votedTip newDiff picks drawn =>
    obtain ⟨hidle, hstep⟩ := Option.ite_none_right_eq_some.mp hstep
    exact h.eatDiff hcareful hidle hstep
  | main => exact h.mainStep hcareful hstep
  | files dir =>
    obtain rfl := Option.some.inj hstep
    exact h.of_node_eq rfl rfl rfl
  | inSync =>
    obtain rfl := Option.some.inj hstep
    exact h

/-- The daemon starts consistent. -/
theorem consistent_start (σ : Setting PubKey) (dir : BlocksDir) : (start σ dir).Consistent σ :=
  ⟨fun hclear => (by cases hclear), fun _ => Daemon.Blank.replays ⟨rfl, rfl, rfl⟩,
    fun _ _ hne => absurd rfl hne⟩

/-! ## In sync means imported -/

/-- Whenever a call of `in_sync` returns true with a head, this is the last block
imported, and the databases are the replay of the chain that ends in it. -/
def InSyncMeansImported (σ : Setting PubKey) (debug : Bool) (dir : BlocksDir)
    (es : List SyncEvent) : Prop :=
  ∀ before after t, es = before ++ .inSync :: after →
    run (step σ debug) (start σ dir) before = some t → t.inSync = true →
    t.node.head ≠ Ripemd160.zero → t.node.lastBlockImported = t.node.head ∧ t.node.Replays σ

/-- **In sync means imported**, in every run whose threads are careful. -/
theorem in_sync_means_imported (σ : Setting PubKey) (debug : Bool) (dir : BlocksDir)
    (es : List SyncEvent)
    (hcareful : AlongRun (step σ debug) (Careful σ debug) (start σ dir) es) :
    InSyncMeansImported σ debug dir es := by
  rintro before after t rfl hrun hin hne
  obtain ⟨hbefore, hafter⟩ := (AlongRun.append_iff hrun).mp hcareful
  have hconsistent : t.Consistent σ :=
    run_invariant (fun _ _ _ h hc hs => h.step hc hs) (consistent_start σ dir) hbefore hrun
  have hidle : t.main = .idle := hafter.1
  obtain ⟨hlast, hnot⟩ := hconsistent.settled hidle hin hne
  exact ⟨hlast, hconsistent.replays hnot⟩

/-! ## Two blocks, and a vote for the first one -/

/-- A file that names the first block as the previous one and is no block. -/
def brokenSecond : Text := (Daemon.patchOf Daemon.firstBlock).hash.toB58 ++ [' ', '-', '1']

/-- The second block is the last one of an earlier run. -/
def twoBlocksWithHead (second : Text) : BlocksDir :=
  (Daemon.twoBlocks second).writeHead (Daemon.patchOf Daemon.secondBlock).hash

/-- `load_head`, the walk back from the second block, and the import of the first. -/
def walkBack : List SyncEvent :=
  [.loadHead, .main, .main] ++ List.replicate 8 (.syncd true [] 0)

/-- The second block is imported, and the tail is set. -/
def importSecond : List SyncEvent := List.replicate 4 (.syncd true [] 0) ++ [.inSync]

/-- The first block is voted for while the second one is to be imported, which fails. -/
def voteForFirst : List SyncEvent :=
  [.eatDiff (Daemon.patchOf Daemon.firstBlock).hash none [] 0, .main, .main] ++
    List.replicate 3 (.syncd true [] 0) ++ [.inSync]

/-- Without the vote the node gets in sync with the second block, and has it. -/
theorem in_sync_means_imported_twoBlocks :
    (run (step Daemon.summingNode true) (start Daemon.summingNode
        (twoBlocksWithHead (Daemon.secondBlock.toStream noDigits))) (walkBack ++ importSecond)).map
      (fun t => (t.inSync, t.node.head)) = some (true, (Daemon.patchOf Daemon.secondBlock).hash) ∧
    InSyncMeansImported Daemon.summingNode true
      (twoBlocksWithHead (Daemon.secondBlock.toStream noDigits)) (walkBack ++ importSecond) :=
  ⟨by decide +kernel, in_sync_means_imported _ _ _ _ (by decide +kernel)⟩

/-- With the vote it is in sync with the first block, and has an empty db. -/
theorem in_sync_without_import :
    ¬ InSyncMeansImported Daemon.summingNode true (twoBlocksWithHead brokenSecond)
      (walkBack ++ voteForFirst) := by
  intro h
  have hrun : (run (step Daemon.summingNode true)
      (start Daemon.summingNode (twoBlocksWithHead brokenSecond))
      (walkBack ++ voteForFirst.dropLast)).map (fun t => (t.inSync, t.node.head,
        t.node.lastBlockImported)) =
      some (true, (Daemon.patchOf Daemon.firstBlock).hash, Ripemd160.zero) := by decide +kernel
  obtain ⟨t, ht, hresult⟩ := Option.map_eq_some_iff.mp hrun
  obtain ⟨hin, hrest⟩ := Prod.mk.inj hresult
  obtain ⟨hhead, hlast⟩ := Prod.mk.inj hrest
  have hne : t.node.head ≠ Ripemd160.zero := by
    rw [hhead]
    decide +kernel
  obtain ⟨hsame, -⟩ := h _ [] t rfl ht hin hne
  rw [hlast] at hsame
  exact hne hsame.symm

end Syncing

end AcCore.Gov.Engine
