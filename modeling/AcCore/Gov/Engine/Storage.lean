import AcCore.Gov.Engine.Evidence
import AcCore.Gov.Engine.Patches
import AcCore.Gov.Engine.Sizes
import AcCore.Gov.Socket.Reassembly

/-!
# What a node stores, and what it can send

The blocks that a node saves, or that it gets from others, are files that it sends to
whoever asks for them, and contributions are sent to the other nodes. A datagram has
a greatest size, which an assertion of its constructor relies on. This file
determines in which runs of a node the assertion holds whenever it is made.
-/

namespace AcCore.Gov.Engine

open Lib

/-- The text can be the payload of a datagram. -/
def FitsDatagram (t : Text) : Prop := Socket.headerSize + t.length < Socket.maxsize

/-- This is the assertion of `datagram(service,string)`. -/
theorem ofString_isSome_iff (service : UInt16) (t : Text) :
    (Socket.Datagram.ofString service (t.map fun c => UInt8.ofNat c.toNat)).isSome ↔
      FitsDatagram t := by
  rw [Socket.Datagram.ofString, List.length_map, FitsDatagram]
  split_ifs with h
  · exact iff_of_true rfl h
  · exact iff_of_false (by simp) h

/-- A datagram that `recvfrom` lets through. -/
structure Arrived extends Datagram where
  le_maxsize : Socket.headerSize + payload.length ≤ Socket.maxsize

/-- What the peer has sent, up to its first zero. -/
def Arrived.content (d : Arrived) : Text := d.toDatagram.parseString

/-- What arrived fits in a datagram with its header. -/
theorem Arrived.length_content_le (d : Arrived) :
    Socket.headerSize + d.content.length ≤ Socket.maxsize := by
  have hle : d.content.length ≤ d.payload.length := (List.takeWhile_sublist _).length_le
  have := d.le_maxsize
  omega

/-- A node, with the directory of its blocks. -/
structure Node where
  daemon : Daemon
  dir : BlocksDir

/-- What happens to a node. Contributions come as datagrams, and blocks are imported
from their files. -/
inductive NodeEvent (PubKey : Type) where
  | daemon (e : DaemonEvent PubKey)
  | localDeltas (d : Arrived)
  | block (d : Arrived)
  | queryBlock (d : Arrived)
  | patchDb (patches : List Patch)

/-- The events that neither bring a contribution nor import a file. -/
def DaemonEvent.isOwn {PubKey : Type} : DaemonEvent PubKey → Bool
  | .localDeltas _ => false
  | .patchDb _ _ _ => false
  | _ => true

variable {PrivKey PubKey : Type} (curve : Curve PrivKey PubKey) (ripemd : List UInt8 → Ripemd160)

namespace Daemon

/-- The block that `eat_diff` saves. -/
def saved (s : Daemon) : Option Diff :=
  let tip := s.votes.select.1
  if tip.isZero then none
  else s.newDiff.filter fun d => tip = d.hash ripemd sixFormat

/-- The contribution that `stage3` sends. -/
def contributed (programs : Cash.LockingPrograms) (k : PrivKey) (s : Daemon) :
    Option (LocalDeltas PubKey) :=
  if s.auth.isNode ∧ s.head = s.tail then
    some (s.createLocalDeltas (nodeWith curve ripemd programs k)).1
  else none

variable (debug : Bool) (limit : ℕ)

/-- The contribution that `process_incoming_local_deltas` sends on. -/
def relays (s : Daemon) (text : Text) : Option (LocalDeltas PubKey) :=
  (LocalDeltas.receive curve ripemd debug limit text).filter fun g =>
    g.verify (curve.ec ripemd) sixFormat && (s.pool.allow (curve.ec ripemd) g).2

/-- `process_incoming_local_deltas`, from its text. -/
def processLocalDeltas (programs : Cash.LockingPrograms) (k : PrivKey) (s : Daemon) (text : Text) :
    Option Daemon :=
  (LocalDeltas.fromStream (curve.ec ripemd) debug limit (some text)).bind fun _ =>
    match LocalDeltas.receive curve ripemd debug limit text with
    | none => some s
    | some g => s.processIncomingLocalDeltas (nodeWith curve ripemd programs k) g

end Daemon

namespace BlocksDir

/-- The directory after stage 2: `save`, and the head that `import` or `clear` writes. -/
def afterStage2 (dir : BlocksDir) (s t : Daemon) : BlocksDir :=
  (s.saved ripemd).elim dir fun d =>
    BlocksDir.writeHead (dir.insert (d.hash ripemd sixFormat).toB58 (d.toStream sixFormat))
      t.lastBlockImported

/-- The block that `process_block` writes, with the name of its file. -/
def written (debug : Bool) (dir : BlocksDir) (content : Text) : Option Text :=
  (Diff.fromStream debug (some content)).join.bind fun b =>
    let name := (b.hash ripemd sixFormat).toB58
    if (dir.lookup name).isSome then none else some name

/-- `process_block`; `none` when reading the block has no defined result. -/
def processBlock (debug : Bool) (dir : BlocksDir) (content : Text) : Option BlocksDir :=
  (Diff.fromStream debug (some content)).map fun _ =>
    (dir.written ripemd debug content).elim dir fun name => dir.insert name content

/-- `load_block`: nothing when there is no file. -/
def loadBlock (dir : BlocksDir) (name : Text) : Text := (dir.lookup name).getD []

/-- Every file can be the payload of a datagram. -/
def Fit (dir : BlocksDir) : Prop :=
  ∀ name content, dir.lookup name = some content → FitsDatagram content

end BlocksDir

namespace Node

/-- A node that starts with an empty db and no blocks. -/
def init (programs : Cash.LockingPrograms) (k : PrivKey) : Node :=
  ⟨Daemon.init (nodeWith curve ripemd programs k), ∅⟩

variable (programs : Cash.LockingPrograms) (k : PrivKey) (debug : Bool) (limit : ℕ)

/-- One event; `none` when it cannot happen, or has no defined result. -/
def step (s : Node) : NodeEvent PubKey → Option Node
  | .daemon e =>
    if e.isOwn then
      (s.daemon.step (nodeWith curve ripemd programs k) e).map fun t =>
        match e with
        | .stage2 _ _ => ⟨t, s.dir.afterStage2 ripemd s.daemon t⟩
        | _ => ⟨t, s.dir⟩
    else none
  | .localDeltas d =>
    (s.daemon.processLocalDeltas curve ripemd debug limit programs k d.content).map fun t =>
      ⟨t, s.dir⟩
  | .block d =>
    (s.dir.processBlock ripemd debug d.content).map fun dir => ⟨s.daemon, dir⟩
  | .queryBlock _ => some s
  | .patchDb patches =>
    (s.daemon.patchDb (nodeWith curve ripemd programs k) debug s.dir patches).map fun r =>
      ⟨r.1, r.2.1⟩

/-- The payloads for which `process_query_block` and `send` make datagrams. -/
def sends (s : Node) : NodeEvent PubKey → List Text
  | .daemon .stage3 =>
    (s.daemon.contributed curve ripemd programs k).toList.map (LocalDeltas.toStream curve)
  | .localDeltas d =>
    (s.daemon.relays curve ripemd debug limit d.content).toList.map (LocalDeltas.toStream curve)
  | .queryBlock d =>
    let content := s.dir.loadBlock d.content
    if content = [] then [] else [content]
  | _ => []

/-- In every state of the run the files can be sent, and what the events send fits. -/
def AlwaysSends (es : List (NodeEvent PubKey)) : Prop :=
  (∀ es' u, es' <+: es →
    run (step curve ripemd programs k debug limit) (init curve ripemd programs k) es' = some u →
      u.dir.Fit) ∧
  AlongRun (step curve ripemd programs k debug limit)
    (fun u e => ∀ t ∈ u.sends curve ripemd programs k debug limit e, FitsDatagram t)
    (init curve ripemd programs k) es

/-- A block that is saved does not list too much for a datagram, and one that is
written has not come in a datagram of the greatest size. -/
def BlocksInSize (s : Node) : NodeEvent PubKey → Prop
  | .daemon (.stage2 _ _) => ∀ d ∈ s.daemon.saved ripemd,
    Socket.headerSize + d.size sixFormat < Socket.maxsize
  | .block d => (s.dir.written ripemd debug d.content).isSome →
    Socket.headerSize + d.content.length ≠ Socket.maxsize
  | _ => True

/-- A contribution that is made or sent on does not list too much for a datagram. -/
def ContributionsInSize (s : Node) : NodeEvent PubKey → Prop
  | .daemon .stage3 => ∀ g ∈ s.daemon.contributed curve ripemd programs k,
    Socket.headerSize + g.size curve < Socket.maxsize
  | .localDeltas d => ∀ g ∈ s.daemon.relays curve ripemd debug limit d.content,
    Socket.headerSize + g.size curve < Socket.maxsize
  | _ => True

/-- Blocks and contributions do not list too much. -/
def InSize (s : Node) (e : NodeEvent PubKey) : Prop :=
  s.BlocksInSize ripemd debug e ∧ s.ContributionsInSize curve ripemd programs k debug limit e

/-- A block lists so few candidates, with their addresses, accounts and contributors that they
fit into a datagram at their widest. -/
structure FewInBlock (d : Diff) : Prop where
  narrow : d.Narrow sixFormat
  few : Socket.headerSize + 132 + entriesSize d.candidates d.accountCount d.contributorCount <
    Socket.maxsize

/-- A contribution lists so few candidates, with their addresses, and accounts that they fit
into a datagram at their widest, with its key and its signature. -/
structure FewInContribution (g : LocalDeltas PubKey) : Prop where
  narrow : g.Narrow
  few : Socket.headerSize + 86 + (curve.toB58 g.pubkey).length + g.signature.length +
    entriesSize g.candidates g.accountCount 0 < Socket.maxsize

/-- The entries of a block are counted. -/
instance (d : Diff) : Decidable (FewInBlock d) :=
  decidable_of_iff (_ ∧ _) ⟨fun h => ⟨h.1, h.2⟩, fun h => ⟨h.narrow, h.few⟩⟩

/-- The entries of a contribution are counted. -/
instance (g : LocalDeltas PubKey) : Decidable (FewInContribution curve g) :=
  decidable_of_iff (_ ∧ _) ⟨fun h => ⟨h.1, h.2⟩, fun h => ⟨h.narrow, h.few⟩⟩

/-- What is saved in stage 2, what is contributed in stage 3 and what is sent on has few
entries, and a block that is written has not come in a datagram of the greatest size. -/
def FewEntries (s : Node) : NodeEvent PubKey → Prop
  | .daemon (.stage2 _ _) => ∀ d ∈ s.daemon.saved ripemd, FewInBlock d
  | .daemon .stage3 => ∀ g ∈ s.daemon.contributed curve ripemd programs k,
    FewInContribution curve g
  | .localDeltas d => ∀ g ∈ s.daemon.relays curve ripemd debug limit d.content,
    FewInContribution curve g
  | .block d => (s.dir.written ripemd debug d.content).isSome →
    Socket.headerSize + d.content.length ≠ Socket.maxsize
  | _ => True

/-- The entries of what an event stores or sends are counted. -/
instance (s : Node) : ∀ e, Decidable (FewEntries curve ripemd programs k debug limit s e)
  | .daemon (.stage2 _ _) => inferInstanceAs (Decidable (∀ d ∈ _, FewInBlock d))
  | .daemon .stage3 => inferInstanceAs (Decidable (∀ g ∈ _, FewInContribution curve g))
  | .localDeltas _ => inferInstanceAs (Decidable (∀ g ∈ _, FewInContribution curve g))
  | .block _ => inferInstanceAs (Decidable (_ → _))
  | .daemon (.voteTip _) | .daemon (.localDeltas _) | .daemon (.basicAuthCompleted _ _)
  | .daemon (.process _) | .daemon (.patchDb _ _ _) | .daemon .stage1 | .daemon (.stage4 _)
  | .queryBlock _ | .patchDb _ => inferInstanceAs (Decidable True)

/-- A block lists so many candidates, with their addresses, accounts and contributors that they
do not fit into a datagram at their narrowest. -/
def ManyInBlock (d : Diff) : Prop :=
  Socket.maxsize ≤ Socket.headerSize + 25 +
    narrowestSize d.candidates d.accountCount d.contributorCount

/-- A contribution lists so many candidates, with their addresses, and accounts that they do not
fit into a datagram at their narrowest, with its key and its signature. -/
def ManyInContribution (g : LocalDeltas PubKey) : Prop :=
  Socket.maxsize ≤ Socket.headerSize + 5 + (curve.toB58 g.pubkey).length + g.signature.length +
    narrowestSize g.candidates g.accountCount 0

/-- What is saved in stage 2, contributed in stage 3 or sent on has many entries, or a block is
written that has come in a datagram of the greatest size. -/
def ManyEntries (s : Node) : NodeEvent PubKey → Prop
  | .daemon (.stage2 _ _) => ∃ d ∈ s.daemon.saved ripemd, ManyInBlock d
  | .daemon .stage3 => ∃ g ∈ s.daemon.contributed curve ripemd programs k,
    ManyInContribution curve g
  | .localDeltas d => ∃ g ∈ s.daemon.relays curve ripemd debug limit d.content,
    ManyInContribution curve g
  | .block d => (s.dir.written ripemd debug d.content).isSome ∧
    Socket.headerSize + d.content.length = Socket.maxsize
  | _ => False

end Node

/-! ## The files -/

variable {curve ripemd}

namespace BlocksDir

variable {dir : BlocksDir}

/-- A file that fits keeps the directory fit. -/
theorem Fit.insert (hdir : dir.Fit) (name : Text) {content : Text} (h : FitsDatagram content) :
    BlocksDir.Fit (dir.insert name content) := by
  intro name' content' hlookup
  by_cases hname : name' = name
  · subst hname
    rw [Finmap.lookup_insert] at hlookup
    obtain rfl := Option.some.inj hlookup
    exact h
  · rw [Finmap.lookup_insert_of_ne _ hname] at hlookup
    exact hdir name' content' hlookup

/-- Deleting a file keeps the directory fit. -/
theorem Fit.erase (hdir : dir.Fit) (name : Text) : BlocksDir.Fit (dir.erase name) := by
  intro name' content hlookup
  by_cases hname : name' = name
  · subst hname
    rw [Finmap.lookup_erase] at hlookup
    cases hlookup
  · rw [Finmap.lookup_erase_ne hname] at hlookup
    exact hdir name' content hlookup

/-- The name of a block is short. -/
theorem Fit.writeHead (hdir : dir.Fit) (h : Ripemd160) : (dir.writeHead h).Fit := by
  refine hdir.insert _ ?_
  have hlength := h.length_toB58_le
  rw [FitsDatagram, List.length_append, List.length_singleton, Socket.headerSize, Socket.maxsize]
  omega

/-- What is saved in stage 2 is what decides. -/
theorem fit_afterStage2 (hdir : dir.Fit) (s t : Daemon) :
    (dir.afterStage2 ripemd s t).Fit ↔
      ∀ d ∈ s.saved ripemd, Socket.headerSize + d.size sixFormat < Socket.maxsize := by
  unfold afterStage2
  cases hsaved : s.saved ripemd with
  | none => simpa using hdir
  | some d =>
    simp only [Option.elim_some, Option.mem_def, Option.some.injEq, forall_eq']
    rw [← d.length_toStream]
    constructor
    · intro h
      refine h (d.hash ripemd sixFormat).toB58 _ ?_
      rw [BlocksDir.writeHead, Finmap.lookup_insert_of_ne _ (toB58_ne_headFile _),
        Finmap.lookup_insert]
    · intro h
      exact (hdir.insert _ h).writeHead _

/-- A block that has arrived fits unless it came in a datagram of the greatest size. -/
theorem fit_processBlock (hdir : dir.Fit) {debug : Bool} (d : Arrived) {dir' : BlocksDir}
    (h : dir.processBlock ripemd debug d.content = some dir') :
    dir'.Fit ↔ ((dir.written ripemd debug d.content).isSome →
      Socket.headerSize + d.content.length ≠ Socket.maxsize) := by
  obtain ⟨b, -, rfl⟩ := Option.map_eq_some_iff.mp h
  have hle := d.length_content_le
  cases hwritten : dir.written ripemd debug d.content with
  | none => simpa using hdir
  | some name =>
    simp only [Option.elim_some, Option.isSome_some, forall_const]
    constructor
    · intro hfit heq
      have hlt := hfit name d.content (Finmap.lookup_insert _)
      rw [FitsDatagram, heq] at hlt
      exact lt_irrefl _ hlt
    · intro hne
      exact hdir.insert name (lt_of_le_of_ne hle hne)

end BlocksDir

/-- Patches write nothing but the head. -/
theorem Daemon.fit_patchLoop {σ : Setting PubKey} {debug : Bool} {s t : Daemon}
    {dir dir' : BlocksDir} {ps : List Patch} {ok : Bool} (hdir : dir.Fit)
    (h : s.patchLoop σ debug dir ps = some (t, dir', ok)) : dir'.Fit := by
  induction ps generalizing s dir with
  | nil =>
    cases h
    exact hdir
  | cons p ps ih =>
    have herase : (BlocksDir.Fit (dir.erase p.hash.toB58)) := hdir.erase _
    unfold patchLoop at h
    cases hfile : dir.lookup p.hash.toB58 with
    | none =>
      rw [hfile] at h
      cases h
      exact herase
    | some text =>
      simp only [hfile] at h
      obtain ⟨read, -, h⟩ := Option.bind_eq_some_iff.mp h
      cases read with
      | none =>
        cases h
        exact herase
      | some b =>
        dsimp only at h
        split_ifs at h with hhash
        · cases h
          exact herase
        · obtain ⟨⟨u, imported⟩, -, h⟩ := Option.bind_eq_some_iff.mp h
          cases imported with
          | false =>
            cases h
            exact hdir
          | true => exact ih (hdir.writeHead _) h

/-- The blocks that a patch saves fit in datagrams. -/
theorem Daemon.fit_patchDb {σ : Setting PubKey} {debug : Bool} {s : Daemon}
    {dir : BlocksDir} {ps : List Patch} {r : Daemon × BlocksDir × Bool} (hdir : dir.Fit)
    (h : s.patchDb σ debug dir ps = some r) : r.2.1.Fit := by
  obtain ⟨⟨u, dir', ok⟩, hloop, rfl⟩ := Option.map_eq_some_iff.mp h
  have hfit := fit_patchLoop hdir hloop
  cases ok with
  | true => exact hfit
  | false => exact hfit

namespace Node

variable {programs : Cash.LockingPrograms} {k : PrivKey} {debug : Bool} {limit : ℕ}

/-- What a step does to the files. -/
theorem fit_step {s s' : Node} {e : NodeEvent PubKey} (hs : s.dir.Fit)
    (h : s.step curve ripemd programs k debug limit e = some s') :
    s'.dir.Fit ↔ s.BlocksInSize ripemd debug e := by
  cases e with
  | daemon e =>
    obtain ⟨-, h⟩ := Option.ite_none_right_eq_some.mp h
    obtain ⟨t, -, rfl⟩ := Option.map_eq_some_iff.mp h
    cases e with
    | stage2 picks drawn => exact BlocksDir.fit_afterStage2 hs s.daemon t
    | _ => exact iff_of_true hs trivial
  | localDeltas d =>
    obtain ⟨t, -, rfl⟩ := Option.map_eq_some_iff.mp h
    exact iff_of_true hs trivial
  | block d =>
    obtain ⟨dir, hdir, rfl⟩ := Option.map_eq_some_iff.mp h
    exact BlocksDir.fit_processBlock hs d hdir
  | queryBlock d =>
    obtain rfl := Option.some.inj h
    exact iff_of_true hs trivial
  | patchDb patches =>
    obtain ⟨r, hr, rfl⟩ := Option.map_eq_some_iff.mp h
    exact iff_of_true (Daemon.fit_patchDb hs hr) trivial

/-- Contributions are sent as their texts. -/
theorem forall_mem_toStream (o : Option (LocalDeltas PubKey)) :
    (∀ t ∈ o.toList.map (LocalDeltas.toStream curve), FitsDatagram t) ↔
      ∀ g ∈ o, Socket.headerSize + g.size curve < Socket.maxsize := by
  cases o with
  | none => simp
  | some g => simp [FitsDatagram, g.length_toStream]

/-- What an event sends, when the files fit. -/
theorem fits_sends {s : Node} (hs : s.dir.Fit) (e : NodeEvent PubKey) :
    (∀ t ∈ s.sends curve ripemd programs k debug limit e, FitsDatagram t) ↔
      s.ContributionsInSize curve ripemd programs k debug limit e := by
  cases e with
  | daemon e =>
    cases e with
    | stage3 => exact forall_mem_toStream _
    | _ => exact iff_of_true (by simp [sends]) trivial
  | localDeltas d => exact forall_mem_toStream _
  | block d => exact iff_of_true (by simp [sends]) trivial
  | queryBlock d =>
    refine iff_of_true (fun t ht => ?_) trivial
    rw [sends] at ht
    split_ifs at ht with hempty
    · cases ht
    · obtain rfl := List.mem_singleton.mp ht
      rw [BlocksDir.loadBlock] at hempty ⊢
      cases hfile : s.dir.lookup d.content with
      | none =>
        rw [hfile] at hempty
        exact absurd rfl hempty
      | some content => exact hs d.content content hfile
  | patchDb patches => exact iff_of_true (by simp [sends]) trivial

/-- A node can send what it stores in a run, and every contribution that it makes or sends on,
if and only if the blocks and the contributions of the run do not list too much. -/
theorem alwaysSends_iff_inSize {es : List (NodeEvent PubKey)} {t : Node}
    (h : run (step curve ripemd programs k debug limit) (init curve ripemd programs k) es =
      some t) :
    AlwaysSends curve ripemd programs k debug limit es ↔
      AlongRun (step curve ripemd programs k debug limit)
        (InSize curve ripemd programs k debug limit) (init curve ripemd programs k) es := by
  have hinit : (init curve ripemd programs k).dir.Fit := by
    intro name content hlookup
    cases hlookup
  have hfiles := safe_iff_alongRun (Q := fun u : Node => u.dir.Fit)
    (D := fun u e => u.BlocksInSize ripemd debug e) (fun _ _ _ (_ : True) _ => trivial)
    (fun _ _ _ _ hs hstep => fit_step hs hstep) trivial hinit h
  have hbegin : ∀ {before e after}, es = before ++ e :: after → before <+: es := by
    rintro before e after rfl
    exact List.prefix_append _ _
  constructor
  · rintro ⟨hfit, hsends⟩
    refine (hfiles.mp hfit).and (alongRun_iff.mpr ?_)
    intro before e after u hes hu
    exact (fits_sends (hfit before u (hbegin hes) hu) e).mp
      (alongRun_iff.mp hsends before e after u hes hu)
  · intro hin
    have hfit := hfiles.mpr (hin.imp fun _ _ => And.left)
    refine ⟨hfit, alongRun_iff.mpr ?_⟩
    intro before e after u hes hu
    exact (fits_sends (hfit before u (hbegin hes) hu) e).mpr
      (alongRun_iff.mp hin before e after u hes hu).2

/-- A block with few entries fits. -/
theorem FewInBlock.inSize {d : Diff} (h : FewInBlock d) :
    Socket.headerSize + d.size sixFormat < Socket.maxsize := by
  have hfew := h.few
  have hcount : d.Countable := by
    unfold entriesSize Socket.headerSize Socket.maxsize at hfew
    constructor <;> omega
  have hsize := h.narrow.size_le hcount
  omega

/-- A contribution with few entries fits. -/
theorem FewInContribution.inSize {g : LocalDeltas PubKey} (h : FewInContribution curve g) :
    Socket.headerSize + g.size curve < Socket.maxsize := by
  have hfew := h.few
  have hcount : g.Countable := by
    unfold entriesSize Socket.headerSize Socket.maxsize at hfew
    constructor <;> omega
  have hsize : g.size curve ≤ _ := h.narrow.size_le hcount
  omega

/-- Where there are few entries, all texts fit. -/
theorem FewEntries.inSize {s : Node} {e : NodeEvent PubKey}
    (h : FewEntries curve ripemd programs k debug limit s e) :
    InSize curve ripemd programs k debug limit s e := by
  cases e with
  | daemon e =>
    cases e with
    | stage2 picks drawn => exact ⟨fun d hd => (h d hd).inSize, trivial⟩
    | stage3 => exact ⟨trivial, fun g hg => (h g hg).inSize⟩
    | _ => exact ⟨trivial, trivial⟩
  | localDeltas d => exact ⟨trivial, fun g hg => (h g hg).inSize⟩
  | block d => exact ⟨h, trivial⟩
  | queryBlock d => exact ⟨trivial, trivial⟩
  | patchDb patches => exact ⟨trivial, trivial⟩

/-- A block with many entries does not fit. -/
theorem ManyInBlock.not_inSize {d : Diff} (h : ManyInBlock d) :
    ¬ Socket.headerSize + d.size sixFormat < Socket.maxsize := by
  have hsize : _ ≤ d.size sixFormat := d.le_size
  unfold ManyInBlock at h
  omega

/-- A contribution with many entries does not fit. -/
theorem ManyInContribution.not_inSize {g : LocalDeltas PubKey}
    (h : ManyInContribution curve g) :
    ¬ Socket.headerSize + g.size curve < Socket.maxsize := by
  have hsize : _ ≤ g.size curve := g.le_size
  unfold ManyInContribution at h
  omega

/-- Where there are many entries, some text does not fit. -/
theorem ManyEntries.not_inSize {s : Node} {e : NodeEvent PubKey}
    (h : ManyEntries curve ripemd programs k debug limit s e) :
    ¬ InSize curve ripemd programs k debug limit s e := by
  rintro ⟨hblocks, hcontributions⟩
  cases e with
  | daemon e =>
    cases e with
    | stage2 picks drawn =>
      obtain ⟨d, hd, hmany⟩ := h
      exact hmany.not_inSize (hblocks d hd)
    | stage3 =>
      obtain ⟨g, hg, hmany⟩ := h
      exact hmany.not_inSize (hcontributions g hg)
    | _ => exact h
  | localDeltas d =>
    obtain ⟨g, hg, hmany⟩ := h
    exact hmany.not_inSize (hcontributions g hg)
  | block d => exact hblocks h.1 h.2
  | queryBlock d => exact h
  | patchDb patches => exact h

/-- The hasher of the run that follows. -/
abbrev oneByte : List UInt8 → Ripemd160 := Daemon.byteSum

/-- A block that puts the node into the hall. -/
def hallBlock : Diff where
  prev := Ripemd160.zero
  auth := some { Auth.Delta.create with
    policies := fun i => if i = 0 then 1 else 0
    toHall := (∅ : Table Ripemd160 Auth.Address).insert ((Curve.ofTwoKeys.ec oneByte).hash true)
      ⟨['a'], blankFree_letter⟩ }
  cash := none
  proofOfWork := ∅

/-- Its hash. -/
def hallHash : Ripemd160 := hallBlock.hash oneByte sixFormat

/-- A vote for it, by the other key. -/
def hallVote : Text :=
  let h := hallHash.toB58
  h ++ ' ' :: (Curve.ofTwoKeys.toB58 false ++
    ' ' :: Curve.ofTwoKeys.signEncode false (Sha256.ofText h))

/-- A pool with one account. -/
def paidPool : Cash.LocalDelta :=
  ⟨fun _ => 2, Finmap.singleton (Ripemd160.set 1) ⟨Ripemd160.set 1, -90⟩, 7⟩

/-- The contribution of the other key, with a candidate and the pool. -/
def otherText : Text :=
  (LocalDeltas.sign Curve.ofTwoKeys false { candidates 1 with cash := some paidPool }).toStream
    Curve.ofTwoKeys

/-- The pools as they are listed when the block is formed: the one of the contribution, and the
one of a node that has no transactions. -/
def bothPools : Cash.Delta.Listing :=
  let read :=
    (LocalDeltas.receive Curve.ofTwoKeys oneByte false (2 ^ 31) otherText).bind LocalDeltas.cash
  [read.getD paidPool,
    (init Curve.ofTwoKeys oneByte Cash.noPrograms true).daemon.cash.createLocalDelta.1].map
      fun pool => ⟨pool.key oneByte, pool, 1⟩

/-- The text, in a datagram. -/
def arrived (t : Text) (h : Socket.headerSize + t.length ≤ Socket.maxsize) : Arrived :=
  ⟨⟨0, t⟩, h⟩

/-- The block with a hall fits in a datagram. -/
theorem length_hallBlock :
    Socket.headerSize + (hallBlock.toStream sixFormat).length ≤ Socket.maxsize := by
  decide +kernel

/-- The other text fits in a datagram. -/
theorem length_otherText : Socket.headerSize + otherText.length ≤ Socket.maxsize := by
  decide +kernel

/-- The name of the saved block fits in a datagram. -/
theorem length_savedName :
    Socket.headerSize + "1111111111111111u7LAT".toList.length ≤ Socket.maxsize := by
  decide +kernel

/-- A peer asks for the block that the node saves. -/
def asked : NodeEvent Bool := .queryBlock (arrived _ length_savedName)

/-- The node imports the block and becomes a node. It sends on the contribution of the other
key, makes its own, forms a block, saves it and is asked for it. -/
def savedBlock : List (NodeEvent Bool) :=
  [.block (arrived _ length_hallBlock),
    .patchDb [⟨hallHash, [(Curve.ofTwoKeys.ec oneByte).hash true], 0⟩], .daemon .stage1,
    .daemon (.voteTip hallVote), .daemon (.stage2 [] 0), .localDeltas (arrived _ length_otherText),
    .daemon .stage3, .daemon (.stage4 bothPools), .daemon .stage1,
    .daemon (.stage2 [Ripemd160.set 9] 0), asked]

/-- The events with which a node that follows this run sends one text. -/
def sendsOne : NodeEvent Bool → Bool
  | .daemon .stage3 | .localDeltas _ | .queryBlock _ => true
  | _ => false

/-- A node with no locking programs, before anything is stored. -/
abbrev plainNode : Node :=
  init Curve.ofTwoKeys (fun _ => Ripemd160.zero) Cash.noPrograms true

/-- Its steps. -/
abbrev plainStep : Node → NodeEvent Bool → Option Node :=
  step Curve.ofTwoKeys (fun _ => Ripemd160.zero) Cash.noPrograms true false 0

/-- The words of an empty block, and one more that nothing reads. -/
def paddedWords (n : ℕ) : List Text :=
  [Ripemd160.zero.toB58, natText 0, natText 0, List.replicate n 'x']

/-- A text padded with further words is read as the empty diff. -/
theorem fromStream_padded (n : ℕ) :
    Diff.fromStream false (some (unwords (paddedWords n))) = some (some Diff.create) := by
  obtain ⟨s₁, hprev, hs₁⟩ := Cash.reads_extractHash Ripemd160.zero _ _
    (gives_unwords (paddedWords n))
  obtain ⟨s₂, happs, hs₂⟩ := Gives.extractInt hs₁ (by norm_num) none
  obtain ⟨s₃, hworks, -⟩ := Gives.extractInt hs₂ (by norm_num) (some 0)
  simp only [Nat.cast_zero] at happs hworks
  rw [Diff.fromStream, hprev]
  simp [happs, hworks, readSections, extractMany, emplaced, Diff.create]

/-- The length of the padded text. -/
theorem length_padded (n : ℕ) : (unwords (paddedWords n)).length = n + 26 := by
  have hhash : Ripemd160.zero.toB58.length = 20 := by decide +kernel
  have hzero : (natText 0).length = 1 := by decide
  simp only [length_unwords, paddedWords, List.map_cons, List.map_nil, List.sum_cons,
    List.sum_nil, List.length_replicate, hhash, hzero]
  omega

/-- The padded text fills a datagram. -/
theorem length_padded_le {n : ℕ} (hn : n + 32 = Socket.maxsize) :
    Socket.headerSize + (unwords (paddedWords n)).length ≤ Socket.maxsize := by
  rw [length_padded, Socket.headerSize]
  omega

/-- An empty block, and more until the datagram has the greatest size. -/
def paddedBlock (n : ℕ) (hn : n + 32 = Socket.maxsize) : Arrived where
  service := 0
  payload := unwords (paddedWords n)
  le_maxsize := length_padded_le hn

/-- The content of the padded block. -/
theorem content_paddedBlock (n : ℕ) (hn : n + 32 = Socket.maxsize) :
    (paddedBlock n hn).content = unwords (paddedWords n) := by
  have hhash : (Ripemd160.zero.toB58.all (· != '\x00')) = true := by decide +kernel
  have hzero : ((natText 0).all (· != '\x00')) = true := by decide
  have hpad : ((List.replicate n 'x').all (· != '\x00')) = true := by simp
  rw [Arrived.content, Datagram.parseString, paddedBlock, List.takeWhile_eq_self_iff]
  intro c hc
  obtain ⟨w, hw, hc⟩ := List.mem_flatMap.mp hc
  simp only [paddedWords, List.mem_cons, List.not_mem_nil, or_false] at hw
  rcases List.mem_append.mp hc with hc | hc
  · rcases hw with rfl | rfl | rfl | rfl
    · exact List.all_eq_true.mp hhash c hc
    · exact List.all_eq_true.mp hzero c hc
    · exact List.all_eq_true.mp hzero c hc
    · exact List.all_eq_true.mp hpad c hc
  · rw [List.mem_singleton.mp hc]
    decide

end Node

end AcCore.Gov.Engine
