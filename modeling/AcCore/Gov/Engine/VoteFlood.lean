import AcCore.Gov.Cash.Overdraft
import AcCore.Gov.Engine.PoolFlood
import AcCore.Gov.Engine.Relay

/-!
# Votes in the network

In stage 1 every node votes for the diff that it has formed, and sends its vote to
everybody it is connected to; nodes relay the votes that are new to them. This file
determines what is in the vote tables when all votes have arrived, and which tip stage 2
selects.
-/

namespace AcCore.Gov.Engine

open Lib

variable {PrivKey PubKey : Type} (curve : Curve PrivKey PubKey)
  (ripemd : List UInt8 → Ripemd160) (programs : Cash.LockingPrograms)

/-- The text that `vote_tip` sends. -/
def voteTipText (k : PrivKey) (h : Ripemd160) : Text :=
  h.toB58 ++ ' ' :: (curve.toB58 (curve.pubkeyCreate k) ++ ' ' ::
    curve.signEncode k (Sha256.ofText h.toB58))

namespace Daemon

/-- `process_vote_tip`, and whether the vote is relayed: not by a node that is none of the
nodes. -/
def receiveVote (s : Daemon) (text : Text) : Daemon × Bool :=
  ({ s with votes := (processVoteTip (curve.ec ripemd) s.votes text).1 },
    (processVoteTip (curve.ec ripemd) s.votes text).2 && s.auth.myStage = .node)

/-- The texts that are sent in stage 1. -/
def stage1Texts (k : PrivKey) (s : Daemon) : List Text :=
  match s.newDiff with
  | none => []
  | some d =>
    if s.auth.myStage ≠ .node then [] else [voteTipText curve k (d.hash ripemd sixFormat)]

/-- An event at a node, and the votes that it sends. -/
def actVoting (k : PrivKey) (s : Daemon) (e : DaemonEvent PubKey) : Option (Daemon × List Text) :=
  (s.step (nodeWith curve ripemd programs k) e).map fun s' =>
    match e with
    | .stage1 => (s', s.stage1Texts curve ripemd k)
    | _ => (s', [])

end Daemon

/-- The votes of all nodes, which have these keys. -/
def voteFlood {V : Type*} (priv : V → PrivKey) (getPeople : V → List V) :
    Flood V Daemon Text (DaemonEvent PubKey) where
  neighbours := getPeople
  receive _ s text := Flood.asItCame (s.receiveVote curve ripemd text) text
  act v s e := s.actVoting curve ripemd programs (priv v) e

/-- What may happen while votes come in, other than that a vote arrives: stage 1, and what
touches neither the votes nor the chain. -/
def Voting : DaemonEvent PubKey → Prop
  | .stage1 | .process _ | .localDeltas _ | .basicAuthCompleted _ _ => True
  | _ => False

/-! ## One node -/

variable {curve ripemd programs}

/-- The text of a vote is read as the vote. -/
theorem ballot_voteTipText (hcurve : curve.Lawful) (k : PrivKey) (h : Ripemd160) :
    ballot (curve.ec ripemd) (voteTipText curve k h) =
      some ((curve.ec ripemd).hash (curve.pubkeyCreate k), h) := by
  have hparse : VoteTip.parse (curve.ec ripemd) (voteTipText curve k h) =
      some ⟨h.toB58, curve.pubkeyCreate k, curve.signEncode k (Sha256.ofText h.toB58)⟩ := by
    have hset : (curve.ec ripemd).setB58 (curve.toB58 (curve.pubkeyCreate k)) =
        some (curve.pubkeyCreate k) := hcurve.setB58_toB58 _
    simp only [VoteTip.parse, voteTipText, readWord_append h.isWord_toB58, readWord_blank,
      readWord_append (hcurve.isWord_toB58 _), hset,
      readWord_last (hcurve.isWord_signEncode k _), Option.bind_eq_bind, Option.bind_some,
      Option.pure_def]
  have hverify : (curve.ec ripemd).verify (curve.pubkeyCreate k) h.toB58
      (curve.signEncode k (Sha256.ofText h.toB58)) = true := hcurve.verify_signEncode k _
  rw [ballot, hparse]
  simp only [hverify, if_true, Ripemd160.fromB58_toB58]

/-- After a vote its node is in the table. -/
theorem mem_add (votes : Votes) (h v k : Ripemd160) :
    k ∈ (votes.add h v).1 ↔ k ∈ votes ∨ h = k := by
  rw [← Finmap.lookup_isSome, Votes.lookup_add, ← Finmap.lookup_isSome]
  by_cases hk : k = h
  · subst hk
    simp
  · rw [if_neg hk]
    simp [Ne.symm hk]

/-- Votes come from those that cast them, each of whom casts one. -/
def CastBy {V : Type*} (casts : V → Option (Ripemd160 × Ripemd160)) (votes : Votes) : Prop :=
  ∀ k h, votes.lookup k = some h → ∃ u, casts u = some (k, h)

/-- The table has cast votes only, also after one more. -/
theorem CastBy.add {V : Type*} {casts : V → Option (Ripemd160 × Ripemd160)} {votes : Votes}
    (hvotes : CastBy casts votes) {u : V} {h v : Ripemd160} (hu : casts u = some (h, v)) :
    CastBy casts (votes.add h v).1 := by
  intro k h' hlookup
  rw [Votes.lookup_add] at hlookup
  split_ifs at hlookup with hk
  · subst hk
    cases hold : votes.lookup k with
    | none =>
      rw [hold] at hlookup
      cases hlookup
      exact ⟨u, hu⟩
    | some v' =>
      rw [hold] at hlookup
      cases hlookup
      exact hvotes k v' hold
  · exact hvotes k h' hlookup

/-- A vote is taken when its node has none in the table. -/
theorem add_snd (votes : Votes) (h v : Ripemd160) :
    (votes.add h v).2 = true ↔ h ∉ votes := by
  rw [Votes.add, ← Finmap.lookup_eq_none]
  cases votes.lookup h <;> simp

/-- The key that a node with this diff votes with, and the hash. -/
def castOf (curve : Curve PrivKey PubKey) (ripemd : List UInt8 → Ripemd160) (k : PrivKey)
    (newDiff : Option Diff) : Option (Ripemd160 × Ripemd160) :=
  newDiff.map fun d => ((curve.ec ripemd).hash (curve.pubkeyCreate k), d.hash ripemd sixFormat)

/-- A challenge that is answered leaves the own stage. -/
theorem myStage_basicAuthCompleted (a : Auth.App) (key : Ripemd160) (address : Auth.Address) :
    (a.basicAuthCompleted key address).1.myStage = a.myStage := by
  unfold Auth.App.basicAuthCompleted
  split
  · rfl
  · split <;> rfl

/-- What a node does while votes come in: it votes, or leaves alone what votes depend on. -/
theorem actVoting_cases {k : PrivKey} {s : Daemon} {e : DaemonEvent PubKey}
    {r : Daemon × List Text} (he : Voting e) (hr : s.actVoting curve ripemd programs k e = some r) :
    r.1.newDiff = s.newDiff ∧ r.1.lastBlockImported = s.lastBlockImported ∧
      r.1.auth.myStage = s.auth.myStage ∧
      ((e = .stage1 ∧ r.1.votes = (s.stage1 (nodeWith curve ripemd programs k)).votes ∧
          r.2 = s.stage1Texts curve ripemd k) ∨
        (e ≠ .stage1 ∧ r.1.votes = s.votes ∧ r.2 = [])) := by
  obtain ⟨s', hs', hr⟩ := Option.map_eq_some_iff.mp hr
  cases e with
  | stage1 =>
    cases hr
    obtain ⟨-, hs'⟩ := Option.ite_none_right_eq_some.mp hs'
    obtain ⟨votes, hvotes⟩ := Daemon.stage1_frame (σ := nodeWith curve ripemd programs k) s
    rw [hvotes] at hs'
    cases hs'
    exact ⟨rfl, rfl, rfl, Or.inl ⟨rfl, by rw [hvotes], rfl⟩⟩
  | process t =>
    cases hr
    cases hs'
    exact ⟨rfl, rfl, rfl, Or.inr ⟨by simp, rfl, rfl⟩⟩
  | localDeltas g =>
    cases hr
    obtain ⟨pool, rfl⟩ := Daemon.processIncomingLocalDeltas_frame hs'
    exact ⟨rfl, rfl, rfl, Or.inr ⟨by simp, rfl, rfl⟩⟩
  | basicAuthCompleted key address =>
    cases hr
    cases hs'
    exact ⟨rfl, rfl, myStage_basicAuthCompleted _ _ _, Or.inr ⟨by simp, rfl, rfl⟩⟩
  | voteTip t => exact he.elim
  | patchDb d picks drawn => exact he.elim
  | stage2 picks drawn => exact he.elim
  | stage3 => exact he.elim
  | stage4 entries => exact he.elim

/-- A node among the nodes, with the diff and the last block of this one, whose table has
votes that were cast. -/
structure Daemon.CountsCasts {V : Type*} (casts : V → Option (Ripemd160 × Ripemd160))
    (s₀ s : Daemon) : Prop where
  stage : s.auth.myStage = .node
  newDiff : s.newDiff = s₀.newDiff
  lastBlockImported : s.lastBlockImported = s₀.lastBlockImported
  votes : CastBy casts s.votes

/-! ## All nodes -/

variable {V : Type*} {priv : V → PrivKey} {getPeople : V → List V} {start : V → Daemon}

variable (curve ripemd priv start) in
/-- What the nodes vote. -/
def castsOf (v : V) : Option (Ripemd160 × Ripemd160) :=
  castOf curve ripemd (priv v) (start v).newDiff

variable (curve ripemd priv start) in
/-- A vote that a node casts. -/
def IsCast (text : Text) : Prop :=
  ∃ v d, (start v).newDiff = some d ∧ text = voteTipText curve (priv v) (d.hash ripemd sixFormat)

variable (curve ripemd) in
/-- The key of a vote. -/
def voteKey (text : Text) : Option Ripemd160 := (ballot (curve.ec ripemd) text).map Prod.fst

/-- The text of a cast vote reads as its ballot. -/
theorem IsCast.ballot {text : Text} (hcurve : curve.Lawful)
    (h : IsCast curve ripemd priv start text) :
    ∃ v b, castsOf curve ripemd priv start v = some b ∧
      ballot (curve.ec ripemd) text = some b := by
  obtain ⟨v, d, hd, rfl⟩ := h
  refine ⟨v, _, ?_, ballot_voteTipText hcurve (priv v) _⟩
  rw [castsOf, castOf, hd]
  rfl

/-- What happens to the votes is flooding. -/
theorem marks_voteFlood (hcurve : curve.Lawful) :
    Flood.Marks (voteFlood curve ripemd programs priv getPeople) (fun _ => Voting)
      (fun v => Daemon.CountsCasts (castsOf curve ripemd priv start) (start v))
      (IsCast curve ripemd priv start) (voteKey curve ripemd) (fun s k => k ∈ s.votes) where
  act {v s e r} hC hs hr := by
    obtain ⟨hdiff, hlast, hstage, hcases⟩ := actVoting_cases hC hr
    have hkeeps : CastBy (castsOf curve ripemd priv start) r.1.votes →
        Daemon.CountsCasts (castsOf curve ripemd priv start) (start v) r.1 := fun hvotes =>
      ⟨hstage.trans hs.stage, hdiff.trans hs.newDiff, hlast.trans hs.lastBlockImported, hvotes⟩
    rcases hcases with ⟨-, hvotes, hout⟩ | ⟨-, hvotes, hout⟩
    · have hmember : ¬ s.auth.myStage ≠ .node := not_not.mpr hs.stage
      cases hnew : (start v).newDiff with
      | none =>
        -- without a diff nothing is done
        have hnone : s.newDiff = none := hs.newDiff.trans hnew
        simp only [Daemon.stage1, Daemon.stage1Texts, hnone] at hvotes hout
        exact ⟨hkeeps (hvotes ▸ hs.votes), by simp [hout], fun k => by simp [hvotes, hout]⟩
      | some d =>
        have hsome : s.newDiff = some d := hs.newDiff.trans hnew
        simp only [Daemon.stage1, Daemon.stage1Texts, hsome, if_neg hmember] at hvotes hout
        have hcast : castsOf curve ripemd priv start v =
            some ((curve.ec ripemd).hash (curve.pubkeyCreate (priv v)),
              d.hash ripemd sixFormat) := by
          rw [castsOf, castOf, hnew]
          rfl
        refine ⟨hkeeps (hvotes ▸ hs.votes.add hcast), ?_, fun k => ?_⟩
        · rw [hout]
          intro m hm
          exact ⟨v, d, hnew, List.mem_singleton.mp hm⟩
        · rw [hvotes, hout]
          simp only [List.mem_singleton, exists_eq_left, voteKey, ballot_voteTipText hcurve,
            Option.map_some, Option.some.injEq]
          exact mem_add ..
    · exact ⟨hkeeps (hvotes ▸ hs.votes), by simp [hout], fun k => by simp [hvotes, hout]⟩
  receive {v s m} hs hm := by
    obtain ⟨u, b, hcast, hballot⟩ := hm.ballot hcurve
    have hreceive : (s.receiveVote curve ripemd m).1 =
        { s with votes := (s.votes.add b.1 b.2).1 } := by
      rw [Daemon.receiveVote, processVoteTip, hballot]
    change Daemon.CountsCasts _ _ (s.receiveVote curve ripemd m).1 ∧
      ∀ k, k ∈ (s.receiveVote curve ripemd m).1.votes ↔ _
    rw [hreceive]
    refine ⟨⟨hs.stage, hs.newDiff, hs.lastBlockImported, hs.votes.add hcast⟩, fun k => ?_⟩
    rw [mem_add, voteKey, hballot, Option.map_some, Option.some.injEq]
  relayed {v s m m'} hs hm hrelays := by
    rw [(Flood.mem_asItCame.mp hrelays).2]
    exact ⟨hm, rfl⟩
  dropped {v s m k} hs hm hdropped hk := by
    obtain ⟨u, b, hcast, hballot⟩ := hm.ballot hcurve
    rw [voteKey, hballot, Option.map_some, Option.some.injEq] at hk
    replace hdropped := Flood.asItCame_eq_none.mp hdropped
    change ((processVoteTip (curve.ec ripemd) s.votes m).2 && decide (s.auth.myStage = .node)) =
      false at hdropped
    rw [processVoteTip, hballot, hs.stage, decide_eq_true rfl, Bool.and_true] at hdropped
    by_contra hnew
    have hadded := (add_snd s.votes b.1 b.2).mpr (hk ▸ hnew)
    exact absurd (hadded.symm.trans hdropped) (by decide)

/-- Where all votes are for one hash, it is selected. -/
theorem winner_of_forall {votes : Votes} {h : Ripemd160} (hsome : ∃ k, k ∈ votes)
    (hall : ∀ k h', votes.lookup k = some h' → h' = h) : votes.winner = h := by
  obtain ⟨entries, hentries⟩ := Quot.exists_rep votes.entries
  have hne : entries.map Sigma.snd ≠ [] := by
    intro hnil
    obtain rfl : entries = [] := List.map_eq_nil_iff.mp hnil
    obtain ⟨k, hk⟩ := hsome
    have hempty : votes = ∅ := Finmap.ext hentries.symm
    rw [hempty] at hk
    exact Finmap.notMem_empty hk
  obtain ⟨a, ha, hmem, -⟩ := lastMost_tally hne
  obtain ⟨e, he, rfl⟩ := List.mem_map.mp hmem
  have hentry : e ∈ votes.entries := hentries ▸ he
  rw [Votes.winner_eq_selectFrom hentries, selectFrom, ha, Option.getD_some]
  exact hall e.1 e.2 (Finmap.lookup_eq_some_iff.mpr hentry)

variable (curve ripemd programs priv getPeople) in
/-- The votes of a run that starts before stage 1. -/
theorem spreads_voteFlood (hstart : ∀ v, (start v).votes = ∅ ∧ (start v).auth.myStage = .node) :
    Flood.Spreads (voteFlood curve ripemd programs priv getPeople)
      (fun v => Daemon.CountsCasts (castsOf curve ripemd priv start) (start v))
      (IsCast curve ripemd priv start) (voteKey curve ripemd) (fun s k => k ∈ s.votes)
      ⟨start, []⟩ := by
  refine .start (fun v => ⟨(hstart v).2, rfl, rfl, fun k h hlookup => ?_⟩) fun v k hk => ?_
  · rw [(hstart v).1] at hlookup
    cases hlookup
  · rw [(hstart v).1] at hk
    exact Finmap.notMem_empty hk

variable [DecidableEq V]

/-- A run of nodes before stage 1 in which they all go through it, and nothing else happens
to the votes and the chain, and after which all votes have arrived. -/
structure VotesFlooded (curve : Curve PrivKey PubKey) (ripemd : List UInt8 → Ripemd160)
    (programs : Cash.LockingPrograms) (priv : V → PrivKey) (getPeople : V → List V)
    (start : V → Daemon) (es : List (NetworkEvent V (DaemonEvent PubKey)))
    (t : Network V Daemon Text) : Prop where
  fresh : ∀ v, (start v).votes = ∅ ∧ (start v).auth.myStage = .node
  acts : Flood.Acts (fun _ => Voting) es
  stage1 : ∀ v, .act v .stage1 ∈ es
  run : run (voteFlood curve ripemd programs priv getPeople).step ⟨start, []⟩ es = some t
  rest : t.packets = []

variable {es : List (NetworkEvent V (DaemonEvent PubKey))} {t : Network V Daemon Text}

namespace VotesFlooded

/-- When all votes have arrived, every table has the votes of all nodes. -/
theorem lookup_votes (h : VotesFlooded curve ripemd programs priv getPeople start es t)
    (hcurve : curve.Lawful)
    (hkeys : Function.Injective fun v => (curve.ec ripemd).hash (curve.pubkeyCreate (priv v)))
    (hconnected : ∀ v w, Relation.ReflTransGen (fun v w => w ∈ getPeople v) v w) (v : V)
    (k b : Ripemd160) :
    (t.nodes v).votes.lookup k = some b ↔ ∃ u, castsOf curve ripemd priv start u = some (k, b) := by
  have hspreads := spreads_voteFlood curve ripemd programs priv getPeople h.fresh
  have hend := hspreads.run (marks_voteFlood hcurve) h.acts h.run
  constructor
  · exact (hend.inv v).votes k b
  · rintro ⟨u, hu⟩
    obtain ⟨d, hd, hcast⟩ := Option.map_eq_some_iff.mp hu
    obtain ⟨rfl, rfl⟩ := Prod.mk.inj hcast
    -- the node has its own vote after stage 1
    have hown : (curve.ec ripemd).hash (curve.pubkeyCreate (priv u)) ∈ (t.nodes u).votes := by
      refine hspreads.has_of_act (marks_voteFlood hcurve) h.acts h.run (h.stage1 u)
        fun s r hs hr => ?_
      have hvote : Voting (.stage1 : DaemonEvent PubKey) := trivial
      obtain ⟨-, -, -, ⟨-, hvotes, -⟩ | ⟨hne, -, -⟩⟩ := actVoting_cases hvote hr
      · have hmember : ¬ s.auth.myStage ≠ .node := not_not.mpr hs.stage
        simp only [Daemon.stage1, hs.newDiff, hd, if_neg hmember] at hvotes
        rw [hvotes]
        exact (mem_add ..).mpr (Or.inr rfl)
      · exact absurd rfl hne
    obtain ⟨b, hlookup⟩ :=
      Finmap.mem_iff.mp (hend.has_of_rest h.rest (hconnected u v) hown)
    -- and nobody else votes with its key
    obtain ⟨w, hw⟩ := (hend.inv v).votes _ _ hlookup
    obtain ⟨d', hd', hcast⟩ := Option.map_eq_some_iff.mp hw
    obtain ⟨hkey, rfl⟩ := Prod.mk.inj hcast
    obtain rfl : w = u := hkeys hkey
    rw [hlookup, Option.some.inj (hd'.symm.trans hd)]

/-- Where all diffs that were formed have one hash, it is selected. -/
theorem select_eq (h : VotesFlooded curve ripemd programs priv getPeople start es t)
    (hcurve : curve.Lawful)
    (hkeys : Function.Injective fun v => (curve.ec ripemd).hash (curve.pubkeyCreate (priv v)))
    (hconnected : ∀ v w, Relation.ReflTransGen (fun v w => w ∈ getPeople v) v w)
    {tip : Ripemd160} (hsome : ∃ u, (start u).newDiff.isSome = true)
    (hall : ∀ u d, (start u).newDiff = some d → d.hash ripemd sixFormat = tip) (v : V) :
    (t.nodes v).votes.select.1 = tip := by
  have hlookup := h.lookup_votes hcurve hkeys hconnected v
  obtain ⟨u, hu⟩ := hsome
  obtain ⟨d, hd⟩ := Option.isSome_iff_exists.mp hu
  have hcast : castsOf curve ripemd priv start u = some
      ((curve.ec ripemd).hash (curve.pubkeyCreate (priv u)), d.hash ripemd sixFormat) := by
    rw [castsOf, castOf, hd]
    rfl
  refine winner_of_forall ⟨_, Finmap.mem_of_lookup_eq_some ((hlookup _ _).mpr ⟨u, hcast⟩)⟩ ?_
  intro k b hk
  obtain ⟨w, hw⟩ := (hlookup k b).mp hk
  obtain ⟨d', hd', hcast'⟩ := Option.map_eq_some_iff.mp hw
  exact (Prod.mk.inj hcast').2 ▸ hall w d' hd'

end VotesFlooded

/-- **Agreement of the tips.** The nodes have different keys, and the connections lead from
everyone to everyone. When all nodes have been through stage 1, and all votes have arrived,
stage 2 selects the same tip everywhere; and where all diffs that were formed have one
hash, it is this. What else the nodes do meanwhile, and the order in which votes arrive, do
not matter. -/
theorem tips_agree (curve : Curve PrivKey PubKey) (hcurve : curve.Lawful)
    (ripemd : List UInt8 → Ripemd160) (programs : Cash.LockingPrograms) (priv : V → PrivKey)
    (hkeys : Function.Injective fun v => (curve.ec ripemd).hash (curve.pubkeyCreate (priv v)))
    (getPeople : V → List V)
    (hconnected : ∀ v w, Relation.ReflTransGen (fun v w => w ∈ getPeople v) v w)
    (h : VotesFlooded curve ripemd programs priv getPeople start es t) :
    (∀ v w, (t.nodes v).votes.select = (t.nodes w).votes.select) ∧
      ∀ tip, (∃ u, (start u).newDiff.isSome = true) →
        (∀ u d, (start u).newDiff = some d → d.hash ripemd sixFormat = tip) →
          ∀ v, (t.nodes v).votes.select.1 = tip := by
  refine ⟨fun v w => ?_, fun tip => h.select_eq hcurve hkeys hconnected⟩
  have htable : (t.nodes v).votes = (t.nodes w).votes := by
    apply Finmap.ext_lookup
    intro k
    ext b
    rw [h.lookup_votes hcurve hkeys hconnected, h.lookup_votes hcurve hkeys hconnected]
  rw [htable]

/-! ## Two nodes -/

/-- A node among the nodes, with this cash app, that has formed this diff. -/
def memberWith (cash : Cash.App) (k : Bool) (d : Diff) : Daemon :=
  { Daemon.init (nodeWith ofTwoBytes Curve.firstByte Cash.noPrograms k) with
    auth := { Auth.App.create (Curve.firstByte (Curve.keyBytes k)) with
      db := ⟨(∅ : Table Ripemd160 Auth.Address).insert (Curve.firstByte (Curve.keyBytes k))
        ⟨[], blankFree_nil⟩, ∅⟩ }
    cash := cash
    newDiff := some d }

/-- Both nodes vote, and both votes arrive. -/
def votesOfTwo : List (NetworkEvent Bool (DaemonEvent Bool)) :=
  [.act false .stage1, .act true .stage1, .deliver 0, .deliver 0]

/-- The run of these events, when the nodes have formed these diffs. -/
def tableOfTwo (cash : Cash.App) (d : Bool → Diff) : Option (Network Bool Daemon Text) :=
  run (voteFlood ofTwoBytes Curve.firstByte Cash.noPrograms id fun v => [!v]).step
    ⟨fun v => memberWith cash v (d v), []⟩ votesOfTwo

/-- The sample members begin as nodes without votes. -/
theorem fresh_memberWith (cash : Cash.App) (d : Bool → Diff) (v : Bool) :
    (memberWith cash v (d v)).votes = ∅ ∧ (memberWith cash v (d v)).auth.myStage = .node := by
  refine ⟨rfl, ?_⟩
  cases v <;> rfl

/-- In the sample run the members only vote. -/
theorem voting_votesOfTwo : Flood.Acts (fun _ => Voting) votesOfTwo := by
  intro v e he
  simp only [votesOfTwo, List.mem_cons, NetworkEvent.act.injEq, reduceCtorEq, List.not_mem_nil,
    or_false] at he
  rcases he with ⟨-, rfl⟩ | ⟨-, rfl⟩ <;> trivial

/-- The votes of nodes that have formed these diffs, one of which is empty. -/
theorem votesFlooded_two {cash : Cash.App} {d : Bool → Diff} {t : Network Bool Daemon Text}
    (ht : tableOfTwo cash d = some t) (hrest : t.packets = []) :
    VotesFlooded ofTwoBytes Curve.firstByte Cash.noPrograms id (fun v => [!v])
      (fun v => memberWith cash v (d v)) votesOfTwo t where
  fresh := fresh_memberWith cash d
  acts := voting_votesOfTwo
  stage1 v := by cases v <;> simp [votesOfTwo]
  run := ht
  rest := hrest

/-- Two nodes that have formed different diffs select one tip. -/
theorem tips_agree_two :
    ∃ t, tableOfTwo Cash.App.create
        (fun v => { Diff.create with prev := Ripemd160.set (if v then 1 else 2) }) = some t ∧
      ∀ v w, (t.nodes v).votes.select = (t.nodes w).votes.select := by
  have hrun : (tableOfTwo Cash.App.create fun v =>
      { Diff.create with prev := Ripemd160.set (if v then 1 else 2) }).any
        (fun t => t.packets.isEmpty) = true := by
    decide +kernel
  obtain ⟨t, ht, hrest⟩ := (Option.any_eq_true _ _).mp hrun
  refine ⟨t, ht, ?_⟩
  exact (tips_agree ofTwoBytes lawful_ofTwoBytes Curve.firstByte Cash.noPrograms id
    injective_ofTwoBytes (fun v => [!v]) connected_two
    (votesFlooded_two ht (List.isEmpty_iff.mp hrest))).1

/-- Stage 2 imports the diff that the node has formed, when this is voted for and follows
the last block. -/
theorem stage2_imports {σ : Setting PubKey} {s s' : Daemon} {d : Diff} {picks : List Ripemd160}
    {drawn : ℕ} (hd : s.newDiff = some d) (hprev : d.prev = s.lastBlockImported)
    (htip : s.votes.select.1 = d.hash σ.ripemd σ.fmt)
    (hzero : (d.hash σ.ripemd σ.fmt).isZero = false) (hs' : s.stage2 σ picks drawn = some s') :
    (s'.lastBlockImported = d.hash σ.ripemd σ.fmt ∧ s'.head = d.hash σ.ripemd σ.fmt ∧
      s'.tail = d.hash σ.ripemd σ.fmt) ∧
      s'.cash = d.cash.elim s.cash fun c =>
        s.cash.importDelta Cash.wrapInt64 c d.proofOfWork drawn := by
  unfold Daemon.stage2 at hs'
  simp only [htip, hzero, Bool.false_eq_true, if_false, Daemon.eatDiff, hd, if_true,
    Daemon.importOrClear, Daemon.importDiff, hprev, ne_eq, not_true_eq_false,
    Option.map_map] at hs'
  obtain ⟨auth, -, rfl⟩ := Option.map_eq_some_iff.mp hs'
  exact ⟨⟨rfl, rfl, rfl⟩, rfl⟩

/-- Where all nodes have formed diffs of one hash after the same block, every node imports
its own. -/
theorem VotesFlooded.imports (h : VotesFlooded curve ripemd programs priv getPeople start es t)
    (hcurve : curve.Lawful)
    (hkeys : Function.Injective fun v => (curve.ec ripemd).hash (curve.pubkeyCreate (priv v)))
    (hconnected : ∀ v w, Relation.ReflTransGen (fun v w => w ∈ getPeople v) v w)
    {last block : Ripemd160} (hlast : ∀ v, (start v).lastBlockImported = last) {d : V → Diff}
    (hformed : ∀ v, (start v).newDiff = some (d v)) (hprev : ∀ v, (d v).prev = last)
    (hhash : ∀ v, (d v).hash ripemd sixFormat = block) (hzero : block.isZero = false) {v : V}
    {picks : List Ripemd160} {drawn : ℕ} {s' : Daemon}
    (hs' : (t.nodes v).stage2 (nodeWith curve ripemd programs (priv v)) picks drawn = some s') :
    (s'.lastBlockImported = block ∧ s'.head = block ∧ s'.tail = block) ∧
      s'.cash = (d v).cash.elim (t.nodes v).cash fun c =>
        (t.nodes v).cash.importDelta Cash.wrapInt64 c (d v).proofOfWork drawn := by
  have htip : (t.nodes v).votes.select.1 = block := by
    refine h.select_eq hcurve hkeys hconnected ⟨v, by rw [hformed]; rfl⟩ (fun w d' hd => ?_) v
    rw [← hhash w, Option.some.inj ((hformed w).symm.trans hd)]
  have hnode := ((spreads_voteFlood curve ripemd programs priv getPeople h.fresh).run
    (marks_voteFlood hcurve) h.acts h.run).inv v
  have hd : (t.nodes v).newDiff = some (d v) := hnode.newDiff.trans (hformed v)
  have hlast' : (d v).prev = (t.nodes v).lastBlockImported :=
    (hprev v).trans (hnode.lastBlockImported.trans (hlast v)).symm
  rw [← hhash v] at htip hzero ⊢
  exact stage2_imports (σ := nodeWith curve ripemd programs (priv v)) hd hlast' htip hzero hs'

end AcCore.Gov.Engine
