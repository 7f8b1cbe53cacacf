import AcCore.Gov.Engine.Mempool
import AcCore.Gov.Engine.VoteFlood

/-!
# The ledger of the network

In a cycle of the network evidence is relayed and processed, every node contributes its
pool, forms a diff of all contributions and votes for it, and imports the diff that is
voted for. This file puts these phases together: the nodes keep one ledger, and it is that
of a single node which processes all transactions in the order of their time stamps.
-/

namespace AcCore.Gov.Engine

open Lib Gov.Cash

variable {PrivKey PubKey : Type} {curve : Curve PrivKey PubKey}
  {ripemd : List UInt8 → Ripemd160} {programs : LockingPrograms}

/-! ## The diff that is formed -/

/-- The average of equal votes is what all have voted for. -/
theorem PoliciesDelta.policies_endMerge_of_forall {n : ℕ} {ps : List (Policies n)}
    {q : Policies n} (hne : ps ≠ []) (h : ∀ p ∈ ps, p = q) :
    (ps.foldl PoliciesDelta.merge PoliciesDelta.create).endMerge.policies = q := by
  have hlength : (ps.length : ℚ) ≠ 0 :=
    Nat.cast_ne_zero.mpr (mt List.length_eq_zero_iff.mp hne)
  funext i
  have hsum : (ps.map fun p => p i).sum = ps.length * q i := by
    rw [List.map_congr_left fun p hp => congrFun (h p hp) i, List.map_const', List.sum_replicate,
      nsmul_eq_mul]
  rw [PoliciesDelta.foldl_merge]
  simp only [PoliciesDelta.endMerge, averageEndMerge, PoliciesDelta.create, zero_add, hsum]
  rw [mul_comm, mul_div_assoc, div_self hlength, mul_one]

/-- Contributors that have all the same part. -/
def contributorsOf (xs : List Ripemd160) : Pow :=
  (xs.map fun x => (x, 0)).foldl (fun w e => Table.emplace e.1 e.2 w) ∅

/-- The contributors begin with no work. -/
theorem lookup_contributorsOf (xs : List Ripemd160) (x : Ripemd160) :
    (contributorsOf xs).lookup x = if x ∈ xs then some 0 else none := by
  rw [contributorsOf, Table.lookup_foldl_emplace, Finmap.lookup_empty, Option.none_or]
  induction xs with
  | nil => rfl
  | cons y xs ih =>
    rw [List.map_cons, List.find?_cons]
    by_cases hy : y = x
    · simp [hy]
    · simp only [hy, decide_false, List.mem_cons, Ne.symm hy, false_or]
      exact ih

section Pools

variable {V : Type*} [DecidableEq V] {debug : Bool} {limit : ℕ} {getNodes : V → List V}
  {G : V → LocalDeltas PubKey} {vs : List V} {es : List (NetworkEvent V (PoolEvent PubKey))}
  {t : Network V (PoolNode PubKey) Text}

/-- What is known of the diff that a node forms when everything has arrived. -/
theorem PoolsFlooded.formedFrom (h : PoolsFlooded curve ripemd debug limit getNodes G es t)
    (hG : Sendable curve ripemd debug limit G)
    (hkeys : Function.Injective fun v => (curve.ec ripemd).hash (G v).pubkey)
    (hconnected : ∀ v w, Relation.ReflTransGen (fun v w => w ∈ getNodes v) v w)
    (hvs : vs.Nodup) (hall : ∀ v, v ∈ vs) {v : V} {entries : Cash.Delta.Listing}
    (hlists : (t.nodes v).pool.Lists entries) :
    ∃ G', FormedFrom (curve.ec ripemd) ripemd (vs.map G) G' entries
      ((t.nodes v).pool.endAdding entries) := by
  obtain ⟨hes, hrun⟩ := h.schedule hG hkeys hconnected hvs hall v
  have hnodup : ((vs.map G).map fun g => (curve.ec ripemd).hash g.pubkey).Nodup := by
    rw [List.map_map]
    exact hvs.map hkeys
  exact ⟨_, hes.formedFrom hnodup hrun hlists⟩

variable {L : Cash.LocalDelta} {G' : List (LocalDeltas PubKey)} {entries : Cash.Delta.Listing}
  {d : Diff}

omit [DecidableEq V] in
/-- Where all nodes contribute one pool, it is in the diff, and its policies are the
averages. -/
theorem FormedFrom.cash_eq (h : FormedFrom (curve.ec ripemd) ripemd (vs.map G) G' entries d) {v : V}
    (hv : v ∈ vs) (hcash : ∀ v, (G v).cash = some L) :
    ∃ c, d.cash = some c ∧ c.g = L ∧ c.policies = L.policies := by
  have hmem : L ∈ (vs.map G).filterMap LocalDeltas.cash :=
    List.mem_filterMap.mpr ⟨G v, List.mem_map_of_mem hv, hcash v⟩
  have hne : (vs.map G).filterMap LocalDeltas.cash ≠ [] := List.ne_nil_of_mem hmem
  have hwinner := mem_filterMap_cash hcash (h.isMostCommon hne).1
  have hperm := h.perm.filterMap LocalDeltas.cash
  have hmerged : mergedCash ripemd (G'.filterMap LocalDeltas.cash) = some
      ((G'.filterMap LocalDeltas.cash).foldl (Cash.Delta.merge ripemd) Cash.Delta.create) := by
    rw [mergedCash_eq, if_neg (mt (nil_iff_of_perm hperm).mp hne)]
  refine ⟨_, by rw [h.cash, hmerged]; rfl, ?_, ?_⟩
  · rw [← hwinner]
    rfl
  · rw [Cash.Delta.foldl_merge]
    refine PoliciesDelta.policies_endMerge_of_forall ?_ fun p hp => ?_
    · rw [Ne, List.map_eq_nil_iff, nil_iff_of_perm hperm]
      exact hne
    · obtain ⟨g, hg, rfl⟩ := List.mem_map.mp hp
      rw [mem_filterMap_cash hcash (hperm.mem_iff.mp hg)]

end Pools

/-! ## The votes leave the ledger alone -/

section Votes

variable {V : Type*} {priv : V → PrivKey} {getPeople : V → List V}

/-- What a node does while votes come in leaves its cash app as it is, unless it processes a
transaction. -/
theorem cash_actVoting {k : PrivKey} {s : Daemon} {e : DaemonEvent PubKey}
    {r : Daemon × List Text} (he : Voting e) (hquiet : ∀ t, e ≠ .process t)
    (hr : s.actVoting curve ripemd programs k e = some r) : r.1.cash = s.cash := by
  obtain ⟨s', hs', hr⟩ := Option.map_eq_some_iff.mp hr
  cases e with
  | stage1 =>
    cases hr
    obtain ⟨-, hs'⟩ := Option.ite_none_right_eq_some.mp hs'
    obtain ⟨votes, hvotes⟩ := Daemon.stage1_frame (σ := nodeWith curve ripemd programs k) s
    rw [hvotes] at hs'
    cases hs'
    rfl
  | process t => exact absurd rfl (hquiet t)
  | localDeltas g =>
    cases hr
    obtain ⟨pool, rfl⟩ := Daemon.processIncomingLocalDeltas_frame hs'
    rfl
  | basicAuthCompleted key address =>
    cases hr
    cases hs'
    rfl
  | voteTip t => exact he.elim
  | patchDb d picks drawn => exact he.elim
  | stage2 picks drawn => exact he.elim
  | stage3 => exact he.elim
  | stage4 entries => exact he.elim

/-- What a node does while votes come in leaves the ledger as it is. -/
theorem db_actVoting {k : PrivKey} {s : Daemon} {e : DaemonEvent PubKey} {r : Daemon × List Text}
    (he : Voting e) (hr : s.actVoting curve ripemd programs k e = some r) :
    r.1.cash.db = s.cash.db := by
  by_cases hquiet : ∀ t, e ≠ .process t
  · rw [cash_actVoting he hquiet hr]
  · obtain ⟨t, ht⟩ := not_forall_not.mp hquiet
    subst ht
    obtain ⟨s', hs', hr⟩ := Option.map_eq_some_iff.mp hr
    cases hr
    cases hs'
    exact App.db_process s.cash t

variable [DecidableEq V] {start : V → Daemon} {es : List (NetworkEvent V (DaemonEvent PubKey))}
  {t : Network V Daemon Text}

/-- All nodes have the ledger that they had. -/
def SameLedgers (start : V → Daemon) (s : Network V Daemon Text) : Prop :=
  ∀ v, (s.nodes v).cash.db = (start v).cash.db

/-- The flood of the votes leaves the ledgers. -/
theorem VotesFlooded.sameLedgers
    (h : VotesFlooded curve ripemd programs priv getPeople start es t) : SameLedgers start t := by
  have hacts : AlongRun (voteFlood curve ripemd programs priv getPeople).step
      (fun _ e => e ∈ es) ⟨start, []⟩ es := .of_forall fun e he _ => he
  have hstart : SameLedgers start ⟨start, []⟩ := fun _ => rfl
  refine run_invariant (fun s e s' hs he hs' => ?_) hstart hacts h.run
  refine Flood.inv_of_step (F := voteFlood curve ripemd programs priv getPeople)
    (fun v (s : Daemon) => s.cash.db = (start v).cash.db) hs ?_ ?_ hs'
  · rintro v b r rfl hr
    exact (db_actVoting (h.acts v b he) hr).trans (hs v)
  · exact fun p _ => hs p.dst

end Votes

/-! ## A cycle -/

/-- A cycle: the evidence, the contributions, the orders in which tables list their entries
when the diffs are formed, and the votes. -/
structure Cycle (V : Type*) (PubKey : Type) where
  opening : V → RelayNode
  relayed : List (NetworkEvent V RelayEvent)
  mempools : Network V RelayNode Datagram
  contributions : V → LocalDeltas PubKey
  merged : List (NetworkEvent V (PoolEvent PubKey))
  pools : Network V (PoolNode PubKey) Text
  entries : V → Cash.Delta.Listing
  voters : V → Daemon
  voted : List (NetworkEvent V (DaemonEvent PubKey))
  votes : Network V Daemon Text

namespace Cycle

variable {V : Type*}

/-- The diff that a node forms. -/
def formed (c : Cycle V PubKey) (last : Ripemd160) (v : V) : Diff :=
  (c.pools.nodes v).form (c.entries v) last

/-- The transactions that clients have sent, in the order of their time stamps. -/
def transactions (c : Cycle V PubKey) (a : App) : List Tx :=
  calendarOf a (clientDatagrams c.relayed)

variable [DecidableEq V]

/-- The cycle is one of nodes with these keys and connections, which all begin it with the
app `a` after the block `last`. Every node contributes the pool that it has come to have,
and votes for the diff that it has formed. -/
structure Runs (curve : Curve PrivKey PubKey) (ripemd : List UInt8 → Ripemd160)
    (programs : LockingPrograms) (computeHash : Datagram → Ripemd160) (debug : Bool) (limit : ℕ)
    (priv : V → PrivKey) (getNodes : V → List V) (vs : List V) (a : App) (last : Ripemd160)
    (c : Cycle V PubKey) : Prop where
  evidence : EvidenceFlooded computeHash programs getNodes a c.opening c.relayed c.mempools
  distinct : Distinct computeHash (· ∈ clientDatagrams c.relayed) a
  pubkey : ∀ v, (c.contributions v).pubkey = curve.pubkeyCreate (priv v)
  sendable : Sendable curve ripemd debug limit c.contributions
  pool : ∀ v, (c.contributions v).cash =
    some (c.mempools.nodes v).intake.app.createLocalDelta.1
  halls : HallsAgree (vs.map c.contributions)
  merged : PoolsFlooded curve ripemd debug limit getNodes c.contributions c.merged c.pools
  lists : ∀ v, (c.pools.nodes v).pool.Lists (c.entries v)
  ledger : ∀ v, (c.voters v).cash.db = a.db
  previous : ∀ v, (c.voters v).lastBlockImported = last
  formed : ∀ v, (c.voters v).newDiff = some (c.formed last v)
  voted : VotesFlooded curve ripemd programs priv getNodes c.voters c.voted c.votes

end Cycle

/-- The nodes have different keys, and the connections lead from everyone to everyone. -/
structure Peers {V : Type*} (curve : Curve PrivKey PubKey) (ripemd : List UInt8 → Ripemd160)
    (priv : V → PrivKey) (getNodes : V → List V) (vs : List V) : Prop where
  keys : Function.Injective fun v => (curve.ec ripemd).hash (curve.pubkeyCreate (priv v))
  connected : ∀ v w, Relation.ReflTransGen (fun v w => w ∈ getNodes v) v w
  nodup : vs.Nodup
  all : ∀ v, v ∈ vs

/-- The address of a node. -/
def addressOf {V : Type*} (curve : Curve PrivKey PubKey) (ripemd : List UInt8 → Ripemd160)
    (priv : V → PrivKey) (v : V) : Ripemd160 :=
  (curve.ec ripemd).hash (curve.pubkeyCreate (priv v))

variable {V : Type*} [DecidableEq V] {computeHash : Datagram → Ripemd160} {debug : Bool}
  {limit : ℕ} {priv : V → PrivKey} {getNodes : V → List V} {vs : List V} {a : App}
  {last : Ripemd160} {c : Cycle V PubKey}

namespace Cycle.Runs

/-- The pool of a node that has processed all transactions. -/
theorem pool_eq (hc : c.Runs curve ripemd programs computeHash debug limit priv getNodes vs a last)
    (hpeers : Peers curve ripemd priv getNodes vs) (v : V) :
    (c.contributions v).cash = some
      ((c.transactions a).foldl (App.process wrapInt64 programs) a).createLocalDelta.1 := by
  rw [hc.pool, hc.evidence.app_eq hc.distinct hpeers.connected]
  rfl

/-- The nodes of a cycle have distinct keys. -/
theorem injective
    (hc : c.Runs curve ripemd programs computeHash debug limit priv getNodes vs a last)
    (hpeers : Peers curve ripemd priv getNodes vs) :
    Function.Injective fun v => (curve.ec ripemd).hash (c.contributions v).pubkey := by
  simpa only [hc.pubkey] using hpeers.keys

/-- All diffs have one hash. -/
theorem hash_formed_eq
    (hc : c.Runs curve ripemd programs computeHash debug limit priv getNodes vs a last)
    (hpeers : Peers curve ripemd priv getNodes vs) (v w : V) :
    (c.formed last v).hash ripemd sixFormat = (c.formed last w).hash ripemd sixFormat :=
  hc.merged.hash_form_eq hc.sendable (hc.injective hpeers) hpeers.connected hpeers.nodup hpeers.all
    hc.halls (winnersAlike_of_forall (hc.pool_eq hpeers)) (hc.lists v) (hc.lists w) last

/-- What a node imports in stage 2: the pool of one node that has processed all
transactions, with the nodes as contributors. -/
theorem imports (hc : c.Runs curve ripemd programs computeHash debug limit priv getNodes vs a last)
    (hpeers : Peers curve ripemd priv getNodes vs) (hcurve : curve.Lawful) {block : Ripemd160}
    (hblock : ∃ u, (c.formed last u).hash ripemd sixFormat = block)
    (hzero : block.isZero = false) {v : V} {picks : List Ripemd160} {drawn : ℕ} {s' : Daemon}
    (hs' : (c.votes.nodes v).stage2 (nodeWith curve ripemd programs (priv v)) picks drawn =
      some s') :
    s'.lastBlockImported = block ∧ ∃ d : Cash.Delta,
      s'.cash = (c.votes.nodes v).cash.importDelta wrapInt64 d
        (contributorsOf (vs.map (addressOf curve ripemd priv))) drawn ∧
      d.g = ((c.transactions a).foldl (App.process wrapInt64 programs) a).createLocalDelta.1 ∧
      d.policies = d.g.policies := by
  obtain ⟨u, rfl⟩ := hblock
  obtain ⟨⟨himported, -, -⟩, hcash⟩ := hc.voted.imports hcurve hpeers.keys hpeers.connected
    hc.previous hc.formed (fun _ => rfl) (fun w => hc.hash_formed_eq hpeers w u) hzero hs'
  obtain ⟨G', hformed⟩ := hc.merged.formedFrom hc.sendable (hc.injective hpeers) hpeers.connected
    hpeers.nodup hpeers.all (hc.lists v)
  obtain ⟨d, hd, hpool, hpolicies⟩ := hformed.cash_eq (hpeers.all v) (hc.pool_eq hpeers)
  have hpow : (c.formed last v).proofOfWork =
      contributorsOf (vs.map (addressOf curve ripemd priv)) := by
    refine Finmap.ext_lookup fun x => ?_
    have hkeys : (vs.map c.contributions).map (fun g => (curve.ec ripemd).hash g.pubkey) =
        vs.map (addressOf curve ripemd priv) := by
      rw [List.map_map]
      exact List.map_congr_left fun w _ => congrArg _ (hc.pubkey w)
    rw [lookup_contributorsOf, ← hkeys]
    exact hformed.pow x
  have hdelta : (c.formed last v).cash = some d := hd
  rw [hdelta, Option.elim_some, hpow] at hcash
  exact ⟨himported, d, hcash, hpool, by rw [hpolicies, hpool]⟩

end Cycle.Runs

/-- The app of a node that has processed both payments. -/
def paidTwice : App :=
  [spendOfOne 3, laterPayment].foldl (App.process wrapInt64 noPrograms) tenAtOneApp

/-- The pool of this app. -/
def poolOfPaid : Cash.LocalDelta := paidTwice.createLocalDelta.1

/-- The table of a cash delta that has merged this pool twice. -/
def paidEntries : Cash.Delta.Listing := [⟨poolOfPaid.key Curve.firstByte, (poolOfPaid, 2)⟩]

/-- It can be sent. -/
theorem sendable_poolOfPaid :
    Sendable ofTwoBytes Curve.firstByte false (2 ^ 31) (signedOf (some poolOfPaid)) := by
  refine sendable_signedOf ?_ ?_ ?_
  · rintro c ⟨⟩
    have hboxes : ∀ e ∈ Table.toList poolOfPaid.accounts, -2 ^ 63 ≤ e.2.box ∧ e.2.box < 2 ^ 63 := by
      decide +kernel
    refine ⟨?_, fun x a hx => hboxes (x, a) (Table.mem_toList.mpr hx), by decide +kernel⟩
    exact (by decide +kernel : ∀ i, |poolOfPaid.policies i| ≤ doubleMax)
  · rintro c ⟨⟩
    decide +kernel
  · rintro c ⟨⟩
    decide +kernel

/-- The two sample nodes are peers. -/
theorem peers_two : Peers ofTwoBytes Curve.firstByte (id : Bool → Bool) twoNodes [true, false] where
  keys := injective_ofTwoBytes
  connected := connected_twoNodes
  nodup := by decide
  all := by decide

/-- The cycle in which two nodes get two payments. -/
theorem exists_cycle_twoPayments :
    ∃ c : Cycle Bool Bool,
        c.Runs ofTwoBytes Curve.firstByte noPrograms hashOfFirst false (2 ^ 31) id
        twoNodes [true, false] tenAtOneApp Ripemd160.zero ∧
      c.transactions tenAtOneApp = [spendOfOne 3, laterPayment] ∧
      c.formed Ripemd160.zero = formedByTwo (some poolOfPaid) paidEntries ∧
      (∀ v, (c.voters v).cash = (c.mempools.nodes v).intake.app.createLocalDelta.2) ∧
      c.voted = votesOfTwo ∧
      ∀ v, ((c.votes.nodes v).stage2 (nodeWith ofTwoBytes Curve.firstByte noPrograms (id v))
        [] 0).isSome = true := by
  obtain ⟨mempools, hevidence⟩ := exists_evidenceFlooded_twoPayments
  obtain ⟨pools, hmerged, hlists, hform⟩ := poolsFlooded_two sendable_poolOfPaid
    (show (contributedByTwo (some poolOfPaid)).any (restsWith paidEntries) = true by
      decide +kernel)
  have hrun : ((tableOfTwo paidTwice.createLocalDelta.2
      (formedByTwo (some poolOfPaid) paidEntries)).any fun t => t.packets.isEmpty &&
        [true, false].all fun v => ((t.nodes v).stage2
          (nodeWith ofTwoBytes Curve.firstByte noPrograms (id v)) [] 0).isSome) = true := by
    decide +kernel
  obtain ⟨votes, hvotes, hboth⟩ := (Option.any_eq_true _ _).mp hrun
  obtain ⟨hrest, himports⟩ := (Bool.and_eq_true_iff).mp hboth
  have hpaid (v : Bool) : (mempools.nodes v).intake.app = paidTwice := by
    rw [hevidence.app_eq distinct_twoPayments connected_twoNodes, calendarOf_twoPayments]
    rfl
  refine ⟨⟨fun _ => freshNode, twoPayments, mempools, signedOf (some poolOfPaid),
    signedContributions (some poolOfPaid), pools, fun _ => paidEntries,
    fun v => memberWith paidTwice.createLocalDelta.2 v
      (formedByTwo (some poolOfPaid) paidEntries v),
    votesOfTwo, votes⟩, ?_, calendarOf_twoPayments, funext fun v => (hform v).symm,
    fun v => by rw [hpaid]; rfl, rfl, fun v => List.all_eq_true.mp himports v (by cases v <;> simp)⟩
  exact
    { evidence := hevidence
      distinct := distinct_twoPayments
      pubkey := fun _ => rfl
      sendable := sendable_poolOfPaid
      pool := fun v => by
        rw [hpaid]
        rfl
      halls := hallsAgree_signedOf _
      merged := hmerged
      lists := hlists
      ledger := fun _ => rfl
      previous := fun _ => rfl
      formed := fun v => congrArg some (hform v)
      voted := votesFlooded_two hvotes (List.isEmpty_iff.mp hrest) }

end AcCore.Gov.Engine
