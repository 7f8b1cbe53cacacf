import AcCore.Gov.Engine.Evidence
import AcCore.Lib.Flooding
import Mathlib.Algebra.BigOperators.Ring.Finset

/-!
# Evidence in the network

A wallet gives its transaction to one node. The relay of the node passes it on to the
engine, and to the other nodes to which the node is connected, and so does the relay of
every node that gets it for the first time in a cycle. This file determines which nodes
have it when all datagrams have arrived, and how many datagrams there can be.
-/

namespace AcCore.Gov.Engine

open Lib Gov.Cash

/-- A node. The list `taken` is not part of the code: the datagrams that the relay has
passed on to `process_evidence`. -/
structure RelayNode where
  intake : Intake
  taken : List Datagram

/-- What happens at a node, other than that a datagram of another node arrives. -/
inductive RelayEvent where
  /-- A client, which is none of the nodes, sends a datagram. -/
  | client (d : Datagram)
  | intake (e : IntakeEvent)

variable (computeHash : Datagram → Ripemd160) (programs : LockingPrograms)

/-- `relay::daemon::process_work`, and whether it sends the datagram on. -/
def RelayNode.processWork (r : RelayNode) (d : Datagram) : RelayNode × Bool :=
  if isEvidence d.service ∧ computeHash d ∉ r.intake.evidences then
    (⟨r.intake.processWork computeHash d, r.taken ++ [d]⟩, true)
  else (⟨r.intake.processWork computeHash d, r.taken⟩, false)

/-- What a node does, and the datagrams that it sends to all nodes it is connected to. -/
def RelayNode.act (r : RelayNode) : RelayEvent → Option (RelayNode × List Datagram)
  | .client d => some ((r.processWork computeHash d).1,
      if (r.processWork computeHash d).2 then [d] else [])
  | .intake e => (r.intake.step computeHash programs e).map fun i => (⟨i, r.taken⟩, [])

/-- The relays of all nodes. The connections are those of `get_nodes`. -/
def evidenceFlood {V : Type*} (getNodes : V → List V) :
    Flood V RelayNode Datagram RelayEvent where
  neighbours := getNodes
  receive _ r d := Flood.asItCame (r.processWork computeHash d) d
  act _ r e := r.act computeHash programs e

/-- The key of a datagram: datagrams that are no evidence are none of the relay's. -/
def evidenceKey (d : Datagram) : Option Ripemd160 :=
  if isEvidence d.service then some (computeHash d) else none

/-- What a node does within a cycle, where clients send these datagrams only. What comes
in comes in through the relay. -/
def WithinCycle (P : Datagram → Prop) : RelayEvent → Prop
  | .client d => P d
  | .intake e => e ≠ .createLocalDeltas ∧ ∀ d, e ≠ .processWork d

/-! ## One node -/

variable {computeHash programs}

/-- Only evidences have a key, their hash. -/
theorem evidenceKey_eq_some {d : Datagram} {k : Ripemd160} :
    evidenceKey computeHash d = some k ↔ isEvidence d.service = true ∧ computeHash d = k := by
  rw [evidenceKey, Option.ite_none_right_eq_some, Option.some.injEq]

/-- A datagram that arrives puts its hash in the relay set when it is an evidence. -/
theorem evidences_processWork (s : Intake) (d : Datagram) :
    (s.processWork computeHash d).evidences =
      if isEvidence d.service then insert (computeHash d) s.evidences else s.evidences := by
  unfold Intake.processWork
  split
  · split
    · next hknown => rw [Finset.insert_eq_of_mem hknown]
    · rw [evidences_processEvidence]
  · rfl

/-- Applying transactions leaves the relay set. -/
theorem evidences_evidenceProcessor (s : Intake) (tipTs : UInt64) :
    (s.evidenceProcessor programs tipTs).evidences = s.evidences := by
  unfold Intake.evidenceProcessor
  split
  · rfl
  · split
    · rfl
    · split
      · rfl
      · split <;> rfl

/-- Within a cycle only the relay changes the hashes. -/
theorem evidences_of_step {s s' : Intake} {e : IntakeEvent}
    (h : s.step computeHash programs e = some s') (hcycle : e ≠ .createLocalDeltas)
    (hrelay : ∀ d, e ≠ .processWork d) : s'.evidences = s.evidences := by
  cases e with
  | processWork d => exact absurd rfl (hrelay d)
  | setSync inSync =>
    cases h
    rfl
  | flushEvidencesOnHold order =>
    obtain ⟨-, h⟩ := Option.ite_none_right_eq_some.mp h
    cases h
    exact evidences_foldl_processEvidence order _
  | evidenceProcessor tipTs =>
    cases h
    exact evidences_evidenceProcessor s tipTs
  | createLocalDeltas => exact absurd rfl hcycle
  | chain db policies =>
    cases h
    rfl

/-- The relay of a node knows the hashes of what it has passed on, each of which it has
passed on once, and it comes from a client. -/
structure RelayNode.Ok (computeHash : Datagram → Ripemd160) (P : Datagram → Prop)
    (r : RelayNode) : Prop where
  known : ∀ k, k ∈ r.intake.evidences ↔ k ∈ r.taken.map computeHash
  once : (r.taken.map computeHash).Nodup
  given : ∀ d ∈ r.taken, P d

namespace RelayNode

variable {P : Datagram → Prop} {r : RelayNode} {d : Datagram}

/-- A node stays in order when a datagram arrives. -/
theorem Ok.processWork (hr : r.Ok computeHash P) (hd : P d) :
    (r.processWork computeHash d).1.Ok computeHash P := by
  unfold RelayNode.processWork
  split_ifs with hnew
  · obtain ⟨hevidence, hnew⟩ := hnew
    refine ⟨fun k => ?_, ?_, fun d' hd' => ?_⟩
    · rw [evidences_processWork, if_pos hevidence, Finset.mem_insert, hr.known,
        List.map_append, List.mem_append, List.map_singleton, List.mem_singleton, or_comm]
    · rw [List.map_append, List.map_singleton]
      refine hr.once.append (List.nodup_singleton _) ?_
      rw [List.disjoint_singleton]
      exact fun hmem => hnew ((hr.known _).mpr hmem)
    · rcases List.mem_append.mp hd' with hd' | hd'
      · exact hr.given d' hd'
      · exact List.mem_singleton.mp hd' ▸ hd
  · refine ⟨fun k => ?_, hr.once, hr.given⟩
    rw [evidences_processWork, ← hr.known]
    split_ifs with hevidence
    · have hmem : computeHash d ∈ r.intake.evidences := by
        by_contra hnot
        exact hnew ⟨hevidence, hnot⟩
      rw [Finset.insert_eq_of_mem hmem]
    · rfl

/-- The relay knows the key of what it received. -/
theorem mem_evidences_processWork (r : RelayNode) (d : Datagram) (k : Ripemd160) :
    k ∈ (r.processWork computeHash d).1.intake.evidences ↔
      k ∈ r.intake.evidences ∨ evidenceKey computeHash d = some k := by
  have hintake : (r.processWork computeHash d).1.intake = r.intake.processWork computeHash d := by
    unfold RelayNode.processWork
    split <;> rfl
  rw [hintake, evidences_processWork, evidenceKey]
  split_ifs
  · rw [Finset.mem_insert, or_comm, Option.some.injEq, eq_comm (a := k)]
  · simp

/-- A datagram is relayed when it is an evidence that is not in the relay set. -/
theorem processWork_snd (r : RelayNode) (d : Datagram) :
    (r.processWork computeHash d).2 = true ↔
      isEvidence d.service = true ∧ computeHash d ∉ r.intake.evidences := by
  unfold RelayNode.processWork
  split_ifs with h
  · exact ⟨fun _ => h, fun _ => rfl⟩
  · exact ⟨fun hfalse => absurd hfalse (by decide), fun hnew => absurd hnew h⟩

end RelayNode

/-! ## All nodes -/

variable {V : Type*} {getNodes : V → List V} {P : Datagram → Prop}

/-- What happens to the hashes is flooding. -/
theorem marks_evidenceFlood :
    Flood.Marks (evidenceFlood computeHash programs getNodes) (fun _ => WithinCycle P)
      (fun _ => RelayNode.Ok computeHash P) P (evidenceKey computeHash)
      (fun r k => k ∈ r.intake.evidences) where
  act {v r e t} hC hr ht := by
    cases e with
    | client d =>
      cases ht
      refine ⟨hr.processWork hC, fun m hm => ?_, fun k => ?_⟩
      · rw [List.mem_ite_nil_right, List.mem_singleton] at hm
        exact hm.2 ▸ hC
      · rw [RelayNode.mem_evidences_processWork]
        constructor
        · rintro (hk | hk)
          · exact Or.inl hk
          · -- the hash is new, and the datagram is sent, or it is known
            by_cases hnew : (r.processWork computeHash d).2 = true
            · exact Or.inr ⟨d, by simp [hnew], hk⟩
            · rw [RelayNode.processWork_snd, not_and, not_not] at hnew
              obtain ⟨hevidence, rfl⟩ := evidenceKey_eq_some.mp hk
              exact Or.inl (hnew hevidence)
        · rintro (hk | ⟨m, hm, hk⟩)
          · exact Or.inl hk
          · rw [List.mem_ite_nil_right, List.mem_singleton] at hm
            exact Or.inr (hm.2 ▸ hk)
    | intake e =>
      obtain ⟨i, hi, rfl⟩ := Option.map_eq_some_iff.mp ht
      have hsame := evidences_of_step hi hC.1 hC.2
      refine ⟨⟨fun k => hsame ▸ hr.known k, hr.once, hr.given⟩, by simp, fun k => ?_⟩
      simp [hsame]
  receive {v r d} hr hd := ⟨hr.processWork hd, RelayNode.mem_evidences_processWork r d⟩
  relayed {v r d d'} hr hd hrelays := by
    rw [(Flood.mem_asItCame.mp hrelays).2]
    exact ⟨hd, rfl⟩
  dropped {v r d k} hr hd hdropped hk := by
    obtain ⟨hevidence, rfl⟩ := evidenceKey_eq_some.mp hk
    by_contra hnew
    have hrelays := (RelayNode.processWork_snd r d).mpr ⟨hevidence, hnew⟩
    exact absurd (hrelays.symm.trans (Flood.asItCame_eq_none.mp hdropped)) (by decide)

/-- Whatever is sent or relayed, its hash is new. -/
theorem relaysOnce_evidenceFlood {keys : Finset Ripemd160}
    (hkeys : ∀ d, P d → computeHash d ∈ keys) :
    Flood.RelaysOnce (evidenceFlood computeHash programs getNodes) (fun _ => WithinCycle P)
      (fun _ => RelayNode.Ok computeHash P) P (fun r => r.intake.evidences) keys (fun _ => 0) where
  act {v r e t} hC hr ht := by
    cases e with
    | client d =>
      cases ht
      rw [Nat.add_zero]
      have hgrows : r.intake.evidences ⊆ (r.processWork computeHash d).1.intake.evidences :=
        fun k hk => (RelayNode.mem_evidences_processWork r d k).mpr (Or.inl hk)
      by_cases hnew : (r.processWork computeHash d).2 = true
      · rw [if_pos hnew, List.length_singleton, Nat.add_comm]
        obtain ⟨hevidence, hnew⟩ := (RelayNode.processWork_snd r d).mp hnew
        exact Flood.card_sdiff_lt hgrows (hkeys d hC) hnew
          ((RelayNode.mem_evidences_processWork r d _).mpr
            (Or.inr (evidenceKey_eq_some.mpr ⟨hevidence, rfl⟩)))
      · rw [if_neg hnew, List.length_nil, Nat.zero_add]
        exact Finset.card_le_card (Finset.sdiff_subset_sdiff (Finset.Subset.refl _) hgrows)
    | intake e =>
      obtain ⟨i, hi, rfl⟩ := Option.map_eq_some_iff.mp ht
      simp [evidences_of_step hi hC.1 hC.2]
  grows {v r d} hr hd k hk := (RelayNode.mem_evidences_processWork r d k).mpr (Or.inl hk)
  relays {v r d d'} hr hd hrelays := by
    obtain ⟨hevidence, hnew⟩ :=
      (RelayNode.processWork_snd r d).mp (Flood.mem_asItCame.mp hrelays).1
    exact ⟨computeHash d, hkeys d hd, hnew, (RelayNode.mem_evidences_processWork r d _).mpr
      (Or.inr (evidenceKey_eq_some.mpr ⟨hevidence, rfl⟩))⟩

/-- The datagrams that clients send in a run. -/
def clientDatagrams (es : List (NetworkEvent V RelayEvent)) : List Datagram :=
  es.filterMap fun
    | .act _ (.client d) => some d
    | _ => none

/-- No node ends its cycle in the run, and what comes in comes in through the relays. -/
def OneCycle (es : List (NetworkEvent V RelayEvent)) : Prop :=
  ∀ v e, .act v (.intake e) ∈ es → e ≠ .createLocalDeltas ∧ ∀ d, e ≠ .processWork d

/-- A node at the beginning of a cycle. -/
def RelayNode.Fresh (r : RelayNode) : Prop := r.intake.evidences = ∅ ∧ r.taken = []

/-- A node with an empty relay set is in order. -/
theorem RelayNode.Fresh.ok {r : RelayNode} (h : r.Fresh) : r.Ok computeHash P where
  known k := by simp [h.1, h.2]
  once := by simp [h.2]
  given d hd := by simp [h.2] at hd

/-- The datagrams that clients send in the events. -/
theorem mem_clientDatagrams {es : List (NetworkEvent V RelayEvent)} {d : Datagram} :
    d ∈ clientDatagrams es ↔ ∃ v, .act v (.client d) ∈ es := by
  rw [clientDatagrams, List.mem_filterMap]
  constructor
  · rintro ⟨e, he, hd⟩
    split at hd
    · cases hd
      exact ⟨_, he⟩
    · cases hd
  · rintro ⟨v, hv⟩
    exact ⟨_, hv, rfl⟩

/-- In one cycle the nodes do nothing that clears the relay set. -/
theorem OneCycle.acts {es : List (NetworkEvent V RelayEvent)} (h : OneCycle es) :
    Flood.Acts (fun _ => WithinCycle (· ∈ clientDatagrams es)) es := by
  intro v e he
  cases e with
  | client d => exact mem_clientDatagrams.mpr ⟨v, he⟩
  | intake e => exact h v e he

variable [DecidableEq V]

omit [DecidableEq V] in
variable (computeHash programs getNodes) in
/-- The hashes in a run that starts with a cycle. -/
theorem spreads_evidenceFlood {start : V → RelayNode} (hstart : ∀ v, (start v).Fresh)
    (P : Datagram → Prop) :
    Flood.Spreads (evidenceFlood computeHash programs getNodes)
      (fun _ => RelayNode.Ok computeHash P) P (evidenceKey computeHash)
      (fun r k => k ∈ r.intake.evidences) ⟨start, []⟩ :=
  .start (fun v => (hstart v).ok) fun v k => by simp [(hstart v).1]

/-- What a client has sent has been taken wherever the connections lead. -/
theorem exists_taken_of_rest {start : V → RelayNode} (hstart : ∀ v, (start v).Fresh)
    {es : List (NetworkEvent V RelayEvent)} (hcycle : OneCycle es)
    {t : Network V RelayNode Datagram}
    (ht : run (evidenceFlood computeHash programs getNodes).step ⟨start, []⟩ es = some t)
    (hrest : t.packets = []) {u : V} {d : Datagram} (hd : .act u (.client d) ∈ es)
    (hevidence : isEvidence d.service = true) {v : V}
    (huv : Relation.ReflTransGen (fun v w => w ∈ getNodes v) u v) :
    ∃ d' ∈ (t.nodes v).taken, computeHash d' = computeHash d := by
  have hspreads := spreads_evidenceFlood computeHash programs getNodes hstart
    (· ∈ clientDatagrams es)
  have hend := hspreads.run marks_evidenceFlood hcycle.acts ht
  have hclient : computeHash d ∈ (t.nodes u).intake.evidences := by
    refine hspreads.has_of_act marks_evidenceFlood hcycle.acts ht hd fun r r' _ hr' => ?_
    cases hr'
    exact (RelayNode.mem_evidences_processWork r d _).mpr
      (Or.inr (evidenceKey_eq_some.mpr ⟨hevidence, rfl⟩))
  exact List.mem_map.mp (((hend.inv v).known _).mp (hend.has_of_rest hrest huv hclient))

/-- **Evidence reaches the network.** In a cycle every node takes the datagrams of one hash
at most once, and only such as a client has sent. When all datagrams have arrived, every
node to which the connections lead from that of the client has taken one of its hash:
whatever else the nodes do, and in whatever order the datagrams arrive. -/
theorem evidence_reaches (computeHash : Datagram → Ripemd160) (programs : LockingPrograms)
    (getNodes : V → List V) {start : V → RelayNode} (hstart : ∀ v, (start v).Fresh)
    {es : List (NetworkEvent V RelayEvent)} (hcycle : OneCycle es)
    {t : Network V RelayNode Datagram}
    (ht : run (evidenceFlood computeHash programs getNodes).step ⟨start, []⟩ es = some t) :
    (∀ v, ((t.nodes v).taken.map computeHash).Nodup ∧
        ∀ d ∈ (t.nodes v).taken, d ∈ clientDatagrams es) ∧
      (t.packets = [] → ∀ u d, .act u (.client d) ∈ es → isEvidence d.service = true →
        ∀ v, Relation.ReflTransGen (fun v w => w ∈ getNodes v) u v →
          ∃ d' ∈ (t.nodes v).taken, computeHash d' = computeHash d) := by
  have hspreads := spreads_evidenceFlood computeHash programs getNodes hstart
    (· ∈ clientDatagrams es)
  have hend := hspreads.run marks_evidenceFlood hcycle.acts ht
  refine ⟨fun v => ⟨(hend.inv v).once, (hend.inv v).given⟩, ?_⟩
  intro hrest u d hd hevidence v huv
  exact exists_taken_of_rest hstart hcycle ht hrest hd hevidence huv

/-- Two nodes, each connected to the other. -/
def twoNodes : Bool → List Bool := fun v => [!v]

/-- A node with the account of the payment, at the beginning of a cycle. -/
def freshNode : RelayNode := ⟨beforeDelivery, []⟩

/-- A hash of datagrams that looks at the service only. -/
def hashOfService (d : Datagram) : Ripemd160 := Ripemd160.set d.service.toUInt32

/-- A client sends the payment to one node, and it arrives at the other. -/
def paymentFlood : List (NetworkEvent Bool RelayEvent) :=
  [.act false (.client paymentDatagram), .deliver 0]

/-- Both sample nodes begin with an empty relay set. -/
theorem fresh_freshNode (v : Bool) : ((fun _ => freshNode) v : RelayNode).Fresh := ⟨rfl, rfl⟩

/-- The sample flood stays within one cycle. -/
theorem oneCycle_paymentFlood : OneCycle paymentFlood := by
  intro v e he
  simp [paymentFlood] at he

/-- The other node takes the payment, and sends nothing back. -/
theorem evidence_reaches_both :
    ∃ t, run (evidenceFlood hashOfService noPrograms twoNodes).step
        ⟨fun _ => freshNode, []⟩ paymentFlood = some t ∧ t.packets = [] ∧
      ∃ d' ∈ (t.nodes true).taken, hashOfService d' = hashOfService paymentDatagram := by
  refine ⟨_, rfl, rfl, ?_⟩
  exact (evidence_reaches hashOfService noPrograms twoNodes fresh_freshNode
    oneCycle_paymentFlood rfl).2 rfl false paymentDatagram List.mem_cons_self rfl true
      (.single List.mem_cons_self)

/-- **The traffic is bounded.** The datagrams that arrive in a cycle are at most the
connections of all nodes, for each hash that clients have sent; and what is on its way can
always be delivered, until nothing is on its way. -/
theorem evidence_deliveries_le [Fintype V] (computeHash : Datagram → Ripemd160)
    (programs : LockingPrograms) (getNodes : V → List V) {start : V → RelayNode}
    (hstart : ∀ v, (start v).Fresh) {es : List (NetworkEvent V RelayEvent)}
    (hcycle : OneCycle es) {t : Network V RelayNode Datagram}
    (ht : run (evidenceFlood computeHash programs getNodes).step ⟨start, []⟩ es = some t) :
    es.countP NetworkEvent.isDeliver ≤
        ((clientDatagrams es).map computeHash).toFinset.card * ∑ v, (getNodes v).length ∧
      ∃ (is : List ℕ) (t' : _), run (evidenceFlood computeHash programs getNodes).step t
        (is.map NetworkEvent.deliver) = some t' ∧ t'.packets = [] := by
  have hspreads := spreads_evidenceFlood computeHash programs getNodes hstart
    (· ∈ clientDatagrams es)
  have hkeys : ∀ d ∈ clientDatagrams es,
      computeHash d ∈ ((clientDatagrams es).map computeHash).toFinset := fun d hd =>
    List.mem_toFinset.mpr (List.mem_map_of_mem hd)
  have hend := hspreads.run marks_evidenceFlood hcycle.acts ht
  refine ⟨?_, hend.exists_rest marks_evidenceFlood (relaysOnce_evidenceFlood hkeys)⟩
  have hle := hspreads.deliveries_le marks_evidenceFlood (relaysOnce_evidenceFlood hkeys)
    hcycle.acts ht
  -- a fresh node knows no hash, and what nodes do costs nothing
  have hload : (evidenceFlood computeHash programs getNodes).load
      (fun r => r.intake.evidences) ((clientDatagrams es).map computeHash).toFinset ⟨start, []⟩ =
      ((clientDatagrams es).map computeHash).toFinset.card * ∑ v, (getNodes v).length := by
    rw [Flood.load, List.length_nil, Nat.zero_add, Finset.mul_sum]
    refine Finset.sum_congr rfl fun v _ => ?_
    rw [(hstart v).1, Finset.sdiff_empty, Nat.mul_comm]
    rfl
  have hcost : (es.map ((evidenceFlood computeHash programs getNodes).costOf fun _ => 0)).sum =
      0 := by
    refine List.sum_eq_zero fun n hn => ?_
    obtain ⟨e, -, rfl⟩ := List.mem_map.mp hn
    cases e <;> rfl
  rw [hload, hcost] at hle
  omega

/-- One datagram arrives, and there can be two. -/
theorem evidence_deliveries_le_both :
    ∃ t, run (evidenceFlood hashOfService noPrograms twoNodes).step
        ⟨fun _ => freshNode, []⟩ paymentFlood = some t ∧
      paymentFlood.countP NetworkEvent.isDeliver ≤ 1 * 2 ∧
      ∃ (is : List ℕ) (t' : _),
        run (evidenceFlood hashOfService noPrograms twoNodes).step t
          (is.map NetworkEvent.deliver) = some t' ∧ t'.packets = [] :=
  ⟨_, rfl, evidence_deliveries_le hashOfService noPrograms twoNodes fresh_freshNode
    oneCycle_paymentFlood rfl⟩

end AcCore.Gov.Engine
