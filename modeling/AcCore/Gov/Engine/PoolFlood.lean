import AcCore.Gov.Engine.DiffOrder
import AcCore.Gov.Engine.Relay
import AcCore.Gov.Engine.VoteAuth
import AcCore.Lib.Flooding

/-!
# Contributions in the network

In stage 3 every node sends the text of its contribution to the nodes it is connected to,
and then enters the contribution into its own pool. Who receives one for the first time makes
its text again for the others, and adds what was read to the pool. This file determines what
is in the pools when everything has arrived, and when all nodes form the same diff: first
where contributions arrive as they are, and then where they travel as texts.
-/

namespace AcCore.Gov.Engine

open Lib

variable {PubKey : Type}

/-- A node, as far as contributions go: its pool; those that were allowed, and that their
handlers have not added yet; and its own, after it was sent and before it is entered. The
list `arrivals` is not part of the code: what was allowed and added, in this order. -/
structure PoolNode (PubKey : Type) where
  pool : Diff
  waiting : List (LocalDeltas PubKey)
  sent : Option (LocalDeltas PubKey)
  arrivals : List (Arrival PubKey)

/-- What happens at a node, other than that a contribution arrives. -/
inductive PoolEvent (PubKey : Type) where
  /-- Stage 3: the contribution is created, and sent. -/
  | send (g : LocalDeltas PubKey)
  /-- Stage 3: it is allowed and added, in one critical section. -/
  | enter
  /-- The second critical section of the handler in this place. -/
  | add (i : ℕ)

namespace PoolNode

variable (ec : Ec PubKey) (ripemd : List UInt8 → Ripemd160) (fmt : Format)

/-- A node whose pool is new. -/
def create : PoolNode PubKey := ⟨Diff.create, [], none, []⟩

/-- `diff::add` to the pool. -/
def add (n : PoolNode PubKey) (g : LocalDeltas PubKey) : Option (PoolNode PubKey) :=
  (n.pool.add ec ripemd g).map fun pool =>
    { n with pool := pool, arrivals := n.arrivals ++ [.add g] }

/-- `process_incoming_local_deltas` up to the relay: whether it relays. -/
def receive (n : PoolNode PubKey) (g : LocalDeltas PubKey) : PoolNode PubKey × Bool :=
  if g.verify ec fmt ∧ (n.pool.allow ec g).2 then
    ({ n with
        pool := (n.pool.allow ec g).1
        waiting := n.waiting ++ [g]
        arrivals := n.arrivals ++ [.allow g] }, true)
  else (n, false)

/-- What a node does, and the contributions that it sends; `none` when it cannot happen, or
the code has no defined result. -/
def act (n : PoolNode PubKey) :
    PoolEvent PubKey → Option (PoolNode PubKey × List (LocalDeltas PubKey))
  | .send g => some ({ n with sent := some g }, [g])
  | .enter => n.sent.bind fun g =>
    if (n.pool.allow ec g).2 then
      (add ec ripemd { n with
        pool := (n.pool.allow ec g).1
        sent := none
        arrivals := n.arrivals ++ [.allow g] } g).map (·, [])
    else some ({ n with sent := none }, [])
  | .add i => n.waiting[i]?.bind fun g =>
    (add ec ripemd { n with waiting := n.waiting.eraseIdx i } g).map (·, [])

end PoolNode

section Texts

variable {PrivKey : Type} (curve : Curve PrivKey PubKey) (ripemd : List UInt8 → Ripemd160)
  (debug : Bool) (limit : ℕ)

/-- `process_incoming_local_deltas` up to the relay, from the text: what is relayed is the
text of what was read. -/
def PoolNode.receiveText (n : PoolNode PubKey) (text : Text) : PoolNode PubKey × Option Text :=
  match LocalDeltas.receive curve ripemd debug limit text with
  | none => (n, none)
  | some g =>
    ((n.receive (curve.ec ripemd) sixFormat g).1,
      if (n.receive (curve.ec ripemd) sixFormat g).2 then some (g.toStream curve) else none)

/-- The contributions of all nodes, which travel as texts. -/
def poolFlood {V : Type*} (getNodes : V → List V) :
    Flood V (PoolNode PubKey) Text (PoolEvent PubKey) where
  neighbours := getNodes
  receive _ n text := n.receiveText curve ripemd debug limit text
  act _ n e := (n.act (curve.ec ripemd) ripemd e).map fun r =>
    (r.1, r.2.map (LocalDeltas.toStream curve))

end Texts

/-! ## One node -/

namespace PoolNode

variable {ec : Ec PubKey} {ripemd : List UInt8 → Ripemd160} {fmt : Format}

/-- The key of a contribution. -/
def key (ec : Ec PubKey) (g : LocalDeltas PubKey) : Option Ripemd160 := some (ec.hash g.pubkey)

/-- A node has the contribution of this key, or is about to. -/
def Has (ec : Ec PubKey) (n : PoolNode PubKey) (k : Ripemd160) : Prop :=
  k ∈ n.pool.proofOfWork ∨ ∃ g ∈ n.sent, ec.hash g.pubkey = k

/-- The pool is what the arrivals make of a new one; what is waiting was allowed and is not
added. All contributions are among the given ones, and what was sent is the node's own. -/
structure Ok (ec : Ec PubKey) (ripemd : List UInt8 → Ripemd160) (P : LocalDeltas PubKey → Prop)
    (own : LocalDeltas PubKey) (n : PoolNode PubKey) : Prop where
  pool : run (arrive ec ripemd) Diff.create n.arrivals = some n.pool
  keys : ∀ k, k ∈ n.pool.proofOfWork ↔
    k ∈ (Arrival.allowed n.arrivals).map fun g => ec.hash g.pubkey
  once : ((Arrival.allowed n.arrivals).map fun g => ec.hash g.pubkey).Nodup
  addsAllowed : AddsAllowed n.arrivals
  partition : (Arrival.allowed n.arrivals).Perm (Arrival.added n.arrivals ++ n.waiting)
  given : ∀ g ∈ Arrival.allowed n.arrivals, P g
  sent : ∀ g ∈ n.sent, g = own

variable {P : LocalDeltas PubKey → Prop} {own g : LocalDeltas PubKey} {n : PoolNode PubKey}

/-- A contribution is allowed when no work of its key is in the pool. -/
theorem allow_snd (d : Diff) (g : LocalDeltas PubKey) :
    (d.allow ec g).2 = true ↔ ec.hash g.pubkey ∉ d.proofOfWork := by
  rw [Diff.allow, ← Finmap.lookup_eq_none]
  cases d.proofOfWork.lookup (ec.hash g.pubkey) <;> simp

/-- Allowing a contribution enters its key. -/
theorem mem_allow (d : Diff) (g : LocalDeltas PubKey) (k : Ripemd160) :
    k ∈ (d.allow ec g).1.proofOfWork ↔ k = ec.hash g.pubkey ∨ k ∈ d.proofOfWork := by
  rw [Diff.allow_fst]
  exact Table.mem_emplace

/-- The allowed contributions come from the arrivals. -/
theorem mem_of_mem_allowed {es : List (Arrival PubKey)} (h : g ∈ Arrival.allowed es) :
    .allow g ∈ es := by
  induction es with
  | nil => cases h
  | cons e es ih =>
    cases e with
    | allow g' =>
      rcases List.mem_cons.mp h with rfl | h
      · exact List.mem_cons_self
      · exact List.mem_cons_of_mem _ (ih h)
    | add g' => exact List.mem_cons_of_mem _ (ih h)

/-- A node with an empty pool is in order. -/
theorem ok_create : (create : PoolNode PubKey).Ok ec ripemd P own where
  pool := rfl
  keys k := by simp [create, Diff.create, Arrival.allowed, Finmap.notMem_empty]
  once := List.nodup_nil
  addsAllowed es₁ g es₂ h := by simp [create] at h
  partition := .refl _
  given g hg := by cases hg
  sent g hg := by cases hg

/-- A contribution is allowed, and is waiting from then on. -/
theorem Ok.allow (hn : n.Ok ec ripemd P own) (hg : P g) (hallow : (n.pool.allow ec g).2 = true)
    {sent : Option (LocalDeltas PubKey)} (hsent : ∀ g ∈ sent, g = own) :
    Ok ec ripemd P own ⟨(n.pool.allow ec g).1, n.waiting ++ [g], sent,
      n.arrivals ++ [.allow g]⟩ where
  pool := by
    rw [run_append, hn.pool, Option.bind_some]
    simp [run, arrive, hallow]
  keys k := by
    rw [mem_allow, hn.keys]
    simp [Arrival.allowed, or_comm]
  once := by
    rw [Arrival.allowed_append, List.map_append]
    refine hn.once.append (List.nodup_singleton _) ?_
    rw [Arrival.allowed, Arrival.allowed, List.map_singleton, List.disjoint_singleton, ← hn.keys]
    exact (allow_snd _ _).mp hallow
  addsAllowed es₁ g' es₂ h := by
    rcases List.eq_nil_or_concat' es₂ with rfl | ⟨es₂, e, rfl⟩
    · have hlast := (List.append_inj' h rfl).2
      cases hlast
    · rw [← List.cons_append, ← List.append_assoc] at h
      exact hn.addsAllowed es₁ g' es₂ (List.append_inj' h rfl).1
  partition := by
    rw [Arrival.allowed_append, Arrival.added_append]
    simp only [Arrival.allowed, Arrival.added, List.append_nil, ← List.append_assoc]
    exact hn.partition.append_right [g]
  given g' hg' := by
    rw [Arrival.allowed_append] at hg'
    rcases List.mem_append.mp hg' with hg' | hg'
    · exact hn.given g' hg'
    · exact List.mem_singleton.mp hg' ▸ hg
  sent := hsent

/-- A contribution that is waiting is added, and its key has an entry. -/
theorem Ok.add (hn : n.Ok ec ripemd P own) {rest : List (LocalDeltas PubKey)}
    (hrest : n.waiting.Perm (g :: rest)) :
    ∃ n', PoolNode.add ec ripemd { n with waiting := rest } g = some n' ∧
      n'.Ok ec ripemd P own ∧ n'.sent = n.sent ∧ n'.waiting = rest ∧
      ∀ k, k ∈ n'.pool.proofOfWork ↔ k ∈ n.pool.proofOfWork := by
  have hallowed : g ∈ Arrival.allowed n.arrivals := by
    rw [hn.partition.mem_iff, List.mem_append, hrest.mem_iff]
    exact Or.inr List.mem_cons_self
  have hentry : ec.hash g.pubkey ∈ n.pool.proofOfWork :=
    (hn.keys _).mpr (List.mem_map_of_mem hallowed)
  obtain ⟨work, hwork⟩ := Finmap.mem_iff.mp hentry
  have hadd : n.pool.add ec ripemd g = some (n.pool.merge ec ripemd g) := by
    rw [Diff.add, hwork, Option.map_some]
  have hmem : ∀ k, k ∈ (n.pool.merge ec ripemd g).proofOfWork ↔ k ∈ n.pool.proofOfWork := by
    intro k
    rw [Diff.merge, Finmap.mem_insert]
    constructor
    · rintro (rfl | hk)
      · exact hentry
      · exact hk
    · exact Or.inr
  refine ⟨⟨n.pool.merge ec ripemd g, rest, n.sent, n.arrivals ++ [.add g]⟩, ?_, ?_, rfl, rfl,
    hmem⟩
  · rw [PoolNode.add, hadd]
    rfl
  · have hsame : Arrival.allowed (n.arrivals ++ [.add g]) = Arrival.allowed n.arrivals := by
      simp [Arrival.allowed]
    refine ⟨?_, fun k => ?_, ?_, ?_, ?_, ?_, hn.sent⟩
    · rw [run_append, hn.pool, Option.bind_some]
      simp [run, arrive, hadd]
    · rw [hmem, hn.keys, hsame]
    · rw [hsame]
      exact hn.once
    · intro es₁ g' es₂ h
      rcases List.eq_nil_or_concat' es₂ with rfl | ⟨es₂, e, rfl⟩
      · obtain ⟨rfl, hlast⟩ := List.append_inj' h rfl
        cases hlast
        exact mem_of_mem_allowed hallowed
      · rw [← List.cons_append, ← List.append_assoc] at h
        exact hn.addsAllowed es₁ g' es₂ (List.append_inj' h rfl).1
    · rw [hsame, Arrival.added_append]
      refine hn.partition.trans ?_
      refine (hrest.append_left _).trans ?_
      simp [Arrival.added]
    · rw [hsame]
      exact hn.given

/-- What `receive` does. -/
theorem receive_cases (n : PoolNode PubKey) (hg : g.verify ec fmt = true) :
    (ec.hash g.pubkey ∈ n.pool.proofOfWork ∧ n.receive ec fmt g = (n, false)) ∨
      ((n.pool.allow ec g).2 = true ∧ n.receive ec fmt g =
        (⟨(n.pool.allow ec g).1, n.waiting ++ [g], n.sent, n.arrivals ++ [.allow g]⟩, true)) := by
  by_cases hallow : (n.pool.allow ec g).2 = true
  · exact Or.inr ⟨hallow, by rw [receive, if_pos ⟨hg, hallow⟩]⟩
  · refine Or.inl ⟨?_, by rw [receive, if_neg fun h => hallow h.2]⟩
    rwa [allow_snd, not_not] at hallow

/-- What a node does keeps it in order. What it has is what it had, and its own
contribution when it sends it. -/
theorem Ok.act (hn : n.Ok ec ripemd P own) (hown : P own) {e : PoolEvent PubKey}
    (he : ∀ g, e = .send g → g = own) {r : PoolNode PubKey × List (LocalDeltas PubKey)}
    (hr : n.act ec ripemd e = some r) :
    r.1.Ok ec ripemd P own ∧ (∀ g ∈ r.2, g = own) ∧
      (∀ k, k ∈ n.pool.proofOfWork → k ∈ r.1.pool.proofOfWork) ∧
      ∀ k, r.1.Has ec k ↔ n.Has ec k ∨ ∃ g ∈ r.2, key ec g = some k := by
  cases e with
  | send g =>
    cases hr
    obtain rfl := he g rfl
    refine ⟨⟨hn.pool, hn.keys, hn.once, hn.addsAllowed, hn.partition, hn.given, ?_⟩, ?_, ?_, ?_⟩
    · exact fun g' hg' => (Option.mem_some.mp hg').symm
    · simp
    · exact fun _ => id
    · intro k
      simp only [Has, key, Option.mem_some, List.mem_singleton, exists_eq_left, exists_eq_left',
        Option.some.injEq]
      constructor
      · rintro (hk | hk)
        · exact Or.inl (Or.inl hk)
        · exact Or.inr hk
      · rintro ((hk | ⟨g', hg', hk⟩) | hk)
        · exact Or.inl hk
        · exact Or.inr (hn.sent g' hg' ▸ hk)
        · exact Or.inr hk
  | enter =>
    obtain ⟨g, hg, hr⟩ := Option.bind_eq_some_iff.mp hr
    obtain rfl := hn.sent g hg
    have hhas : ∀ k, n.Has ec k ↔ k = ec.hash g.pubkey ∨ k ∈ n.pool.proofOfWork := by
      intro k
      rw [Has, hg, or_comm, eq_comm]
      simp
    split_ifs at hr with hallow
    · -- it is allowed and added at once
      obtain ⟨n', hn', hr⟩ := Option.map_eq_some_iff.mp hr
      cases hr
      have hnone : ∀ g' ∈ (none : Option (LocalDeltas PubKey)), g' = g := fun _ h => by cases h
      obtain ⟨n'', hn'', hok, hsent, -, hkeys⟩ :=
        (hn.allow hown hallow hnone).add (List.perm_append_singleton g n.waiting)
      obtain rfl : n' = n'' := Option.some.inj (hn'.symm.trans hn'')
      have hpow : ∀ k, k ∈ n'.pool.proofOfWork ↔
          k = ec.hash g.pubkey ∨ k ∈ n.pool.proofOfWork := fun k => by
        rw [hkeys, mem_allow]
      refine ⟨hok, by simp, fun k hk => (hpow k).mpr (Or.inr hk), fun k => ?_⟩
      rw [hhas, Has, hsent, hpow]
      simp
    · -- it came back before it was entered
      cases hr
      rw [allow_snd, not_not] at hallow
      refine ⟨⟨hn.pool, hn.keys, hn.once, hn.addsAllowed, hn.partition, hn.given,
        fun _ h => by cases h⟩, by simp, fun _ => id, fun k => ?_⟩
      rw [hhas, Has]
      constructor
      · rintro (hk | ⟨_, h, -⟩)
        · exact Or.inl (Or.inr hk)
        · cases h
      · rintro ((rfl | hk) | ⟨_, h, -⟩)
        · exact Or.inl hallow
        · exact Or.inl hk
        · cases h
  | add i =>
    obtain ⟨g, hg, hr⟩ := Option.bind_eq_some_iff.mp hr
    obtain ⟨hi, rfl⟩ := List.getElem?_eq_some_iff.mp hg
    obtain ⟨n', hn', hok, hsent, -, hkeys⟩ := hn.add (List.getElem_cons_eraseIdx_perm hi).symm
    rw [hn'] at hr
    cases hr
    refine ⟨hok, by simp, fun k hk => (hkeys k).mpr hk, fun k => ?_⟩
    simp [Has, hkeys, hsent]

/-- A node stays in order when a verified contribution arrives, and enters its key. -/
theorem Ok.receive (hn : n.Ok ec ripemd P own) (hP : P g) (hg : g.verify ec fmt = true) :
    (n.receive ec fmt g).1.Ok ec ripemd P own ∧
      (∀ k, k ∈ (n.receive ec fmt g).1.pool.proofOfWork ↔
        k ∈ n.pool.proofOfWork ∨ key ec g = some k) ∧
      (n.receive ec fmt g).1.sent = n.sent := by
  rcases receive_cases n hg with ⟨hknown, hr⟩ | ⟨hallow, hr⟩
  · rw [hr]
    refine ⟨hn, fun k => ⟨Or.inl, ?_⟩, rfl⟩
    rintro (hk | hk)
    · exact hk
    · cases hk
      exact hknown
  · rw [hr]
    refine ⟨hn.allow hP hallow hn.sent, fun k => ?_, rfl⟩
    rw [mem_allow, key, Option.some.injEq, or_comm, eq_comm]

end PoolNode

/-! ## Contributions that arrive as they are -/

/-- The contributions of all nodes, where everybody gets them as they were made. -/
def contributionFlood {V : Type*} (ec : Ec PubKey) (ripemd : List UInt8 → Ripemd160)
    (fmt : Format) (getNodes : V → List V) :
    Flood V (PoolNode PubKey) (LocalDeltas PubKey) (PoolEvent PubKey) where
  neighbours := getNodes
  receive _ n g := Flood.asItCame (n.receive ec fmt g) g
  act _ n e := n.act ec ripemd e

variable {V : Type*} {ec : Ec PubKey} {ripemd : List UInt8 → Ripemd160} {fmt : Format}
  {getNodes : V → List V}

/-- The nodes send nothing but the contributions given. -/
def Contributes (G : V → LocalDeltas PubKey) (v : V) (e : PoolEvent PubKey) : Prop :=
  ∀ g, e = .send g → g = G v

/-- What happens to the contributions is flooding. -/
theorem marks_contributionFlood {G : V → LocalDeltas PubKey}
    (hverify : ∀ v, (G v).verify ec fmt = true) :
    Flood.Marks (contributionFlood ec ripemd fmt getNodes) (Contributes G)
      (fun v => PoolNode.Ok ec ripemd (∃ u, · = G u) (G v)) (∃ u, · = G u) (PoolNode.key ec)
      (PoolNode.Has ec) where
  act {v n e r} hC hn hr := by
    obtain ⟨hok, hout, -, hhas⟩ := hn.act ⟨v, rfl⟩ hC hr
    exact ⟨hok, fun g hg => ⟨v, hout g hg⟩, hhas⟩
  receive {v n g} hn hg := by
    obtain ⟨u, rfl⟩ := hg
    obtain ⟨hok, hkeys, hsent⟩ := hn.receive (P := (∃ u, · = G u)) ⟨u, rfl⟩ (hverify u)
    refine ⟨hok, fun k => ?_⟩
    change PoolNode.Has ec (n.receive ec fmt (G u)).1 k ↔ _
    rw [PoolNode.Has, hkeys, hsent, PoolNode.Has]
    exact or_right_comm
  relayed {v n g g'} hn hg hrelays := by
    rw [(Flood.mem_asItCame.mp hrelays).2]
    exact ⟨hg, rfl⟩
  dropped {v n g k} hn hg hdropped hk := by
    obtain ⟨u, rfl⟩ := hg
    replace hdropped := Flood.asItCame_eq_none.mp hdropped
    rcases PoolNode.receive_cases n (hverify u) with ⟨hknown, -⟩ | ⟨-, hr⟩
    · cases hk
      exact Or.inl hknown
    · rw [hr] at hdropped
      cases hdropped

/-- Nothing is on its way, and at no node is anything left to do. -/
structure AtRest {M : Type*} (t : Network V (PoolNode PubKey) M) : Prop where
  packets : t.packets = []
  waiting : ∀ v, (t.nodes v).waiting = []
  sent : ∀ v, (t.nodes v).sent = none

/-- The diff that stage 4 forms of a pool, when the table of the cash delta lists its
entries in this order. -/
def PoolNode.form (n : PoolNode PubKey) (entries : Cash.Delta.Listing)
    (lastBlockImported : Ripemd160) : Diff :=
  { n.pool.endAdding entries with prev := lastBlockImported }

/-- Diffs of one text have one text after the same block, too. -/
theorem hash_prev_eq {d d' : Diff} (h : d.toStream fmt = d'.toStream fmt) (prev : Ripemd160) :
    ({ d with prev := prev } : Diff).hash ripemd fmt =
      ({ d' with prev := prev } : Diff).hash ripemd fmt := by
  have hwords := (Diff.toStream_eq_iff fmt).mp h
  have htail : ∀ d : Diff, ({ d with prev := prev } : Diff).words fmt =
      prev.toB58 :: (d.words fmt).tail := fun _ => rfl
  rw [Diff.hash, Diff.hash, Diff.toStream, Diff.toStream, htail, htail, hwords]

variable [DecidableEq V]

/-- A run in which every node sends the contribution given, and nothing else, and that has
come to rest. -/
structure ContributionsFlooded (ec : Ec PubKey) (ripemd : List UInt8 → Ripemd160) (fmt : Format)
    (getNodes : V → List V) (G : V → LocalDeltas PubKey)
    (es : List (NetworkEvent V (PoolEvent PubKey)))
    (t : Network V (PoolNode PubKey) (LocalDeltas PubKey)) : Prop where
  acts : Flood.Acts (Contributes G) es
  sends : ∀ v, .act v (.send (G v)) ∈ es
  run : run (contributionFlood ec ripemd fmt getNodes).step ⟨fun _ => .create, []⟩ es = some t
  rest : AtRest t

variable {G : V → LocalDeltas PubKey} {vs : List V}
  {es : List (NetworkEvent V (PoolEvent PubKey))}

/-- When everything is at rest, every pool has the contributions of all nodes. -/
theorem ContributionsFlooded.schedule (h : ContributionsFlooded ec ripemd fmt getNodes G es t)
    (hverify : ∀ v, (G v).verify ec fmt = true)
    (hkeys : Function.Injective fun v => ec.hash (G v).pubkey)
    (hconnected : ∀ v w, Relation.ReflTransGen (fun v w => w ∈ getNodes v) v w)
    (hvs : vs.Nodup) (hall : ∀ v, v ∈ vs) (v : V) :
    Schedule (vs.map G) (t.nodes v).arrivals ∧
      Lib.run (arrive ec ripemd) Diff.create (t.nodes v).arrivals = some (t.nodes v).pool := by
  have hspreads : Flood.Spreads (contributionFlood ec ripemd fmt getNodes)
      (fun v => PoolNode.Ok ec ripemd (∃ u, · = G u) (G v)) (∃ u, · = G u) (PoolNode.key ec)
      (PoolNode.Has ec) ⟨fun _ => .create, []⟩ := by
    refine .start (fun v => PoolNode.ok_create) fun v k hk => ?_
    rcases hk with hk | ⟨g, hg, -⟩
    · exact Finmap.notMem_empty hk
    · cases hg
  have hend := hspreads.run (marks_contributionFlood hverify) h.acts h.run
  have hok := hend.inv v
  -- the keys of all nodes have come here
  have hentry : ∀ u, ec.hash (G u).pubkey ∈ (t.nodes v).pool.proofOfWork := by
    intro u
    have hu : PoolNode.Has ec (t.nodes u) (ec.hash (G u).pubkey) := by
      refine hspreads.has_of_act (marks_contributionFlood hverify) h.acts h.run (h.sends u)
        fun n r _ hr => ?_
      cases hr
      exact Or.inr ⟨G u, rfl, rfl⟩
    rcases hend.has_of_rest h.rest.packets (hconnected u v) hu with hk | ⟨g, hg, -⟩
    · exact hk
    · rw [h.rest.sent] at hg
      cases hg
  have hallowed : (Arrival.allowed (t.nodes v).arrivals).Perm (vs.map G) := by
    refine (List.perm_ext_iff_of_nodup hok.once.of_map ?_).mpr fun g => ⟨fun hg => ?_, fun hg => ?_⟩
    · exact hvs.map fun u w huw => hkeys (congrArg (fun g => ec.hash g.pubkey) huw)
    · obtain ⟨u, rfl⟩ := hok.given g hg
      exact List.mem_map_of_mem (hall u)
    · obtain ⟨u, -, rfl⟩ := List.mem_map.mp hg
      obtain ⟨g, hg, hgu⟩ := List.mem_map.mp ((hok.keys _).mp (hentry u))
      obtain ⟨w, rfl⟩ := hok.given g hg
      rwa [hkeys hgu] at hg
  have hadded := hok.partition
  rw [h.rest.waiting, List.append_nil] at hadded
  exact ⟨⟨hallowed, hadded.symm.trans hallowed, hok.addsAllowed⟩, hok.pool⟩

/-! ## Contributions that travel as texts -/

variable {PrivKey : Type} {curve : Curve PrivKey PubKey} {debug : Bool} {limit : ℕ}
  {t : Network V (PoolNode PubKey) Text}

/-- Contributions that are signed, and that are read back as they were. -/
structure Sendable (curve : Curve PrivKey PubKey) (ripemd : List UInt8 → Ripemd160)
    (debug : Bool) (limit : ℕ) (G : V → LocalDeltas PubKey) : Prop where
  verify : ∀ v, (G v).verify (curve.ec ripemd) sixFormat = true
  readsBack : ∀ v, (G v).ReadsBack curve ripemd debug limit

omit [DecidableEq V] in
/-- The texts carry the contributions. -/
theorem Sendable.carries (hG : Sendable curve ripemd debug limit G) (getNodes : V → List V) :
    Flood.Carries (contributionFlood (curve.ec ripemd) ripemd sixFormat getNodes)
      (poolFlood curve ripemd debug limit getNodes) (Contributes G) (∃ u, · = G u)
      (LocalDeltas.toStream curve) where
  neighbours := rfl
  act _ _ _ := rfl
  receive v n g hg := by
    obtain ⟨u, rfl⟩ := hg
    change n.receiveText curve ripemd debug limit _ = _
    rw [PoolNode.receiveText, hG.readsBack u]
    simp only [contributionFlood, Flood.asItCame]
    cases (n.receive (curve.ec ripemd) sixFormat (G u)).2 <;> rfl
  sent {v n e r} hC hr g hg := by
    cases e with
    | send g' =>
      cases hr
      obtain rfl := List.mem_singleton.mp hg
      exact ⟨v, hC g rfl⟩
    | enter =>
      obtain ⟨g', -, hr⟩ := Option.bind_eq_some_iff.mp hr
      split_ifs at hr
      · obtain ⟨n', -, rfl⟩ := Option.map_eq_some_iff.mp hr
        cases hg
      · cases hr
        cases hg
    | add i =>
      obtain ⟨g', -, hr⟩ := Option.bind_eq_some_iff.mp hr
      obtain ⟨n', -, rfl⟩ := Option.map_eq_some_iff.mp hr
      cases hg
  relayed {v n g g'} hg hrelays := by
    rw [(Flood.mem_asItCame.mp hrelays).2]
    exact hg

/-- A run in which every node sends the contribution given, and nothing else, and that has
come to rest. -/
structure PoolsFlooded (curve : Curve PrivKey PubKey) (ripemd : List UInt8 → Ripemd160)
    (debug : Bool) (limit : ℕ) (getNodes : V → List V) (G : V → LocalDeltas PubKey)
    (es : List (NetworkEvent V (PoolEvent PubKey)))
    (t : Network V (PoolNode PubKey) Text) : Prop where
  acts : Flood.Acts (Contributes G) es
  sends : ∀ v, .act v (.send (G v)) ∈ es
  run : run (poolFlood curve ripemd debug limit getNodes).step ⟨fun _ => .create, []⟩ es = some t
  rest : AtRest t

/-- The runs of contributions that travel as texts are those in which they arrive as they
are. -/
theorem poolsFlooded_iff (hG : Sendable curve ripemd debug limit G) :
    PoolsFlooded curve ripemd debug limit getNodes G es t ↔
      ∃ t', ContributionsFlooded (curve.ec ripemd) ripemd sixFormat getNodes G es t' ∧
        t = t'.mapMessages (LocalDeltas.toStream curve) := by
  have hnil : ∀ p ∈ ([] : List (Packet V (LocalDeltas PubKey))), (∃ u, p.msg = G u) :=
    fun p hp => by cases hp
  constructor
  · intro h
    have hrun := (hG.carries getNodes).run_eq (s := ⟨fun _ => .create, []⟩) hnil h.acts
    rw [show Network.mapMessages (LocalDeltas.toStream curve) ⟨fun _ => .create, []⟩ =
      (⟨fun _ => .create, []⟩ : Network V (PoolNode PubKey) Text) from rfl, h.run] at hrun
    obtain ⟨t', ht', rfl⟩ := Option.map_eq_some_iff.mp hrun.symm
    exact ⟨t', ⟨h.acts, h.sends, ht', (Network.packets_mapMessages_eq_nil _).mp h.rest.packets,
      h.rest.waiting, h.rest.sent⟩, rfl⟩
  · rintro ⟨t', h, rfl⟩
    have hrun := (hG.carries getNodes).run_eq (s := ⟨fun _ => .create, []⟩) hnil h.acts
    rw [h.run] at hrun
    exact ⟨h.acts, h.sends, hrun, (Network.packets_mapMessages_eq_nil _).mpr h.rest.packets,
      h.rest.waiting, h.rest.sent⟩

namespace PoolsFlooded

/-- When everything is at rest, every pool has the contributions of all nodes. -/
theorem schedule (h : PoolsFlooded curve ripemd debug limit getNodes G es t)
    (hG : Sendable curve ripemd debug limit G)
    (hkeys : Function.Injective fun v => (curve.ec ripemd).hash (G v).pubkey)
    (hconnected : ∀ v w, Relation.ReflTransGen (fun v w => w ∈ getNodes v) v w)
    (hvs : vs.Nodup) (hall : ∀ v, v ∈ vs) (v : V) :
    Schedule (vs.map G) (t.nodes v).arrivals ∧
      Lib.run (arrive (curve.ec ripemd) ripemd) Diff.create (t.nodes v).arrivals =
        some (t.nodes v).pool := by
  obtain ⟨t', h', rfl⟩ := (poolsFlooded_iff hG).mp h
  exact h'.schedule hG.verify hkeys hconnected hvs hall v

/-- Where the order in which contributions arrive does not show, it does not show in the
diffs that are formed. -/
theorem hash_form_eq (h : PoolsFlooded curve ripemd debug limit getNodes G es t)
    (hG : Sendable curve ripemd debug limit G)
    (hkeys : Function.Injective fun v => (curve.ec ripemd).hash (G v).pubkey)
    (hconnected : ∀ v w, Relation.ReflTransGen (fun v w => w ∈ getNodes v) v w)
    (hvs : vs.Nodup) (hall : ∀ v, v ∈ vs) (hhalls : HallsAgree (vs.map G))
    (hwinners : WinnersAlike ripemd sixFormat (vs.map G)) {v w : V}
    {entries entries' : Cash.Delta.Listing}
    (hv : (t.nodes v).pool.Lists entries) (hw : (t.nodes w).pool.Lists entries')
    (last : Ripemd160) :
    ((t.nodes v).form entries last).hash ripemd sixFormat =
      ((t.nodes w).form entries' last).hash ripemd sixFormat := by
  have hnodup : ((vs.map G).map fun g => (curve.ec ripemd).hash g.pubkey).Nodup := by
    rw [List.map_map]
    exact hvs.map hkeys
  have hforms : ∀ v entries, (t.nodes v).pool.Lists entries →
      Forms (curve.ec ripemd) ripemd (vs.map G) ((t.nodes v).pool.endAdding entries) := by
    intro v entries hv
    obtain ⟨hes, hrun⟩ := h.schedule hG hkeys hconnected hvs hall v
    exact ⟨_, entries, _, hes, hrun, hv, rfl⟩
  obtain ⟨htext, -⟩ := orderIndependent_of hnodup hhalls hwinners _ _ (hforms v entries hv)
    (hforms w entries' hw)
  exact hash_prev_eq htext last

end PoolsFlooded

omit [DecidableEq V] in
/-- Where all nodes contribute one pool, there is no other. -/
theorem mem_filterMap_cash {L : Cash.LocalDelta} (hcash : ∀ v, (G v).cash = some L)
    {g : Cash.LocalDelta}
    (hg : g ∈ (vs.map G).filterMap LocalDeltas.cash) : g = L := by
  obtain ⟨ld, hld, hg⟩ := List.mem_filterMap.mp hg
  obtain ⟨v, -, rfl⟩ := List.mem_map.mp hld
  exact (Option.some.inj ((hcash v).symm.trans hg)).symm

omit [DecidableEq V] in
/-- Where all nodes contribute one pool, there is one most common pool. -/
theorem winnersAlike_of_forall {L : Cash.LocalDelta} (hcash : ∀ v, (G v).cash = some L) :
    WinnersAlike ripemd fmt (vs.map G) := by
  intro g g' hg hg'
  rw [mem_filterMap_cash hcash hg.1, mem_filterMap_cash hcash hg'.1]

omit [DecidableEq V] in
/-- What nodes sign can be sent, where its counts fit in an `int`, and its policies have six
digits. -/
theorem sendable_sign (hcurve : curve.Lawful) (ripemd : List UInt8 → Ripemd160) (debug : Bool)
    (hlimit : 2 ^ 31 ≤ limit) (priv : V → PrivKey) {g : V → LocalDeltas PubKey}
    (hg : ∀ v, (g v).Readable) (hfits : ∀ v, (g v).FitsInt) (hsix : ∀ v, (g v).SixDigits) :
    Sendable curve ripemd debug limit fun v => (g v).sign curve (priv v) where
  verify v := hcurve.verify_signEncode (priv v) _
  readsBack v := by
    refine (LocalDeltas.readsBack_iff hcurve ripemd debug hlimit ?_ ?_ ?_).mpr ?_
    · exact ⟨(hg v).policies, (hg v).addresses, (hg v).cash⟩
    · exact hcurve.isWord_signEncode (priv v) _
    · exact ⟨(hfits v).auth, (hfits v).cash⟩
    · exact ⟨(hsix v).auth, (hsix v).cash⟩

/-! ## Two nodes -/

/-- Two keys whose signatures show the key. -/
def ofTwoBytes : Curve Bool Bool :=
  { Curve.ofTwoKeys with
    ecdsaSign := fun k _ => [if k then 2 else 3]
    ecdsaVerify := fun k _ signature => signature = [if k then 2 else 3] }

/-- The sample curve signs and verifies as a curve does. -/
theorem lawful_ofTwoBytes : ofTwoBytes.Lawful where
  length_serialize := Curve.lawful_ofTwoKeys.length_serialize
  parse_serialize := Curve.lawful_ofTwoKeys.parse_serialize
  sign_ne_nil _ _ := List.cons_ne_nil _ _
  verify_sign _ _ := decide_eq_true rfl

/-- The two sample keys have different hashes. -/
theorem injective_ofTwoBytes : Function.Injective fun v : Bool =>
    (ofTwoBytes.ec Curve.firstByte).hash (ofTwoBytes.pubkeyCreate (id v)) := by
  unfold Function.Injective
  decide

/-- Each of two nodes that know each other reaches the other. -/
theorem connected_two (v w : Bool) : Relation.ReflTransGen (fun v w => w ∈ [!v]) v w := by
  by_cases hvw : v = w
  · exact hvw ▸ .refl
  · exact .single (List.mem_singleton.mpr (Bool.eq_not_of_ne (Ne.symm hvw)))

/-- A signed contribution of one of two keys, with this pool, if any. -/
def signedOf (cash : Option Cash.LocalDelta) (k : Bool) : LocalDeltas Bool :=
  LocalDeltas.sign ofTwoBytes k ⟨k, [], none, cash⟩

/-- It has no candidates. -/
theorem hallsAgree_signedOf (cash : Option Cash.LocalDelta) :
    HallsAgree ([true, false].map (signedOf cash)) := by
  intro a ha
  cases ha

/-- It can be sent, when the pool can be read and has a policy of six digits. -/
theorem sendable_signedOf {cash : Option Cash.LocalDelta} (hread : ∀ c ∈ cash, c.Readable)
    (hfits : ∀ c ∈ cash, (Table.keyList c.accounts).length < 2 ^ 31)
    (hsix : ∀ c ∈ cash, Policies.rounded c.policies = c.policies) :
    Sendable ofTwoBytes Curve.firstByte false (2 ^ 31) (signedOf cash) :=
  sendable_sign lawful_ofTwoBytes Curve.firstByte false le_rfl id
    (fun _ => ⟨by rintro a ⟨⟩, by rintro a ⟨⟩, hread⟩)
    (fun _ => ⟨by rintro a ⟨⟩, hfits⟩) (fun _ => ⟨by rintro a ⟨⟩, hsix⟩)

/-- The nodes send each other what they contribute. -/
def signedContributions (cash : Option Cash.LocalDelta) :
    List (NetworkEvent Bool (PoolEvent Bool)) :=
  [.act false (.send (signedOf cash false)), .act true (.send (signedOf cash true)),
    .act true .enter, .deliver 0, .deliver 0, .act false .enter, .act true (.add 0),
    .act false (.add 0)]

/-- The run of these events, where contributions arrive as they are. -/
def contributedByTwo (cash : Option Cash.LocalDelta) :
    Option (Network Bool (PoolNode Bool) (LocalDeltas Bool)) :=
  run (contributionFlood (ofTwoBytes.ec Curve.firstByte) Curve.firstByte sixFormat
    fun v => [!v]).step ⟨fun _ => .create, []⟩ (signedContributions cash)

/-- The diffs that two nodes form of what they have contributed. -/
def formedByTwo (cash : Option Cash.LocalDelta) (entries : Cash.Delta.Listing) (v : Bool) : Diff :=
  ((contributedByTwo cash).map fun t =>
    (t.nodes v).form entries Ripemd160.zero).getD Diff.create

/-- Whether the contributions of two nodes have come to rest, and the tables list their
entries in this order. -/
def restsWith (entries : Cash.Delta.Listing)
    (t : Network Bool (PoolNode Bool) (LocalDeltas Bool)) : Bool :=
  t.packets.isEmpty && [true, false].all fun v =>
    (t.nodes v).waiting.isEmpty && (t.nodes v).sent.isNone && (t.nodes v).pool.Lists entries

/-- Contributions of two nodes that can be sent. -/
theorem poolsFlooded_two {cash : Option Cash.LocalDelta} {entries : Cash.Delta.Listing}
    (hsend : Sendable ofTwoBytes Curve.firstByte false (2 ^ 31) (signedOf cash))
    (h : (contributedByTwo cash).any (restsWith entries) = true) :
    ∃ pools, PoolsFlooded ofTwoBytes Curve.firstByte false (2 ^ 31) (fun v => [!v])
        (signedOf cash) (signedContributions cash) pools ∧
      (∀ v, (pools.nodes v).pool.Lists entries) ∧
      ∀ v, formedByTwo cash entries v = (pools.nodes v).form entries Ripemd160.zero := by
  obtain ⟨t, ht, hrest⟩ := (Option.any_eq_true _ _).mp h
  simp only [restsWith, List.all_cons, List.all_nil, Bool.and_true, Bool.and_eq_true,
    List.isEmpty_iff, Option.isNone_iff_eq_none, decide_eq_true_eq] at hrest
  obtain ⟨hpackets, ⟨⟨hwaiting, hsent⟩, hlists⟩, ⟨hwaiting', hsent'⟩, hlists'⟩ := hrest
  refine ⟨_, (poolsFlooded_iff hsend).mpr ⟨t, ⟨?_, fun v => ?_, ht, hpackets, ?_, ?_⟩, rfl⟩, ?_,
    fun v => ?_⟩
  · intro v e he g hg
    subst hg
    simp only [signedContributions, List.mem_cons, NetworkEvent.act.injEq, PoolEvent.send.injEq,
      reduceCtorEq, and_false, List.not_mem_nil, or_false] at he
    rcases he with ⟨rfl, rfl⟩ | ⟨rfl, rfl⟩ <;> rfl
  · cases v <;> simp [signedContributions]
  · exact Bool.forall_bool.mpr ⟨hwaiting', hwaiting⟩
  · exact Bool.forall_bool.mpr ⟨hsent', hsent⟩
  · exact Bool.forall_bool.mpr ⟨hlists', hlists⟩
  · rw [formedByTwo, ht]
    rfl

/-- The table of a cash delta that has merged a pool twice. -/
def entriesOfTwo : Cash.Delta.Listing := [⟨poolOfTwo.key Curve.firstByte, poolOfTwo, 2⟩]

/-- The pool is a contribution that can be sent. -/
theorem sendable_poolOfTwo :
    Sendable ofTwoBytes Curve.firstByte false (2 ^ 31) (signedOf (some poolOfTwo)) := by
  refine sendable_signedOf ?_ ?_ ?_
  · rintro c ⟨⟩
    exact readable_poolOfTwo
  · rintro c ⟨⟩
    decide +kernel
  · rintro c ⟨⟩
    funext i
    exact (by decide +kernel : sixRounded (1 / 2) = 1 / 2)

end AcCore.Gov.Engine
