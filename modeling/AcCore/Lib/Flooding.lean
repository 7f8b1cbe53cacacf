import AcCore.Lib.Run
import Mathlib.Algebra.BigOperators.Group.Finset.Basic
import Mathlib.Algebra.BigOperators.Ring.Finset
import Mathlib.Algebra.Order.BigOperators.Group.Finset
import Mathlib.Data.Finset.Card
import Mathlib.Data.Fintype.Basic
import Mathlib.Logic.Relation

/-!
# Flooding

Nodes send what they make to all their neighbours, and relay what they receive for the
first time to all but the one that sent it. Messages that are on their way arrive in any
order, and nodes do other things in between. When nothing is on its way any more, whatever
a node has, everyone who can be reached from it has; and after the last message was made,
this comes about after a bounded number of deliveries.
-/

namespace AcCore.Lib

/-- A message on its way. -/
structure Packet (V M : Type*) where
  src : V
  dst : V
  msg : M

/-- What the nodes of a network do. -/
structure Flood (V S M E : Type*) where
  neighbours : V → List V
  /-- A message arrives at a node: the node after it, and the message that it relays. -/
  receive : V → S → M → S × Option M
  /-- What a node does by itself, and the messages that it sends to all neighbours. -/
  act : V → S → E → Option (S × List M)

/-- The nodes, and the messages on their way. -/
structure Network (V S M : Type*) where
  nodes : V → S
  packets : List (Packet V M)

/-- What happens in a network. -/
inductive NetworkEvent (V E : Type*) where
  | act (v : V) (e : E)
  /-- The message in this place arrives. -/
  | deliver (i : ℕ)

/-- Whether a message arrives. -/
def NetworkEvent.isDeliver {V E : Type*} : NetworkEvent V E → Bool
  | .act _ _ => false
  | .deliver _ => true

namespace Network

variable {V S M : Type*} [DecidableEq V]

/-- A node has changed, and other messages are on their way. -/
def put (s : Network V S M) (v : V) (t : S) (packets : List (Packet V M)) : Network V S M :=
  ⟨Function.update s.nodes v t, packets⟩

variable (s : Network V S M) (v : V) (t : S) (packets : List (Packet V M))

/-- Changing a node leaves the packets given. -/
@[simp] theorem packets_put : (s.put v t packets).packets = packets := rfl

/-- The node that was changed. -/
@[simp] theorem nodes_put_self : (s.put v t packets).nodes v = t := Function.update_self ..

/-- The other nodes are as they were. -/
theorem nodes_put_of_ne {w : V} (h : w ≠ v) : (s.put v t packets).nodes w = s.nodes w :=
  Function.update_of_ne h ..

end Network

namespace Flood

section

variable {V S M E : Type*} (F : Flood V S M E)

/-- A node sends a message to its neighbours. -/
def send (v : V) (m : M) : List (Packet V M) := (F.neighbours v).map fun w => ⟨v, w, m⟩

/-- A node sends a message to its neighbours, but for one. -/
def relay [DecidableEq V] (v exclude : V) (m : M) : List (Packet V M) :=
  ((F.neighbours v).filter (· ≠ exclude)).map fun w => ⟨v, w, m⟩

/-- A message is relayed as it came, or not at all. -/
def asItCame (r : S × Bool) (m : M) : S × Option M := (r.1, if r.2 then some m else none)

/-- It is not relayed when nothing is. -/
theorem asItCame_eq_none {r : S × Bool} {m : M} : (asItCame r m).2 = none ↔ r.2 = false := by
  cases h : r.2 <;> simp [asItCame, h]

/-- What is relayed is the message. -/
theorem mem_asItCame {r : S × Bool} {m m' : M} :
    m' ∈ (asItCame r m).2 ↔ r.2 = true ∧ m' = m := by
  cases h : r.2 <;> simp [asItCame, h, eq_comm]

variable {F}

/-- The packets of a message that is sent. -/
theorem mem_send {v : V} {m : M} {p : Packet V M} :
    p ∈ F.send v m ↔ p.src = v ∧ p.dst ∈ F.neighbours v ∧ p.msg = m := by
  obtain ⟨src, dst, msg⟩ := p
  simp only [send, List.mem_map, Packet.mk.injEq]
  constructor
  · rintro ⟨w, hw, rfl, rfl, rfl⟩
    exact ⟨rfl, hw, rfl⟩
  · rintro ⟨rfl, hw, rfl⟩
    exact ⟨dst, hw, rfl, rfl, rfl⟩

/-- The packets of a message that is relayed. -/
theorem mem_relay [DecidableEq V] {v exclude : V} {m : M} {p : Packet V M} :
    p ∈ F.relay v exclude m ↔
      p.src = v ∧ p.dst ∈ F.neighbours v ∧ p.dst ≠ exclude ∧ p.msg = m := by
  obtain ⟨src, dst, msg⟩ := p
  simp only [relay, List.mem_map, List.mem_filter, decide_eq_true_eq, Packet.mk.injEq]
  constructor
  · rintro ⟨w, ⟨hw, hne⟩, rfl, rfl, rfl⟩
    exact ⟨rfl, hw, hne, rfl⟩
  · rintro ⟨rfl, hw, hne, rfl⟩
    exact ⟨dst, ⟨hw, hne⟩, rfl, rfl, rfl⟩

end

variable {V S M E K : Type*} [DecidableEq V] (F : Flood V S M E)

/-- The message of a packet arrives. -/
def arrive (s : Network V S M) (p : Packet V M) (rest : List (Packet V M)) : Network V S M :=
  let r := F.receive p.dst (s.nodes p.dst) p.msg
  s.put p.dst r.1 (rest ++ r.2.elim [] (F.relay p.dst p.src))

/-- One event; `none` when it cannot happen. -/
def step (s : Network V S M) : NetworkEvent V E → Option (Network V S M)
  | .act v e => (F.act v (s.nodes v) e).map fun r =>
      s.put v r.1 (s.packets ++ r.2.flatMap (F.send v))
  | .deliver i => s.packets[i]?.map fun p => F.arrive s p (s.packets.eraseIdx i)

variable {F}

/-- What a step does. -/
theorem step_cases {s s' : Network V S M} {e : NetworkEvent V E} (h : F.step s e = some s') :
    (∃ v a r, e = .act v a ∧ F.act v (s.nodes v) a = some r ∧
        s' = s.put v r.1 (s.packets ++ r.2.flatMap (F.send v))) ∨
      ∃ i p rest, e = .deliver i ∧ s.packets.Perm (p :: rest) ∧ s' = F.arrive s p rest := by
  cases e with
  | act v a =>
    obtain ⟨r, hr, rfl⟩ := Option.map_eq_some_iff.mp h
    exact Or.inl ⟨v, a, r, rfl, hr, rfl⟩
  | deliver i =>
    obtain ⟨p, hp, rfl⟩ := Option.map_eq_some_iff.mp h
    obtain ⟨hi, rfl⟩ := List.getElem?_eq_some_iff.mp hp
    exact Or.inr ⟨i, _, _, rfl, (List.getElem_cons_eraseIdx_perm hi).symm, rfl⟩

/-! ## Who has what -/

/-- Every message has a key, or none. What a node has grows by the keys of the messages
that it sends or receives, and it relays a message of the same key unless it had the key.
This may depend on what holds of the nodes, of the messages, and of what the nodes do by
themselves. -/
structure Marks (F : Flood V S M E) (C : V → E → Prop) (Inv : V → S → Prop) (P : M → Prop)
    (key : M → Option K) (has : S → K → Prop) : Prop where
  act : ∀ {v s e r}, C v e → Inv v s → F.act v s e = some r →
    Inv v r.1 ∧ (∀ m ∈ r.2, P m) ∧ ∀ k, has r.1 k ↔ has s k ∨ ∃ m ∈ r.2, key m = some k
  receive : ∀ {v s m}, Inv v s → P m →
    Inv v (F.receive v s m).1 ∧ ∀ k, has (F.receive v s m).1 k ↔ has s k ∨ key m = some k
  relayed : ∀ {v s m m'}, Inv v s → P m → (F.receive v s m).2 = some m' → P m' ∧ key m' = key m
  dropped : ∀ {v s m k}, Inv v s → P m → (F.receive v s m).2 = none → key m = some k → has s k

/-- Whatever a node has, each neighbour has or is going to receive. -/
structure Spreads (F : Flood V S M E) (Inv : V → S → Prop) (P : M → Prop) (key : M → Option K)
    (has : S → K → Prop) (s : Network V S M) : Prop where
  inv : ∀ v, Inv v (s.nodes v)
  messages : ∀ p ∈ s.packets, P p.msg
  sources : ∀ p ∈ s.packets, ∀ k, key p.msg = some k → has (s.nodes p.src) k
  edges : ∀ v, ∀ w ∈ F.neighbours v, ∀ k, has (s.nodes v) k →
    has (s.nodes w) k ∨ ∃ p ∈ s.packets, p.dst = w ∧ key p.msg = some k

variable {C : V → E → Prop} {Inv : V → S → Prop} {P : M → Prop} {key : M → Option K}
  {has : S → K → Prop}

omit [DecidableEq V] in
/-- Where nobody has anything, and nothing is on its way. -/
theorem Spreads.start {nodes : V → S} (hinv : ∀ v, Inv v (nodes v))
    (hnone : ∀ v k, ¬ has (nodes v) k) : Spreads F Inv P key has ⟨nodes, []⟩ where
  inv := hinv
  messages p hp := by cases hp
  sources p hp := by cases hp
  edges v w _ k hk := absurd hk (hnone v k)

/-- What is in a list that is made of a value, if there is one. -/
theorem mem_elim_nil {α β : Type*} {o : Option α} {f : α → List β} {b : β} :
    b ∈ o.elim [] f ↔ ∃ a, o = some a ∧ b ∈ f a := by
  cases o <;> simp

/-- A node that changed has all that it had. -/
theorem has_put {s : Network V S M} {v : V} {t : S}
    (hgrows : ∀ k, has (s.nodes v) k → has t k) (packets : List (Packet V M)) {w : V} {k : K}
    (hk : has (s.nodes w) k) : has ((s.put v t packets).nodes w) k := by
  by_cases hw : w = v
  · subst hw
    rw [Network.nodes_put_self]
    exact hgrows k hk
  · rwa [Network.nodes_put_of_ne _ _ _ _ hw]

/-- What holds of all nodes holds of them when one changes to a node of which it holds. -/
theorem inv_put {s : Network V S M} {v : V} {t : S} (hinv : ∀ v, Inv v (s.nodes v))
    (ht : Inv v t) (packets : List (Packet V M)) (w : V) :
    Inv w ((s.put v t packets).nodes w) := by
  by_cases hw : w = v
  · subst hw
    rwa [Network.nodes_put_self]
  · rw [Network.nodes_put_of_ne _ _ _ _ hw]
    exact hinv w

/-- What a node does by itself keeps it so that everything spreads. -/
theorem Spreads.act (hF : Marks F C Inv P key has) {s : Network V S M} {v : V} {a : E}
    {r : S × List M} (h : Spreads F Inv P key has s) (hC : C v a)
    (hr : F.act v (s.nodes v) a = some r) :
    Spreads F Inv P key has (s.put v r.1 (s.packets ++ r.2.flatMap (F.send v))) := by
  obtain ⟨hinv, hout, hgrows⟩ := hF.act hC (h.inv v) hr
  have hkeeps : ∀ k, has (s.nodes v) k → has r.1 k := fun k hk => (hgrows k).mpr (Or.inl hk)
  refine ⟨inv_put h.inv hinv _, ?_, ?_, ?_⟩
  · intro p hp
    rcases List.mem_append.mp hp with hp | hp
    · exact h.messages p hp
    · obtain ⟨m, hm, hp⟩ := List.mem_flatMap.mp hp
      rw [(mem_send.mp hp).2.2]
      exact hout m hm
  · intro p hp k hk
    rcases List.mem_append.mp hp with hp | hp
    · exact has_put hkeeps _ (h.sources p hp k hk)
    · obtain ⟨m, hm, hp⟩ := List.mem_flatMap.mp hp
      obtain ⟨hsrc, -, rfl⟩ := mem_send.mp hp
      rw [hsrc, Network.nodes_put_self]
      exact (hgrows k).mpr (Or.inr ⟨_, hm, hk⟩)
  · intro u w hw k hk
    -- what was had before, each neighbour has or is going to receive, as before
    have hold (hk : has (s.nodes u) k) :
        has ((s.put v r.1 (s.packets ++ r.2.flatMap (F.send v))).nodes w) k ∨
          ∃ p ∈ s.packets ++ r.2.flatMap (F.send v), p.dst = w ∧ key p.msg = some k := by
      rcases h.edges u w hw k hk with hk | ⟨p, hp, hpw⟩
      · exact Or.inl (has_put hkeeps _ hk)
      · exact Or.inr ⟨p, List.mem_append_left _ hp, hpw⟩
    by_cases hu : u = v
    · subst hu
      rw [Network.nodes_put_self] at hk
      rcases (hgrows k).mp hk with hk | ⟨m, hm, hk⟩
      · exact hold hk
      · -- what is new was sent to all neighbours
        refine Or.inr ⟨⟨u, w, m⟩, List.mem_append_right _ ?_, rfl, hk⟩
        exact List.mem_flatMap.mpr ⟨m, hm, mem_send.mpr ⟨rfl, hw, rfl⟩⟩
    · rw [Network.nodes_put_of_ne _ _ _ _ hu] at hk
      exact hold hk

/-- So does a message that arrives. -/
theorem Spreads.arrive (hF : Marks F C Inv P key has) {s : Network V S M} {p : Packet V M}
    {rest : List (Packet V M)} (h : Spreads F Inv P key has s)
    (hp : s.packets.Perm (p :: rest)) : Spreads F Inv P key has (F.arrive s p rest) := by
  have hmem : ∀ {q}, q ∈ s.packets ↔ q = p ∨ q ∈ rest := fun {q} => by
    rw [hp.mem_iff, List.mem_cons]
  have hP : P p.msg := h.messages p (hmem.mpr (Or.inl rfl))
  have hsrc := h.sources p (hmem.mpr (Or.inl rfl))
  obtain ⟨hinv, hgrows⟩ := hF.receive (h.inv p.dst) hP
  have hkeeps : ∀ k, has (s.nodes p.dst) k → has (F.receive p.dst (s.nodes p.dst) p.msg).1 k :=
    fun k hk => (hgrows k).mpr (Or.inl hk)
  refine ⟨inv_put h.inv hinv _, ?_, ?_, ?_⟩
  · intro q hq
    rcases List.mem_append.mp hq with hq | hq
    · exact h.messages q (hmem.mpr (Or.inr hq))
    · obtain ⟨m', hm', hq⟩ := mem_elim_nil.mp hq
      rw [(mem_relay.mp hq).2.2.2]
      exact (hF.relayed (h.inv _) hP hm').1
  · intro q hq k hk
    rcases List.mem_append.mp hq with hq | hq
    · exact has_put hkeeps _ (h.sources q (hmem.mpr (Or.inr hq)) k hk)
    · obtain ⟨m', hm', hq⟩ := mem_elim_nil.mp hq
      obtain ⟨hqsrc, -, -, hmsg⟩ := mem_relay.mp hq
      rw [hmsg, (hF.relayed (h.inv _) hP hm').2] at hk
      rw [hqsrc, Flood.arrive, Network.nodes_put_self]
      exact (hgrows k).mpr (Or.inr hk)
  · intro u w hw k hk
    have hold (hk : has (s.nodes u) k) : has ((F.arrive s p rest).nodes w) k ∨
        ∃ q ∈ (F.arrive s p rest).packets, q.dst = w ∧ key q.msg = some k := by
      rcases h.edges u w hw k hk with hk | ⟨q, hq, hqw, hqk⟩
      · exact Or.inl (has_put hkeeps _ hk)
      · rcases hmem.mp hq with rfl | hq
        · -- this was the message that was to arrive
          rw [← hqw, Flood.arrive, Network.nodes_put_self]
          exact Or.inl ((hgrows k).mpr (Or.inr hqk))
        · exact Or.inr ⟨q, List.mem_append_left _ hq, hqw, hqk⟩
    by_cases hu : u = p.dst
    · subst hu
      rw [Flood.arrive, Network.nodes_put_self] at hk
      rcases (hgrows k).mp hk with hk | hk
      · exact hold hk
      · cases hrelays : (F.receive p.dst (s.nodes p.dst) p.msg).2 with
        | none => exact hold (hF.dropped (h.inv _) hP hrelays hk)
        | some m' =>
          by_cases hwp : w = p.src
          · -- who sent it has it
            rw [hwp]
            exact Or.inl (has_put hkeeps _ (hsrc k hk))
          · have hkey := (hF.relayed (h.inv _) hP hrelays).2.trans hk
            refine Or.inr ⟨⟨p.dst, w, m'⟩, List.mem_append_right _ ?_, rfl, hkey⟩
            exact mem_elim_nil.mpr ⟨m', hrelays, mem_relay.mpr ⟨rfl, hw, hwp, rfl⟩⟩
    · rw [Flood.arrive, Network.nodes_put_of_ne _ _ _ _ hu] at hk
      exact hold hk

variable (Inv) in
/-- What a step keeps at the node at which it happens holds of all nodes after it. -/
theorem inv_of_step {s s' : Network V S M} {e : NetworkEvent V E} (h : ∀ v, Inv v (s.nodes v))
    (hact : ∀ v a r, e = .act v a → F.act v (s.nodes v) a = some r → Inv v r.1)
    (hreceive : ∀ p ∈ s.packets, Inv p.dst (F.receive p.dst (s.nodes p.dst) p.msg).1)
    (hs' : F.step s e = some s') (v : V) : Inv v (s'.nodes v) := by
  rcases step_cases hs' with ⟨u, a, r, he, hr, rfl⟩ | ⟨i, p, rest, -, hp, rfl⟩
  · exact inv_put h (hact u a r he hr) _ v
  · exact inv_put h (hreceive p (hp.mem_iff.mpr List.mem_cons_self)) _ v

/-- What the nodes do by themselves meets the condition. -/
def Acts (C : V → E → Prop) (es : List (NetworkEvent V E)) : Prop :=
  ∀ v e, .act v e ∈ es → C v e

/-- So does every step. -/
theorem Spreads.step (hF : Marks F C Inv P key has) {s s' : Network V S M}
    {e : NetworkEvent V E} (h : Spreads F Inv P key has s) (hC : ∀ v a, e = .act v a → C v a)
    (hs' : F.step s e = some s') : Spreads F Inv P key has s' := by
  rcases step_cases hs' with ⟨v, a, r, he, hr, rfl⟩ | ⟨i, p, rest, -, hp, rfl⟩
  · exact h.act hF (hC v a he) hr
  · exact h.arrive hF hp

/-- And so does a run. -/
theorem Spreads.run (hF : Marks F C Inv P key has) {s t : Network V S M}
    {es : List (NetworkEvent V E)} (h : Spreads F Inv P key has s) (hC : Acts C es)
    (ht : run F.step s es = some t) : Spreads F Inv P key has t := by
  have halong : AlongRun F.step (fun _ e => ∀ v a, e = .act v a → C v a) s es :=
    .of_forall fun e he _ v a hea => hC v a (hea ▸ he)
  exact run_invariant (fun _ _ _ hs hC hs' => hs.step hF hC hs') h halong ht

/-- A node has what it had before. -/
theorem Spreads.has_of_run (hF : Marks F C Inv P key has) {s t : Network V S M}
    {es : List (NetworkEvent V E)} (h : Spreads F Inv P key has s) (hC : Acts C es)
    (ht : Lib.run F.step s es = some t) {v : V} {k : K} (hk : has (s.nodes v) k) :
    has (t.nodes v) k := by
  induction es generalizing s with
  | nil =>
    cases Option.some.inj ht
    exact hk
  | cons e es ih =>
    obtain ⟨s', hs', ht⟩ := run_cons_eq_some.mp ht
    have hfirst : ∀ v a, e = .act v a → C v a := fun v a he => hC v a (he ▸ List.mem_cons_self)
    refine ih (h.step hF hfirst hs') (fun v a ha => hC v a (List.mem_cons_of_mem _ ha)) ht ?_
    rcases step_cases hs' with ⟨u, a, r, he, hr, rfl⟩ | ⟨i, p, rest, -, hp, rfl⟩
    · obtain ⟨-, -, hgrows⟩ := hF.act (hfirst u a he) (h.inv u) hr
      exact has_put (fun k hk => (hgrows k).mpr (Or.inl hk)) _ hk
    · have hP := h.messages p (hp.mem_iff.mpr List.mem_cons_self)
      obtain ⟨-, hgrows⟩ := hF.receive (h.inv p.dst) hP
      exact has_put (fun k hk => (hgrows k).mpr (Or.inl hk)) _ hk

/-- A node has what an event of the run gave to it. -/
theorem Spreads.has_of_act (hF : Marks F C Inv P key has) {s t : Network V S M}
    {es : List (NetworkEvent V E)} (h : Spreads F Inv P key has s) (hC : Acts C es)
    (ht : Lib.run F.step s es = some t) {v : V} {a : E} (ha : .act v a ∈ es) {k : K}
    (hgives : ∀ s r, Inv v s → F.act v s a = some r → has r.1 k) : has (t.nodes v) k := by
  obtain ⟨before, after, rfl⟩ := List.append_of_mem ha
  rw [run_append] at ht
  obtain ⟨s₁, hs₁, ht⟩ := Option.bind_eq_some_iff.mp ht
  obtain ⟨s₂, hs₂, ht⟩ := run_cons_eq_some.mp ht
  have h₁ := h.run hF (fun u b hb => hC u b (List.mem_append_left _ hb)) hs₁
  have h₂ := h₁.step hF (fun u b hb => hC u b (hb ▸ ha)) hs₂
  refine h₂.has_of_run hF (fun u b hb => hC u b ?_) ht ?_
  · exact List.mem_append_right _ (List.mem_cons_of_mem _ hb)
  · obtain ⟨r, hr, rfl⟩ := Option.map_eq_some_iff.mp hs₂
    rw [Network.nodes_put_self]
    exact hgives _ r (h₁.inv v) hr

omit [DecidableEq V] in
/-- **Flooding.** When nothing is on its way, everyone has what a node has from which it
can be reached. -/
theorem Spreads.has_of_rest {s : Network V S M} (h : Spreads F Inv P key has s)
    (hrest : s.packets = []) {v w : V}
    (hvw : Relation.ReflTransGen (fun v w => w ∈ F.neighbours v) v w) {k : K}
    (hk : has (s.nodes v) k) : has (s.nodes w) k := by
  induction hvw with
  | refl => exact hk
  | tail _ hedge ih =>
    rcases h.edges _ _ hedge k ih with hk | ⟨p, hp, -⟩
    · exact hk
    · rw [hrest] at hp
      cases hp

/-! ## How many deliveries there can be -/

/-- A node sends or relays for one of these keys, which it did not know, and knows from
then on. What it does by itself may cost some messages more. -/
structure RelaysOnce [DecidableEq K] (F : Flood V S M E) (C : V → E → Prop) (Inv : V → S → Prop)
    (P : M → Prop) (known : S → Finset K) (keys : Finset K) (cost : E → ℕ) : Prop where
  act : ∀ {v s e r}, C v e → Inv v s → F.act v s e = some r →
    r.2.length + (keys \ known r.1).card ≤ (keys \ known s).card + cost e
  grows : ∀ {v s m}, Inv v s → P m → known s ⊆ known (F.receive v s m).1
  relays : ∀ {v s m m'}, Inv v s → P m → (F.receive v s m).2 = some m' →
    ∃ k ∈ keys, k ∉ known s ∧ k ∈ known (F.receive v s m).1

/-- What the events of a node cost. -/
def costOf (F : Flood V S M E) (cost : E → ℕ) : NetworkEvent V E → ℕ
  | .act v e => (F.neighbours v).length * cost e
  | .deliver _ => 0

/-- As many messages are relayed as there are neighbours, at most. -/
theorem length_relay_le (v exclude : V) (m : M) :
    (F.relay v exclude m).length ≤ (F.neighbours v).length := by
  rw [relay, List.length_map]
  exact List.length_filter_le _ _

/-- A new key is one less that is not known. -/
theorem card_sdiff_lt [DecidableEq K] {keys known known' : Finset K} {k : K}
    (hgrows : known ⊆ known') (hk : k ∈ keys) (hnew : k ∉ known) (hknown : k ∈ known') :
    (keys \ known').card < (keys \ known).card := by
  have hsub : keys \ known' ⊆ keys \ known :=
    Finset.sdiff_subset_sdiff (Finset.Subset.refl _) hgrows
  refine Finset.card_lt_card (Finset.ssubset_iff_subset_ne.mpr ⟨hsub, fun heq => ?_⟩)
  have hmem : k ∈ keys \ known' := heq ▸ Finset.mem_sdiff.mpr ⟨hk, hnew⟩
  exact (Finset.mem_sdiff.mp hmem).2 hknown

variable [Fintype V] [DecidableEq K] {known : S → Finset K} {keys : Finset K} {cost : E → ℕ}

/-- The messages on their way, and those that the nodes may still send or relay. -/
def load (F : Flood V S M E) (known : S → Finset K) (keys : Finset K) (s : Network V S M) : ℕ :=
  s.packets.length + ∑ v, (F.neighbours v).length * (keys \ known (s.nodes v)).card

/-- Only what is on its way and the node that changes count for the change of the load. -/
theorem load_put (F : Flood V S M E) (known : S → Finset K) (keys : Finset K)
    (s : Network V S M) (v : V) (t : S) (packets : List (Packet V M)) :
    F.load known keys (s.put v t packets) + s.packets.length +
        (F.neighbours v).length * (keys \ known (s.nodes v)).card =
      F.load known keys s + packets.length +
        (F.neighbours v).length * (keys \ known t).card := by
  have hothers : ∑ w ∈ Finset.univ.erase v, (F.neighbours w).length *
      (keys \ known ((s.put v t packets).nodes w)).card =
      ∑ w ∈ Finset.univ.erase v, (F.neighbours w).length * (keys \ known (s.nodes w)).card := by
    refine Finset.sum_congr rfl fun w hw => ?_
    rw [Network.nodes_put_of_ne _ _ _ _ (Finset.ne_of_mem_erase hw)]
  rw [load, load, ← Finset.add_sum_erase _ _ (Finset.mem_univ v),
    ← Finset.add_sum_erase _ _ (Finset.mem_univ v), hothers, Network.nodes_put_self,
    Network.packets_put]
  omega

/-- What a node sends is paid for by the keys that it gets to know, or costs. -/
theorem load_act_le (hF : RelaysOnce F C Inv P known keys cost) {s : Network V S M} {v : V} {a : E}
    {r : S × List M} (hC : C v a) (hinv : Inv v (s.nodes v))
    (hr : F.act v (s.nodes v) a = some r) :
    F.load known keys (s.put v r.1 (s.packets ++ r.2.flatMap (F.send v))) ≤
      F.load known keys s + (F.neighbours v).length * cost a := by
  have hput := load_put F known keys s v r.1 (s.packets ++ r.2.flatMap (F.send v))
  have hsent : (r.2.flatMap (F.send v)).length = (F.neighbours v).length * r.2.length := by
    rw [List.length_flatMap, Nat.mul_comm]
    simp [send]
  have hpaid := Nat.mul_le_mul_left (F.neighbours v).length (hF.act hC hinv hr)
  rw [Nat.mul_add, Nat.mul_add] at hpaid
  rw [List.length_append, hsent] at hput
  omega

/-- What a node relays is paid for by the key that it gets to know. -/
theorem load_arrive_lt (hF : RelaysOnce F C Inv P known keys cost) {s : Network V S M}
    {p : Packet V M} {rest : List (Packet V M)} (hinv : Inv p.dst (s.nodes p.dst)) (hP : P p.msg)
    (hp : s.packets.Perm (p :: rest)) :
    F.load known keys (F.arrive s p rest) < F.load known keys s := by
  set r := F.receive p.dst (s.nodes p.dst) p.msg with hr
  have hlength : s.packets.length = rest.length + 1 := by rw [hp.length_eq, List.length_cons]
  have hput := load_put F known keys s p.dst r.1
    (rest ++ r.2.elim [] (F.relay p.dst p.src))
  have hgrows : keys \ known r.1 ⊆ keys \ known (s.nodes p.dst) :=
    Finset.sdiff_subset_sdiff (Finset.Subset.refl _) (hF.grows hinv hP)
  have hpaid : (r.2.elim [] (F.relay p.dst p.src)).length +
      (F.neighbours p.dst).length * (keys \ known r.1).card ≤
        (F.neighbours p.dst).length * (keys \ known (s.nodes p.dst)).card := by
    cases hrelays : r.2 with
    | none => simpa using Nat.mul_le_mul_left _ (Finset.card_le_card hgrows)
    | some m' =>
      obtain ⟨k, hk, hnew, hknown⟩ := hF.relays hinv hP hrelays
      have hlt := card_sdiff_lt (hF.grows hinv hP) hk hnew hknown
      calc (F.relay p.dst p.src m').length +
            (F.neighbours p.dst).length * (keys \ known r.1).card
          ≤ (F.neighbours p.dst).length + (F.neighbours p.dst).length * (keys \ known r.1).card :=
            Nat.add_le_add_right (length_relay_le ..) _
        _ = (F.neighbours p.dst).length * ((keys \ known r.1).card + 1) := by
            rw [Nat.mul_succ, Nat.add_comm]
        _ ≤ (F.neighbours p.dst).length * (keys \ known (s.nodes p.dst)).card :=
            Nat.mul_le_mul_left _ hlt
  rw [List.length_append] at hput
  rw [arrive, ← hr]
  omega

/-- **No storms.** The number of messages that arrive in a run is bounded by the load at
its start, and by what its events cost. -/
theorem Spreads.deliveries_le {key : M → Option K} {has : S → K → Prop}
    (hF : Marks F C Inv P key has) (hR : RelaysOnce F C Inv P known keys cost)
    {s t : Network V S M} (h : Spreads F Inv P key has s) {es : List (NetworkEvent V E)}
    (hC : Acts C es) (ht : Lib.run F.step s es = some t) :
    es.countP NetworkEvent.isDeliver + F.load known keys t ≤
      F.load known keys s + (es.map (F.costOf cost)).sum := by
  induction es generalizing s with
  | nil =>
    cases Option.some.inj ht
    simp
  | cons e es ih =>
    obtain ⟨s', hs', ht⟩ := run_cons_eq_some.mp ht
    have hfirst : ∀ v a, e = .act v a → C v a := fun v a he => hC v a (he ▸ List.mem_cons_self)
    have hrest := ih (h.step hF hfirst hs') (fun v a ha => hC v a (List.mem_cons_of_mem _ ha)) ht
    rw [List.map_cons, List.sum_cons]
    rcases step_cases hs' with ⟨v, a, r, rfl, hr, rfl⟩ | ⟨i, p, rest, rfl, hp, rfl⟩
    · have hle := load_act_le hR (hfirst v a rfl) (h.inv v) hr
      rw [List.countP_cons_of_neg (by simp [NetworkEvent.isDeliver]), costOf]
      omega
    · have hmem : p ∈ s.packets := hp.mem_iff.mpr List.mem_cons_self
      have hlt := load_arrive_lt hR (h.inv p.dst) (h.messages p hmem) hp
      rw [List.countP_cons_of_pos rfl, costOf]
      omega

/-- The messages on their way can all be delivered, with what is relayed of them. -/
theorem Spreads.exists_rest {key : M → Option K} {has : S → K → Prop}
    (hF : Marks F C Inv P key has) (hR : RelaysOnce F C Inv P known keys cost)
    {s : Network V S M} (h : Spreads F Inv P key has s) :
    ∃ (is : List ℕ) (t : _), Lib.run F.step s (is.map NetworkEvent.deliver) = some t ∧
      t.packets = [] := by
  induction hload : F.load known keys s using Nat.strong_induction_on generalizing s with
  | _ n ih =>
    by_cases hnil : s.packets = []
    · exact ⟨[], s, rfl, hnil⟩
    · obtain ⟨p, rest, hcons⟩ := List.exists_cons_of_ne_nil hnil
      have hs' : F.step s (.deliver 0) = some (F.arrive s p rest) := by
        rw [Flood.step, hcons]
        rfl
      have hmem : p ∈ s.packets := hcons ▸ List.mem_cons_self
      have hlt := load_arrive_lt hR (h.inv p.dst) (h.messages p hmem) (.of_eq hcons)
      have hstep := h.step hF (fun v a he => by cases he) hs'
      obtain ⟨is, t, ht, hrest⟩ := ih _ (hload ▸ hlt) hstep rfl
      exact ⟨0 :: is, t, run_cons_eq_some.mpr ⟨_, hs', ht⟩, hrest⟩

end Flood

/-! ## Messages in another form -/

/-- The same packet, with its message in another form. -/
def Packet.map {V M M' : Type*} (f : M → M') (p : Packet V M) : Packet V M' :=
  ⟨p.src, p.dst, f p.msg⟩

namespace Network

variable {V S M M' : Type*} (f : M → M')

/-- The same network, with the messages in another form. -/
def mapMessages (s : Network V S M) : Network V S M' :=
  ⟨s.nodes, s.packets.map (Packet.map f)⟩

/-- Mapping the messages leaves the nodes. -/
@[simp] theorem nodes_mapMessages (s : Network V S M) : (s.mapMessages f).nodes = s.nodes := rfl

/-- Nothing is on its way exactly when nothing was. -/
theorem packets_mapMessages_eq_nil {s : Network V S M} :
    (s.mapMessages f).packets = [] ↔ s.packets = [] := List.map_eq_nil_iff

end Network

namespace Flood

variable {V S M M' E : Type*} [DecidableEq V] {F : Flood V S M E} {F' : Flood V S M' E}
  {C : V → E → Prop} {P : M → Prop} {f : M → M'}

/-- The nodes of the second flood do what those of the first do, and send the messages in
another form, in which they are understood when they are of some kind. -/
structure Carries (F : Flood V S M E) (F' : Flood V S M' E) (C : V → E → Prop) (P : M → Prop)
    (f : M → M') : Prop where
  neighbours : F'.neighbours = F.neighbours
  act : ∀ v s e, F'.act v s e = (F.act v s e).map fun r => (r.1, r.2.map f)
  receive : ∀ v s m, P m →
    F'.receive v s (f m) = ((F.receive v s m).1, (F.receive v s m).2.map f)
  sent : ∀ {v s e r}, C v e → F.act v s e = some r → ∀ m ∈ r.2, P m
  relayed : ∀ {v s m m'}, P m → (F.receive v s m).2 = some m' → P m'

omit [DecidableEq V] in
/-- Messages that are sent, in the other form. -/
theorem Carries.send_eq (h : Carries F F' C P f) (v : V) (m : M) :
    F'.send v (f m) = (F.send v m).map (Packet.map f) := by
  rw [send, send, h.neighbours, List.map_map]
  rfl

/-- Messages that are relayed, in the other form. -/
theorem Carries.relay_eq (h : Carries F F' C P f) (v exclude : V) (m : M) :
    F'.relay v exclude (f m) =
      (F.relay v exclude m).map (Packet.map f) := by
  rw [relay, relay, h.neighbours, List.map_map]
  rfl

/-- A step in the other form. -/
theorem Carries.step_eq (h : Carries F F' C P f) {s : Network V S M}
    (hs : ∀ p ∈ s.packets, P p.msg) (e : NetworkEvent V E) :
    F'.step (s.mapMessages f) e = (F.step s e).map (Network.mapMessages f) := by
  cases e with
  | act v a =>
    have hsent (ms : List M) : (ms.map f).flatMap (F'.send v) =
        (ms.flatMap (F.send v)).map (Packet.map f) := by
      simp only [List.flatMap_map, List.map_flatMap, h.send_eq]
    rw [step, step, Network.nodes_mapMessages, h.act, Option.map_map, Option.map_map]
    refine Option.map_congr fun r _ => ?_
    simp only [Function.comp_apply, hsent, Network.put, Network.mapMessages, List.map_append]
  | deliver i =>
    cases hp : s.packets[i]? with
    | none => simp [step, Network.mapMessages, hp]
    | some p =>
      have hP : P p.msg := hs p (List.mem_of_getElem? hp)
      have hrelay (o : Option M) : (o.map f).elim [] (F'.relay p.dst p.src) =
          (o.elim [] (F.relay p.dst p.src)).map (Packet.map f) := by
        cases o with
        | none => rfl
        | some m => exact h.relay_eq ..
      simp only [step, Network.mapMessages, List.getElem?_map, hp, Option.map_some, arrive,
        Packet.map, h.receive _ _ _ hP, List.eraseIdx_map, Network.put, List.map_append]
      rw [hrelay]

/-- Messages stay of the kind that is understood. -/
theorem Carries.messages_step (h : Carries F F' C P f) {s s' : Network V S M}
    (hs : ∀ p ∈ s.packets, P p.msg) {e : NetworkEvent V E} (hC : ∀ v a, e = .act v a → C v a)
    (hs' : F.step s e = some s') : ∀ p ∈ s'.packets, P p.msg := by
  rcases step_cases hs' with ⟨v, a, r, he, hr, rfl⟩ | ⟨i, p, rest, -, hp, rfl⟩
  · intro q hq
    rcases List.mem_append.mp hq with hq | hq
    · exact hs q hq
    · obtain ⟨m, hm, hq⟩ := List.mem_flatMap.mp hq
      rw [(mem_send.mp hq).2.2]
      exact h.sent (hC v a he) hr m hm
  · intro q hq
    rcases List.mem_append.mp hq with hq | hq
    · exact hs q (hp.mem_iff.mpr (List.mem_cons_of_mem _ hq))
    · obtain ⟨m, hm, hq⟩ := mem_elim_nil.mp hq
      rw [(mem_relay.mp hq).2.2.2]
      exact h.relayed (hs p (hp.mem_iff.mpr List.mem_cons_self)) hm

/-- **Simulation.** The runs of the second flood are those of the first, with the messages in
the other form. -/
theorem Carries.run_eq (h : Carries F F' C P f) {s : Network V S M}
    (hs : ∀ p ∈ s.packets, P p.msg) {es : List (NetworkEvent V E)} (hC : Acts C es) :
    run F'.step (s.mapMessages f) es = (run F.step s es).map (Network.mapMessages f) := by
  induction es generalizing s with
  | nil => rfl
  | cons e es ih =>
    rw [run, run, h.step_eq hs]
    cases hs' : F.step s e with
    | none => rfl
    | some s' =>
      have hfirst : ∀ v a, e = .act v a → C v a := fun v a he => hC v a (he ▸ List.mem_cons_self)
      exact ih (h.messages_step hs hfirst hs') fun v a ha => hC v a (List.mem_cons_of_mem _ ha)

end Flood

end AcCore.Lib
