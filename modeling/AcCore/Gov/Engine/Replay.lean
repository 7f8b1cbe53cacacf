import AcCore.Gov.Engine.Outsiders
import AcCore.Lib.Run

/-!
# Messages of earlier cycles

Neither a contribution nor a vote says for which cycle it was signed, and what
keeps a node from taking one twice, the contributors of the pool and the vote
table, is new in every cycle. This file determines when a contribution is
merged into one diff only, and when no vote of an earlier cycle is counted: it
suffices that nothing is delivered again in another cycle before its signer is
in the pool, or in the table.
-/

namespace AcCore.Gov.Engine

open Lib

variable {PubKey : Type}

/-- A node, with the contributions that it merged and the votes of others that
it recorded so far, and the diff and the cycle in which it did; the diff and
the cycle at work are counted by the diffs that were formed and the tips that
were selected. -/
structure Chronicle (PubKey : Type) where
  node : Daemon
  merged : List (ℕ × LocalDeltas PubKey)
  recorded : List (ℕ × Text)

namespace Daemon

variable (σ : Setting PubKey)

/-- The contribution that an event merges into the pool. -/
def merges (s : Daemon) : DaemonEvent PubKey → Option (LocalDeltas PubKey)
  | .localDeltas g =>
    if g.verify σ.ec σ.fmt = true ∧ (s.pool.allow σ.ec g).2 = true then some g else none
  | .stage3 =>
    let g := (s.createLocalDeltas σ).1
    if s.auth.isNode = true ∧ s.head = s.tail ∧ (s.pool.allow σ.ec g).2 = true then some g
    else none
  | _ => none

/-- The vote of another node that an event enters into the vote table. -/
def records (s : Daemon) : DaemonEvent PubKey → Option Text
  | .voteTip t => if (ballot σ.ec t).any (fun b => decide (b.1 ∉ s.votes)) then some t else none
  | _ => none

variable {σ}

/-- A contribution that is merged goes into the pool. -/
theorem pool_of_merges {s s' : Daemon} {e : DaemonEvent PubKey} {g : LocalDeltas PubKey}
    (h : s.step σ e = some s') (hg : s.merges σ e = some g) :
    s'.pool = (s.pool.allow σ.ec g).1.merge σ.ec σ.ripemd g := by
  have hadd : ∀ {d d' : Diff}, d.add σ.ec σ.ripemd g = some d' → d' = d.merge σ.ec σ.ripemd g := by
    intro d d' hd
    obtain ⟨_, _, rfl⟩ := Option.map_eq_some_iff.mp hd
    rfl
  cases e with
  | localDeltas g' =>
    simp only [merges, Option.ite_none_right_eq_some, Option.some.injEq] at hg
    obtain ⟨⟨hverify, hallowed⟩, rfl⟩ := hg
    simp only [step, processIncomingLocalDeltas, hverify, hallowed, if_true,
      Option.map_eq_some_iff] at h
    obtain ⟨pool, hpool, rfl⟩ := h
    exact hadd hpool
  | stage3 =>
    simp only [merges, Option.ite_none_right_eq_some, Option.some.injEq] at hg
    obtain ⟨⟨hnode, hsync, hallowed⟩, rfl⟩ := hg
    simp only [step, stage3, hnode, hsync, Bool.not_true, Bool.false_eq_true, if_false, ne_eq,
      not_true_eq_false, createLocalDeltas, Option.map_eq_some_iff,
      Option.ite_none_right_eq_some] at h hallowed hadd ⊢
    obtain ⟨_, r, hr, rfl⟩ := h
    rw [if_pos hallowed] at hr
    obtain ⟨pool, hpool, rfl⟩ := Option.map_eq_some_iff.mp hr
    exact hadd hpool
  | voteTip t => cases hg
  | basicAuthCompleted key address => cases hg
  | process t => cases hg
  | patchDb d picks drawn => cases hg
  | stage1 => cases hg
  | stage2 picks drawn => cases hg
  | stage4 entries => cases hg

/-- Stage 2 begins a new cycle with an empty vote table. -/
theorem stage2_votes {s s' : Daemon} {picks : List Ripemd160} {drawn : ℕ}
    (h : s.step σ (.stage2 picks drawn) = some s') :
    s'.votes = ∅ ∧ s'.tips.length = s.tips.length + 1 := by
  simp only [step, Option.ite_none_right_eq_some, Option.map_eq_some_iff] at h
  obtain ⟨_, s₁, hs₁, rfl⟩ := h
  obtain ⟨_, _, _, _, _, _, rfl⟩ := stage2_frame hs₁
  exact ⟨rfl, rfl⟩

/-- Within a cycle no vote leaves the table. -/
theorem lookup_votes_of_step {s s' : Daemon} {e : DaemonEvent PubKey}
    (h : s.step σ e = some s') (he : ∀ picks drawn, e ≠ .stage2 picks drawn) :
    s'.tips = s.tips ∧
      ∀ {k v}, s.votes.lookup k = some v → s'.votes.lookup k = some v := by
  have hadd : ∀ {h v k w}, s.votes.lookup k = some w → (s.votes.add h v).1.lookup k = some w := by
    intro h v k w hk
    rw [Votes.lookup_add]
    split
    · rename_i heq
      rw [← heq, hk]
      rfl
    · exact hk
  cases e with
  | voteTip t =>
    cases h
    refine ⟨rfl, fun {k v} hk => ?_⟩
    dsimp only [processVoteTip]
    cases ballot σ.ec t with
    | none => exact hk
    | some b => exact hadd hk
  | localDeltas g =>
    obtain ⟨_, rfl⟩ := processIncomingLocalDeltas_frame h
    exact ⟨rfl, id⟩
  | basicAuthCompleted key address => cases h; exact ⟨rfl, id⟩
  | process t => cases h; exact ⟨rfl, id⟩
  | patchDb d picks drawn =>
    obtain ⟨s₁, hs₁, rfl⟩ := Option.map_eq_some_iff.mp h
    obtain ⟨_, _, _, rfl⟩ := importOrClear_frame hs₁
    exact ⟨rfl, id⟩
  | stage1 =>
    simp only [step, Option.ite_none_right_eq_some, Option.some.injEq] at h
    obtain ⟨_, rfl⟩ := h
    unfold stage1
    split
    · exact ⟨rfl, id⟩
    · split
      · exact ⟨rfl, id⟩
      · exact ⟨rfl, hadd⟩
  | stage2 picks drawn => exact absurd rfl (he picks drawn)
  | stage3 =>
    simp only [step, Option.ite_none_right_eq_some, Option.map_eq_some_iff] at h
    obtain ⟨_, r, hr, rfl⟩ := h
    obtain ⟨_, _, _, hframe⟩ := stage3_frame hr
    rw [hframe]
    exact ⟨rfl, id⟩
  | stage4 entries =>
    simp only [step, Option.ite_none_right_eq_some, Option.map_eq_some_iff] at h
    obtain ⟨_, s₁, hs₁, rfl⟩ := h
    unfold stage4 at hs₁
    split at hs₁
    · cases hs₁
      exact ⟨rfl, id⟩
    · cases hs₁

end Daemon

namespace Chronicle

variable (σ : Setting PubKey)

/-- One event at the node. -/
def step (s : Chronicle PubKey) (e : DaemonEvent PubKey) : Option (Chronicle PubKey) :=
  (s.node.step σ e).map fun node =>
    { node := node
      merged := (s.node.merges σ e).toList.map (fun g => (s.node.formed.length, g)) ++ s.merged
      recorded := (s.node.records σ e).toList.map (fun t => (s.node.tips.length, t)) ++ s.recorded }

/-- No contribution was merged into two diffs. -/
def MergedOnce (s : Chronicle PubKey) : Prop :=
  ∀ {i j g}, (i, g) ∈ s.merged → (j, g) ∈ s.merged → i = j

/-- In the vote table, from which `votes.select()` takes what it counts, there
is no vote that was recorded in an earlier cycle already, unless its signer
votes in the present cycle, as `casts` says. -/
def CountsNoReplay (casts : ℕ → Ripemd160 → Prop) (s : Chronicle PubKey) : Prop :=
  ∀ {t k v m}, ballot σ.ec t = some (k, v) → (s.node.tips.length, t) ∈ s.recorded →
    s.node.votes.lookup k = some v → (m, t) ∈ s.recorded → m < s.node.tips.length →
    casts s.node.tips.length k

/-- Contributions and votes are bound to their cycle. -/
def BoundToCycle (casts : ℕ → Ripemd160 → Prop) (s : Chronicle PubKey) : Prop :=
  s.MergedOnce ∧ s.CountsNoReplay σ casts

/-- The event brings no contribution that the pool would merge although an
earlier diff has it, and no vote that the table would record although it was
recorded in an earlier cycle and its signer does not vote in this one. -/
def NotReplayed (casts : ℕ → Ripemd160 → Prop) (s : Chronicle PubKey) (e : DaemonEvent PubKey) :
    Prop :=
  (∀ g, s.node.merges σ e = some g → ∀ i, (i, g) ∈ s.merged → i = s.node.formed.length) ∧
    ∀ t k v m, s.node.records σ e = some t → ballot σ.ec t = some (k, v) →
      (m, t) ∈ s.recorded → m < s.node.tips.length → casts s.node.tips.length k

/-- What was recorded in this cycle is in the table. -/
structure Faithful (s : Chronicle PubKey) : Prop where
  le : ∀ {m t}, (m, t) ∈ s.recorded → m ≤ s.node.tips.length
  counted : ∀ {t k v}, (s.node.tips.length, t) ∈ s.recorded → ballot σ.ec t = some (k, v) →
    s.node.votes.lookup k = some v

variable {σ}

/-- What an event adds to the chronicle. -/
theorem step_eq_some {s s' : Chronicle PubKey} {e : DaemonEvent PubKey}
    (h : s.step σ e = some s') :
    s.node.step σ e = some s'.node ∧
      (∀ {i g}, (i, g) ∈ s'.merged ↔
        (s.node.merges σ e = some g ∧ i = s.node.formed.length) ∨ (i, g) ∈ s.merged) ∧
      ∀ {m t}, (m, t) ∈ s'.recorded ↔
        (s.node.records σ e = some t ∧ m = s.node.tips.length) ∨ (m, t) ∈ s.recorded := by
  obtain ⟨node, hnode, rfl⟩ := Option.map_eq_some_iff.mp h
  refine ⟨hnode, ?_, ?_⟩
  · intro i g
    simp only [List.mem_append, List.mem_map, Option.mem_toList, Prod.mk.injEq]
    constructor
    · rintro (⟨g', hg', rfl, rfl⟩ | h)
      · exact Or.inl ⟨hg', rfl⟩
      · exact Or.inr h
    · rintro (⟨hg, rfl⟩ | h)
      · exact Or.inl ⟨g, hg, rfl, rfl⟩
      · exact Or.inr h
  · intro m t
    simp only [List.mem_append, List.mem_map, Option.mem_toList, Prod.mk.injEq]
    constructor
    · rintro (⟨t', ht', rfl, rfl⟩ | h)
      · exact Or.inl ⟨ht', rfl⟩
      · exact Or.inr h
    · rintro (⟨ht, rfl⟩ | h)
      · exact Or.inl ⟨t, ht, rfl, rfl⟩
      · exact Or.inr h

/-- Every event keeps the table faithful to what was recorded. -/
theorem Faithful.step {s s' : Chronicle PubKey} {e : DaemonEvent PubKey} (h : s.Faithful σ)
    (hs : s.step σ e = some s') : s'.Faithful σ := by
  obtain ⟨hnode, -, hrecorded⟩ := step_eq_some hs
  by_cases hstage2 : ∃ picks drawn, e = .stage2 picks drawn
  · obtain ⟨picks, drawn, rfl⟩ := hstage2
    obtain ⟨_, hlength⟩ := Daemon.stage2_votes hnode
    have hle : ∀ {m t}, (m, t) ∈ s'.recorded → m ≤ s.node.tips.length := by
      intro m t hm
      rcases hrecorded.mp hm with ⟨hnone, _⟩ | hm
      · cases hnone
      · exact h.le hm
    refine ⟨fun hm => by have := hle hm; omega, fun {t k v} hm _ => ?_⟩
    have := hle hm
    omega
  · obtain ⟨htips, hkept⟩ := Daemon.lookup_votes_of_step hnode
      fun picks drawn he => hstage2 ⟨picks, drawn, he⟩
    refine ⟨fun hm => ?_, fun {t k v} hm hballot => ?_⟩
    · rw [htips]
      rcases hrecorded.mp hm with ⟨_, rfl⟩ | hm
      · exact le_refl _
      · exact h.le hm
    · rw [htips] at hm
      rcases hrecorded.mp hm with ⟨hrecords, _⟩ | hm
      · cases e with
        | voteTip t' =>
          simp only [Daemon.records, Option.ite_none_right_eq_some, Option.some.injEq] at hrecords
          obtain ⟨hnew, rfl⟩ := hrecords
          rw [← Option.some.inj hnode]
          simp only [hballot, Option.any_some, decide_eq_true_eq] at hnew
          have hnone : s.node.votes.lookup k = none := Finmap.lookup_eq_none.mpr hnew
          simp [processVoteTip, hballot, Votes.add, hnone]
        | _ => cases hrecords
      · exact hkept (h.counted hm hballot)

/-- From a state in which contributions and votes are bound to their cycle, an
event leads to such a state exactly when it brings nothing from an earlier
cycle. -/
theorem boundToCycle_step_iff {casts : ℕ → Ripemd160 → Prop} {s s' : Chronicle PubKey}
    {e : DaemonEvent PubKey} (h : s.Faithful σ) (hbound : s.BoundToCycle σ casts)
    (hs : s.step σ e = some s') : s'.BoundToCycle σ casts ↔ s.NotReplayed σ casts e := by
  obtain ⟨hnode, hmerged, hrecorded⟩ := step_eq_some hs
  refine and_congr ⟨fun hs' g hg i hi => ?_, fun hnot i j g hi hj => ?_⟩ ?_
  · exact hs' (hmerged.mpr (Or.inr hi)) (hmerged.mpr (Or.inl ⟨hg, rfl⟩))
  · rcases hmerged.mp hi with ⟨hg, rfl⟩ | hi <;> rcases hmerged.mp hj with ⟨hg', rfl⟩ | hj
    · rfl
    · exact (hnot g hg j hj).symm
    · exact hnot g hg' i hi
    · exact hbound.1 hi hj
  · by_cases hstage2 : ∃ picks drawn, e = .stage2 picks drawn
    · obtain ⟨picks, drawn, rfl⟩ := hstage2
      refine ⟨fun _ _ _ _ _ hnone => (nomatch hnone), fun _ t k v m _ hm _ _ _ => ?_⟩
      -- Nothing is recorded yet in the new cycle.
      obtain ⟨_, hlength⟩ := Daemon.stage2_votes hnode
      rcases hrecorded.mp hm with ⟨hnone, _⟩ | hm
      · cases hnone
      · have := h.le hm
        omega
    · obtain ⟨htips, hkept⟩ := Daemon.lookup_votes_of_step hnode
        fun picks drawn he => hstage2 ⟨picks, drawn, he⟩
      constructor
      · intro hs' t k v m hrecords hballot hm hlt
        have hnow : (s'.node.tips.length, t) ∈ s'.recorded :=
          hrecorded.mpr (Or.inl ⟨hrecords, by rw [htips]⟩)
        have hcasts := hs' hballot hnow ((h.step hs).counted hnow hballot)
          (hrecorded.mpr (Or.inr hm)) (by rwa [htips])
        rwa [htips] at hcasts
      · intro hnot t k v m hballot hnow hlookup hm hlt
        rw [htips] at hnow hlt ⊢
        have hold : (m, t) ∈ s.recorded := by
          rcases hrecorded.mp hm with ⟨_, rfl⟩ | hm
          · exact absurd hlt (lt_irrefl _)
          · exact hm
        rcases hrecorded.mp hnow with ⟨hrecords, _⟩ | hnow
        · exact hnot t k v m hrecords hballot hold hlt
        · exact hbound.2 hballot hnow (h.counted hnow hballot) hold hlt

end Chronicle

namespace Chronicle

/-- In all states of a run contributions and votes are bound to their cycle exactly when no
event of the run brings what was merged or recorded in an earlier one. -/
theorem boundToCycle_iff_alongRun (σ : Setting PubKey) (casts : ℕ → Ripemd160 → Prop) {s₀ : Daemon}
    {s : Chronicle PubKey} {es : List (DaemonEvent PubKey)}
    (h : run (Chronicle.step σ) ⟨s₀, [], []⟩ es = some s) :
    (∀ es' u, es' <+: es → run (Chronicle.step σ) ⟨s₀, [], []⟩ es' = some u →
      u.BoundToCycle σ casts) ↔
      AlongRun (Chronicle.step σ) (fun s e => s.NotReplayed σ casts e) ⟨s₀, [], []⟩ es := by
  have hfaithful : Faithful σ (⟨s₀, [], []⟩ : Chronicle PubKey) :=
    ⟨fun hm => (nomatch hm), fun hm => (nomatch hm)⟩
  have hbound : BoundToCycle σ casts (⟨s₀, [], []⟩ : Chronicle PubKey) :=
    ⟨fun hm => (nomatch hm), fun _ hm => (nomatch hm)⟩
  exact safe_iff_alongRun (fun _ _ _ h hs => Faithful.step h hs)
    (fun _ _ _ h hbound hs => boundToCycle_step_iff h hbound hs) hfaithful hbound h

end Chronicle

/-! ## Deliveries -/

namespace Daemon

/-- The contribution that an event brings, whether the pool takes it or not: a correctly signed
one that arrives, or at stage 3 that of the node. -/
def brings (σ : Setting PubKey) (s : Daemon) : DaemonEvent PubKey → Option (LocalDeltas PubKey)
  | .localDeltas g => if g.verify σ.ec σ.fmt = true then some g else none
  | .stage3 =>
    if s.auth.isNode = true ∧ s.head = s.tail then some (s.createLocalDeltas σ).1 else none
  | _ => none

/-- At an event before, and the state in which it happened. -/
def Earlier (σ : Setting PubKey) (s₀ : Daemon) (before : List (DaemonEvent PubKey))
    (P : Daemon → DaemonEvent PubKey → Prop) : Prop :=
  ∃ pre e post s, before = pre ++ e :: post ∧ run (step σ) s₀ pre = some s ∧ P s e

/-- Nothing is delivered again in another cycle: no contribution that came before the last diff
was formed comes again while the pool has no entry of its key, and no vote that came before the
last tip was selected comes again while the table has no entry of its key, in a cycle in which
its signer does not vote. -/
structure NotDeliveredAgain (σ : Setting PubKey) (casts : ℕ → Ripemd160 → Prop) (s₀ : Daemon)
    (es : List (DaemonEvent PubKey)) : Prop where
  contributions : ∀ pre e post s g, es = pre ++ e :: post → run (step σ) s₀ pre = some s →
    s.brings σ e = some g → s.pool.proofOfWork.lookup (σ.ec.hash g.pubkey) = none →
    ¬ Earlier σ s₀ pre fun s' e' => s'.brings σ e' = some g ∧ s'.formed.length ≠ s.formed.length
  votes : ∀ pre t post s k v, es = pre ++ .voteTip t :: post → run (step σ) s₀ pre = some s →
    ballot σ.ec t = some (k, v) → k ∉ s.votes → ¬ casts s.tips.length k →
    ¬ Earlier σ s₀ pre fun s' e' => e' = .voteTip t ∧ s'.tips.length < s.tips.length

variable {σ : Setting PubKey} {s₀ : Daemon}

/-- What is merged was brought, to a pool without an entry of its key. -/
theorem brings_of_merges {s : Daemon} {e : DaemonEvent PubKey} {g : LocalDeltas PubKey}
    (h : s.merges σ e = some g) :
    s.brings σ e = some g ∧ s.pool.proofOfWork.lookup (σ.ec.hash g.pubkey) = none := by
  have hnone : (s.pool.allow σ.ec g).2 = true →
      s.pool.proofOfWork.lookup (σ.ec.hash g.pubkey) = none := by
    intro hallow
    unfold Diff.allow at hallow
    split at hallow
    · cases hallow
    · assumption
  cases e with
  | localDeltas g' =>
    simp only [merges, Option.ite_none_right_eq_some, Option.some.injEq] at h
    obtain ⟨⟨hverify, hallow⟩, rfl⟩ := h
    exact ⟨if_pos hverify, hnone hallow⟩
  | stage3 =>
    simp only [merges, Option.ite_none_right_eq_some, Option.some.injEq] at h
    obtain ⟨⟨hnode, hsync, hallow⟩, rfl⟩ := h
    exact ⟨if_pos ⟨hnode, hsync⟩, hnone hallow⟩
  | _ => cases h

/-- What is recorded is a vote that arrives, at a table without an entry of its key. -/
theorem voteTip_of_records {s : Daemon} {e : DaemonEvent PubKey} {t : Text}
    (h : s.records σ e = some t) :
    e = .voteTip t ∧ ∀ k v, ballot σ.ec t = some (k, v) → k ∉ s.votes := by
  cases e with
  | voteTip t' =>
    simp only [records, Option.ite_none_right_eq_some, Option.some.injEq] at h
    obtain ⟨hnew, rfl⟩ := h
    refine ⟨rfl, fun k v hballot => ?_⟩
    simpa [hballot] using hnew
  | _ => cases h

/-- What was so earlier stays so when more follows. -/
theorem Earlier.append {before : List (DaemonEvent PubKey)}
    {P : Daemon → DaemonEvent PubKey → Prop} (h : Earlier σ s₀ before P)
    (after : List (DaemonEvent PubKey)) : Earlier σ s₀ (before ++ after) P := by
  obtain ⟨pre, e, post, s, rfl, hs, hP⟩ := h
  exact ⟨pre, e, post ++ after, s, by simp, hs, hP⟩

end Daemon

namespace Chronicle

variable {σ : Setting PubKey} {s₀ : Daemon}

/-- What is in the chronicle happened at an event of the run. -/
theorem earlier_of_run {es : List (DaemonEvent PubKey)} {s : Chronicle PubKey}
    (h : run (Chronicle.step σ) ⟨s₀, [], []⟩ es = some s) :
    run (Daemon.step σ) s₀ es = some s.node ∧
      (∀ {i g}, (i, g) ∈ s.merged → Daemon.Earlier σ s₀ es fun s' e =>
        s'.merges σ e = some g ∧ i = s'.formed.length) ∧
      ∀ {m t}, (m, t) ∈ s.recorded → Daemon.Earlier σ s₀ es fun s' e =>
        s'.records σ e = some t ∧ m = s'.tips.length := by
  induction es using List.reverseRecOn generalizing s with
  | nil =>
    obtain rfl := Option.some.inj h
    exact ⟨rfl, fun hm => (nomatch hm), fun hm => (nomatch hm)⟩
  | append_singleton es e ih =>
    rw [run_append] at h
    obtain ⟨s₁, hs₁, h⟩ := Option.bind_eq_some_iff.mp h
    obtain ⟨s₂, hs₂, h⟩ := run_cons_eq_some.mp h
    obtain rfl := Option.some.inj h
    obtain ⟨hrun, hmerged₁, hrecorded₁⟩ := ih hs₁
    obtain ⟨hnode, hmerged, hrecorded⟩ := step_eq_some hs₂
    refine ⟨?_, fun {i g} hm => ?_, fun {m t} hm => ?_⟩
    · rw [run_append, hrun]
      exact run_cons_eq_some.mpr ⟨_, hnode, rfl⟩
    · rcases hmerged.mp hm with hnow | hm
      · exact ⟨es, e, [], s₁.node, rfl, hrun, hnow⟩
      · exact (hmerged₁ hm).append [e]
    · rcases hrecorded.mp hm with hnow | hm
      · exact ⟨es, e, [], s₁.node, rfl, hrun, hnow⟩
      · exact (hrecorded₁ hm).append [e]

end Chronicle

/-- The node with the key `L`, which is among the nodes. -/
def memberL : Daemon :=
  { Daemon.init Daemon.nodeOfL with
    auth := { Auth.App.create (twoKeys.hash false) with
      db := ⟨(∅ : Table Ripemd160 Auth.Address).insert (twoKeys.hash false) ⟨[], blankFree_nil⟩,
          ∅⟩ } }

/-- A contribution of this node with nothing in it. -/
def emptyOfL : LocalDeltas Bool :=
  let g : LocalDeltas Bool := ⟨false, [], none, none⟩
  { g with signature := 'L' :: g.messageToSign noDigits }

/-- The contribution arrives twice between stage 2 and stage 3, and a vote in two cycles. -/
def firstDelivery : List (DaemonEvent Bool) :=
  [.stage1, .voteTip voteOfK, .stage2 [] 0, .localDeltas emptyOfL, .localDeltas emptyOfL,
    .voteTip voteOfK]

/-- The contribution arrives in the first cycle and again in the third, a vote in
the second and again in the third. -/
def secondDelivery : List (DaemonEvent Bool) :=
  [.stage1, .stage2 [] 0, .localDeltas emptyOfL, .stage3, .stage4 [],
    .stage1, .voteTip voteOfK, .stage2 [] 0, .stage3,
    .stage1, .voteTip voteOfK, .localDeltas emptyOfL]

end AcCore.Gov.Engine
