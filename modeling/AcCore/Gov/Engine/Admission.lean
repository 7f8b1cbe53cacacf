import AcCore.Gov.Engine.Replay

/-!
# Contributions between admission and merge

A handler of a contribution has two critical sections: in the first the pool
allows it, in the second it is added to the pool, which stage 4 may have
replaced in between. This file determines in which runs every contribution is
merged exactly once, into the diff that allowed it and before that diff is
closed.
-/

namespace AcCore.Gov.Engine

open Lib

variable {PubKey : Type}

namespace Daemon

variable {σ : Setting PubKey}

/-- The contributors of the pool remain until stage 4. -/
theorem pool_of_step {s s' : Daemon} {e : DaemonEvent PubKey} (h : s.step σ e = some s')
    (he : ∀ entries, e ≠ .stage4 entries) :
    s'.formed = s.formed ∧ ∀ k ∈ s.pool.proofOfWork, k ∈ s'.pool.proofOfWork := by
  have hallow : ∀ (g : LocalDeltas PubKey), ∀ k ∈ s.pool.proofOfWork,
      k ∈ (s.pool.allow σ.ec g).1.proofOfWork := by
    intro g k hk
    rw [Diff.allow_fst]
    exact Table.mem_emplace.mpr (Or.inr hk)
  have hadd : ∀ {d d' : Diff} {g : LocalDeltas PubKey}, d.add σ.ec σ.ripemd g = some d' →
      ∀ k ∈ d.proofOfWork, k ∈ d'.proofOfWork := by
    intro d d' g hd k hk
    obtain ⟨_, -, rfl⟩ := Option.map_eq_some_iff.mp hd
    exact Finmap.mem_insert.mpr (Or.inr hk)
  cases e with
  | voteTip t =>
    cases h
    exact ⟨rfl, fun _ => id⟩
  | localDeltas g =>
    simp only [step, processIncomingLocalDeltas] at h
    split at h
    · split at h
      · obtain ⟨pool, hpool, rfl⟩ := Option.map_eq_some_iff.mp h
        exact ⟨rfl, fun k hk => hadd hpool k (hallow g k hk)⟩
      · cases h
        exact ⟨rfl, fun _ => id⟩
    · cases h
      exact ⟨rfl, fun _ => id⟩
  | basicAuthCompleted key address =>
    cases h
    exact ⟨rfl, fun _ => id⟩
  | process t =>
    cases h
    exact ⟨rfl, fun _ => id⟩
  | patchDb d picks drawn =>
    obtain ⟨t, ht, rfl⟩ := Option.map_eq_some_iff.mp h
    obtain ⟨_, _, _, rfl⟩ := importOrClear_frame ht
    exact ⟨rfl, fun _ => id⟩
  | stage1 =>
    obtain ⟨-, h⟩ := Option.ite_none_right_eq_some.mp h
    obtain ⟨votes, hvotes⟩ := @stage1_frame _ σ s
    rw [hvotes] at h
    cases h
    exact ⟨rfl, fun _ => id⟩
  | stage2 picks drawn =>
    obtain ⟨-, h⟩ := Option.ite_none_right_eq_some.mp h
    obtain ⟨t, ht, rfl⟩ := Option.map_eq_some_iff.mp h
    obtain ⟨_, _, _, _, _, _, rfl⟩ := stage2_frame ht
    exact ⟨rfl, fun _ => id⟩
  | stage3 =>
    obtain ⟨-, h⟩ := Option.ite_none_right_eq_some.mp h
    obtain ⟨⟨t, passed⟩, ht, rfl⟩ := Option.map_eq_some_iff.mp h
    unfold stage3 at ht
    split at ht
    · cases ht
      exact ⟨rfl, fun _ => id⟩
    · split at ht
      · cases ht
        exact ⟨rfl, fun _ => id⟩
      · dsimp only [createLocalDeltas] at ht
        split at ht
        · obtain ⟨pool, hpool, ht⟩ := Option.map_eq_some_iff.mp ht
          cases ht
          exact ⟨rfl, fun k hk => hadd hpool k (hallow _ k hk)⟩
        · cases ht
          exact ⟨rfl, fun k hk => hallow _ k hk⟩
  | stage4 entries => exact absurd rfl (he entries)

/-- Stage 4 puts the diff that is closed to the others. -/
theorem formed_of_stage4 {s s' : Daemon} {entries : Cash.Delta.Listing}
    (h : s.step σ (.stage4 entries) = some s') : s'.formed.length = s.formed.length + 1 := by
  obtain ⟨-, h⟩ := Option.ite_none_right_eq_some.mp h
  obtain ⟨t, ht, rfl⟩ := Option.map_eq_some_iff.mp h
  obtain ⟨-, ht⟩ := Option.ite_none_right_eq_some.mp ht
  cases ht
  rfl

end Daemon

/-- A node with its handlers. Diffs are numbered in the order in which they are
closed. A contribution in `waiting` was allowed by the diff of the number
beside it, and its handler has not added it yet. The lists `admitted` and
`merged` are not part of the code: what was allowed, with the number of the
diff that did, and what was merged, with the number of the diff that it went
into in front of that. -/
structure Handlers (PubKey : Type) where
  node : Daemon
  waiting : List (ℕ × LocalDeltas PubKey)
  admitted : List (ℕ × LocalDeltas PubKey)
  merged : List (ℕ × ℕ × LocalDeltas PubKey)

/-- What handlers and the other threads do. -/
inductive HandlerEvent (PubKey : Type) where
  /-- A contribution arrives, up to the end of the first critical section. -/
  | allow (g : LocalDeltas PubKey)
  /-- The second critical section of the handler in this place. -/
  | add (i : ℕ)
  | node (e : DaemonEvent PubKey)

namespace Handlers

variable (σ : Setting PubKey)

/-- The number of the diff that is the pool. -/
def number (s : Handlers PubKey) : ℕ := s.node.formed.length

/-- An event of the other threads. Stage 3 allows and adds the contribution of
the node in one critical section. -/
def advance (s : Handlers PubKey) (e : DaemonEvent PubKey) : Option (Handlers PubKey) :=
  (s.node.step σ e).map fun node =>
    match s.node.merges σ e with
    | some g =>
      { s with
        node := node
        admitted := (s.number, g) :: s.admitted
        merged := (s.number, s.number, g) :: s.merged }
    | none => { s with node := node }

/-- One event; `none` when it cannot happen, or the code has no defined result. -/
def step (s : Handlers PubKey) : HandlerEvent PubKey → Option (Handlers PubKey)
  | .allow g =>
    if g.verify σ.ec σ.fmt then
      let (pool, allowed) := s.node.pool.allow σ.ec g
      if allowed then
        some { s with
          node := { s.node with pool := pool }
          waiting := s.waiting ++ [(s.number, g)]
          admitted := (s.number, g) :: s.admitted }
      else some s
    else some s
  | .add i =>
    s.waiting[i]?.bind fun w =>
      (s.node.pool.add σ.ec σ.ripemd w.2).map fun pool =>
        { s with
          node := { s.node with pool := pool }
          waiting := s.waiting.eraseIdx i
          merged := (s.number, w) :: s.merged }
  | .node (.localDeltas _) => none
  | .node e => s.advance σ e

/-- What the diff of this number allowed. -/
def admittedBy (s : Handlers PubKey) (n : ℕ) : List (LocalDeltas PubKey) :=
  (s.admitted.filter fun a => a.1 = n).map Prod.snd

/-- What was merged into the diff of this number. -/
def mergedInto (s : Handlers PubKey) (n : ℕ) : List (LocalDeltas PubKey) :=
  (s.merged.filter fun m => m.1 = n).map fun m => m.2.2

/-- Every contribution is merged exactly once, in the diff that allowed it. -/
structure MergedWhereAdmitted (s : Handlers PubKey) : Prop where
  /-- `diff::add` finds the entry of the sender. -/
  found : ∀ w ∈ s.waiting, (s.node.pool.add σ.ec σ.ripemd w.2).isSome
  /-- What is merged goes into the diff that allowed it. -/
  own : ∀ m ∈ s.merged, m.1 = m.2.1
  /-- A diff that is closed has what it allowed, each contribution once. -/
  settled : ∀ n < s.number, (s.mergedInto n).Perm (s.admittedBy n)

/-- If the event is stage 4, no handler is between its critical sections. -/
def NoneWaiting (s : Handlers PubKey) : HandlerEvent PubKey → Prop
  | .node (.stage4 _) => s.waiting = []
  | _ => True

/-- What holds in every run. -/
structure Tracked (s : Handlers PubKey) : Prop where
  partition : s.admitted.Perm (s.merged.map Prod.snd ++ s.waiting)
  waiting_le : ∀ w ∈ s.waiting, w.1 ≤ s.number
  found : ∀ w ∈ s.waiting, w.1 = s.number → σ.ec.hash w.2.pubkey ∈ s.node.pool.proofOfWork

variable {σ}

/-- The four things that an event can do. -/
theorem step_cases {s s' : Handlers PubKey} {e : HandlerEvent PubKey} (h : s.step σ e = some s') :
    (∃ g, e = .allow g ∧ (s' = s ∨
        (σ.ec.hash g.pubkey ∈ s'.node.pool.proofOfWork ∧
          (∀ k ∈ s.node.pool.proofOfWork, k ∈ s'.node.pool.proofOfWork) ∧
          s'.number = s.number ∧ s'.waiting = s.waiting ++ [(s.number, g)] ∧
          s'.admitted = (s.number, g) :: s.admitted ∧ s'.merged = s.merged))) ∨
      (∃ i w, e = .add i ∧ s.waiting[i]? = some w ∧
        (∀ k ∈ s.node.pool.proofOfWork, k ∈ s'.node.pool.proofOfWork) ∧
        s'.number = s.number ∧ s'.waiting = s.waiting.eraseIdx i ∧
        s'.admitted = s.admitted ∧ s'.merged = (s.number, w) :: s.merged) ∨
      (∃ e', e = .node e' ∧ (∀ entries, e' ≠ .stage4 entries) ∧
        (∀ k ∈ s.node.pool.proofOfWork, k ∈ s'.node.pool.proofOfWork) ∧
        s'.number = s.number ∧ s'.waiting = s.waiting ∧
        ∃ gs : List (LocalDeltas PubKey), s'.admitted = gs.map (Prod.mk s.number) ++ s.admitted ∧
          s'.merged = gs.map (fun g => (s.number, s.number, g)) ++ s.merged) ∨
      (∃ entries, e = .node (.stage4 entries) ∧ s'.number = s.number + 1 ∧
        s'.waiting = s.waiting ∧ s'.admitted = s.admitted ∧ s'.merged = s.merged) := by
  cases e with
  | allow g =>
    refine Or.inl ⟨g, rfl, ?_⟩
    have hpool : ∀ k, k ∈ (s.node.pool.allow σ.ec g).1.proofOfWork ↔
        k = σ.ec.hash g.pubkey ∨ k ∈ s.node.pool.proofOfWork := by
      intro k
      rw [Diff.allow_fst]
      exact Table.mem_emplace
    simp only [step] at h
    split at h
    · split at h
      · cases h
        refine Or.inr ⟨(hpool _).mpr (Or.inl rfl), fun k hk => (hpool k).mpr (Or.inr hk), ?_⟩
        exact ⟨rfl, rfl, rfl, rfl⟩
      · cases h
        exact Or.inl rfl
    · cases h
      exact Or.inl rfl
  | add i =>
    obtain ⟨w, hw, h⟩ := Option.bind_eq_some_iff.mp h
    obtain ⟨pool, hpool, rfl⟩ := Option.map_eq_some_iff.mp h
    obtain ⟨_, -, rfl⟩ := Option.map_eq_some_iff.mp hpool
    refine Or.inr (Or.inl ⟨i, w, rfl, hw, fun k hk => ?_, rfl, rfl, rfl, rfl⟩)
    exact Finmap.mem_insert.mpr (Or.inr hk)
  | node e =>
    by_cases he : ∃ entries, e = .stage4 entries
    · obtain ⟨entries, rfl⟩ := he
      obtain ⟨node, hnode, rfl⟩ := Option.map_eq_some_iff.mp h
      refine Or.inr (Or.inr (Or.inr ⟨entries, rfl, ?_, rfl, rfl, rfl⟩))
      exact Daemon.formed_of_stage4 hnode
    · have hne : ∀ entries, e ≠ .stage4 entries := fun entries heq => he ⟨entries, heq⟩
      have hadvance : s.advance σ e = some s' := by
        cases e with
        | localDeltas g => cases h
        | _ => exact h
      obtain ⟨node, hnode, rfl⟩ := Option.map_eq_some_iff.mp hadvance
      obtain ⟨hformed, hpool⟩ := Daemon.pool_of_step hnode hne
      have hnumber : node.formed.length = s.number := by rw [hformed, number]
      refine Or.inr (Or.inr (Or.inl ⟨e, rfl, hne, ?_⟩))
      cases s.node.merges σ e with
      | none => exact ⟨hpool, hnumber, rfl, [], rfl, rfl⟩
      | some g => exact ⟨hpool, hnumber, rfl, [g], rfl, rfl⟩

/-- Every step of the handlers keeps the contributions tracked. -/
theorem Tracked.step {s s' : Handlers PubKey} {e : HandlerEvent PubKey} (h : s.Tracked σ)
    (hs : s.step σ e = some s') : s'.Tracked σ := by
  rcases step_cases hs with ⟨g, -, rfl | ⟨hg, hpool, hnumber, hwaiting, hadmitted, hmerged⟩⟩ |
    ⟨i, w, -, hw, hpool, hnumber, hwaiting, hadmitted, hmerged⟩ |
    ⟨e', -, -, hpool, hnumber, hwaiting, gs, hadmitted, hmerged⟩ |
    ⟨entries, -, hnumber, hwaiting, hadmitted, hmerged⟩
  · exact h
  · refine ⟨?_, ?_, ?_⟩
    · rw [hadmitted, hmerged, hwaiting, ← List.append_assoc]
      exact (h.partition.cons _).trans (List.perm_append_singleton _ _).symm
    · intro w hw
      rw [hnumber]
      rw [hwaiting] at hw
      rcases List.mem_append.mp hw with hw | hw
      · exact h.waiting_le w hw
      · exact le_of_eq (congrArg Prod.fst (List.mem_singleton.mp hw))
    · intro w hw hn
      rw [hwaiting] at hw
      rcases List.mem_append.mp hw with hw | hw
      · exact hpool _ (h.found w hw (hn.trans hnumber))
      · rw [List.mem_singleton.mp hw]
        exact hg
  · have hperm : s.waiting.Perm (w :: s.waiting.eraseIdx i) := by
      obtain ⟨hi, rfl⟩ := List.getElem?_eq_some_iff.mp hw
      exact (List.getElem_cons_eraseIdx_perm hi).symm
    refine ⟨?_, ?_, ?_⟩
    · rw [hadmitted, hmerged, hwaiting, List.map_cons]
      exact (h.partition.trans (hperm.append_left _)).trans List.perm_middle
    · intro v hv
      rw [hnumber]
      rw [hwaiting] at hv
      exact h.waiting_le v (List.mem_of_mem_eraseIdx hv)
    · intro v hv hn
      rw [hwaiting] at hv
      exact hpool _ (h.found v (List.mem_of_mem_eraseIdx hv) (hn.trans hnumber))
  · refine ⟨?_, ?_, ?_⟩
    · have hmap : (gs.map fun g => (s.number, s.number, g)).map Prod.snd =
          gs.map (Prod.mk s.number) := by
        rw [List.map_map]
        rfl
      rw [hadmitted, hmerged, hwaiting, List.map_append, hmap, List.append_assoc]
      exact h.partition.append_left _
    · rw [hwaiting, hnumber]
      exact h.waiting_le
    · intro w hw hn
      rw [hwaiting] at hw
      exact hpool _ (h.found w hw (hn.trans hnumber))
  · refine ⟨?_, ?_, ?_⟩
    · rw [hadmitted, hmerged, hwaiting]
      exact h.partition
    · intro w hw
      rw [hwaiting] at hw
      rw [hnumber]
      exact (h.waiting_le w hw).trans (Nat.le_succ _)
    · intro w hw hn
      rw [hwaiting] at hw
      rw [hnumber] at hn
      have := h.waiting_le w hw
      omega

/-- What a diff allowed is what was merged into it and what is waiting for it,
where everything goes into the diff that allowed it. -/
theorem Tracked.admittedBy_perm {s : Handlers PubKey} (h : s.Tracked σ)
    (hown : ∀ m ∈ s.merged, m.1 = m.2.1) (n : ℕ) :
    (s.admittedBy n).Perm (s.mergedInto n ++ (s.waiting.filter fun w => w.1 = n).map Prod.snd) := by
  have hinto : s.mergedInto n = ((s.merged.map Prod.snd).filter fun a => a.1 = n).map Prod.snd := by
    rw [mergedInto, List.filter_map, List.map_map]
    congr 1
    refine List.filter_congr fun m hm => ?_
    rw [hown m hm]
    rfl
  rw [hinto, ← List.map_append, ← List.filter_append]
  exact (h.partition.filter _).map _

/-- Nothing goes wrong exactly when everything so far went into the diff that
allowed it, and all that is waiting was allowed by the pool. -/
theorem mergedWhereAdmitted_iff {s : Handlers PubKey} (h : s.Tracked σ) :
    s.MergedWhereAdmitted σ ↔
      (∀ m ∈ s.merged, m.1 = m.2.1) ∧ ∀ w ∈ s.waiting, w.1 = s.number := by
  constructor
  · rintro ⟨-, hown, hsettled⟩
    refine ⟨hown, fun w hw => ?_⟩
    by_contra hne
    have hlt : w.1 < s.number := lt_of_le_of_ne (h.waiting_le w hw) hne
    have hlength := ((hsettled w.1 hlt).trans (h.admittedBy_perm hown w.1)).length_eq
    rw [List.length_append, List.length_map] at hlength
    have hpos : 0 < (s.waiting.filter fun v => v.1 = w.1).length :=
      List.length_pos_of_mem (List.mem_filter.mpr ⟨hw, by simp⟩)
    omega
  · rintro ⟨hown, hwaiting⟩
    refine ⟨fun w hw => ?_, hown, fun n hn => ?_⟩
    · have hmem := h.found w hw (hwaiting w hw)
      rw [Diff.add, Option.isSome_map, Finmap.lookup_isSome]
      exact hmem
    · have hnil : (s.waiting.filter fun w => w.1 = n) = [] := by
        rw [List.filter_eq_nil_iff]
        intro w hw
        have := hwaiting w hw
        simp only [decide_eq_true_eq]
        omega
      have hperm := h.admittedBy_perm hown n
      rw [hnil, List.map_nil, List.append_nil] at hperm
      exact hperm.symm

/-- Only stage 4 goes wrong, and only when a handler is between its critical
sections. -/
theorem mergedWhereAdmitted_step {s s' : Handlers PubKey} {e : HandlerEvent PubKey}
    (h : s.Tracked σ) (hgood : s.MergedWhereAdmitted σ) (hs : s.step σ e = some s') :
    s'.MergedWhereAdmitted σ ↔ s.NoneWaiting e := by
  rw [mergedWhereAdmitted_iff (h.step hs)]
  obtain ⟨hown, hwait⟩ := (mergedWhereAdmitted_iff h).mp hgood
  rcases step_cases hs with ⟨g, rfl, rfl | ⟨-, -, hnumber, hwaiting, -, hmerged⟩⟩ |
    ⟨i, w, rfl, hw, -, hnumber, hwaiting, -, hmerged⟩ |
    ⟨e', rfl, he, -, hnumber, hwaiting, gs, -, hmerged⟩ |
    ⟨entries, rfl, hnumber, hwaiting, -, hmerged⟩
  · exact iff_of_true ⟨hown, hwait⟩ trivial
  · refine iff_of_true ⟨by rwa [hmerged], fun w hw => ?_⟩ trivial
    rw [hwaiting] at hw
    rw [hnumber]
    rcases List.mem_append.mp hw with hw | hw
    · exact hwait w hw
    · exact congrArg Prod.fst (List.mem_singleton.mp hw)
  · refine iff_of_true ⟨fun m hm => ?_, fun v hv => ?_⟩ trivial
    · rw [hmerged] at hm
      rcases List.mem_cons.mp hm with rfl | hm
      · exact (hwait w (List.mem_of_getElem? hw)).symm
      · exact hown m hm
    · rw [hwaiting] at hv
      rw [hnumber]
      exact hwait v (List.mem_of_mem_eraseIdx hv)
  · refine iff_of_true ⟨fun m hm => ?_, by rwa [hwaiting, hnumber]⟩ ?_
    · rw [hmerged] at hm
      rcases List.mem_append.mp hm with hm | hm
      · obtain ⟨g, -, rfl⟩ := List.mem_map.mp hm
        rfl
      · exact hown m hm
    · cases e' with
      | stage4 entries => exact absurd rfl (he entries)
      | _ => trivial
  · rw [hmerged, hwaiting, hnumber]
    constructor
    · rintro ⟨-, hnext⟩
      refine List.eq_nil_iff_forall_not_mem.mpr fun w hw => ?_
      have := hwait w hw
      have := hnext w hw
      omega
    · intro hnone
      have hnone : s.waiting = [] := hnone
      refine ⟨hown, fun w hw => ?_⟩
      rw [hnone] at hw
      cases hw

/-- **Admission.** In all states of a run every contribution is merged exactly
once, into the diff that allowed it and before it is closed, exactly when stage
4 never replaces the pool while a handler is between its critical sections. -/
theorem merged_where_admitted_iff (σ : Setting PubKey) (s₀ : Daemon)
    (es : List (HandlerEvent PubKey)) (s : Handlers PubKey)
    (h : run (step σ) ⟨s₀, [], [], []⟩ es = some s) :
    (∀ es' u, es' <+: es → run (step σ) ⟨s₀, [], [], []⟩ es' = some u →
      u.MergedWhereAdmitted σ) ↔ AlongRun (step σ) NoneWaiting ⟨s₀, [], [], []⟩ es := by
  have htracked : Tracked σ (⟨s₀, [], [], []⟩ : Handlers PubKey) :=
    ⟨List.Perm.refl _, fun w hw => (nomatch hw), fun w hw => (nomatch hw)⟩
  have hgood := (mergedWhereAdmitted_iff htracked).mpr
    ⟨fun m hm => (nomatch hm), fun w hw => (nomatch hw)⟩
  exact safe_iff_alongRun (fun _ _ _ h hs => Tracked.step h hs)
    (fun _ _ _ h hgood hs => mergedWhereAdmitted_step h hgood hs) htracked hgood h

/-- A contribution arrives and is merged before the node closes the diff. -/
def closedAfterwards : List (HandlerEvent Bool) :=
  [.node .stage1, .node (.stage2 [] 0), .allow emptyOfL, .add 0, .node .stage3,
    .node (.stage4 [])]

/-- The contribution is in the diff that allowed it. -/
theorem merged_where_admitted_closedAfterwards :
    ∃ s, run (step Daemon.nodeOfL) ⟨memberL, [], [], []⟩ closedAfterwards = some s ∧
      s.merged ≠ [] ∧ s.MergedWhereAdmitted Daemon.nodeOfL :=
  ⟨_, rfl, List.cons_ne_nil _ _,
    (merged_where_admitted_iff Daemon.nodeOfL memberL closedAfterwards _ rfl).mpr
      ⟨trivial, trivial, trivial, trivial, trivial, rfl, trivial⟩ _ _ List.prefix_rfl rfl⟩

/-- The node closes the diff while a handler has not merged its contribution. -/
def closedInBetween : List (HandlerEvent Bool) :=
  [.node .stage1, .node (.stage2 [] 0), .allow emptyOfL, .node .stage3, .node (.stage4 [])]

/-- The contribution is not in the diff that allowed it, and the next one has no
entry for its sender. -/
theorem not_merged_closedInBetween :
    ∃ s, run (step Daemon.nodeOfL) ⟨memberL, [], [], []⟩ closedInBetween = some s ∧
      ¬ s.MergedWhereAdmitted Daemon.nodeOfL ∧ s.step Daemon.nodeOfL (.add 0) = none := by
  refine ⟨_, rfl, fun hgood => ?_, rfl⟩
  have hlength := (hgood.settled 0 Nat.one_pos).length_eq
  exact absurd hlength (by decide)

end Handlers

end AcCore.Gov.Engine
