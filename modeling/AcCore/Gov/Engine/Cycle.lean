import AcCore.Gov.Engine.Replay

/-!
# Diffs that are left over

The main loop forms a diff in stage 4 and disposes of it in stage 2 of the next
cycle, unless the tip that is selected there is zero. Stage 4 asserts that
nothing is left. Other threads change who is a node, and what the head and the
tail of the chain are, at any time. This file determines in which runs the
assertion holds.
-/

namespace AcCore.Gov.Engine

open Lib

variable {PubKey : Type} (σ : Setting PubKey)

/-- What happens around the main loop: an event of the node, or a change of its
membership and of its sync state by another thread. -/
inductive CycleEvent (PubKey : Type) where
  | node (e : DaemonEvent PubKey)
  | changed (auth : Auth.App) (head tail : Ripemd160)

namespace Cycle

/-- One event; `none` when it cannot happen. -/
def step (s : Daemon) : CycleEvent PubKey → Option Daemon
  | .node e => s.step σ e
  | .changed auth head tail => some { s with auth := auth, head := head, tail := tail }

/-- The event is not stage 4. -/
def NotStage4 : CycleEvent PubKey → Prop
  | .node (.stage4 _) => False
  | _ => True

/-- If the event is stage 2, the tip that is selected in it is zero. -/
def SelectsNothing (s : Daemon) : CycleEvent PubKey → Prop
  | .node (.stage2 _ _) => s.votes.select.1.isZero = true
  | _ => True

variable {σ}

/-- The diff that was formed stays until a tip is selected. -/
theorem newDiff_of_step {s s' : Daemon} {e : CycleEvent PubKey} (he : NotStage4 e)
    (h : step σ s e = some s') :
    s'.newDiff.isSome ↔ s.newDiff.isSome ∧ SelectsNothing s e := by
  have hsame : s'.newDiff = s.newDiff → SelectsNothing s e →
      (s'.newDiff.isSome ↔ s.newDiff.isSome ∧ SelectsNothing s e) := by
    intro hdiff hnothing
    rw [hdiff, and_iff_left hnothing]
  cases e with
  | changed auth head tail =>
    obtain rfl := Option.some.inj h
    exact hsame rfl trivial
  | node e =>
    cases e with
    | voteTip t =>
      obtain rfl := Option.some.inj h
      exact hsame rfl trivial
    | localDeltas g =>
      obtain ⟨pool, rfl⟩ := Daemon.processIncomingLocalDeltas_frame h
      exact hsame rfl trivial
    | basicAuthCompleted key address =>
      obtain rfl := Option.some.inj h
      exact hsame rfl trivial
    | process t =>
      obtain rfl := Option.some.inj h
      exact hsame rfl trivial
    | patchDb d picks drawn =>
      obtain ⟨t, ht, rfl⟩ := Option.map_eq_some_iff.mp h
      obtain ⟨_, _, _, rfl⟩ := Daemon.importOrClear_frame ht
      exact hsame rfl trivial
    | stage1 =>
      obtain ⟨-, h⟩ := Option.ite_none_right_eq_some.mp h
      obtain ⟨votes, hvotes⟩ := @Daemon.stage1_frame _ σ s
      rw [hvotes] at h
      obtain rfl := Option.some.inj h
      exact hsame rfl trivial
    | stage2 picks drawn =>
      obtain ⟨-, h⟩ := Option.ite_none_right_eq_some.mp h
      obtain ⟨t, ht, rfl⟩ := Option.map_eq_some_iff.mp h
      simp only [Daemon.stage2] at ht
      split at ht
      · rename_i hzero
        obtain rfl := Option.some.inj ht
        exact (and_iff_left hzero).symm
      · rename_i hzero
        -- `eat_diff` leaves no diff, whether it was voted for or not
        obtain ⟨u, -, rfl⟩ := Option.map_eq_some_iff.mp ht
        exact iff_of_false (by simp) fun hboth => hzero hboth.2
    | stage3 =>
      obtain ⟨-, h⟩ := Option.ite_none_right_eq_some.mp h
      obtain ⟨⟨t, passed⟩, ht, rfl⟩ := Option.map_eq_some_iff.mp h
      obtain ⟨auth, cash, pool, hframe⟩ := Daemon.stage3_frame ht
      obtain rfl : t = { s with auth := auth, cash := cash, pool := pool } := hframe
      exact hsame rfl trivial
    | stage4 entries => exact he.elim

/-- Stage 4 leaves the diff that it forms. -/
theorem newDiff_of_stage4 {s s' : Daemon} {entries : Cash.Delta.Listing}
    (h : step σ s (.node (.stage4 entries)) = some s') : s'.newDiff.isSome := by
  obtain ⟨-, h⟩ := Option.ite_none_right_eq_some.mp h
  obtain ⟨t, ht, rfl⟩ := Option.map_eq_some_iff.mp h
  obtain ⟨-, ht⟩ := Option.ite_none_right_eq_some.mp ht
  obtain rfl := Option.some.inj ht
  rfl

/-- Without stage 4, a diff is there at the end of a run exactly when it was
there before and no tip was selected. -/
theorem newDiff_of_run {s s' : Daemon} {es : List (CycleEvent PubKey)}
    (hes : ∀ e ∈ es, NotStage4 e) (h : run (step σ) s es = some s') :
    s'.newDiff.isSome ↔ s.newDiff.isSome ∧ AlongRun (step σ) SelectsNothing s es := by
  induction es generalizing s with
  | nil =>
    obtain rfl := Option.some.inj h
    exact (and_iff_left trivial).symm
  | cons e es ih =>
    obtain ⟨t, ht, h⟩ := run_cons_eq_some.mp h
    rw [AlongRun.cons_iff ht, ih (fun e he => hes e (List.mem_cons_of_mem _ he)) h,
      newDiff_of_step (hes e List.mem_cons_self) ht, and_assoc]

/-- A run has no stage 4, or a last one. -/
theorem last_stage4 (es : List (CycleEvent PubKey)) :
    (∀ e ∈ es, NotStage4 e) ∨ ∃ before entries after,
      es = before ++ .node (.stage4 entries) :: after ∧ ∀ e ∈ after, NotStage4 e := by
  induction es with
  | nil => exact Or.inl fun e he => (nomatch he)
  | cons e es ih =>
    rcases ih with hnone | ⟨before, entries, after, rfl, hafter⟩
    · by_cases he : NotStage4 e
      · left
        intro e' he'
        rcases List.mem_cons.mp he' with rfl | he'
        · exact he
        · exact hnone e' he'
      · right
        cases e with
        | changed auth head tail => exact absurd trivial he
        | node e =>
          cases e with
          | stage4 entries => exact ⟨[], entries, es, rfl, hnone⟩
          | _ => exact absurd trivial he
    · exact Or.inr ⟨e :: before, entries, after, rfl, hafter⟩

variable (σ)

/-- Whenever the main loop is about to start stage 4, no diff is left over. -/
def NeverStale (es : List (CycleEvent PubKey)) : Prop :=
  ∀ es' s, es' <+: es → run (step σ) (Daemon.init σ) es' = some s →
    s.stage = .consensusVoteTipIo → s.newDiff = none

/-- Whenever the main loop is about to start stage 4 again, a tip has been
selected since the last stage 4. -/
def TipSelected (es : List (CycleEvent PubKey)) : Prop :=
  ∀ before entries after s s', before ++ .node (.stage4 entries) :: after <+: es →
    run (step σ) (Daemon.init σ) (before ++ [.node (.stage4 entries)]) = some s →
    (∀ e ∈ after, NotStage4 e) → run (step σ) s after = some s' →
    s'.stage = .consensusVoteTipIo → ¬ AlongRun (step σ) SelectsNothing s after

/-- **Left-over diffs.** The assertion of stage 4 holds in a run exactly when,
whenever the main loop gets to stage 4 again, a tip that is not zero has been
selected since the last time. -/
theorem never_stale_iff (es : List (CycleEvent PubKey)) : NeverStale σ es ↔ TipSelected σ es := by
  constructor
  · intro hnever before entries after s s' hprefix hs hafter hs' hstage hnothing
    have hrun : run (step σ) (Daemon.init σ) (before ++ .node (.stage4 entries) :: after) =
        some s' := by
      rw [List.append_cons, run_append, hs]
      exact hs'
    have hformed : s.newDiff.isSome := by
      rw [run_append, Option.bind_eq_some_iff] at hs
      obtain ⟨t, -, hs⟩ := hs
      obtain ⟨u, hu, hs⟩ := run_cons_eq_some.mp hs
      obtain rfl := Option.some.inj hs
      exact newDiff_of_stage4 hu
    have hleft := (newDiff_of_run hafter hs').mpr ⟨hformed, hnothing⟩
    rw [hnever _ s' hprefix hrun hstage] at hleft
    cases hleft
  · intro hselected es' s' hprefix hrun hstage
    by_contra hdiff
    have hleft : s'.newDiff.isSome := Option.isSome_iff_ne_none.mpr hdiff
    rcases last_stage4 es' with hnone | ⟨before, entries, after, rfl, hafter⟩
    · obtain ⟨hinit, -⟩ := (newDiff_of_run hnone hrun).mp hleft
      cases hinit
    · rw [List.append_cons, run_append, Option.bind_eq_some_iff] at hrun
      obtain ⟨s, hs, hs'⟩ := hrun
      obtain ⟨-, hnothing⟩ := (newDiff_of_run hafter hs').mp hleft
      exact hselected before entries after s s' hprefix hs hafter hs' hstage hnothing

/-- The node `L` forms a diff, is not a node while it should vote for it, no vote
arrives, and it is a node again when it contributes. -/
def droppedForAVote : List (CycleEvent Bool) :=
  [.changed memberL.auth Ripemd160.zero Ripemd160.zero,
    .node .stage1, .node (.stage2 [] 0), .node (.localDeltas emptyOfL), .node .stage3,
    .node (.stage4 []),
    .changed (Auth.App.create (twoKeys.hash false)) Ripemd160.zero Ripemd160.zero,
    .node .stage1, .node (.stage2 [] 0),
    .changed memberL.auth Ripemd160.zero Ripemd160.zero, .node .stage3]

/-- The assertion fails. -/
theorem stale_droppedForAVote : ¬ NeverStale Daemon.nodeOfL droppedForAVote := by
  obtain ⟨s, hs, hstage, hleft⟩ : ∃ s,
      run (step Daemon.nodeOfL) (Daemon.init Daemon.nodeOfL) droppedForAVote = some s ∧
        s.stage = .consensusVoteTipIo ∧ s.newDiff.isSome = true := ⟨_, rfl, rfl, rfl⟩
  intro hnever
  rw [hnever _ s List.prefix_rfl hs hstage] at hleft
  cases hleft

end Cycle

end AcCore.Gov.Engine
