import AcCore.Gov.Engine.Daemon
import AcCore.Gov.Engine.VoteAuth
import AcCore.Lib.Run

/-!
# Keys that are not nodes

Only nodes vote and contribute of their own accord. This file determines when
the votes and contributions that others send leave no trace: not in the tips
that a node selects, nor in the diffs that it forms and the rewards that they
distribute.
-/

namespace AcCore.Gov.Engine

open Lib

variable {PubKey : Type} (σ : Setting PubKey)

namespace Daemon

/-- A vote or a contribution under a key that is not a node when it arrives. -/
def Outsider (s : Daemon) : DaemonEvent PubKey → Bool
  | .voteTip t =>
    (VoteTip.parse σ.ec t).elim false fun d => decide (σ.ec.hash d.pubkey ∉ s.auth.db.nodes)
  | .localDeltas g => decide (σ.ec.hash g.pubkey ∉ s.auth.db.nodes)
  | _ => false

/-- The message is not correctly signed, or its key has already voted, or
contributed to the pool. -/
def TurnedAway (s : Daemon) : DaemonEvent PubKey → Bool
  | .voteTip t => (ballot σ.ec t).elim true fun b => decide (b.1 ∈ s.votes)
  | .localDeltas g =>
    !g.verify σ.ec σ.fmt || decide (σ.ec.hash g.pubkey ∈ s.pool.proofOfWork)
  | _ => false

/-- What an outsider sends is turned away. -/
def OutsiderTurnedAway (s : Daemon) (e : DaemonEvent PubKey) : Prop :=
  s.Outsider σ e = true → s.TurnedAway σ e = true

/-- Whether an outsider is turned away is decided in every state. -/
instance (s : Daemon) (e : DaemonEvent PubKey) : Decidable (s.OutsiderTurnedAway σ e) :=
  inferInstanceAs (Decidable (_ → _))

variable {σ}

/-- A vote changes the table exactly when its key has none yet. -/
theorem add_eq_self_iff {votes : Votes} {k v : Ripemd160} :
    (votes.add k v).1 = votes ↔ k ∈ votes := by
  unfold Votes.add
  cases hlookup : votes.lookup k with
  | none =>
    have hmem : k ∉ votes := Finmap.lookup_eq_none.mp hlookup
    refine ⟨fun h => ?_, fun h => absurd h hmem⟩
    rw [← h]
    exact Finmap.mem_insert.mpr (Or.inl rfl)
  | some v' => simpa using Finmap.mem_of_lookup_eq_some hlookup

/-- A vote leaves the node as it was exactly when it is turned away. -/
theorem step_voteTip_eq_self_iff {s : Daemon} {t : Text} :
    s.step σ (.voteTip t) = some s ↔ s.TurnedAway σ (.voteTip t) = true := by
  have hvotes : s.step σ (.voteTip t) = some s ↔ (processVoteTip σ.ec s.votes t).1 = s.votes := by
    refine ⟨fun h => congrArg Daemon.votes (Option.some.inj h), fun h => ?_⟩
    simp only [step, h]
  rw [hvotes]
  simp only [processVoteTip, TurnedAway]
  cases hballot : ballot σ.ec t with
  | none => simp
  | some b => simp [add_eq_self_iff]

/-- A contribution leaves the node as it was exactly when it is turned away. -/
theorem step_localDeltas_eq_self_iff {s : Daemon} {g : LocalDeltas PubKey} :
    s.step σ (.localDeltas g) = some s ↔ s.TurnedAway σ (.localDeltas g) = true := by
  simp only [step, processIncomingLocalDeltas, TurnedAway, Bool.or_eq_true, Bool.not_eq_true',
    decide_eq_true_eq]
  by_cases hverify : g.verify σ.ec σ.fmt = true
  · cases hlookup : s.pool.proofOfWork.lookup (σ.ec.hash g.pubkey) with
    | some w => simp [Diff.allow, hlookup, Finmap.mem_of_lookup_eq_some hlookup]
    | none =>
      have hmem : σ.ec.hash g.pubkey ∉ s.pool.proofOfWork := Finmap.lookup_eq_none.mp hlookup
      have hchanged : ∀ pow : Table Ripemd160 ℕ,
          pow.insert (σ.ec.hash g.pubkey) 0 ≠ s.pool.proofOfWork := by
        rintro pow h
        exact hmem (h ▸ Finmap.mem_insert.mpr (Or.inl rfl))
      simp only [hverify, Diff.allow, hlookup, Diff.add, Diff.merge, hmem, or_false]
      refine ⟨fun h => ?_, fun h => by cases h⟩
      simp only [if_true, Finmap.lookup_insert, Option.map_some, Option.some.injEq] at h
      exact absurd (congrArg (fun d : Daemon => d.pool.proofOfWork) h) (hchanged _)
  · simp [hverify]

/-- What an outsider sends leaves the node as it was exactly when it is turned
away. -/
theorem step_eq_self_iff {s : Daemon} {e : DaemonEvent PubKey} (hout : s.Outsider σ e = true) :
    s.step σ e = some s ↔ s.TurnedAway σ e = true := by
  cases e with
  | voteTip t => exact step_voteTip_eq_self_iff
  | localDeltas g => exact step_localDeltas_eq_self_iff
  | basicAuthCompleted key address => cases hout
  | process t => cases hout
  | patchDb d picks drawn => cases hout
  | stage1 => cases hout
  | stage2 picks drawn => cases hout
  | stage3 => cases hout
  | stage4 entries => cases hout

/-- Where what outsiders send is turned away, a run is the run without it. -/
theorem run_residue_outsider {s : Daemon} {es : List (DaemonEvent PubKey)}
    (h : AlongRun (step σ) (OutsiderTurnedAway σ) s es) :
    run (step σ) s (residue (step σ) (Outsider σ) s es) = run (step σ) s es := by
  refine run_residue (h.imp fun s e hturned hout => ?_)
  exact (step_eq_self_iff hout).mpr (hturned hout)

/-- **Outsiders.** Two sequences of events that differ only in votes and
contributions under keys that are not nodes when they arrive, all of which are
turned away, lead to the same node: with the same selected tips, the same
formed diffs, and the same balances. -/
theorem run_eq_of_residue_eq {s : Daemon} {es es' : List (DaemonEvent PubKey)}
    (hes : AlongRun (step σ) (OutsiderTurnedAway σ) s es)
    (hes' : AlongRun (step σ) (OutsiderTurnedAway σ) s es')
    (h : residue (step σ) (Outsider σ) s es = residue (step σ) (Outsider σ) s es') :
    run (step σ) s es = run (step σ) s es' := by
  calc run (step σ) s es
      = run (step σ) s (residue (step σ) (Outsider σ) s es) := (run_residue_outsider hes).symm
    _ = run (step σ) s (residue (step σ) (Outsider σ) s es') := by rw [h]
    _ = run (step σ) s es' := run_residue_outsider hes'

/-! ## A node and two keys -/

/-- A node with the key `L`. -/
def nodeOfL : Setting Bool where
  ec := twoKeys
  ripemd _ := Ripemd160.zero
  fmt := noDigits
  programs := ⟨fun _ _ _ _ => true, fun _ => true⟩
  pub := false
  signEncode text := 'L' :: text

/-- A vote for a tip under the key `K` that is signed with the key `L`. -/
def voteSignedByL : Text := someTip.toB58 ++ [' ', 'K', ' ', 'L'] ++ someTip.toB58

/-- The vote with the wrong signature changes nothing. -/
theorem run_eq_voteSignedByL :
    run (step nodeOfL) (init nodeOfL) [.stage1, .voteTip voteSignedByL, .stage2 [] 0] =
      run (step nodeOfL) (init nodeOfL) [.stage1, .stage2 [] 0] :=
  run_eq_of_residue_eq (by decide) (by decide) rfl

/-- One correctly signed vote of a key that is not a node decides the tip. -/
theorem outsider_selects_tip :
    ∃ s s', residue (step nodeOfL) (Outsider nodeOfL) (init nodeOfL)
          [.stage1, .voteTip voteOfK, .stage2 [] 0] =
        residue (step nodeOfL) (Outsider nodeOfL) (init nodeOfL) [.stage1, .stage2 [] 0] ∧
      run (step nodeOfL) (init nodeOfL) [.stage1, .voteTip voteOfK, .stage2 [] 0] = some s ∧
      run (step nodeOfL) (init nodeOfL) [.stage1, .stage2 [] 0] = some s' ∧
      s.tips = [someTip] ∧ s'.tips = [Ripemd160.zero] :=
  ⟨_, _, rfl, rfl, rfl, rfl, rfl⟩

end Daemon

end AcCore.Gov.Engine
