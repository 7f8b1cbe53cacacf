import AcCore.Gov.Engine.Hold

/-!
# The deadlock of the evidence threads

The consumer of the calendar waits with the lock of the calendar until nothing
is on hold, and the flush removes an entry from hold only after it has taken
this lock. This file determines in which runs the two never wait for each other.
-/

namespace AcCore.Gov.Engine.Pipeline

open Lib Cash

/-- `evidence_processor` has the lock of the calendar and waits until nothing is
on hold; the flush waits for this lock, with an entry that is on hold. -/
structure Deadlocked (s : Pipeline) : Prop where
  processor : s.processor = .waiting
  flush : ∃ f ∈ s.flush, f.p ∈ s.evidencesOnHold ∧ ∃ t, f.stage = .scheduling t

/-- `evidence_processor` does not begin to wait while the flush has an evidence
to schedule, and the flush gets none while `evidence_processor` waits. -/
def Untangled (s : Pipeline) : PipelineEvent → Prop
  | .look _ => ∀ f ∈ s.flush, ∀ t, f.stage ≠ .scheduling t
  | .flushProcess => s.processor = .waiting → s.inSync = true → ∀ f ∈ s.flush, ∀ n d,
      s.heap.lookup f.p = some (n, d) → s.parseEvidence d = none
  | _ => True

variable {s s' : Pipeline} {e : PipelineEvent} {f : Flush}

/-- While the processor does not wait there is no deadlock. -/
theorem not_deadlocked_of_processor (h : s.processor ≠ .waiting) : ¬ s.Deadlocked :=
  fun hd => h hd.processor

/-- While the flush does not schedule there is no deadlock. -/
theorem not_deadlocked_of_flush (h : ∀ f ∈ s.flush, ∀ t, f.stage ≠ .scheduling t) :
    ¬ s.Deadlocked := by
  rintro ⟨-, f, hf, -, t, ht⟩
  exact h f hf t ht

/-- A deadlock depends on the processor, the flush and the lock of the hold only. -/
theorem deadlocked_congr (hprocessor : s'.processor = s.processor) (hflush : s'.flush = s.flush)
    (hhold : s'.evidencesOnHold = s.evidencesOnHold) : s'.Deadlocked ↔ s.Deadlocked := by
  constructor
  · rintro ⟨hp, hf⟩
    rw [hflush, hhold] at hf
    exact ⟨hprocessor ▸ hp, hf⟩
  · rintro ⟨hp, hf⟩
    rw [← hflush, ← hhold] at hf
    exact ⟨hprocessor.trans hp, hf⟩

/-- The flush has another entry, or none. -/
theorem not_deadlocked_of_pick {next : Option Pointer} (h : s.pick next = some s') :
    ¬ s'.Deadlocked := by
  refine not_deadlocked_of_flush fun f hf t ht => ?_
  cases next with
  | none =>
    obtain rfl := Option.some.inj h
    cases hf
  | some p =>
    obtain ⟨-, h⟩ := Option.ite_none_right_eq_some.mp h
    obtain rfl := Option.some.inj h
    obtain rfl := Option.some.inj hf
    cases ht

/-- The threads wait for each other after an event if they did before, or if the
event tangles them. -/
theorem deadlocked_step_iff (h : s.Ok) (hs : s.step e = some s') :
    s'.Deadlocked ↔ s.Deadlocked ∨ ¬ s.Untangled e := by
  obtain ⟨hfault, hs⟩ := step_eq_some.mp hs
  have hquiet : ∀ {P : Prop}, (s'.Deadlocked ↔ P) → (s'.Deadlocked ↔ P ∨ ¬ True) := by
    intro P hiff
    rw [hiff, not_true, or_false]
  have hneither : ∀ {P : Prop}, ¬ s'.Deadlocked → ¬ P → (s'.Deadlocked ↔ P ∨ ¬ True) :=
    fun h' h => hquiet (iff_of_false h' h)
  cases e with
  | setSync inSync =>
    obtain rfl := Option.some.inj hs
    exact hquiet (deadlocked_congr rfl rfl rfl)
  | setApp app =>
    obtain rfl := Option.some.inj hs
    exact hquiet (deadlocked_congr rfl rfl rfl)
  | receive p d =>
    obtain ⟨-, hs⟩ := Option.ite_none_left_eq_some.mp hs
    obtain rfl := Option.some.inj hs
    refine hquiet ?_
    unfold Pipeline.receive
    split_ifs
    · exact deadlocked_congr rfl rfl rfl
    · exact deadlocked_congr rfl rfl rfl
  | add p =>
    obtain ⟨hp, hs⟩ := Option.ite_none_right_eq_some.mp hs
    obtain rfl := Option.some.inj hs
    refine hquiet ⟨?_, ?_⟩
    · rintro ⟨hprocessor, f', hf', -, t, ht⟩
      obtain ⟨f, hf, rfl⟩ := Option.mem_map.mp hf'
      refine ⟨hprocessor, f, hf, (h.flush f hf).1, t, ?_⟩
      split_ifs at ht <;> exact ht
    · rintro ⟨hprocessor, f, hf, hmem, t, ht⟩
      refine ⟨hprocessor, _, Option.mem_map_of_mem _ hf, ?_, t, ?_⟩
      · split_ifs <;> exact Finset.mem_insert_of_mem hmem
      · split_ifs <;> exact ht
  | schedule t =>
    obtain ⟨-, hs⟩ := Option.ite_none_right_eq_some.mp hs
    obtain rfl := Option.some.inj hs
    exact hquiet (deadlocked_congr rfl rfl rfl)
  | onSync first =>
    obtain ⟨⟨hnone, -⟩, hs⟩ := Option.ite_none_right_eq_some.mp hs
    refine hneither (not_deadlocked_of_pick hs) (not_deadlocked_of_flush fun f hf => ?_)
    rw [Option.isNone_iff_eq_none.mp hnone] at hf
    cases hf
  | flushProcess =>
    obtain ⟨f, hf, hs⟩ := Option.bind_eq_some_iff.mp hs
    obtain ⟨hstage, hs⟩ := Option.ite_none_right_eq_some.mp hs
    obtain rfl := Option.some.inj hs
    have hbefore : ¬ s.Deadlocked := by
      refine not_deadlocked_of_flush fun f' hf' t ht => ?_
      rw [hf] at hf'
      obtain rfl := Option.some.inj hf'
      rw [hstage] at ht
      cases ht
    obtain ⟨n, d, hx, -, hcases⟩ := flushProcess_cases h hf hstage
    have huntangled : s.Untangled .flushProcess ↔
        (s.processor = .waiting → s.inSync = true → s.parseEvidence d = none) := by
      refine ⟨fun hall hwaiting hsync => hall hwaiting hsync f hf n d hx, ?_⟩
      intro hnone hwaiting hsync f' hf' m d' hx'
      rw [hf] at hf'
      obtain rfl := Option.some.inj hf'
      rw [hx] at hx'
      cases hx'
      exact hnone hwaiting hsync
    rw [or_iff_right hbefore, huntangled]
    rcases hcases with ⟨-, hparse, -, hflush⟩ | ⟨t, hsync, hparse, heq⟩ | ⟨hsync, heq⟩
    · refine iff_of_false (not_deadlocked_of_flush fun f' hf' t ht => ?_)
        (not_not.mpr fun _ _ => hparse)
      rw [hflush, hf] at hf'
      obtain rfl := Option.some.inj hf'
      rw [hstage] at ht
      cases ht
    · rw [heq]
      constructor
      · intro hd hnone
        have := hnone hd.processor hsync
        rw [hparse] at this
        cases this
      · intro htangled
        refine ⟨?_, _, rfl, (h.flush f hf).1, t, rfl⟩
        by_contra hidle
        exact htangled fun hwaiting => absurd hwaiting hidle
    · rw [heq]
      refine iff_of_false (not_deadlocked_of_flush fun f' hf' t ht => ?_)
        (not_not.mpr fun _ hsync' => ?_)
      · obtain rfl := Option.some.inj hf'
        cases ht
      · rw [hsync] at hsync'
        cases hsync'
  | flushSchedule =>
    obtain ⟨f, hf, hs⟩ := Option.bind_eq_some_iff.mp hs
    split at hs
    · obtain ⟨hidle, hs⟩ := Option.ite_none_right_eq_some.mp hs
      obtain rfl := Option.some.inj hs
      have hnot : s.processor ≠ .waiting := by simp [hidle]
      exact hneither (not_deadlocked_of_processor hnot) (not_deadlocked_of_processor hnot)
    · cases hs
  | flushErase next =>
    obtain ⟨f, hf, hs⟩ := Option.bind_eq_some_iff.mp hs
    obtain ⟨hstage, hs⟩ := Option.ite_none_right_eq_some.mp hs
    refine hneither (not_deadlocked_of_pick hs) (not_deadlocked_of_flush fun f' hf' t ht => ?_)
    rw [hf] at hf'
    obtain rfl := Option.some.inj hf'
    rw [hstage] at ht
    cases ht
  | lock =>
    obtain ⟨hidle, hs⟩ := Option.ite_none_right_eq_some.mp hs
    obtain rfl := Option.some.inj hs
    exact hneither (not_deadlocked_of_processor (by simp))
      (not_deadlocked_of_processor (by simp [hidle]))
  | look due =>
    obtain ⟨hlocked, hs⟩ := Option.ite_none_right_eq_some.mp hs
    have hbefore : ¬ s.Deadlocked := not_deadlocked_of_processor (by simp [hlocked])
    rw [or_iff_right hbefore]
    split at hs
    · next hempty =>
      -- an entry that the flush has to schedule would be on hold
      obtain rfl := Option.some.inj hs
      refine iff_of_false (not_deadlocked_of_processor (by simp [consume])) (not_not.mpr ?_)
      intro f hf t ht
      have hmem := (h.flush f hf).1
      rw [hempty] at hmem
      exact Finset.notMem_empty _ hmem
    · obtain rfl := Option.some.inj hs
      constructor
      · rintro ⟨-, f, hf, -, t, ht⟩ huntangled
        exact huntangled f hf t ht
      · intro htangled
        refine ⟨rfl, ?_⟩
        by_contra hnot
        refine htangled fun f hf t ht => hnot ⟨f, hf, (h.flush f hf).1, t, ht⟩
  | wake due =>
    obtain ⟨⟨-, hempty⟩, hs⟩ := Option.ite_none_right_eq_some.mp hs
    obtain rfl := Option.some.inj hs
    refine hneither (not_deadlocked_of_processor (by simp [consume])) ?_
    rintro ⟨-, f, hf, hmem, -⟩
    rw [hempty] at hmem
    exact Finset.notMem_empty _ hmem

/-- Nothing that happens ends a deadlock. -/
theorem Deadlocked.run {es : List PipelineEvent} (h : s.Deadlocked) (hok : s.fault = false → s.Ok)
    (hs : run step s es = some s') : s'.Deadlocked := by
  induction es generalizing s with
  | nil =>
    obtain rfl := Option.some.inj hs
    exact h
  | cons e es ih =>
    obtain ⟨s₁, hs₁, hs⟩ := run_cons_eq_some.mp hs
    have hok' := hok (step_eq_some.mp hs₁).1
    exact ih ((deadlocked_step_iff hok' hs₁).mpr (Or.inl h)) (hok'.step hs₁) hs

/-- The first state is no deadlock. -/
theorem not_deadlocked_init (inSync : Bool) (app : App) : ¬ (init inSync app).Deadlocked :=
  not_deadlocked_of_processor (by simp [init])

/-- **No deadlock.** In no state of a run the consumer of the calendar and the
flush wait for each other, exactly when the consumer never begins to wait while
the flush has an evidence to schedule, and the flush never gets one while the
consumer waits. -/
theorem never_deadlocked_iff (inSync : Bool) (app : App) (es : List PipelineEvent) (s : Pipeline)
    (h : run step (init inSync app) es = some s) :
    (∀ es' u, es' <+: es → run step (init inSync app) es' = some u → ¬ u.Deadlocked) ↔
      AlongRun step Untangled (init inSync app) es := by
  have hok : ∀ s e s', (s.fault = false → s.Ok) → step s e = some s' →
      s'.fault = false → s'.Ok := fun s e s' hs hstep hfault =>
    (hs (step_eq_some.mp hstep).1).step hstep hfault
  refine safe_iff_alongRun hok (fun s e s' hs hnot hstep => ?_) (fun _ => ok_init inSync app)
    (not_deadlocked_init inSync app) h
  rw [deadlocked_step_iff (hs (step_eq_some.mp hstep).1) hstep, or_iff_right hnot, not_not]

/-- The payment gets into the calendar while nobody waits. -/
theorem never_deadlocked_payment :
    ∃ s, run step (init false tenAtOneApp) (paymentOnHold ++ paymentFlushed) = some s ∧
      ¬ s.Deadlocked := by
  obtain ⟨s, hs, -⟩ := run_paymentFlushed
  have huntangled : AlongRun step Untangled (init false tenAtOneApp)
      (paymentOnHold ++ paymentFlushed) := by
    rw [AlongRun.append_iff run_paymentOnHold, paymentFlushed,
      AlongRun.cons_iff step_flushingPayment]
    exact ⟨⟨trivial, trivial, trivial, trivial, trivial⟩, fun hwaiting => (by cases hwaiting),
      trivial, trivial, trivial⟩
  exact ⟨s, hs, (never_deadlocked_iff false tenAtOneApp _ s hs).mpr huntangled _ s
    List.prefix_rfl hs⟩

/-- The consumer of the calendar begins to wait between the two steps of the
flush of a payment. -/
theorem deadlocked_payment :
    ∃ s, run step (init false tenAtOneApp)
        (paymentOnHold ++ [.flushProcess, .lock, .look true]) = some s ∧ s.Deadlocked := by
  obtain ⟨s, hs, hdead⟩ : ∃ s, run step (flushingPayment.offer paymentFlush 0 (spendOfOne 3))
      [.lock, .look true] = some s ∧ s.Deadlocked :=
    ⟨_, rfl, rfl, _, rfl, Finset.mem_singleton_self 0, _, rfl⟩
  refine ⟨s, ?_, hdead⟩
  rw [run_append, run_paymentOnHold, Option.bind_some, run_cons_eq_some]
  exact ⟨_, step_flushingPayment, hs⟩

end AcCore.Gov.Engine.Pipeline
