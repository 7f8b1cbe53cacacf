import AcCore.Gov.Cash.Overdraft
import AcCore.Gov.Cash.TxCodec
import AcCore.Lib.Run

/-!
# How often a transaction is applied

A transaction comes in as a datagram, of which the relay takes each one once in
a cycle. It is put into the calendar by its time stamp, and the consumer of the
calendar passes it to the cash app unless a later one was passed on before.
A transaction that is applied twice was let through twice: this file counts the
datagrams that the relay lets through.
-/

namespace AcCore.Gov.Engine

open Lib Cash

/-- A datagram. -/
structure Datagram where
  service : UInt16
  payload : Text
  deriving DecidableEq, Repr

/-- `datagram::parse_string`. -/
def Datagram.parseString (d : Datagram) : Text := d.payload.takeWhile (· != '\x00')

/-- `protocol::is_evidence`. -/
def isEvidence (service : UInt16) : Bool := service &&& 3 == 1

/-- `calendar_t::schedule`: after everything with the same time stamp. -/
def schedule (calendar : List Tx) (t : Tx) : List Tx :=
  calendar.takeWhile (fun u => decide (u.ts ≤ t.ts)) ++
    t :: calendar.dropWhile fun u => decide (u.ts ≤ t.ts)

/-- The way of the evidence through a node. `applied` is not part of the code:
the transactions that `process` has booked into the pool. -/
structure Intake where
  /-- The hashes of the datagrams of this cycle. -/
  evidences : Finset Ripemd160
  evidencesOnHold : List Datagram
  inSync : Bool
  calendar : List Tx
  lastEvTs : UInt64
  app : App
  applied : List Tx

/-- What happens to the evidence. -/
inductive IntakeEvent where
  /-- A datagram arrives. -/
  | processWork (d : Datagram)
  /-- The node gets into or out of sync. -/
  | setSync (inSync : Bool)
  /-- What is on hold is processed, in the order in which the set lists it. -/
  | flushEvidencesOnHold (order : List Datagram)
  /-- The consumer of the calendar looks at its first entry, at some time. -/
  | evidenceProcessor (tipTs : UInt64)
  /-- Stage 3: the pool goes out, and a new cycle begins for the relay. -/
  | createLocalDeltas
  /-- Blocks are imported, or the db is cleared. -/
  | chain (db : Db) (policies : Policies 1)

namespace Intake

variable (computeHash : Datagram → Ripemd160) (programs : LockingPrograms)

/-- The node when it starts. -/
def init (app : App) (lastEvTs : UInt64) : Intake := ⟨∅, [], false, [], lastEvTs, app, []⟩

/-- `process_evidence`. -/
def processEvidence (s : Intake) (d : Datagram) : Intake :=
  if s.inSync then
    match s.app.parseEvidence wrapInt64 d.service d.parseString with
    | none => s
    | some t => { s with calendar := schedule s.calendar t }
  else { s with evidencesOnHold := s.evidencesOnHold ++ [d] }

/-- `relay::daemon::process_work`, for evidence. -/
def processWork (s : Intake) (d : Datagram) : Intake :=
  if isEvidence d.service then
    if computeHash d ∈ s.evidences then s
    else processEvidence { s with evidences := insert (computeHash d) s.evidences } d
  else s

/-- One pass of `evidence_processor`; `tipTs` is the time less the interval for
the relay. -/
def evidenceProcessor (s : Intake) (tipTs : UInt64) : Intake :=
  if s.evidencesOnHold ≠ [] then s
  else
    match s.calendar with
    | [] => s
    | t :: rest =>
      if t.ts > tipTs then s
      else if t.ts < s.lastEvTs then { s with calendar := rest }
      else
        { s with
          calendar := rest
          app := s.app.process wrapInt64 programs t
          lastEvTs := t.ts
          applied := if (s.app.batchOf wrapInt64 programs t).isSome then t :: s.applied
            else s.applied }

/-- One event; `none` when it cannot happen. -/
def step (s : Intake) : IntakeEvent → Option Intake
  | .processWork d => some (s.processWork computeHash d)
  | .setSync inSync => some { s with inSync := inSync }
  | .flushEvidencesOnHold order =>
    if s.inSync ∧ order.Perm s.evidencesOnHold then
      some (order.foldl processEvidence { s with evidencesOnHold := [] })
    else none
  | .evidenceProcessor tipTs => some (s.evidenceProcessor programs tipTs)
  | .createLocalDeltas => some { s with evidences := ∅, app := s.app.createLocalDelta.2 }
  | .chain db policies => some { s with app := { s.app with db := db, policies := policies } }

end Intake

/-! ## When nothing is applied twice -/

/-- A transaction taken from the calendar at the time stamp of the one before,
and accepted, was not applied before. -/
def FreshAtSameTs (programs : LockingPrograms) (s : Intake) : IntakeEvent → Prop
  | .evidenceProcessor tipTs => ∀ t rest, s.evidencesOnHold = [] → s.calendar = t :: rest →
      t.ts ≤ tipTs → t.ts = s.lastEvTs → (s.app.batchOf wrapInt64 programs t).isSome →
      t ∉ s.applied
  | _ => True

/-- What was applied is not later than the last one that was passed on. -/
def InOrder (s : Intake) : Prop := ∀ t ∈ s.applied, t.ts ≤ s.lastEvTs

variable {computeHash : Datagram → Ripemd160} {programs : LockingPrograms}

/-- An evidence that arrives is not applied yet. -/
theorem processEvidence_keeps (s : Intake) (d : Datagram) :
    (s.processEvidence d).applied = s.applied ∧ (s.processEvidence d).lastEvTs = s.lastEvTs := by
  unfold Intake.processEvidence
  split
  · split <;> exact ⟨rfl, rfl⟩
  · exact ⟨rfl, rfl⟩

/-- A datagram that arrives is not applied yet. -/
theorem processWork_keeps (s : Intake) (d : Datagram) :
    (s.processWork computeHash d).applied = s.applied ∧
      (s.processWork computeHash d).lastEvTs = s.lastEvTs := by
  unfold Intake.processWork
  split
  · split
    · exact ⟨rfl, rfl⟩
    · exact processEvidence_keeps _ d
  · exact ⟨rfl, rfl⟩

/-- Evidences that arrive are not applied yet. -/
theorem foldl_processEvidence_keeps (ds : List Datagram) (s : Intake) :
    (ds.foldl Intake.processEvidence s).applied = s.applied ∧
      (ds.foldl Intake.processEvidence s).lastEvTs = s.lastEvTs := by
  induction ds generalizing s with
  | nil => exact ⟨rfl, rfl⟩
  | cons d ds ih =>
    obtain ⟨happlied, hts⟩ := processEvidence_keeps s d
    rw [List.foldl_cons]
    exact ⟨(ih _).1.trans happlied, (ih _).2.trans hts⟩

variable (programs) in
/-- A pass of the consumer passes nothing on, or it passes on the first entry
of the calendar, which is not before the last one. -/
theorem evidenceProcessor_cases (s : Intake) (tipTs : UInt64) :
    ((s.evidenceProcessor programs tipTs).applied = s.applied ∧
        (s.evidenceProcessor programs tipTs).lastEvTs = s.lastEvTs ∧
        ∀ t rest, s.evidencesOnHold = [] → s.calendar = t :: rest → t.ts ≤ tipTs →
          t.ts < s.lastEvTs) ∨
      ∃ t rest, s.evidencesOnHold = [] ∧ s.calendar = t :: rest ∧ t.ts ≤ tipTs ∧
        s.lastEvTs ≤ t.ts ∧ (s.evidenceProcessor programs tipTs).lastEvTs = t.ts ∧
        (s.evidenceProcessor programs tipTs).applied =
          if (s.app.batchOf wrapInt64 programs t).isSome then t :: s.applied else s.applied := by
  unfold Intake.evidenceProcessor
  by_cases hhold : s.evidencesOnHold = []
  · rw [if_neg (not_not.mpr hhold)]
    cases hcalendar : s.calendar with
    | nil => exact Or.inl ⟨rfl, rfl, fun t rest _ h => by cases h⟩
    | cons t rest =>
      by_cases hearly : t.ts > tipTs
      · left
        simp only [if_pos hearly]
        refine ⟨trivial, trivial, fun u rest' _ h hle => ?_⟩
        cases h
        exact absurd hearly (UInt64.not_lt.mpr hle)
      · by_cases hlate : t.ts < s.lastEvTs
        · left
          simp only [if_neg hearly, if_pos hlate]
          refine ⟨trivial, trivial, fun u rest' _ h _ => ?_⟩
          cases h
          exact hlate
        · right
          simp only [if_neg hearly, if_neg hlate]
          exact ⟨t, rest, hhold, rfl, UInt64.not_lt.mp hearly, UInt64.not_lt.mp hlate, rfl, rfl⟩
  · rw [if_pos hhold]
    exact Or.inl ⟨rfl, rfl, fun t rest h => absurd h hhold⟩

/-- Every event keeps what was applied in order. -/
theorem InOrder.step {s s' : Intake} {e : IntakeEvent} (hs : InOrder s)
    (h : s.step computeHash programs e = some s') : InOrder s' := by
  have hkeep : s'.applied = s.applied → s'.lastEvTs = s.lastEvTs → InOrder s' := by
    intro happlied hts t ht
    rw [happlied] at ht
    rw [hts]
    exact hs t ht
  cases e with
  | processWork d =>
    cases h
    exact hkeep (processWork_keeps s d).1 (processWork_keeps s d).2
  | flushEvidencesOnHold order =>
    simp only [Intake.step, Option.ite_none_right_eq_some, Option.some.injEq] at h
    obtain ⟨-, rfl⟩ := h
    obtain ⟨happlied, hts⟩ := foldl_processEvidence_keeps order { s with evidencesOnHold := [] }
    exact hkeep happlied hts
  | evidenceProcessor tipTs =>
    cases h
    rcases evidenceProcessor_cases programs s tipTs with
      ⟨happlied, hts, -⟩ | ⟨t, rest, -, -, -, hle, hts, happlied⟩
    · exact hkeep happlied hts
    · intro u hu
      rw [happlied] at hu
      rw [hts]
      split_ifs at hu
      · rcases List.mem_cons.mp hu with rfl | hu
        · exact UInt64.le_refl _
        · exact UInt64.le_trans (hs u hu) hle
      · exact UInt64.le_trans (hs u hu) hle
  | setSync | createLocalDeltas | chain =>
    cases h
    exact hkeep rfl rfl

/-- An event applies nothing twice exactly when it meets the condition: a
transaction that is later than the last one is none of those applied. -/
theorem InOrder.nodup_iff {s s' : Intake} {e : IntakeEvent} (hs : InOrder s)
    (h : s.step computeHash programs e = some s') :
    s'.applied.Nodup ↔ s.applied.Nodup ∧ FreshAtSameTs programs s e := by
  cases e with
  | processWork d =>
    cases h
    rw [(processWork_keeps s d).1]
    simp [FreshAtSameTs]
  | flushEvidencesOnHold order =>
    simp only [Intake.step, Option.ite_none_right_eq_some, Option.some.injEq] at h
    obtain ⟨-, rfl⟩ := h
    rw [(foldl_processEvidence_keeps order { s with evidencesOnHold := [] }).1]
    simp [FreshAtSameTs]
  | evidenceProcessor tipTs =>
    cases h
    rcases evidenceProcessor_cases programs s tipTs with
      ⟨happlied, -, hlate⟩ | ⟨t, rest, hhold, hcalendar, htip, hle, -, happlied⟩
    · rw [happlied]
      refine ⟨fun hnodup => ⟨hnodup, ?_⟩, fun hboth => hboth.1⟩
      intro t rest hhold hcalendar htip hsame
      have := hlate t rest hhold hcalendar htip
      rw [hsame] at this
      exact absurd this (UInt64.lt_irrefl _)
    · have hfresh : FreshAtSameTs programs s (.evidenceProcessor tipTs) ↔
          (t.ts = s.lastEvTs → (s.app.batchOf wrapInt64 programs t).isSome → t ∉ s.applied) := by
        constructor
        · exact fun hf => hf t rest hhold hcalendar htip
        · intro hf u rest' _ hu _
          cases hcalendar.symm.trans hu
          exact hf
      have hlater : t.ts ≠ s.lastEvTs → t ∉ s.applied := by
        intro hne hmem
        exact hne (UInt64.le_antisymm (hs t hmem) hle)
      rw [happlied, hfresh]
      split_ifs with haccepted
      · rw [List.nodup_cons]
        constructor
        · exact fun hnodup => ⟨hnodup.2, fun _ _ => hnodup.1⟩
        · rintro ⟨hnodup, hnew⟩
          by_cases hsame : t.ts = s.lastEvTs
          · exact ⟨hnew hsame haccepted, hnodup⟩
          · exact ⟨hlater hsame, hnodup⟩
      · simp [haccepted]
  | setSync | createLocalDeltas | chain =>
    cases h
    simp [FreshAtSameTs]

/-- No transaction is applied twice exactly when none is accepted again at the time stamp of
the one before. -/
theorem InOrder.nodup_iff_alongRun {s₀ s : Intake} {es : List IntakeEvent} (hs : InOrder s₀)
    (hrun : run (Intake.step computeHash programs) s₀ es = some s) :
    s.applied.Nodup ↔ s₀.applied.Nodup ∧
      AlongRun (Intake.step computeHash programs) (FreshAtSameTs programs) s₀ es :=
  iff_alongRun (P := fun s : Intake => s.applied.Nodup) (fun _ _ _ hs h => hs.step h)
    (fun _ _ _ hs h => hs.nodup_iff h) hs hrun

/-! ## Deliveries -/

section

variable (computeHash : Datagram → Ripemd160)

/-- The relay's set after an event: stage 3 empties it. -/
def relaySet (evidences : Finset Ripemd160) : IntakeEvent → Finset Ripemd160
  | .processWork d =>
    if isEvidence d.service then insert (computeHash d) evidences else evidences
  | .createLocalDeltas => ∅
  | _ => evidences

/-- The evidence that the relay lets through at an event: what is not in its set. -/
def letThroughAt (evidences : Finset Ripemd160) : IntakeEvent → List Datagram
  | .processWork d =>
    if isEvidence d.service = true ∧ computeHash d ∉ evidences then [d] else []
  | _ => []

/-- The evidence that the relay lets through, over all cycles. -/
def letThrough (evidences : Finset Ripemd160) : List IntakeEvent → List Datagram
  | [] => []
  | e :: es =>
    letThroughAt computeHash evidences e ++ letThrough (relaySet computeHash evidences e) es

end

/-- The datagram carries the transaction, in whatever spelling. -/
def Datagram.carries (t : Tx) (d : Datagram) : Bool :=
  decide (d.service = cashTx) && decide ((Tx.fromB58 d.parseString).toOption = some t)

/-- The relay has let at most one datagram through that carries the transaction. -/
def LetThroughOnce (computeHash : Datagram → Ripemd160) (es : List IntakeEvent) (t : Tx) : Prop :=
  (letThrough computeHash ∅ es).countP (Datagram.carries t) ≤ 1

/-- What was applied of a transaction, and what waits to be. -/
def Intake.copies (s : Intake) (t : Tx) : ℕ :=
  s.applied.count t + s.calendar.count t + s.evidencesOnHold.countP (Datagram.carries t)

/-- What the relay set lets through adds up over the events. -/
theorem letThrough_append (evidences : Finset Ripemd160) (es es' : List IntakeEvent) :
    letThrough computeHash evidences (es ++ es') = letThrough computeHash evidences es ++
      letThrough computeHash (es.foldl (relaySet computeHash) evidences) es' := by
  induction es generalizing evidences with
  | nil => rfl
  | cons e es ih => simp only [List.cons_append, letThrough, ih, List.append_assoc, List.foldl_cons]

/-- A datagram carries the transaction that the apps parse from it. -/
theorem carries_of_parseEvidence {app : App} {d : Datagram} {t : Tx}
    (h : app.parseEvidence wrapInt64 d.service d.parseString = some t) : d.carries t = true := by
  unfold App.parseEvidence at h
  split_ifs at h with hservice
  split at h
  · cases h
  · next u hread =>
    split_ifs at h
    obtain rfl := Option.some.inj h
    simp [Datagram.carries, hservice, hread, Except.toOption]

/-- Scheduling adds one copy of the transaction. -/
theorem count_schedule (calendar : List Tx) (t u : Tx) :
    (schedule calendar t).count u = calendar.count u + if t = u then 1 else 0 := by
  have hsplit := congrArg (List.count u)
    (List.takeWhile_append_dropWhile (p := fun v : Tx => decide (v.ts ≤ t.ts)) (l := calendar))
  rw [List.count_append] at hsplit
  rw [schedule, List.count_append, List.count_cons]
  simp only [beq_iff_eq]
  omega

/-- An evidence adds a copy only of the transaction that it carries. -/
theorem copies_processEvidence (s : Intake) (d : Datagram) (t : Tx) :
    (s.processEvidence d).copies t ≤ s.copies t + if d.carries t then 1 else 0 := by
  unfold Intake.processEvidence
  split_ifs with hsync hcarries hcarries
  · cases hparse : s.app.parseEvidence wrapInt64 d.service d.parseString with
    | none => exact Nat.le_succ _
    | some u =>
      simp only [Intake.copies, count_schedule]
      split_ifs <;> omega
  · cases hparse : s.app.parseEvidence wrapInt64 d.service d.parseString with
    | none => exact le_rfl
    | some u =>
      have hne : u ≠ t := fun heq => hcarries (heq ▸ carries_of_parseEvidence hparse)
      simp [Intake.copies, count_schedule, hne]
  all_goals simp [Intake.copies, hcarries]
  omega

/-- Evidences add as many copies as carry the transaction. -/
theorem copies_foldl_processEvidence (ds : List Datagram) (s : Intake) (t : Tx) :
    (ds.foldl Intake.processEvidence s).copies t ≤ s.copies t + ds.countP (Datagram.carries t) := by
  induction ds generalizing s with
  | nil => simp
  | cons d ds ih =>
    have hfirst := copies_processEvidence s d t
    have hrest := ih (s.processEvidence d)
    rw [List.foldl_cons, List.countP_cons]
    omega

/-- Scheduling leaves the relay set. -/
theorem evidences_processEvidence (s : Intake) (d : Datagram) :
    (s.processEvidence d).evidences = s.evidences := by
  unfold Intake.processEvidence
  split
  · split <;> rfl
  · rfl

/-- Scheduling several evidences leaves the relay set. -/
theorem evidences_foldl_processEvidence (ds : List Datagram) (s : Intake) :
    (ds.foldl Intake.processEvidence s).evidences = s.evidences := by
  induction ds generalizing s with
  | nil => rfl
  | cons d ds ih => rw [List.foldl_cons, ih, evidences_processEvidence]

variable (programs) in
/-- The consumer moves a transaction from the calendar to what was applied, or drops it. -/
theorem copies_evidenceProcessor (s : Intake) (tipTs : UInt64) (t : Tx) :
    (s.evidenceProcessor programs tipTs).evidences = s.evidences ∧
      (s.evidenceProcessor programs tipTs).copies t ≤ s.copies t := by
  unfold Intake.evidenceProcessor
  split_ifs with hhold
  · exact ⟨rfl, le_rfl⟩
  cases hcalendar : s.calendar with
  | nil => exact ⟨rfl, le_rfl⟩
  | cons u rest =>
    dsimp only
    split_ifs <;> refine ⟨rfl, ?_⟩ <;>
      simp only [Intake.copies, hcalendar, List.count_cons] <;> omega

/-- An event adds no copies of a transaction but what the relay lets through. -/
theorem copies_step {s s' : Intake} {e : IntakeEvent}
    (h : s.step computeHash programs e = some s') (t : Tx) :
    s'.evidences = relaySet computeHash s.evidences e ∧
      s'.copies t ≤ s.copies t +
        (letThroughAt computeHash s.evidences e).countP (Datagram.carries t) := by
  cases e with
  | processWork d =>
    cases h
    unfold Intake.processWork relaySet letThroughAt
    by_cases hevidence : isEvidence d.service = true
    · by_cases hknown : computeHash d ∈ s.evidences
      · simp [hevidence, hknown]
      · have hcopies := copies_processEvidence
          { s with evidences := insert (computeHash d) s.evidences } d t
        simp only [hevidence, hknown, if_true, if_false, not_false_iff, and_self,
          List.countP_singleton]
        exact ⟨(evidences_processEvidence _ d).trans rfl, hcopies⟩
    · simp [hevidence]
  | flushEvidencesOnHold order =>
    simp only [Intake.step, Option.ite_none_right_eq_some, Option.some.injEq] at h
    obtain ⟨⟨-, hperm⟩, rfl⟩ := h
    have hcopies := copies_foldl_processEvidence order { s with evidencesOnHold := [] } t
    rw [hperm.countP_eq] at hcopies
    simp only [Intake.copies, List.countP_nil, letThroughAt] at hcopies ⊢
    exact ⟨evidences_foldl_processEvidence order _, by omega⟩
  | evidenceProcessor tipTs =>
    cases h
    exact copies_evidenceProcessor programs s tipTs t
  | setSync | createLocalDeltas | chain =>
    cases h
    exact ⟨rfl, le_rfl⟩

/-- **A transaction is applied at most as often as the relay lets it through.** -/
theorem copies_le {s s' : Intake} {es : List IntakeEvent}
    (h : run (Intake.step computeHash programs) s es = some s') (t : Tx) :
    s'.copies t ≤ s.copies t +
      (letThrough computeHash s.evidences es).countP (Datagram.carries t) := by
  induction es generalizing s with
  | nil =>
    obtain rfl := Option.some.inj h
    exact Nat.le_add_right _ _
  | cons e es ih =>
    obtain ⟨s₁, hs₁, hrest⟩ := run_cons_eq_some.mp h
    obtain ⟨hset, hcopies⟩ := copies_step hs₁ t
    have hle := ih hrest
    rw [hset] at hle
    rw [letThrough, List.countP_append]
    omega

/-- Whenever the consumer takes a transaction at the time stamp of the one before and `process`
accepts it, the relay has let through at most one datagram that carries it. -/
def NotLetThroughAgain (computeHash : Datagram → Ripemd160) (programs : LockingPrograms)
    (s₀ : Intake) (es : List IntakeEvent) : Prop :=
  ∀ pre tipTs post s t rest, es = pre ++ .evidenceProcessor tipTs :: post →
    run (Intake.step computeHash programs) s₀ pre = some s → s.evidencesOnHold = [] →
    s.calendar = t :: rest → t.ts ≤ tipTs → t.ts = s.lastEvTs →
    (s.app.batchOf wrapInt64 programs t).isSome → LetThroughOnce computeHash pre t

/-- **Replay.** No transaction is applied twice in a run in which the relay has let through no
second datagram of a transaction that is accepted at the time stamp of the one before. -/
theorem applied_once (computeHash : Datagram → Ripemd160) (programs : LockingPrograms)
    {app : App} {lastEvTs : UInt64} {es : List IntakeEvent} {s : Intake}
    (honce : NotLetThroughAgain computeHash programs (Intake.init app lastEvTs) es)
    (hrun : run (Intake.step computeHash programs) (Intake.init app lastEvTs) es = some s) :
    s.applied.Nodup := by
  have hinit : InOrder (Intake.init app lastEvTs) := fun t ht => absurd ht List.not_mem_nil
  refine (hinit.nodup_iff_alongRun hrun).mpr ⟨List.nodup_nil, alongRun_iff.mpr ?_⟩
  intro pre e post s₁ hsplit hs₁
  cases e with
  | evidenceProcessor tipTs =>
    intro t rest hhold hcalendar htip hsame haccepted hagain
    have hlet := honce pre tipTs post s₁ t rest hsplit hs₁ hhold hcalendar htip hsame haccepted
    have hle : s₁.copies t ≤ (letThrough computeHash ∅ pre).countP (Datagram.carries t) := by
      simpa [Intake.copies, Intake.init] using copies_le hs₁ t
    -- one copy was applied and another one waits
    have happlied : 0 < s₁.applied.count t := List.count_pos_iff.mpr hagain
    have hwaits : 0 < s₁.calendar.count t := List.count_pos_iff.mpr (by simp [hcalendar])
    unfold LetThroughOnce at hlet
    unfold Intake.copies at hle
    omega
  | _ => exact True.intro

/-! ## A datagram that comes again in the next cycle -/

/-- An app with 10 at address 1, which is not locked. -/
def tenAtOneApp : App := { App.create with db := tenAtOne }

/-- The datagram of a payment of 2 with a fee of 1. -/
def paymentDatagram : Datagram := ⟨cashTx, (spendOfOne 3).toB58⟩

/-- The datagram arrives and the consumer of the calendar looks. -/
def deliveryRun : List IntakeEvent :=
  [.processWork paymentDatagram, .evidenceProcessor 1560000000000000000]

/-- The datagram arrives in two cycles, and nothing else. -/
def replayRun : List IntakeEvent := deliveryRun ++ .createLocalDeltas :: deliveryRun

/-- A node in sync, before the datagram arrives. -/
def beforeDelivery : Intake :=
  { Intake.init tenAtOneApp 1540000000000000000 with inSync := true }

/-- The text of a datagram made from a transaction. -/
theorem parseString_toB58 (service : UInt16) (t : Tx) :
    (⟨service, t.toB58⟩ : Datagram).parseString = t.toB58 :=
  (Base58.plain_text (Base58.encode_mem_alphabet _)).1

/-- The datagram is read as the payment it was made from. -/
theorem parseEvidence_paymentDatagram {app : App} (h : app.policies = tempLoad) :
    app.parseEvidence wrapInt64 paymentDatagram.service paymentDatagram.parseString =
      some (spendOfOne 3) := by
  have hpayload : paymentDatagram.parseString = (spendOfOne 3).toB58 :=
    parseString_toB58 cashTx (spendOfOne 3)
  have hread : Tx.fromB58 (spendOfOne 3).toB58 = .ok (spendOfOne 3) := by
    rw [Tx.fromB58_toB58]
    rfl
  have hcheck : app.basicCheck wrapInt64 (spendOfOne 3) = true := by
    rw [App.basicCheck, h]
    decide +kernel
  rw [hpayload, App.parseEvidence, if_pos (show paymentDatagram.service = cashTx from rfl), hread]
  simp only [hcheck, if_true]

/-- The first evidence of a cycle is scheduled. -/
theorem processWork_first (computeHash : Datagram → Ripemd160) (lastEvTs : UInt64)
    (applied : List Tx) {d : Datagram} {app : App} {t : Tx} (hd : isEvidence d.service = true)
    (hparse : app.parseEvidence wrapInt64 d.service d.parseString = some t) :
    Intake.processWork computeHash ⟨∅, [], true, [], lastEvTs, app, applied⟩ d =
      ⟨{computeHash d}, [], true, [t], lastEvTs, app, applied⟩ := by
  rw [Intake.processWork, if_pos hd, if_neg (Finset.notMem_empty _), Intake.processEvidence,
    if_pos rfl, hparse]
  rfl

/-- A node that waits for the payment, with the account as it was. -/
structure AwaitsPayment (s : Intake) : Prop where
  evidences : s.evidences = ∅
  onHold : s.evidencesOnHold = []
  inSync : s.inSync = true
  calendar : s.calendar = []
  lastEvTs : s.lastEvTs ≤ (spendOfOne 3).ts
  app : s.app = tenAtOneApp

/-- The datagram is applied, and after the next contribution the node waits for
it again. -/
theorem AwaitsPayment.delivery {s : Intake} (hs : AwaitsPayment s) :
    ∃ s', run (Intake.step (fun _ => Ripemd160.zero) noPrograms) s deliveryRun = some s' ∧
      s'.applied = spendOfOne 3 :: s.applied ∧
      AwaitsPayment { s' with evidences := ∅, app := s'.app.createLocalDelta.2 } := by
  obtain ⟨evidences, onHold, inSync, calendar, lastEvTs, app, applied⟩ := s
  obtain ⟨rfl, rfl, rfl, rfl, hts, rfl⟩ := hs
  have hparse : tenAtOneApp.parseEvidence wrapInt64 paymentDatagram.service
      paymentDatagram.parseString = some (spendOfOne 3) := parseEvidence_paymentDatagram rfl
  have haccepted : (tenAtOneApp.batchOf wrapInt64 noPrograms (spendOfOne 3)).isSome := by
    decide +kernel
  have hafter : (tenAtOneApp.process wrapInt64 noPrograms (spendOfOne 3)).createLocalDelta.2 =
      tenAtOneApp := by
    decide +kernel
  have hnotlate : ¬ (spendOfOne 3).ts < lastEvTs := UInt64.not_lt.mpr hts
  refine ⟨⟨{Ripemd160.zero}, [], true, [], (spendOfOne 3).ts,
    tenAtOneApp.process wrapInt64 noPrograms (spendOfOne 3), spendOfOne 3 :: applied⟩, ?_, rfl,
    rfl, rfl, rfl, rfl, UInt64.le_refl _, hafter⟩
  have hreceived := processWork_first (fun _ => Ripemd160.zero) lastEvTs applied
    (show isEvidence paymentDatagram.service = true by decide) hparse
  have htaken : Intake.evidenceProcessor noPrograms
      ⟨{Ripemd160.zero}, [], true, [spendOfOne 3], lastEvTs, tenAtOneApp, applied⟩
        1560000000000000000 =
        ⟨{Ripemd160.zero}, [], true, [], (spendOfOne 3).ts,
          tenAtOneApp.process wrapInt64 noPrograms (spendOfOne 3), spendOfOne 3 :: applied⟩ := by
    simp only [Intake.evidenceProcessor, if_neg hnotlate, if_pos haccepted]
    rfl
  rw [deliveryRun, run_cons_eq_some]
  refine ⟨_, congrArg some hreceived, ?_⟩
  rw [run_cons_eq_some]
  exact ⟨_, congrArg some htaken, rfl⟩

/-- The payment is not in the state before it is delivered. -/
theorem awaitsPayment_beforeDelivery : AwaitsPayment beforeDelivery :=
  ⟨rfl, rfl, rfl, rfl, by decide, rfl⟩

/-- A datagram that comes again in its cycle does nothing. -/
theorem processWork_again (computeHash : Datagram → Ripemd160) (s : Intake) (d : Datagram) :
    (s.processWork computeHash d).processWork computeHash d = s.processWork computeHash d := by
  by_cases hevidence : isEvidence d.service = true
  · have hknown : computeHash d ∈ (s.processWork computeHash d).evidences := by
      unfold Intake.processWork
      rw [if_pos hevidence]
      split_ifs with hknown
      · exact hknown
      · rw [evidences_processEvidence]
        exact Finset.mem_insert_self _ _
    conv_lhs => rw [Intake.processWork]
    rw [if_pos hevidence, if_pos hknown]
  · simp [Intake.processWork, hevidence]

/-- The datagram arrives twice in a cycle, after a payment of the same time stamp. -/
def sameCycleRun : List IntakeEvent := .setSync true :: .processWork paymentDatagram :: deliveryRun

/-- The payment is applied once: it has the time stamp of the one before, and the relay has let
one of the two datagrams through. -/
theorem applied_once_sameCycle :
    ∃ s, run (Intake.step (fun _ => Ripemd160.zero) noPrograms)
        (Intake.init tenAtOneApp (spendOfOne 3).ts) sameCycleRun = some s ∧
      s.applied = [spendOfOne 3] ∧ s.applied.Nodup := by
  have hawaits : AwaitsPayment { Intake.init tenAtOneApp (spendOfOne 3).ts with inSync := true } :=
    ⟨rfl, rfl, rfl, rfl, UInt64.le_refl _, rfl⟩
  obtain ⟨s, hs, happlied, -⟩ := hawaits.delivery
  have hrun : run (Intake.step (fun _ => Ripemd160.zero) noPrograms)
      (Intake.init tenAtOneApp (spendOfOne 3).ts) sameCycleRun = some s := by
    refine run_cons_eq_some.mpr ⟨_, rfl, run_cons_eq_some.mpr ⟨_, rfl, ?_⟩⟩
    obtain ⟨s₁, hs₁, hrest⟩ := run_cons_eq_some.mp hs
    refine run_cons_eq_some.mpr ⟨s₁, ?_, hrest⟩
    rw [← hs₁]
    exact congrArg some (processWork_again _ _ _)
  have hlet : letThrough (fun _ => Ripemd160.zero) ∅ sameCycleRun = [paymentDatagram] := by
    simp [sameCycleRun, deliveryRun, letThrough, letThroughAt, relaySet,
      show isEvidence paymentDatagram.service = true by decide]
  refine ⟨s, hrun, happlied, applied_once _ noPrograms ?_ hrun⟩
  intro pre tipTs post s₁ t rest hsplit _ _ _ _ _ _
  rw [hsplit, letThrough_append] at hlet
  have hlength := congrArg List.length hlet
  rw [List.length_append, List.length_singleton] at hlength
  exact List.countP_le_length.trans (by omega)

/-- A datagram that comes again in the next cycle is applied again. -/
theorem payment_applied_twice :
    ∃ s, run (Intake.step (fun _ => Ripemd160.zero) noPrograms)
        (Intake.init tenAtOneApp 1540000000000000000) (.setSync true :: replayRun) = some s ∧
      s.applied = [spendOfOne 3, spendOfOne 3] ∧ ¬ s.applied.Nodup := by
  obtain ⟨s, hs, happlied, hawaits⟩ := awaitsPayment_beforeDelivery.delivery
  obtain ⟨s', hs', happlied', -⟩ := hawaits.delivery
  have hrun : run (Intake.step (fun _ => Ripemd160.zero) noPrograms) beforeDelivery replayRun =
      some s' := by
    rw [replayRun, run_append, hs, Option.bind_some]
    exact run_cons_eq_some.mpr ⟨_, rfl, hs'⟩
  have htwice : s'.applied = [spendOfOne 3, spendOfOne 3] := by
    rw [happlied']
    exact congrArg (List.cons (spendOfOne 3)) happlied
  refine ⟨s', run_cons_eq_some.mpr ⟨beforeDelivery, rfl, hrun⟩, htwice, ?_⟩
  rw [htwice]
  simp

end AcCore.Gov.Engine
