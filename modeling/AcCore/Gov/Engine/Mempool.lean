import AcCore.Gov.Engine.EvidenceFlood

/-!
# Transactions in the network

Evidence arrives at the nodes in different orders. Each node enters it into its calendar,
and passes it on to the cash app when the time that it has for the relay is over. This file
determines when the apps of all nodes have the same pool at the end of a cycle: the one of
the transactions in the order of their time stamps.
-/

namespace AcCore.Gov.Engine

open Lib Gov.Cash

/-! ## The calendar -/

/-- Every transaction is later than those before it. -/
def Chronological (calendar : List Tx) : Prop := calendar.Pairwise fun t u => t.ts < u.ts

/-- A transaction is put behind those that are not later. -/
theorem schedule_cons (u : Tx) (calendar : List Tx) (t : Tx) :
    schedule (u :: calendar) t =
      if u.ts ≤ t.ts then u :: schedule calendar t else t :: u :: calendar := by
  unfold schedule
  by_cases hle : u.ts ≤ t.ts
  · simp [hle]
  · simp [hle]

/-- Scheduling a transaction adds it and nothing else. -/
theorem schedule_perm (calendar : List Tx) (t : Tx) :
    (schedule calendar t).Perm (t :: calendar) := by
  have hsplit := List.takeWhile_append_dropWhile (p := fun u : Tx => decide (u.ts ≤ t.ts))
    (l := calendar)
  rw [schedule]
  exact List.perm_middle.trans (List.Perm.of_eq (congrArg (t :: ·) hsplit))

/-- Scheduling keeps the calendar in the order of its times. -/
theorem Chronological.schedule {calendar : List Tx} {t : Tx} (h : Chronological calendar)
    (ht : ∀ u ∈ calendar, u.ts ≠ t.ts) : Chronological (schedule calendar t) := by
  induction calendar with
  | nil => exact List.pairwise_singleton _ _
  | cons u calendar ih =>
    obtain ⟨hu, hcalendar⟩ := List.pairwise_cons.mp h
    rw [schedule_cons]
    split_ifs with hle
    · have hlt : u.ts < t.ts := UInt64.lt_of_le_of_ne hle (ht u List.mem_cons_self)
      refine List.pairwise_cons.mpr ⟨fun x hx => ?_, ?_⟩
      · rcases List.mem_cons.mp ((schedule_perm calendar t).mem_iff.mp hx) with rfl | hx
        · exact hlt
        · exact hu x hx
      · exact ih hcalendar fun x hx => ht x (List.mem_cons_of_mem u hx)
    · have hlt : t.ts < u.ts := UInt64.not_le.mp hle
      refine List.pairwise_cons.mpr ⟨fun x hx => ?_, h⟩
      rcases List.mem_cons.mp hx with rfl | hx
      · exact hlt
      · exact UInt64.lt_trans hlt (hu x hx)

/-- A calendar in strict order of times has nothing twice. -/
theorem Chronological.nodup {calendar : List Tx} (h : Chronological calendar) : calendar.Nodup :=
  List.Pairwise.imp (fun {t u} hlt (heq : t = u) => UInt64.lt_irrefl u.ts (heq ▸ hlt)) h

/-- Two calendars with the same transactions are the same. -/
theorem Chronological.eq_of_perm {ts us : List Tx} (ht : Chronological ts)
    (hu : Chronological us) (h : ts.Perm us) : ts = us :=
  h.eq_of_pairwise (fun _ _ _ _ hab hba => absurd hba (UInt64.lt_asymm hab)) ht hu

/-- Transactions of different time stamps are all scheduled. -/
theorem chronological_foldl_schedule {ts calendar : List Tx} (h : Chronological calendar)
    (hnodup : ((calendar ++ ts).map Tx.ts).Nodup) :
    Chronological (ts.foldl schedule calendar) ∧
      (ts.foldl schedule calendar).Perm (calendar ++ ts) := by
  induction ts generalizing calendar with
  | nil => exact ⟨h, by simp⟩
  | cons t ts ih =>
    have hperm : (schedule calendar t ++ ts).Perm (calendar ++ t :: ts) :=
      ((schedule_perm calendar t).append_right ts).trans List.perm_middle.symm
    have hne : ∀ u ∈ calendar, u.ts ≠ t.ts := by
      rw [List.map_append, List.nodup_append] at hnodup
      intro u hu
      exact hnodup.2.2 _ (List.mem_map_of_mem hu) _ (by simp)
    obtain ⟨hchron, hrest⟩ := ih (h.schedule hne) ((hperm.map Tx.ts).nodup_iff.mpr hnodup)
    exact ⟨hchron, hrest.trans hperm⟩

/-- The transaction of a datagram, if this is one that the node schedules. -/
def txOf (a : App) (d : Datagram) : Option Tx :=
  a.parseEvidence wrapInt64 d.service d.parseString

/-- The calendar of all transactions in these datagrams. -/
def calendarOf (a : App) (ds : List Datagram) : List Tx :=
  (ds.dedup.filterMap (txOf a)).foldl schedule []

/-- The apps of a node and of another with the same policies schedule the same. -/
theorem txOf_congr {a b : App} (h : a.policies = b.policies) (d : Datagram) :
    txOf a d = txOf b d := by
  have hcheck : ∀ t, a.basicCheck wrapInt64 t = b.basicCheck wrapInt64 t := fun t => by
    rw [App.basicCheck, App.basicCheck, h]
  unfold txOf App.parseEvidence
  split_ifs
  · cases Tx.fromB58 d.parseString with
    | error e => rfl
    | ok t => simp only [hcheck]
  · rfl

/-- Processing a transaction leaves the policies as they are. -/
theorem policies_process (programs : LockingPrograms) (a : App) (t : Tx) :
    (a.process wrapInt64 programs t).policies = a.policies := by
  unfold App.process
  split <;> rfl

/-- Processing transactions leaves the policies as they are. -/
theorem policies_foldl_process (programs : LockingPrograms) (a : App) (ts : List Tx) :
    (ts.foldl (App.process wrapInt64 programs) a).policies = a.policies := by
  induction ts generalizing a with
  | nil => rfl
  | cons t ts ih => rw [List.foldl_cons, ih, policies_process]

/-! ## What is pending -/

/-- What a node has still to pass on: what is in the calendar, and what is on hold. -/
def Intake.pending (a : App) (s : Intake) : List Tx :=
  s.calendar ++ s.evidencesOnHold.filterMap (txOf a)

/-- Evidence goes into the calendar, or on hold. -/
theorem processEvidence_cases {a : App} {s : Intake} (ha : s.app.policies = a.policies)
    (d : Datagram) :
    s.processEvidence d =
      if s.inSync then { s with calendar := (txOf a d).elim s.calendar (schedule s.calendar) }
      else { s with evidencesOnHold := s.evidencesOnHold ++ [d] } := by
  have hparse : s.app.parseEvidence wrapInt64 d.service d.parseString = txOf a d :=
    txOf_congr ha d
  unfold Intake.processEvidence
  rw [hparse]
  split_ifs
  · cases txOf a d <;> rfl
  · rfl

/-- What a datagram adds to what is pending. -/
theorem pending_processEvidence {a : App} {s : Intake} (ha : s.app.policies = a.policies)
    (d : Datagram) :
    ((s.processEvidence d).pending a).Perm (s.pending a ++ (txOf a d).toList) := by
  rw [processEvidence_cases ha]
  split_ifs
  · dsimp only [Intake.pending]
    cases txOf a d with
    | none => simp
    | some t =>
      rw [Option.elim_some, Option.toList_some]
      exact ((schedule_perm s.calendar t).append_right _).trans
        (List.perm_append_singleton t _).symm
  · dsimp only [Intake.pending]
    rw [List.filterMap_append, List.append_assoc]
    cases h : txOf a d <;> simp [h]

/-- The calendar stays chronological where all time stamps are different. -/
theorem chronological_processEvidence {a : App} {s : Intake}
    (ha : s.app.policies = a.policies) {d : Datagram} (h : Chronological s.calendar)
    (hnodup : ((s.pending a ++ (txOf a d).toList).map Tx.ts).Nodup) :
    Chronological (s.processEvidence d).calendar := by
  rw [processEvidence_cases ha]
  split_ifs
  · cases ht : txOf a d with
    | none => exact h
    | some t =>
      refine h.schedule fun u hu => ?_
      rw [ht, List.map_append, List.nodup_append] at hnodup
      exact hnodup.2.2 _ (List.mem_map_of_mem (List.mem_append_left _ hu)) _ (by simp)
  · exact h

/-- An evidence that arrives is only scheduled: the app stays. -/
theorem app_processEvidence (s : Intake) (d : Datagram) : (s.processEvidence d).app = s.app := by
  unfold Intake.processEvidence
  split
  · split <;> rfl
  · rfl

/-- What a flush adds to what is pending. -/
theorem pending_foldl_processEvidence {a : App} (ds : List Datagram) {s : Intake}
    (ha : s.app.policies = a.policies) (h : Chronological s.calendar)
    (hnodup : ((s.pending a ++ ds.filterMap (txOf a)).map Tx.ts).Nodup) :
    Chronological (ds.foldl Intake.processEvidence s).calendar ∧
      ((ds.foldl Intake.processEvidence s).pending a).Perm
        (s.pending a ++ ds.filterMap (txOf a)) ∧
      (ds.foldl Intake.processEvidence s).app = s.app := by
  induction ds generalizing s with
  | nil => exact ⟨h, by simp, rfl⟩
  | cons d ds ih =>
    have hsplit : (d :: ds).filterMap (txOf a) = (txOf a d).toList ++ ds.filterMap (txOf a) := by
      cases ht : txOf a d <;> simp [ht]
    rw [hsplit, ← List.append_assoc] at hnodup ⊢
    have hperm := (pending_processEvidence ha d).append_right (ds.filterMap (txOf a))
    have hfirst : ((s.pending a ++ (txOf a d).toList).map Tx.ts).Nodup := by
      rw [List.map_append] at hnodup
      exact hnodup.of_append_left
    obtain ⟨hchron, hpending, happ⟩ := ih
      (by rw [app_processEvidence]; exact ha)
      (chronological_processEvidence ha h hfirst)
      ((hperm.map Tx.ts).nodup_iff.mpr hnodup)
    exact ⟨hchron, hpending.trans hperm, happ.trans (app_processEvidence s d)⟩

/-! ## One node -/

/-- The datagrams have different hashes, and their transactions different time stamps. -/
structure Distinct (computeHash : Datagram → Ripemd160) (P : Datagram → Prop) (a : App) :
    Prop where
  hash : ∀ d d', P d → P d' → computeHash d = computeHash d' → d = d'
  ts : ∀ d d' t t', P d → P d' → txOf a d = some t → txOf a d' = some t' → t.ts = t'.ts → d = d'

/-- What a node has done in a cycle that began with the app `a`: it has passed on the
transactions `done`, and what is pending or has not arrived is later. -/
structure RelayNode.Books (computeHash : Datagram → Ripemd160) (programs : LockingPrograms)
    (P : Datagram → Prop) (a : App) (r : RelayNode) (done : List Tx) : Prop where
  ok : r.Ok computeHash P
  app : r.intake.app = done.foldl (App.process wrapInt64 programs) a
  calendar : Chronological r.intake.calendar
  sorted : Chronological done
  content : (done ++ r.intake.pending a).Perm (r.taken.filterMap (txOf a))
  done_le : ∀ t ∈ done, t.ts ≤ r.intake.lastEvTs
  lt_pending : ∀ t ∈ r.intake.pending a, r.intake.lastEvTs < t.ts
  lt_coming : ∀ d, P d → computeHash d ∉ r.intake.evidences → ∀ t, txOf a d = some t →
    r.intake.lastEvTs < t.ts

variable {computeHash : Datagram → Ripemd160} {programs : LockingPrograms}
  {P : Datagram → Prop} {a : App}

/-- Distinct datagrams give transactions of distinct times. -/
theorem Distinct.nodup_ts (h : Distinct computeHash P a) {ds : List Datagram} (hds : ds.Nodup)
    (hP : ∀ d ∈ ds, P d) : ((ds.filterMap (txOf a)).map Tx.ts).Nodup := by
  rw [List.Nodup, List.pairwise_map, List.pairwise_filterMap]
  refine hds.imp_of_mem fun {d d'} hd hd' hne t ht t' ht' hts => hne ?_
  exact h.ts d d' t t' (hP d hd) (hP d' hd') ht ht' hts

/-- The calendar of a cycle has each transaction once, in the order of the time stamps. -/
theorem Distinct.calendarOf {ds : List Datagram} (h : Distinct computeHash (· ∈ ds) a) :
    Chronological (calendarOf a ds) ∧ (calendarOf a ds).Perm (ds.dedup.filterMap (txOf a)) :=
  chronological_foldl_schedule List.Pairwise.nil
    (h.nodup_ts (List.nodup_dedup ds) fun _ hd => List.mem_dedup.mp hd)

namespace RelayNode.Books

variable {r : RelayNode} {done : List Tx} {d : Datagram}

/-- The policies of the books are those that the cycle began with. -/
theorem policies (h : r.Books computeHash programs P a done) :
    r.intake.app.policies = a.policies := by
  rw [h.app, policies_foldl_process]

/-- No two transactions have one time stamp. -/
theorem nodup_ts (h : r.Books computeHash programs P a done)
    (hdistinct : Distinct computeHash P a) :
    ((done ++ r.intake.pending a).map Tx.ts).Nodup :=
  (h.content.map Tx.ts).nodup_iff.mpr (hdistinct.nodup_ts h.ok.once.of_map h.ok.given)

/-- A datagram arrives. -/
theorem processWork (h : r.Books computeHash programs P a done)
    (hdistinct : Distinct computeHash P a) (hd : P d) :
    (r.processWork computeHash d).1.Books computeHash programs P a done := by
  have hok := h.ok.processWork hd
  by_cases hnew : isEvidence d.service ∧ computeHash d ∉ r.intake.evidences
  · have hr : (r.processWork computeHash d).1 =
        ⟨({ r.intake with evidences := insert (computeHash d) r.intake.evidences } :
          Intake).processEvidence d, r.taken ++ [d]⟩ := by
      rw [RelayNode.processWork, if_pos hnew, Intake.processWork, if_pos hnew.1, if_neg hnew.2]
    rw [hr] at hok ⊢
    set s : Intake := { r.intake with evidences := insert (computeHash d) r.intake.evidences }
      with hs
    have hpolicies : s.app.policies = a.policies := h.policies
    have hpending := pending_processEvidence hpolicies d
    have hts : (s.processEvidence d).lastEvTs = r.intake.lastEvTs := (processEvidence_keeps s d).2
    have hcontent : (done ++ (s.processEvidence d).pending a).Perm
        ((r.taken ++ [d]).filterMap (txOf a)) := by
      have hlast : [d].filterMap (txOf a) = (txOf a d).toList := by
        cases ht : txOf a d <;> simp [ht]
      rw [List.filterMap_append, hlast]
      refine (hpending.append_left done).trans ?_
      rw [← List.append_assoc]
      exact h.content.append_right _
    have hnodup : ((done ++ (s.processEvidence d).pending a).map Tx.ts).Nodup :=
      (hcontent.map Tx.ts).nodup_iff.mpr (hdistinct.nodup_ts hok.once.of_map hok.given)
    have hlater : ((s.pending a ++ (txOf a d).toList).map Tx.ts).Nodup := by
      rw [List.map_append] at hnodup
      exact (hpending.map Tx.ts).nodup_iff.mp hnodup.of_append_right
    refine ⟨hok, ?_, chronological_processEvidence hpolicies h.calendar hlater, h.sorted, hcontent,
      ?_, ?_, ?_⟩
    · rw [app_processEvidence]
      exact h.app
    · rw [hts]
      exact h.done_le
    · intro t ht
      rw [hts]
      rcases List.mem_append.mp (hpending.mem_iff.mp ht) with ht | ht
      · exact h.lt_pending t ht
      · -- it had not arrived before
        exact h.lt_coming d hd hnew.2 t (Option.mem_toList.mp ht)
    · intro d' hd' hunknown
      rw [hts]
      rw [evidences_processEvidence, hs, Finset.mem_insert, not_or] at hunknown
      exact h.lt_coming d' hd' hunknown.2
  · have hr : (r.processWork computeHash d).1 = r := by
      rw [RelayNode.processWork, if_neg hnew, Intake.processWork]
      split_ifs with hevidence hknown
      · rfl
      · exact absurd ⟨hevidence, hknown⟩ hnew
      · rfl
    rw [hr]
    exact h

/-- The consumer of the calendar looks at it, when all that is not later has arrived. -/
theorem evidenceProcessor (h : r.Books computeHash programs P a done) {tipTs : UInt64}
    (htimely : ∀ d, P d → ∀ t, txOf a d = some t → t.ts ≤ tipTs →
      computeHash d ∈ r.intake.evidences)
    (hok : RelayNode.Ok computeHash P ⟨r.intake.evidenceProcessor programs tipTs, r.taken⟩) :
    ∃ done', RelayNode.Books computeHash programs P a
      ⟨r.intake.evidenceProcessor programs tipTs, r.taken⟩ done' := by
  by_cases hhold : r.intake.evidencesOnHold = []
  · cases hcalendar : r.intake.calendar with
    | nil =>
      have hsame : r.intake.evidenceProcessor programs tipTs = r.intake := by
        rw [Intake.evidenceProcessor, if_neg (not_not.mpr hhold), hcalendar]
      rw [hsame]
      exact ⟨done, h⟩
    | cons t rest =>
      have hpending : r.intake.pending a = t :: rest := by
        rw [Intake.pending, hcalendar, hhold, List.filterMap_nil, List.append_nil]
      have hlater : r.intake.lastEvTs < t.ts := h.lt_pending t (by simp [hpending])
      by_cases hearly : t.ts > tipTs
      · have hsame : r.intake.evidenceProcessor programs tipTs = r.intake := by
          rw [Intake.evidenceProcessor, if_neg (not_not.mpr hhold), hcalendar]
          exact if_pos hearly
        rw [hsame]
        exact ⟨done, h⟩
      · -- the first entry of the calendar is passed on
        have hpass : ∃ applied, r.intake.evidenceProcessor programs tipTs =
            { r.intake with
              calendar := rest
              app := r.intake.app.process wrapInt64 programs t
              lastEvTs := t.ts
              applied := applied } := by
          rw [Intake.evidenceProcessor, if_neg (not_not.mpr hhold), hcalendar]
          dsimp only
          rw [if_neg hearly, if_neg (UInt64.lt_asymm hlater)]
          exact ⟨_, rfl⟩
        obtain ⟨applied, hpass⟩ := hpass
        rw [hpass] at hok ⊢
        obtain ⟨hfirst, hrest⟩ := List.pairwise_cons.mp (hcalendar ▸ h.calendar)
        have hdone : ∀ u ∈ done, u.ts < t.ts := fun u hu =>
          UInt64.lt_of_le_of_lt (h.done_le u hu) hlater
        refine ⟨done ++ [t], hok, ?_, hrest, ?_, ?_, ?_, ?_, ?_⟩
        · rw [List.foldl_append, ← h.app]
          rfl
        · refine List.pairwise_append.mpr ⟨h.sorted, List.pairwise_singleton _ _, ?_⟩
          intro u hu u' hu'
          exact List.mem_singleton.mp hu' ▸ hdone u hu
        · have hcontent := h.content
          rw [hpending] at hcontent
          rw [List.append_assoc, Intake.pending]
          dsimp only
          rwa [hhold, List.filterMap_nil, List.append_nil, List.singleton_append]
        · intro u hu
          rcases List.mem_append.mp hu with hu | hu
          · exact UInt64.le_of_lt (hdone u hu)
          · exact List.mem_singleton.mp hu ▸ UInt64.le_refl _
        · intro u hu
          rw [Intake.pending] at hu
          dsimp only at hu
          rw [hhold, List.filterMap_nil, List.append_nil] at hu
          exact hfirst u hu
        · intro d hd hunknown u hu
          have hcoming : tipTs < u.ts := by
            by_contra hnot
            exact hunknown (htimely d hd u hu (UInt64.not_lt.mp hnot))
          exact UInt64.lt_of_le_of_lt (UInt64.not_lt.mp hearly) hcoming
  · have hsame : r.intake.evidenceProcessor programs tipTs = r.intake := if_pos hhold
    rw [hsame]
    exact ⟨done, h⟩

/-- What happens at a node within a cycle, in which no block is imported. -/
theorem step (h : r.Books computeHash programs P a done) (hdistinct : Distinct computeHash P a)
    {e : IntakeEvent} (hcycle : e ≠ .createLocalDeltas ∧ ∀ d, e ≠ .processWork d)
    (hchain : ∀ db policies, e ≠ .chain db policies)
    (htimely : ∀ tipTs, e = .evidenceProcessor tipTs → ∀ d, P d → ∀ t, txOf a d = some t →
      t.ts ≤ tipTs → computeHash d ∈ r.intake.evidences)
    {i : Intake} (hi : r.intake.step computeHash programs e = some i) :
    ∃ done', RelayNode.Books computeHash programs P a ⟨i, r.taken⟩ done' := by
  have hsame := evidences_of_step hi hcycle.1 hcycle.2
  have hok : RelayNode.Ok computeHash P ⟨i, r.taken⟩ :=
    ⟨fun k => hsame ▸ h.ok.known k, h.ok.once, h.ok.given⟩
  cases e with
  | processWork d => exact absurd rfl (hcycle.2 d)
  | createLocalDeltas => exact absurd rfl hcycle.1
  | chain db policies => exact absurd rfl (hchain db policies)
  | setSync inSync =>
    cases hi
    exact ⟨done, hok, h.app, h.calendar, h.sorted, h.content, h.done_le, h.lt_pending, h.lt_coming⟩
  | evidenceProcessor tipTs =>
    cases hi
    exact h.evidenceProcessor (htimely tipTs rfl) hok
  | flushEvidencesOnHold order =>
    obtain ⟨⟨-, horder⟩, hi⟩ := Option.ite_none_right_eq_some.mp hi
    cases hi
    set s : Intake := { r.intake with evidencesOnHold := [] } with hs
    have hpolicies : s.app.policies = a.policies := h.policies
    -- what was on hold is pending, as it was before
    have hsplit : (s.pending a ++ order.filterMap (txOf a)).Perm (r.intake.pending a) := by
      rw [hs, Intake.pending, Intake.pending, List.filterMap_nil, List.append_nil]
      exact (horder.filterMap (txOf a)).append_left _
    have hnodup : ((s.pending a ++ order.filterMap (txOf a)).map Tx.ts).Nodup := by
      have hall := h.nodup_ts hdistinct
      rw [List.map_append] at hall
      exact (hsplit.map Tx.ts).nodup_iff.mpr hall.of_append_right
    obtain ⟨hchron, hpending, happ⟩ := pending_foldl_processEvidence order hpolicies h.calendar
      hnodup
    have hts : (order.foldl Intake.processEvidence s).lastEvTs = r.intake.lastEvTs :=
      (foldl_processEvidence_keeps order s).2
    have hperm := hpending.trans hsplit
    refine ⟨done, hok, happ.trans h.app, hchron, h.sorted, (hperm.append_left done).trans h.content,
      ?_, ?_, ?_⟩
    · rw [hts]
      exact h.done_le
    · intro t ht
      rw [hts]
      exact h.lt_pending t (hperm.mem_iff.mp ht)
    · intro d hd hunknown
      rw [hts]
      rw [hsame] at hunknown
      exact h.lt_coming d hd hunknown

end RelayNode.Books

/-! ## All nodes -/

/-- A node at the beginning of a cycle with the app `a`, before these datagrams. -/
structure RelayNode.Opens (P : Datagram → Prop) (a : App) (r : RelayNode) : Prop where
  fresh : r.Fresh
  app : r.intake.app = a
  calendar : r.intake.calendar = []
  hold : r.intake.evidencesOnHold = []
  coming : ∀ d, P d → ∀ t, txOf a d = some t → r.intake.lastEvTs < t.ts

/-- A node at the start of a cycle has booked nothing. -/
theorem RelayNode.Opens.books {r : RelayNode} (h : r.Opens P a) :
    r.Books computeHash programs P a [] where
  ok := h.fresh.ok
  app := h.app
  calendar := by
    rw [h.calendar]
    exact List.Pairwise.nil
  sorted := List.Pairwise.nil
  content := by
    rw [Intake.pending, h.calendar, h.hold, h.fresh.2]
    exact .refl _
  done_le t ht := absurd ht List.not_mem_nil
  lt_pending t ht := by
    rw [Intake.pending, h.calendar, h.hold] at ht
    exact absurd ht List.not_mem_nil
  lt_coming d hd _ := h.coming d hd

/-- A node looks at its calendar when everything that is not later than the time at which
it looks has come there. -/
def Timely {V : Type*} (computeHash : Datagram → Ripemd160) (P : Datagram → Prop) (a : App)
    (s : Network V RelayNode Datagram) (e : NetworkEvent V RelayEvent) : Prop :=
  ∀ v tipTs, e = .act v (.intake (.evidenceProcessor tipTs)) → ∀ d, P d → ∀ t,
    txOf a d = some t → t.ts ≤ tipTs → computeHash d ∈ (s.nodes v).intake.evidences

variable {V : Type*} [DecidableEq V] {getNodes : V → List V}

/-- A node that has passed on what it has passed on as it should. -/
def RelayNode.KeepsBooks (computeHash : Datagram → Ripemd160) (programs : LockingPrograms)
    (P : Datagram → Prop) (a : App) (r : RelayNode) : Prop :=
  ∃ done, r.Books computeHash programs P a done

/-- All nodes keep their books, and what is on its way is evidence of the cycle. -/
structure BooksKept (computeHash : Datagram → Ripemd160) (programs : LockingPrograms)
    (getNodes : V → List V) (P : Datagram → Prop) (a : App)
    (s : Network V RelayNode Datagram) : Prop where
  spreads : Flood.Spreads (evidenceFlood computeHash programs getNodes)
    (fun _ => RelayNode.Ok computeHash P) P (evidenceKey computeHash)
    (fun r k => k ∈ r.intake.evidences) s
  books : ∀ v, (s.nodes v).KeepsBooks computeHash programs P a

/-- A run of one cycle in which no block is imported, of nodes that begin with the app `a`
and wait for the relay before they look at their calendars. After it everything has
arrived, and the calendars are empty. -/
structure EvidenceFlooded (computeHash : Datagram → Ripemd160) (programs : LockingPrograms)
    (getNodes : V → List V) (a : App) (start : V → RelayNode)
    (es : List (NetworkEvent V RelayEvent)) (t : Network V RelayNode Datagram) : Prop where
  opens : ∀ v, (start v).Opens (· ∈ clientDatagrams es) a
  cycle : OneCycle es
  chain : ∀ v db policies, .act v (.intake (.chain db policies)) ∉ es
  timely : AlongRun (evidenceFlood computeHash programs getNodes).step
    (Timely computeHash (· ∈ clientDatagrams es) a) ⟨start, []⟩ es
  run : run (evidenceFlood computeHash programs getNodes).step ⟨start, []⟩ es = some t
  packets : t.packets = []
  drained : ∀ v, (t.nodes v).intake.calendar = [] ∧ (t.nodes v).intake.evidencesOnHold = []

variable {start : V → RelayNode} {es : List (NetworkEvent V RelayEvent)}
  {t : Network V RelayNode Datagram}

/-- One event of the network keeps what the nodes have booked. -/
theorem BooksKept.step {s s' : Network V RelayNode Datagram} {e : NetworkEvent V RelayEvent}
    (h : BooksKept computeHash programs getNodes P a s) (hdistinct : Distinct computeHash P a)
    (hcycle : ∀ v b, e = .act v b → WithinCycle P b)
    (hchain : ∀ v db policies, e ≠ .act v (.intake (.chain db policies)))
    (htimely : Timely computeHash P a s e)
    (hs' : (evidenceFlood computeHash programs getNodes).step s e = some s') :
    BooksKept computeHash programs getNodes P a s' := by
  refine ⟨h.spreads.step marks_evidenceFlood hcycle hs',
    Flood.inv_of_step (fun _ r => r.KeepsBooks computeHash programs P a) h.books ?_ ?_ hs'⟩
  · rintro v b r rfl hr
    obtain ⟨done, hdone⟩ := h.books v
    cases b with
    | client d =>
      cases hr
      exact ⟨done, hdone.processWork hdistinct (hcycle v _ rfl)⟩
    | intake b =>
      obtain ⟨i, hi, rfl⟩ := Option.map_eq_some_iff.mp hr
      refine hdone.step hdistinct (hcycle v _ rfl) ?_ ?_ hi
      · rintro db policies rfl
        exact hchain v db policies rfl
      · rintro tipTs rfl
        exact htimely v tipTs rfl
  · intro p hp
    obtain ⟨done, hdone⟩ := h.books p.dst
    exact ⟨done, hdone.processWork hdistinct (h.spreads.messages p hp)⟩

namespace EvidenceFlooded

/-- Every node of the flood begins with an empty relay set. -/
theorem fresh (h : EvidenceFlooded computeHash programs getNodes a start es t) (v : V) :
    (start v).Fresh := (h.opens v).fresh

/-- All nodes have kept their books. -/
theorem exists_books (h : EvidenceFlooded computeHash programs getNodes a start es t)
    (hdistinct : Distinct computeHash (· ∈ clientDatagrams es) a) (v : V) :
    (t.nodes v).KeepsBooks computeHash programs (· ∈ clientDatagrams es) a := by
  have hacts : AlongRun (evidenceFlood computeHash programs getNodes).step
      (fun _ e => e ∈ es) ⟨start, []⟩ es := .of_forall fun e he _ => he
  have hkept : BooksKept computeHash programs getNodes (· ∈ clientDatagrams es) a t := by
    refine run_invariant (fun s e s' hs he hs' => ?_)
      ⟨spreads_evidenceFlood computeHash programs getNodes h.fresh _,
        fun v => ⟨[], (h.opens v).books⟩⟩ (hacts.and h.timely) h.run
    refine hs.step hdistinct (fun v b hb => h.cycle.acts v b (hb ▸ he.1)) ?_ he.2 hs'
    rintro v db policies rfl
    exact h.chain v db policies he.1
  exact hkept.books v

/-- What a node has taken are the transactions that clients have sent. -/
theorem taken_perm (h : EvidenceFlooded computeHash programs getNodes a start es t)
    (hdistinct : Distinct computeHash (· ∈ clientDatagrams es) a)
    (hconnected : ∀ v w, Relation.ReflTransGen (fun v w => w ∈ getNodes v) v w) {v : V}
    (hok : (t.nodes v).Ok computeHash (· ∈ clientDatagrams es)) :
    ((t.nodes v).taken.filterMap (txOf a)).Perm
      ((clientDatagrams es).dedup.filterMap (txOf a)) := by
  have htaken := (hdistinct.nodup_ts hok.once.of_map hok.given).of_map
  have hsent := (hdistinct.nodup_ts (List.nodup_dedup (clientDatagrams es))
    fun d hd => List.mem_dedup.mp hd).of_map
  refine (List.perm_ext_iff_of_nodup htaken hsent).mpr fun u => ?_
  simp only [List.mem_filterMap, List.mem_dedup]
  constructor
  · rintro ⟨d, hd, hu⟩
    exact ⟨d, hok.given d hd, hu⟩
  · rintro ⟨d, hd, hu⟩
    obtain ⟨w, hw⟩ := mem_clientDatagrams.mp hd
    have hevidence : isEvidence d.service = true := by
      have hservice := (Option.ite_none_right_eq_some.mp hu).1
      rw [hservice]
      rfl
    obtain ⟨d', hd', hhash⟩ := exists_taken_of_rest h.fresh h.cycle h.run h.packets hw hevidence
      (hconnected w v)
    obtain rfl := hdistinct.hash d' d (hok.given d' hd') hd hhash
    exact ⟨d', hd', hu⟩

/-- Every node has passed on all transactions in the order of their time stamps. -/
theorem app_eq (h : EvidenceFlooded computeHash programs getNodes a start es t)
    (hdistinct : Distinct computeHash (· ∈ clientDatagrams es) a)
    (hconnected : ∀ v w, Relation.ReflTransGen (fun v w => w ∈ getNodes v) v w) (v : V) :
    (t.nodes v).intake.app =
      (calendarOf a (clientDatagrams es)).foldl (App.process wrapInt64 programs) a := by
  obtain ⟨done, hdone⟩ := h.exists_books hdistinct v
  have hnone : (t.nodes v).intake.pending a = [] := by
    rw [Intake.pending, (h.drained v).1, (h.drained v).2]
    rfl
  have hcontent := hdone.content
  rw [hnone, List.append_nil] at hcontent
  obtain ⟨hchron, hperm⟩ := hdistinct.calendarOf
  have hsame : done = calendarOf a (clientDatagrams es) :=
    hdone.sorted.eq_of_perm hchron
      ((hcontent.trans (h.taken_perm hdistinct hconnected hdone.ok)).trans hperm.symm)
  rw [hdone.app, hsame]

end EvidenceFlooded

/-- **Agreement of the mempools.** The nodes begin a cycle with the same app, the
connections lead from everyone to everyone, and no two transactions have one time stamp.
When all evidence has arrived, at each node before it looks at its calendar at a time that
is not earlier, and all calendars are empty, then every node has processed every
transaction that passes the check, in the order of the time stamps: in whatever order, how
often and to which nodes the clients have sent them, and whether a node was in sync or put
them on hold. -/
theorem mempools_agree (hdistinct : Distinct computeHash (· ∈ clientDatagrams es) a)
    (hconnected : ∀ v w, Relation.ReflTransGen (fun v w => w ∈ getNodes v) v w)
    (h : EvidenceFlooded computeHash programs getNodes a start es t) :
    Chronological (calendarOf a (clientDatagrams es)) ∧
      (∀ u, u ∈ calendarOf a (clientDatagrams es) ↔
        ∃ d ∈ clientDatagrams es, txOf a d = some u) ∧
      ∀ v, (t.nodes v).intake.app =
        (calendarOf a (clientDatagrams es)).foldl (App.process wrapInt64 programs) a := by
  obtain ⟨hchron, hperm⟩ := hdistinct.calendarOf
  refine ⟨hchron, fun u => ?_, h.app_eq hdistinct hconnected⟩
  rw [hperm.mem_iff, List.mem_filterMap]
  simp only [List.mem_dedup]

/-- A second payment, a moment after the first. -/
def laterPayment : Tx := { spendOfOne 2 with ts := (spendOfOne 3).ts + 1 }

/-- Its datagram. -/
def laterDatagram : Datagram := ⟨cashTx, laterPayment.toB58⟩

/-- A hash of datagrams that tells the first payment from all else. -/
def hashOfFirst (d : Datagram) : Ripemd160 := Ripemd160.set (if d = paymentDatagram then 1 else 2)

/-- A node that looks at its calendar. -/
def look (v : Bool) : NetworkEvent Bool RelayEvent :=
  .act v (.intake (.evidenceProcessor 1560000000000000000))

/-- The later payment is sent to one node, the first one to the other, and both arrive. -/
def twoArrivals : List (NetworkEvent Bool RelayEvent) :=
  [.act false (.client laterDatagram), .act true (.client paymentDatagram), .deliver 0,
    .deliver 0]

/-- Both nodes look at their calendars twice when they have both payments. -/
def twoPayments : List (NetworkEvent Bool RelayEvent) :=
  twoArrivals ++ [look false, look false, look true, look true]

/-- The transaction of a cash datagram is the one that its text parses to. -/
theorem txOf_toB58 (a : App) (t : Tx) :
    txOf a ⟨cashTx, t.toB58⟩ = a.parseEvidence wrapInt64 cashTx t.toB58 := by
  rw [txOf, parseString_toB58]

/-- The first datagram carries the first payment. -/
theorem txOf_paymentDatagram : txOf tenAtOneApp paymentDatagram = some (spendOfOne 3) :=
  parseEvidence_paymentDatagram rfl

/-- The second datagram carries the later payment. -/
theorem txOf_laterDatagram : txOf tenAtOneApp laterDatagram = some laterPayment := by
  have hread : Tx.fromB58 laterPayment.toB58 = .ok laterPayment := by
    rw [Tx.fromB58_toB58]
    rfl
  have hcheck : tenAtOneApp.basicCheck wrapInt64 laterPayment = true := by decide +kernel
  rw [laterDatagram, txOf_toB58, App.parseEvidence, if_pos rfl, hread]
  simp only [hcheck, if_true]

/-- The two datagrams differ. -/
theorem laterDatagram_ne : laterDatagram ≠ paymentDatagram := by
  intro heq
  have hsame := txOf_laterDatagram
  rw [heq, txOf_paymentDatagram] at hsame
  exact absurd (congrArg Tx.ts (Option.some.inj hsame)) (by decide)

/-- The hash of the first datagram. -/
theorem hashOfFirst_paymentDatagram : hashOfFirst paymentDatagram = Ripemd160.set 1 := by
  rw [hashOfFirst, if_pos rfl]

/-- The hash of the second datagram. -/
theorem hashOfFirst_laterDatagram : hashOfFirst laterDatagram = Ripemd160.set 2 := by
  rw [hashOfFirst, if_neg laterDatagram_ne]

/-- The clients send these two datagrams. -/
theorem mem_clientDatagrams_twoPayments {d : Datagram} (hd : d ∈ clientDatagrams twoPayments) :
    d = laterDatagram ∨ d = paymentDatagram := by
  have hboth : clientDatagrams twoPayments = [laterDatagram, paymentDatagram] := rfl
  rwa [hboth, List.mem_cons, List.mem_singleton] at hd

/-- The two payments have different times and hashes. -/
theorem distinct_twoPayments :
    Distinct hashOfFirst (· ∈ clientDatagrams twoPayments) tenAtOneApp := by
  have hsent : ∀ d, d ∈ clientDatagrams twoPayments → d = laterDatagram ∨ d = paymentDatagram :=
    fun _ => mem_clientDatagrams_twoPayments
  have hhash : hashOfFirst laterDatagram ≠ hashOfFirst paymentDatagram := by
    rw [hashOfFirst_laterDatagram, hashOfFirst_paymentDatagram]
    decide
  have hts : laterPayment.ts ≠ (spendOfOne 3).ts := by decide
  constructor
  · intro d d' hd hd' heq
    rcases hsent d hd with rfl | rfl <;> rcases hsent d' hd' with rfl | rfl
    · rfl
    · exact absurd heq hhash
    · exact absurd heq.symm hhash
    · rfl
  · intro d d' t t' hd hd' ht ht' heq
    rcases hsent d hd with rfl | rfl <;> rcases hsent d' hd' with rfl | rfl
    · rfl
    · rw [txOf_laterDatagram] at ht
      rw [txOf_paymentDatagram] at ht'
      cases ht
      cases ht'
      exact absurd heq hts
    · rw [txOf_paymentDatagram] at ht
      rw [txOf_laterDatagram] at ht'
      cases ht
      cases ht'
      exact absurd heq.symm hts
    · rfl

/-- Both nodes can begin the cycle with the two payments ahead. -/
theorem opens_twoPayments (v : Bool) : ((fun _ => freshNode) v : RelayNode).Opens
    (· ∈ clientDatagrams twoPayments) tenAtOneApp where
  fresh := fresh_freshNode v
  app := rfl
  calendar := rfl
  hold := rfl
  coming d hd t ht := by
    rcases mem_clientDatagrams_twoPayments hd with rfl | rfl
    · obtain rfl := Option.some.inj (txOf_laterDatagram.symm.trans ht)
      change freshNode.intake.lastEvTs < laterPayment.ts
      decide
    · obtain rfl := Option.some.inj (txOf_paymentDatagram.symm.trans ht)
      change freshNode.intake.lastEvTs < (spendOfOne 3).ts
      decide

/-- A node that has come to know these hashes, with this calendar. -/
def knowing (evidences : Finset Ripemd160) (taken : List Datagram) (calendar : List Tx) :
    RelayNode :=
  ⟨⟨evidences, [], true, calendar, freshNode.intake.lastEvTs, tenAtOneApp, []⟩, taken⟩

/-- A payment arrives at such a node for the first time. -/
theorem processWork_knowing {evidences : Finset Ripemd160} (taken : List Datagram)
    (calendar : List Tx) {d : Datagram} {t : Tx} (hevidence : isEvidence d.service = true)
    (ht : txOf tenAtOneApp d = some t) (hnew : hashOfFirst d ∉ evidences) :
    (knowing evidences taken calendar).processWork hashOfFirst d =
      (knowing (insert (hashOfFirst d) evidences) (taken ++ [d]) (schedule calendar t), true) := by
  have hparse : tenAtOneApp.parseEvidence wrapInt64 d.service d.parseString = some t := ht
  simp [RelayNode.processWork, Intake.processWork, Intake.processEvidence, knowing, hevidence,
    hnew, hparse]

/-- A node that has both payments in its calendar passes on one after the other. -/
theorem exists_twoLooks (evidences : Finset Ripemd160) (taken : List Datagram) :
    ∃ r r', (knowing evidences taken [spendOfOne 3, laterPayment]).act hashOfFirst noPrograms
        (.intake (.evidenceProcessor 1560000000000000000)) = some (r, []) ∧
      r.act hashOfFirst noPrograms (.intake (.evidenceProcessor 1560000000000000000)) =
        some (r', []) ∧
      r'.intake.calendar = [] ∧ r'.intake.evidencesOnHold = [] := by
  have hearly : ¬ (1560000000000000000 : UInt64) < (spendOfOne 3).ts := by decide
  have hearly' : ¬ (1560000000000000000 : UInt64) < laterPayment.ts := by decide
  have hlate : ¬ (spendOfOne 3).ts < freshNode.intake.lastEvTs := by decide
  have hlate' : ¬ laterPayment.ts < (spendOfOne 3).ts := by decide
  refine ⟨_, _, rfl, rfl, ?_, ?_⟩ <;>
    simp [Intake.evidenceProcessor, knowing, hearly, hearly', hlate, hlate']

/-- When both payments have arrived, every node has both in its calendar. -/
theorem exists_run_twoArrivals :
    ∃ t, run (evidenceFlood hashOfFirst noPrograms twoNodes).step ⟨fun _ => freshNode, []⟩
        twoArrivals = some t ∧ t.packets = [] ∧
      t.nodes false = knowing {Ripemd160.set 1, Ripemd160.set 2} [laterDatagram, paymentDatagram]
        [spendOfOne 3, laterPayment] ∧
      t.nodes true = knowing {Ripemd160.set 2, Ripemd160.set 1} [paymentDatagram, laterDatagram]
        [spendOfOne 3, laterPayment] := by
  have hne : Ripemd160.set 1 ≠ Ripemd160.set 2 := by decide
  have hevidence : isEvidence paymentDatagram.service = true := by decide
  have hevidence' : isEvidence laterDatagram.service = true := by decide
  have horder : schedule [laterPayment] (spendOfOne 3) = [spendOfOne 3, laterPayment] := by
    decide +kernel
  have horder' : schedule [spendOfOne 3] laterPayment = [spendOfOne 3, laterPayment] := by
    decide +kernel
  have hclient : ∀ (r : RelayNode) (d : Datagram), r.act hashOfFirst noPrograms (.client d) =
      some ((r.processWork hashOfFirst d).1,
        if (r.processWork hashOfFirst d).2 then [d] else []) := fun _ _ => rfl
  have hstart : freshNode = knowing ∅ [] [] := rfl
  have hempty := Finset.notMem_empty (α := Ripemd160)
  -- each node gets one payment from a client, and the other from the other node
  have hsent : freshNode.processWork hashOfFirst laterDatagram =
      (knowing {Ripemd160.set 2} [laterDatagram] [laterPayment], true) := by
    rw [hstart, processWork_knowing _ _ hevidence' txOf_laterDatagram (hempty _),
      hashOfFirst_laterDatagram]
    rfl
  have hsent' : freshNode.processWork hashOfFirst paymentDatagram =
      (knowing {Ripemd160.set 1} [paymentDatagram] [spendOfOne 3], true) := by
    rw [hstart, processWork_knowing _ _ hevidence txOf_paymentDatagram (hempty _),
      hashOfFirst_paymentDatagram]
    rfl
  have hrelayed : (knowing {Ripemd160.set 2} [laterDatagram] [laterPayment]).processWork
      hashOfFirst paymentDatagram = (knowing {Ripemd160.set 1, Ripemd160.set 2}
        [laterDatagram, paymentDatagram] [spendOfOne 3, laterPayment], true) := by
    rw [processWork_knowing _ _ hevidence txOf_paymentDatagram
      (by simp [hashOfFirst_paymentDatagram, hne]), hashOfFirst_paymentDatagram, horder]
    rfl
  have hrelayed' : (knowing {Ripemd160.set 1} [paymentDatagram] [spendOfOne 3]).processWork
      hashOfFirst laterDatagram = (knowing {Ripemd160.set 2, Ripemd160.set 1}
        [paymentDatagram, laterDatagram] [spendOfOne 3, laterPayment], true) := by
    rw [processWork_knowing _ _ hevidence' txOf_laterDatagram
      (by simp [hashOfFirst_laterDatagram, hne.symm]), hashOfFirst_laterDatagram, horder']
    rfl
  simp [run, twoArrivals, evidenceFlood, Flood.step, hclient, hsent, hsent', Network.put,
    Flood.arrive, Flood.asItCame, Flood.send, Flood.relay, twoNodes, hrelayed, hrelayed']

/-- Both nodes know the hashes of both payments. -/
def KnowBoth (s : Network Bool RelayNode Datagram) : Prop :=
  ∀ v, {Ripemd160.set 1, Ripemd160.set 2} ⊆ (s.nodes v).intake.evidences

/-- Looking at the calendar keeps both datagrams known at both nodes. -/
theorem KnowBoth.look {s s' : Network Bool RelayNode Datagram} (h : KnowBoth s) {u : Bool}
    (hs' : (evidenceFlood hashOfFirst noPrograms twoNodes).step s (look u) = some s') :
    KnowBoth s' := by
  refine Flood.inv_of_step (F := evidenceFlood hashOfFirst noPrograms twoNodes)
    (fun _ (r : RelayNode) => {Ripemd160.set 1, Ripemd160.set 2} ⊆ r.intake.evidences) h ?_ ?_ hs'
  · intro v b r hb hr
    cases hb
    obtain ⟨i, hi, rfl⟩ : ∃ i, (s.nodes u).intake.step hashOfFirst noPrograms
        (.evidenceProcessor 1560000000000000000) = some i ∧ (⟨i, (s.nodes u).taken⟩, []) = r :=
      Option.map_eq_some_iff.mp hr
    change {Ripemd160.set 1, Ripemd160.set 2} ⊆ i.evidences
    rw [evidences_of_step hi (by simp) (by simp)]
    exact h u
  · intro p _ k hk
    exact (RelayNode.mem_evidences_processWork _ _ k).mpr (Or.inl (h p.dst hk))

/-- The run of these events, in which nobody looks before both payments are there. -/
theorem exists_run_twoPayments :
    ∃ t, run (evidenceFlood hashOfFirst noPrograms twoNodes).step ⟨fun _ => freshNode, []⟩
        twoPayments = some t ∧
      AlongRun (evidenceFlood hashOfFirst noPrograms twoNodes).step
        (Timely hashOfFirst (· ∈ clientDatagrams twoPayments) tenAtOneApp)
        ⟨fun _ => freshNode, []⟩ twoPayments ∧
      t.packets = [] ∧
      ∀ v, (t.nodes v).intake.calendar = [] ∧ (t.nodes v).intake.evidencesOnHold = [] := by
  obtain ⟨s, hs, hpackets, hfalse, htrue⟩ := exists_run_twoArrivals
  obtain ⟨r, r', hr, hr', hcalendar, hhold⟩ :=
    exists_twoLooks {Ripemd160.set 1, Ripemd160.set 2} [laterDatagram, paymentDatagram]
  obtain ⟨q, q', hq, hq', hcalendar', hhold'⟩ :=
    exists_twoLooks {Ripemd160.set 2, Ripemd160.set 1} [paymentDatagram, laterDatagram]
  obtain ⟨t, ht, hrest⟩ : ∃ t, run (evidenceFlood hashOfFirst noPrograms twoNodes).step s
      [look false, look false, look true, look true] = some t ∧ t.packets = [] ∧
      ∀ v, (t.nodes v).intake.calendar = [] ∧ (t.nodes v).intake.evidencesOnHold = [] := by
    simp [run, look, evidenceFlood, Flood.step, Network.put, hpackets, hfalse, htrue, hr, hr', hq,
      hq', hcalendar, hhold, hcalendar', hhold']
  refine ⟨t, by rw [twoPayments, run_append, hs, Option.bind_some, ht], ?_, hrest⟩
  refine (AlongRun.append_iff hs).mpr ⟨.of_forall fun e he _ v tipTs hev => ?_, ?_⟩
  · -- nobody looks while the payments arrive
    subst hev
    simp [twoArrivals] at he
  · -- and whoever looks later has both of them
    have hlooks : AlongRun (evidenceFlood hashOfFirst noPrograms twoNodes).step
        (fun _ e => ∃ v, e = look v) s [look false, look false, look true, look true] :=
      .of_forall fun e he _ => by
        simp only [List.mem_cons, List.not_mem_nil, or_false] at he
        rcases he with he | he | he | he <;> exact ⟨_, he⟩
    have hknows : KnowBoth s := by
      refine Bool.forall_bool.mpr ⟨?_, ?_⟩
      · rw [hfalse]
        exact Finset.Subset.refl _
      · rw [htrue, Finset.pair_comm]
        exact Finset.Subset.refl _
    refine AlongRun.of_invariant (fun s e s' hs he hs' => ?_) (fun s e hs he => ?_) hknows hlooks
    · obtain ⟨u, rfl⟩ := he
      exact hs.look hs'
    · intro v tipTs hev d hd _ _ _
      refine hs v ?_
      rcases mem_clientDatagrams_twoPayments hd with rfl | rfl
      · rw [hashOfFirst_laterDatagram]
        exact Finset.mem_insert_of_mem (Finset.mem_singleton_self _)
      · rw [hashOfFirst_paymentDatagram]
        exact Finset.mem_insert_self _ _

/-- Each of the two nodes reaches the other. -/
theorem connected_twoNodes (v w : Bool) :
    Relation.ReflTransGen (fun v w => w ∈ twoNodes v) v w := by
  by_cases hvw : v = w
  · exact hvw ▸ .refl
  · exact .single (List.mem_singleton.mpr (Bool.eq_not_of_ne (Ne.symm hvw)))

/-- There is a flood of the two payments through the two nodes. -/
theorem exists_evidenceFlooded_twoPayments :
    ∃ t, EvidenceFlooded hashOfFirst noPrograms twoNodes tenAtOneApp (fun _ => freshNode)
      twoPayments t := by
  obtain ⟨t, ht, htimely, hpackets, hdrained⟩ := exists_run_twoPayments
  refine ⟨t, opens_twoPayments, fun v e he => ?_, fun v db policies he => ?_, htimely, ht,
    hpackets, hdrained⟩
  · have hlooks : e = .evidenceProcessor 1560000000000000000 := by
      simp only [twoPayments, twoArrivals, look, List.mem_append, List.mem_cons,
        NetworkEvent.act.injEq, reduceCtorEq, RelayEvent.intake.injEq, and_false,
        List.not_mem_nil, or_false, false_or] at he
      rcases he with he | he | he | he <;> exact he.2
    exact hlooks ▸ by simp
  · simp [twoPayments, twoArrivals, look] at he

/-- The two payments in the order of their time stamps. -/
theorem calendarOf_twoPayments :
    calendarOf tenAtOneApp (clientDatagrams twoPayments) = [spendOfOne 3, laterPayment] := by
  obtain ⟨hchron, hcontent⟩ := distinct_twoPayments.calendarOf
  have horder : Chronological [spendOfOne 3, laterPayment] := by
    have hlt : (spendOfOne 3).ts < laterPayment.ts := by decide
    simpa [Chronological] using hlt
  have hboth : ∀ u, u ∈ calendarOf tenAtOneApp (clientDatagrams twoPayments) ↔
      u ∈ [spendOfOne 3, laterPayment] := by
    intro u
    have hclients : clientDatagrams twoPayments = [laterDatagram, paymentDatagram] := rfl
    rw [hcontent.mem_iff, List.mem_filterMap, hclients]
    simp only [List.mem_dedup]
    simp [txOf_laterDatagram, txOf_paymentDatagram, or_comm, eq_comm]
  exact hchron.eq_of_perm horder
    ((List.perm_ext_iff_of_nodup hchron.nodup horder.nodup).mpr hboth)

/-- The later payment arrives first at one of the nodes, and both have processed it last. -/
theorem mempools_agree_twoPayments :
    ∃ t, run (evidenceFlood hashOfFirst noPrograms twoNodes).step ⟨fun _ => freshNode, []⟩
        twoPayments = some t ∧
      ∀ v, (t.nodes v).intake.app =
        [spendOfOne 3, laterPayment].foldl (App.process wrapInt64 noPrograms) tenAtOneApp := by
  obtain ⟨t, hflooded⟩ := exists_evidenceFlooded_twoPayments
  obtain ⟨-, -, happ⟩ := mempools_agree distinct_twoPayments connected_twoNodes hflooded
  rw [calendarOf_twoPayments] at happ
  exact ⟨t, hflooded.run, happ⟩

end AcCore.Gov.Engine
