import AcCore.Gov.Engine.Evidence

/-!
# Evidence on hold

While a node is not in sync its network threads put evidence on hold. When the
sync loop ends, its thread processes what is on hold, one entry after the other,
without a lock while it does so; the consumer of the calendar waits until
nothing is on hold. This file models the steps of these threads, and determines
in which runs no evidence is lost.
-/

namespace AcCore.Gov.Engine

open Lib Cash

/-- The address of a datagram. -/
abbrev Pointer := ℕ

/-- How far `flush_evidences_on_hold` is with an entry. -/
inductive FlushStage where
  /-- The lock is released and `process_evidence` is next. -/
  | picked
  /-- In `process_evidence`, before the lock of the calendar. -/
  | scheduling (t : Tx)
  /-- `process_evidence` has returned. -/
  | processed
  deriving DecidableEq

/-- An entry that is flushed. `again` is not part of the code: whether its
address was put on hold again since it was picked. -/
structure Flush where
  p : Pointer
  again : Bool
  stage : FlushStage

/-- Where `evidence_processor` is. -/
inductive ProcessorStage where
  | idle
  /-- It has the lock of the calendar. -/
  | locked
  /-- It has the lock of the calendar and waits until nothing is on hold. -/
  | waiting
  deriving DecidableEq

/-- What the threads share. Datagrams are numbered in the order in which they
arrive. The last three fields are not part of the code: the numbers of the
datagrams that were put on hold, those of the datagrams that were offered to the
apps, and whether a datagram was used after it was deleted. -/
structure Pipeline where
  /-- The datagrams that were not deleted. -/
  heap : Table Pointer (ℕ × Datagram)
  next : ℕ
  inSync : Bool
  app : App
  /-- What network threads are about to put on hold. -/
  adding : Finset Pointer
  evidencesOnHold : Finset Pointer
  flush : Option Flush
  /-- What network threads are about to put into the calendar. -/
  scheduling : List Tx
  calendar : List Tx
  processor : ProcessorStage
  held : Finset ℕ
  offered : List ℕ
  fault : Bool

/-- What the threads do. -/
inductive PipelineEvent where
  /-- `in_sync` changes. -/
  | setSync (inSync : Bool)
  /-- The app changes: blocks are imported, transactions are processed. -/
  | setApp (app : App)
  /-- A network thread calls `process_evidence` on a datagram at an address. -/
  | receive (p : Pointer) (d : Datagram)
  /-- It puts the datagram on hold. -/
  | add (p : Pointer)
  /-- It puts an evidence into the calendar. -/
  | schedule (t : Tx)
  /-- `on_sync`, up to the first entry; the set may list its entries in any order. -/
  | onSync (first : Option Pointer)
  /-- The flush calls `process_evidence`. -/
  | flushProcess
  /-- It puts the evidence into the calendar. -/
  | flushSchedule
  /-- It erases the entry and goes on to another. -/
  | flushErase (next : Option Pointer)
  /-- `evidence_processor` takes the lock of the calendar. -/
  | lock
  /-- It looks whether anything is on hold; `due` says whether the first entry of
  the calendar is. -/
  | look (due : Bool)
  /-- It wakes up and nothing is on hold. -/
  | wake (due : Bool)

namespace Pipeline

/-- The threads when the node starts. -/
def init (inSync : Bool) (app : App) : Pipeline :=
  ⟨∅, 0, inSync, app, ∅, ∅, none, [], [], .idle, ∅, [], false⟩

/-- What the apps make of a datagram. -/
def parseEvidence (s : Pipeline) (d : Datagram) : Option Tx :=
  s.app.parseEvidence wrapInt64 d.service d.parseString

/-- `hold::add`. -/
def addOnHold (s : Pipeline) (p : Pointer) : Pipeline :=
  { s with
    evidencesOnHold := insert p s.evidencesOnHold
    held := s.held ∪ ((s.heap.lookup p).map Prod.fst).toFinset
    flush := s.flush.map fun f => if f.p = p then { f with again := true } else f }

/-- `process_evidence` in a network thread. A datagram that nobody recognizes is
deleted, and deleted again by the caller. -/
def receive (s : Pipeline) (p : Pointer) (d : Datagram) : Pipeline :=
  if s.inSync then
    { s with
      next := s.next + 1
      offered := s.next :: s.offered
      scheduling := s.scheduling ++ (s.parseEvidence d).toList
      fault := (s.parseEvidence d).isNone }
  else
    { s with
      heap := s.heap.insert p (s.next, d)
      next := s.next + 1
      adding := insert p s.adding }

/-- `process_evidence` in the flush. A datagram that nobody recognizes is
deleted, and then dumped and deleted by the flush. -/
def flushProcess (s : Pipeline) (f : Flush) : Pipeline :=
  if s.inSync then
    match s.heap.lookup f.p with
    | none => { s with fault := true }
    | some (n, d) =>
      match s.parseEvidence d with
      | none => { s with heap := s.heap.erase f.p, offered := n :: s.offered, fault := true }
      | some t =>
        { s with
          heap := s.heap.erase f.p
          offered := n :: s.offered
          flush := some { f with stage := .scheduling t } }
  else
    { s.addOnHold f.p with flush := some { f with again := true, stage := .processed } }

/-- The flush goes on with an entry, or ends. -/
def pick (s : Pipeline) : Option Pointer → Option Pipeline
  | none => some { s with flush := none }
  | some p =>
    if p ∈ s.evidencesOnHold then some { s with flush := some ⟨p, false, .picked⟩ } else none

/-- `evidence_processor` when nothing is on hold: it takes the first entry of the
calendar if that is due. -/
def consume (s : Pipeline) (due : Bool) : Pipeline :=
  { s with calendar := if due then s.calendar.tail else s.calendar, processor := .idle }

/-- One event; `none` when it cannot happen. -/
def act (s : Pipeline) : PipelineEvent → Option Pipeline
  | .setSync inSync => some { s with inSync := inSync }
  | .setApp app => some { s with app := app }
  | .receive p d => if p ∈ s.heap then none else some (s.receive p d)
  | .add p =>
    if p ∈ s.adding then some ({ s with adding := s.adding.erase p }.addOnHold p) else none
  | .schedule t =>
    if t ∈ s.scheduling ∧ s.processor = .idle then
      some { s with
        calendar := Engine.schedule s.calendar t
        scheduling := s.scheduling.erase t }
    else none
  | .onSync first =>
    if s.flush.isNone ∧ (first = none → s.evidencesOnHold = ∅) then s.pick first else none
  | .flushProcess =>
    s.flush.bind fun f => if f.stage = .picked then some (s.flushProcess f) else none
  | .flushSchedule =>
    s.flush.bind fun f =>
      match f.stage with
      | .scheduling t =>
        if s.processor = .idle then
          some { s with
            calendar := Engine.schedule s.calendar t
            flush := some { f with stage := .processed } }
        else none
      | _ => none
  | .flushErase next =>
    s.flush.bind fun f =>
      if f.stage = .processed then
        { s with evidencesOnHold := s.evidencesOnHold.erase f.p }.pick next
      else none
  | .lock => if s.processor = .idle then some { s with processor := .locked } else none
  | .look due =>
    if s.processor = .locked then
      if s.evidencesOnHold = ∅ then some (s.consume due)
      else some { s with processor := .waiting }
    else none
  | .wake due =>
    if s.processor = .waiting ∧ s.evidencesOnHold = ∅ then some (s.consume due) else none

/-- One event; nothing more happens after a fault. -/
def step (s : Pipeline) (e : PipelineEvent) : Option Pipeline :=
  if s.fault then none else s.act e

/-- The pipeline steps as long as it has no fault. -/
theorem step_eq_some {s s' : Pipeline} {e : PipelineEvent} :
    s.step e = some s' ↔ s.fault = false ∧ s.act e = some s' := by
  cases hfault : s.fault <;> simp [step, hfault]

/-! ## When no evidence is lost -/

/-- No evidence is lost, offered twice or used after it was deleted. -/
structure NotLost (s : Pipeline) : Prop where
  /-- What was put on hold and not offered is on hold. -/
  kept : ∀ n ∈ s.held, n ∉ s.offered → ∃ p ∈ s.evidencesOnHold, ∃ d, s.heap.lookup p = some (n, d)
  once : s.offered.Nodup
  fault : s.fault = false

/-- The apps recognize what is offered to them, and nothing was put on hold at
the address of an entry between its choice and its removal. -/
def FlushesCleanly (s : Pipeline) : PipelineEvent → Prop
  | .receive _ d => s.inSync = true → (s.parseEvidence d).isSome
  | .flushProcess => s.inSync = true → ∀ f ∈ s.flush, ∀ n d, s.heap.lookup f.p = some (n, d) →
      (s.parseEvidence d).isSome
  | .flushErase _ => ∀ f ∈ s.flush, f.again = false
  | _ => True

/-- A datagram that was put on hold lives at this address. -/
def HeldAt (s : Pipeline) (p : Pointer) : Prop :=
  ∃ n d, s.heap.lookup p = some (n, d) ∧ n ∈ s.held

/-- What holds as long as nothing was lost. -/
structure Ok (s : Pipeline) : Prop where
  number : ∀ p n d, s.heap.lookup p = some (n, d) → n < s.next ∧ n ∉ s.offered
  unique : ∀ p q n d d', s.heap.lookup p = some (n, d) → s.heap.lookup q = some (n, d') → p = q
  offered_lt : ∀ n ∈ s.offered, n < s.next
  held_lt : ∀ n ∈ s.held, n < s.next
  adding : ∀ p ∈ s.adding, p ∈ s.heap ∧ ¬ s.HeldAt p
  live : ∀ p ∈ s.evidencesOnHold, s.HeldAt p ∨ ∃ f ∈ s.flush, f.p = p
  flush : ∀ f ∈ s.flush, f.p ∈ s.evidencesOnHold ∧
    (s.HeldAt f.p ↔ f.stage = .picked ∨ f.again = true) ∧ (f.stage = .picked → f.again = false)

/-- The first pipeline is well formed. -/
theorem ok_init (inSync : Bool) (app : App) : (init inSync app).Ok where
  number p n d h := by simp [init] at h
  unique p q n d d' h := by simp [init] at h
  offered_lt n h := by simp [init] at h
  held_lt n h := by simp [init] at h
  adding p h := by simp [init] at h
  live p h := by simp [init] at h
  flush f h := by simp [init] at h

/-- At the start no evidence is lost. -/
theorem notLost_init (inSync : Bool) (app : App) : (init inSync app).NotLost where
  kept n h := by simp [init] at h
  once := List.nodup_nil
  fault := rfl

variable {s s' : Pipeline} {p : Pointer} {d : Datagram} {f : Flush}

/-- What is on the heap has a number and a datagram. -/
theorem exists_lookup (h : p ∈ s.heap) : ∃ n d, s.heap.lookup p = some (n, d) := by
  obtain ⟨⟨n, d⟩, hx⟩ := Finmap.mem_iff.mp h
  exact ⟨n, d, hx⟩

/-! ### A datagram arrives -/

/-- A datagram that arrives while syncing keeps the pipeline well formed. -/
theorem Ok.receive (h : s.Ok) (hp : p ∉ s.heap) (hsync : s.inSync = false) :
    (s.receive p d).Ok := by
  have hnone : s.heap.lookup p = none := Finmap.lookup_eq_none.mpr hp
  have hlookup : ∀ q n d', (s.heap.insert p (s.next, d)).lookup q = some (n, d') ↔
      (q = p ∧ n = s.next ∧ d' = d) ∨ (q ≠ p ∧ s.heap.lookup q = some (n, d')) := by
    intro q n d'
    by_cases hq : q = p
    · subst hq
      simp [Finmap.lookup_insert, eq_comm]
    · simp [Finmap.lookup_insert_of_ne _ hq, hq]
  have hfresh : s.next ∉ s.held := fun hn => lt_irrefl _ (h.held_lt _ hn)
  have hheld : ∀ q, (s.receive p d).HeldAt q ↔ s.HeldAt q := by
    intro q
    simp only [HeldAt, Pipeline.receive, hsync, if_false, Bool.false_eq_true, hlookup]
    constructor
    · rintro ⟨n, d', ⟨-, rfl, -⟩ | ⟨-, hx⟩, hn⟩
      · exact absurd hn hfresh
      · exact ⟨n, d', hx, hn⟩
    · rintro ⟨n, d', hx, hn⟩
      refine ⟨n, d', Or.inr ⟨?_, hx⟩, hn⟩
      rintro rfl
      rw [hnone] at hx
      cases hx
  simp only [Pipeline.receive, hsync, if_false, Bool.false_eq_true] at hheld ⊢
  constructor
  · intro q n d' hx
    rcases (hlookup q n d').mp hx with ⟨-, rfl, -⟩ | ⟨-, hx⟩
    · exact ⟨Nat.lt_succ_self _, fun hn => lt_irrefl _ (h.offered_lt _ hn)⟩
    · obtain ⟨hlt, hnot⟩ := h.number q n d' hx
      exact ⟨Nat.lt_succ_of_lt hlt, hnot⟩
  · intro q r n d₁ d₂ hq hr
    rcases (hlookup q n d₁).mp hq with ⟨rfl, hn, -⟩ | ⟨-, hq'⟩ <;>
      rcases (hlookup r n d₂).mp hr with ⟨rfl, hn', -⟩ | ⟨-, hr'⟩
    · rfl
    · exact absurd (h.number r n d₂ hr').1 (by omega)
    · exact absurd (h.number q n d₁ hq').1 (by omega)
    · exact h.unique q r n d₁ d₂ hq' hr'
  · exact fun n hn => Nat.lt_succ_of_lt (h.offered_lt n hn)
  · exact fun n hn => Nat.lt_succ_of_lt (h.held_lt n hn)
  · intro q hq
    rw [hheld]
    rcases Finset.mem_insert.mp hq with rfl | hq
    · refine ⟨Finmap.mem_insert.mpr (Or.inl rfl), ?_⟩
      rintro ⟨n, d', hx, -⟩
      rw [hnone] at hx
      cases hx
    · exact ⟨Finmap.mem_insert.mpr (Or.inr (h.adding q hq).1), (h.adding q hq).2⟩
  · intro q hq
    rw [hheld]
    exact h.live q hq
  · intro f hf
    rw [hheld]
    exact h.flush f hf

/-- What arrives in sync is offered and deleted at once. -/
theorem Ok.receive_inSync (h : s.Ok) (hsync : s.inSync = true) : (s.receive p d).Ok := by
  rw [Pipeline.receive, if_pos hsync]
  constructor
  · intro q n d' hx
    obtain ⟨hlt, hnot⟩ := h.number q n d' hx
    refine ⟨Nat.lt_succ_of_lt hlt, fun hn => ?_⟩
    rcases List.mem_cons.mp hn with rfl | hn
    · exact lt_irrefl _ hlt
    · exact hnot hn
  · exact h.unique
  · intro n hn
    rcases List.mem_cons.mp hn with rfl | hn
    · exact Nat.lt_succ_self _
    · exact Nat.lt_succ_of_lt (h.offered_lt n hn)
  · exact fun n hn => Nat.lt_succ_of_lt (h.held_lt n hn)
  · exact h.adding
  · exact h.live
  · exact h.flush

/-- A datagram that arrives is lost exactly when nobody recognizes it in sync. -/
theorem NotLost.receive_iff (h : s.Ok) (hs : s.NotLost) (hp : p ∉ s.heap) :
    (s.receive p d).NotLost ↔ (s.inSync = true → (s.parseEvidence d).isSome) := by
  cases hsync : s.inSync with
  | false =>
    rw [Pipeline.receive, if_neg (by simp [hsync])]
    refine ⟨fun _ hsync' => (nomatch hsync'), fun _ => ⟨fun n hn hnot => ?_, hs.once, hs.fault⟩⟩
    obtain ⟨q, hq, d', hx⟩ := hs.kept n hn hnot
    refine ⟨q, hq, d', ?_⟩
    rw [Finmap.lookup_insert_of_ne]
    · exact hx
    · rintro rfl
      exact hp (Finmap.mem_iff.mpr ⟨_, hx⟩)
  | true =>
    rw [Pipeline.receive, if_pos hsync]
    refine ⟨fun h' _ => ?_, fun hsome => ⟨fun n hn hnot => ?_, ?_, ?_⟩⟩
    · simpa [Option.isSome_iff_ne_none] using h'.fault
    · exact hs.kept n hn fun hn' => hnot (List.mem_cons_of_mem _ hn')
    · exact List.nodup_cons.mpr ⟨fun hn => lt_irrefl _ (h.offered_lt _ hn), hs.once⟩
    · simpa [Option.isSome_iff_ne_none] using hsome rfl

/-! ### A datagram is put on hold -/

/-- What `hold::add` of a live datagram changes, besides the flush. -/
theorem heldAt_addOnHold {n : ℕ} (h : s.Ok) (hx : s.heap.lookup p = some (n, d)) {q : Pointer} :
    (s.addOnHold p).HeldAt q ↔ s.HeldAt q ∨ q = p := by
  have hheld : ∀ m, m ∈ (s.addOnHold p).held ↔ m ∈ s.held ∨ m = n := by
    intro m
    simp [addOnHold, hx, or_comm]
  constructor
  · rintro ⟨m, d', hq, hm⟩
    rcases (hheld m).mp hm with hm | rfl
    · exact Or.inl ⟨m, d', hq, hm⟩
    · exact Or.inr (h.unique q p m d' d hq hx)
  · rintro (⟨m, d', hq, hm⟩ | rfl)
    · exact ⟨m, d', hq, (hheld m).mpr (Or.inl hm)⟩
    · exact ⟨n, d, hx, (hheld n).mpr (Or.inr rfl)⟩

/-- Putting a datagram on hold loses nothing. -/
theorem NotLost.addOnHold (hs : s.NotLost) (hp : p ∈ s.heap) : (s.addOnHold p).NotLost := by
  obtain ⟨n, d, hx⟩ := exists_lookup hp
  refine ⟨fun m hm hnot => ?_, hs.once, hs.fault⟩
  simp only [Pipeline.addOnHold, hx, Option.map_some, Option.toFinset_some, Finset.mem_union,
    Finset.mem_singleton] at hm
  rcases hm with hm | rfl
  · obtain ⟨q, hq, d', hlookup⟩ := hs.kept m hm hnot
    exact ⟨q, Finset.mem_insert_of_mem hq, d', hlookup⟩
  · exact ⟨p, Finset.mem_insert_self _ _, d, hx⟩

/-- A network thread puts a datagram on hold. -/
theorem Ok.add (h : s.Ok) (hp : p ∈ s.adding) :
    ({ s with adding := s.adding.erase p }.addOnHold p).Ok := by
  obtain ⟨hheap, hnot⟩ := h.adding p hp
  obtain ⟨n, d, hx⟩ := exists_lookup hheap
  have herase : ({ s with adding := s.adding.erase p } : Pipeline).Ok :=
    ⟨h.number, h.unique, h.offered_lt, h.held_lt, fun q hq =>
        h.adding q (Finset.mem_of_mem_erase hq),
      h.live, h.flush⟩
  have hheld : ∀ q, ({ s with adding := s.adding.erase p }.addOnHold p).HeldAt q ↔
      s.HeldAt q ∨ q = p := fun q => heldAt_addOnHold herase hx
  constructor
  · exact h.number
  · exact h.unique
  · exact h.offered_lt
  · intro m hm
    simp only [addOnHold, hx, Option.map_some, Option.toFinset_some, Finset.mem_union,
      Finset.mem_singleton] at hm
    rcases hm with hm | rfl
    · exact h.held_lt m hm
    · exact (h.number p m d hx).1
  · intro q hq
    have hq' : q ∈ s.adding.erase p := hq
    obtain ⟨hne, hq'⟩ := Finset.mem_erase.mp hq'
    refine ⟨(h.adding q hq').1, ?_⟩
    rw [hheld]
    rintro (hq | rfl)
    · exact (h.adding q hq').2 hq
    · exact hne rfl
  · intro q hq
    rw [hheld]
    rcases Finset.mem_insert.mp hq with rfl | hq
    · exact Or.inl (Or.inr rfl)
    · rcases h.live q hq with hq | ⟨f, hf, rfl⟩
      · exact Or.inl (Or.inl hq)
      · exact Or.inr ⟨_, Option.mem_map_of_mem _ hf, by split_ifs <;> rfl⟩
  · intro f' hf'
    obtain ⟨f, hf, rfl⟩ := Option.mem_map.mp hf'
    obtain ⟨hmem, hiff, hpicked⟩ := h.flush f hf
    by_cases hfp : f.p = p
    · -- the entry at this address is being flushed, and is no longer picked
      have hstage : f.stage ≠ .picked := fun hstage => hnot (hfp ▸ hiff.mpr (Or.inl hstage))
      rw [if_pos hfp]
      exact ⟨Finset.mem_insert_of_mem hmem, ⟨fun _ => Or.inr rfl, fun _ =>
          (hheld _).mpr (Or.inr hfp)⟩,
        fun hstage' => absurd hstage' hstage⟩
    · rw [if_neg hfp, hheld]
      exact ⟨Finset.mem_insert_of_mem hmem, by simpa [hfp] using hiff, hpicked⟩

/-! ### The flush -/

/-- The flush chooses an entry. -/
theorem Ok.pick {next : Option Pointer} (h : s.pick next = some s')
    (hs : ({ s with flush := none } : Pipeline).Ok) : s'.Ok := by
  cases next with
  | none =>
    obtain rfl := Option.some.inj h
    exact hs
  | some q =>
    obtain ⟨hq, rfl⟩ : q ∈ s.evidencesOnHold ∧
        { s with flush := some ⟨q, false, .picked⟩ } = s' := by
      simpa [Pipeline.pick] using h
    have hheld : s.HeldAt q := by
      rcases hs.live q hq with hheld | ⟨f, hf, -⟩
      · exact hheld
      · cases hf
    refine ⟨hs.number, hs.unique, hs.offered_lt, hs.held_lt, hs.adding, fun r hr => ?_, ?_⟩
    · rcases hs.live r hr with hheld | ⟨f, hf, -⟩
      · exact Or.inl hheld
      · cases hf
    · rintro f hf
      obtain rfl := Option.some.inj hf
      exact ⟨hq, ⟨fun _ => Or.inl rfl, fun _ => hheld⟩, fun _ => rfl⟩

/-- Going on to another entry loses nothing and finds nothing again. -/
theorem NotLost.pick_iff {next : Option Pointer} (h : s.pick next = some s') :
    s'.NotLost ↔ s.NotLost := by
  cases next with
  | none =>
    obtain rfl := Option.some.inj h
    exact ⟨fun hs => ⟨hs.kept, hs.once, hs.fault⟩, fun hs => ⟨hs.kept, hs.once, hs.fault⟩⟩
  | some q =>
    obtain ⟨-, rfl⟩ : q ∈ s.evidencesOnHold ∧
        { s with flush := some ⟨q, false, .picked⟩ } = s' := by
      simpa [Pipeline.pick] using h
    exact ⟨fun hs => ⟨hs.kept, hs.once, hs.fault⟩, fun hs => ⟨hs.kept, hs.once, hs.fault⟩⟩

/-- The flush erases its entry. -/
theorem Ok.erase (h : s.Ok) (hf : s.flush = some f) :
    ({ s with evidencesOnHold := s.evidencesOnHold.erase f.p, flush := none } : Pipeline).Ok := by
  refine ⟨h.number, h.unique, h.offered_lt, h.held_lt, h.adding, fun q hq => ?_, fun f hf => ?_⟩
  · obtain ⟨hne, hq⟩ := Finset.mem_erase.mp hq
    rcases h.live q hq with hheld | ⟨f', hf', rfl⟩
    · exact Or.inl hheld
    · rw [hf] at hf'
      obtain rfl := Option.some.inj hf'
      exact absurd rfl hne
  · cases hf

/-- Nothing is lost when the entry is erased, unless a datagram that is on hold
lives there. -/
theorem NotLost.erase_iff (h : s.Ok) (hs : s.NotLost) :
    ({ s with evidencesOnHold := s.evidencesOnHold.erase p } : Pipeline).NotLost ↔
      ¬ s.HeldAt p := by
  constructor
  · rintro hs' ⟨n, d, hx, hn⟩
    obtain ⟨q, hq, d', hlookup⟩ := hs'.kept n hn (h.number p n d hx).2
    obtain rfl := h.unique q p n d' d hlookup hx
    exact (Finset.notMem_erase _ _) hq
  · intro hnot
    refine ⟨fun n hn hoffered => ?_, hs.once, hs.fault⟩
    obtain ⟨q, hq, d', hlookup⟩ := hs.kept n hn hoffered
    refine ⟨q, Finset.mem_erase.mpr ⟨?_, hq⟩, d', hlookup⟩
    rintro rfl
    exact hnot ⟨n, d', hlookup, hn⟩

/-- What the flush offers to the apps. -/
def offer (s : Pipeline) (f : Flush) (n : ℕ) (t : Tx) : Pipeline :=
  { s with
    heap := s.heap.erase f.p
    offered := n :: s.offered
    flush := some { f with stage := .scheduling t } }

/-- What is on the heap after one datagram is deleted. -/
theorem lookup_erase_eq_some {h : Table Pointer (ℕ × Datagram)} {q : Pointer} {x : ℕ × Datagram} :
    (h.erase p).lookup q = some x ↔ q ≠ p ∧ h.lookup q = some x := by
  by_cases hq : q = p
  · subst hq
    simp
  · simp [Finmap.lookup_erase_ne hq, hq]

/-- An offer to the apps keeps the pipeline well formed. -/
theorem Ok.offer {n : ℕ} {t : Tx} (h : s.Ok) (hf : s.flush = some f) (hagain : f.again = false)
    (hx : s.heap.lookup f.p = some (n, d)) (hn : n ∈ s.held) : (s.offer f n t).Ok := by
  have hheld : ∀ q, (s.offer f n t).HeldAt q ↔ q ≠ f.p ∧ s.HeldAt q := by
    intro q
    constructor
    · rintro ⟨m, d', hq, hm⟩
      obtain ⟨hne, hq⟩ := lookup_erase_eq_some.mp hq
      exact ⟨hne, m, d', hq, hm⟩
    · rintro ⟨hne, m, d', hq, hm⟩
      exact ⟨m, d', lookup_erase_eq_some.mpr ⟨hne, hq⟩, hm⟩
  constructor
  · intro q m d' hq
    obtain ⟨hne, hq'⟩ := lookup_erase_eq_some.mp hq
    refine ⟨(h.number q m d' hq').1, fun hm => ?_⟩
    rcases List.mem_cons.mp hm with rfl | hm
    · exact hne (h.unique q f.p m d' d hq' hx)
    · exact (h.number q m d' hq').2 hm
  · intro q r m d₁ d₂ hq hr
    exact h.unique q r m d₁ d₂ (lookup_erase_eq_some.mp hq).2 (lookup_erase_eq_some.mp hr).2
  · intro m hm
    rcases List.mem_cons.mp hm with rfl | hm
    · exact (h.number f.p m d hx).1
    · exact h.offered_lt m hm
  · exact h.held_lt
  · intro q hq
    obtain ⟨hmem, hnot⟩ := h.adding q hq
    have hne : q ≠ f.p := by
      rintro rfl
      exact hnot ⟨n, d, hx, hn⟩
    refine ⟨Finmap.mem_erase.mpr ⟨hne, hmem⟩, fun hq => hnot ((hheld q).mp hq).2⟩
  · intro q hq
    by_cases hne : q = f.p
    · exact Or.inr ⟨_, rfl, hne.symm⟩
    · rcases h.live q hq with hq | ⟨f', hf', rfl⟩
      · exact Or.inl ((hheld q).mpr ⟨hne, hq⟩)
      · rw [hf] at hf'
        obtain rfl := Option.some.inj hf'
        exact absurd rfl hne
  · rintro f' hf'
    obtain rfl := Option.some.inj hf'
    refine ⟨(h.flush f hf).1, ⟨fun hq => absurd rfl ((hheld f.p).mp hq).1, ?_⟩, fun _ => hagain⟩
    rintro (hstage | htrue)
    · cases hstage
    · rw [hagain] at htrue
      cases htrue

/-- What is offered to the apps is not lost. -/
theorem NotLost.offer {n : ℕ} {t : Tx} (h : s.Ok) (hs : s.NotLost)
    (hx : s.heap.lookup f.p = some (n, d)) : (s.offer f n t).NotLost := by
  refine ⟨fun m hm hnot => ?_, List.nodup_cons.mpr ⟨(h.number f.p n d hx).2, hs.once⟩, hs.fault⟩
  obtain ⟨q, hq, d', hlookup⟩ := hs.kept m hm fun hm' => hnot (List.mem_cons_of_mem _ hm')
  refine ⟨q, hq, d', lookup_erase_eq_some.mpr ⟨?_, hlookup⟩⟩
  rintro rfl
  rw [hx] at hlookup
  cases hlookup
  exact hnot List.mem_cons_self

/-- The flush puts its datagram on hold again. -/
theorem Ok.holdAgain {n : ℕ} (h : s.Ok) (hf : s.flush = some f)
    (hx : s.heap.lookup f.p = some (n, d)) (hn : n ∈ s.held) :
    ({ s.addOnHold f.p with
      flush := some { f with again := true, stage := .processed } } : Pipeline).Ok := by
  have hheldAt : s.HeldAt f.p := ⟨n, d, hx, hn⟩
  have hheld : ∀ q, (s.addOnHold f.p).HeldAt q ↔ s.HeldAt q := by
    intro q
    rw [heldAt_addOnHold h hx, or_iff_left_of_imp]
    rintro rfl
    exact hheldAt
  refine ⟨h.number, h.unique, h.offered_lt, fun m hm => ?_, fun q hq => ?_, fun q hq => ?_, ?_⟩
  · simp only [addOnHold, hx, Option.map_some, Option.toFinset_some, Finset.mem_union,
      Finset.mem_singleton] at hm
    rcases hm with hm | rfl
    · exact h.held_lt m hm
    · exact h.held_lt m hn
  · exact ⟨(h.adding q hq).1, fun hq' => (h.adding q hq).2 ((hheld q).mp hq')⟩
  · by_cases hne : q = f.p
    · exact Or.inr ⟨_, rfl, hne.symm⟩
    · rcases h.live q (Finset.mem_of_mem_insert_of_ne hq hne) with hq | ⟨f', hf', rfl⟩
      · exact Or.inl ((hheld q).mpr hq)
      · rw [hf] at hf'
        obtain rfl := Option.some.inj hf'
        exact absurd rfl hne
  · rintro f' hf'
    obtain rfl := Option.some.inj hf'
    exact ⟨Finset.mem_insert_self _ _, ⟨fun _ => Or.inr rfl, fun _ => (hheld f.p).mpr hheldAt⟩,
      fun hstage => (nomatch hstage)⟩

/-! ### Runs -/

/-- The states agree on what is on hold. -/
structure SameHold (s s' : Pipeline) : Prop where
  heap : s'.heap = s.heap
  next : s'.next = s.next
  adding : s'.adding = s.adding
  evidencesOnHold : s'.evidencesOnHold = s.evidencesOnHold
  flush : s'.flush = s.flush
  held : s'.held = s.held
  offered : s'.offered = s.offered
  fault : s'.fault = s.fault

/-- Well-formedness depends on what is on hold only. -/
theorem SameHold.ok (h : SameHold s s') (hs : s.Ok) : s'.Ok := by
  obtain ⟨_, _, _, _, _, _, _, _, _, _, _, _, _⟩ := s
  obtain ⟨_, _, _, _, _, _, _, _, _, _, _, _, _⟩ := s'
  obtain ⟨rfl, rfl, rfl, rfl, rfl, rfl, rfl, rfl⟩ := h
  exact ⟨hs.number, hs.unique, hs.offered_lt, hs.held_lt, hs.adding, hs.live, hs.flush⟩

/-- Whether evidence is lost depends on what is on hold only. -/
theorem SameHold.notLost (h : SameHold s s') (hs : s.NotLost) : s'.NotLost := by
  obtain ⟨_, _, _, _, _, _, _, _, _, _, _, _, _⟩ := s
  obtain ⟨_, _, _, _, _, _, _, _, _, _, _, _, _⟩ := s'
  obtain ⟨rfl, rfl, rfl, rfl, rfl, rfl, rfl, rfl⟩ := h
  exact ⟨hs.kept, hs.once, hs.fault⟩

/-- What an event does to the evidence on hold. -/
theorem step_cases {e : PipelineEvent} (h : s.step e = some s') :
    s.fault = false ∧
      ((SameHold s s' ∧ s.FlushesCleanly e) ∨
      (∃ p d, e = .receive p d ∧ p ∉ s.heap ∧ s' = s.receive p d) ∨
      (∃ p, e = .add p ∧ p ∈ s.adding ∧ s' = { s with adding := s.adding.erase p }.addOnHold p) ∨
      (∃ first, e = .onSync first ∧ s.flush = none ∧ s.pick first = some s') ∨
      (∃ f, e = .flushProcess ∧ s.flush = some f ∧ f.stage = .picked ∧ s' = s.flushProcess f) ∨
      (∃ f t, e = .flushSchedule ∧ s.flush = some f ∧ f.stage = .scheduling t ∧
        s' = { s with
          calendar := Engine.schedule s.calendar t
          flush := some { f with stage := .processed } }) ∨
      (∃ f next, e = .flushErase next ∧ s.flush = some f ∧ f.stage = .processed ∧
        { s with evidencesOnHold := s.evidencesOnHold.erase f.p }.pick next = some s')) := by
  obtain ⟨hfault, h⟩ := step_eq_some.mp h
  refine ⟨hfault, ?_⟩
  cases e with
  | setSync inSync =>
    obtain rfl := Option.some.inj h
    exact Or.inl ⟨⟨rfl, rfl, rfl, rfl, rfl, rfl, rfl, rfl⟩, trivial⟩
  | setApp app =>
    obtain rfl := Option.some.inj h
    exact Or.inl ⟨⟨rfl, rfl, rfl, rfl, rfl, rfl, rfl, rfl⟩, trivial⟩
  | receive p d =>
    obtain ⟨hp, h⟩ := Option.ite_none_left_eq_some.mp h
    obtain rfl := Option.some.inj h
    exact Or.inr (Or.inl ⟨p, d, rfl, hp, rfl⟩)
  | add p =>
    obtain ⟨hp, h⟩ := Option.ite_none_right_eq_some.mp h
    obtain rfl := Option.some.inj h
    exact Or.inr (Or.inr (Or.inl ⟨p, rfl, hp, rfl⟩))
  | schedule t =>
    obtain ⟨-, h⟩ := Option.ite_none_right_eq_some.mp h
    obtain rfl := Option.some.inj h
    exact Or.inl ⟨⟨rfl, rfl, rfl, rfl, rfl, rfl, rfl, rfl⟩, trivial⟩
  | onSync first =>
    obtain ⟨⟨hnone, -⟩, h⟩ := Option.ite_none_right_eq_some.mp h
    exact Or.inr (Or.inr (Or.inr (Or.inl ⟨first, rfl, Option.isNone_iff_eq_none.mp hnone, h⟩)))
  | flushProcess =>
    obtain ⟨f, hf, h⟩ := Option.bind_eq_some_iff.mp h
    obtain ⟨hstage, h⟩ := Option.ite_none_right_eq_some.mp h
    obtain rfl := Option.some.inj h
    exact Or.inr (Or.inr (Or.inr (Or.inr (Or.inl ⟨f, rfl, hf, hstage, rfl⟩))))
  | flushSchedule =>
    obtain ⟨f, hf, h⟩ := Option.bind_eq_some_iff.mp h
    split at h
    · next t hstage =>
      obtain ⟨-, h⟩ := Option.ite_none_right_eq_some.mp h
      obtain rfl := Option.some.inj h
      exact Or.inr (Or.inr (Or.inr (Or.inr (Or.inr (Or.inl ⟨f, t, rfl, hf, hstage, rfl⟩)))))
    · cases h
  | flushErase next =>
    obtain ⟨f, hf, h⟩ := Option.bind_eq_some_iff.mp h
    obtain ⟨hstage, h⟩ := Option.ite_none_right_eq_some.mp h
    exact Or.inr (Or.inr (Or.inr (Or.inr (Or.inr (Or.inr ⟨f, next, rfl, hf, hstage, h⟩)))))
  | lock =>
    obtain ⟨-, h⟩ := Option.ite_none_right_eq_some.mp h
    obtain rfl := Option.some.inj h
    exact Or.inl ⟨⟨rfl, rfl, rfl, rfl, rfl, rfl, rfl, rfl⟩, trivial⟩
  | look due =>
    obtain ⟨-, h⟩ := Option.ite_none_right_eq_some.mp h
    split at h <;> obtain rfl := Option.some.inj h <;>
      exact Or.inl ⟨⟨rfl, rfl, rfl, rfl, rfl, rfl, rfl, rfl⟩, trivial⟩
  | wake due =>
    obtain ⟨-, h⟩ := Option.ite_none_right_eq_some.mp h
    obtain rfl := Option.some.inj h
    exact Or.inl ⟨⟨rfl, rfl, rfl, rfl, rfl, rfl, rfl, rfl⟩, trivial⟩

/-- The flush schedules its evidence. -/
theorem Ok.flushSchedule {t : Tx} {calendar : List Tx} (h : s.Ok) (hf : s.flush = some f)
    (hstage : f.stage = .scheduling t) :
    ({ s with
      calendar := calendar
      flush := some { f with stage := .processed } } : Pipeline).Ok := by
  obtain ⟨hmem, hiff, -⟩ := h.flush f hf
  refine ⟨h.number, h.unique, h.offered_lt, h.held_lt, h.adding, fun q hq => ?_, ?_⟩
  · rcases h.live q hq with hq | ⟨f', hf', rfl⟩
    · exact Or.inl hq
    · rw [hf] at hf'
      obtain rfl := Option.some.inj hf'
      exact Or.inr ⟨_, rfl, rfl⟩
  · rintro f' hf'
    obtain rfl := Option.some.inj hf'
    have hagain : s.HeldAt f.p ↔ f.again = true := by simpa [hstage] using hiff
    exact ⟨hmem, hagain.trans ⟨Or.inr, fun h => h.resolve_left fun hpicked => (nomatch hpicked)⟩,
      fun hpicked => (nomatch hpicked)⟩

/-- In sync the flush offers what the apps recognize. -/
theorem flushProcess_of_recognized {n : ℕ} {t : Tx} (hsync : s.inSync = true)
    (hx : s.heap.lookup f.p = some (n, d)) (ht : s.parseEvidence d = some t) :
    s.flushProcess f = s.offer f n t := by
  simp [flushProcess, hsync, hx, ht, Pipeline.offer]

/-- `process_evidence` in the flush. -/
theorem flushProcess_cases (h : s.Ok) (hf : s.flush = some f) (hstage : f.stage = .picked) :
    ∃ n d, s.heap.lookup f.p = some (n, d) ∧ n ∈ s.held ∧
      ((s.inSync = true ∧ s.parseEvidence d = none ∧ (s.flushProcess f).fault = true ∧
        (s.flushProcess f).flush = s.flush) ∨
      (∃ t, s.inSync = true ∧ s.parseEvidence d = some t ∧ s.flushProcess f = s.offer f n t) ∨
      (s.inSync = false ∧ s.flushProcess f = { s.addOnHold f.p with
        flush := some { f with again := true, stage := .processed } })) := by
  obtain ⟨n, d, hx, hn⟩ := (h.flush f hf).2.1.mpr (Or.inl hstage)
  refine ⟨n, d, hx, hn, ?_⟩
  cases hsync : s.inSync with
  | false =>
    refine Or.inr (Or.inr ⟨rfl, ?_⟩)
    rw [flushProcess, if_neg (by simp [hsync])]
  | true =>
    cases ht : s.parseEvidence d with
    | none =>
      refine Or.inl ⟨rfl, rfl, ?_⟩
      simp [flushProcess, hsync, hx, ht]
    | some t =>
      exact Or.inr (Or.inl ⟨t, rfl, rfl, flushProcess_of_recognized hsync hx ht⟩)

/-- Every event keeps what holds of the evidence on hold. -/
theorem Ok.step {e : PipelineEvent} (h : s.Ok) (hs : s.step e = some s')
    (hfault : s'.fault = false) : s'.Ok := by
  rcases (step_cases hs).2 with ⟨hsame, -⟩ | ⟨p, d, -, hp, rfl⟩ | ⟨p, -, hp, rfl⟩ |
    ⟨first, -, hnone, hpick⟩ | ⟨f, -, hf, hstage, rfl⟩ | ⟨f, t, -, hf, hstage, rfl⟩ |
    ⟨f, next, -, hf, hstage, hpick⟩
  · exact hsame.ok h
  · cases hsync : s.inSync with
    | true => exact h.receive_inSync hsync
    | false => exact h.receive hp hsync
  · exact h.add hp
  · refine .pick hpick ?_
    rw [← hnone]
    exact h
  · obtain ⟨n, d, hx, hn, ⟨-, -, htrue, -⟩ | ⟨t, -, -, heq⟩ | ⟨-, heq⟩⟩ :=
      flushProcess_cases h hf hstage
    · rw [hfault] at htrue
      cases htrue
    · rw [heq]
      exact h.offer hf ((h.flush f hf).2.2 hstage) hx hn
    · rw [heq]
      exact h.holdAgain hf hx hn
  · exact h.flushSchedule hf hstage
  · exact .pick hpick (h.erase hf)

/-- The events that lose evidence. -/
theorem notLost_step_iff {e : PipelineEvent} (h : s.Ok) (hl : s.NotLost)
    (hs : s.step e = some s') : s'.NotLost ↔ s.FlushesCleanly e := by
  rcases (step_cases hs).2 with ⟨hsame, hclean⟩ | ⟨p, d, rfl, hp, rfl⟩ | ⟨p, rfl, hp, rfl⟩ |
    ⟨first, rfl, hnone, hpick⟩ | ⟨f, rfl, hf, hstage, rfl⟩ | ⟨f, t, rfl, hf, hstage, rfl⟩ |
    ⟨f, next, rfl, hf, hstage, hpick⟩
  · exact ⟨fun _ => hclean, fun _ => hsame.notLost hl⟩
  · exact hl.receive_iff h hp
  · refine ⟨fun _ => trivial, fun _ => ?_⟩
    have hl' : ({ s with adding := s.adding.erase p } : Pipeline).NotLost :=
      ⟨hl.kept, hl.once, hl.fault⟩
    exact hl'.addOnHold (h.adding p hp).1
  · exact ⟨fun _ => trivial, fun _ => (NotLost.pick_iff hpick).mpr hl⟩
  · obtain ⟨n, d, hx, hn, hcases⟩ := flushProcess_cases h hf hstage
    have hclean : s.FlushesCleanly .flushProcess ↔
        (s.inSync = true → (s.parseEvidence d).isSome) := by
      constructor
      · intro hall hsync
        exact hall hsync f hf n d hx
      · intro hsome hsync f' hf' m d' hx'
        rw [hf] at hf'
        obtain rfl := Option.some.inj hf'
        rw [hx] at hx'
        cases hx'
        exact hsome hsync
    rw [hclean]
    rcases hcases with ⟨hsync, hparse, htrue, -⟩ | ⟨t, hsync, hparse, heq⟩ | ⟨hsync, heq⟩
    · refine ⟨fun hl' => ?_, fun hsome => ?_⟩
      · rw [hl'.fault] at htrue
        cases htrue
      · have := hsome hsync
        rw [hparse] at this
        cases this
    · rw [heq]
      exact ⟨fun _ _ => by simp [hparse], fun _ => hl.offer h hx⟩
    · rw [heq]
      refine ⟨fun _ hsync' => ?_, fun _ => ?_⟩
      · rw [hsync] at hsync'
        cases hsync'
      · have hl' := hl.addOnHold (Finmap.mem_iff.mpr ⟨_, hx⟩)
        exact ⟨hl'.kept, hl'.once, hl'.fault⟩
  · exact ⟨fun _ => trivial, fun _ => ⟨hl.kept, hl.once, hl.fault⟩⟩
  · rw [NotLost.pick_iff hpick, hl.erase_iff h, (h.flush f hf).2.1, hstage]
    constructor
    · intro hnot f' hf'
      rw [hf] at hf'
      obtain rfl := Option.some.inj hf'
      simpa using hnot
    · intro hclean
      simpa using hclean f hf

/-- **Evidence on hold.** In no state of a run evidence is lost, offered twice or
used after it was deleted, exactly when the apps recognize all that they are
offered, and nothing is put on hold at the address of an entry while this entry
is flushed. -/
theorem not_lost_iff (inSync : Bool) (app : App) (es : List PipelineEvent) (s : Pipeline)
    (h : run step (init inSync app) es = some s) :
    (∀ es' u, es' <+: es → run step (init inSync app) es' = some u → u.NotLost) ↔
      AlongRun step FlushesCleanly (init inSync app) es := by
  have hok : ∀ s e s', (s.fault = false → s.Ok) → step s e = some s' →
      s'.fault = false → s'.Ok := fun s e s' hs hstep hfault =>
    (hs (step_cases hstep).1).step hstep hfault
  exact safe_iff_alongRun hok
    (fun s e s' hs hl hstep => notLost_step_iff (hs hl.fault) hl hstep)
    (fun _ => ok_init inSync app) (notLost_init inSync app) h

/-- A payment arrives before the node is in sync, and the flush chooses it. -/
def paymentOnHold : List PipelineEvent :=
  [.receive 0 paymentDatagram, .add 0, .setSync true, .onSync (some 0)]

/-- The flush that processes the payment. -/
def paymentFlush : Flush := ⟨0, false, .picked⟩

/-- The threads after that. -/
def flushingPayment : Pipeline :=
  ⟨(∅ : Table Pointer (ℕ × Datagram)).insert 0 (0, paymentDatagram), 1, true, tenAtOneApp, ∅, {0},
    some paymentFlush, [], [], .idle, {0}, [], false⟩

/-- The payment is put on hold, and a flush takes it. -/
theorem run_paymentOnHold :
    run step (init false tenAtOneApp) paymentOnHold = some flushingPayment := rfl

/-- The apps recognize the payment. -/
theorem parseEvidence_flushingPayment :
    flushingPayment.parseEvidence paymentDatagram = some (spendOfOne 3) :=
  parseEvidence_paymentDatagram rfl

/-- The flush offers the payment. -/
theorem step_flushingPayment :
    flushingPayment.step .flushProcess =
      some (flushingPayment.offer paymentFlush 0 (spendOfOne 3)) := by
  have hprocess : flushingPayment.flushProcess paymentFlush =
      flushingPayment.offer paymentFlush 0 (spendOfOne 3) :=
    flushProcess_of_recognized rfl rfl parseEvidence_flushingPayment
  rw [← hprocess]
  rfl

/-- The flush puts the payment into the calendar and ends. -/
def paymentFlushed : List PipelineEvent := [.flushProcess, .flushSchedule, .flushErase none]

/-- After the flush the payment is in the calendar. -/
theorem run_paymentFlushed :
    ∃ s, run step (init false tenAtOneApp) (paymentOnHold ++ paymentFlushed) = some s ∧
      s.calendar = [spendOfOne 3] := by
  obtain ⟨s, hs, hcalendar⟩ : ∃ s, run step (flushingPayment.offer paymentFlush 0 (spendOfOne 3))
      [.flushSchedule, .flushErase none] = some s ∧ s.calendar = [spendOfOne 3] := ⟨_, rfl, rfl⟩
  refine ⟨s, ?_, hcalendar⟩
  rw [run_append, run_paymentOnHold, Option.bind_some, paymentFlushed, run_cons_eq_some]
  exact ⟨_, step_flushingPayment, hs⟩

/-- The payment gets from hold into the calendar. -/
theorem not_lost_payment :
    ∃ s, run step (init false tenAtOneApp) (paymentOnHold ++ paymentFlushed) = some s ∧
      s.calendar = [spendOfOne 3] ∧ s.NotLost := by
  obtain ⟨s, hrun, hcalendar⟩ := run_paymentFlushed
  have hclean : AlongRun step FlushesCleanly (init false tenAtOneApp)
      (paymentOnHold ++ paymentFlushed) := by
    rw [AlongRun.append_iff run_paymentOnHold, paymentFlushed,
      AlongRun.cons_iff step_flushingPayment]
    refine ⟨⟨fun hsync => (nomatch hsync), trivial, trivial, trivial, trivial⟩, ?_, trivial, ?_,
      trivial⟩
    · intro _ f hf n d hx
      obtain rfl := Option.some.inj hf
      obtain ⟨rfl, rfl⟩ : 0 = n ∧ paymentDatagram = d := by simpa using Option.some.inj hx
      rw [parseEvidence_flushingPayment]
      rfl
    · intro f hf
      obtain rfl := Option.some.inj hf
      rfl
  exact ⟨s, hrun, hcalendar,
    (not_lost_iff false tenAtOneApp _ s hrun).mpr hclean _ s List.prefix_rfl hrun⟩

/-- The sync loop ends although the node is not in sync, and the flush drops a
datagram. -/
theorem lost_out_of_sync :
    ∃ s, run step (init false tenAtOneApp) [.receive 0 paymentDatagram, .add 0, .onSync (some 0),
        .flushProcess, .flushErase none] = some s ∧
      0 ∈ s.held ∧ 0 ∉ s.offered ∧ s.evidencesOnHold = ∅ ∧ ¬ s.NotLost := by
  refine ⟨_, rfl, by decide, by decide, by decide, fun h => ?_⟩
  obtain ⟨p, hp, -⟩ := h.kept 0 (by decide) (by decide)
  exact absurd hp (Finset.notMem_empty p)

end Pipeline

end AcCore.Gov.Engine
