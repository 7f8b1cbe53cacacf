import AcCore.Gov.Socket.Reuse

/-!
# After a descriptor has come back too early

Once a client that waits has the descriptor of an entry of the table, or a client has been
dropped because the pool was exhausted, the thread of the server never comes to the end of
`update` again, whatever the threads do.
-/

namespace AcCore.Gov.Socket.Connections

open Lib

variable {s s' : Connections} {p : ℕ → Place} {e : ConnectionEvent} {c d : ℕ}

/-! ## What disconnecting a client leaves alone -/

/-- Disconnecting a client leaves the phase of the loop. -/
@[simp] theorem phase_disconnect : (s.disconnect d).phase = s.phase := by
  unfold disconnect remove
  split_ifs <;> rfl

/-- Disconnecting a client leaves those that are busy. -/
@[simp] theorem busy_disconnect : (s.disconnect d).busy = s.busy := by
  unfold disconnect remove
  split_ifs <;> rfl

/-- Disconnecting a client leaves the threads. -/
@[simp] theorem workers_disconnect : (s.disconnect d).workers = s.workers := by
  unfold disconnect remove
  split_ifs <;> rfl

/-- Disconnecting a client leaves the copy that the loop works on. -/
@[simp] theorem copy_disconnect : (s.disconnect d).copy = s.copy := by
  unfold disconnect remove
  split_ifs <;> rfl

/-- Disconnecting a client keeps the others that are to be removed. -/
theorem mem_wremove_disconnect (hc : c ∈ s.wremove) : c ∈ (s.disconnect d).wremove := by
  unfold disconnect remove
  split_ifs
  · exact hc
  · exact Finset.mem_insert_of_mem hc
  · exact hc

/-- Taking a client out of the table leaves the phase of the loop. -/
@[simp] theorem phase_shrinkOne : (s.shrinkOne d).phase = s.phase := by
  unfold shrinkOne
  dsimp only
  split_ifs <;> simp [onDetach]

/-- Taking a client out of the table leaves those that are busy. -/
@[simp] theorem busy_shrinkOne : (s.shrinkOne d).busy = s.busy := by
  unfold shrinkOne
  dsimp only
  split_ifs <;> simp [onDetach]

/-- Taking a client out of the table leaves the threads. -/
@[simp] theorem workers_shrinkOne : (s.shrinkOne d).workers = s.workers := by
  unfold shrinkOne
  dsimp only
  split_ifs <;> simp [onDetach]

/-! ## A client without a worker -/

/-- The client is busy without a worker, and going to be closed. -/
structure Forgotten (s : Connections) (c : ℕ) : Prop where
  busy : c ∈ s.busy
  worker : c ∉ s.workers
  phase : s.phase = .reads ∧ c ∈ s.wremove ∨ s.phase = .shrink ∧ c ∈ s.copy

namespace Forgotten

/-- A forgotten client stays so when clients are disconnected. -/
theorem disconnect (h : s.Forgotten c) (d : ℕ) : (s.disconnect d).Forgotten c where
  busy := by simpa using h.busy
  worker := by simpa using h.worker
  phase := by
    rw [phase_disconnect, copy_disconnect]
    exact h.phase.imp_left fun h => ⟨h.1, mem_wremove_disconnect h.2⟩

/-- A forgotten client stays so when a descriptor is read. -/
theorem readOne (h : s.Forgotten c) (fd : ℕ) (isSet idle : Bool) :
    (s.readOne fd isSet idle).Forgotten c := by
  have hskip : ({ s with sl := s.sl.erase fd } : Connections).Forgotten c :=
    ⟨h.busy, h.worker, h.phase⟩
  unfold Connections.readOne
  dsimp only
  by_cases hset : isSet = false
  · rw [if_pos hset]
    exact hskip
  · rw [if_neg hset]
    cases hlookup : s.clients.lookup fd with
    | none => exact hskip
    | some d =>
      dsimp only
      by_cases hd : d ∈ s.busy
      · rw [if_pos hd]
        exact hskip
      · rw [if_neg hd]
        have hne : c ≠ d := fun hcd => hd (hcd ▸ h.busy)
        cases idle with
        | true =>
          refine ⟨Finset.mem_insert_of_mem h.busy, fun hmem => ?_, h.phase⟩
          exact (Finset.mem_insert.mp hmem).elim hne h.worker
        | false =>
          have hbusy : ({ s with sl := s.sl.erase fd, busy := insert d s.busy } :
              Connections).Forgotten c :=
            ⟨Finset.mem_insert_of_mem h.busy, h.worker, h.phase⟩
          exact hbusy.disconnect d

/-- The thread of the server goes on waiting for the client. -/
theorem step (h : s.Forgotten c) (hs : s.step e = some s') : s'.Forgotten c := by
  obtain ⟨-, hs⟩ := Option.ite_none_left_eq_some.mp hs
  cases e with
  | connect fd =>
    obtain ⟨-, hs⟩ := Option.ite_none_right_eq_some.mp hs
    exact Option.some.inj hs ▸ ⟨h.busy, h.worker, h.phase⟩
  | attach d =>
    obtain ⟨-, hs⟩ := Option.ite_none_right_eq_some.mp hs
    exact Option.some.inj hs ▸ ⟨h.busy, h.worker, h.phase⟩
  | detach d =>
    obtain ⟨-, hs⟩ := Option.ite_none_right_eq_some.mp hs
    exact Option.some.inj hs ▸ h.disconnect d
  | finish d =>
    obtain ⟨hd, hs⟩ := Option.ite_none_right_eq_some.mp hs
    have hne : c ≠ d := fun hcd => h.worker (hcd ▸ hd)
    refine Option.some.inj hs ▸ ⟨Finset.mem_erase.mpr ⟨hne, h.busy⟩, fun hmem => ?_, h.phase⟩
    exact h.worker (Finset.mem_of_mem_erase hmem)
  | select accepted =>
    obtain ⟨hphase, -⟩ := Option.ite_none_right_eq_some.mp hs
    simpa [hphase] using h.phase
  | read fd isSet idle =>
    obtain ⟨-, hs⟩ := Option.ite_none_right_eq_some.mp hs
    exact Option.some.inj hs ▸ h.readOne fd isSet idle
  | take =>
    obtain ⟨⟨hphase, -⟩, hs⟩ := Option.ite_none_right_eq_some.mp hs
    have hmem : c ∈ s.wremove := by simpa [hphase] using h.phase
    exact Option.some.inj hs ▸ ⟨h.busy, h.worker, Or.inr ⟨rfl, hmem⟩⟩
  | close d =>
    obtain ⟨⟨hphase, -, hd, -⟩, hs⟩ := Option.ite_none_right_eq_some.mp hs
    have hne : c ≠ d := fun hcd => hd (hcd ▸ h.busy)
    have hmem : c ∈ s.copy := by simpa [hphase] using h.phase
    refine Option.some.inj hs ▸ ⟨?_, ?_, Or.inr ⟨?_, Finset.mem_erase.mpr ⟨hne, hmem⟩⟩⟩
    · simpa using h.busy
    · simpa using h.worker
    · simpa using hphase
  | collect =>
    obtain ⟨⟨hphase, hcopy⟩, -⟩ := Option.ite_none_right_eq_some.mp hs
    simpa [hphase, hcopy] using h.phase
  | emplace d =>
    obtain ⟨⟨hphase, -⟩, -⟩ := Option.ite_none_right_eq_some.mp hs
    simpa [hphase] using h.phase
  | purge =>
    obtain ⟨⟨hphase, -⟩, -⟩ := Option.ite_none_right_eq_some.mp hs
    simpa [hphase] using h.phase
  | sweep =>
    obtain ⟨⟨hphase, -⟩, -⟩ := Option.ite_none_right_eq_some.mp hs
    simpa [hphase] using h.phase

end Forgotten

/-! ## A descriptor in the way -/

/-- The client is going to be added, and has the descriptor of an entry. -/
structure Blocked (s : Connections) (c : ℕ) : Prop where
  lt_next : ∀ d, s.sock d ≠ 0 → d < s.next
  attached : c ∈ s.parent
  sock : s.sock c ≠ 0
  zero : 0 ∉ s.clients
  mem : s.sock c ∈ s.clients
  phase : s.phase = .shrink ∧ c ∈ s.wadd ∧ c ∉ s.copy ∨ s.phase = .grow ∧ c ∈ s.t

namespace Blocked

/-- The client is not added: the assertion fails before. -/
theorem step (h : s.Blocked c) (hs : s.step e = some s') : s'.Blocked c ∨ s'.aborted = true := by
  obtain ⟨-, hs⟩ := Option.ite_none_left_eq_some.mp hs
  cases e with
  | connect fd =>
    obtain ⟨-, hs⟩ := Option.ite_none_right_eq_some.mp hs
    obtain rfl := Option.some.inj hs
    have hsock : (s.create fd).sock c = s.sock c := by
      simp [create, (h.lt_next c h.sock).ne]
    refine Or.inl ⟨fun d hd => ?_, h.attached, hsock ▸ h.sock, h.zero, hsock ▸ h.mem, h.phase⟩
    by_cases hnew : d = s.next
    · exact hnew ▸ Nat.lt_succ_self s.next
    · have hold : s.sock d ≠ 0 := by simpa [create, hnew] using hd
      exact Nat.lt_succ_of_lt (h.lt_next d hold)
  | attach d =>
    obtain ⟨-, hs⟩ := Option.ite_none_right_eq_some.mp hs
    obtain rfl := Option.some.inj hs
    refine Or.inl ⟨h.lt_next, Finset.mem_insert_of_mem h.attached, h.sock, h.zero, h.mem, ?_⟩
    exact h.phase.imp_left fun h => ⟨h.1, Finset.mem_insert_of_mem h.2.1, h.2.2⟩
  | detach d =>
    obtain ⟨hd, hs⟩ := Option.ite_none_right_eq_some.mp hs
    obtain rfl := Option.some.inj hs
    rw [disconnect, if_pos hd.1, remove]
    split_ifs
    · exact Or.inl h
    · exact Or.inl ⟨h.lt_next, h.attached, h.sock, h.zero, h.mem, h.phase⟩
  | finish d =>
    obtain ⟨-, hs⟩ := Option.ite_none_right_eq_some.mp hs
    exact Or.inl (Option.some.inj hs ▸ ⟨h.lt_next, h.attached, h.sock, h.zero, h.mem, h.phase⟩)
  | select accepted =>
    obtain ⟨hphase, -⟩ := Option.ite_none_right_eq_some.mp hs
    simpa [hphase] using h.phase
  | read fd isSet idle =>
    obtain ⟨⟨hphase, -⟩, -⟩ := Option.ite_none_right_eq_some.mp hs
    simpa [hphase] using h.phase
  | take =>
    obtain ⟨⟨hphase, -⟩, -⟩ := Option.ite_none_right_eq_some.mp hs
    simpa [hphase] using h.phase
  | close d =>
    obtain ⟨⟨hphase, hcopy, -, -⟩, hs⟩ := Option.ite_none_right_eq_some.mp hs
    obtain rfl := Option.some.inj hs
    obtain ⟨hwadd, hnot⟩ : c ∈ s.wadd ∧ c ∉ s.copy := by simpa [hphase] using h.phase
    have hne : c ≠ d := fun hcd => hnot (hcd ▸ hcopy)
    have hkept : Function.update s.sock d 0 c = s.sock c := Function.update_of_ne hne 0 s.sock
    have hsock : Function.update s.sock d 0 c ≠ 0 := by
      rw [hkept]
      exact h.sock
    have hmem : Function.update s.sock d 0 c ∈ s.clients := by
      rw [hkept]
      exact h.mem
    rw [close_eq h.zero d]
    refine Or.inl ⟨fun d' hd' => h.lt_next d' ?_, Finset.mem_erase.mpr ⟨hne, h.attached⟩,
      hsock, h.zero, hmem,
      Or.inl ⟨hphase, Finset.mem_erase.mpr ⟨hne, hwadd⟩, fun hmem => ?_⟩⟩
    · intro hzero
      by_cases hd'' : d' = d
      · exact hd' (by simp [hd''])
      · exact hd' (by simpa [hd''] using hzero)
    · exact hnot (Finset.mem_of_mem_erase hmem)
  | collect =>
    obtain ⟨⟨hphase, hcopy⟩, hs⟩ := Option.ite_none_right_eq_some.mp hs
    have hmem : c ∈ s.wadd := by simpa [hphase, hcopy] using h.phase
    exact Or.inl (Option.some.inj hs ▸
      ⟨h.lt_next, h.attached, h.sock, h.zero, h.mem, Or.inr ⟨rfl, hmem⟩⟩)
  | emplace d =>
    obtain ⟨⟨hphase, hd⟩, hs⟩ := Option.ite_none_right_eq_some.mp hs
    obtain rfl := Option.some.inj hs
    have hmem : c ∈ s.t := by simpa [hphase] using h.phase
    rw [growOne]
    split_ifs with hfails
    · exact Or.inr rfl
    · obtain ⟨hnew, hsock⟩ := not_or.mp hfails
      have hne : c ≠ d := fun hcd => hnew (hcd ▸ h.mem)
      refine Or.inl ⟨h.lt_next, h.attached, h.sock, ?_, ?_,
        Or.inr ⟨hphase, Finset.mem_erase.mpr ⟨hne, hmem⟩⟩⟩
      · simpa [Finmap.mem_insert, Ne.symm hsock] using h.zero
      · exact Finmap.mem_insert.mpr (Or.inr h.mem)
  | purge =>
    obtain ⟨⟨hphase, ht⟩, -⟩ := Option.ite_none_right_eq_some.mp hs
    simpa [hphase, ht] using h.phase
  | sweep =>
    obtain ⟨⟨hphase, -⟩, -⟩ := Option.ite_none_right_eq_some.mp hs
    simpa [hphase] using h.phase

end Blocked

/-! ## The end of `update` -/

/-- The thread of the server does not come to the end of `update` any more. -/
inductive Hopeless (s : Connections) : Prop where
  | aborted (h : s.aborted = true)
  | blocked (c : ℕ) (h : s.Blocked c)
  | forgotten (c : ℕ) (h : s.Forgotten c)

/-- No event helps a loop that is hopeless. -/
theorem Hopeless.step (h : s.Hopeless) (hs : s.step e = some s') : s'.Hopeless := by
  cases h with
  | aborted h =>
    obtain ⟨hrunning, -⟩ := Option.ite_none_left_eq_some.mp hs
    exact absurd h hrunning
  | blocked c h => exact (h.step hs).elim (.blocked c) .aborted
  | forgotten c h => exact .forgotten c (h.step hs)

/-- A hopeless loop makes no update. -/
theorem Hopeless.updates_eq_zero (h : s.Hopeless) (hs : s.step e = some s') : updates [e] = 0 := by
  cases e with
  | sweep =>
    obtain ⟨hrunning, hs⟩ := Option.ite_none_left_eq_some.mp hs
    obtain ⟨⟨hphase, -⟩, -⟩ := Option.ite_none_right_eq_some.mp hs
    cases h with
    | aborted h => exact absurd h hrunning
    | blocked c h => simpa [hphase] using h.phase
    | forgotten c h => simpa [hphase] using h.phase
  | _ => rfl

/-- A hopeless loop makes no update in any run. -/
theorem Hopeless.run {es : List ConnectionEvent} (h : s.Hopeless)
    (hs : Lib.run Connections.step s es = some s') : updates es = 0 := by
  induction es generalizing s with
  | nil => rfl
  | cons e es ih =>
    obtain ⟨s₁, hs₁, hs⟩ := run_cons_eq_some.mp hs
    rw [updates_cons, h.updates_eq_zero hs₁, ih (h.step hs₁) hs]

/-- A step that hurries is one too many. -/
theorem hopeless_of_hurried (h : s.Tracks p) (he : ¬ s.Unhurried e) (hs : s.step e = some s') :
    s'.Hopeless := by
  obtain ⟨-, hs⟩ := Option.ite_none_left_eq_some.mp hs
  cases e with
  | attach c =>
    obtain ⟨⟨hsock, hc⟩, hs⟩ := Option.ite_none_right_eq_some.mp hs
    obtain ⟨hphase, hmem⟩ : s.phase = .shrink ∧ s.sock c ∈ s.clients := by
      simpa [Unhurried] using he
    obtain rfl := Option.some.inj hs
    have hplace : p c = .nowhere := by
      by_contra hplace
      exact hc ((h.client c).parent.mpr ⟨hsock, hplace⟩)
    have hlt : ∀ d, s.sock d ≠ 0 → d < s.next := fun d hd =>
      not_le.mp fun hle => hd ((h.client d).new hle).1
    exact .blocked c ⟨hlt, Finset.mem_insert_self c s.parent, hsock, h.zero_notMem, hmem,
      Or.inl ⟨hphase, Finset.mem_insert_self c s.wadd,
        fun hcopy => ((h.client c).copy hcopy).2.1 hplace⟩⟩
  | read fd isSet idle =>
    obtain ⟨⟨hphase, -⟩, hs⟩ := Option.ite_none_right_eq_some.mp hs
    obtain rfl := Option.some.inj hs
    obtain ⟨rfl, c, hlookup, hbusy, rfl⟩ : isSet = true ∧
        ∃ c, s.clients.lookup fd = some c ∧ c ∉ s.busy ∧ idle = false := by
      simpa [Unhurried] using he
    have hparent : c ∈ s.parent := h.mem_parent (Or.inr hphase) hlookup
    have hworker : c ∉ s.workers := fun hmem => hbusy ((h.client c).worker.mpr hmem)
    refine .forgotten c ⟨?_, ?_, Or.inl ⟨?_, ?_⟩⟩
    · simp [readOne, hlookup, hbusy]
    · simp [readOne, hlookup, hbusy, hworker]
    · simp [readOne, hlookup, hbusy, hphase]
    · simp [readOne, hlookup, hbusy, disconnect, hparent, remove, h.sock_ne hparent]
  | _ => exact absurd trivial he

/-- After a step that hurries, the server does not come to the end of `update` any more. -/
theorem updates_eq_zero_of_hurried {before after : List ConnectionEvent} {u t : Connections}
    (hu : Lib.run Connections.step init before = some u)
    (hbefore : AlongRun Connections.step Unhurried init before) (he : ¬ u.Unhurried e)
    (h : Lib.run Connections.step u (e :: after) = some t) : updates after = 0 := by
  obtain ⟨p, hp⟩ := tracks_init.run hbefore hu
  obtain ⟨u', hu', h⟩ := run_cons_eq_some.mp h
  exact (hopeless_of_hurried hp.tracks he hu').run h

end AcCore.Gov.Socket.Connections
