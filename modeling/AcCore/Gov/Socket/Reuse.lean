import AcCore.Gov.Socket.Lifecycle

/-!
# Descriptors that are used again

The thread of the server looks for the entry of a client that it has closed under the
descriptor that the client has then, which is none. So the entry stays until the end of
`update`. A connection that gets the descriptor in the meantime, and is attached before
`grow` takes the clients that wait, meets the entry of the closed client there. This file
shows that all is well in the runs in which that does not happen.
-/

namespace AcCore.Gov.Socket

open Lib

namespace Connections

/-- What the threads know of a client. -/
def view (s : Connections) (c : ℕ) : View where
  sock := s.sock c
  new := s.next ≤ c
  parent := c ∈ s.parent
  busy := c ∈ s.busy
  worker := c ∈ s.workers
  keys fd := s.clients.lookup fd = some c
  wadd := c ∈ s.wadd
  t := c ∈ s.t
  attic := c ∈ s.attic
  wremove := c ∈ s.wremove
  copy := c ∈ s.copy
  deleted := s.deleted.count c

/-- The clients are at these places. -/
structure Tracks (s : Connections) (p : ℕ → Place) : Prop where
  running : s.aborted = false
  client : ∀ c, (s.view c).Ok s.phase (p c)
  unique : ∀ c d, s.sock c = s.sock d → s.sock c ≠ 0 → c = d
  /-- No descriptor of a client that is going to be added is a key of the table. -/
  clear : ∀ c, p c = .waiting ∧ s.phase = .shrink ∨ p c = .growing → s.sock c ∉ s.clients

/-- A step takes the clients from these places to those. -/
structure Leads (s : Connections) (p : ℕ → Place) (k : ℕ) (s' : Connections) (p' : ℕ → Place) :
    Prop where
  running : s'.aborted = false
  client : ∀ c, View.Follows s.phase (s.view c) (p c) k s'.phase (s'.view c) (p' c)
  unique : ∀ c d, s'.sock c = s'.sock d → s'.sock c ≠ 0 → c = d
  clear : ∀ c, p' c = .waiting ∧ s'.phase = .shrink ∨ p' c = .growing → s'.sock c ∉ s'.clients

variable {s s' s'' : Connections} {p p' p'' : ℕ → Place} {c fd k k' : ℕ}

/-- After a step the clients are at the places that it leads to. -/
theorem Leads.tracks (h : s.Leads p k s' p') : s'.Tracks p' :=
  ⟨h.running, fun c => (h.client c).ok, h.unique, h.clear⟩

/-- A step after a step, with the deletions of both. -/
theorem Leads.trans (h : s.Leads p k s' p') (h' : s'.Leads p' k' s'' p'') :
    s.Leads p (k + k') s'' p'' :=
  ⟨h'.running, fun c => (h.client c).trans (h'.client c), h'.unique, h'.clear⟩

/-- What `shrink` does with a client while 0 is no key of the table. -/
theorem close_eq (hzero : 0 ∉ s.clients) (c : ℕ) :
    ({ s.shrinkOne c with copy := s.copy.erase c } : Connections) =
      { s with
        parent := s.parent.erase c
        sock := Function.update s.sock c 0
        wadd := s.wadd.erase c
        attic := if c ∈ s.wadd then insert c s.attic else s.attic
        copy := s.copy.erase c } := by
  have hdetach : s.onDetach c =
      { s with parent := s.parent.erase c, sock := Function.update s.sock c 0 } := by
    rw [onDetach, Connections.disconnect, if_neg (Finset.notMem_erase c s.parent)]
  unfold shrinkOne
  simp only [hdetach, Function.update_self, if_neg hzero]
  split_ifs with hc
  · rfl
  · rw [Finset.erase_eq_of_notMem hc]

namespace Tracks

/-- The table has a client exactly where its place says so. -/
theorem lookup (h : s.Tracks p) : s.clients.lookup fd = some c ↔ p c = .table fd :=
  (h.client c).keys fd

/-- A client that its parent thread knows has a descriptor. -/
theorem sock_ne (h : s.Tracks p) (hc : c ∈ s.parent) : s.sock c ≠ 0 :=
  ((h.client c).parent.mp hc).1

/-- Nothing in the table has descriptor 0. -/
theorem zero_notMem (h : s.Tracks p) : 0 ∉ s.clients := by
  intro hmem
  obtain ⟨c, hc⟩ := Finmap.mem_iff.mp hmem
  exact ((h.client c).entry 0 (h.lookup.mp hc)).1 rfl

/-- Where datagrams are read, an entry of the table is one of a client with the descriptor. -/
theorem current (h : s.Tracks p) (hserving : s.phase.Serving)
    (hlookup : s.clients.lookup fd = some c) : fd ≠ 0 ∧ s.sock c = fd := by
  obtain ⟨hfd, hsock | ⟨-, hnot⟩⟩ := (h.client c).entry fd (h.lookup.mp hlookup)
  · exact ⟨hfd, hsock⟩
  · exact absurd hserving hnot

/-- While the loop serves, the clients of the table are known to the parent. -/
theorem mem_parent (h : s.Tracks p) (hserving : s.phase.Serving)
    (hlookup : s.clients.lookup fd = some c) : c ∈ s.parent := by
  obtain ⟨hfd, rfl⟩ := h.current hserving hlookup
  exact (h.client c).parent.mpr ⟨hfd, by simp [h.lookup.mp hlookup]⟩

/-- Clients are being added in the phase that adds them only. -/
theorem ne_growing (h : s.Tracks p) (hphase : s.phase ≠ .grow) : p c ≠ .growing :=
  (h.client c).ne_growing hphase

/-- Where nothing is said of one client but what was said before. -/
theorem stay (h : s.Tracks p) (hrunning : s'.aborted = s.aborted) (hphase : s'.phase = s.phase)
    (hview : ∀ c, s'.view c = s.view c) : s.Leads p 0 s' p where
  running := hrunning.trans h.running
  client c := by
    rw [hview, hphase]
    exact (h.client c).refl
  unique c d := by
    have hsock : s'.sock = s.sock := funext fun c => congrArg View.sock (hview c)
    rw [hsock]
    exact h.unique c d
  clear c hc := by
    have hsock : s'.sock = s.sock := funext fun c => congrArg View.sock (hview c)
    rw [hphase] at hc
    rw [hsock]
    intro hmem
    obtain ⟨d, hd⟩ := Finmap.mem_iff.mp hmem
    have hkeys : (s'.view d).keys (s.sock c) := hd
    rw [hview] at hkeys
    exact h.clear c hc (Finmap.mem_of_lookup_eq_some hkeys)

/-- A client gets a descriptor that is not open. -/
theorem create (h : s.Tracks p) (hfd : s.Closed fd) : s.Leads p 0 (s.create fd) p := by
  have hnew : s.sock s.next = 0 ∧ p s.next = .nowhere := (h.client s.next).new le_rfl
  have hother : ∀ c, c ≠ s.next → (s.create fd).view c = s.view c := by
    intro c hc
    have hlt : s.next + 1 ≤ c ↔ s.next ≤ c := by omega
    simp [view, Connections.create, hc, hlt]
  have hclosed : ∀ c, s.sock c ≠ fd := by
    intro c hsame
    by_cases hc : c < s.next
    · exact hfd.2 c hc hsame
    · have hzero := ((h.client c).new (not_lt.mp hc)).1
      exact hfd.1 (hsame.symm.trans hzero)
  have hsock : ∀ c, (s.create fd).sock c = if c = s.next then fd else s.sock c := fun c =>
    Function.update_apply ..
  constructor
  · exact h.running
  · intro c
    by_cases hc : c = s.next
    · subst hc
      have hview : (s.create fd).view s.next = { s.view s.next with sock := fd, new := False } := by
        simp [view, Connections.create]
      rw [hview]
      exact (h.client s.next).create le_rfl fd
    · rw [hother c hc]
      exact (h.client c).refl
  · intro c d hcd hne
    rw [hsock, hsock] at hcd
    rw [hsock] at hne
    split_ifs at hcd hne with hc hd
    · rw [hc, hd]
    · exact absurd hcd.symm (hclosed d)
    · exact absurd hcd (hclosed c)
    · exact h.unique c d hcd hne
  · intro c hc
    have hne : c ≠ s.next := by
      rintro rfl
      simp [hnew.2] at hc
    rw [hsock, if_neg hne]
    exact h.clear c hc

/-- A client that is attached waits to be added. -/
theorem attach (h : s.Tracks p) (hsock : s.sock c ≠ 0) (hc : c ∉ s.parent)
    (hclear : s.phase = .shrink → s.sock c ∉ s.clients) :
    s.Leads p 0 (s.attach c) (Function.update p c .waiting) := by
  constructor
  · exact h.running
  · intro d
    by_cases hd : d = c
    · subst hd
      have hview : (s.attach d).view d = { s.view d with parent := True, wadd := True } := by
        simp [view, Connections.attach]
      rw [hview, Function.update_self]
      exact (h.client d).attach hsock hc
    · have hview : (s.attach c).view d = s.view d := by simp [view, Connections.attach, hd]
      rw [hview, Function.update_of_ne hd]
      exact (h.client d).refl
  · exact h.unique
  · intro d hd
    by_cases hdc : d = c
    · subst hdc
      rw [Function.update_self] at hd
      exact hd.elim (fun hd => hclear hd.2) (fun hd => nomatch hd)
    · rw [Function.update_of_ne hdc] at hd
      exact h.clear d hd

/-- A client that is attached is put into `wremove`. -/
theorem disconnect (h : s.Tracks p) (hc : s.Known c) : s.Leads p 0 (s.disconnect c) p := by
  obtain ⟨hparent, hknown⟩ := hc
  have heq : s.disconnect c = { s with wremove := insert c s.wremove } := by
    rw [Connections.disconnect, if_pos hparent, remove, if_neg (h.sock_ne hparent)]
  rw [heq]
  refine ⟨h.running, fun d => ?_, h.unique, h.clear⟩
  by_cases hd : d = c
  · subst hd
    have hview : ({ s with wremove := insert d s.wremove } : Connections).view d =
        { s.view d with wremove := True } := by
      simp [view]
    rw [hview]
    refine (h.client d).remove hparent fun hcopy => ?_
    exact hknown.resolve_right fun hnot => hnot.2 hcopy
  · have hview : ({ s with wremove := insert c s.wremove } : Connections).view d = s.view d := by
      simp [view, hd]
    rw [hview]
    exact (h.client d).refl

/-- A thread that is done moves no client. -/
theorem finish (h : s.Tracks p) (c : ℕ) :
    s.Leads p 0 { s with busy := s.busy.erase c, workers := s.workers.erase c } p := by
  refine ⟨h.running, fun d => ?_, h.unique, h.clear⟩
  by_cases hd : d = c
  · subst hd
    have hview : ({ s with busy := s.busy.erase d, workers := s.workers.erase d } :
        Connections).view d = { s.view d with busy := False, worker := False } := by
      simp [view]
    rw [hview]
    exact (h.client d).finish
  · have hview : ({ s with busy := s.busy.erase c, workers := s.workers.erase c } :
        Connections).view d = s.view d := by
      simp [view, hd]
    rw [hview]
    exact (h.client d).refl

/-- A client of the table that has no worker gets one. -/
theorem readOne (h : s.Tracks p) (hserving : s.phase.Serving) {isSet idle : Bool}
    (hidle : s.Unhurried (.read fd isSet idle)) : s.Leads p 0 (s.readOne fd isSet idle) p := by
  have hskip : s.Leads p 0 { s with sl := s.sl.erase fd } p := h.stay rfl rfl fun _ => rfl
  unfold Connections.readOne
  dsimp only
  by_cases hset : isSet = false
  · rw [if_pos hset]
    exact hskip
  · rw [if_neg hset]
    cases hlookup : s.clients.lookup fd with
    | none => exact hskip
    | some c =>
      dsimp only
      split_ifs with hbusy hpool
      · exact hskip
      · have hparent : c ∈ s.parent := h.mem_parent hserving hlookup
        refine ⟨h.running, fun d => ?_, h.unique, h.clear⟩
        by_cases hd : d = c
        · subst hd
          have hview : ({ s with
              sl := s.sl.erase fd, busy := insert d s.busy, workers := insert d s.workers } :
                Connections).view d = { s.view d with busy := True, worker := True } := by
            simp [view]
          rw [hview]
          exact (h.client d).work hparent
        · have hview : ({ s with
              sl := s.sl.erase fd, busy := insert c s.busy, workers := insert c s.workers } :
                Connections).view d = s.view d := by
            simp [view, hd]
          rw [hview]
          exact (h.client d).refl
      · exact absurd (hidle (by simpa using hset) c hlookup hbusy) hpool

/-- Taking the clients that are to be removed moves none of them. -/
theorem take (h : s.Tracks p) (hphase : s.phase = .reads) :
    s.Leads p 0 { s with copy := s.wremove, wremove := ∅, phase := .shrink } p := by
  refine ⟨h.running, fun c => ?_, h.unique, fun c hc hmem => ?_⟩
  · have hview : ({ s with copy := s.wremove, wremove := ∅, phase := .shrink } :
        Connections).view c =
          { s.view c with copy := (s.view c).wremove, wremove := False } := by
      simp [view]
    rw [hview, hphase]
    exact (hphase ▸ h.client c).take
  · -- the entry is that of a client with the descriptor, which is this one
    have hwaiting : p c = .waiting := (hc.resolve_right (h.ne_growing (by simp [hphase]))).1
    obtain ⟨d, hd⟩ := Finmap.mem_iff.mp hmem
    obtain ⟨hne, hsock⟩ := h.current (Or.inr hphase) hd
    obtain rfl := h.unique c d hsock.symm hne
    have hplace := h.lookup.mp hd
    rw [hwaiting] at hplace
    cases hplace

/-- A client is closed. -/
theorem close (h : s.Tracks p) (hphase : s.phase = .shrink) (hcopy : c ∈ s.copy)
    (hbusy : c ∉ s.busy) :
    s.Leads p 0 { s.shrinkOne c with copy := s.copy.erase c }
      (Function.update p c (if p c = .waiting then .attic else p c)) := by
  have hsock : ∀ d, Function.update s.sock c 0 d ≠ 0 →
      d ≠ c ∧ Function.update s.sock c 0 d = s.sock d := by
    intro d hd
    have hdc : d ≠ c := by
      rintro rfl
      rw [Function.update_self] at hd
      exact hd rfl
    exact ⟨hdc, Function.update_of_ne hdc 0 s.sock⟩
  rw [close_eq h.zero_notMem c]
  refine ⟨h.running, fun d => ?_, fun d e hde hne => ?_, fun d hd => ?_⟩
  · rw [hphase]
    by_cases hd : d = c
    · subst hd
      have hwadd : d ∈ (if d ∈ s.wadd then insert d s.attic else s.attic) ↔
          d ∈ s.attic ∨ d ∈ s.wadd := by
        split_ifs with hmem <;> simp [hmem]
      rw [Function.update_self]
      simpa [view, hwadd] using (hphase ▸ h.client d).close hcopy hbusy
    · have hattic : d ∈ (if c ∈ s.wadd then insert c s.attic else s.attic) ↔ d ∈ s.attic := by
        split_ifs <;> simp [hd]
      rw [Function.update_of_ne hd]
      simpa [view, hd, hattic] using (hphase ▸ h.client d).refl
  · obtain ⟨-, hd⟩ := hsock d hne
    obtain ⟨-, he⟩ := hsock e fun he => hne (hde.trans he)
    exact h.unique d e (hd.symm.trans (hde.trans he)) (hd ▸ hne)
  · have hdc : d ≠ c := by
      rintro rfl
      rw [Function.update_self] at hd
      have hgrowing := h.ne_growing (c := d) (by simp [hphase])
      by_cases hwaiting : p d = .waiting
      · rw [if_pos hwaiting] at hd
        simp at hd
      · rw [if_neg hwaiting] at hd
        exact hd.elim (fun hd => hwaiting hd.1) hgrowing
    rw [Function.update_of_ne hdc] at hd
    have hclear := h.clear d hd
    rwa [← Function.update_of_ne hdc 0 s.sock] at hclear

/-- Collecting the clients that are to be added makes the waiting ones grow the table. -/
theorem collect (h : s.Tracks p) (hphase : s.phase = .shrink) (hcopy : s.copy = ∅) :
    s.Leads p 0 { s with t := s.wadd, wadd := ∅, phase := .grow }
      (fun c => if p c = .waiting then .growing else p c) := by
  refine ⟨h.running, fun c => ?_, h.unique, fun c hc => ?_⟩
  · have hnot : ¬ (s.view c).copy := by simp [view, hcopy]
    rw [hphase]
    simpa [view] using (hphase ▸ h.client c).collect hnot
  · dsimp only at hc
    split_ifs at hc with hwaiting
    · exact h.clear c (Or.inl ⟨hwaiting, hphase⟩)
    · exact h.clear c (Or.inr (hc.resolve_left fun hc => hwaiting hc.1))

/-- No assertion fails in `grow`. -/
theorem emplace (h : s.Tracks p) (hphase : s.phase = .grow) (hc : c ∈ s.t) :
    s.Leads p 0 (s.growOne c) (Function.update p c (.table (s.sock c))) := by
  have hplace : p c = .growing := (h.client c).t.mp hc
  have hsock : s.sock c ≠ 0 := (h.client c).waiting (Or.inr hplace)
  have hclear : s.sock c ∉ s.clients := h.clear c (Or.inr hplace)
  rw [growOne, if_neg (not_or.mpr ⟨hclear, hsock⟩)]
  refine ⟨h.running, fun d => ?_, h.unique, fun d hd => ?_⟩
  · rw [hphase]
    by_cases hd : d = c
    · subst hd
      have hkeys : ∀ fd, (s.clients.insert (s.sock d) d).lookup fd = some d ↔ fd = s.sock d := by
        intro fd
        by_cases hfd : fd = s.sock d
        · subst hfd
          simp
        · simp [Finmap.lookup_insert_of_ne _ hfd, hfd, h.lookup, hplace]
      rw [Function.update_self]
      simpa [view, hkeys] using (hphase ▸ h.client d).emplace hc
    · have hkeys : ∀ fd, (s.clients.insert (s.sock c) c).lookup fd = some d ↔
          s.clients.lookup fd = some d := by
        intro fd
        by_cases hfd : fd = s.sock c
        · subst hfd
          simp [Ne.symm hd, Finmap.lookup_eq_none.mpr hclear]
        · rw [Finmap.lookup_insert_of_ne _ hfd]
      rw [Function.update_of_ne hd]
      simpa [view, hd, hkeys] using (hphase ▸ h.client d).refl
  · have hdc : d ≠ c := by
      rintro rfl
      simp [Function.update_self] at hd
    rw [Function.update_of_ne hdc] at hd
    have hgrowing : p d = .growing := hd.resolve_left fun hd => by simp [hphase] at hd
    have hne : s.sock d ≠ s.sock c := fun hsame =>
      hdc (h.unique d c hsame (hsame ▸ hsock))
    simp [Finmap.mem_insert, hne, h.clear d (Or.inr hgrowing)]

/-- Purging the attic deletes the clients in it that are not busy. -/
theorem purge (h : s.Tracks p) (hphase : s.phase = .grow) (ht : s.t = ∅) :
    s.Leads p 0
      { s with
        attic := s.attic ∩ s.busy
        deleted := s.deleted + (s.attic \ s.busy).val
        phase := .sweep }
      (fun c => if p c = .attic then .deleted else p c) := by
  refine ⟨h.running, fun c => ?_, h.unique, fun c hc => ?_⟩
  · have hnot : ¬ (s.view c).t := by simp [view, ht]
    have hbusy : c ∈ s.attic → c ∉ s.busy := fun hc =>
      (h.client c).not_busy ((h.client c).gone (Or.inl ((h.client c).attic.mp hc)))
    have hcount : (s.deleted + (s.attic \ s.busy).val).count c =
        s.deleted.count c + if p c = .attic then 1 else 0 := by
      have hiff : c ∈ (s.attic \ s.busy).val ↔ p c = .attic := by
        rw [Finset.mem_val, Finset.mem_sdiff, ← (h.client c).attic]
        exact ⟨fun hc => hc.1, fun hc => ⟨hc, hbusy hc⟩⟩
      rw [Multiset.count_add, Multiset.count_eq_of_nodup (s.attic \ s.busy).nodup]
      simp only [hiff]
    rw [hphase]
    have hinter : c ∉ s.attic ∩ s.busy := by
      rw [Finset.mem_inter]
      exact fun hc => hbusy hc.1 hc.2
    have hview : ({ s with
        attic := s.attic ∩ s.busy
        deleted := s.deleted + (s.attic \ s.busy).val
        phase := .sweep } : Connections).view c =
          { s.view c with
            attic := False
            deleted := (s.view c).deleted + if p c = .attic then 1 else 0 } := by
      simp only [view, hcount, hinter]
    rw [hview]
    exact (hphase ▸ h.client c).purge hnot
  · dsimp only at hc
    split_ifs at hc with hattic
    · simp at hc
    · exact h.clear c (Or.inr (hc.resolve_left fun hc => nomatch hc.2))

/-- The sweep takes every client without a descriptor from the table to the attic. -/
theorem sweep (h : s.Tracks p) (hphase : s.phase = .sweep) :
    s.Leads p 1 s.sweep (fun c => if s.sock c = 0 ∧ (p c).InTable then .attic else p c) := by
  have hdead : ∀ c, c ∈ (s.dead.map Prod.snd).toFinset ↔
      s.sock c = 0 ∧ ∃ fd, s.clients.lookup fd = some c := by
    intro c
    simp only [List.mem_toFinset, dead, List.mem_map, List.mem_filter, decide_eq_true_eq]
    constructor
    · rintro ⟨⟨fd, c⟩, ⟨hmem, hsock⟩, rfl⟩
      exact ⟨hsock, fd, Table.mem_toList.mp hmem⟩
    · rintro ⟨hsock, fd, hlookup⟩
      exact ⟨(fd, c), ⟨Table.mem_toList.mpr hlookup, hsock⟩, rfl⟩
  have hkeys : ∀ fd c, s.sweep.clients.lookup fd = some c ↔
      s.clients.lookup fd = some c ∧ s.sock c ≠ 0 := by
    intro fd c
    have hmem : fd ∈ s.dead.map Prod.fst ↔ ∃ d, s.clients.lookup fd = some d ∧ s.sock d = 0 := by
      simp only [dead, List.mem_map, List.mem_filter, decide_eq_true_eq]
      constructor
      · rintro ⟨⟨fd, d⟩, ⟨hmem, hsock⟩, rfl⟩
        exact ⟨d, Table.mem_toList.mp hmem, hsock⟩
      · rintro ⟨d, hlookup, hsock⟩
        exact ⟨(fd, d), ⟨Table.mem_toList.mpr hlookup, hsock⟩, rfl⟩
    rw [Connections.sweep, Table.lookup_eraseAll]
    split_ifs with hfd
    · obtain ⟨d, hlookup, hsock⟩ := hmem.mp hfd
      simp [hlookup]
      rintro rfl
      exact hsock
    · refine (and_iff_left_of_imp fun hlookup hsock => ?_).symm
      exact hfd (hmem.mpr ⟨c, hlookup, hsock⟩)
  refine ⟨h.running, fun c => ?_, h.unique, fun c hc => ?_⟩
  · have hview : s.sweep.view c = { s.view c with
        parent := (s.view c).parent ∧ ¬ ((s.view c).sock = 0 ∧ ∃ fd, (s.view c).keys fd)
        keys := fun fd => (s.view c).keys fd ∧ (s.view c).sock ≠ 0
        attic := (s.view c).attic ∨ (s.view c).sock = 0 ∧ ∃ fd, (s.view c).keys fd } := by
      simp only [view, hkeys]
      simp only [Connections.sweep, Finset.mem_sdiff, Finset.mem_union, hdead]
    rw [hview, hphase]
    exact (hphase ▸ h.client c).sweep
  · split_ifs at hc with hgone
    · simp at hc
    · have hgrowing := h.ne_growing (c := c) (by simp [hphase])
      exact absurd (hc.resolve_left fun hc => nomatch hc.2) hgrowing

/-- In `select` a client is waited for that is looked at afterwards. -/
theorem select (h : s.Tracks p) (hphase : s.phase = .select) :
    s.Leads p 0 { s with phase := .reads } p := by
  refine ⟨h.running, fun c => ?_, h.unique, fun c hc => ?_⟩
  · rw [hphase]
    have hserving : Phase.Serving .reads ↔ Phase.Serving .select := by decide
    exact (hphase ▸ h.client c).stay hserving (by simp) (by simp) (by simp)
  · exact h.clear c (Or.inr (hc.resolve_left fun hc => nomatch hc.2))

end Tracks

/-- The number of ends of `update` that an event is. -/
theorem updates_cons (e : ConnectionEvent) (es : List ConnectionEvent) :
    updates (e :: es) = updates [e] + updates es := by
  simp only [updates, List.countP_cons, List.countP_nil]
  omega

/-- One step of a run in which no descriptor comes back too early. -/
theorem Tracks.step {e : ConnectionEvent} (h : s.Tracks p) (he : s.Unhurried e)
    (hs : s.step e = some s') : ∃ p', s.Leads p (updates [e]) s' p' := by
  unfold Connections.step at hs
  rw [if_neg (by simp [h.running])] at hs
  cases e with
  | connect fd =>
    obtain ⟨hfd, hs⟩ := Option.ite_none_right_eq_some.mp hs
    exact ⟨p, Option.some.inj hs ▸ h.create hfd⟩
  | attach c =>
    obtain ⟨⟨hsock, hc⟩, hs⟩ := Option.ite_none_right_eq_some.mp hs
    exact ⟨_, Option.some.inj hs ▸ h.attach hsock hc he⟩
  | detach c =>
    obtain ⟨hc, hs⟩ := Option.ite_none_right_eq_some.mp hs
    exact ⟨p, Option.some.inj hs ▸ h.disconnect hc⟩
  | finish c =>
    obtain ⟨-, hs⟩ := Option.ite_none_right_eq_some.mp hs
    exact ⟨p, Option.some.inj hs ▸ h.finish c⟩
  | select accepted =>
    obtain ⟨hphase, hs⟩ := Option.ite_none_right_eq_some.mp hs
    cases accepted with
    | none => exact ⟨p, Option.some.inj hs ▸ h.select hphase⟩
    | some fd =>
      obtain ⟨hfd, hs⟩ := Option.ite_none_right_eq_some.mp hs
      have hcreate := h.create hfd
      have hsock : (s.create fd).sock s.next ≠ 0 := by
        simp [Connections.create, hfd.1]
      have hparent : s.next ∉ (s.create fd).parent := fun hmem =>
        h.sock_ne hmem ((h.client s.next).new le_rfl).1
      have hattach := hcreate.tracks.attach hsock hparent fun hshrink => by
        have : s.phase = .shrink := hshrink
        rw [hphase] at this
        cases this
      exact ⟨_, Option.some.inj hs ▸
        (hcreate.trans hattach).trans (hattach.tracks.select hphase)⟩
  | read fd isSet idle =>
    obtain ⟨⟨hphase, -⟩, hs⟩ := Option.ite_none_right_eq_some.mp hs
    exact ⟨p, Option.some.inj hs ▸ h.readOne (Or.inr hphase) he⟩
  | take =>
    obtain ⟨⟨hphase, -⟩, hs⟩ := Option.ite_none_right_eq_some.mp hs
    exact ⟨p, Option.some.inj hs ▸ h.take hphase⟩
  | close c =>
    obtain ⟨⟨hphase, hcopy, hbusy, -⟩, hs⟩ := Option.ite_none_right_eq_some.mp hs
    exact ⟨_, Option.some.inj hs ▸ h.close hphase hcopy hbusy⟩
  | collect =>
    obtain ⟨⟨hphase, hcopy⟩, hs⟩ := Option.ite_none_right_eq_some.mp hs
    exact ⟨_, Option.some.inj hs ▸ h.collect hphase hcopy⟩
  | emplace c =>
    obtain ⟨⟨hphase, hc⟩, hs⟩ := Option.ite_none_right_eq_some.mp hs
    exact ⟨_, Option.some.inj hs ▸ h.emplace hphase hc⟩
  | purge =>
    obtain ⟨⟨hphase, ht⟩, hs⟩ := Option.ite_none_right_eq_some.mp hs
    exact ⟨_, Option.some.inj hs ▸ h.purge hphase ht⟩
  | sweep =>
    obtain ⟨⟨hphase, -⟩, hs⟩ := Option.ite_none_right_eq_some.mp hs
    exact ⟨_, Option.some.inj hs ▸ h.sweep hphase⟩

/-- The run of which every step is such a one. -/
theorem Tracks.run {es : List ConnectionEvent} (h : s.Tracks p)
    (hes : AlongRun Connections.step Unhurried s es)
    (hs : Lib.run Connections.step s es = some s') :
    ∃ p', s.Leads p (updates es) s' p' := by
  induction es generalizing s p with
  | nil => exact ⟨p, Option.some.inj hs ▸ h.stay rfl rfl fun _ => rfl⟩
  | cons e es ih =>
    obtain ⟨s₁, hs₁, hs⟩ := run_cons_eq_some.mp hs
    rw [AlongRun.cons_iff hs₁] at hes
    obtain ⟨p₁, hfirst⟩ := h.step hes.1 hs₁
    obtain ⟨p', hrest⟩ := ih hfirst.tracks hes.2 hs
    rw [updates_cons]
    exact ⟨p', hfirst.trans hrest⟩

/-- At the start there are no clients anywhere. -/
theorem tracks_init : init.Tracks fun _ => .nowhere := by
  refine ⟨rfl, fun c => ?_, fun c d _ hc => absurd rfl hc, fun c hc => by simp at hc⟩
  constructor <;> simp [view, init]

/-- Only clients whose place says so are deleted. -/
theorem notMem_deleted (h : s.Tracks p) (hc : p c ≠ .deleted) : c ∉ s.deleted := by
  have hcount := (h.client c).deleted
  rw [if_neg hc] at hcount
  exact Multiset.count_eq_zero.mp hcount

/-- The thread of the server waits for nothing but a worker. -/
theorem Tracks.advances (h : s.Tracks p) (hworkers : ∀ c ∈ s.copy, c ∉ s.workers) :
    ∃ e, e.OfServer ∧ s.Unhurried e ∧ (s.step e).isSome := by
  have hrunning : ¬ s.aborted = true := by simp [h.running]
  cases hphase : s.phase with
  | select =>
    refine ⟨.select none, trivial, trivial, ?_⟩
    simp [Connections.step, hrunning, hphase]
  | reads =>
    by_cases hsl : s.sl = ∅
    · refine ⟨.take, trivial, trivial, ?_⟩
      simp [Connections.step, hrunning, hphase, hsl]
    · obtain ⟨fd, hfd⟩ := Finset.nonempty_iff_ne_empty.mpr hsl
      have hunhurried : s.Unhurried (.read fd false false) := fun hset => absurd hset (by decide)
      refine ⟨.read fd false false, trivial, hunhurried, ?_⟩
      simp [Connections.step, hrunning, hphase, hfd]
  | shrink =>
    by_cases hcopy : s.copy = ∅
    · refine ⟨.collect, trivial, trivial, ?_⟩
      simp [Connections.step, hrunning, hphase, hcopy]
    · obtain ⟨c, hc⟩ := Finset.nonempty_iff_ne_empty.mpr hcopy
      have hbusy : c ∉ s.busy := fun hbusy => hworkers c hc ((h.client c).worker.mp hbusy)
      have hdeleted := notMem_deleted h ((h.client c).copy hc).2.2
      refine ⟨.close c, trivial, trivial, ?_⟩
      simp [Connections.step, hrunning, hphase, hc, hbusy, hdeleted]
  | grow =>
    by_cases ht : s.t = ∅
    · refine ⟨.purge, trivial, trivial, ?_⟩
      simp [Connections.step, hrunning, hphase, ht]
    · obtain ⟨c, hc⟩ := Finset.nonempty_iff_ne_empty.mpr ht
      refine ⟨.emplace c, trivial, trivial, ?_⟩
      simp [Connections.step, hrunning, hphase, hc]
  | sweep =>
    have hdead : ∀ e ∈ s.dead, e.2 ∉ s.busy := fun e he =>
      (h.client e.2).not_busy (of_decide_eq_true (List.mem_filter.mp he).2)
    refine ⟨.sweep, trivial, trivial, ?_⟩
    rw [Connections.step, if_neg hrunning]
    simp only [if_pos (And.intro hphase hdead), Option.isSome_some]

/-- While the clients are at their places the state is safe. -/
theorem Tracks.safe (h : s.Tracks p) : s.Safe where
  running := h.running
  current hserving _ _ := h.current hserving
  unique := h.unique
  once := by
    rw [Multiset.nodup_iff_count_le_one]
    intro c
    have hcount := (h.client c).deleted
    split_ifs at hcount <;> exact hcount.trans_le (by omega)
  advances := h.advances

/-- A client that is detached is known, and is disconnected. -/
theorem step_detach (h : s.step (.detach c) = some s') : s.Known c ∧ s' = s.disconnect c := by
  unfold Connections.step at h
  obtain ⟨-, h⟩ := Option.ite_none_left_eq_some.mp h
  obtain ⟨hc, h⟩ := Option.ite_none_right_eq_some.mp h
  exact ⟨hc, (Option.some.inj h).symm⟩

/-- A client that is put into `wremove` is deleted before `update` has come to its end
three times. -/
theorem due_of_known (hc : s.Known c) (hsock : s.sock c ≠ 0) (x : Place) :
    ((s.disconnect c).view c).Due (s.disconnect c).phase x 3 := by
  have hmem : c ∈ (s.disconnect c).wremove := by
    rw [Connections.disconnect, if_pos hc.1, remove, if_neg hsock]
    exact Finset.mem_insert_self c s.wremove
  exact Or.inr (Or.inr (Or.inr ⟨hmem, le_rfl⟩))

/-- **The table of connections.** In a run in which no descriptor comes back too early and
the pool is not exhausted, no assertion fails, datagrams are read from clients under their
own descriptors, no client is deleted twice, and a client that is detached has been
deleted when `update` has come to its end three times. -/
theorem safe_of_unhurried {es : List ConnectionEvent} {t : Connections}
    (h : Lib.run Connections.step init es = some t)
    (hes : AlongRun Connections.step Unhurried init es) :
    (∀ es' u, es' <+: es → Lib.run Connections.step init es' = some u → u.Safe) ∧
      ∀ before c after, es = before ++ .detach c :: after → 3 ≤ updates after →
        t.deleted.count c = 1 := by
  constructor
  · rintro es' u ⟨rest, rfl⟩ hu
    have hes' := ((AlongRun.append_iff hu).mp hes).1
    obtain ⟨p, hp⟩ := tracks_init.run hes' hu
    exact hp.tracks.safe
  · rintro before c after rfl hupdates
    rw [run_append] at h
    obtain ⟨u, hu, h⟩ := Option.bind_eq_some_iff.mp h
    obtain ⟨hbefore, hafter⟩ := (AlongRun.append_iff hu).mp hes
    obtain ⟨p, hp⟩ := tracks_init.run hbefore hu
    obtain ⟨u', hu', h⟩ := run_cons_eq_some.mp h
    rw [AlongRun.cons_iff hu'] at hafter
    obtain ⟨hknown, rfl⟩ := step_detach hu'
    have hsock : u.sock c ≠ 0 := hp.tracks.sock_ne hknown.1
    obtain ⟨p', hrest⟩ := (hp.tracks.disconnect hknown).tracks.run hafter.2 h
    -- the client is in `wremove` now, and three ends of `update` follow
    have hdue := (due_of_known hknown hsock (p c)).mono hupdates
    rw [← Nat.zero_add (updates after)] at hdue
    have hdeleted := View.due_zero.mp ((hrest.client c).due 0 hdue)
    have hcount := (hrest.tracks.client c).deleted
    rwa [if_pos hdeleted] at hcount

/-! ## A descriptor that is used again -/

/-- A client is accepted, served, detached and closed, and the next connection gets its
descriptor. -/
def reconnect : List ConnectionEvent :=
  [.take, .collect, .purge, .sweep, .select (some 5), .take, .collect, .emplace 0, .purge, .sweep,
    .select none, .read 5 true true, .detach 0, .finish 0, .take, .close 0, .connect 5]

/-- The connection is attached after `grow` has begun. -/
def attachLate : List ConnectionEvent :=
  reconnect ++ [.collect, .attach 1, .purge, .sweep, .select none, .take, .collect, .emplace 1,
    .purge, .sweep, .select none, .read 5 false false, .take, .collect, .purge, .sweep]

/-- A late client in a run that is not hurried: every state is safe, and client 0 is deleted
once. -/
theorem safe_of_unhurried_attachLate :
    ∃ t, Lib.run Connections.step init attachLate = some t ∧
      (∀ es' u, es' <+: attachLate → Lib.run Connections.step init es' = some u → u.Safe) ∧
      t.deleted.count 0 = 1 := by
  obtain ⟨t, ht⟩ : ∃ t, Lib.run Connections.step init attachLate = some t :=
    Option.isSome_iff_exists.mp (by decide +kernel)
  have hsafe := safe_of_unhurried ht (by decide +kernel)
  exact ⟨t, ht, hsafe.1, hsafe.2 (attachLate.take 12) 0 (attachLate.drop 13) rfl (by decide)⟩

/-- It is attached before `grow` begins: the entry of the closed client is in its way. -/
theorem attachEarly_aborted :
    ∃ t, Lib.run Connections.step init (reconnect ++ [.attach 1, .collect, .emplace 1]) = some t ∧
      t.aborted = true ∧ ¬ t.Safe := by
  have hview : (Lib.run Connections.step init
      (reconnect ++ [.attach 1, .collect, .emplace 1])).map aborted = some true := by
    decide +kernel
  obtain ⟨t, ht, haborted⟩ := Option.map_eq_some_iff.mp hview
  exact ⟨t, ht, haborted, fun hsafe => Bool.noConfusion (haborted.symm.trans hsafe.running)⟩

end Connections

end AcCore.Gov.Socket
