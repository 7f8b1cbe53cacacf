import AcCore.Gov.Socket.Reassembly

/-!
# Where receiving writes

The size of a datagram is chosen by the peer, and the buffer gets that size after the
header has been read into it. A size that is too great is refused. One that is smaller
than the header is not.
-/

namespace AcCore.Gov.Socket

open Lib Datagram

/-- A receiver that takes one datagram after the other until none arrives: the
datagrams, and the accesses to their buffers. -/
def session : ℕ → Conn → List Datagram × List Access
  | 0, _ => ([], [])
  | fuel + 1, conn =>
    let r := clientRecv conn
    match r.reply with
    | .datagram d =>
      let next := session fuel r.conn
      (d :: next.1, r.accesses ++ next.2)
    | _ => ([], r.accesses)

/-- The accesses stay inside the buffers, and the datagrams have their header. -/
def SessionInBounds (s : List Datagram × List Access) : Prop :=
  (∀ a ∈ s.2, a.InBounds) ∧ ∀ d ∈ s.1, headerSize ≤ d.bytes.length

/-- Whatever is received of this connection, it is received inside the buffers. Every
datagram takes at least its header, so their number is bounded by what arrives. -/
def ReceivesInBounds (conn : Conn) : Prop :=
  SessionInBounds (session (conn.arriving.all.length + 1) conn)

/-- The sizes that a stream announces: the one in its first four bytes, and when it is
allowed, those of what comes after a datagram of this size. -/
def announced (bytes : List UInt8) : List ℕ :=
  if bytes.length < headerSize then []
  else
    decodeSize bytes ::
      if headerSize ≤ decodeSize bytes ∧ decodeSize bytes ≤ maxsize then
        announced (bytes.drop (decodeSize bytes))
      else []
termination_by bytes.length
decreasing_by
  rw [List.length_drop]
  unfold headerSize at *
  omega

/-- Less than a header announces nothing. -/
theorem announced_of_lt {bytes : List UInt8} (h : bytes.length < headerSize) :
    announced bytes = [] := by
  rw [announced, if_pos h]

/-- A size that is not allowed is the last one. -/
theorem announced_of_not {bytes : List UInt8} (h : headerSize ≤ bytes.length)
    (hsize : ¬ (headerSize ≤ decodeSize bytes ∧ decodeSize bytes ≤ maxsize)) :
    announced bytes = [decodeSize bytes] := by
  rw [announced, if_neg h.not_gt, if_neg hsize]

/-- A size that is allowed is announced, and then those that follow. -/
theorem announced_of_allowed {bytes : List UInt8} (h : headerSize ≤ bytes.length)
    (hmin : headerSize ≤ decodeSize bytes) (hmax : decodeSize bytes ≤ maxsize) :
    announced bytes = decodeSize bytes :: announced (bytes.drop (decodeSize bytes)) := by
  rw [announced, if_neg h.not_gt, if_pos ⟨hmin, hmax⟩]

/-- What is received after a datagram. -/
theorem session_of_datagram {conn : Conn} {d : Datagram}
    (hreply : (clientRecv conn).reply = .datagram d) (fuel : ℕ) :
    session (fuel + 1) conn =
      (d :: (session fuel (clientRecv conn).conn).1,
        (clientRecv conn).accesses ++ (session fuel (clientRecv conn).conn).2) := by
  rw [session]
  dsimp only
  rw [hreply]

/-- Nothing is received after an error. -/
theorem session_of_ne {conn : Conn} (hreply : ∀ d, (clientRecv conn).reply ≠ .datagram d)
    (fuel : ℕ) : session (fuel + 1) conn = ([], (clientRecv conn).accesses) := by
  rw [session]
  dsimp only
  split
  · next d hd => exact absurd hd (hreply d)
  · rfl

/-- When the first thing that is received is not a datagram, what matters is whether
it has written beyond the buffer. -/
theorem sessionInBounds_of_ne {conn : Conn} (hopen : conn.isOpen = true)
    (hreply : ∀ d, (clientRecv conn).reply ≠ .datagram d) (fuel : ℕ) :
    SessionInBounds (session (fuel + 1) conn) ↔ (clientRecv conn).reply ≠ .undefined := by
  rw [session_of_ne hreply, ← (frames_clientRecv hopen).inBounds]
  simp [SessionInBounds]

/-- After a datagram the session is in bounds when the rest is. -/
theorem sessionInBounds_of_datagram {conn : Conn} (hopen : conn.isOpen = true) {d : Datagram}
    (hreply : (clientRecv conn).reply = .datagram d) (hd : headerSize ≤ d.bytes.length) (fuel : ℕ) :
    SessionInBounds (session (fuel + 1) conn) ↔
      SessionInBounds (session fuel (clientRecv conn).conn) := by
  have hin := (frames_clientRecv hopen).inBounds.mpr (by rw [hreply]; simp)
  rw [session_of_datagram hreply]
  simp only [SessionInBounds, List.mem_append, List.mem_cons, or_imp, forall_and, forall_eq]
  exact ⟨fun h => ⟨h.1.2, h.2.2⟩, fun h => ⟨⟨hin, h.1⟩, hd, h.2⟩⟩

/-- A session is in bounds exactly when no announced size is below that of a header. -/
theorem sessionInBounds_iff {fuel : ℕ} {conn : Conn} (hopen : conn.isOpen = true)
    (hfuel : conn.arriving.all.length < fuel) :
    SessionInBounds (session fuel conn) ↔
      ∀ sz ∈ announced conn.arriving.all, headerSize ≤ sz := by
  induction fuel generalizing conn with
  | zero => omega
  | succ fuel ih =>
    have hframes := frames_clientRecv hopen
    have hframe := hframes.frame
    rw [frame] at hframe
    -- the cases are those of what is received first of the stream
    split_ifs at hframe with hshort hmax hmin hcut <;> rw [Prod.mk.injEq] at hframe
    · rw [sessionInBounds_of_ne hopen (by simp [← hframe.1]), announced_of_lt hshort, ← hframe.1]
      simp
    · rw [sessionInBounds_of_ne hopen (by simp [← hframe.1]), ← hframe.1,
        announced_of_not (not_lt.mp hshort) (by omega)]
      simp only [List.mem_singleton, forall_eq]
      exact iff_of_true (by simp) (le_trans (by decide) hmax.le)
    · rw [sessionInBounds_of_ne hopen (by simp [← hframe.1]), ← hframe.1,
        announced_of_not (not_lt.mp hshort) (by omega)]
      simp only [List.mem_singleton, forall_eq]
      exact iff_of_false (by simp) hmin.not_ge
    · rw [sessionInBounds_of_ne hopen (by simp [← hframe.1]), ← hframe.1,
        announced_of_allowed (not_lt.mp hshort) (not_lt.mp hmin) (not_lt.mp hmax),
        List.drop_of_length_le hcut.le, announced_of_lt (by decide)]
      simp only [List.mem_singleton, forall_eq]
      exact iff_of_true (by simp) (not_lt.mp hmin)
    · obtain ⟨hreply, hrest⟩ := hframe
      have hsize : headerSize ≤ (conn.arriving.all.take (decodeSize conn.arriving.all)).length := by
        rw [List.length_take]
        omega
      have hfuel' : (clientRecv conn).conn.arriving.all.length < fuel := by
        rw [← hrest, List.length_drop]
        unfold headerSize at hshort hmin
        omega
      rw [sessionInBounds_of_datagram hopen hreply.symm hsize,
        ih (hframes.isOpen _ hreply.symm) hfuel', ← hrest,
        announced_of_allowed (not_lt.mp hshort) (not_lt.mp hmin) (not_lt.mp hmax),
        List.forall_mem_cons]
      exact ⟨fun h => ⟨not_lt.mp hmin, h⟩, fun h => h.2⟩

/-- **Receiving stays inside the buffers** of a stream, however it is cut, if and only
if no size that the stream announces is smaller than the header. -/
theorem receivesInBounds_iff (arriving : Chunks UInt8) (again : Bool) :
    ReceivesInBounds ⟨true, arriving, again⟩ ↔
      ∀ sz ∈ announced arriving.all, headerSize ≤ sz :=
  sessionInBounds_iff rfl (Nat.lt_succ_self _)

/-- Six zeros: a header that announces the size zero. -/
def sixZeros : Chunks UInt8 := ⟨[[0, 0, 0, 0, 0, 0]], by simp⟩

/-- The service is read behind a buffer without bytes, and as many bytes are then
asked for as a negative number makes. -/
theorem sixZeros_not_receivesInBounds :
    ¬ ∀ (arriving : Chunks UInt8) (again : Bool), ReceivesInBounds ⟨true, arriving, again⟩ := by
  intro h
  have hsession : (session (sixZeros.all.length + 1) ⟨true, sixZeros, false⟩).2 =
      [.recv 0 6 6, .decodeService 0, .recv 6 0 (2 ^ 64 - 6)] := by
    decide +kernel
  have hservice : headerSize ≤ 0 :=
    (h sixZeros false).1 (.decodeService 0) (by rw [hsession]; simp)
  exact absurd hservice (by decide)

end AcCore.Gov.Socket
