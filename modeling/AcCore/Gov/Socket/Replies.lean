import Mathlib.Data.List.Nodup
import AcCore.Gov.Socket.Reassembly

/-!
# Waiting for a reply

A client that has asked for something skips the datagrams that are not the reply. Each
datagram is an object on the heap that its receiver owns, so that what is skipped has
to be freed, once, and what is returned must not have been.
-/

namespace AcCore.Gov.Socket

open Lib Datagram

/-! ## Objects -/

/-- The objects that have been made with `new datagram()`, an object being known by its
number, and those that have been freed. What has arrived of a datagram that was not
completed is left out. -/
structure Heap where
  objects : List (Option Datagram)
  freed : List ℕ
  freed_lt : ∀ p ∈ freed, p < objects.length
  nodup : freed.Nodup

namespace Heap

/-- A new object has the next number. -/
def alloc (h : Heap) (d : Option Datagram) : Heap where
  objects := h.objects ++ [d]
  freed := h.freed
  freed_lt p hp := by
    rw [List.length_append]
    exact Nat.lt_add_right 1 (h.freed_lt p hp)
  nodup := h.nodup

/-- `delete`; what is not there, or not any more, cannot be freed. -/
def delete (h : Heap) (p : ℕ) : Option Heap :=
  if hp : p < h.objects.length ∧ p ∉ h.freed then
    some
      { h with
        freed := h.freed ++ [p]
        freed_lt := by
          intro q hq
          rcases List.mem_append.mp hq with hq | hq
          · exact h.freed_lt q hq
          · obtain rfl := List.mem_singleton.mp hq
            exact hp.1
        nodup := by
          rw [← List.concat_eq_append]
          exact List.Nodup.concat hp.2 h.nodup }
  else none

/-- What a pointer points to, as long as it has not been freed. -/
def read (h : Heap) (p : ℕ) : Option Datagram :=
  if p ∈ h.freed then none else (h.objects[p]?).join

/-- An allocation adds an object. -/
@[simp] theorem objects_alloc (h : Heap) (d : Option Datagram) :
    (h.alloc d).objects = h.objects ++ [d] := rfl

/-- An allocation frees nothing. -/
@[simp] theorem freed_alloc (h : Heap) (d : Option Datagram) :
    (h.alloc d).freed = h.freed := rfl

/-- The next object has not been freed. -/
theorem length_not_mem_freed (h : Heap) : h.objects.length ∉ h.freed :=
  fun hmem => lt_irrefl _ (h.freed_lt _ hmem)

/-- A new object can be read. -/
theorem read_alloc (h : Heap) (d : Option Datagram) : (h.alloc d).read h.objects.length = d := by
  rw [read, freed_alloc, if_neg h.length_not_mem_freed, objects_alloc,
    List.getElem?_concat_length, Option.join_some]

/-- An object that has not been freed can be deleted. -/
theorem delete_of_lt {h : Heap} {p : ℕ} (hp : p < h.objects.length) (hfreed : p ∉ h.freed) :
    ∃ h', h.delete p = some h' ∧ h'.objects = h.objects ∧ h'.freed = h.freed ++ [p] := by
  rw [delete, dif_pos ⟨hp, hfreed⟩]
  exact ⟨_, rfl, rfl, rfl⟩

/-- An object that is new can be freed. -/
theorem delete_alloc (h : Heap) (d : Option Datagram) :
    ∃ h', (h.alloc d).delete h.objects.length = some h' ∧
      h'.objects = h.objects ++ [d] ∧ h'.freed = h.freed ++ [h.objects.length] :=
  delete_of_lt (by simp) h.length_not_mem_freed

end Heap

/-! ## The wait -/

/-- `gov_socket_error`. -/
def govSocketError : UInt16 := 400

/-- What the functions return: an error, or none, and a pointer, or none. -/
structure Answer where
  error : String
  ptr : Option ℕ
  deriving DecidableEq, Repr

/-- A client: its connection, and the heap. -/
structure Client where
  conn : Conn
  heap : Heap

/-- `client::recv`; `none` when it has written beyond a buffer. What is not completed
is freed. -/
def Client.recv (c : Client) : Option (Answer × Client) :=
  let r := clientRecv c.conn
  let p := c.heap.objects.length
  match r.reply with
  | .datagram d => some (⟨"", some p⟩, ⟨r.conn, c.heap.alloc (some d)⟩)
  | .error text => ((c.heap.alloc none).delete p).map fun heap => (⟨text, none⟩, ⟨r.conn, heap⟩)
  | .undefined => none

/-- The loop of `client::recv(expected_service)`, in which `outer` is the variable of
the function, and the one of the loop has the same name. -/
def Client.waitLoop (expected : UInt16) (outer : Answer) :
    ℕ → Option ℕ → Client → Option (Answer × Client)
  | 0, _, _ => none
  | fuel + 1, ptr, c => do
    let p ← ptr
    let d ← c.heap.read p
    let service ← d.service
    if service = govSocketError then return (outer, c)
    else if service = expected then return (⟨"", some p⟩, c)
    else
      let heap ← c.heap.delete p
      let (r, c) ← Client.recv { c with heap }
      if r.error ≠ "" then return (r, c)
      else Client.waitLoop expected outer fuel r.ptr c

/-- `client::recv(expected_service)`. Every datagram takes something, so their number
is bounded by what is still to arrive. -/
def Client.recvExpected (expected : UInt16) (c : Client) : Option (Answer × Client) := do
  let (r, c') ← c.recv
  if r.error ≠ "" then return (r, c')
  else Client.waitLoop expected r (c.conn.arriving.all.length + 1) r.ptr c'

/-! ## What is received -/

/-- An error in the header has a text. -/
theorem headerError_ne (again : Bool) : headerError again ≠ "" := by
  cases again <;> decide

/-- The client holds a datagram that it owns, the object with the last number, and
this is still to arrive. -/
structure Holding (p : ℕ) (d : Datagram) (rest : List UInt8) (c : Client) : Prop where
  isOpen : c.conn.isOpen = true
  arriving : c.conn.arriving.all = rest
  length : c.heap.objects.length = p + 1
  read : c.heap.read p = some d

/-- The datagram that is held has not been freed. -/
theorem Holding.not_mem_freed {p : ℕ} {d : Datagram} {rest : List UInt8} {c : Client}
    (h : Holding p d rest c) : p ∉ c.heap.freed := by
  intro hmem
  have hread := h.read
  rw [Heap.read, if_pos hmem] at hread
  cases hread

/-- A datagram is received into a new object. -/
theorem Client.recv_of_complete {c : Client} (hopen : c.conn.isOpen = true) {d : Datagram}
    (hd : d.Complete) {rest : List UInt8} (hall : c.conn.arriving.all = d.bytes ++ rest) :
    ∃ c', c.recv = some (⟨"", some c.heap.objects.length⟩, c') ∧
      Holding c.heap.objects.length d rest c' ∧ c'.conn.again = c.conn.again ∧
      c'.heap.freed = c.heap.freed := by
  obtain ⟨hreply, hopen', hrest⟩ := clientRecv_of_complete hd hopen hall
  refine ⟨⟨(clientRecv c.conn).conn, c.heap.alloc (some d)⟩, ?_,
    ⟨hopen', hrest, by simp, c.heap.read_alloc _⟩, (frames_clientRecv hopen).again, rfl⟩
  rw [recv, hreply]

/-- When nothing arrives any more, the new object is freed. -/
theorem Client.recv_of_nil {c : Client} (hopen : c.conn.isOpen = true)
    (hall : c.conn.arriving.all = []) :
    ∃ c', c.recv = some (⟨headerError c.conn.again, none⟩, c') ∧
      c'.heap.freed = c.heap.freed ++ [c.heap.objects.length] := by
  have hframe := (frames_clientRecv hopen).frame
  rw [hall, frame, if_pos (by decide)] at hframe
  obtain ⟨hreply, -⟩ := Prod.mk.inj hframe
  obtain ⟨heap, hdelete, -, hfreed⟩ := c.heap.delete_alloc none
  refine ⟨⟨(clientRecv c.conn).conn, heap⟩, ?_, hfreed⟩
  rw [recv, ← hreply]
  dsimp only
  rw [hdelete, Option.map_some]

/-- The datagram ends the wait. -/
def Ends (expected : UInt16) (d : Datagram) : Prop :=
  d.service = some govSocketError ∨ d.service = some expected

section Wait

variable {expected : UInt16} (outer : Answer) (fuel : ℕ) {p : ℕ} {d : Datagram} {c : Client}

/-- The datagram of the loop ends the wait. An error is answered with what the outer
variable holds. -/
theorem waitLoop_of_ends {rest : List UInt8} (hc : Holding p d rest c) (hd : d.Complete)
    (hends : Ends expected d) :
    Client.waitLoop expected outer (fuel + 1) (some p) c =
      some (if d.service = some govSocketError then outer else ⟨"", some p⟩, c) := by
  rw [Client.waitLoop]
  dsimp only [Option.bind_eq_bind, Option.bind_some]
  rw [hc.read, Option.bind_some, hd.service, Option.bind_some]
  by_cases herror : decodeService d.bytes = govSocketError
  · rw [if_pos herror, if_pos (congrArg some herror)]
    rfl
  · have hexpected : decodeService d.bytes = expected := by
      rcases hends with h | h
      · exact absurd (Option.some.inj (hd.service.symm.trans h)) herror
      · exact Option.some.inj (hd.service.symm.trans h)
    rw [if_neg herror, if_neg (fun h => herror (Option.some.inj h)), if_pos hexpected]
    rfl

/-- A datagram that does not end the wait is freed, and the next one is received. -/
theorem waitLoop_of_not_ends {rest : List UInt8} (hc : Holding p d rest c) (hd : d.Complete)
    (hends : ¬ Ends expected d) :
    ∃ heap, heap.objects.length = p + 1 ∧ heap.freed = c.heap.freed ++ [p] ∧
      Client.waitLoop expected outer (fuel + 1) (some p) c =
        (Client.recv { c with heap }).bind fun r =>
          if r.1.error ≠ "" then some r
          else Client.waitLoop expected outer fuel r.1.ptr r.2 := by
  have hlt : p < c.heap.objects.length := by
    rw [hc.length]
    exact Nat.lt_succ_self p
  obtain ⟨heap, hdelete, hobjects, hfreed⟩ := Heap.delete_of_lt hlt hc.not_mem_freed
  refine ⟨heap, by rw [hobjects, hc.length], hfreed, ?_⟩
  have herror : decodeService d.bytes ≠ govSocketError :=
    fun h => hends (Or.inl (hd.service.trans (congrArg some h)))
  have hexpected : decodeService d.bytes ≠ expected :=
    fun h => hends (Or.inr (hd.service.trans (congrArg some h)))
  rw [Client.waitLoop]
  dsimp only [Option.bind_eq_bind, Option.bind_some]
  rw [hc.read, Option.bind_some, hd.service, Option.bind_some, if_neg herror, if_neg hexpected,
    hdelete, Option.bind_some]
  rfl

/-- One datagram is skipped. -/
theorem waitLoop_skip {next : Datagram} {rest : List UInt8}
    (hc : Holding p d (next.bytes ++ rest) c) (hd : d.Complete) (hnext : next.Complete)
    (hends : ¬ Ends expected d) :
    ∃ c', Client.waitLoop expected outer (fuel + 1) (some p) c =
        Client.waitLoop expected outer fuel (some (p + 1)) c' ∧
      Holding (p + 1) next rest c' ∧ c'.conn.again = c.conn.again ∧
      c'.heap.freed = c.heap.freed ++ [p] := by
  obtain ⟨heap, hlength, hfreed, hloop⟩ :=
    waitLoop_of_not_ends outer fuel hc hd hends
  obtain ⟨c', hrecv, hholding, hagain, hfreed'⟩ :=
    Client.recv_of_complete (c := { c with heap }) hc.isOpen hnext hc.arriving
  dsimp only at hrecv hholding hagain hfreed'
  rw [hlength] at hrecv hholding
  refine ⟨c', ?_, hholding, hagain, hfreed'.trans hfreed⟩
  rw [hloop, hrecv, Option.bind_some, if_neg (by simp)]

/-- The connection ends after a datagram that is skipped. -/
theorem waitLoop_of_nil (hc : Holding p d [] c) (hd : d.Complete) (hends : ¬ Ends expected d) :
    ∃ c', Client.waitLoop expected outer (fuel + 1) (some p) c =
        some (⟨headerError c.conn.again, none⟩, c') ∧
      c'.heap.freed = c.heap.freed ++ List.range' p 2 := by
  obtain ⟨heap, hlength, hfreed, hloop⟩ :=
    waitLoop_of_not_ends outer fuel hc hd hends
  obtain ⟨c', hrecv, hfreed'⟩ := Client.recv_of_nil (c := { c with heap }) hc.isOpen hc.arriving
  dsimp only at hrecv hfreed'
  rw [hlength, hfreed, List.append_assoc] at hfreed'
  refine ⟨c', ?_, hfreed'⟩
  rw [hloop, hrecv, Option.bind_some, if_pos (headerError_ne _)]

end Wait

/-! ## A whole wait -/

/-- What is expected of a wait during which these datagrams arrive: the first one that
ends it is returned, and it has not been freed, and when there is none the error of
the connection is. What comes before is freed, each object once, in the order in which
it has arrived. -/
def WaitsFor (expected : UInt16) (ds : List Datagram) (c : Client) : Prop :=
  let n := c.heap.objects.length
  (∀ skipped d rest, ds = skipped ++ d :: rest → (∀ e ∈ skipped, ¬ Ends expected e) →
    Ends expected d →
    ∃ c', c.recvExpected expected = some (⟨"", some (n + skipped.length)⟩, c') ∧
      c'.heap.read (n + skipped.length) = some d ∧
      c'.heap.freed = c.heap.freed ++ List.range' n skipped.length) ∧
  ((∀ d ∈ ds, ¬ Ends expected d) →
    ∃ c', c.recvExpected expected = some (⟨headerError c.conn.again, none⟩, c') ∧
      c'.heap.freed = c.heap.freed ++ List.range' n (ds.length + 1))

section Run

variable {expected : UInt16} (outer : Answer)

/-- The datagrams before the one that ends the wait are skipped. -/
theorem waitLoop_of_first (fuel : ℕ) {skipped rest : List Datagram} {d : Datagram} {p : ℕ}
    {c : Client} {x : Datagram} {xs : List Datagram} (hsplit : skipped ++ d :: rest = x :: xs)
    (hcomplete : ∀ e ∈ x :: xs, e.Complete) (hskipped : ∀ e ∈ skipped, ¬ Ends expected e)
    (hends : Ends expected d) (hc : Holding p x (xs.flatMap bytes) c)
    (hfuel : skipped.length < fuel) :
    ∃ c', Client.waitLoop expected outer fuel (some p) c =
        some (if d.service = some govSocketError then outer
          else ⟨"", some (p + skipped.length)⟩, c') ∧
      c'.heap.read (p + skipped.length) = some d ∧
      c'.heap.freed = c.heap.freed ++ List.range' p skipped.length := by
  obtain ⟨fuel, rfl⟩ : ∃ k, fuel = k + 1 := ⟨fuel - 1, by omega⟩
  induction skipped generalizing x xs fuel p c with
  | nil =>
    obtain ⟨rfl, rfl⟩ := List.cons.inj hsplit
    refine ⟨c, waitLoop_of_ends outer fuel hc (hcomplete d List.mem_cons_self) hends, hc.read, ?_⟩
    rw [List.length_nil, List.range'_zero, List.append_nil]
  | cons e skipped ih =>
    obtain ⟨rfl, hxs⟩ := List.cons.inj hsplit
    obtain ⟨y, ys, rfl⟩ : ∃ y ys, xs = y :: ys := by
      rw [← hxs]
      cases skipped with
      | nil => exact ⟨d, rest, rfl⟩
      | cons z zs => exact ⟨z, zs ++ d :: rest, rfl⟩
    rw [List.flatMap_cons] at hc
    rw [List.length_cons] at hfuel ⊢
    obtain ⟨c', hloop, hholding, -, hfreed⟩ := waitLoop_skip outer fuel hc
      (hcomplete e List.mem_cons_self)
      (hcomplete y (by simp)) (hskipped e List.mem_cons_self)
    obtain ⟨fuel, rfl⟩ : ∃ k, fuel = k + 1 := ⟨fuel - 1, by omega⟩
    obtain ⟨c'', hloop', hread, hfreed'⟩ := ih hxs
      (fun a ha => hcomplete a (List.mem_cons_of_mem e ha))
      (fun a ha => hskipped a (List.mem_cons_of_mem e ha)) hholding fuel (by omega)
    have hadd : p + (skipped.length + 1) = p + 1 + skipped.length := by omega
    refine ⟨c'', ?_, hadd ▸ hread, ?_⟩
    · rw [hloop, hloop', hadd]
    · rw [hfreed', hfreed, List.append_assoc, List.range'_succ]
      rfl

/-- All datagrams are skipped, and the connection ends. -/
theorem waitLoop_of_none (fuel : ℕ) {x : Datagram} {xs : List Datagram} {p : ℕ} {c : Client}
    (hcomplete : ∀ e ∈ x :: xs, e.Complete) (hskipped : ∀ e ∈ x :: xs, ¬ Ends expected e)
    (hc : Holding p x (xs.flatMap bytes) c) (hfuel : xs.length < fuel) :
    ∃ c', Client.waitLoop expected outer fuel (some p) c =
        some (⟨headerError c.conn.again, none⟩, c') ∧
      c'.heap.freed = c.heap.freed ++ List.range' p (xs.length + 2) := by
  obtain ⟨fuel, rfl⟩ : ∃ k, fuel = k + 1 := ⟨fuel - 1, by omega⟩
  have hx := hcomplete x List.mem_cons_self
  have hends := hskipped x List.mem_cons_self
  induction xs generalizing x fuel p c with
  | nil => exact waitLoop_of_nil outer fuel hc hx hends
  | cons y ys ih =>
    rw [List.flatMap_cons] at hc
    rw [List.length_cons] at hfuel ⊢
    have hy := hcomplete y (by simp)
    obtain ⟨c', hloop, hholding, hagain, hfreed⟩ :=
      waitLoop_skip outer fuel hc hx hy hends
    obtain ⟨fuel, rfl⟩ : ∃ k, fuel = k + 1 := ⟨fuel - 1, by omega⟩
    obtain ⟨c'', hloop', hfreed'⟩ := ih (fun a ha => hcomplete a (List.mem_cons_of_mem x ha))
      (fun a ha => hskipped a (List.mem_cons_of_mem x ha)) hholding fuel (by omega) hy
      (hskipped y (by simp))
    refine ⟨c'', ?_, ?_⟩
    · rw [hloop, hloop', hagain]
    · rw [hfreed', hfreed, List.append_assoc, List.range'_succ]
      rfl

end Run

/-- Every datagram takes something of the stream. -/
theorem length_le_flatMap {ds : List Datagram} (hds : ∀ d ∈ ds, d.Complete) :
    ds.length ≤ (ds.flatMap bytes).length := by
  induction ds with
  | nil => exact Nat.zero_le _
  | cons d ds ih =>
    have hd := (hds d List.mem_cons_self).min
    have hle := ih fun e he => hds e (List.mem_cons_of_mem d he)
    unfold headerSize at hd
    rw [List.flatMap_cons, List.length_append, List.length_cons]
    omega

/-- The datagram that ends the wait, and which object is returned for it. -/
theorem recvExpected_of_first {expected : UInt16} {skipped rest : List Datagram} {d : Datagram}
    {c : Client} (hcomplete : ∀ e ∈ skipped ++ d :: rest, e.Complete)
    (hopen : c.conn.isOpen = true)
    (hall : c.conn.arriving.all = (skipped ++ d :: rest).flatMap bytes)
    (hskipped : ∀ e ∈ skipped, ¬ Ends expected e) (hends : Ends expected d) :
    ∃ c', c.recvExpected expected =
        some (⟨"", some (if d.service = some govSocketError then c.heap.objects.length
          else c.heap.objects.length + skipped.length)⟩, c') ∧
      c'.heap.read (c.heap.objects.length + skipped.length) = some d ∧
      c'.heap.freed = c.heap.freed ++ List.range' c.heap.objects.length skipped.length := by
  have hlength := length_le_flatMap hcomplete
  obtain ⟨x, xs, hsplit⟩ : ∃ x xs, skipped ++ d :: rest = x :: xs := by
    cases skipped with
    | nil => exact ⟨d, rest, rfl⟩
    | cons z zs => exact ⟨z, zs ++ d :: rest, rfl⟩
  rw [← hall, List.length_append] at hlength
  rw [hsplit, List.flatMap_cons] at hall
  rw [hsplit] at hcomplete
  obtain ⟨c', hrecv, hholding, -, hfreed⟩ :=
    Client.recv_of_complete hopen (hcomplete x List.mem_cons_self) hall
  obtain ⟨c'', hloop, hread, hfreed'⟩ := waitLoop_of_first
    ⟨"", some c.heap.objects.length⟩ (c.conn.arriving.all.length + 1) hsplit hcomplete
    hskipped hends hholding (by omega)
  refine ⟨c'', ?_, hread, hfreed ▸ hfreed'⟩
  rw [Client.recvExpected, hrecv]
  dsimp only [Option.bind_eq_bind, Option.bind_some]
  rw [if_neg (by simp), hloop]
  split_ifs <;> rfl

/-- No datagram ends the wait. -/
theorem recvExpected_of_none {expected : UInt16} {ds : List Datagram} {c : Client}
    (hcomplete : ∀ e ∈ ds, e.Complete) (hopen : c.conn.isOpen = true)
    (hall : c.conn.arriving.all = ds.flatMap bytes) (hskipped : ∀ e ∈ ds, ¬ Ends expected e) :
    ∃ c', c.recvExpected expected = some (⟨headerError c.conn.again, none⟩, c') ∧
      c'.heap.freed = c.heap.freed ++ List.range' c.heap.objects.length (ds.length + 1) := by
  cases ds with
  | nil =>
    obtain ⟨c', hrecv, hfreed⟩ := Client.recv_of_nil hopen hall
    refine ⟨c', ?_, hfreed⟩
    rw [Client.recvExpected, hrecv]
    dsimp only [Option.bind_eq_bind, Option.bind_some]
    rw [if_pos (headerError_ne _)]
    rfl
  | cons x xs =>
    have hlength := length_le_flatMap hcomplete
    rw [← hall, List.length_cons] at hlength
    rw [List.flatMap_cons] at hall
    obtain ⟨c', hrecv, hholding, hagain, hfreed⟩ :=
      Client.recv_of_complete hopen (hcomplete x List.mem_cons_self) hall
    obtain ⟨c'', hloop, hfreed'⟩ := waitLoop_of_none
      ⟨"", some c.heap.objects.length⟩ (c.conn.arriving.all.length + 1) hcomplete hskipped hholding
      (by omega)
    refine ⟨c'', ?_, hfreed ▸ hfreed'⟩
    rw [Client.recvExpected, hrecv]
    dsimp only [Option.bind_eq_bind, Option.bind_some]
    rw [if_neg (by simp), hloop, hagain]

/-- The wait ends with an error that is not the first datagram to arrive. -/
def ErrorAfterOthers (expected : UInt16) (ds : List Datagram) : Prop :=
  ∃ skipped d rest, ds = skipped ++ d :: rest ∧ skipped ≠ [] ∧
    (∀ e ∈ skipped, ¬ Ends expected e) ∧ d.service = some govSocketError

/-- The error that ends a wait after others is not what is returned: that is the first
datagram, which has been freed. -/
theorem recvExpected_of_errorAfterOthers {expected : UInt16} {ds : List Datagram} {c : Client}
    (hcomplete : ∀ d ∈ ds, d.Complete) (hopen : c.conn.isOpen = true)
    (hall : c.conn.arriving.all = ds.flatMap bytes) (herror : ErrorAfterOthers expected ds) :
    ∃ p c', c.recvExpected expected = some (⟨"", some p⟩, c') ∧ c'.heap.read p = none := by
  obtain ⟨skipped, d, rest, rfl, hnil, hskipped, hservice⟩ := herror
  obtain ⟨c', hrecv, -, hfreed⟩ :=
    recvExpected_of_first hcomplete hopen hall hskipped (Or.inl hservice)
  rw [if_pos hservice] at hrecv
  refine ⟨c.heap.objects.length, c', hrecv, ?_⟩
  have hpos := List.length_pos_iff.mpr hnil
  have hmem : c.heap.objects.length ∈ c'.heap.freed := by
    rw [hfreed, List.mem_append, List.mem_range'_1]
    omega
  rw [Heap.read, if_pos hmem]

/-- **The wait for a reply returns what it should**, however the datagrams arrive, if
and only if it does not end with an error after others. -/
theorem waitsFor_iff {expected : UInt16} {ds : List Datagram} {c : Client}
    (hcomplete : ∀ d ∈ ds, d.Complete) (hopen : c.conn.isOpen = true)
    (hall : c.conn.arriving.all = ds.flatMap bytes) :
    WaitsFor expected ds c ↔ ¬ ErrorAfterOthers expected ds := by
  constructor
  · rintro ⟨hfirst, -⟩ ⟨skipped, d, rest, rfl, hnil, hskipped, herror⟩
    obtain ⟨c', hrecv, -⟩ := hfirst skipped d rest rfl hskipped (Or.inl herror)
    obtain ⟨c'', hrecv', -⟩ :=
      recvExpected_of_first hcomplete hopen hall hskipped (Or.inl herror)
    have hpos := List.length_pos_iff.mpr hnil
    rw [hrecv', if_pos herror] at hrecv
    simp only [Option.some.injEq, Prod.mk.injEq, Answer.mk.injEq] at hrecv
    omega
  · intro hnot
    refine ⟨?_, recvExpected_of_none hcomplete hopen hall⟩
    rintro skipped d rest rfl hskipped hends
    obtain ⟨c', hrecv, hread, hfreed⟩ :=
      recvExpected_of_first hcomplete hopen hall hskipped hends
    refine ⟨c', ?_, hread, hfreed⟩
    rw [hrecv]
    by_cases herror : d.service = some govSocketError
    · have hnil : skipped = [] := by
        by_contra hne
        exact hnot ⟨skipped, d, rest, rfl, hne, hskipped, herror⟩
      rw [if_pos herror, hnil, List.length_nil, Nat.add_zero]
    · rw [if_neg herror]

/-- A client that has asked for something, and what arrives, a datagram at a time. -/
def afterRequest (ds : List Datagram) (hds : ∀ d ∈ ds, d.bytes ≠ []) : Client where
  conn :=
    { isOpen := true
      arriving := ⟨ds.map Datagram.bytes, by simpa using hds⟩
      again := false }
  heap := ⟨[], [], by simp, List.nodup_nil⟩

/-- Something else, and then the reply. -/
def garbageAndReply : Client := afterRequest [.ofService 8, .ofService 2000] (by decide)

/-- The reply is returned. -/
theorem waitsFor_garbageAndReply :
    WaitsFor 2000 [.ofService 8, .ofService 2000] garbageAndReply := by
  refine (waitsFor_iff ?_ rfl (by decide)).mpr ?_
  · intro d hd
    rcases List.mem_cons.mp hd with rfl | hd
    · exact complete_ofPayload _ (by decide)
    · obtain rfl := List.mem_singleton.mp hd
      exact complete_ofPayload _ (by decide)
  · rintro ⟨skipped, d, rest, hds, -, -, herror⟩
    have hmem : d ∈ [Datagram.ofService 8, .ofService 2000] := by
      rw [hds]
      exact List.mem_append_right _ List.mem_cons_self
    rcases List.mem_cons.mp hmem with rfl | hmem
    · exact absurd herror (by decide)
    · obtain rfl := List.mem_singleton.mp hmem
      exact absurd herror (by decide)

/-- Something else, and then an error. -/
def garbageAndError : Client := afterRequest [.ofService 8, .ofService govSocketError] (by decide)

/-- The first datagram is returned, which has been freed. -/
theorem garbageAndError_not_waitsFor :
    ¬ ∀ (expected : UInt16) (ds : List Datagram) (c : Client), (∀ d ∈ ds, d.Complete) →
      c.conn.isOpen = true → c.conn.arriving.all = ds.flatMap bytes → WaitsFor expected ds c := by
  intro h
  have hcomplete : ∀ d ∈ [Datagram.ofService 8, .ofService govSocketError], d.Complete := by
    intro d hd
    rcases List.mem_cons.mp hd with rfl | hd
    · exact complete_ofPayload _ (by decide)
    · obtain rfl := List.mem_singleton.mp hd
      exact complete_ofPayload _ (by decide)
  obtain ⟨hfirst, -⟩ := h 2000 _ garbageAndError hcomplete rfl (by decide)
  have hskipped : ∀ e ∈ [Datagram.ofService 8], ¬ Ends 2000 e := by
    unfold Ends
    decide
  obtain ⟨c', hrecv, -⟩ :=
    hfirst [.ofService 8] (.ofService govSocketError) [] rfl hskipped (Or.inl rfl)
  have hanswer : (garbageAndError.recvExpected 2000).map Prod.fst = some ⟨"", some 0⟩ := by
    decide +kernel
  rw [hrecv] at hanswer
  simp [garbageAndError, afterRequest] at hanswer

end AcCore.Gov.Socket
