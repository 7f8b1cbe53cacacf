import AcCore.Lib.Run
import AcCore.Lib.Table
import Mathlib.Data.Finset.Image
import Mathlib.Data.Finset.Lattice.Basic

/-!
# The table of connections

The thread of the socket server owns the table of its clients. Other threads leave their
wishes in two sets, one with clients to add and one with clients to remove, and the
thread looks after both of them between two calls of `select`: it closes the clients
that are to be removed, adds those that wait, deletes the ones that have been closed
longest, and takes the clients without a socket out of the table. The operating system
may give the descriptor of a closed client to the next connection, at any time.
-/

namespace AcCore.Gov.Socket

open Lib

/-- Where the thread of the server is. -/
inductive Phase where
  /-- In `select`. -/
  | select
  /-- After it, with the sockets that have input. -/
  | reads
  /-- In the loop of `shrink`. -/
  | shrink
  /-- In the loop of `grow`. -/
  | grow
  /-- In the last loop of `update`. -/
  | sweep
  deriving DecidableEq

/-- The thread is not in `update`. -/
def Phase.Serving (phase : Phase) : Prop := phase = .select ∨ phase = .reads

/-- The loop serves in two of its phases. -/
instance (phase : Phase) : Decidable phase.Serving := inferInstanceAs (Decidable (_ ∨ _))

/-- `clients_t` and the members of its clients, which have numbers here. -/
structure Connections where
  /-- The number of clients that have been created. -/
  next : ℕ
  /-- The descriptors; 0 is none. -/
  sock : ℕ → ℕ
  /-- The clients with a `parent`. -/
  parent : Finset ℕ
  busy : Finset ℕ
  /-- The clients with a worker of the pool. -/
  workers : Finset ℕ
  /-- The table itself. -/
  clients : Table ℕ ℕ
  wadd : Finset ℕ
  wremove : Finset ℕ
  attic : Finset ℕ
  deleted : Multiset ℕ
  phase : Phase
  /-- What `update` returned. -/
  sl : Finset ℕ
  /-- The copy of `wremove` in `shrink`. -/
  copy : Finset ℕ
  /-- The copy of `wadd` in `grow`. -/
  t : Finset ℕ
  /-- An assertion has failed. -/
  aborted : Bool

/-- What the threads do. -/
inductive ConnectionEvent where
  /-- The peer daemon connects a client. -/
  | connect (fd : ℕ)
  /-- The peer daemon attaches it. -/
  | attach (c : ℕ)
  /-- A thread disconnects a client. -/
  | detach (c : ℕ)
  /-- A worker is done with a client. -/
  | finish (c : ℕ)
  /-- `select` returns, maybe with a connection to accept. -/
  | select (accepted : Option ℕ)
  /-- A socket of `sl` is looked at; it may have input, and the pool an idle worker. -/
  | read (fd : ℕ) (isSet idle : Bool)
  /-- `shrink` begins. -/
  | take
  /-- The loop of `shrink`. -/
  | close (c : ℕ)
  /-- `grow` begins. -/
  | collect
  /-- The loop of `grow`. -/
  | emplace (c : ℕ)
  /-- `purge`. -/
  | purge
  /-- The last loop of `update`. -/
  | sweep

/-- The events of the thread of the server. -/
def ConnectionEvent.OfServer : ConnectionEvent → Prop
  | .connect _ | .attach _ | .detach _ | .finish _ => False
  | .select _ | .read .. | .take | .close _ | .collect | .emplace _ | .purge | .sweep => True

namespace Connections

/-- The thread of the server, before its first `update`. -/
def init : Connections where
  next := 0
  sock := fun _ => 0
  parent := ∅
  busy := ∅
  workers := ∅
  clients := ∅
  wadd := ∅
  wremove := ∅
  attic := ∅
  deleted := 0
  phase := .reads
  sl := ∅
  copy := ∅
  t := ∅
  aborted := false

/-- No client has the descriptor open, so that the operating system may hand it out. -/
def Closed (s : Connections) (fd : ℕ) : Prop := fd ≠ 0 ∧ ∀ c < s.next, s.sock c ≠ fd

/-- Whether a descriptor is closed is decided by the table and the sockets. -/
instance (s : Connections) (fd : ℕ) : Decidable (s.Closed fd) := inferInstanceAs (Decidable (_ ∧ _))

/-- A client is created and gets a descriptor. -/
def create (s : Connections) (fd : ℕ) : Connections :=
  { s with next := s.next + 1, sock := Function.update s.sock s.next fd }

/-- `attach`. -/
def attach (s : Connections) (c : ℕ) : Connections :=
  { s with parent := insert c s.parent, wadd := insert c s.wadd }

/-- `rmlist::add`. -/
def remove (s : Connections) (c : ℕ) : Connections :=
  if s.sock c = 0 then s else { s with wremove := insert c s.wremove }

/-- `peer_t::disconnect`. -/
def disconnect (s : Connections) (c : ℕ) : Connections :=
  if c ∈ s.parent then s.remove c else { s with sock := Function.update s.sock c 0 }

/-- `on_detach`, after the client is not busy any more. -/
def onDetach (s : Connections) (c : ℕ) : Connections :=
  ({ s with parent := s.parent.erase c } : Connections).disconnect c

/-- The body of the loop of `shrink`, which looks for the descriptor that the client has
after it is closed. -/
def shrinkOne (s : Connections) (c : ℕ) : Connections :=
  let s := s.onDetach c
  if s.sock c ∈ s.clients then
    { s with clients := s.clients.erase (s.sock c), attic := insert c s.attic }
  else if c ∈ s.wadd then { s with wadd := s.wadd.erase c, attic := insert c s.attic }
  else s

/-- The body of the loop of `grow`, with its assertions. -/
def growOne (s : Connections) (c : ℕ) : Connections :=
  if s.sock c ∈ s.clients ∨ s.sock c = 0 then { s with aborted := true }
  else { s with clients := s.clients.insert (s.sock c) c, t := s.t.erase c }

/-- The clients of the table. -/
def held (s : Connections) : Finset ℕ := ((Table.toList s.clients).map Prod.snd).toFinset

/-- The entries of the table whose clients have no socket. -/
def dead (s : Connections) : List (ℕ × ℕ) :=
  (Table.toList s.clients).filter fun e => s.sock e.2 = 0

/-- The last loop of `update`. The clients without a socket are detached again, which
closes nothing. -/
def sweep (s : Connections) : Connections :=
  { s with
    sl := ((s.held.filter fun c => s.sock c ≠ 0) \ s.busy).image s.sock
    parent := s.parent \ (s.dead.map Prod.snd).toFinset
    attic := s.attic ∪ (s.dead.map Prod.snd).toFinset
    clients := Table.eraseAll (s.dead.map Prod.fst) s.clients
    phase := .select }

/-- The server looks at a socket of `sl`. -/
def readOne (s : Connections) (fd : ℕ) (isSet idle : Bool) : Connections :=
  let s := { s with sl := s.sl.erase fd }
  if isSet = false then s
  else
    match s.clients.lookup fd with
    | none => s
    | some c =>
      if c ∈ s.busy then s
      else
        let s := { s with busy := insert c s.busy }
        if idle then { s with workers := insert c s.workers } else s.disconnect c

/-- A thread may disconnect a client: it found it in the table, or it is the thread that
attached the client, which forgets it then. -/
def Known (s : Connections) (c : ℕ) : Prop :=
  c ∈ s.parent ∧
    (s.clients.lookup (s.sock c) = some c ∨ c ∉ s.wremove ∧ c ∉ s.copy)

/-- Whether a client is known is decided by the table and its parent. -/
instance (s : Connections) (c : ℕ) : Decidable (s.Known c) := inferInstanceAs (Decidable (_ ∧ _))

/-- One step of a thread; `none` if the thread is somewhere else, has to wait, or the
program has been aborted. A client that has been deleted cannot be closed. -/
def step (s : Connections) (e : ConnectionEvent) : Option Connections :=
  if s.aborted then none
  else
    match e with
    | .connect fd => if s.Closed fd then some (s.create fd) else none
    | .attach c => if s.sock c ≠ 0 ∧ c ∉ s.parent then some (s.attach c) else none
    | .detach c => if s.Known c then some (s.disconnect c) else none
    | .finish c =>
      if c ∈ s.workers then
        some { s with busy := s.busy.erase c, workers := s.workers.erase c }
      else none
    | .select accepted =>
      if s.phase = .select then
        match accepted with
        | none => some { s with phase := .reads }
        | some fd =>
          if s.Closed fd then some { (s.create fd).attach s.next with phase := .reads } else none
      else none
    | .read fd isSet idle =>
      if s.phase = .reads ∧ fd ∈ s.sl then some (s.readOne fd isSet idle) else none
    | .take =>
      if s.phase = .reads ∧ s.sl = ∅ then
        some { s with copy := s.wremove, wremove := ∅, phase := .shrink }
      else none
    | .close c =>
      if s.phase = .shrink ∧ c ∈ s.copy ∧ c ∉ s.busy ∧ c ∉ s.deleted then
        some { s.shrinkOne c with copy := s.copy.erase c }
      else none
    | .collect =>
      if s.phase = .shrink ∧ s.copy = ∅ then
        some { s with t := s.wadd, wadd := ∅, phase := .grow }
      else none
    | .emplace c => if s.phase = .grow ∧ c ∈ s.t then some (s.growOne c) else none
    | .purge =>
      if s.phase = .grow ∧ s.t = ∅ then
        some { s with
          attic := s.attic ∩ s.busy
          deleted := s.deleted + (s.attic \ s.busy).val
          phase := .sweep }
      else none
    | .sweep =>
      if s.phase = .sweep ∧ ∀ e ∈ s.dead, e.2 ∉ s.busy then some s.sweep else none

/-- The number of times that `update` comes to its end. -/
def updates (es : List ConnectionEvent) : ℕ :=
  es.countP fun e => match e with
    | .sweep => true
    | _ => false

/-- No descriptor that is still a key of the table is used again by a client that is
attached while `shrink` is at work, and there is an idle worker for what is read. -/
def Unhurried (s : Connections) : ConnectionEvent → Prop
  | .attach c => s.phase = .shrink → s.sock c ∉ s.clients
  | .read fd isSet idle => isSet = true →
      ∀ c ∈ s.clients.lookup fd, c ∉ s.busy → idle = true
  | _ => True

/-- Only attaching and reading are asked about. -/
instance Unhurried.decidable (s : Connections) : ∀ e, Decidable (s.Unhurried e)
  | .attach c => inferInstanceAs (Decidable (s.phase = .shrink → s.sock c ∉ s.clients))
  | .read fd isSet idle => inferInstanceAs (Decidable (isSet = true →
      ∀ c ∈ s.clients.lookup fd, c ∉ s.busy → idle = true))
  | .connect _ | .detach _ | .finish _ | .select _ | .take | .close _ | .collect | .emplace _
  | .purge | .sweep => isTrue trivial

/-- What is promised in a state. -/
structure Safe (s : Connections) : Prop where
  /-- No assertion has failed. -/
  running : s.aborted = false
  /-- Where datagrams are read, every entry of the table is one of a client that has the
  descriptor open. -/
  current : s.phase.Serving → ∀ fd c, s.clients.lookup fd = some c → fd ≠ 0 ∧ s.sock c = fd
  /-- No two clients have the same descriptor. -/
  unique : ∀ c d, s.sock c = s.sock d → s.sock c ≠ 0 → c = d
  /-- No client is deleted twice. -/
  once : s.deleted.Nodup
  /-- The thread of the server can go on, unless it waits for a worker. -/
  advances : (∀ c ∈ s.copy, c ∉ s.workers) → ∃ e, e.OfServer ∧ s.Unhurried e ∧ (s.step e).isSome

end Connections

end AcCore.Gov.Socket
