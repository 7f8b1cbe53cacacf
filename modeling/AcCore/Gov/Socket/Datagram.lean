import AcCore.Lib.Bytes
import AcCore.Lib.Chunks

/-!
# Datagrams and the connection they come from

A datagram is its size in four bytes, its service in two, and the payload. It is
received in two phases, the header and then as much as the header announces, and
each call takes what has arrived and goes on where the last one stopped.

Assertions are left out, as they are in a release. The accesses to the buffer are
recorded, so that what the assertions and the size of the buffer ask of them can be
stated.
-/

namespace AcCore.Gov.Socket

open Lib

/-- `datagram::h`: the bytes of the header. -/
def headerSize : ℕ := 6

/-- `datagram::maxsize`. -/
def maxsize : ℕ := 100000

/-- `datagram`: the bytes of the vector, the service, which is not initialised at
first, and the position up to which the bytes are there. -/
structure Datagram where
  bytes : List UInt8
  service : Option UInt16
  dend : ℕ
  deriving DecidableEq, Repr

namespace Datagram

/-- `datagram()`. -/
def fresh : Datagram := ⟨[], none, 0⟩

/-- What the constructors have in common: the size, as `encode_size` writes it, the
service, as `encode_service` does, and the payload. -/
def ofPayload (service : UInt16) (payload : List UInt8) : Datagram :=
  let size := headerSize + payload.length
  ⟨leBytes 4 size ++ leBytes 2 service.toNat ++ payload, some service, size⟩

/-- `datagram(service)`. -/
def ofService (service : UInt16) : Datagram := ofPayload service []

/-- `datagram(service,uint16)`. -/
def ofUInt16 (service payload : UInt16) : Datagram := ofPayload service (leBytes 2 payload.toNat)

/-- `datagram(service,string)`; `none` when its assertion fails. -/
def ofString (service : UInt16) (payload : List UInt8) : Option Datagram :=
  if headerSize + payload.length < maxsize then some (ofPayload service payload) else none

/-- `decode_size`. -/
def decodeSize (bytes : List UInt8) : ℕ := ofLeBytes (bytes.take 4)

/-- `decode_service`. -/
def decodeService (bytes : List UInt8) : UInt16 := UInt16.ofNat (ofLeBytes ((bytes.drop 4).take 2))

/-- `completed`. -/
def completed (d : Datagram) : Bool := d.dend = d.bytes.length ∧ d.bytes ≠ []

/-- `parse_string`: the payload up to its first zero. -/
def parseString (d : Datagram) : List UInt8 := (d.bytes.drop headerSize).takeWhile (· ≠ 0)

/-- `vector::resize`. -/
def resize (d : Datagram) (size : ℕ) : Datagram :=
  { d with bytes := d.bytes.take size ++ List.replicate (size - d.bytes.length) 0 }

/-- What has been received is written at `dend`. -/
def write (d : Datagram) (bs : List UInt8) : Datagram :=
  { d with
    bytes := d.bytes.take d.dend ++ bs ++ d.bytes.drop (d.dend + bs.length)
    dend := d.dend + bs.length }

end Datagram

/-! ## Receiving -/

/-- A connection: whether it is open, what is still to arrive, and whether `errno`
tells a receiver to try again when nothing arrives any more. -/
structure Conn where
  isOpen : Bool
  arriving : Chunks UInt8
  again : Bool

/-- `::recv`. -/
def Conn.recv (n : ℕ) (conn : Conn) : List UInt8 × Conn :=
  ((conn.arriving.recv n).1, { conn with arriving := (conn.arriving.recv n).2 })

/-- `disconnect`. -/
def Conn.disconnect (conn : Conn) : Conn := { conn with isOpen := false }

/-- An access to the buffer of a datagram: a call of `::recv` that writes up to
`length` bytes at `offset` of a buffer with `size` bytes, or `decode_service`. -/
inductive Access where
  | recv (offset size length : ℕ)
  | decodeService (size : ℕ)
  deriving DecidableEq, Repr

/-- The access stays inside the buffer: `::recv` fills the buffer, or the header, and
the service is there to be read. -/
def Access.InBounds : Access → Prop
  | recv offset size length =>
    offset ≤ size ∧ (length = size - offset ∨ length = headerSize - offset) ∧
      offset + length ≤ size
  | decodeService size => headerSize ≤ size

/-- The subtraction of `size_t`. -/
def subSize (a b : ℕ) : ℕ := (a + 2 ^ 64 - b) % 2 ^ 64

/-- What `recvfrom` returns: nothing, an error, or it has written beyond the buffer. -/
inductive Outcome where
  | none
  | error (text : String)
  | undefined
  deriving DecidableEq, Repr

/-- The state after `recvfrom`, with the accesses to the buffer. -/
structure Received where
  outcome : Outcome
  datagram : Datagram
  conn : Conn
  accesses : List Access

/-- The text for a header that does not arrive. -/
def headerError (again : Bool) : String :=
  if again then "Timeout waiting for data from peer." else "Connection ended by peer."

/-- The text for a body that does not arrive. -/
def bodyError (again : Bool) : String :=
  if again then "Error.3 Timeout waiting for data from peer."
  else "Error. Incoming datagram is too big."

/-- The second half of `recvfrom`, for the body. -/
def recvBody (d : Datagram) (conn : Conn) : Received :=
  let length := subSize d.bytes.length d.dend
  let accesses := [.recv d.dend d.bytes.length length]
  if d.bytes.length < d.dend then ⟨.undefined, d, conn, accesses⟩
  else
    let (bs, conn) := conn.recv length
    if bs = [] then ⟨.error (bodyError conn.again), d, conn, accesses⟩
    else ⟨.none, d.write bs, conn, accesses⟩

/-- `datagram::recvfrom`. When the buffer is made smaller the service is still read
from the memory behind it. -/
def recvfrom (d : Datagram) (conn : Conn) : Received :=
  if conn.isOpen = false then ⟨.error "Error. Connection is closed.", d, conn, []⟩
  else if d.dend < headerSize then
    let d := if d.bytes.length < headerSize then d.resize headerSize else d
    let length := headerSize - d.dend
    let accesses := [.recv d.dend d.bytes.length length]
    let (bs, conn) := conn.recv length
    if bs = [] then ⟨.error (headerError conn.again), d, conn, accesses⟩
    else
      let d := d.write bs
      if d.dend < headerSize then ⟨.none, d, conn, accesses⟩
      else
        let sz := Datagram.decodeSize d.bytes
        if sz > maxsize then
          ⟨.error "Error. Incoming datagram exceeded size limit.", d, conn, accesses⟩
        else
          let sized := { d.resize sz with service := some (Datagram.decodeService d.bytes) }
          let accesses := accesses ++ [.decodeService sz]
          if d.dend = sz then ⟨.none, sized, conn, accesses⟩
          else
            let r := recvBody sized conn
            { r with accesses := accesses ++ r.accesses }
  else recvBody d conn

/-! ## A whole datagram -/

/-- What `client::recv` returns: a datagram, an error, or it has written beyond a
buffer. -/
inductive Reply where
  | datagram (d : Datagram)
  | error (text : String)
  | undefined
  deriving DecidableEq, Repr

/-- The state after `client::recv`, with the accesses to the buffer. -/
structure Recv where
  reply : Reply
  conn : Conn
  accesses : List Access

/-- The loop of `client::recv`, as long as the program is not terminated. -/
def recvLoop : ℕ → Datagram → Conn → Recv
  | 0, _, conn => ⟨.undefined, conn, []⟩
  | fuel + 1, d, conn =>
    let r := recvfrom d conn
    match r.outcome with
    | .error text => ⟨.error text, r.conn.disconnect, r.accesses⟩
    | .undefined => ⟨.undefined, r.conn, r.accesses⟩
    | .none =>
      if r.datagram.completed then ⟨.datagram r.datagram, r.conn, r.accesses⟩
      else
        let next := recvLoop fuel r.datagram r.conn
        { next with accesses := r.accesses ++ next.accesses }

/-- `client::recv`. Every call of `recvfrom` but the last takes something, so the
number of calls is bounded by what is still to arrive. -/
def clientRecv (conn : Conn) : Recv :=
  recvLoop (conn.arriving.all.length + 1) .fresh conn

end AcCore.Gov.Socket
