import AcCore.Gov.Engine.AuthApp
import AcCore.Gov.Id.Handshake

/-!
# The connections of a node

Every connection is a `peer_t`, which is made of layers: the id handshake, the
authorization, whether the connection is in service, and who the peer is in
the auth app. A verification in the lowest layer runs `verification_completed`
of the layers above it.
-/

namespace AcCore.Gov.Engine

open Lib

/-- `auth::peer_t::stage_t`. -/
inductive AuthStage where
  | denied
  | authorized
  deriving DecidableEq, Repr

/-- `peer::peer_t::stage_t`. -/
inductive LinkStage where
  | disconnected
  | connected
  | exceedLatency
  | service
  | disconnecting
  deriving DecidableEq, Repr

/-- A verification that was completed: its outcome, the key that it left at the
connection, and what `authorize` said of this key. -/
structure Verification (PubKey : Type) where
  stagePeer : Id.Stage
  pubkey : Option PubKey
  authorized : Bool

/-- `engine::peer_t`, with the stages of its layers; `stage` is `none` for
`unknown`. The field `latest` is not part of the code: the latest verification
on the connection. -/
structure Peer (PubKey : Type) where
  id : Id.Peer PubKey
  auth : AuthStage
  link : LinkStage
  stage : Option Auth.PeerStage
  addr : Auth.Address
  latest : Option (Verification PubKey)

/-- `disconnect`: the connection is taken out of service; its socket is closed
at the next `update`. -/
def Peer.disconnect {PubKey : Type} (q : Peer PubKey) : Peer PubKey :=
  { q with link := .disconnecting }

/-- The end of `verification_completed`: who is not authorized is disconnected. -/
def Peer.disconnectUnauthorized {PubKey : Type} (q : Peer PubKey) : Peer PubKey :=
  if q.auth ≠ .authorized then q.disconnect else q

/-- What the node checks its peers with. -/
structure Admission (PubKey : Type) where
  ec : Ec PubKey
  /-- `node_pubkey`. -/
  nodePubkey : PubKey
  sysopAllowed : Bool

/-- `networking`: all connections that were attached so far, the place of a
connection in the list standing for its address in memory; those that the
latest `update` found open; and the auth app. -/
structure Networking (PubKey : Type) where
  peers : List (Peer PubKey)
  /-- `active_`. -/
  active : List ℕ
  authApp : Auth.App

/-- What happens at the connections. -/
inductive NetworkingEvent where
  /-- A connection is accepted, or opened with `connect` and the random bytes
  of its first message. -/
  | attach (addr : Auth.Address) (connect : Option Ripemd160)
  /-- The server thread looks which connections are open. -/
  | update
  /-- A datagram of the handshake arrives on a connection. -/
  | handshake (i : ℕ) (e : Id.PeerEvent)
  /-- A connection is given up for another reason. -/
  | disconnect (i : ℕ)
  /-- The main loop changes the auth app. -/
  | cycle (a : Auth.App)

namespace Networking

variable {PubKey : Type} [DecidableEq PubKey] (σ : Admission PubKey)

/-- A node without connections. -/
def init (a : Auth.App) : Networking PubKey := ⟨[], [], a⟩

/-- `id::daemon::is_duplicate`: more than one active connection has the key. -/
def isDuplicate (s : Networking PubKey) (p : Option PubKey) : Bool :=
  decide (1 < s.active.countP fun i => (s.peers[i]?).any fun q => decide (p = q.id.pubkey))

/-- `engine::peer_t::authorize` of an attached connection. -/
def authorize (s : Networking PubKey) (p : Option PubKey) : Bool := !s.isDuplicate p

/-- `basic_auth_completed`: the stage of the peer, who becomes a candidate when
he is not known yet. -/
def basicAuthCompleted (a : Auth.App) (k : PubKey) (addr : Auth.Address) :
    Auth.App × Auth.PeerStage :=
  if k = σ.nodePubkey then (a, .sysop)
  else
    match a.getStage (σ.ec.hash k) with
    | .out =>
      ({ a with pool := { a.pool with toHall := a.pool.toHall ++ [(σ.ec.hash k, addr)] } }, .out)
    | stage => (a, stage)

/-- `auth::peer_t::verification_completed`. -/
def authVerificationCompleted (s : Networking PubKey) (q : Peer PubKey) : Peer PubKey :=
  if q.id.stagePeer ≠ .verified then q
  else if !s.authorize q.id.pubkey then q
  else { q with auth := .authorized }

/-- The override for the sysop, whose connection is authorized when the node
allows a shell, and only then. -/
def overrideSysop (q : Peer PubKey) : Peer PubKey :=
  if q.stage = some .sysop then
    { q with auth := if σ.sysopAllowed then .authorized else .denied }
  else q

/-- `engine::peer_t::verification_completed`: the auth app and the connection
after it. -/
def verificationCompleted (s : Networking PubKey) (q : Peer PubKey) : Auth.App × Peer PubKey :=
  let q := { q with latest := some ⟨q.id.stagePeer, q.id.pubkey, s.authorize q.id.pubkey⟩ }
  let q := s.authVerificationCompleted q
  if q.id.stagePeer ≠ .verified then (s.authApp, q.disconnect)
  else
    let (authApp, stage) := q.id.pubkey.elim (s.authApp, q.stage) fun k =>
      (basicAuthCompleted σ s.authApp k q.addr).map id some
    (authApp, (overrideSysop σ { q with stage := stage }).disconnectUnauthorized)

/-- A datagram of the handshake on an active connection. -/
def processHandshake (s : Networking PubKey) (i : ℕ) (q : Peer PubKey) (e : Id.PeerEvent) :
    Networking PubKey :=
  let q := { q with id := (q.id.react σ.ec e).1 }
  let s := { s with peers := s.peers.set i q }
  if e.answer.isSome then
    let (authApp, q) := s.verificationCompleted σ q
    { s with peers := s.peers.set i q, authApp := authApp }
  else s

/-- `create_client` and `attach`. -/
def attach (s : Networking PubKey) (addr : Auth.Address) (connect : Option Ripemd160) :
    Networking PubKey :=
  let id := connect.elim Id.Peer.create fun random => (Id.Peer.create.initiateDialogue random).1
  { s with peers := s.peers ++ [⟨id, .denied, .service, none, addr, none⟩] }

/-- `clients_t::update`: connections that were disconnected are closed and no
longer active. -/
def update (s : Networking PubKey) : Networking PubKey :=
  { s with active := (List.range s.peers.length).filter fun i =>
      (s.peers[i]?).any fun q => decide (q.link ≠ .disconnecting) }

/-- One event; `none` when it cannot happen: the server thread only reads from
active connections. -/
def step (s : Networking PubKey) : NetworkingEvent → Option (Networking PubKey)
  | .attach addr connect => some (s.attach addr connect)
  | .update => some s.update
  | .handshake i e =>
    if i ∈ s.active then (s.peers[i]?).map fun q => s.processHandshake σ i q e else none
  | .disconnect i => (s.peers[i]?).map fun q => { s with peers := s.peers.set i q.disconnect }
  | .cycle a => some { s with authApp := a }

end Networking

end AcCore.Gov.Engine
