import AcCore.Gov.Crypto

/-!
# The id handshake

Each end of a connection sends a random message and takes the other's
signature of it as the proof of his public key. The three datagrams are
`gov_id_request`, `gov_id_peer_challenge` and `gov_id_challenge_response`.
-/

namespace AcCore.Gov.Id

open Lib

/-- `peer_t::stage_t`. -/
inductive Stage where
  | anonymous
  | verified
  | verifiedFail
  deriving DecidableEq, Repr

/-- `id::peer_t`: one end of a connection. -/
structure Peer (PubKey : Type) where
  stagePeer : Stage
  msg : Text
  pubkey : Option PubKey

/-- The datagrams of the handshake. Where one carries a signature of this node,
the text that is signed stands for it; the node's public key goes with it. -/
inductive Datagram where
  | request (msg : Text)
  | peerChallenge (signed : Text) (msg : Text)
  | challengeResponse (signed : Text)
  deriving DecidableEq

namespace Peer

variable {PubKey : Type} (ec : Ec PubKey)

/-- A connection before the handshake. -/
def create : Peer PubKey := ⟨.anonymous, [], none⟩

/-- `get_random_message`: twenty random bytes in base 58. -/
def randomMessage (random : Ripemd160) : Text := random.toB58

/-- `initiate_dialogue`. -/
def initiateDialogue (p : Peer PubKey) (random : Ripemd160) : Peer PubKey × Option Datagram :=
  if p.msg = [] then
    ({ p with msg := randomMessage random }, some (.request (randomMessage random)))
  else (p, none)

/-- `process_request`: the message of the peer is signed as it came. -/
def processRequest (p : Peer PubKey) (helloMsg : Text) (random : Ripemd160) :
    Peer PubKey × Datagram :=
  ({ p with msg := randomMessage random }, .peerChallenge helloMsg (randomMessage random))

/-- The end of the verification, common to both answers: the signature must be
one of the message that was sent. -/
def verifyPeer (p : Peer PubKey) (peerPubk : Option PubKey) (signature : Text) : Peer PubKey :=
  match peerPubk with
  | none => { p with stagePeer := .verifiedFail, msg := [] }
  | some k =>
    if ec.verifyNotNormalized k p.msg signature then ⟨.verified, [], some k⟩
    else { p with stagePeer := .verifiedFail, msg := [] }

/-- `is >> peer_pubk`: a text that is not a key makes the stream fail. -/
def extractKey (s : Option Text) : Option PubKey × Option Text :=
  let (w, s) := extract s
  match ec.setB58 w with
  | none => (none, none)
  | some k => (some k, s)

/-- `process_peer_challenge`: the third string of the datagram is signed as it
came, whether the verification went well or not. -/
def processPeerChallenge (p : Peer PubKey) (data : Text) : Peer PubKey × Datagram :=
  let (peerPubk, s) := extractKey ec (some data)
  let (signature, s) := extract s
  let (helloMsg, _) := extract s
  (p.verifyPeer ec peerPubk signature, .challengeResponse helloMsg)

/-- `process_challenge_response`. -/
def processChallengeResponse (p : Peer PubKey) (data : Text) : Peer PubKey :=
  let (peerPubk, s) := extractKey ec (some data)
  let (signature, _) := extract s
  p.verifyPeer ec peerPubk signature

end Peer

/-- The text that a datagram of the handshake makes the node sign. -/
def Datagram.signed : Datagram → Option Text
  | request _ => none
  | peerChallenge signed _ => some signed
  | challengeResponse signed => some signed

end AcCore.Gov.Id
