import AcCore.Gov.Id.Handshake
import AcCore.Gov.Curve

/-!
# The handshake between two nodes

Two nodes have a connection, on which datagrams arrive in the order in which they were
sent. The node that has connected initiates the dialogue, and may do so again at any time.
This file follows both ends, whatever the order in which they read what has arrived: no end
fails to verify the other, and once nothing is under way each has verified the other.
-/

namespace AcCore.Gov.Id

open Lib

variable {PrivKey PubKey : Type} (curve : Curve PrivKey PubKey) (ripemd : List UInt8 → Ripemd160)

/-- A signature is verified after it is normalized, too. -/
def NormalizesSignatures : Prop :=
  ∀ k h, curve.ecdsaVerifyNormalized (curve.pubkeyCreate k) h (curve.ecdsaSign k h) = true

/-! ## The two ends -/

/-- A datagram of the handshake, with the text that is in it. -/
inductive Sent where
  | request (msg : Text)
  | peerChallenge (data : Text)
  | challengeResponse (data : Text)
  deriving DecidableEq

/-- The text that a node with this key sends: its public key, the signature of what it has
to sign, and the message for the peer. -/
def Datagram.sent (k : PrivKey) : Datagram → Sent
  | request msg => .request msg
  | peerChallenge signed msg =>
    .peerChallenge (curve.toB58 (curve.pubkeyCreate k) ++
      ' ' :: (curve.signEncode k (Sha256.ofText signed) ++ ' ' :: msg))
  | challengeResponse signed =>
    .challengeResponse (curve.toB58 (curve.pubkeyCreate k) ++
      ' ' :: curve.signEncode k (Sha256.ofText signed))

/-- What happens where the datagram arrives. -/
def Sent.arrival (random : Ripemd160) : Sent → PeerEvent
  | request msg => .idRequest msg random
  | peerChallenge data => .idPeerChallenge data
  | challengeResponse data => .idChallengeResponse data

/-- The ends of a connection and the datagrams under way to them, the first one first. The
client is the node that has connected. -/
structure Dialogue (PubKey : Type) where
  client : Peer PubKey
  server : Peer PubKey
  toServer : List Sent
  toClient : List Sent

/-- What may happen next in a dialogue. -/
inductive DialogueEvent where
  | initiateDialogue (random : Ripemd160)
  /-- The server reads the first datagram that is under way to it. -/
  | serverReads (random : Ripemd160)
  /-- The client reads the first datagram that is under way to it. -/
  | clientReads (random : Ripemd160)

/-- A datagram is read. -/
def DialogueEvent.isReading : DialogueEvent → Bool
  | initiateDialogue _ => false
  | serverReads _ => true
  | clientReads _ => true

namespace Dialogue

/-- A connection on which nothing was sent. -/
def create : Dialogue PubKey := ⟨Peer.create, Peer.create, [], []⟩

/-- A step of the connection between nodes with these keys. -/
def step (clientKey serverKey : PrivKey) (c : Dialogue PubKey) :
    DialogueEvent → Option (Dialogue PubKey)
  | .initiateDialogue random =>
    let (client, sent) := c.client.react (curve.ec ripemd) (.initiateDialogue random)
    some { c with
      client := client
      toServer := c.toServer ++ (sent.map (Datagram.sent curve clientKey)).toList }
  | .serverReads random =>
    match c.toServer with
    | [] => none
    | d :: ds =>
      let (server, sent) := c.server.react (curve.ec ripemd) (d.arrival random)
      some { c with
        server := server
        toServer := ds
        toClient := c.toClient ++ (sent.map (Datagram.sent curve serverKey)).toList }
  | .clientReads random =>
    match c.toClient with
    | [] => none
    | d :: ds =>
      let (client, sent) := c.client.react (curve.ec ripemd) (d.arrival random)
      some { c with
        client := client
        toClient := ds
        toServer := c.toServer ++ (sent.map (Datagram.sent curve clientKey)).toList }

end Dialogue

/-! ## What one end reads -/

namespace Peer

variable {curve ripemd}

/-- The peer is verified with this key. -/
def VerifiedWith (p : Peer PubKey) (k : PubKey) : Prop :=
  p.stagePeer = .verified ∧ p.pubkey = some k

/-- The peer is not verified yet, or he is with this key. -/
def NotFailed (p : Peer PubKey) (k : PubKey) : Prop :=
  p.stagePeer = .anonymous ∧ p.pubkey = none ∨ p.VerifiedWith k

/-- The message of a challenge is one word. -/
theorem isWord_randomMessage (random : Ripemd160) : IsWord (randomMessage random) :=
  ⟨randomMessage_ne_nil random, Base58.blankFree_encode _⟩

/-- A key that was written is read. -/
theorem extractKey_toB58 (hcurve : curve.Lawful) (k : PubKey) (s : Text) :
    extractKey (curve.ec ripemd) (some (curve.toB58 k ++ ' ' :: s)) =
      (some k, some (' ' :: s)) := by
  have hset : (curve.ec ripemd).setB58 (curve.toB58 k) = some k := hcurve.setB58_toB58 k
  simp only [extractKey, extract, readWord_append (hcurve.isWord_toB58 k), hset]

/-- The signature of the message that is kept makes the peer verified. -/
theorem verifyPeer_signed (hcurve : curve.Lawful) (hnormal : NormalizesSignatures curve)
    (p : Peer PubKey) (k : PrivKey) :
    p.verifyPeer (curve.ec ripemd) (some (curve.pubkeyCreate k))
        (curve.signEncode k (Sha256.ofText p.msg)) =
      ⟨.verified, [], some (curve.pubkeyCreate k)⟩ := by
  have hverify : (curve.ec ripemd).verifyNotNormalized (curve.pubkeyCreate k) p.msg
      (curve.signEncode k (Sha256.ofText p.msg)) = true := by
    simp only [Curve.ec, Curve.signEncode]
    rw [Curve.verifyWith_encode _ _ _ (hcurve.sign_ne_nil k _)]
    exact hnormal k _
  simp only [verifyPeer, hverify, if_true]

/-- The end that reads the challenge to its own message has verified the peer, and answers
the message of the peer. -/
theorem react_peerChallenge (hcurve : curve.Lawful) (hnormal : NormalizesSignatures curve)
    (p : Peer PubKey) (k : PrivKey) {msg : Text} (hmsg : IsWord msg) (random : Ripemd160) :
    p.react (curve.ec ripemd) (((Datagram.peerChallenge p.msg msg).sent curve k).arrival random) =
      (⟨.verified, [], some (curve.pubkeyCreate k)⟩, some (.challengeResponse msg)) := by
  have hsignature :
      extract (some (' ' :: (curve.signEncode k (Sha256.ofText p.msg) ++ ' ' :: msg))) =
        (curve.signEncode k (Sha256.ofText p.msg), some (' ' :: msg)) := by
    simp only [extract, readWord_blank, readWord_append (hcurve.isWord_signEncode k _)]
  have hmessage : extract (some (' ' :: msg)) = (msg, some []) := by
    simp only [extract, readWord_blank, readWord_last hmsg]
  simp only [Datagram.sent, Sent.arrival, react, processPeerChallenge, extractKey_toB58 hcurve,
    hsignature, hmessage, verifyPeer_signed hcurve hnormal]

/-- The end that reads the response to its own message has verified the peer. -/
theorem react_challengeResponse (hcurve : curve.Lawful) (hnormal : NormalizesSignatures curve)
    (p : Peer PubKey) (k : PrivKey) (random : Ripemd160) :
    p.react (curve.ec ripemd) (((Datagram.challengeResponse p.msg).sent curve k).arrival random) =
      (⟨.verified, [], some (curve.pubkeyCreate k)⟩, none) := by
  have hsignature : extract (some (' ' :: curve.signEncode k (Sha256.ofText p.msg))) =
      (curve.signEncode k (Sha256.ofText p.msg), some []) := by
    simp only [extract, readWord_blank, readWord_last (hcurve.isWord_signEncode k _)]
  simp only [Datagram.sent, Sent.arrival, react, processChallengeResponse,
    extractKey_toB58 hcurve, hsignature, verifyPeer_signed hcurve hnormal]

end Peer

/-! ## The phases of a handshake -/

namespace Dialogue

variable {curve ripemd} {clientKey serverKey : PrivKey}

/-- The phases of the handshake, each with the number of datagrams that are still to be
read. In the last one the client has begun again before the server has read its response. -/
inductive Phase (curve : Curve PrivKey PubKey) (clientKey serverKey : PrivKey) :
    ℕ → Dialogue PubKey → Prop where
  | resting {client server : Peer PubKey} (hclientMsg : client.msg = [])
      (hclient : client.VerifiedWith (curve.pubkeyCreate serverKey))
      (hserver : server.VerifiedWith (curve.pubkeyCreate clientKey)) :
      Phase curve clientKey serverKey 0 ⟨client, server, [], []⟩
  | requested {client server : Peer PubKey} (random : Ripemd160)
      (hclientMsg : client.msg = Peer.randomMessage random)
      (hclient : client.NotFailed (curve.pubkeyCreate serverKey))
      (hserver : server.NotFailed (curve.pubkeyCreate clientKey)) :
      Phase curve clientKey serverKey 3
        ⟨client, server, [(Datagram.request client.msg).sent curve clientKey], []⟩
  | challenged {client server : Peer PubKey} (random random' : Ripemd160)
      (hclientMsg : client.msg = Peer.randomMessage random)
      (hserverMsg : server.msg = Peer.randomMessage random')
      (hclient : client.NotFailed (curve.pubkeyCreate serverKey))
      (hserver : server.NotFailed (curve.pubkeyCreate clientKey)) :
      Phase curve clientKey serverKey 2
        ⟨client, server, [], [(Datagram.peerChallenge client.msg server.msg).sent curve serverKey]⟩
  | answered {client server : Peer PubKey} (hclientMsg : client.msg = [])
      (hclient : client.VerifiedWith (curve.pubkeyCreate serverKey))
      (hserver : server.NotFailed (curve.pubkeyCreate clientKey)) :
      Phase curve clientKey serverKey 1
        ⟨client, server, [(Datagram.challengeResponse server.msg).sent curve clientKey], []⟩
  | askedAgain {client server : Peer PubKey} (random : Ripemd160)
      (hclientMsg : client.msg = Peer.randomMessage random)
      (hclient : client.VerifiedWith (curve.pubkeyCreate serverKey))
      (hserver : server.NotFailed (curve.pubkeyCreate clientKey)) :
      Phase curve clientKey serverKey 4
        ⟨client, server, [(Datagram.challengeResponse server.msg).sent curve clientKey,
          (Datagram.request client.msg).sent curve clientKey], []⟩

/-- While a message of the client is outstanding, the client does not begin again. -/
theorem initiateDialogue_of_randomMessage {c : Dialogue PubKey} {random random' : Ripemd160}
    (hmsg : c.client.msg = Peer.randomMessage random) :
    c.step curve ripemd clientKey serverKey (.initiateDialogue random') = some c := by
  have hne : c.client.msg ≠ [] := hmsg ▸ Peer.randomMessage_ne_nil random
  simp [step, Peer.react, Peer.initiateDialogue, hne]

/-- A client that has no message outstanding sends a request. -/
theorem initiateDialogue_of_nil {c : Dialogue PubKey} (hmsg : c.client.msg = [])
    (random : Ripemd160) :
    c.step curve ripemd clientKey serverKey (.initiateDialogue random) =
      some { c with
        client := { c.client with msg := Peer.randomMessage random }
        toServer := c.toServer ++
          [(Datagram.request (Peer.randomMessage random)).sent curve clientKey] } := by
  simp [step, Peer.react, Peer.initiateDialogue, hmsg]

/-- A step leads to the next phase. It reads one of the datagrams, or makes three more. -/
theorem Phase.step (hcurve : curve.Lawful) (hnormal : NormalizesSignatures curve) {n : ℕ}
    {c c' : Dialogue PubKey} {e : DialogueEvent} (h : Phase curve clientKey serverKey n c)
    (hc' : c.step curve ripemd clientKey serverKey e = some c') :
    ∃ n', Phase curve clientKey serverKey n' c' ∧
      if e.isReading then n' + 1 = n else n' ≤ n + 3 := by
  cases e with
  | initiateDialogue random =>
    cases h with
    | resting hclientMsg hclient hserver =>
      rw [initiateDialogue_of_nil hclientMsg] at hc'
      cases hc'
      exact ⟨3, .requested random rfl (.inr hclient) (.inr hserver), le_rfl⟩
    | requested first hclientMsg hclient hserver =>
      rw [initiateDialogue_of_randomMessage hclientMsg] at hc'
      cases hc'
      exact ⟨3, .requested first hclientMsg hclient hserver, Nat.le_add_right _ _⟩
    | challenged first second hclientMsg hserverMsg hclient hserver =>
      rw [initiateDialogue_of_randomMessage hclientMsg] at hc'
      cases hc'
      exact ⟨2, .challenged first second hclientMsg hserverMsg hclient hserver,
        Nat.le_add_right _ _⟩
    | answered hclientMsg hclient hserver =>
      rw [initiateDialogue_of_nil hclientMsg] at hc'
      cases hc'
      exact ⟨4, .askedAgain random rfl hclient hserver, le_rfl⟩
    | askedAgain first hclientMsg hclient hserver =>
      rw [initiateDialogue_of_randomMessage hclientMsg] at hc'
      cases hc'
      exact ⟨4, .askedAgain first hclientMsg hclient hserver, Nat.le_add_right _ _⟩
  | serverReads random =>
    cases h with
    | resting hclientMsg hclient hserver => cases hc'
    | requested first hclientMsg hclient hserver =>
      cases hc'
      exact ⟨2, .challenged first random hclientMsg rfl hclient hserver, rfl⟩
    | challenged first second hclientMsg hserverMsg hclient hserver => cases hc'
    | answered hclientMsg hclient hserver =>
      simp only [Dialogue.step, Peer.react_challengeResponse hcurve hnormal] at hc'
      cases hc'
      exact ⟨0, .resting hclientMsg hclient ⟨rfl, rfl⟩, rfl⟩
    | askedAgain first hclientMsg hclient hserver =>
      simp only [Dialogue.step, Peer.react_challengeResponse hcurve hnormal] at hc'
      cases hc'
      exact ⟨3, .requested first hclientMsg (.inr hclient) (.inr ⟨rfl, rfl⟩), rfl⟩
  | clientReads random =>
    cases h with
    | resting hclientMsg hclient hserver => cases hc'
    | requested first hclientMsg hclient hserver => cases hc'
    | challenged first second hclientMsg hserverMsg hclient hserver =>
      have hmsg := hserverMsg ▸ Peer.isWord_randomMessage second
      simp only [Dialogue.step, Peer.react_peerChallenge hcurve hnormal _ _ hmsg] at hc'
      cases hc'
      exact ⟨1, .answered rfl ⟨rfl, rfl⟩ hserver, rfl⟩
    | answered hclientMsg hclient hserver => cases hc'
    | askedAgain first hclientMsg hclient hserver => cases hc'

/-- The number of datagrams that are read in these events. -/
def readings (es : List DialogueEvent) : ℕ := es.countP DialogueEvent.isReading

/-- The number of times that the client initiates the dialogue in these events. -/
def initiations (es : List DialogueEvent) : ℕ := es.countP fun e => !e.isReading

/-- A run leads from phase to phase, and reads what its initiations lead to. -/
theorem Phase.run (hcurve : curve.Lawful) (hnormal : NormalizesSignatures curve) {n : ℕ}
    {c c' : Dialogue PubKey} {es : List DialogueEvent}
    (h : Phase curve clientKey serverKey n c)
    (hc' : Lib.run (Dialogue.step curve ripemd clientKey serverKey) c es = some c') :
    ∃ n', Phase curve clientKey serverKey n' c' ∧
      n' + readings es ≤ n + 3 * initiations es := by
  induction es generalizing n c with
  | nil =>
    cases hc'
    exact ⟨n, h, le_rfl⟩
  | cons e es ih =>
    obtain ⟨d, hd, hrest⟩ := run_cons_eq_some.mp hc'
    obtain ⟨m, hm, hcount⟩ := h.step hcurve hnormal hd
    obtain ⟨n', hn', hle⟩ := ih hm hrest
    refine ⟨n', hn', ?_⟩
    unfold readings initiations at hle ⊢
    cases hreading : e.isReading with
    | true =>
      rw [hreading, if_pos rfl] at hcount
      simp only [List.countP_cons, hreading, if_true, Bool.not_true, Bool.false_eq_true, if_false]
      omega
    | false =>
      rw [hreading, if_neg Bool.false_ne_true] at hcount
      simp only [List.countP_cons, hreading, if_true, Bool.not_false, Bool.false_eq_true, if_false]
      omega

/-- In no phase of the dialogue has an end failed. -/
theorem Phase.notFailed {n : ℕ} {c : Dialogue PubKey} (h : Phase curve clientKey serverKey n c) :
    c.client.NotFailed (curve.pubkeyCreate serverKey) ∧
      c.server.NotFailed (curve.pubkeyCreate clientKey) := by
  cases h with
  | resting hclientMsg hclient hserver => exact ⟨.inr hclient, .inr hserver⟩
  | requested first hclientMsg hclient hserver => exact ⟨hclient, hserver⟩
  | challenged first second hclientMsg hserverMsg hclient hserver => exact ⟨hclient, hserver⟩
  | answered hclientMsg hclient hserver => exact ⟨.inr hclient, hserver⟩
  | askedAgain first hclientMsg hclient hserver => exact ⟨.inr hclient, hserver⟩

/-- In the phase in which nothing is under way, both ends have verified the other. -/
theorem Phase.verified {n : ℕ} {c : Dialogue PubKey} (h : Phase curve clientKey serverKey n c)
    (htoServer : c.toServer = []) (htoClient : c.toClient = []) :
    c.client.VerifiedWith (curve.pubkeyCreate serverKey) ∧
      c.server.VerifiedWith (curve.pubkeyCreate clientKey) := by
  cases h with
  | resting hclientMsg hclient hserver => exact ⟨hclient, hserver⟩
  | requested => cases htoServer
  | challenged => cases htoClient
  | answered => cases htoServer
  | askedAgain => cases htoServer

/-- The first step of a connection is that the client initiates the dialogue. -/
theorem phase_of_step_create {c : Dialogue PubKey} {e : DialogueEvent}
    (hc : create.step curve ripemd clientKey serverKey e = some c) :
    e.isReading = false ∧ Phase curve clientKey serverKey 3 c := by
  cases e with
  | initiateDialogue random =>
    rw [initiateDialogue_of_nil rfl] at hc
    cases hc
    exact ⟨rfl, .requested random rfl (.inl ⟨rfl, rfl⟩) (.inl ⟨rfl, rfl⟩)⟩
  | serverReads random => cases hc
  | clientReads random => cases hc

/-- **The handshake succeeds.** Whatever the order in which two nodes read what has arrived,
and whenever the client initiates the dialogue again, no end ever fails to verify the other,
and a key that it has of the other is his. For each initiation at most three datagrams are
read; and when nothing is under way, each end has verified the other. -/
theorem handshake_succeeds (hcurve : curve.Lawful) (hnormal : NormalizesSignatures curve)
    {es : List DialogueEvent} {c : Dialogue PubKey}
    (hrun : Lib.run (Dialogue.step curve ripemd clientKey serverKey) create es = some c) :
    (c.client.NotFailed (curve.pubkeyCreate serverKey) ∧
      c.server.NotFailed (curve.pubkeyCreate clientKey)) ∧
    readings es ≤ 3 * initiations es ∧
    (es ≠ [] → c.toServer = [] → c.toClient = [] →
      c.client.VerifiedWith (curve.pubkeyCreate serverKey) ∧
        c.server.VerifiedWith (curve.pubkeyCreate clientKey)) := by
  cases es with
  | nil =>
    cases hrun
    exact ⟨⟨.inl ⟨rfl, rfl⟩, .inl ⟨rfl, rfl⟩⟩, le_rfl, fun hne => absurd rfl hne⟩
  | cons e es =>
    obtain ⟨d, hd, hrest⟩ := run_cons_eq_some.mp hrun
    obtain ⟨hinitiates, hphase⟩ := phase_of_step_create hd
    obtain ⟨n, hn, hcount⟩ := hphase.run hcurve hnormal hrest
    refine ⟨hn.notFailed, ?_, fun _ => hn.verified⟩
    unfold readings initiations at hcount ⊢
    simp only [List.countP_cons, hinitiates, Bool.false_eq_true, if_false, Bool.not_false, if_true]
    omega

/-- A client that begins again before the server has read its response. -/
def hastyDialogue : List DialogueEvent :=
  [.initiateDialogue (Ripemd160.set 1), .serverReads (Ripemd160.set 2),
    .clientReads (Ripemd160.set 3), .initiateDialogue (Ripemd160.set 4),
    .serverReads (Ripemd160.set 5), .serverReads (Ripemd160.set 6),
    .clientReads (Ripemd160.set 7), .serverReads (Ripemd160.set 8)]

/-- Two nodes with different keys verify each other twice. -/
theorem handshake_succeeds_hastyDialogue :
    ∃ c, Lib.run (Dialogue.step Curve.ofTwoKeys Curve.firstByte true false) create
        hastyDialogue = some c ∧ c.toServer = [] ∧ c.toClient = [] ∧
      c.client.VerifiedWith false ∧ c.server.VerifiedWith true := by
  have hend : ((Lib.run (Dialogue.step Curve.ofTwoKeys Curve.firstByte true false) create
      hastyDialogue).any fun c => c.toServer.isEmpty && c.toClient.isEmpty) = true := by
    decide +kernel
  obtain ⟨c, hc, hempty⟩ := (Option.any_eq_true _ _).mp hend
  obtain ⟨hserver, hclient⟩ := (Bool.and_eq_true_iff).mp hempty
  rw [List.isEmpty_iff] at hserver hclient
  have hnormal : NormalizesSignatures Curve.ofTwoKeys := fun _ _ => decide_eq_true rfl
  obtain ⟨-, -, hverified⟩ := handshake_succeeds Curve.lawful_ofTwoKeys hnormal hc
  exact ⟨c, hc, hserver, hclient, hverified (List.cons_ne_nil _ _) hserver hclient⟩

end Dialogue

end AcCore.Gov.Id
