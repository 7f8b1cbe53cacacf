import AcCore.Gov.Id.Peer
import AcCore.Lib.Run

/-!
# Whom the handshake verifies

One end of a connection, on which the peer sends the three datagrams of the
handshake in any order and as often as he likes. The message that he has to
sign is kept in `msg`, which is empty while none is outstanding. This file
determines when a verification rests on a message that was sent for it.
-/

namespace AcCore.Gov.Id

open Lib

variable {PubKey : Type}

/-- What happens at one end of a connection. The random bytes are those that
`get_random_message` draws. -/
inductive PeerEvent where
  | initiateDialogue (random : Ripemd160)
  /-- A `gov_id_request` arrives. -/
  | idRequest (helloMsg : Text) (random : Ripemd160)
  /-- A `gov_id_peer_challenge` arrives. -/
  | idPeerChallenge (data : Text)
  /-- A `gov_id_challenge_response` arrives. -/
  | idChallengeResponse (data : Text)

/-- The random message that the datagram carries for the peer to sign. -/
def Datagram.challenge : Datagram → Option Text
  | request msg => some msg
  | peerChallenge _ msg => some msg
  | challengeResponse _ => none

/-- The text of a datagram that answers a challenge. -/
def PeerEvent.answer : PeerEvent → Option Text
  | initiateDialogue _ => none
  | idRequest _ _ => none
  | idPeerChallenge data => some data
  | idChallengeResponse data => some data

namespace Peer

variable (ec : Ec PubKey)

/-- The key and the signature that an answer starts with. -/
def readAnswer (data : Text) : Option PubKey × Text :=
  let (peerPubk, s) := extractKey ec (some data)
  (peerPubk, (extract s).1)

/-- `process_work`, and `initiate_dialogue` at the side that connects: the
state after the event and the datagram that is sent. -/
def react (p : Peer PubKey) : PeerEvent → Peer PubKey × Option Datagram
  | .initiateDialogue random => p.initiateDialogue random
  | .idRequest helloMsg random =>
    let (p, sent) := p.processRequest helloMsg random
    (p, some sent)
  | .idPeerChallenge data =>
    let (p, sent) := p.processPeerChallenge ec data
    (p, some sent)
  | .idChallengeResponse data => (p.processChallengeResponse ec data, none)

/-- The event as a step of a run: every order of events is possible. -/
def next (p : Peer PubKey) (e : PeerEvent) : Option (Peer PubKey) := some (p.react ec e).1

/-- The event is an answer of the peer, and it makes him verified with this key. -/
def Verifies (p : Peer PubKey) (e : PeerEvent) (k : PubKey) : Prop :=
  e.answer.isSome ∧ (p.react ec e).1.stagePeer = .verified ∧ (p.react ec e).1.pubkey = some k

/-- After these events on the connection the message is outstanding: it was
drawn at random and sent to the peer, and no answer of the peer, which is what
a verification consumes it with, has arrived since. -/
def Outstanding (before : List PeerEvent) (m : Text) : Prop :=
  ∃ earlier e later s random, before = earlier ++ e :: later ∧
    run (next ec) create earlier = some s ∧ m = randomMessage random ∧
    (s.react ec e).2.bind Datagram.challenge = some m ∧ ∀ v ∈ later, v.answer = none

/-- No challenge is outstanding at this end, and the event is an answer with a
key and the signature of this key on the empty text. -/
def SignsNothing (p : Peer PubKey) (e : PeerEvent) : Prop :=
  p.msg = [] ∧ ∃ data k, e.answer = some data ∧ (readAnswer ec data).1 = some k ∧
    ec.verifyNotNormalized k [] (readAnswer ec data).2 = true

variable {ec}

/-- The message of a challenge is not empty. -/
theorem randomMessage_ne_nil (random : Ripemd160) : randomMessage random ≠ [] := by
  intro h
  have hlength : random.bytes.length = 20 := Ripemd160.codec.length_enc random
  have hdecode := Base58.decode_encode random.bytes
  rw [show Base58.encode random.bytes = [] from h] at hdecode
  have hempty : Base58.decode [] = some [] := by decide
  rw [hempty, Option.some.injEq] at hdecode
  simp [← hdecode] at hlength

/-- Both answers are checked in the same way. -/
theorem react_answer {p : Peer PubKey} {e : PeerEvent} {data : Text} (h : e.answer = some data) :
    (p.react ec e).1 = p.verifyPeer ec (readAnswer ec data).1 (readAnswer ec data).2 ∧
      (p.react ec e).2.bind Datagram.challenge = none := by
  cases e with
  | initiateDialogue random => cases h
  | idRequest helloMsg random => cases h
  | idPeerChallenge d => cases h; exact ⟨rfl, rfl⟩
  | idChallengeResponse d => cases h; exact ⟨rfl, rfl⟩

/-- Who is verified has a key. -/
theorem isSome_pubkey_of_answer {p : Peer PubKey} {e : PeerEvent} (h : e.answer.isSome)
    (hverified : (p.react ec e).1.stagePeer = .verified) :
    (p.react ec e).1.pubkey.isSome := by
  obtain ⟨data, hdata⟩ := Option.isSome_iff_exists.mp h
  rw [(react_answer hdata).1] at hverified ⊢
  unfold verifyPeer at hverified ⊢
  cases hkey : (readAnswer ec data).1 with
  | none => rw [hkey] at hverified; cases hverified
  | some k =>
    rw [hkey] at hverified
    dsimp only at hverified ⊢
    split at hverified
    · rw [if_pos ‹_›]; rfl
    · cases hverified

/-- Only a verification changes the key. -/
theorem pubkey_react {p : Peer PubKey} {e : PeerEvent} (h : e.answer = none) :
    (p.react ec e).1.pubkey = p.pubkey := by
  cases e with
  | initiateDialogue random =>
    simp only [react, initiateDialogue]
    split <;> rfl
  | idRequest helloMsg random => rfl
  | idPeerChallenge data => cases h
  | idChallengeResponse data => cases h

/-- A verification uses the message up. -/
theorem msg_verifyPeer (p : Peer PubKey) (k : Option PubKey) (signature : Text) :
    (p.verifyPeer ec k signature).msg = [] := by
  cases k with
  | none => rfl
  | some k => unfold verifyPeer; dsimp only; split <;> rfl

/-- An event that is no answer sends a new message, or leaves the one that is
outstanding. -/
theorem react_of_answer_eq_none (ec : Ec PubKey) (p : Peer PubKey) {e : PeerEvent}
    (h : e.answer = none) :
    (∃ random, (p.react ec e).1.msg = randomMessage random ∧
      (p.react ec e).2.bind Datagram.challenge = some (randomMessage random)) ∨
    (p.msg ≠ [] ∧ (p.react ec e).1 = p ∧ (p.react ec e).2 = none) := by
  cases e with
  | initiateDialogue random =>
    by_cases hmsg : p.msg = []
    · exact Or.inl ⟨random, by simp [react, initiateDialogue, hmsg],
        by simp [react, initiateDialogue, hmsg, Datagram.challenge]⟩
    · exact Or.inr ⟨hmsg, by simp [react, initiateDialogue, hmsg]⟩
  | idRequest helloMsg random => exact Or.inl ⟨random, rfl, rfl⟩
  | idPeerChallenge data => cases h
  | idChallengeResponse data => cases h

/-- A message that is kept is one that is outstanding. -/
theorem outstanding_msg {before : List PeerEvent} {p : Peer PubKey}
    (h : run (next ec) create before = some p) (hmsg : p.msg ≠ []) :
    Outstanding ec before p.msg := by
  induction before using List.reverseRecOn generalizing p with
  | nil =>
    cases h
    exact absurd rfl hmsg
  | append_singleton before e ih =>
    obtain ⟨s, hs, hstep⟩ := Option.bind_eq_some_iff.mp ((run_append _ _ _).symm.trans h)
    obtain rfl : (s.react ec e).1 = p := by simpa [run, next] using hstep
    cases hanswer : e.answer with
    | some data =>
      rw [(react_answer hanswer).1, msg_verifyPeer] at hmsg
      exact absurd rfl hmsg
    | none =>
      obtain ⟨random, hkept, hsent⟩ | ⟨hold, hsame, _⟩ :=
        react_of_answer_eq_none ec s hanswer
      · exact ⟨before, e, [], s, random, rfl, hs, hkept, by rw [hsent, hkept], by simp⟩
      · obtain ⟨earlier, e₀, later, s₀, random, rfl, hs₀, hm, hsent, hlater⟩ := ih hs hold
        refine ⟨earlier, e₀, later ++ [e], s₀, random, by simp, hs₀, by rw [hsame, hm], ?_, ?_⟩
        · rw [hsent, hsame]
        · intro v hv
          rcases List.mem_append.mp hv with hv | hv
          · exact hlater v hv
          · rwa [List.mem_singleton.mp hv]

/-- While a message is outstanding, one is kept. -/
theorem msg_ne_nil_of_outstanding {before : List PeerEvent} {p : Peer PubKey} {m : Text}
    (h : run (next ec) create before = some p) (hm : Outstanding ec before m) : p.msg ≠ [] := by
  obtain ⟨earlier, e, later, s, random, rfl, hs, rfl, hsent, hlater⟩ := hm
  rw [run_append, hs, Option.bind_some] at h
  obtain ⟨s', hs', hrest⟩ := run_cons_eq_some.mp h
  obtain rfl : (s.react ec e).1 = s' := by simpa [next] using hs'
  have hfirst : (s.react ec e).1.msg ≠ [] := by
    cases hanswer : e.answer with
    | some data => rw [(react_answer hanswer).2] at hsent; cases hsent
    | none =>
      obtain ⟨random', hkept, _⟩ | ⟨_, _, hnone⟩ :=
        react_of_answer_eq_none ec s hanswer
      · rw [hkept]
        exact randomMessage_ne_nil random'
      · rw [hnone] at hsent; cases hsent
  have hanswers : AlongRun (next ec) (fun _ v => v.answer = none) (s.react ec e).1 later :=
    .of_forall fun v hv _ => hlater v hv
  refine @run_invariant _ _ (next ec) (fun q => q.msg ≠ []) _ ?_ _ _ _ hfirst hanswers hrest
  intro q v q' hq hv hstep
  obtain rfl : (q.react ec v).1 = q' := by simpa [next] using hstep
  obtain ⟨random', hkept, _⟩ | ⟨_, hsame, _⟩ := react_of_answer_eq_none ec q hv
  · rw [hkept]
    exact randomMessage_ne_nil random'
  · rwa [hsame]

/-- Who is verified has signed the message that was kept. -/
theorem verifies_iff {p : Peer PubKey} {e : PeerEvent} {k : PubKey} :
    Verifies ec p e k ↔ ∃ data, e.answer = some data ∧ (readAnswer ec data).1 = some k ∧
      ec.verifyNotNormalized k p.msg (readAnswer ec data).2 = true := by
  unfold Verifies
  cases hanswer : e.answer with
  | none => simp
  | some data =>
    simp only [Option.isSome_some, true_and, Option.some.injEq, exists_eq_left']
    rw [(react_answer hanswer).1]
    cases hkey : (readAnswer ec data).1 with
    | none => simp [verifyPeer]
    | some k' =>
      by_cases hok : ec.verifyNotNormalized k' p.msg (readAnswer ec data).2 = true
      · have hresult : p.verifyPeer ec (some k') (readAnswer ec data).2 =
            ⟨.verified, [], some k'⟩ := by simp [verifyPeer, hok]
        rw [hresult]
        simp only [true_and, Option.some.injEq]
        exact ⟨fun h => ⟨h, h ▸ hok⟩, fun h => h.1⟩
      · have hresult : (p.verifyPeer ec (some k') (readAnswer ec data).2).stagePeer =
            .verifiedFail := by simp [verifyPeer, hok]
        rw [hresult]
        constructor
        · rintro ⟨h, _⟩
          cases h
        · rintro ⟨hk, h⟩
          cases hk
          exact absurd h hok

end Peer

open Peer in
/-- **Freshness of the handshake.** In a run of one end of a connection, every
verification is by a signature of a message that was drawn and sent on this
connection and that no earlier verification consumed, exactly when no answer
brings a signature of the empty text while no message is outstanding. -/
theorem handshake_fresh (ec : Ec PubKey) (es : List PeerEvent) :
    (∀ before e after p k, es = before ++ e :: after → run (next ec) create before = some p →
      Verifies ec p e k → ∃ m data, Outstanding ec before m ∧ e.answer = some data ∧
        (readAnswer ec data).1 = some k ∧
        ec.verifyNotNormalized k m (readAnswer ec data).2 = true) ↔
      AlongRun (next ec) (fun p e => ¬ SignsNothing ec p e) create es := by
  rw [alongRun_iff]
  constructor
  · rintro h before e after p hsplit hp ⟨hmsg, data, k, hanswer, hkey, hok⟩
    have hverifies : Verifies ec p e k := verifies_iff.mpr ⟨data, hanswer, hkey, hmsg ▸ hok⟩
    obtain ⟨m, _, hm, _⟩ := h before e after p k hsplit hp hverifies
    exact msg_ne_nil_of_outstanding hp hm hmsg
  · intro h before e after p k hsplit hp hverifies
    obtain ⟨data, hanswer, hkey, hok⟩ := verifies_iff.mp hverifies
    have hmsg : p.msg ≠ [] := fun hmsg =>
      h before e after p hsplit hp ⟨hmsg, data, k, hanswer, hkey, hmsg ▸ hok⟩
    exact ⟨p.msg, data, outstanding_msg hp hmsg, hanswer, hkey, hok⟩

/-- One key, written `K`, whose signatures are the signed texts with the letter
in front. -/
def oneKey : Ec Unit where
  setB58 s := if s = ['K'] then some () else none
  hash _ := Ripemd160.set 7
  verify _ text signature := signature = 'K' :: text
  verifyNotNormalized _ text signature := signature = 'K' :: text

open Peer in
/-- A peer who sends nothing but an answer, with his key and a signature of the
empty text, is verified although no message was ever sent to him. -/
theorem handshake_not_fresh :
    ¬ ∀ before e after p k,
      [PeerEvent.idChallengeResponse ['K', ' ', 'K']] = before ++ e :: after →
      run (next oneKey) create before = some p → Verifies oneKey p e k →
      ∃ m data, Outstanding oneKey before m ∧ e.answer = some data ∧
        (readAnswer oneKey data).1 = some k ∧
        oneKey.verifyNotNormalized k m (readAnswer oneKey data).2 = true := by
  intro h
  obtain ⟨m, _, ⟨earlier, e, later, _, _, hsplit, _⟩, _⟩ :=
    h [] _ [] create () rfl rfl (by unfold Verifies; decide)
  exact absurd hsplit (by simp)

end AcCore.Gov.Id
