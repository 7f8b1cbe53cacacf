import AcCore.Gov.Engine.Diff
import AcCore.Gov.Engine.Votes
import AcCore.Gov.Id.Peer
import AcCore.Lib.Run

/-!
# Whose votes are counted

Honest nodes run the id handshake with anybody, vote for tips and sign their
contributions, all with one key. The network delivers whatever texts it likes,
but cannot forge: a signature that verifies under the key of an honest node is
one of a text that this node has signed. This file determines which votes of
honest nodes are counted.
-/

namespace AcCore.Gov.Engine

open Lib

variable {PubKey Node : Type} [DecidableEq Node]

/-- What the network has done so far: the state of each honest node, and what
each of them has signed, by the protocol it was signed in. -/
structure World (PubKey Node : Type) where
  votes : Node → Votes
  peers : Node → ℕ → Id.Peer PubKey
  /-- The hashes of the diffs on which `vote_tip` was executed. -/
  voted : List (Node × Ripemd160)
  /-- The texts that were signed in the id handshake. -/
  challenged : List (Node × Text)
  /-- The contributions that were signed. -/
  contributed : List (Node × LocalDeltas PubKey)

/-- The steps of the honest nodes; what they receive is chosen by the network. -/
inductive Event (PubKey Node : Type) where
  /-- Stage 1: `vote_tip` on a diff with this hash. -/
  | voteTip (n : Node) (h : Ripemd160)
  /-- Stage 2: `votes.select()`. -/
  | select (n : Node)
  /-- Stage 3: `create_local_deltas` signs a contribution. -/
  | createLocalDeltas (n : Node) (g : LocalDeltas PubKey)
  /-- A `vote_tip` datagram arrives. -/
  | deliverVote (n : Node) (s : Text)
  /-- The node opens a connection. -/
  | initiateDialogue (n : Node) (c : ℕ) (random : Ripemd160)
  /-- A `gov_id_request` arrives on a connection. -/
  | idRequest (n : Node) (c : ℕ) (helloMsg : Text) (random : Ripemd160)
  /-- A `gov_id_peer_challenge` arrives on a connection. -/
  | idPeerChallenge (n : Node) (c : ℕ) (data : Text)
  /-- A `gov_id_challenge_response` arrives on a connection. -/
  | idChallengeResponse (n : Node) (c : ℕ) (data : Text)

namespace World

/-- Before the first step. -/
def init : World PubKey Node := ⟨fun _ => ∅, fun _ _ => Id.Peer.create, [], [], []⟩

/-- The node's end of a connection after a datagram of the handshake, with the
text that the node signed in answer. -/
def handshake (w : World PubKey Node) (n : Node) (c : ℕ) (p : Id.Peer PubKey)
    (sent : Option Id.Datagram) : World PubKey Node :=
  { w with
    peers := Function.update w.peers n (Function.update (w.peers n) c p)
    challenged := ((sent.bind Id.Datagram.signed).toList.map fun s => (n, s)) ++ w.challenged }

/-- One step of the world. The keys of the nodes are given by `pub`. -/
def step (ec : Ec PubKey) (pub : Node → PubKey) (w : World PubKey Node) :
    Event PubKey Node → World PubKey Node
  | .voteTip n h =>
    { w with
      votes := Function.update w.votes n ((w.votes n).add (ec.hash (pub n)) h).1
      voted := (n, h) :: w.voted }
  | .select n => { w with votes := Function.update w.votes n (w.votes n).select.2 }
  | .createLocalDeltas n g => { w with contributed := (n, g) :: w.contributed }
  | .deliverVote n s =>
    { w with votes := Function.update w.votes n (processVoteTip ec (w.votes n) s).1 }
  | .initiateDialogue n c random =>
    let (p, sent) := (w.peers n c).initiateDialogue random
    w.handshake n c p sent
  | .idRequest n c helloMsg random =>
    let (p, sent) := (w.peers n c).processRequest helloMsg random
    w.handshake n c p (some sent)
  | .idPeerChallenge n c data =>
    let (p, sent) := (w.peers n c).processPeerChallenge ec data
    w.handshake n c p (some sent)
  | .idChallengeResponse n c data =>
    w.handshake n c ((w.peers n c).processChallengeResponse ec data) none

/-- The step as one of a run: the nodes take part in any order. -/
def next (ec : Ec PubKey) (pub : Node → PubKey) (w : World PubKey Node)
    (e : Event PubKey Node) : Option (World PubKey Node) := some (w.step ec pub e)

end World

/-- The node has signed the text, in one of the three protocols. -/
def HasSigned (fmt : Format) (w : World PubKey Node) (n : Node) (s : Text) : Prop :=
  (∃ h, (n, h) ∈ w.voted ∧ s = h.toB58) ∨ (n, s) ∈ w.challenged ∨
    ∃ g, (n, g) ∈ w.contributed ∧ s = g.messageToSign fmt

variable (ec : Ec PubKey) (fmt : Format) (pub : Node → PubKey)

/-- Ideal signatures: a delivered vote with a valid signature of an honest key
is one of a text that the node of this key has signed. -/
def Unforged (w : World PubKey Node) : Event PubKey Node → Prop
  | .deliverVote _ s => ∀ d j, VoteTip.parse ec s = some d → d.pubkey = pub j →
      ec.verify d.pubkey d.blockHashB58 d.signature = true → HasSigned fmt w j d.blockHashB58
  | _ => True

/-- No delivered vote has a text that the node of its key signed as a challenge
of the id handshake and not in `vote_tip`. -/
def NotFromHandshake (w : World PubKey Node) : Event PubKey Node → Prop
  | .deliverVote _ s => ∀ d j, VoteTip.parse ec s = some d → d.pubkey = pub j →
      (j, d.blockHashB58) ∈ w.challenged → ∃ h, (j, h) ∈ w.voted ∧ d.blockHashB58 = h.toB58
  | _ => True

/-- A vote of an honest node that is counted by an honest node was cast. -/
def VotesAuthentic (w : World PubKey Node) : Prop :=
  ∀ n j h, (w.votes n).lookup (ec.hash (pub j)) = some h → (j, h) ∈ w.voted

variable {ec fmt pub}

/-- A contribution is not a word: its text has blanks. -/
theorem not_blankFree_messageToSign (g : LocalDeltas PubKey) :
    ¬ BlankFree (g.messageToSign fmt) := by
  intro h
  have := h ' ' (by simp [LocalDeltas.messageToSign])
  exact absurd this (by decide)

/-- The block hash of a vote that is read is one word. -/
theorem isWord_blockHashB58 {s : Text} {d : VoteTip PubKey} (h : VoteTip.parse ec s = some d) :
    IsWord d.blockHashB58 := by
  simp only [VoteTip.parse, Option.bind_eq_bind, Option.bind_eq_some_iff, Option.pure_def,
    Option.some.injEq] at h
  obtain ⟨⟨w, rest⟩, hw, ⟨key, rest'⟩, -, k, -, ⟨sig, rest''⟩, -, rfl⟩ := h
  exact isWord_of_readWord hw

/-- What a correctly signed vote is. -/
theorem ballot_eq_some {s : Text} {k v : Ripemd160} (h : ballot ec s = some (k, v)) :
    ∃ d, VoteTip.parse ec s = some d ∧ ec.verify d.pubkey d.blockHashB58 d.signature = true ∧
      ec.hash d.pubkey = k ∧ Ripemd160.fromB58 d.blockHashB58 = v := by
  unfold ballot at h
  cases hparse : VoteTip.parse ec s with
  | none => simp [hparse] at h
  | some d =>
    simp only [hparse] at h
    split at h
    · rename_i hverify
      obtain ⟨rfl, rfl⟩ := Prod.mk.injEq _ _ _ _ |>.mp (Option.some.inj h)
      exact ⟨d, rfl, hverify, rfl, rfl⟩
    · cases h

omit [DecidableEq Node] in
/-- A correctly signed vote of an honest key, delivered under the condition, is
one that the node has cast: of the three kinds of signed texts only those of
`vote_tip` are left. -/
theorem voted_of_deliverVote {w : World PubKey Node}
    (hcollision : ∀ k j, ec.hash k = ec.hash (pub j) → k = pub j) {n j : Node} {s : Text}
    {h : Ripemd160} (hunforged : Unforged ec fmt pub w (.deliverVote n s))
    (hnot : NotFromHandshake ec pub w (.deliverVote n s))
    (hballot : ballot ec s = some (ec.hash (pub j), h)) : (j, h) ∈ w.voted := by
  obtain ⟨d, hparse, hverify, hkey, rfl⟩ := ballot_eq_some hballot
  have hpub := hcollision d.pubkey j hkey
  have hvoted : (∃ h, (j, h) ∈ w.voted ∧ d.blockHashB58 = h.toB58) →
      (j, Ripemd160.fromB58 d.blockHashB58) ∈ w.voted := by
    rintro ⟨h, hh, heq⟩
    rwa [heq, Ripemd160.fromB58_toB58]
  rcases hunforged d j hparse hpub hverify with hvote | hchallenge | ⟨g, -, hg⟩
  · exact hvoted hvote
  · exact hvoted (hnot d j hparse hpub hchallenge)
  · exact absurd (isWord_blockHashB58 hparse).2 (hg ▸ not_blankFree_messageToSign g)

/-- Adding a vote enters nothing but this vote. -/
theorem lookup_add_eq_some {votes : Votes} {k v k' h : Ripemd160}
    (hlookup : (votes.add k v).1.lookup k' = some h) :
    votes.lookup k' = some h ∨ k' = k ∧ h = v := by
  rw [Votes.lookup_add] at hlookup
  split_ifs at hlookup with hk
  · subst hk
    cases hold : votes.lookup k' with
    | none => exact Or.inr ⟨rfl, by simpa [hold, eq_comm] using hlookup⟩
    | some v' => exact Or.inl (by simpa [hold] using hlookup)
  · exact Or.inl hlookup

/-- One step keeps the counted votes of honest nodes authentic. -/
theorem VotesAuthentic.step {w : World PubKey Node} {e : Event PubKey Node}
    (hpub : Function.Injective pub)
    (hcollision : ∀ k j, ec.hash k = ec.hash (pub j) → k = pub j)
    (hw : VotesAuthentic ec pub w) (hunforged : Unforged ec fmt pub w e)
    (hnot : NotFromHandshake ec pub w e) : VotesAuthentic ec pub (w.step ec pub e) := by
  intro m j h hlookup
  cases e with
  | voteTip n v =>
    by_cases hm : m = n
    · subst hm
      simp only [World.step, Function.update_self] at hlookup
      rcases lookup_add_eq_some hlookup with hold | ⟨hkey, rfl⟩
      · exact List.mem_cons_of_mem _ (hw m j h hold)
      · rw [hpub (hcollision (pub j) m hkey).symm]
        exact List.mem_cons_self
    · simp only [World.step, Function.update_of_ne hm] at hlookup
      exact List.mem_cons_of_mem _ (hw m j h hlookup)
  | select n =>
    by_cases hm : m = n
    · subst hm
      simp [World.step, Votes.select] at hlookup
    · simp only [World.step, Function.update_of_ne hm] at hlookup
      exact hw m j h hlookup
  | deliverVote n s =>
    by_cases hm : m = n
    · subst hm
      simp only [World.step, Function.update_self, processVoteTip] at hlookup
      cases hballot : ballot ec s with
      | none =>
        rw [hballot] at hlookup
        exact hw m j h hlookup
      | some b =>
        rw [hballot] at hlookup
        rcases lookup_add_eq_some hlookup with hold | ⟨hkey, rfl⟩
        · exact hw m j h hold
        · exact voted_of_deliverVote (n := m) (w := w) hcollision hunforged hnot
            (by rw [hballot, hkey])
    · simp only [World.step, Function.update_of_ne hm] at hlookup
      exact hw m j h hlookup
  | createLocalDeltas n g => exact hw m j h hlookup
  | initiateDialogue n c random => exact hw m j h hlookup
  | idRequest n c helloMsg random => exact hw m j h hlookup
  | idPeerChallenge n c data => exact hw m j h hlookup
  | idChallengeResponse n c data => exact hw m j h hlookup

/-- **Vote authenticity.** In every run in which no vote is delivered whose
text was signed only in the id handshake, every counted vote of an honest node
was cast by it. -/
theorem votes_authentic (ec : Ec PubKey) (fmt : Format) (pub : Node → PubKey)
    (hpub : Function.Injective pub)
    (hcollision : ∀ k j, ec.hash k = ec.hash (pub j) → k = pub j)
    {es : List (Event PubKey Node)} {w : World PubKey Node}
    (hunforged : AlongRun (World.next ec pub) (Unforged ec fmt pub) World.init es)
    (hnot : AlongRun (World.next ec pub) (NotFromHandshake ec pub) World.init es)
    (hrun : run (World.next ec pub) World.init es = some w) : VotesAuthentic ec pub w := by
  have hinit : VotesAuthentic ec pub (World.init : World PubKey Node) := by
    intro n j h hlookup
    simp [World.init] at hlookup
  refine run_invariant ?_ hinit (hunforged.and hnot) hrun
  intro w e w' hw ⟨hu, hn⟩ hstep
  cases hstep
  exact hw.step hpub hcollision hu hn

/-! ## Two honest nodes -/

/-- Two keys, written `K` and `L`, whose signatures are the signed texts with
the letter of the key in front. -/
def twoKeys : Ec Bool where
  setB58 s := if s = ['K'] then some true else if s = ['L'] then some false else none
  hash k := Ripemd160.set (if k then 7 else 8)
  verify k text signature := signature = (if k then 'K' else 'L') :: text
  verifyNotNormalized k text signature := signature = (if k then 'K' else 'L') :: text

/-- The two keys have different hashes. -/
theorem twoKeys_hash_injective : Function.Injective twoKeys.hash := by
  unfold Function.Injective
  decide

/-- Prints every number as the empty text. -/
def noDigits : Format := ⟨fun _ => [], by simp [BlankFree]⟩

/-- A hash for which votes are delivered. -/
def someTip : Ripemd160 := Ripemd160.set 1

/-- A vote for it with a valid signature of the key `K`. -/
def voteOfK : Text := someTip.toB58 ++ [' ', 'K', ' ', 'K'] ++ someTip.toB58

/-- The sample vote is read. -/
theorem parse_voteOfK :
    VoteTip.parse twoKeys voteOfK = some ⟨someTip.toB58, true, 'K' :: someTip.toB58⟩ := by
  decide

/-- The node of `K` votes, answers a request with another message, and the
vote is delivered to the node of `L`. -/
def honestRun : List (Event Bool Bool) :=
  [.voteTip true someTip, .idRequest true 0 (Ripemd160.set 2).toB58 (Ripemd160.set 3),
    .deliverVote false voteOfK]

/-- A peer of the node of `K` opens the handshake with a hash as its message,
and delivers the answer to the node of `L` as a vote. -/
def relayedRun : List (Event Bool Bool) :=
  [.idRequest true 0 someTip.toB58 (Ripemd160.set 3), .deliverVote false voteOfK]

/-- A delivery of the vote is not forged once the node of `K` has signed its text. -/
theorem unforged_voteOfK {w : World Bool Bool} (h : HasSigned noDigits w true someTip.toB58) :
    Unforged twoKeys noDigits id w (.deliverVote false voteOfK) := by
  intro d j hparse hpub _
  rw [parse_voteOfK] at hparse
  cases hparse
  rwa [show j = true from hpub.symm]

/-- In the run without a relayed challenge the counted vote is authentic. -/
theorem votes_authentic_honestRun :
    ∃ w, run (World.next twoKeys id) World.init honestRun = some w ∧
      (w.votes false).lookup (twoKeys.hash true) = some someTip ∧
      VotesAuthentic twoKeys id w := by
  have hunforged : AlongRun (World.next twoKeys id) (Unforged twoKeys noDigits id) World.init
      honestRun := by
    refine ⟨trivial, trivial, unforged_voteOfK (Or.inl ⟨someTip, ?_, rfl⟩), trivial⟩
    exact List.mem_cons_self
  have hnot : AlongRun (World.next twoKeys id) (NotFromHandshake twoKeys id) World.init
      honestRun := by
    refine ⟨trivial, trivial, ?_, trivial⟩
    intro d j hparse hpub _
    rw [parse_voteOfK] at hparse
    cases hparse
    exact ⟨someTip, by rw [show j = true from hpub.symm]; exact List.mem_cons_self, rfl⟩
  exact ⟨_, rfl, by decide, votes_authentic twoKeys noDigits id Function.injective_id
    (fun _ _ h => twoKeys_hash_injective h) hunforged hnot rfl⟩

/-- The relayed challenge is counted as a vote that was never cast, although
no signature is forged. -/
theorem challenge_counted_as_vote :
    ∃ w, AlongRun (World.next twoKeys id) (Unforged twoKeys noDigits id) World.init relayedRun ∧
      run (World.next twoKeys id) World.init relayedRun = some w ∧
      ¬ VotesAuthentic twoKeys id w := by
  refine ⟨_, ⟨trivial, unforged_voteOfK (Or.inr (Or.inl ?_)), trivial⟩, rfl, ?_⟩
  · exact List.mem_cons_self
  · intro h
    have hcounted := h false true someTip (by decide)
    exact absurd hcounted List.not_mem_nil

end AcCore.Gov.Engine
