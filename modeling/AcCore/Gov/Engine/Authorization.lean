import AcCore.Gov.Engine.Networking
import AcCore.Gov.Engine.VoteAuth
import Mathlib.Data.List.Nodup
import Mathlib.Tactic.IntervalCases

/-!
# Who is authorized

A connection that is authorized was so for the key that it has now, and no
other connection has this key. The sysop is the exception that the code makes:
his connections are authorized when the node allows a shell, also a second one
with the same key.
-/

namespace AcCore.Gov.Engine

open Lib

variable {PubKey : Type}

/-- The latest verification of the connection succeeded, with the key that the
connection has now. -/
def Peer.Vouched (accepts : Verification PubKey → Prop) (q : Peer PubKey) : Prop :=
  ∃ v, q.latest = some v ∧ v.stagePeer = .verified ∧ v.pubkey = q.id.pubkey ∧ accepts v

/-- The connection is in service and authorized. -/
def Peer.Admitted (q : Peer PubKey) : Prop := q.link = .service ∧ q.auth = .authorized

/-- Disconnecting keeps the identity of the peer. -/
@[simp] theorem Peer.id_disconnectUnauthorized (q : Peer PubKey) :
    q.disconnectUnauthorized.id = q.id := by unfold disconnectUnauthorized; split <;> rfl

/-- Disconnecting keeps the latest verification of the peer. -/
@[simp] theorem Peer.latest_disconnectUnauthorized (q : Peer PubKey) :
    q.disconnectUnauthorized.latest = q.latest := by unfold disconnectUnauthorized; split <;> rfl

/-- Who is not authorized does not stay in service. -/
theorem Peer.admitted_disconnectUnauthorized {q : Peer PubKey} :
    q.disconnectUnauthorized.Admitted ↔ q.Admitted := by
  by_cases h : q.auth = .authorized <;> simp [disconnectUnauthorized, h, Admitted, disconnect]

namespace Networking

/-- Authorization follows the verified identity, but for the keys that are exempt. -/
structure Follows (exempt : Option PubKey → Prop) (s : Networking PubKey) : Prop where
  vouched : ∀ {i : ℕ} {q : Peer PubKey}, s.peers[i]? = some q → q.Admitted →
    q.Vouched fun v => v.authorized = true ∨ exempt v.pubkey
  unique : ∀ {i j : ℕ} {q r : Peer PubKey}, s.peers[i]? = some q → s.peers[j]? = some r →
    q.Admitted → r.Admitted → q.id.pubkey = r.id.pubkey → i = j ∨ exempt q.id.pubkey

variable (σ : Admission PubKey)

/-- The key of the node itself, when the node allows a shell. -/
def IsSysop (k : Option PubKey) : Prop := σ.sysopAllowed = true ∧ k = some σ.nodePubkey

/-- A connection that is authorized already completes the verification of a
further key, not the one of the node, that `authorize` refuses. -/
def SwitchesKey [DecidableEq PubKey] (s : Networking PubKey) : NetworkingEvent → Prop
  | .handshake i e => ∃ q, s.peers[i]? = some q ∧ q.Admitted ∧ e.answer.isSome ∧
      (q.id.react σ.ec e).1.stagePeer = .verified ∧
      (q.id.react σ.ec e).1.pubkey ≠ some σ.nodePubkey ∧
      authorize { s with peers := s.peers.set i { q with id := (q.id.react σ.ec e).1 } }
        (q.id.react σ.ec e).1.pubkey = false
  | _ => False

/-- The invariant of a run: besides, who is authorized is active. -/
structure Guarded (s : Networking PubKey) : Prop extends Follows (IsSysop σ) s where
  active : ∀ {i : ℕ} {q : Peer PubKey}, s.peers[i]? = some q → q.Admitted → i ∈ s.active

variable {σ}

/-- A connection that changes keeps the invariant when, if it is admitted, its
latest verification vouches for it, and no other that is admitted has its key. -/
theorem Guarded.setPeer {s t : Networking PubKey} {i : ℕ} {q : Peer PubKey} (h : Guarded σ s)
    (hpeers : t.peers = s.peers.set i q) (hactive : t.active = s.active)
    (hvouched : q.Admitted → q.Vouched fun v => v.authorized = true ∨ IsSysop σ v.pubkey)
    (hi : q.Admitted → i ∈ s.active)
    (hunique : ∀ {j r}, s.peers[j]? = some r → q.Admitted → r.Admitted → j ≠ i →
      q.id.pubkey = r.id.pubkey → IsSysop σ q.id.pubkey) : Guarded σ t := by
  have hget : ∀ {j r}, t.peers[j]? = some r → j ≠ i ∧ s.peers[j]? = some r ∨ j = i ∧ r = q := by
    intro j r hj
    rw [hpeers, List.getElem?_set] at hj
    split_ifs at hj with hji hlt
    · exact Or.inr ⟨hji.symm, (Option.some.inj hj).symm⟩
    · exact Or.inl ⟨Ne.symm hji, hj⟩
  refine ⟨⟨?_, ?_⟩, ?_⟩
  · intro j r hj hr
    obtain ⟨_, hj⟩ | ⟨rfl, rfl⟩ := hget hj
    · exact h.vouched hj hr
    · exact hvouched hr
  · intro j l r r' hj hl hr hr' hkey
    obtain ⟨hji, hj⟩ | ⟨rfl, rfl⟩ := hget hj
    · obtain ⟨_, hl⟩ | ⟨rfl, rfl⟩ := hget hl
      · exact h.unique hj hl hr hr' hkey
      · exact Or.inr (hkey ▸ hunique hj hr' hr hji hkey.symm)
    · obtain ⟨hli, hl⟩ | ⟨rfl, rfl⟩ := hget hl
      · exact Or.inr (hunique hl hr hr' hli hkey)
      · exact Or.inl rfl
  · intro j r hj hr
    rw [hactive]
    obtain ⟨_, hj⟩ | ⟨rfl, rfl⟩ := hget hj
    · exact h.active hj hr
    · exact hi hr

/-- The override only changes whether the connection is authorized. -/
theorem overrideSysop_eq (q : Peer PubKey) :
    overrideSysop σ q = { q with
      auth := if q.stage = some .sysop then if σ.sysopAllowed then .authorized else .denied
        else q.auth } := by
  unfold overrideSysop
  split_ifs <;> rfl

variable [DecidableEq PubKey]

/-- A key is refused when two active connections have it. -/
theorem authorize_eq_false {s : Networking PubKey} {i j : ℕ} {q r : Peer PubKey}
    (hi : i ∈ s.active) (hj : j ∈ s.active) (hij : i ≠ j) (hq : s.peers[i]? = some q)
    (hr : s.peers[j]? = some r) (hkey : q.id.pubkey = r.id.pubkey) :
    s.authorize q.id.pubkey = false := by
  have hpair : [i, j].Nodup := by simpa using hij
  have hsub : [i, j] ⊆ s.active := by
    intro n hn
    rcases List.mem_cons.mp hn with rfl | hn
    · exact hi
    · rwa [List.mem_singleton.mp hn]
  have hcount := (hpair.subperm hsub).countP_le fun n =>
    (s.peers[n]?).any fun p => decide (q.id.pubkey = p.id.pubkey)
  simp only [List.countP_cons, List.countP_nil, hq, hr, Option.any_some, ← hkey, decide_true,
    if_true] at hcount
  simp only [authorize, isDuplicate, Bool.not_eq_false', decide_eq_true_eq]
  omega

/-- The sysop is who has the key of the node. -/
theorem basicAuthCompleted_eq_sysop (σ : Admission PubKey) (a : Auth.App) (k : PubKey)
    (addr : Auth.Address) :
    (basicAuthCompleted σ a k addr).2 = .sysop ↔ k = σ.nodePubkey := by
  unfold basicAuthCompleted
  split
  · simpa
  · rename_i hk
    simp only [Auth.App.getStage, hk, iff_false]
    split_ifs <;> simp

/-- So does the layer below. -/
theorem authVerificationCompleted_eq (s : Networking PubKey) (q : Peer PubKey) :
    s.authVerificationCompleted q = { q with
      auth := if q.id.stagePeer = .verified ∧ s.authorize q.id.pubkey = true then .authorized
        else q.auth } := by
  unfold authVerificationCompleted
  split_ifs <;> simp_all

/-- What `verification_completed` leaves of a connection: when it stays in
service, the verification went well, and the key was authorized by this one
or an earlier verification, or is that of the sysop. -/
theorem verificationCompleted_spec (σ : Admission PubKey) (s : Networking PubKey) (q : Peer PubKey)
    (hkey : q.id.stagePeer = .verified → q.id.pubkey.isSome) :
    (s.verificationCompleted σ q).2.id = q.id ∧
      (s.verificationCompleted σ q).2.latest =
        some ⟨q.id.stagePeer, q.id.pubkey, s.authorize q.id.pubkey⟩ ∧
      ((s.verificationCompleted σ q).2.Admitted → q.link = .service ∧
        q.id.stagePeer = .verified ∧ (s.authorize q.id.pubkey = true ∨
          IsSysop σ q.id.pubkey ∨ q.auth = .authorized ∧ q.id.pubkey ≠ some σ.nodePubkey)) := by
  unfold verificationCompleted
  simp only [authVerificationCompleted_eq]
  by_cases hverified : q.id.stagePeer = .verified
  · obtain ⟨k, hk⟩ := Option.isSome_iff_exists.mp (hkey hverified)
    have hsysop := basicAuthCompleted_eq_sysop σ s.authApp k q.addr
    simp only [hverified, not_true_eq_false, if_false, ne_eq, hk, Option.elim_some, Prod.map_fst,
      Prod.map_snd, overrideSysop_eq, Option.some.injEq, true_and]
    refine ⟨Peer.id_disconnectUnauthorized _, Peer.latest_disconnectUnauthorized _, fun h => ?_⟩
    obtain ⟨hlink, hauth⟩ := Peer.admitted_disconnectUnauthorized.mp h
    refine ⟨hlink, ?_⟩
    dsimp only at hauth
    by_cases hnode : k = σ.nodePubkey
    · rw [if_pos (hsysop.mpr hnode)] at hauth
      refine Or.inr (Or.inl ⟨?_, by rw [hnode]⟩)
      by_contra hallowed
      rw [if_neg hallowed] at hauth
      cases hauth
    · rw [if_neg fun h => hnode (hsysop.mp h)] at hauth
      by_cases hauthorize : s.authorize (some k) = true
      · exact Or.inl hauthorize
      · rw [if_neg hauthorize] at hauth
        exact Or.inr (Or.inr ⟨hauth, hnode⟩)
  · simp [hverified, Peer.Admitted, Peer.disconnect]

/-- A datagram of the handshake keeps the invariant, unless it switches the key
of an authorized connection. -/
theorem Guarded.processHandshake {s : Networking PubKey} {i : ℕ} {q : Peer PubKey}
    {e : Id.PeerEvent} (h : Guarded σ s) (hq : s.peers[i]? = some q) (hi : i ∈ s.active)
    (hkeeps : ¬ SwitchesKey σ s (.handshake i e)) : Guarded σ (s.processHandshake σ i q e) := by
  obtain ⟨hlt, _⟩ := List.getElem?_eq_some_iff.mp hq
  unfold Networking.processHandshake
  dsimp only
  split
  · rename_i hanswer
    obtain ⟨hid, hlatest, hadmitted⟩ := verificationCompleted_spec σ
      { s with peers := s.peers.set i { q with id := (q.id.react σ.ec e).1 } }
      { q with id := (q.id.react σ.ec e).1 } (Id.Peer.isSome_pubkey_of_answer hanswer)
    dsimp only at hid hlatest hadmitted
    -- Who stays in service was authorized by this verification, or is the sysop.
    have hauthorized : ∀ h : (verificationCompleted σ
        { s with peers := s.peers.set i { q with id := (q.id.react σ.ec e).1 } }
        { q with id := (q.id.react σ.ec e).1 }).2.Admitted,
        (q.id.react σ.ec e).1.stagePeer = .verified ∧
          (authorize { s with peers := s.peers.set i { q with id := (q.id.react σ.ec e).1 } }
            (q.id.react σ.ec e).1.pubkey = true ∨ IsSysop σ (q.id.react σ.ec e).1.pubkey) := by
      intro h
      obtain ⟨hlink, hverified, hauthorized | hsysop | ⟨hauth, hnode⟩⟩ := hadmitted h
      · exact ⟨hverified, Or.inl hauthorized⟩
      · exact ⟨hverified, Or.inr hsysop⟩
      · refine ⟨hverified, Or.inl ?_⟩
        by_contra hrefused
        exact hkeeps ⟨q, hq, ⟨hlink, hauth⟩, hanswer, hverified, hnode, by simpa using hrefused⟩
    refine h.setPeer (List.set_set ..) rfl (fun hadm => ?_) (fun _ => hi) ?_
    · exact ⟨_, hlatest, (hauthorized hadm).1, by rw [hid], (hauthorized hadm).2⟩
    · intro j r hj hadm hr hji hkey
      rw [hid] at hkey ⊢
      refine (hauthorized hadm).2.resolve_left ?_
      rw [authorize_eq_false (s := { s with peers := s.peers.set i _ })
        (q := { q with id := (q.id.react σ.ec e).1 }) (r := r) hi (h.active hj hr) hji.symm
        (by simp [hlt]) (by simp [Ne.symm hji, hj]) hkey]
      exact Bool.false_ne_true
  · rename_i hanswer
    have hpubkey : (q.id.react σ.ec e).1.pubkey = q.id.pubkey :=
      Id.Peer.pubkey_react (by simpa using hanswer)
    refine h.setPeer rfl rfl (fun hadm => ?_) (fun _ => hi) ?_
    · obtain ⟨v, hlatest, hverified, hkey, haccepts⟩ := h.vouched hq hadm
      exact ⟨v, hlatest, hverified, by rw [hkey, hpubkey], haccepts⟩
    · intro j r hj hadm hr hji hkey
      dsimp only at hkey ⊢
      rw [hpubkey] at hkey ⊢
      exact (h.unique hq hj hadm hr hkey).resolve_left (Ne.symm hji)

/-- Every event keeps the invariant, unless it switches the key of an
authorized connection. -/
theorem Guarded.step {s t : Networking PubKey} {e : NetworkingEvent} (h : Guarded σ s)
    (hkeeps : ¬ SwitchesKey σ s e) (ht : s.step σ e = some t) : Guarded σ t := by
  cases e with
  | attach addr connect =>
    cases ht
    have hget : ∀ {j : ℕ} {r : Peer PubKey}, (s.attach addr connect).peers[j]? = some r →
        r.Admitted → s.peers[j]? = some r := by
      intro j r hj hr
      rw [attach, List.getElem?_append] at hj
      split at hj
      · exact hj
      · rw [List.mem_singleton.mp (List.mem_of_getElem? hj)] at hr
        cases hr.2
    exact ⟨⟨fun hj hr => h.vouched (hget hj hr) hr,
      fun hj hl hr hr' => h.unique (hget hj hr) (hget hl hr') hr hr'⟩,
      fun hj hr => h.active (hget hj hr) hr⟩
  | update =>
    cases ht
    refine ⟨⟨h.vouched, h.unique⟩, fun {j r} hj hr => ?_⟩
    obtain ⟨hlt, _⟩ := List.getElem?_eq_some_iff.mp hj
    change s.peers[j]? = some r at hj
    simp [Networking.update, hj, hr.1]
    exact hlt
  | handshake i e =>
    simp only [Networking.step, Option.ite_none_right_eq_some, Option.map_eq_some_iff] at ht
    obtain ⟨hi, q, hq, rfl⟩ := ht
    exact h.processHandshake hq hi hkeeps
  | disconnect i =>
    simp only [Networking.step, Option.map_eq_some_iff] at ht
    obtain ⟨q, hq, rfl⟩ := ht
    have hout : ¬ q.disconnect.Admitted := fun h => nomatch h.1
    exact h.setPeer rfl rfl (fun h => absurd h hout) (fun h => absurd h hout)
      fun _ h => absurd h hout
  | cycle a =>
    cases ht
    exact ⟨⟨h.vouched, h.unique⟩, h.active⟩

end Networking

open Networking in
/-- **Authorization follows the verified identity.** In every state that is
reached without an authorized connection verifying a further key that
`authorize` refuses, a connection in service that is authorized has the key
that its latest verification set, and this key was authorized then or is that
of the sysop; and only the sysop is authorized on two connections. -/
theorem authorization_follows [DecidableEq PubKey] (σ : Admission PubKey) {a : Auth.App}
    {s : Networking PubKey} {es : List NetworkingEvent}
    (hkeeps : AlongRun (Networking.step σ) (fun s e => ¬ SwitchesKey σ s e) (init a) es)
    (h : run (Networking.step σ) (init a) es = some s) : Follows (IsSysop σ) s := by
  have hinit : Guarded σ (init a) := ⟨⟨fun h => by simp [init] at h, fun h => by simp [init] at h⟩,
    fun h => by simp [init] at h⟩
  exact (run_invariant (fun _ _ _ h hC ht => h.step hC ht) hinit hkeeps h).toFollows

/-! ## Two connections -/

/-- A node with the key `K`, with or without a shell. -/
def nodeOfK (sysopAllowed : Bool) : Admission Bool := ⟨twoKeys, true, sysopAllowed⟩

/-- The peer opens the handshake on a connection, and answers the message that
he gets with the key and its signature. -/
def opening (i : ℕ) (letter : Char) (random : Ripemd160) : List NetworkingEvent :=
  [.handshake i (.idRequest [] random),
    .handshake i (.idChallengeResponse ([letter, ' ', letter] ++ random.toB58))]

/-- Two peers connect and are verified with these keys. -/
def twoOpenings (letter letter' : Char) : List NetworkingEvent :=
  [.attach ⟨[], blankFree_nil⟩ none, .attach ⟨[], blankFree_nil⟩ none, .update] ++
    opening 0 letter (Ripemd160.set 5) ++ opening 1 letter' (Ripemd160.set 6)

/-- What the connections of a state are. -/
def Networking.summary (s : Networking Bool) : List (LinkStage × AuthStage × Option Bool) :=
  s.peers.map fun q => (q.link, q.auth, q.id.pubkey)

/-- The event is none of the handshake, or on a connection that is denied. -/
def Networking.onDenied (s : Networking Bool) : NetworkingEvent → Bool
  | .handshake i _ => (s.peers[i]?).all fun q => decide (q.auth = .denied)
  | _ => true

/-- Connections that are denied do not switch their keys. -/
theorem Networking.not_switchesKey {s : Networking Bool} {e : NetworkingEvent} {allowed : Bool}
    (h : s.onDenied e = true) : ¬ SwitchesKey (nodeOfK allowed) s e := by
  cases e with
  | handshake i v =>
    rintro ⟨q, hq, ⟨_, hauth⟩, _⟩
    simp [onDenied, hq, hauth] at h
  | attach addr connect => exact id
  | update => exact id
  | disconnect i => exact id
  | cycle a => exact id

open Networking in
/-- The first of two connections with the key `L` is authorized, the second is
disconnected. -/
theorem authorization_follows_twoOpenings :
    ∃ s, run (Networking.step (nodeOfK false)) (init (Auth.App.create .zero))
        (twoOpenings 'L' 'L') = some s ∧
      s.summary = [(.service, .authorized, some false), (.disconnecting, .denied, some false)] ∧
      Follows (IsSysop (nodeOfK false)) s := by
  have hrun : (run (Networking.step (nodeOfK false)) (init (Auth.App.create .zero))
      (twoOpenings 'L' 'L')).map summary =
        some [(.service, .authorized, some false), (.disconnecting, .denied, some false)] := by
    decide +kernel
  have hdenied : AlongRun (Networking.step (nodeOfK false)) (fun s e => s.onDenied e = true)
      (init (Auth.App.create .zero)) (twoOpenings 'L' 'L') := by decide +kernel
  obtain ⟨s, hs, hsummary⟩ := Option.map_eq_some_iff.mp hrun
  exact ⟨s, hs, hsummary,
    authorization_follows (nodeOfK false) (hdenied.imp fun _ _ => not_switchesKey) hs⟩

open Networking in
/-- With a shell, two connections with the key of the node are both authorized. -/
theorem authorization_of_sysop_twice :
    ¬ ∀ (σ : Admission Bool) (a : Auth.App) (es : List NetworkingEvent) (s : Networking Bool),
      run (Networking.step σ) (init a) es = some s → Follows (fun _ => False) s := by
  intro h
  have hrun : (run (Networking.step (nodeOfK true)) (init (Auth.App.create .zero))
      (twoOpenings 'K' 'K')).map summary =
        some [(.service, .authorized, some true), (.service, .authorized, some true)] := by
    decide +kernel
  obtain ⟨s, hs, hsummary⟩ := Option.map_eq_some_iff.mp hrun
  have hpeer : ∀ i < 2, ∃ q, s.peers[i]? = some q ∧ q.Admitted ∧ q.id.pubkey = some true := by
    intro i hi
    have hget : (s.summary)[i]? = some (.service, .authorized, some true) := by
      rw [hsummary]
      interval_cases i <;> rfl
    rw [summary, List.getElem?_map, Option.map_eq_some_iff] at hget
    obtain ⟨q, hq, heq⟩ := hget
    simp only [Prod.mk.injEq] at heq
    exact ⟨q, hq, ⟨heq.1, heq.2.1⟩, heq.2.2⟩
  obtain ⟨q, hq, hadm, hkey⟩ := hpeer 0 (by omega)
  obtain ⟨r, hr, hadm', hkey'⟩ := hpeer 1 (by omega)
  have hsame := (h (nodeOfK true) _ _ s hs).unique hq hr hadm hadm' (hkey.trans hkey'.symm)
  exact absurd hsame (by simp)

end AcCore.Gov.Engine
