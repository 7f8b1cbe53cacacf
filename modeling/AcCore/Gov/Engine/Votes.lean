import AcCore.Gov.Crypto
import AcCore.Lib.Plurality
import Mathlib.Data.Finmap

/-!
# The vote table of a node

`process_vote_tip` puts the correctly signed votes for a tip into `votes_t`,
one for each key, and stage 2 of the cycle selects the tip from the table.
This file proves on what the selected tip depends, and when two nodes that
receive the same votes in different orders select the same tip.
-/

namespace AcCore.Gov.Engine

open Lib

/-! ## The table -/

/-- `votes_t`: the hash voted for by each key. It is a hash table, so its
entries have no order. -/
abbrev Votes := Finmap fun _ : Ripemd160 => Ripemd160

/-- `votes_t::add`: the first vote of a key is kept. The flag says whether
the vote was new. -/
def Votes.add (votes : Votes) (h v : Ripemd160) : Votes × Bool :=
  match votes.lookup h with
  | some _ => (votes, false)
  | none => (votes.insert h v, true)

/-- `votes_t::select` on the entries in the order in which the hash table
happens to list them: the votes are counted in an ordered map, and a later
candidate replaces an earlier one with `>=`. -/
def selectFrom (entries : List (Σ _ : Ripemd160, Ripemd160)) : Ripemd160 :=
  (lastMost (tally (entries.map Sigma.snd))).getD (Ripemd160.set 0)

/-- The order of the entries does not matter for the selection. -/
theorem selectFrom_perm {entries entries' : List (Σ _ : Ripemd160, Ripemd160)}
    (h : entries.Perm entries') : selectFrom entries = selectFrom entries' := by
  unfold selectFrom
  rw [lastMost_tally_perm (h.map _)]

/-- The hash that `votes_t::select` returns. -/
def Votes.winner (votes : Votes) : Ripemd160 :=
  Quot.liftOn votes.entries selectFrom fun _ _ h => selectFrom_perm h

/-- `votes_t::select`: the winner, and the table it leaves. -/
def Votes.select (votes : Votes) : Ripemd160 × Votes := (votes.winner, ∅)

/-- Whatever the order in which the table lists its entries, the same hash is
selected. -/
theorem Votes.winner_eq_selectFrom {votes : Votes}
    {entries : List (Σ _ : Ripemd160, Ripemd160)} (h : (entries : Multiset _) = votes.entries) :
    votes.winner = selectFrom entries := by
  rw [winner, ← h]
  rfl

/-! ## What a selection counts -/

/-- How many keys vote for a hash. -/
def Votes.support (votes : Votes) (v : Ripemd160) : ℕ :=
  (votes.keys.filter fun k => votes.lookup k = some v).card

/-- The keys that vote for a hash are those of the entries with it. -/
theorem support_eq_countP (votes : Votes) (v : Ripemd160) :
    votes.support v = votes.entries.countP fun e => e.2 = v := by
  have hlookup : ∀ e ∈ votes.entries, (votes.lookup e.1 = some v ↔ e.2 = v) := by
    intro e he
    rw [Finmap.lookup_eq_some_iff.mpr he, Option.some.injEq]
  change (Multiset.filter _ (votes.entries.map Sigma.fst)).card = _
  rw [Multiset.filter_map, Multiset.card_map, ← Multiset.countP_eq_card_filter]
  exact Multiset.countP_congr rfl fun e he => propext (hlookup e he)

/-- The votes of the listed entries are counted once for each key. -/
theorem count_entries {_ : DecidableEq Ripemd160} {votes : Votes}
    {entries : List (Σ _ : Ripemd160, Ripemd160)} (h : (entries : Multiset _) = votes.entries)
    (v : Ripemd160) : (entries.map Sigma.snd).count v = votes.support v := by
  rw [support_eq_countP, ← h, Multiset.coe_countP, List.count, List.countP_map]
  exact List.countP_congr fun e _ => by simp

/-- What happens to the table. -/
inductive VoteEvent where
  /-- A vote of a key arrives. -/
  | add (h v : Ripemd160)
  /-- The tip is selected. -/
  | select

namespace VoteEvent

/-- The votes that arrive. -/
def arriving : List VoteEvent → Multiset (Σ _ : Ripemd160, Ripemd160)
  | [] => 0
  | add h v :: es => {⟨h, v⟩} + arriving es
  | select :: es => arriving es

/-- The votes that the selections of a run count. -/
def counted : Votes → List VoteEvent → Multiset (Σ _ : Ripemd160, Ripemd160)
  | _, [] => 0
  | votes, add h v :: es => counted (votes.add h v).1 es
  | votes, select :: es => votes.entries + counted votes.select.2 es

/-- Every vote that is in the table or arrives is counted at most once. -/
theorem counted_le (votes : Votes) (es : List VoteEvent) :
    counted votes es ≤ votes.entries + arriving es := by
  induction es generalizing votes with
  | nil => exact Multiset.zero_le _
  | cons e es ih =>
    cases e with
    | add h v =>
      have hadd : (votes.add h v).1.entries ≤ votes.entries + {⟨h, v⟩} := by
        unfold Votes.add
        cases hlookup : votes.lookup h with
        | some v' => exact Multiset.le_add_right _ _
        | none =>
          dsimp only
          rw [Finmap.entries_insert_of_notMem (Finmap.lookup_eq_none.mp hlookup), add_comm,
            Multiset.singleton_add]
      calc counted (votes.add h v).1 es
          ≤ (votes.add h v).1.entries + arriving es := ih _
        _ ≤ votes.entries + {⟨h, v⟩} + arriving es := add_le_add_left hadd _
        _ = votes.entries + arriving (add h v :: es) := add_assoc _ _ _
    | select =>
      have hempty : (∅ : Votes).entries + arriving es = arriving es := zero_add _
      exact add_le_add_right (hempty ▸ ih ∅) _

/-- From an empty table, only votes that arrive are counted. -/
theorem counted_empty_le (es : List VoteEvent) : counted ∅ es ≤ arriving es := by
  have hempty : (∅ : Votes).entries + arriving es = arriving es := zero_add _
  exact hempty ▸ counted_le ∅ es

end VoteEvent

/-- **Vote counting.** In whatever order the table lists its entries, `select`
returns the hash that the most keys vote for, the greatest of them in the order
of the hashes, or zero when there are no votes. It leaves the table empty, and in
no run is a vote counted in two selections. -/
theorem select_greatest (votes : Votes) {entries : List (Σ _ : Ripemd160, Ripemd160)}
    (h : (entries : Multiset _) = votes.entries) :
    votes.select = (selectFrom entries, ∅) ∧
      (votes = ∅ → selectFrom entries = Ripemd160.zero) ∧
      (votes ≠ ∅ → 0 < votes.support (selectFrom entries) ∧
        ∀ v, votes.support v < votes.support (selectFrom entries) ∨
          votes.support v = votes.support (selectFrom entries) ∧
            (v = selectFrom entries ∨ v.lt (selectFrom entries) = true)) ∧
      ∀ es, VoteEvent.counted ∅ es ≤ VoteEvent.arriving es := by
  refine ⟨by rw [Votes.select, Votes.winner_eq_selectFrom h], fun hempty => ?_, fun hne => ?_,
    VoteEvent.counted_empty_le⟩
  · have hnil : entries = [] := by
      rw [← Multiset.coe_eq_zero, h, hempty]
      rfl
    rw [hnil]
    rfl
  · have hvotes : entries.map Sigma.snd ≠ [] := by
      intro hnil
      obtain rfl : entries = [] := List.map_eq_nil_iff.mp hnil
      exact hne (Finmap.ext h.symm)
    obtain ⟨a, ha, hmem, hmost⟩ := lastMost_tally hvotes
    have hselect : selectFrom entries = a := by rw [selectFrom, ha, Option.getD_some]
    simp only [count_entries h] at hmost
    rw [hselect]
    refine ⟨by rw [← count_entries h]; exact List.count_pos_iff.mpr hmem, fun v => ?_⟩
    by_cases hv : v ∈ entries.map Sigma.snd
    · refine (hmost v hv).imp_right fun ⟨hcount, hle⟩ => ⟨hcount, ?_⟩
      rw [Ripemd160.lt_eq_true_iff]
      exact hle.eq_or_lt
    · have hzero : votes.support v = 0 := by
        rw [← count_entries h]
        exact List.count_eq_zero.mpr hv
      have hpos : 0 < votes.support a := by
        rw [← count_entries h]
        exact List.count_pos_iff.mpr hmem
      exact Or.inl (hzero.trans_lt hpos)

/-- Two keys vote for each of two hashes, and one for a third. -/
def tiedEntries : List (Σ _ : Ripemd160, Ripemd160) :=
  [⟨Ripemd160.set 1, Ripemd160.set 6⟩, ⟨Ripemd160.set 2, Ripemd160.set 5⟩,
    ⟨Ripemd160.set 3, Ripemd160.set 9⟩, ⟨Ripemd160.set 4, Ripemd160.set 5⟩,
    ⟨Ripemd160.set 5, Ripemd160.set 6⟩]

/-- The table of these votes. -/
def tiedVotes : Votes where
  entries := tiedEntries
  nodupKeys := Multiset.coe_nodupKeys.mpr (by unfold List.NodupKeys; decide)

/-- Of tied votes the greatest tip is selected. -/
theorem select_greatest_tied : tiedVotes.select = (Ripemd160.set 6, ∅) :=
  (select_greatest tiedVotes rfl).1.trans (by decide)

/-- The first vote of a node counts. -/
theorem Votes.lookup_add (votes : Votes) (h v k : Ripemd160) :
    (votes.add h v).1.lookup k =
      if k = h then some ((votes.lookup h).getD v) else votes.lookup k := by
  unfold add
  by_cases hk : k = h
  · subst hk
    cases hlookup : votes.lookup k with
    | none => simp
    | some v' => simp [hlookup]
  · cases hlookup : votes.lookup h with
    | none => simp [hk, Finmap.lookup_insert_of_ne _ hk]
    | some v' => simp [hk]

/-! ## Votes from the network -/

variable {PubKey : Type} (ec : Ec PubKey)

/-- A `vote_tip` message, as read from the payload of its datagram. -/
structure VoteTip (PubKey : Type) where
  blockHashB58 : Text
  pubkey : PubKey
  signature : Text
  deriving DecidableEq

/-- The extractions of `process_vote_tip`. A key that cannot be read makes the
stream fail, so that the signature stays empty and no signature is verified. -/
def VoteTip.parse (s : Text) : Option (VoteTip PubKey) := do
  let (blockHashB58, s) ← readWord s
  let (key, s) ← readWord s
  let pubkey ← ec.setB58 key
  let (signature, _) ← readWord s
  return ⟨blockHashB58, pubkey, signature⟩

/-- The key and the hash of a correctly signed vote. -/
def ballot (s : Text) : Option (Ripemd160 × Ripemd160) :=
  match VoteTip.parse ec s with
  | none => none
  | some d =>
    if ec.verify d.pubkey d.blockHashB58 d.signature then
      some (ec.hash d.pubkey, Ripemd160.fromB58 d.blockHashB58)
    else none

/-- `daemon::process_vote_tip`: the table after the message, and whether the
vote is new, in which case a node relays it. -/
def processVoteTip (votes : Votes) (s : Text) : Votes × Bool :=
  match ballot ec s with
  | none => (votes, false)
  | some (h, v) => votes.add h v

/-- The table after a sequence of messages. -/
def deliver (msgs : List Text) : Votes :=
  msgs.foldl (fun votes s => (processVoteTip ec votes s).1) ∅

/-- The tip that stage 2 selects after a sequence of messages. -/
def tipAfter (msgs : List Text) : Ripemd160 := (deliver ec msgs).select.1

/-- The correctly signed votes of a sequence of messages. -/
def ballots (msgs : List Text) : List (Ripemd160 × Ripemd160) := msgs.filterMap (ballot ec)

/-- What a key voted first. -/
def firstVote (msgs : List Text) (k : Ripemd160) : Option Ripemd160 :=
  ((ballots ec msgs).find? fun b => b.1 = k).map Prod.snd

/-- The table holds the first vote of every key. -/
theorem lookup_deliver (msgs : List Text) (k : Ripemd160) :
    (deliver ec msgs).lookup k = firstVote ec msgs k := by
  induction msgs using List.reverseRecOn with
  | nil => simp [deliver, firstVote, ballots]
  | append_singleton msgs s ih =>
    have hstep : deliver ec (msgs ++ [s]) = (processVoteTip ec (deliver ec msgs) s).1 := by
      simp [deliver]
    rw [hstep]
    unfold processVoteTip
    cases hs : ballot ec s with
    | none => simp [ih, firstVote, ballots, hs]
    | some b =>
      obtain ⟨h, v⟩ := b
      have hfirst : firstVote ec (msgs ++ [s]) k =
          (firstVote ec msgs k).or (if h = k then some v else none) := by
        simp only [firstVote, ballots, List.filterMap_append, List.find?_append]
        by_cases hk : h = k <;> cases hf : (List.filterMap (ballot ec) msgs).find? fun b => b.1 = k
          <;> simp [hs, hk]
      simp only [Votes.lookup_add, hfirst]
      by_cases hk : k = h
      · subst hk
        rw [ih]
        cases firstVote ec msgs k <;> simp
      · rw [if_neg hk, ih, if_neg (Ne.symm hk)]
        simp

/-- The selected tip is a function of the first vote of every key. -/
theorem tipAfter_eq_of_firstVote {msgs msgs' : List Text}
    (h : ∀ k, firstVote ec msgs k = firstVote ec msgs' k) :
    tipAfter ec msgs = tipAfter ec msgs' := by
  have htable : deliver ec msgs = deliver ec msgs' := by
    apply Finmap.ext_lookup
    intro k
    rw [lookup_deliver, lookup_deliver, h]
  rw [tipAfter, tipAfter, htable]

/-! ## Delivery orders of one set of votes -/

/-- The sequence delivers exactly the messages of the set, in some order and
perhaps several times. -/
def Delivers (M msgs : List Text) : Prop := ∀ s, s ∈ msgs ↔ s ∈ M

/-- The table keeps one of the votes of every key that voted. -/
def KeepsOneEach (M : List Text) (votes : Votes) : Prop :=
  (∀ k v, votes.lookup k = some v → (k, v) ∈ ballots ec M) ∧
    ∀ b ∈ ballots ec M, b.1 ∈ votes

variable {ec}

/-- The ballots are those of the messages. -/
theorem mem_ballots {msgs : List Text} {b : Ripemd160 × Ripemd160} :
    b ∈ ballots ec msgs ↔ ∃ s ∈ msgs, ballot ec s = some b := by
  simp [ballots]

/-- Deliveries of the same messages have the same ballots. -/
theorem Delivers.mem_ballots {M msgs : List Text} (h : Delivers M msgs)
    {b : Ripemd160 × Ripemd160} : b ∈ ballots ec msgs ↔ b ∈ ballots ec M := by
  simp only [Engine.mem_ballots, h _]

/-- The first vote of a node is one of the ballots. -/
theorem firstVote_eq_some {msgs : List Text} {k v : Ripemd160}
    (h : firstVote ec msgs k = some v) : (k, v) ∈ ballots ec msgs := by
  obtain ⟨b, hb, rfl⟩ := Option.map_eq_some_iff.mp h
  have hk : b.1 = k := by simpa using List.find?_some hb
  exact hk ▸ List.mem_of_find?_eq_some hb

/-- A node with a ballot has a first vote. -/
theorem firstVote_isSome {msgs : List Text} {b : Ripemd160 × Ripemd160}
    (h : b ∈ ballots ec msgs) : (firstVote ec msgs b.1).isSome := by
  rw [firstVote, Option.isSome_map, List.find?_isSome]
  exact ⟨b, h, by simp⟩

/-- Every delivery order leaves a table with one of the votes of each key. -/
theorem Delivers.keepsOneEach {M msgs : List Text} (h : Delivers M msgs) :
    KeepsOneEach ec M (deliver ec msgs) := by
  constructor
  · intro k v hv
    rw [lookup_deliver] at hv
    exact h.mem_ballots.mp (firstVote_eq_some hv)
  · intro b hb
    rw [← Finmap.lookup_isSome, lookup_deliver]
    exact firstVote_isSome (h.mem_ballots.mpr hb)

/-- The message is a vote that the table keeps. -/
def IsKept (ec : Ec PubKey) (votes : Votes) (s : Text) : Bool :=
  match ballot ec s with
  | none => false
  | some (k, v) => votes.lookup k = some v

/-- The ballots that are kept are those in the table. -/
theorem mem_ballots_kept {M : List Text} {votes : Votes} {k v : Ripemd160} :
    (k, v) ∈ ballots ec (M.filter (IsKept ec votes)) ↔
      (k, v) ∈ ballots ec M ∧ votes.lookup k = some v := by
  simp only [mem_ballots, List.mem_filter]
  constructor
  · rintro ⟨s, ⟨hs, hkept⟩, hballot⟩
    simp only [IsKept, hballot, decide_eq_true_eq] at hkept
    exact ⟨⟨s, hs, hballot⟩, hkept⟩
  · rintro ⟨⟨s, hs, hballot⟩, hkept⟩
    exact ⟨s, ⟨hs, by simp [IsKept, hballot, hkept]⟩, hballot⟩

/-- A vote that comes first in a sequence stays first when more follows. -/
theorem firstVote_append {msgs : List Text} {k v : Ripemd160}
    (h : firstVote ec msgs k = some v) (msgs' : List Text) :
    firstVote ec (msgs ++ msgs') k = some v := by
  obtain ⟨b, hb, rfl⟩ := Option.map_eq_some_iff.mp h
  rw [ballots] at hb
  simp [firstVote, ballots, List.filterMap_append, List.find?_append, hb]

/-- Every choice of one vote of each key is left by some delivery order: the
chosen votes arrive first. -/
theorem KeepsOneEach.exists_delivers {M : List Text} {votes : Votes}
    (h : KeepsOneEach ec M votes) : ∃ msgs, Delivers M msgs ∧ deliver ec msgs = votes := by
  have hdelivers : Delivers M (M.filter (IsKept ec votes) ++ M) := by
    intro s
    rw [List.mem_append, List.mem_filter]
    tauto
  refine ⟨M.filter (IsKept ec votes) ++ M, hdelivers, ?_⟩
  apply Finmap.ext_lookup
  intro k
  rw [lookup_deliver]
  cases hk : votes.lookup k with
  | none =>
    rw [← Option.not_isSome_iff_eq_none]
    intro hsome
    obtain ⟨v, hv⟩ := Option.isSome_iff_exists.mp hsome
    have hmem := hdelivers.mem_ballots.mp (firstVote_eq_some hv)
    exact Finmap.lookup_eq_none.mp hk (h.2 _ hmem)
  | some v =>
    have hkept := mem_ballots_kept.mpr ⟨h.1 k v hk, hk⟩
    obtain ⟨v', hv'⟩ := Option.isSome_iff_exists.mp (firstVote_isSome hkept)
    have hsame := (mem_ballots_kept.mp (firstVote_eq_some hv')).2
    rw [firstVote_append hv', ← hsame, hk]

/-- Without double votes every delivery order selects one tip. -/
theorem tipAfter_eq_of_single_votes {M : List Text}
    (hsingle : ∀ k v v', (k, v) ∈ ballots ec M → (k, v') ∈ ballots ec M → v = v')
    {msgs msgs' : List Text} (h : Delivers M msgs) (h' : Delivers M msgs') :
    tipAfter ec msgs = tipAfter ec msgs' := by
  apply tipAfter_eq_of_firstVote
  intro k
  rw [← lookup_deliver, ← lookup_deliver]
  obtain ⟨hfrom, hall⟩ : KeepsOneEach ec M (deliver ec msgs) := h.keepsOneEach
  obtain ⟨hfrom', hall'⟩ : KeepsOneEach ec M (deliver ec msgs') := h'.keepsOneEach
  cases hk : (deliver ec msgs).lookup k with
  | none =>
    symm
    rw [Finmap.lookup_eq_none] at hk ⊢
    intro hmem
    obtain ⟨v, hv⟩ := Finmap.mem_iff.mp hmem
    exact hk (hall _ (hfrom' k v hv))
  | some v =>
    obtain ⟨v', hv'⟩ := Finmap.mem_iff.mp (hall' _ (hfrom k v hk))
    rw [hv', hsingle k v v' (hfrom k v hk) (hfrom' k v' hv')]

/-- **Tip agreement.** Two delivery orders of one set of votes select the same
tip whenever the first vote of every key is the same in both. All delivery
orders select one tip exactly when every choice of one vote of each key has
the same winner. -/
theorem tip_agreement (ec : Ec PubKey) (M : List Text) :
    (∀ msgs msgs', Delivers M msgs → Delivers M msgs' →
        (∀ k, firstVote ec msgs k = firstVote ec msgs' k) →
        tipAfter ec msgs = tipAfter ec msgs') ∧
      ((∀ msgs msgs', Delivers M msgs → Delivers M msgs' →
          tipAfter ec msgs = tipAfter ec msgs') ↔
        ∀ votes votes', KeepsOneEach ec M votes → KeepsOneEach ec M votes' →
          votes.winner = votes'.winner) := by
  refine ⟨fun _ _ _ _ h => tipAfter_eq_of_firstVote ec h, ?_, ?_⟩
  · intro h votes votes' hv hv'
    obtain ⟨msgs, hmsgs, rfl⟩ := hv.exists_delivers
    obtain ⟨msgs', hmsgs', rfl⟩ := hv'.exists_delivers
    exact h msgs msgs' hmsgs hmsgs'
  · intro h msgs msgs' hmsgs hmsgs'
    exact h _ _ hmsgs.keepsOneEach hmsgs'.keepsOneEach

/-- One key, written `K`, that signs a text with the text itself. -/
def oneKey : Ec Unit where
  setB58 s := if s = ['K'] then some () else none
  hash _ := Ripemd160.set 7
  verify _ text signature := text = signature
  verifyNotNormalized _ text signature := text = signature

/-- A vote of the one key. -/
def voteText (h : Ripemd160) : Text := h.toB58 ++ [' ', 'K', ' '] ++ h.toB58

/-- Votes of the one key for two hashes. -/
def doubleVote : List Text := [voteText (Ripemd160.set 1), voteText (Ripemd160.set 2)]

/-- A key that votes for two hashes splits the nodes: each keeps the vote that
it received first. -/
theorem double_vote_splits :
    Delivers doubleVote doubleVote ∧ Delivers doubleVote doubleVote.reverse ∧
      tipAfter oneKey doubleVote ≠ tipAfter oneKey doubleVote.reverse :=
  ⟨fun _ => Iff.rfl, fun _ => List.mem_reverse, by decide⟩

end AcCore.Gov.Engine
