import AcCore.Gov.Cash.Balance
import AcCore.Gov.Engine.Relay
import AcCore.Gov.Engine.VoteAuth
import AcCore.Lib.HashChain
import AcCore.Lib.Run

/-!
# What the last block says about the ledger

A node imports blocks in two ways: the one that it has formed, when the network votes for
it, and those that `syncd` finds on the disk. Each of them names the block before it. So
the hash of the last block that a node has imported says which blocks it has imported
since its db was last cleared, and with them what its ledger is.
-/

namespace AcCore.Gov.Engine

open Lib Gov.Cash

/-! ## What is written -/

/-- Different hashes have different base58 texts. -/
theorem toB58_injective : Function.Injective Ripemd160.toB58 :=
  Function.LeftInverse.injective Ripemd160.fromB58_toB58

/-- Different integers print differently. -/
theorem intText_injective : Function.Injective intText := by
  have hminus : ∀ m n, natText m ≠ '-' :: natText n := by
    intro m n h
    have hdigit : '-'.isDigit = true :=
      Nat.isDigit_of_mem_toDigits (by decide) (by decide)
        (show '-' ∈ natText m by rw [h]; exact List.mem_cons_self)
    cases hdigit
  intro i j h
  cases i with
  | ofNat m =>
    cases j with
    | ofNat n => rw [natText_injective h]
    | negSucc n => exact absurd h (hminus _ _)
  | negSucc m =>
    cases j with
    | ofNat n => exact absurd h.symm (hminus _ _)
    | negSucc n => rw [Nat.succ_injective (natText_injective (List.cons.inj h).2)]

section Listed

variable {α : Type*} {f : α → List Text} {k : ℕ}

/-- Entries of one length that are written one after the other can be told apart. -/
theorem flatMap_inj (hk : ∀ a, (f a).length = k) (hf : Function.Injective f) {as bs : List α}
    (hlength : as.length = bs.length) (h : as.flatMap f = bs.flatMap f) : as = bs := by
  induction as generalizing bs with
  | nil => exact (List.length_eq_zero_iff.mp hlength.symm).symm
  | cons a as ih =>
    obtain ⟨b, bs, rfl⟩ := List.exists_cons_of_length_eq_add_one hlength.symm
    rw [List.flatMap_cons, List.flatMap_cons] at h
    obtain ⟨hfirst, hrest⟩ := List.append_inj h ((hk a).trans (hk b).symm)
    rw [hf hfirst, ih (Nat.succ_injective hlength) hrest]

/-- A list that is written with its length in front can be told from what follows. -/
theorem listed_inj (hk : ∀ a, (f a).length = k) (hf : Function.Injective f) {as bs : List α}
    {rest rest' : List Text}
    (h : natText as.length :: (as.flatMap f ++ rest) =
      natText bs.length :: (bs.flatMap f ++ rest')) : as = bs ∧ rest = rest' := by
  obtain ⟨hcount, hwords⟩ := List.cons.inj h
  have hlength : as.length = bs.length := natText_injective hcount
  have hsame : (as.flatMap f).length = (bs.flatMap f).length := by
    simp only [List.length_flatMap, hk, List.map_const', List.sum_replicate, hlength]
  obtain ⟨hlist, hrest⟩ := List.append_inj hwords hsame
  exact ⟨flatMap_inj hk hf hlength hlist, hrest⟩

end Listed

/-- Tables that list the same entries are the same. -/
theorem toList_injective {α : Type*} {t t' : Table Ripemd160 α}
    (h : Table.toList t = Table.toList t') : t = t' := by
  refine Finmap.ext_lookup fun k => Option.ext fun a => ?_
  rw [← Table.mem_toList, ← Table.mem_toList, h]

variable {fmt : Format}

/-- Policies print as one word each. -/
theorem length_policiesWords_eq {n : ℕ} (p : Policies n) : (policiesWords fmt p).length = n :=
  List.length_ofFn

/-- Policies can be told from what follows. -/
theorem policiesWords_append_inj {n : ℕ} {p p' : Policies n} {rest rest' : List Text}
    (h : policiesWords fmt p ++ rest = policiesWords fmt p' ++ rest') : rest = rest' :=
  (List.append_inj h ((length_policiesWords_eq p).trans (length_policiesWords_eq p').symm)).2

/-- The text of a pool says which accounts it has and what the fees are. -/
theorem poolWords_inj {g g' : Cash.LocalDelta} {rest rest' : List Text}
    (h : g.words fmt ++ rest = g'.words fmt ++ rest') :
    g.accounts = g'.accounts ∧ g.fees = g'.fees ∧ rest = rest' := by
  simp only [Cash.LocalDelta.words, ← length_toList, List.cons_append, List.append_assoc] at h
  have hentry : Function.Injective fun e : Ripemd160 × Account =>
      [e.1.toB58, e.2.lockingProgram.toB58, intText e.2.box] := by
    rintro ⟨x, program, box⟩ ⟨x', program', box'⟩ h
    obtain ⟨hx, hprogram, hbox⟩ : x.toB58 = x'.toB58 ∧ program.toB58 = program'.toB58 ∧
        intText box = intText box' := by simpa using h
    rw [toB58_injective hx, toB58_injective hprogram, intText_injective hbox]
  obtain ⟨haccounts, htail⟩ := listed_inj (k := 3) (by intro e; rfl) hentry h
  obtain ⟨hfees, htail⟩ := List.cons.inj htail
  exact ⟨toList_injective haccounts, intText_injective hfees, policiesWords_append_inj htail⟩

/-- The part of a text about the auth app can be told from what follows. -/
theorem authWords_append_inj {a a' : Auth.Delta} {rest rest' : List Text}
    (h : a.words fmt ++ rest = a'.words fmt ++ rest') : rest = rest' := by
  have hcount : natText (Table.keyList a.toHall).length =
      natText (Table.keyList a'.toHall).length := (List.cons.inj h).1
  refine (List.append_inj h ?_).2
  simp only [Auth.Delta.words, List.length_append, List.length_cons, Auth.Delta.length_hallWords,
    length_policiesWords_eq, natText_injective hcount]

/-- What of a block is for the ledger: the accounts and the fees of the pool. -/
def Diff.ledgerPart (d : Diff) : Option (Accounts × ℤ) :=
  d.cash.map fun c => (c.g.accounts, c.g.fees)

/-- Works that print the same are the same. -/
theorem powWords_inj {pow pow' : Table Ripemd160 ℕ} (h : Diff.powWords pow = Diff.powWords pow') :
    pow = pow' := by
  simp only [Diff.powWords, ← length_toList] at h
  have hentry : Function.Injective fun e : Ripemd160 × ℕ => [e.1.toB58, natText e.2] := by
    rintro ⟨x, n⟩ ⟨x', n'⟩ h
    obtain ⟨hx, hn⟩ : x.toB58 = x'.toB58 ∧ natText n = natText n' := by simpa using h
    rw [toB58_injective hx, natText_injective hn]
  rw [← List.append_nil (List.flatMap _ _), ← List.append_nil (List.flatMap _ (Table.toList pow'))]
    at h
  exact toList_injective (listed_inj (k := 2) (by intro e; rfl) hentry h).1

/-- The part of a text about the cash app, and what follows. -/
theorem cashWords_append_inj {c c' : Option Cash.Delta} {rest rest' : List Text}
    (hcount : c.toList.length = c'.toList.length)
    (h : Diff.cashWords fmt c ++ rest = Diff.cashWords fmt c' ++ rest') :
    (c.map fun c => (c.g.accounts, c.g.fees)) = (c'.map fun c => (c.g.accounts, c.g.fees)) ∧
      rest = rest' := by
  cases c with
  | none =>
    cases c' with
    | none => exact ⟨rfl, h⟩
    | some c' => cases hcount
  | some c =>
    cases c' with
    | none => cases hcount
    | some c' =>
      have hwords : c.words fmt ++ rest = c'.words fmt ++ rest' := (List.cons.inj h).2
      simp only [Cash.Delta.words, List.append_assoc] at hwords
      obtain ⟨haccounts, hfees, htail⟩ := poolWords_inj hwords
      refine ⟨?_, policiesWords_append_inj htail⟩
      rw [Option.map_some, Option.map_some, haccounts, hfees]

/-- The text of a block says which block it follows, and what it does to the ledger. -/
theorem Diff.parts_eq_of_toStream {d d' : Diff} (h : d.toStream fmt = d'.toStream fmt) :
    d.prev = d'.prev ∧ d.ledgerPart = d'.ledgerPart ∧ d.proofOfWork = d'.proofOfWork := by
  have hwords := (Diff.toStream_eq_iff fmt).mp h
  simp only [Diff.words, List.cons_append, List.nil_append] at hwords
  obtain ⟨hprev, hwords⟩ := List.cons.inj hwords
  obtain ⟨hcount, hwords⟩ := List.cons.inj hwords
  have hcount := natText_injective hcount
  refine ⟨toB58_injective hprev, ?_⟩
  have hne : natText Auth.appId ≠ natText Cash.appId := by decide
  cases ha : d.auth with
  | none =>
    cases ha' : d'.auth with
    | none =>
      rw [ha, ha'] at hcount hwords
      obtain ⟨hcash, hpow⟩ := cashWords_append_inj (Nat.add_left_cancel hcount) hwords
      exact ⟨hcash, powWords_inj hpow⟩
    | some a' =>
      -- the numbers of apps are equal, so that the cash app is first in `d`
      rw [ha, ha'] at hcount hwords
      cases hc : d.cash with
      | none =>
        simp only [hc, Option.toList_none, Option.toList_some, List.length_nil,
          List.length_singleton] at hcount
        omega
      | some c =>
        rw [hc] at hwords
        exact absurd (List.cons.inj hwords).1.symm hne
  | some a =>
    cases ha' : d'.auth with
    | none =>
      rw [ha, ha'] at hcount hwords
      cases hc : d'.cash with
      | none =>
        simp only [hc, Option.toList_none, Option.toList_some, List.length_nil,
          List.length_singleton] at hcount
        omega
      | some c =>
        rw [hc] at hwords
        exact absurd (List.cons.inj hwords).1 hne
    | some a' =>
      rw [ha, ha'] at hcount hwords
      have hrest := authWords_append_inj (List.cons.inj hwords).2
      obtain ⟨hcash, hpow⟩ := cashWords_append_inj (Nat.add_left_cancel hcount) hrest
      exact ⟨hcash, powWords_inj hpow⟩

/-! ## The ledger of a chain -/

/-- The blocks of a node are chained by their hashes. The first names the zero hash. -/
def blockChaining (ripemd : List UInt8 → Ripemd160) (fmt : Format) :
    Chaining Diff Text Ripemd160 where
  content := Diff.toStream fmt
  digest t := ripemd (t.map fun c => UInt8.ofNat c.toNat)
  prev := Diff.prev
  origin := Ripemd160.zero
  prev_eq h := (Diff.parts_eq_of_toStream h).1

/-- What importing a block does to the ledger. The generator that draws one of the
contributors starts from the block before, so that the draw is `draw` of this block and of
their number. -/
def importLedger (draw : Ripemd160 → ℕ → ℕ) (last : Ripemd160) (d : Diff) (db : Db) : Db :=
  d.cash.elim db fun c =>
    App.spread wrapInt64 { db with accounts := db.accounts.importAccounts c.g.accounts } c.g.fees
      d.proofOfWork (draw last (Table.keyList d.proofOfWork).length)

/-- Diffs of the same text have the same effect on the ledger. -/
theorem importLedger_congr {draw : Ripemd160 → ℕ → ℕ} {d d' : Diff} (last : Ripemd160) (db : Db)
    (h : d.toStream fmt = d'.toStream fmt) :
    importLedger draw last d db = importLedger draw last d' db := by
  obtain ⟨-, hledger, hpow⟩ := Diff.parts_eq_of_toStream h
  unfold Diff.ledgerPart at hledger
  unfold importLedger
  rw [hpow]
  cases hc : d.cash with
  | none =>
    rw [hc, Option.map_none, eq_comm, Option.map_eq_none_iff] at hledger
    rw [hledger]
  | some c =>
    rw [hc, Option.map_some, eq_comm, Option.map_eq_some_iff] at hledger
    obtain ⟨c', hc', hparts⟩ := hledger
    obtain ⟨haccounts, hfees⟩ := Prod.mk.inj hparts
    rw [hc', Option.elim_some, Option.elim_some, haccounts, hfees]

/-- The ledger after a chain. -/
def ledgerOf (ripemd : List UInt8 → Ripemd160) (fmt : Format) (draw : Ripemd160 → ℕ → ℕ) :
    List Diff → Db :=
  (blockChaining ripemd fmt).replay (importLedger draw) Db.cleared

/-- The hash of the last block of a chain commits to the ledger after it. -/
theorem ledgerOf_eq_or_broken {ripemd : List UInt8 → Ripemd160} {draw : Ripemd160 → ℕ → ℕ}
    {ds ds' : List Diff} (h : (blockChaining ripemd fmt).Chained ds)
    (h' : (blockChaining ripemd fmt).Chained ds')
    (htip : (blockChaining ripemd fmt).tip ds = (blockChaining ripemd fmt).tip ds') :
    ledgerOf ripemd fmt draw ds = ledgerOf ripemd fmt draw ds' ∨
      (blockChaining ripemd fmt).Broken ds ds' :=
  Chaining.replay_eq_or_broken (fun last db hsame => importLedger_congr last db hsame) Db.cleared
    h h' htip

/-! ## A node -/

namespace Daemon

variable {PubKey : Type} {σ : Setting PubKey} {draw : Ripemd160 → ℕ → ℕ}

/-- The contributor that gets the remainder is drawn as `draw` says. -/
def DrawsBy (draw : Ripemd160 → ℕ → ℕ) (s : Daemon) : DaemonEvent PubKey → Prop
  | .patchDb d _ drawn => drawn = draw s.lastBlockImported (Table.keyList d.proofOfWork).length
  | .stage2 _ drawn => ∀ d, s.newDiff = some d →
    drawn = draw s.lastBlockImported (Table.keyList d.proofOfWork).length
  | _ => True

/-- The blocks that a node has at hand: those that it has formed, and those that the disk
has held. -/
def Holds (es : List (DaemonEvent PubKey)) (s : Daemon) (d : Diff) : Prop :=
  d ∈ s.formed ∨ ∃ picks drawn, .patchDb d picks drawn ∈ es

/-- The ledger of a node is that of a chain which ends with the last block that the node has
imported. -/
structure Reflects (σ : Setting PubKey) (draw : Ripemd160 → ℕ → ℕ) (P : Daemon → Diff → Prop)
    (s : Daemon) (ds : List Diff) : Prop where
  chained : (blockChaining σ.ripemd σ.fmt).Chained ds
  tip : s.lastBlockImported = (blockChaining σ.ripemd σ.fmt).tip ds
  ledger : s.cash.db = ledgerOf σ.ripemd σ.fmt draw ds
  held : ∀ d ∈ ds, P s d

/-- A node reflects some chain, and has its new diff at hand. -/
structure Committed (σ : Setting PubKey) (draw : Ripemd160 → ℕ → ℕ)
    (es : List (DaemonEvent PubKey)) (s : Daemon) : Prop where
  reflects : ∃ ds, s.Reflects σ draw (Holds es) ds
  newDiff : ∀ d, s.newDiff = some d → s.Holds es d

variable {es : List (DaemonEvent PubKey)} {s s' : Daemon}

/-- The first daemon is committed to no block. -/
theorem committed_init : (init σ).Committed σ draw es where
  reflects := ⟨[], True.intro, rfl, rfl, fun _ hd => absurd hd List.not_mem_nil⟩
  newDiff _ hd := by cases hd

/-- A block is still held when more are formed. -/
theorem Holds.mono (hformed : ∀ d ∈ s.formed, d ∈ s'.formed) {d : Diff} (h : s.Holds es d) :
    s'.Holds es d :=
  h.imp_left (hformed d)

/-- What a ledger reflects depends on the ledger, the last block and the blocks that are held. -/
theorem Reflects.of_eq {ds : List Diff} (h : s.Reflects σ draw (Holds es) ds)
    (hlast : s'.lastBlockImported = s.lastBlockImported) (hdb : s'.cash.db = s.cash.db)
    (hformed : ∀ d ∈ s.formed, d ∈ s'.formed) : s'.Reflects σ draw (Holds es) ds where
  chained := h.chained
  tip := hlast.trans h.tip
  ledger := hdb.trans h.ledger
  held d hd := (h.held d hd).mono hformed

/-- A step that keeps the ledger and the last block keeps what is reflected. -/
theorem Committed.reflects_of_eq (h : s.Committed σ draw es)
    (hlast : s'.lastBlockImported = s.lastBlockImported) (hdb : s'.cash.db = s.cash.db)
    (hformed : ∀ d ∈ s.formed, d ∈ s'.formed) : ∃ ds, s'.Reflects σ draw (Holds es) ds := by
  obtain ⟨ds, hds⟩ := h.reflects
  exact ⟨ds, hds.of_eq hlast hdb hformed⟩

/-- What changes neither the ledger nor the last block. -/
theorem Committed.of_eq (h : s.Committed σ draw es)
    (hlast : s'.lastBlockImported = s.lastBlockImported) (hdb : s'.cash.db = s.cash.db)
    (hnew : s'.newDiff = s.newDiff) (hformed : s'.formed = s.formed) :
    s'.Committed σ draw es := by
  have hkept : ∀ d ∈ s.formed, d ∈ s'.formed := fun d hd => hformed ▸ hd
  exact ⟨h.reflects_of_eq hlast hdb hkept, fun d hd => (h.newDiff d (hnew ▸ hd)).mono hkept⟩

/-- A block that is in sequence makes the chain longer, and another clears the db. -/
theorem Committed.importOrClear (h : s.Committed σ draw es) {d : Diff} (hd : s.Holds es d)
    {picks : List Ripemd160}
    (hs' : s.importOrClear σ d picks
      (draw s.lastBlockImported (Table.keyList d.proofOfWork).length) = some s') :
    (∃ ds, s'.Reflects σ draw (Holds es) ds) ∧ s'.newDiff = s.newDiff ∧ s'.formed = s.formed := by
  obtain ⟨⟨t, imported⟩, ht, rfl⟩ := Option.map_eq_some_iff.mp hs'
  unfold importDiff at ht
  split at ht
  · -- not in sequence: what is left is the empty chain
    cases ht
    exact ⟨⟨[], True.intro, rfl, rfl, fun _ hd => absurd hd List.not_mem_nil⟩, rfl, rfl⟩
  · next hprev =>
    obtain ⟨auth, -, himport⟩ := Option.map_eq_some_iff.mp ht
    cases himport
    obtain ⟨ds, hds⟩ := h.reflects
    have hprev : d.prev = s.lastBlockImported := not_not.mp hprev
    refine ⟨⟨d :: ds, ⟨hprev.trans hds.tip, hds.chained⟩, rfl, ?_, ?_⟩, rfl, rfl⟩
    · have hreplay : ledgerOf σ.ripemd σ.fmt draw (d :: ds) =
          importLedger draw s.lastBlockImported d s.cash.db := by
        rw [hds.tip, hds.ledger]
        rfl
      rw [hreplay, importLedger]
      cases d.cash with
      | none => rfl
      | some c => rfl
    · intro x hx
      obtain rfl | hx := List.mem_cons.mp hx
      · exact hd
      · exact hds.held x hx

/-- Stage 3 leaves the ledger. -/
theorem db_stage3 {r : Daemon × Bool} (h : s.stage3 σ = some r) : r.1.cash.db = s.cash.db := by
  unfold stage3 at h
  split at h
  · cases h
    rfl
  · split at h
    · cases h
      rfl
    · dsimp only [createLocalDeltas] at h
      split at h
      · obtain ⟨pool, -, rfl⟩ := Option.map_eq_some_iff.mp h
        rfl
      · cases h
        rfl

/-- Stage 2 imports the block that it has voted for, and stays committed. -/
theorem Committed.stage2 (h : s.Committed σ draw es) {picks : List Ripemd160} {drawn : ℕ}
    (hdrawn : DrawsBy draw s (.stage2 picks drawn : DaemonEvent PubKey))
    (hs' : s.stage2 σ picks drawn = some s') : s'.Committed σ draw es := by
  simp only [Daemon.stage2] at hs'
  split at hs'
  · cases hs'
    exact h.of_eq rfl rfl rfl rfl
  · obtain ⟨t, ht, rfl⟩ := Option.map_eq_some_iff.mp hs'
    refine ⟨?_, fun d hd => by cases hd⟩
    split at ht
    · cases ht
      exact h.reflects_of_eq rfl rfl fun _ hd => hd
    · next d hd =>
      have hnew : s.newDiff = some d := hd
      split at ht
      · rw [hdrawn d hnew] at ht
        have hvoted : Committed σ draw es
            { s with votes := s.votes.select.2, tips := s.votes.select.1 :: s.tips } :=
          h.of_eq rfl rfl rfl rfl
        obtain ⟨⟨ds, hds⟩, -, -⟩ := hvoted.importOrClear (h.newDiff d hnew) ht
        exact ⟨ds, hds.of_eq rfl rfl fun _ hd => hd⟩
      · cases ht
        exact h.reflects_of_eq rfl rfl fun _ hd => hd

/-- Every event keeps a daemon committed to its last block. -/
theorem Committed.step {e : DaemonEvent PubKey} (h : s.Committed σ draw es) (he : e ∈ es)
    (hdrawn : DrawsBy draw s e) (hs' : s.step σ e = some s') : s'.Committed σ draw es := by
  cases e with
  | voteTip t =>
    cases hs'
    exact h.of_eq rfl rfl rfl rfl
  | localDeltas g =>
    obtain ⟨pool, rfl⟩ := processIncomingLocalDeltas_frame hs'
    exact h.of_eq rfl rfl rfl rfl
  | basicAuthCompleted key address =>
    cases hs'
    exact h.of_eq rfl rfl rfl rfl
  | process t =>
    cases hs'
    exact h.of_eq rfl (App.db_process s.cash t) rfl rfl
  | patchDb d picks drawn =>
    obtain ⟨t, ht, rfl⟩ := Option.map_eq_some_iff.mp hs'
    rw [show drawn = _ from hdrawn] at ht
    obtain ⟨⟨ds, hds⟩, hnew, hformed⟩ := h.importOrClear (.inr ⟨picks, drawn, he⟩) ht
    exact ⟨⟨ds, hds.of_eq rfl rfl fun _ hd => hd⟩,
      fun x hx => (h.newDiff x (hnew ▸ hx)).mono fun y hy => hformed ▸ hy⟩
  | stage1 =>
    obtain ⟨-, hs'⟩ := Option.ite_none_right_eq_some.mp hs'
    obtain ⟨votes, hvotes⟩ := stage1_frame (σ := σ) s
    rw [hvotes] at hs'
    cases hs'
    exact h.of_eq rfl rfl rfl rfl
  | stage2 picks drawn =>
    obtain ⟨-, hs'⟩ := Option.ite_none_right_eq_some.mp hs'
    obtain ⟨t, ht, rfl⟩ := Option.map_eq_some_iff.mp hs'
    exact (h.stage2 hdrawn ht).of_eq rfl rfl rfl rfl
  | stage3 =>
    obtain ⟨-, hs'⟩ := Option.ite_none_right_eq_some.mp hs'
    obtain ⟨r, hr, rfl⟩ := Option.map_eq_some_iff.mp hs'
    obtain ⟨auth, cash, pool, hframe⟩ := stage3_frame hr
    have hdb := db_stage3 hr
    rw [hframe] at hdb ⊢
    exact h.of_eq rfl hdb rfl rfl
  | stage4 entries =>
    obtain ⟨-, hs'⟩ := Option.ite_none_right_eq_some.mp hs'
    obtain ⟨t, ht, rfl⟩ := Option.map_eq_some_iff.mp hs'
    obtain ⟨-, ht⟩ := Option.ite_none_right_eq_some.mp ht
    cases ht
    refine ⟨h.reflects_of_eq rfl rfl fun d hd => List.mem_cons_of_mem _ hd, fun d hd => ?_⟩
    exact .inl (Option.some.inj hd ▸ List.mem_cons_self)

/-- Every daemon that a run reaches is committed to its last block. -/
theorem committed_of_run (hdraws : AlongRun (Daemon.step σ) (DrawsBy draw) (init σ) es)
    (hrun : run (Daemon.step σ) (init σ) es = some s) : s.Committed σ draw es := by
  have hes : AlongRun (Daemon.step σ) (fun _ e => e ∈ es) (init σ) es :=
    .of_forall fun e he _ => he
  exact run_invariant (fun s e s' hs he hs' => hs.step he.1 he.2 hs') committed_init
    (hes.and hdraws) hrun

/-- **The last block determines the ledger.** Two nodes that have started with an empty db
and have imported the same block last, whatever has happened to them in which order, have
the same balances, the same supply and the same reward, or a hash has failed: among the
blocks that they have at hand are two with different texts and one hash, or one with the
hash zero. -/
theorem ledger_of_last_block {σ' : Setting PubKey} (hripemd : σ'.ripemd = σ.ripemd)
    (hfmt : σ'.fmt = σ.fmt) {es' : List (DaemonEvent PubKey)}
    (hdraws : AlongRun (Daemon.step σ) (DrawsBy draw) (init σ) es)
    (hdraws' : AlongRun (Daemon.step σ') (DrawsBy draw) (init σ') es')
    (hrun : run (Daemon.step σ) (init σ) es = some s)
    (hrun' : run (Daemon.step σ') (init σ') es' = some s')
    (hlast : s.lastBlockImported = s'.lastBlockImported) :
    s.cash.db = s'.cash.db ∨
      (∃ d d', s.Holds es d ∧ s'.Holds es' d' ∧ d.toStream σ.fmt ≠ d'.toStream σ.fmt ∧
        d.hash σ.ripemd σ.fmt = d'.hash σ.ripemd σ.fmt) ∨
      ∃ d, (s.Holds es d ∨ s'.Holds es' d) ∧ d.hash σ.ripemd σ.fmt = Ripemd160.zero := by
  obtain ⟨ds, hds⟩ := (committed_of_run hdraws hrun).reflects
  obtain ⟨ds', hds'⟩ := (committed_of_run hdraws' hrun').reflects
  have htip : (blockChaining σ.ripemd σ.fmt).tip ds = (blockChaining σ.ripemd σ.fmt).tip ds' := by
    rw [← hds.tip, hlast, hds'.tip, hripemd, hfmt]
  have hchained' : (blockChaining σ.ripemd σ.fmt).Chained ds' := by
    rw [← hripemd, ← hfmt]
    exact hds'.chained
  obtain hsame | ⟨d, hd, d', hd', hne, hhash⟩ | ⟨d, hd, hzero⟩ :=
    ledgerOf_eq_or_broken hds.chained hchained' htip
  · refine .inl ?_
    rw [hds.ledger, hds'.ledger, hripemd, hfmt]
    exact hsame
  · exact .inr (.inl ⟨d, d', hds.held d hd, hds'.held d' hd', hne, hhash⟩)
  · refine .inr (.inr ⟨d, ?_, hzero⟩)
    obtain hd | hd := List.mem_append.mp hd
    · exact .inl (hds.held d hd)
    · exact .inr (hds'.held d hd)

/-! ## Two blocks in two orders -/

/-- A node that takes the length of a text for its hash. -/
def nodeByLength : Setting Bool where
  ec := twoKeys
  ripemd m := Ripemd160.set (UInt32.ofNat m.length)
  fmt := noDigits
  programs := ⟨fun _ _ _ _ => true, fun _ => true⟩
  pub := false
  signEncode text := 'L' :: text

/-- A block that gives an account an amount, with one contributor. -/
def blockWith (prev : Ripemd160) (account : UInt32) (box : ℤ) : Diff where
  prev := prev
  auth := none
  cash := some
    { Cash.Delta.create with
      g := ⟨fun _ => 0, Finmap.singleton (Ripemd160.set account) ⟨Ripemd160.set 1, box⟩, 0⟩ }
  proofOfWork := Finmap.singleton (Ripemd160.set 8) 0

/-- The first block. -/
def genesisBlock : Diff := blockWith Ripemd160.zero 3 10

/-- The block after it. -/
def nextBlock : Diff := blockWith (genesisBlock.hash nodeByLength.ripemd noDigits) 4 200

/-- The blocks in sequence. -/
def inSequence : List (DaemonEvent Bool) := [.patchDb genesisBlock [] 0, .patchDb nextBlock [] 0]

/-- The second block too early, which clears the db, and then the blocks in sequence. -/
def startedEarly : List (DaemonEvent Bool) := .patchDb nextBlock [] 0 :: inSequence

/-- Patches without draws draw by any rule. -/
theorem drawsBy_patches {es : List (DaemonEvent Bool)}
    (hes : ∀ e ∈ es, ∃ d, e = .patchDb d [] 0) :
    AlongRun (step nodeByLength) (DrawsBy fun _ _ => 0) (init nodeByLength) es := by
  refine .of_forall fun e he s => ?_
  obtain ⟨d, rfl⟩ := hes e he
  rfl

/-- Two runs with the same last block: the same ledger, or two texts with one hash. -/
theorem ledger_of_last_block_twoOrders : ∃ s s',
    run (step nodeByLength) (init nodeByLength) inSequence = some s ∧
      run (step nodeByLength) (init nodeByLength) startedEarly = some s' ∧
      (s.cash.db = s'.cash.db ∨
        (∃ d d', s.Holds inSequence d ∧ s'.Holds startedEarly d' ∧
          d.toStream nodeByLength.fmt ≠ d'.toStream nodeByLength.fmt ∧
          d.hash nodeByLength.ripemd nodeByLength.fmt =
            d'.hash nodeByLength.ripemd nodeByLength.fmt) ∨
        ∃ d, (s.Holds inSequence d ∨ s'.Holds startedEarly d) ∧
          d.hash nodeByLength.ripemd nodeByLength.fmt = Ripemd160.zero) := by
  have hlast : (run (step nodeByLength) (init nodeByLength) inSequence).map lastBlockImported =
        some (nextBlock.hash nodeByLength.ripemd noDigits) ∧
      (run (step nodeByLength) (init nodeByLength) startedEarly).map lastBlockImported =
        some (nextBlock.hash nodeByLength.ripemd noDigits) := by
    decide +kernel
  obtain ⟨s, hs, hlast₁⟩ := Option.map_eq_some_iff.mp hlast.1
  obtain ⟨s', hs', hlast₂⟩ := Option.map_eq_some_iff.mp hlast.2
  have hdraws : AlongRun (step nodeByLength) (DrawsBy fun _ _ => 0) (init nodeByLength)
      inSequence := drawsBy_patches (by simp [inSequence])
  have hdraws' : AlongRun (step nodeByLength) (DrawsBy fun _ _ => 0) (init nodeByLength)
      startedEarly := drawsBy_patches (by simp [startedEarly, inSequence])
  exact ⟨s, s', hs, hs', ledger_of_last_block (by rfl) (by rfl) hdraws hdraws' hs hs'
    (hlast₁.trans hlast₂.symm)⟩

end Daemon

end AcCore.Gov.Engine
