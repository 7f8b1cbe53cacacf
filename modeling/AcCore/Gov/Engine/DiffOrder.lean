import AcCore.Gov.Engine.Diff
import AcCore.Lib.Run

/-!
# Diffs and the order of arrival

Nodes get the contributions to a diff in different orders. This file
determines when all orders in which a set of contributions is allowed and
added, and all orders in which the hash table of the cash delta may list its
entries, give one text and so one hash of the diff.
-/

namespace AcCore.Gov.Engine

open Lib

/-- What a node does with a contribution: it allows it, and later adds it. -/
inductive Arrival (PubKey : Type) where
  | allow (g : LocalDeltas PubKey)
  | add (g : LocalDeltas PubKey)

namespace Arrival

variable {PubKey : Type}

/-- The contributions allowed by a sequence of events. -/
def allowed : List (Arrival PubKey) → List (LocalDeltas PubKey)
  | [] => []
  | allow g :: es => g :: allowed es
  | add _ :: es => allowed es

/-- The contributions added by a sequence of events. -/
def added : List (Arrival PubKey) → List (LocalDeltas PubKey)
  | [] => []
  | allow _ :: es => added es
  | add g :: es => g :: added es

/-- The contributions that two lists of arrivals allow. -/
@[simp] theorem allowed_append (es es' : List (Arrival PubKey)) :
    allowed (es ++ es') = allowed es ++ allowed es' := by
  induction es with
  | nil => rfl
  | cons e es ih => cases e <;> simp [allowed, ih]

/-- The contributions that two lists of arrivals add. -/
@[simp] theorem added_append (es es' : List (Arrival PubKey)) :
    added (es ++ es') = added es ++ added es' := by
  induction es with
  | nil => rfl
  | cons e es ih => cases e <;> simp [added, ih]

/-- Allowing contributions allows them. -/
@[simp] theorem allowed_map_allow (G : List (LocalDeltas PubKey)) : allowed (G.map allow) = G := by
  induction G with
  | nil => rfl
  | cons g G ih => simp [allowed, ih]

/-- Adding contributions allows none. -/
@[simp] theorem allowed_map_add (G : List (LocalDeltas PubKey)) : allowed (G.map add) = [] := by
  induction G with
  | nil => rfl
  | cons g G ih => simp [allowed, ih]

/-- Allowing contributions adds none. -/
@[simp] theorem added_map_allow (G : List (LocalDeltas PubKey)) : added (G.map allow) = [] := by
  induction G with
  | nil => rfl
  | cons g G ih => simp [added, ih]

/-- Adding contributions adds them. -/
@[simp] theorem added_map_add (G : List (LocalDeltas PubKey)) : added (G.map add) = G := by
  induction G with
  | nil => rfl
  | cons g G ih => simp [added, ih]

/-- A contribution that is to be allowed is among the allowed ones. -/
theorem mem_allowed {es : List (Arrival PubKey)} {g : LocalDeltas PubKey}
    (h : allow g ∈ es) : g ∈ allowed es := by
  induction es with
  | nil => cases h
  | cons e es ih => cases e <;> grind [allowed]

end Arrival

variable {PubKey : Type} (ec : Ec PubKey) (ripemd : List UInt8 → Ripemd160) (fmt : Format)

/-- The diff after one event. A contribution that is not allowed is discarded:
such an event is not part of any order of the contributions to the diff. -/
def arrive (d : Diff) : Arrival PubKey → Option Diff
  | .allow g => if (d.allow ec g).2 then some (d.allow ec g).1 else none
  | .add g => d.add ec ripemd g

/-- Every contribution that is added has been allowed before. -/
def AddsAllowed (es : List (Arrival PubKey)) : Prop :=
  ∀ es₁ g es₂, es = es₁ ++ .add g :: es₂ → .allow g ∈ es₁

/-- An order in which each contribution of the set is allowed once and, later,
added once. -/
structure Schedule (G : List (LocalDeltas PubKey)) (es : List (Arrival PubKey)) : Prop where
  allows : (Arrival.allowed es).Perm G
  adds : (Arrival.added es).Perm G
  addsAllowed : AddsAllowed es

/-- The diff is one that a node may have after `end_adding`, having received
the contributions. -/
def Forms (G : List (LocalDeltas PubKey)) (d : Diff) : Prop :=
  ∃ es entries d₀, Schedule G es ∧ run (arrive ec ripemd) Diff.create es = some d₀ ∧
    d₀.Lists entries ∧ d = d₀.endAdding entries

/-- No two contributions have different addresses for one candidate. -/
def HallsAgree (G : List (LocalDeltas PubKey)) : Prop :=
  ∀ g ∈ G.filterMap LocalDeltas.auth, ∀ g' ∈ G.filterMap LocalDeltas.auth, ∀ k a a',
    Auth.Delta.firstAddress g.toHall k = some a →
    Auth.Delta.firstAddress g'.toHall k = some a' → a = a'

/-- All pools of the classes with the most contributors have one text. -/
def WinnersAlike (G : List (LocalDeltas PubKey)) : Prop :=
  ∀ g g', IsMostCommon (Cash.LocalDelta.key ripemd) (G.filterMap LocalDeltas.cash) g →
    IsMostCommon (Cash.LocalDelta.key ripemd) (G.filterMap LocalDeltas.cash) g' →
    g.words fmt = g'.words fmt

/-! ## What a schedule leaves -/

/-- The auth delta of contributions that are added in this order. -/
def mergedAuth (gs : List Auth.LocalDelta) : Option Auth.Delta := gs.foldl Diff.addAuth none

/-- The cash delta of contributions that are added in this order. -/
def mergedCash (gs : List Cash.LocalDelta) : Option Cash.Delta :=
  gs.foldl (Diff.addCash ripemd) none

/-- The auth section, present when there is something to merge. -/
theorem mergedAuth_eq (gs : List Auth.LocalDelta) :
    mergedAuth gs =
      if gs = [] then none else some (gs.foldl Auth.Delta.merge Auth.Delta.create) := by
  induction gs using List.reverseRecOn with
  | nil => rfl
  | append_singleton gs g ih =>
    rw [mergedAuth, List.foldl_append, List.foldl_append, ← mergedAuth, ih]
    by_cases hgs : gs = [] <;> simp [hgs, Diff.addAuth]

/-- The cash section, present when there is something to merge. -/
theorem mergedCash_eq (gs : List Cash.LocalDelta) :
    mergedCash ripemd gs =
      if gs = [] then none else some (gs.foldl (Cash.Delta.merge ripemd) Cash.Delta.create) := by
  induction gs using List.reverseRecOn with
  | nil => rfl
  | append_singleton gs g ih =>
    rw [mergedCash, List.foldl_append, List.foldl_append, ← mergedCash, ih]
    by_cases hgs : gs = [] <;> simp [hgs, Diff.addCash]

/-- The diff after arrivals: the contributors are the keys allowed, and the
deltas are merged in the order of the adds. -/
theorem run_arrive {es : List (Arrival PubKey)} (h : AddsAllowed es)
    (hkeys : ((Arrival.allowed es).map fun g => ec.hash g.pubkey).Nodup) :
    ∃ d, run (arrive ec ripemd) Diff.create es = some d ∧ d.prev = Ripemd160.zero ∧
      (∀ k, d.proofOfWork.lookup k =
        if k ∈ (Arrival.allowed es).map (fun g => ec.hash g.pubkey) then some 0
        else none) ∧
      d.auth = mergedAuth ((Arrival.added es).filterMap LocalDeltas.auth) ∧
      d.cash = mergedCash ripemd ((Arrival.added es).filterMap LocalDeltas.cash) := by
  induction es using List.reverseRecOn with
  | nil => exact ⟨Diff.create, rfl, rfl, by simp [Diff.create, Arrival.allowed], rfl, rfl⟩
  | append_singleton es e ih =>
    have hprefix : AddsAllowed es := by
      intro es₁ g es₂ heq
      exact h es₁ g (es₂ ++ [e]) (by simp [heq])
    rw [Arrival.allowed_append, List.map_append, List.nodup_append] at hkeys
    obtain ⟨d, hrun, hprev, hpow, hauth, hcash⟩ := ih hprefix hkeys.1
    rw [run_append, hrun]
    cases e with
    | allow g =>
      have hnew : ec.hash g.pubkey ∉ (Arrival.allowed es).map (fun g => ec.hash g.pubkey) := by
        intro hin
        exact hkeys.2.2 _ hin (ec.hash g.pubkey) (by simp [Arrival.allowed]) rfl
      have hallowed : (d.allow ec g).2 = true := by
        rw [Diff.allow, hpow, if_neg hnew]
      refine ⟨(d.allow ec g).1, by simp [run, arrive, hallowed], ?_, ?_, ?_, ?_⟩
      · rw [Diff.allow_fst, hprev]
      · intro k
        rw [Diff.allow_fst, Table.lookup_emplace, hpow, hpow]
        by_cases hk : k = ec.hash g.pubkey
        · subst hk
          simp [Arrival.allowed, hnew]
        · simp [Arrival.allowed, hk]
      · rw [Diff.allow_fst]
        simpa [Arrival.added] using hauth
      · rw [Diff.allow_fst]
        simpa [Arrival.added] using hcash
    | add g =>
      have hin : ec.hash g.pubkey ∈ (Arrival.allowed es).map (fun g => ec.hash g.pubkey) :=
        List.mem_map_of_mem (Arrival.mem_allowed (h es g [] rfl))
      have hlookup : d.proofOfWork.lookup (ec.hash g.pubkey) = some 0 := by
        rw [hpow, if_pos hin]
      refine ⟨d.merge ec ripemd g, by simp [run, arrive, Diff.add, hlookup], hprev, ?_, ?_, ?_⟩
      · intro k
        by_cases hk : k = ec.hash g.pubkey
        · subst hk
          simp [Diff.merge, Arrival.allowed, hin]
        · simp [Diff.merge, Finmap.lookup_insert_of_ne _ hk, hpow, Arrival.allowed]
      · cases hg : g.auth <;> simp [Diff.merge, hauth, hg, Arrival.added, mergedAuth]
      · cases hg : g.cash <;> simp [Diff.merge, hcash, hg, Arrival.added, mergedCash]

/-- What is known of a diff that a node may have formed. -/
structure FormedFrom (G G' : List (LocalDeltas PubKey)) (entries : Cash.Delta.Listing)
    (d : Diff) : Prop where
  perm : G'.Perm G
  lists : (entries : Multiset _) =
    ((mergedCash ripemd (G'.filterMap LocalDeltas.cash)).getD Cash.Delta.create).m.entries
  prev : d.prev = Ripemd160.zero
  auth : d.auth = (mergedAuth (G'.filterMap LocalDeltas.auth)).map Auth.Delta.endMerge
  cash : d.cash = (mergedCash ripemd (G'.filterMap LocalDeltas.cash)).map fun c =>
    c.endMerge entries
  pow : ∀ k, d.proofOfWork.lookup k =
    if k ∈ G.map (fun g => ec.hash g.pubkey) then some 0 else none

variable {ec ripemd fmt} {G : List (LocalDeltas PubKey)}

/-- The diff that a schedule of arrivals forms. -/
theorem Schedule.formedFrom (hkeys : (G.map fun g => ec.hash g.pubkey).Nodup)
    {es : List (Arrival PubKey)} (hes : Schedule G es) {entries : Cash.Delta.Listing} {d₀ : Diff}
    (hrun : run (arrive ec ripemd) Diff.create es = some d₀) (hlists : d₀.Lists entries) :
    FormedFrom ec ripemd G (Arrival.added es) entries (d₀.endAdding entries) := by
  have hallowed : ((Arrival.allowed es).map fun g => ec.hash g.pubkey).Nodup :=
    ((hes.allows.map _).nodup_iff).mpr hkeys
  obtain ⟨d₁, hrun₁, hprev, hpow, hauth, hcash⟩ := run_arrive ec ripemd hes.addsAllowed hallowed
  obtain rfl : d₀ = d₁ := Option.some.inj (hrun.symm.trans hrun₁)
  refine ⟨hes.adds, ?_, hprev, ?_, ?_, ?_⟩
  · rw [← hcash]
    exact hlists
  · rw [Diff.endAdding, hauth]
  · rw [Diff.endAdding, hcash]
  · intro k
    rw [Diff.endAdding, hpow]
    simp only [(hes.allows.map fun g => ec.hash g.pubkey).mem_iff]

/-- What is known of a diff formed from contributions with distinct keys. -/
theorem Forms.formedFrom (hkeys : (G.map fun g => ec.hash g.pubkey).Nodup) {d : Diff}
    (h : Forms ec ripemd G d) : ∃ G' entries, FormedFrom ec ripemd G G' entries d := by
  obtain ⟨es, entries, d₀, hes, hrun, hlists, rfl⟩ := h
  exact ⟨_, entries, hes.formedFrom hkeys hrun hlists⟩

/-- First all are allowed, then all are added. -/
theorem schedule_allow_then_add {G' : List (LocalDeltas PubKey)} (h : G'.Perm G) :
    Schedule G (G'.map Arrival.allow ++ G'.map Arrival.add) := by
  refine ⟨by simpa using h, by simpa using h, ?_⟩
  intro es₁ g es₂ heq
  have hnot : .add g ∉ G'.map Arrival.allow := by simp
  have hmem : .allow g ∈ G'.map Arrival.allow := by
    have hg : .add g ∈ G'.map Arrival.allow ++ G'.map Arrival.add := by simp [heq]
    simpa using hg
  rcases List.append_eq_append_iff.mp heq with ⟨c, hc, -⟩ | ⟨c, hc, hrest⟩
  · exact hc ▸ List.mem_append_left c hmem
  · -- the event would be among the `allow`s, unless they end right before it
    obtain _ | ⟨e, c⟩ := c
    · simpa [hc] using hmem
    · obtain rfl : .add g = e := (List.cons.inj hrest).1
      exact absurd (by simp [hc]) hnot

/-- Every order of the contributions, and every order of the entries, is met by
some node. -/
theorem exists_forms (hkeys : (G.map fun g => ec.hash g.pubkey).Nodup)
    {G' : List (LocalDeltas PubKey)} (h : G'.Perm G) {entries : Cash.Delta.Listing}
    (hlists : (entries : Multiset _) =
      ((mergedCash ripemd (G'.filterMap LocalDeltas.cash)).getD Cash.Delta.create).m.entries) :
    ∃ d, Forms ec ripemd G d ∧ FormedFrom ec ripemd G G' entries d := by
  have hes := schedule_allow_then_add h
  have hallowed : ((Arrival.allowed (G'.map Arrival.allow ++ G'.map Arrival.add)).map
      fun g => ec.hash g.pubkey).Nodup := ((hes.allows.map _).nodup_iff).mpr hkeys
  obtain ⟨d₀, hrun, -, -, -, hcash⟩ := run_arrive ec ripemd hes.addsAllowed hallowed
  have hlists₀ : d₀.Lists entries := by
    rw [Diff.Lists, hcash]
    simpa using hlists
  have hformed := hes.formedFrom hkeys hrun hlists₀
  refine ⟨d₀.endAdding entries, ⟨_, entries, d₀, hes, hrun, hlists₀, rfl⟩, ?_⟩
  simpa using hformed

/-! ## What of the text depends on the order -/

/-- The hall of the contributions that are added in this order. -/
def hallOf (gs : List Auth.LocalDelta) : Table Ripemd160 Auth.Address :=
  Auth.Delta.emplaceAll ∅ (gs.flatMap Auth.LocalDelta.toHall)

/-- The pool that the majority merger takes from a listing of its table. -/
def winnerOf (entries : Cash.Delta.Listing) : Cash.LocalDelta :=
  (firstMost (entries.map Sigma.snd)).getD Cash.LocalDelta.create

/-- Rearranging keeps a list empty or not. -/
theorem nil_iff_of_perm {α : Type*} {xs ys : List α} (h : xs.Perm ys) : xs = [] ↔ ys = [] := by
  rw [← List.length_eq_zero_iff, h.length_eq, List.length_eq_zero_iff]

/-- The order of the contributions does not matter for who is in the hall. -/
theorem mem_hallOf_perm {gs gs' : List Auth.LocalDelta} (h : gs.Perm gs') (k : Ripemd160) :
    k ∈ hallOf gs ↔ k ∈ hallOf gs' := by
  have hfirst : ∀ gs : List Auth.LocalDelta,
      k ∈ hallOf gs ↔ ∃ e ∈ gs.flatMap Auth.LocalDelta.toHall, e.1 = k := by
    intro gs
    rw [hallOf, ← Finmap.lookup_isSome, Auth.Delta.lookup_emplaceAll]
    simp only [Finmap.lookup_empty, Option.none_or, Auth.Delta.firstAddress, Option.isSome_map,
      List.find?_isSome, decide_eq_true_eq]
  rw [hfirst, hfirst]
  simp only [(h.flatMap_right Auth.LocalDelta.toHall).mem_iff]

/-- In the text of the auth app only the addresses depend on the order. -/
theorem authWords_merged (fmt : Format) {gs gs' : List Auth.LocalDelta} (h : gs.Perm gs') :
    (Diff.authWords fmt ((mergedAuth gs).map Auth.Delta.endMerge)).length =
        (Diff.authWords fmt ((mergedAuth gs').map Auth.Delta.endMerge)).length ∧
      (Diff.authWords fmt ((mergedAuth gs).map Auth.Delta.endMerge) =
          Diff.authWords fmt ((mergedAuth gs').map Auth.Delta.endMerge) ↔
        hallOf gs = hallOf gs') := by
  have hnil := nil_iff_of_perm h
  by_cases hgs : gs = []
  · rw [hnil.mp hgs, hgs]
    simp
  · have hmerge := PoliciesDelta.foldl_merge_perm (h.map Auth.LocalDelta.policies)
      PoliciesDelta.create
    have hkeys := mem_hallOf_perm h
    have hlist := Table.keyList_congr hkeys
    have hwords : ∀ gs : List Auth.LocalDelta, gs ≠ [] →
        Diff.authWords fmt ((mergedAuth gs).map Auth.Delta.endMerge) =
          natText Auth.appId :: natText (Table.keyList (hallOf gs)).length ::
            Auth.Delta.hallWords (hallOf gs) ++ policiesWords fmt
              ((gs.map Auth.LocalDelta.policies).foldl PoliciesDelta.merge
                PoliciesDelta.create).endMerge.policies := by
      intro gs hgs
      rw [mergedAuth_eq, if_neg hgs, Auth.Delta.foldl_merge]
      rfl
    rw [hwords gs hgs, hwords gs' (mt hnil.mpr hgs), hmerge, hlist]
    constructor
    · simp [Auth.Delta.length_hallWords, hlist]
    · constructor
      · intro heq
        simp only [List.cons_append, List.cons.injEq, true_and, List.append_cancel_right_eq] at heq
        exact Auth.Delta.hallWords_inj hkeys heq
      · intro heq
        rw [heq]

/-- In the text of the cash app only the pool depends on the order. -/
theorem cashWords_merged (ripemd : List UInt8 → Ripemd160) (fmt : Format)
    {gs gs' : List Cash.LocalDelta} (h : gs.Perm gs') (entries entries' : Cash.Delta.Listing) :
    Diff.cashWords fmt ((mergedCash ripemd gs).map fun c => c.endMerge entries) =
        Diff.cashWords fmt ((mergedCash ripemd gs').map fun c => c.endMerge entries') ↔
      gs = [] ∨ (winnerOf entries).words fmt = (winnerOf entries').words fmt := by
  have hnil := nil_iff_of_perm h
  by_cases hgs : gs = []
  · rw [hnil.mp hgs, hgs]
    simp [mergedCash_eq, Diff.cashWords]
  · have hmerge := PoliciesDelta.foldl_merge_perm (h.map Cash.LocalDelta.policies)
      PoliciesDelta.create
    have hwords : ∀ (gs : List Cash.LocalDelta) (entries : Cash.Delta.Listing), gs ≠ [] →
        Diff.cashWords fmt ((mergedCash ripemd gs).map fun c => c.endMerge entries) =
          natText Cash.appId :: ((winnerOf entries).words fmt ++ policiesWords fmt
              ((gs.map Cash.LocalDelta.policies).foldl PoliciesDelta.merge
                PoliciesDelta.create).endMerge.policies) := by
      intro gs entries hgs
      rw [mergedCash_eq, if_neg hgs, Cash.Delta.foldl_merge]
      rfl
    rw [hwords gs entries hgs, hwords gs' entries' (mt hnil.mpr hgs), hmerge]
    simp [hgs]

/-- Two nodes form diffs of one text exactly when they have the same addresses
in the hall and take pools of one text. -/
theorem FormedFrom.toStream_eq_iff {G₁ G₂ : List (LocalDeltas PubKey)}
    {entries₁ entries₂ : Cash.Delta.Listing} {d₁ d₂ : Diff}
    (h₁ : FormedFrom ec ripemd G G₁ entries₁ d₁) (h₂ : FormedFrom ec ripemd G G₂ entries₂ d₂) :
    d₁.toStream fmt = d₂.toStream fmt ↔
      hallOf (G₁.filterMap LocalDeltas.auth) = hallOf (G₂.filterMap LocalDeltas.auth) ∧
        (G.filterMap LocalDeltas.cash = [] ∨
          (winnerOf entries₁).words fmt = (winnerOf entries₂).words fmt) := by
  have hperm : G₁.Perm G₂ := h₁.perm.trans h₂.perm.symm
  have hpow : d₁.proofOfWork = d₂.proofOfWork :=
    Finmap.ext_lookup fun k => (h₁.pow k).trans (h₂.pow k).symm
  obtain ⟨hlength, hauth⟩ := authWords_merged fmt (hperm.filterMap LocalDeltas.auth)
  have hcash := cashWords_merged ripemd fmt (hperm.filterMap LocalDeltas.cash) entries₁ entries₂
  have hnil := nil_iff_of_perm (h₁.perm.filterMap LocalDeltas.cash)
  rw [← h₁.auth, ← h₂.auth] at hauth hlength
  rw [← h₁.cash, ← h₂.cash, hnil] at hcash
  have hcount : d₁.auth.toList.length + d₁.cash.toList.length =
      d₂.auth.toList.length + d₂.cash.toList.length := by
    simp only [h₁.auth, h₂.auth, h₁.cash, h₂.cash, mergedAuth_eq, mergedCash_eq,
      nil_iff_of_perm (hperm.filterMap LocalDeltas.auth),
      nil_iff_of_perm (hperm.filterMap LocalDeltas.cash)]
    split_ifs <;> rfl
  rw [Diff.toStream_eq_iff, ← hauth, ← hcash, Diff.words, Diff.words, h₁.prev, h₂.prev, hpow,
    hcount, List.append_cancel_left_eq]
  constructor
  · intro h
    obtain ⟨ha, hrest⟩ := List.append_inj h hlength
    exact ⟨ha, List.append_cancel_right hrest⟩
  · rintro ⟨ha, hc⟩
    rw [ha, hc]

/-! ## Halls and winners over all orders -/

/-- The first address of a candidate comes from one of the contributions. -/
theorem firstAddress_flatMap {gs : List Auth.LocalDelta} {k : Ripemd160} {a : Auth.Address}
    (h : Auth.Delta.firstAddress (gs.flatMap Auth.LocalDelta.toHall) k = some a) :
    ∃ g ∈ gs, Auth.Delta.firstAddress g.toHall k = some a := by
  induction gs with
  | nil => simp [Auth.Delta.firstAddress] at h
  | cons g gs ih =>
    simp only [Auth.Delta.firstAddress, List.flatMap_cons, List.find?_append] at h
    cases hg : g.toHall.find? fun e => e.1 = k with
    | some e =>
      rw [hg] at h
      exact ⟨g, by simp, by simpa [Auth.Delta.firstAddress, hg] using h⟩
    | none =>
      rw [hg] at h
      obtain ⟨g', hg', ha⟩ := ih (by simpa [Auth.Delta.firstAddress] using h)
      exact ⟨g', by simp [hg'], ha⟩

/-- Halls agree over all orders exactly when no two contributions have
different addresses for one candidate. -/
theorem HallsAgree.hallOf_eq (h : HallsAgree G) {G₁ G₂ : List (LocalDeltas PubKey)}
    (h₁ : G₁.Perm G) (h₂ : G₂.Perm G) :
    hallOf (G₁.filterMap LocalDeltas.auth) = hallOf (G₂.filterMap LocalDeltas.auth) := by
  have hkeys := mem_hallOf_perm ((h₁.trans h₂.symm).filterMap LocalDeltas.auth)
  apply Finmap.ext_lookup
  intro k
  cases hk : (hallOf (G₁.filterMap LocalDeltas.auth)).lookup k with
  | none =>
    rw [Finmap.lookup_eq_none] at hk
    exact (Finmap.lookup_eq_none.mpr (mt (hkeys k).mpr hk)).symm
  | some a =>
    obtain ⟨a', ha'⟩ := Finmap.mem_iff.mp ((hkeys k).mp (Finmap.mem_of_lookup_eq_some hk))
    rw [ha']
    simp only [hallOf, Auth.Delta.lookup_emplaceAll, Finmap.lookup_empty, Option.none_or] at hk ha'
    obtain ⟨g, hg, hga⟩ := firstAddress_flatMap hk
    obtain ⟨g', hg', hga'⟩ := firstAddress_flatMap ha'
    rw [h g ((h₁.filterMap _).mem_iff.mp hg) g' ((h₂.filterMap _).mem_iff.mp hg') k a a' hga hga']

/-- The contribution that is added first decides on the addresses that it has. -/
theorem lookup_hallOf_cons {g : Auth.LocalDelta} (gs : List Auth.LocalDelta) {k : Ripemd160}
    {a : Auth.Address} (h : Auth.Delta.firstAddress g.toHall k = some a) :
    (hallOf (g :: gs)).lookup k = some a := by
  rw [hallOf, Auth.Delta.lookup_emplaceAll, Finmap.lookup_empty, Option.none_or]
  obtain ⟨e, he, rfl⟩ := Option.map_eq_some_iff.mp h
  simp [Auth.Delta.firstAddress, List.find?_append, he]

/-- A member of the set may come first. -/
theorem exists_perm_cons {g : LocalDeltas PubKey} (h : g ∈ G) :
    ∃ rest, (g :: rest).Perm G := by
  obtain ⟨l₁, l₂, rfl⟩ := List.append_of_mem h
  exact ⟨l₁ ++ l₂, List.perm_middle.symm⟩

/-- The classes of the merged cash section are those of the contributions. -/
theorem mergedCash_table (gs : List Cash.LocalDelta) :
    ((mergedCash ripemd gs).getD Cash.Delta.create).m =
      classes (Cash.LocalDelta.key ripemd) gs := by
  rw [mergedCash_eq]
  by_cases hgs : gs = []
  · subst hgs
    rfl
  · rw [if_neg hgs, Option.getD_some, Cash.Delta.foldl_merge]
    rfl

/-- The pool taken is a most common one. -/
theorem FormedFrom.isMostCommon {G' : List (LocalDeltas PubKey)} {entries : Cash.Delta.Listing}
    {d : Diff} (h : FormedFrom ec ripemd G G' entries d)
    (hne : G.filterMap LocalDeltas.cash ≠ []) :
    IsMostCommon (Cash.LocalDelta.key ripemd) (G.filterMap LocalDeltas.cash)
      (winnerOf entries) := by
  have hperm := h.perm.filterMap LocalDeltas.cash
  have hlists := h.lists
  rw [mergedCash_table] at hlists
  obtain ⟨r, hr, hmost⟩ :=
    exists_firstMost_classes (mt (nil_iff_of_perm hperm).mp hne) hlists
  have hwinner : winnerOf entries = r := by rw [winnerOf, hr, Option.getD_some]
  rw [hwinner]
  exact hmost.perm hperm

/-- Every most common pool is taken by some node. -/
theorem exists_forms_winner (hkeys : (G.map fun g => ec.hash g.pubkey).Nodup)
    {g : Cash.LocalDelta}
    (h : IsMostCommon (Cash.LocalDelta.key ripemd) (G.filterMap LocalDeltas.cash) g) :
    ∃ d G' entries, Forms ec ripemd G d ∧ FormedFrom ec ripemd G G' entries d ∧
      winnerOf entries = g := by
  obtain ⟨ld, hld, hcash⟩ := List.mem_filterMap.mp h.1
  obtain ⟨rest, hperm⟩ := exists_perm_cons hld
  have hfilter : (ld :: rest).filterMap LocalDeltas.cash =
      g :: rest.filterMap LocalDeltas.cash := by simp [hcash]
  have hmost := h.perm (hperm.filterMap LocalDeltas.cash).symm
  rw [hfilter] at hmost
  obtain ⟨entries, hentries, hfirst⟩ := hmost.exists_firstMost
  rw [← hfilter, ← mergedCash_table] at hentries
  obtain ⟨d, hforms, hformed⟩ := exists_forms hkeys hperm hentries
  exact ⟨d, _, entries, hforms, hformed, by rw [winnerOf, hfirst, Option.getD_some]⟩

/-- Any contribution may be the first that some node adds. -/
theorem exists_forms_first (ripemd : List UInt8 → Ripemd160)
    (hkeys : (G.map fun g => ec.hash g.pubkey).Nodup)
    {g : Auth.LocalDelta} (h : g ∈ G.filterMap LocalDeltas.auth) :
    ∃ d G' entries rest, Forms ec ripemd G d ∧ FormedFrom ec ripemd G G' entries d ∧
      G'.filterMap LocalDeltas.auth = g :: rest := by
  obtain ⟨ld, hld, hauth⟩ := List.mem_filterMap.mp h
  obtain ⟨rest, hperm⟩ := exists_perm_cons hld
  obtain ⟨entries, hentries⟩ := Quot.exists_rep
    ((mergedCash ripemd ((ld :: rest).filterMap LocalDeltas.cash)).getD Cash.Delta.create).m.entries
  obtain ⟨d, hforms, hformed⟩ : ∃ d, Forms ec ripemd G d ∧
    FormedFrom ec ripemd G (ld :: rest) entries d := exists_forms hkeys hperm hentries
  exact ⟨d, _, entries, rest.filterMap LocalDeltas.auth, hforms, hformed, by simp [hauth]⟩

/-- The diffs that nodes may form from the contributions have one text and one hash. -/
def OrderIndependent (ec : Ec PubKey) (ripemd : List UInt8 → Ripemd160) (fmt : Format)
    (G : List (LocalDeltas PubKey)) : Prop :=
  ∀ d d', Forms ec ripemd G d → Forms ec ripemd G d' →
    d.toStream fmt = d'.toStream fmt ∧ d.hash ripemd fmt = d'.hash ripemd fmt

/-- Two addresses for one candidate give two diffs: the contribution that is
added first decides. -/
theorem OrderIndependent.hallsAgree (h : OrderIndependent ec ripemd fmt G)
    (hkeys : (G.map fun g => ec.hash g.pubkey).Nodup) : HallsAgree G := by
  intro g hg g' hg' k a a' ha ha'
  obtain ⟨d, G₁, entries, rest, hforms, hformed, hfirst⟩ :=
    exists_forms_first ripemd hkeys hg
  obtain ⟨d', G₂, entries', rest', hforms', hformed', hfirst'⟩ :=
    exists_forms_first ripemd hkeys hg'
  have hhall := ((hformed.toStream_eq_iff hformed').mp (h d d' hforms hforms').1).1
  rw [hfirst, hfirst'] at hhall
  have hlookup := lookup_hallOf_cons rest ha
  rw [hhall, lookup_hallOf_cons rest' ha'] at hlookup
  exact (Option.some.inj hlookup).symm

/-- Two most common pools with different texts give two diffs. -/
theorem OrderIndependent.winnersAlike (h : OrderIndependent ec ripemd fmt G)
    (hkeys : (G.map fun g => ec.hash g.pubkey).Nodup) : WinnersAlike ripemd fmt G := by
  intro g g' hg hg'
  obtain ⟨d, G₁, entries, hforms, hformed, rfl⟩ := exists_forms_winner hkeys hg
  obtain ⟨d', G₂, entries', hforms', hformed', rfl⟩ := exists_forms_winner hkeys hg'
  have hne : G.filterMap LocalDeltas.cash ≠ [] := List.ne_nil_of_mem hg.1
  exact ((hformed.toStream_eq_iff hformed').mp (h d d' hforms hforms').1).2.resolve_left hne

/-- Without such contributions the order does not show. -/
theorem orderIndependent_of (hkeys : (G.map fun g => ec.hash g.pubkey).Nodup)
    (hhalls : HallsAgree G) (hwinners : WinnersAlike ripemd fmt G) :
    OrderIndependent ec ripemd fmt G := by
  intro d d' hforms hforms'
  obtain ⟨G₁, entries, hformed⟩ := hforms.formedFrom hkeys
  obtain ⟨G₂, entries', hformed'⟩ := hforms'.formedFrom hkeys
  have htext : d.toStream fmt = d'.toStream fmt := by
    rw [hformed.toStream_eq_iff hformed']
    refine ⟨hhalls.hallOf_eq hformed.perm hformed'.perm, ?_⟩
    by_cases hne : G.filterMap LocalDeltas.cash = []
    · exact Or.inl hne
    · exact Or.inr (hwinners _ _ (hformed.isMostCommon hne) (hformed'.isMostCommon hne))
  exact ⟨htext, by rw [Diff.hash, Diff.hash, htext]⟩

/-- **Order independence of diffs.** All diffs that nodes may form from a set of
contributions of different keys have one text and one hash, exactly when no two
contributions disagree on the address of a candidate and all most common pools
have one text. -/
theorem diff_order_independent_iff (ec : Ec PubKey) (ripemd : List UInt8 → Ripemd160)
    (fmt : Format) (G : List (LocalDeltas PubKey))
    (hkeys : (G.map fun g => ec.hash g.pubkey).Nodup) :
    OrderIndependent ec ripemd fmt G ↔ HallsAgree G ∧ WinnersAlike ripemd fmt G :=
  ⟨fun h => ⟨h.hallsAgree hkeys, h.winnersAlike hkeys⟩,
    fun ⟨hhalls, hwinners⟩ => orderIndependent_of hkeys hhalls hwinners⟩

/-- Keys that are numbers, with their hashes. -/
def numberedKeys : Ec UInt32 where
  setB58 _ := none
  hash k := Ripemd160.set k
  verify _ _ _ := false
  verifyNotNormalized _ _ _ := false

/-- Numbers are printed as fractions. -/
def plainFormat : Format where
  double v := intText v.num ++ '/' :: natText v.den
  blankFree_double v := by
    intro c hc
    rcases List.mem_append.mp hc with hc | hc
    · exact blankFree_intText _ c hc
    · rcases List.mem_cons.mp hc with rfl | hc
      · rfl
      · exact blankFree_natText _ c hc

/-- A contribution that has one candidate, key 9, with the given address. -/
def candidateAt (pubkey : UInt32) (address : Auth.Address) : LocalDeltas UInt32 where
  pubkey := pubkey
  signature := []
  auth := some ⟨fun _ => 0, [(Ripemd160.set 9, address)]⟩
  cash := none

/-- Contributions of two keys that agree on the address of the candidate. -/
theorem same_address_order_independent :
    OrderIndependent numberedKeys (fun _ => Ripemd160.zero) plainFormat
      [candidateAt 1 ⟨['a'], by decide⟩, candidateAt 2 ⟨['a'], by decide⟩] := by
  apply (diff_order_independent_iff _ _ _ _ (by decide)).mpr
  constructor
  · intro g hg g' hg' k a a' ha ha'
    have hone : ∀ g ∈ [candidateAt 1 ⟨['a'], by decide⟩, candidateAt 2 ⟨['a'], by decide⟩].filterMap
        LocalDeltas.auth, g.toHall = [(Ripemd160.set 9, ⟨['a'], by decide⟩)] := by
      simp [candidateAt]
    rw [hone g hg] at ha
    rw [hone g' hg', ha] at ha'
    exact Option.some.inj ha'
  · intro g g' hg
    exact absurd hg.1 (by simp [candidateAt])

/-- Contributions of two keys that saw the candidate at different addresses. -/
theorem two_addresses_order_dependent :
    ¬ OrderIndependent numberedKeys (fun _ => Ripemd160.zero) plainFormat
      [candidateAt 1 ⟨['a'], by decide⟩, candidateAt 2 ⟨['b'], by decide⟩] := by
  intro h
  have hagree := h.hallsAgree (by decide)
  have := hagree ⟨fun _ => 0, [(Ripemd160.set 9, ⟨['a'], by decide⟩)]⟩ (by simp [candidateAt])
    ⟨fun _ => 0, [(Ripemd160.set 9, ⟨['b'], by decide⟩)]⟩ (by simp [candidateAt])
    (Ripemd160.set 9) ⟨['a'], by decide⟩ ⟨['b'], by decide⟩ rfl rfl
  simp at this

end AcCore.Gov.Engine
