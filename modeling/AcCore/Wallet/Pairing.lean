import AcCore.Gov.PubKey
import AcCore.Lib.Table

/-!
# Paired devices

The wallet serves the devices whose public keys are in its list, and the first one that
asks while the list is empty. The list is a file of words, a key and a name for each
device, without a mark where a name begins or ends. It is read back when the wallet is
started.
-/

namespace AcCore.Pairing

open Lib Gov

/-- `pairing::device`; a public key that is not valid is none. -/
structure Device (PubKey : Type) where
  pub : Option PubKey
  name : Text
  deriving DecidableEq

/-- `devices_t`, by the hashes of the keys. -/
abbrev Devices (PubKey : Type) := Table Ripemd160 (Device PubKey)

/-- The wallet's list of devices and the file with it. -/
structure State (PubKey : Type) where
  devices : Devices PubKey
  file : Text

/-- The calls of a wallet. -/
inductive Call (PubKey : Type) where
  | pair (pub : Option PubKey) (name : Text)
  | unpair (pub : Option PubKey)
  | authorize (pub : Option PubKey)

/-- `device::default_name`. -/
def defaultName : Text := ['m', 'y', ' ', 'd', 'e', 'v', 'i', 'c', 'e']

/-- The name of the device that finds the list empty. -/
def firstSeenName : Text :=
  ['F', 'i', 'r', 's', 't', '_', 's', 'e', 'e', 'n', '_', 'd', 'e', 'v', 'i', 'c', 'e']

/-- The default name is more than one word. -/
theorem not_isWord_defaultName : ¬ IsWord defaultName := by decide

/-- The name of a device that was seen is one word. -/
theorem isWord_firstSeenName : IsWord firstSeenName := by decide

section Definitions

variable {PrivKey PubKey : Type} (curve : Curve PrivKey PubKey) (ripemd : List UInt8 → Ripemd160)

/-- `operator <<` of a key. -/
def pubText : Option PubKey → Text
  | none => []
  | some k => curve.toB58 k

/-- `operator >>` of a key. -/
def extractPub (s : Option Text) : Option PubKey × Option Text :=
  let (w, s) := extract s
  match curve.setB58 w with
  | none => (none, none)
  | some k => (some k, s)

namespace Device

/-- `to_stream`. -/
def toStream (d : Device PubKey) : Text := pubText curve d.pub ++ ' ' :: d.name

/-- `from_stream`, with the stream that is left. -/
def fromStream (s : Option Text) : (Bool × Device PubKey) × Option Text :=
  let (pub, s) := extractPub curve s
  let (name, s) := extract s
  ((isGood s, ⟨pub, name⟩), s)

end Device

/-- The loop of `load_`. -/
def loadLoop : ℕ → Option Text → Devices PubKey → Devices PubKey
  | 0, _, t => t
  | fuel + 1, s, t =>
    if isGood s then
      let ((first, d), s) := Device.fromStream curve s
      if first = false then t
      else if d.pub.isNone then t
      else loadLoop fuel s (Table.emplace (Pub.hashOf curve ripemd d.pub) d t)
    else t

/-- `load_`. -/
def load (file : Text) : Devices PubKey := loadLoop curve ripemd (file.length + 1) (some file) ∅

/-- What `save_` writes, for the order in which the table is iterated. -/
def fileText (order : List (Ripemd160 × Device PubKey)) : Text :=
  order.flatMap fun e => e.2.toStream curve ++ [' ']

variable [DecidableEq PubKey]

/-- `save_`; `none` when the list is not an order of the table. -/
def save (t : Devices PubKey) (order : List (Ripemd160 × Device PubKey)) :
    Option (State PubKey) :=
  if order.Perm t.toList then some ⟨t, fileText curve order⟩ else none

/-- What `authorize` returns. -/
def authorized (t : Devices PubKey) (p : Option PubKey) : Bool :=
  t = ∅ ∨ Pub.hashOf curve ripemd p ∈ t

/-- The table after `pair`: the name of a device that is new is the one that is given, and
that of a device that is known the default name instead of none. -/
def pair (t : Devices PubKey) (pub : Option PubKey) (name : Text) : Devices PubKey :=
  let n := if name = [] then defaultName else name
  match t.lookup (Pub.hashOf curve ripemd pub) with
  | none => t.insert (Pub.hashOf curve ripemd pub) ⟨pub, name⟩
  | some d => t.insert (Pub.hashOf curve ripemd pub) { d with name := n }

/-- A call; the order is that in which the table is iterated if it is saved. -/
def step (s : State PubKey) :
    Call PubKey × List (Ripemd160 × Device PubKey) → Option (State PubKey)
  | (.pair pub name, order) => save curve (pair curve ripemd s.devices pub name) order
  | (.unpair pub, order) =>
    if Pub.hashOf curve ripemd pub ∈ s.devices then
      save curve (s.devices.erase (Pub.hashOf curve ripemd pub)) order
    else some s
  | (.authorize pub, order) =>
    if s.devices = ∅ then
      save curve (s.devices.insert (Pub.hashOf curve ripemd pub) ⟨pub, firstSeenName⟩) order
    else some s

/-- The constructor, on the file that is found. -/
def start (file : Text) : State PubKey := ⟨load curve ripemd file, file⟩

/-- The list survives a restart, and so does who is authorized. -/
structure Persists (s : State PubKey) : Prop where
  devices : load curve ripemd s.file = s.devices
  authorized : ∀ p, authorized curve ripemd (load curve ripemd s.file) p = true ↔
    s.devices = ∅ ∨ Pub.hashOf curve ripemd p ∈ s.devices

/-- What is put into the list has a valid key, and one word for its name. -/
def Plain (s : State PubKey) :
    Call PubKey × List (Ripemd160 × Device PubKey) → Prop
  | (.pair pub name, _) =>
    IsWord name ∧ (pub.isSome ∨ Pub.hashOf curve ripemd pub ∈ s.devices)
  | (.unpair _, _) => True
  | (.authorize pub, _) => s.devices = ∅ → pub.isSome

end Definitions

variable {PrivKey PubKey : Type} {curve : Curve PrivKey PubKey} {ripemd : List UInt8 → Ripemd160}

/-! ## Loading -/

/-- A device that can be read back: under its key, with a valid key and a word for a name. -/
structure Readable (curve : Curve PrivKey PubKey) (ripemd : List UInt8 → Ripemd160)
    (e : Ripemd160 × Device PubKey) : Prop where
  key : e.1 = Pub.hashOf curve ripemd e.2.pub
  valid : e.2.pub.isSome
  isWord : IsWord e.2.name

/-- The empty text is no key. -/
theorem setB58_nil : curve.setB58 [] = none := by
  have hdecode : Base58.decode [] = some [] := Base58.decode_encode []
  rw [Curve.setB58, hdecode]
  rfl

/-- A blank in front of a word is skipped. -/
theorem extract_blank (s : Text) : extract (some (' ' :: s)) = extract (some s) := by
  have hblank : isSpace ' ' = true := rfl
  simp only [extract, readWord, List.dropWhile_cons_of_pos hblank]

/-- A blank before a device makes no difference. -/
theorem fromStream_blank (s : Text) :
    Device.fromStream curve (some (' ' :: s)) = Device.fromStream curve (some s) := by
  rw [Device.fromStream, Device.fromStream, extractPub, extractPub, extract_blank]

/-- A stream is good as long as something is left in it. -/
theorem isGood_some {s : Text} : isGood (some s) = true ↔ s ≠ [] := by
  cases s <;> simp [isGood]

/-- A word followed by a blank is extracted with the rest left. -/
theorem extract_word {w : Text} (hw : IsWord w) (s : Text) :
    extract (some (w ++ ' ' :: s)) = (w, some (' ' :: s)) := by
  simp only [extract, readWord_append hw]

/-- A record is read as it was written. -/
theorem fromStream_toStream (hcurve : curve.Lawful) {d : Device PubKey} (hvalid : d.pub.isSome)
    (hname : IsWord d.name) (s : Text) :
    Device.fromStream curve (some (d.toStream curve ++ ' ' :: s)) =
      ((true, d), some (' ' :: s)) := by
  obtain ⟨pub, name⟩ := d
  obtain ⟨k, rfl⟩ := Option.isSome_iff_exists.mp hvalid
  have htext : Device.toStream curve ⟨some k, name⟩ ++ ' ' :: s =
      curve.toB58 k ++ ' ' :: (name ++ ' ' :: s) := by
    simp [Device.toStream, pubText]
  rw [htext, Device.fromStream, extractPub, extract_word (hcurve.isWord_toB58 k)]
  simp only [hcurve.setB58_toB58]
  rw [extract_blank, extract_word hname]
  rfl

/-- What is read with success has a name that is a word. -/
theorem isWord_of_fromStream {s s' : Option Text} {d : Device PubKey}
    (h : Device.fromStream curve s = ((true, d), s')) : IsWord d.name := by
  unfold Device.fromStream at h
  obtain ⟨⟨hgood, rfl⟩, rfl⟩ := by simpa only [Prod.mk.injEq] using h
  cases hs : (extractPub curve s).2 with
  | none =>
    rw [hs] at hgood
    cases hgood
  | some text =>
    rw [hs, extract] at hgood
    rw [extract]
    cases hword : readWord text with
    | none =>
      rw [hword] at hgood
      cases hgood
    | some word => exact isWord_of_readWord hword

/-- The loop on the records of devices that can be read back. -/
theorem loadLoop_fileText (hcurve : curve.Lawful) {es : List (Ripemd160 × Device PubKey)}
    (hes : ∀ e ∈ es, Readable curve ripemd e) {fuel : ℕ} (hfuel : es.length < fuel) {blank : Text}
    (hblank : blank = [] ∨ blank = [' ']) (t : Devices PubKey) :
    loadLoop curve ripemd fuel (some (blank ++ fileText curve es)) t =
      es.foldl (fun t e => Table.emplace e.1 e.2 t) t := by
  induction es generalizing fuel blank t with
  | nil =>
    obtain ⟨fuel, rfl⟩ := Nat.exists_eq_succ_of_ne_zero (by omega : fuel ≠ 0)
    rcases hblank with rfl | rfl
    · rfl
    · simp [loadLoop, isGood, Device.fromStream, extractPub, extract, readWord, isSpace, setB58_nil,
        fileText]
  | cons e es ih =>
    obtain ⟨fuel, rfl⟩ := Nat.exists_eq_succ_of_ne_zero (by omega : fuel ≠ 0)
    obtain ⟨k, d⟩ := e
    obtain ⟨hkey, hvalid, hname⟩ := hes (k, d) List.mem_cons_self
    have htext : fileText curve ((k, d) :: es) = d.toStream curve ++ ' ' :: fileText curve es := by
      simp [fileText]
    have hread : Device.fromStream curve (some (blank ++ fileText curve ((k, d) :: es))) =
        ((true, d), some (' ' :: fileText curve es)) := by
      rw [htext]
      rcases hblank with rfl | rfl
      · exact fromStream_toStream hcurve hvalid hname _
      · exact (fromStream_blank _).trans (fromStream_toStream hcurve hvalid hname _)
    have hgood : isGood (some (blank ++ fileText curve ((k, d) :: es))) = true := by
      rw [htext, isGood_some]
      simp
    have hrest := ih (fun e he => hes e (List.mem_cons_of_mem _ he))
      (Nat.succ_lt_succ_iff.mp hfuel) (Or.inr rfl) (Table.emplace k d t)
    have hvalid' : ¬ d.pub.isNone = true := by
      rw [Option.isNone_iff_eq_none]
      exact Option.isSome_iff_ne_none.mp hvalid
    rw [loadLoop, if_pos hgood, hread]
    dsimp only
    rw [if_neg Bool.true_eq_false.mp, if_neg hvalid', List.foldl_cons, ← hrest, ← hkey]
    rfl

/-- What is loaded can be read back again. -/
theorem readable_of_loadLoop {fuel : ℕ} {s : Option Text} {t : Devices PubKey}
    (ht : ∀ k d, t.lookup k = some d → Readable curve ripemd (k, d)) :
    ∀ k d, (loadLoop curve ripemd fuel s t).lookup k = some d → Readable curve ripemd (k, d) := by
  induction fuel generalizing s t with
  | zero => exact ht
  | succ fuel ih =>
    unfold loadLoop
    split
    · cases hread : Device.fromStream curve s with
      | mk record rest =>
        obtain ⟨first, d⟩ := record
        dsimp only
        split_ifs with hfirst hvalid
        · exact ht
        · exact ht
        · refine ih fun k d' hlookup => ?_
          rw [Table.lookup_emplace] at hlookup
          split_ifs at hlookup with hk
          · subst hk
            cases hold : t.lookup (Pub.hashOf curve ripemd d.pub) with
            | none =>
              rw [hold, Option.getD_none] at hlookup
              obtain rfl := Option.some.inj hlookup
              have htrue : first = true := by simpa using hfirst
              subst htrue
              exact ⟨rfl, by simpa [Option.isSome_iff_ne_none] using hvalid,
                isWord_of_fromStream hread⟩
            | some old =>
              rw [hold, Option.getD_some] at hlookup
              exact ht _ _ (hold.trans hlookup)
          · exact ht k d' hlookup
    · exact ht


/-- Extraction shortens the stream. -/
theorem length_lt_of_extract {s s' : Text} (h : (extract (some s)).2 = some s') :
    s'.length < s.length := by
  unfold extract readWord at h
  cases hdrop : s.dropWhile isSpace with
  | nil => simp [hdrop] at h
  | cons c rest =>
    have hc : isSpace c = false := by
      have := List.head?_dropWhile_not isSpace s
      rw [hdrop] at this
      simpa using this
    simp only [hdrop, Option.some.injEq] at h
    have hskipped := (List.dropWhile_suffix isSpace (l := s)).length_le
    have hrest := (List.dropWhile_suffix (fun c => !isSpace c) (l := rest)).length_le
    rw [hdrop, List.length_cons] at hskipped
    rw [List.dropWhile_cons_of_pos (by simp [hc])] at h
    rw [← h]
    omega

/-- Reading a device leaves less of the text. -/
theorem length_lt_of_fromStream {s : Text} {rest : Option Text} {d : Device PubKey}
    (h : Device.fromStream curve (some s) = ((true, d), rest)) :
    ∃ s', rest = some s' ∧ s'.length < s.length := by
  unfold Device.fromStream at h
  obtain ⟨⟨hgood, rfl⟩, rfl⟩ := by simpa only [Prod.mk.injEq] using h
  cases hkey : (extractPub curve (some s)).2 with
  | none =>
    rw [hkey] at hgood
    cases hgood
  | some s₁ =>
    rw [hkey] at hgood
    cases hname : (extract (some s₁)).2 with
    | none =>
      rw [hname] at hgood
      cases hgood
    | some s₂ =>
      have hword : (extract (some s)).2 = some s₁ := by
        unfold extractPub at hkey
        dsimp only at hkey
        split at hkey
        · cases hkey
        · exact hkey
      have hfirst := length_lt_of_extract hword
      have hsecond := length_lt_of_extract hname
      exact ⟨s₂, rfl, by omega⟩

/-- The fuel of the loop is never used up: no more than the length of the text is needed. -/
theorem loadLoop_congr {s : Text} {fuel fuel' : ℕ} (h : s.length < fuel) (h' : s.length < fuel')
    (t : Devices PubKey) :
    loadLoop curve ripemd fuel (some s) t = loadLoop curve ripemd fuel' (some s) t := by
  induction fuel generalizing fuel' s t with
  | zero => omega
  | succ fuel ih =>
    obtain ⟨fuel', rfl⟩ := Nat.exists_eq_succ_of_ne_zero (by omega : fuel' ≠ 0)
    unfold loadLoop
    cases hread : Device.fromStream curve (some s) with
    | mk record rest =>
      obtain ⟨first, d⟩ := record
      dsimp only
      split_ifs with hgood hfirst hvalid
      · rfl
      · rfl
      · have htrue : first = true := by simpa using hfirst
        subst htrue
        obtain ⟨s', rfl, hlt⟩ := length_lt_of_fromStream hread
        exact ih (by omega) (by omega) _
      · rfl

/-- A file is at least as long as it has devices. -/
theorem length_fileText (es : List (Ripemd160 × Device PubKey)) :
    es.length ≤ (fileText curve es).length := by
  induction es with
  | nil => exact le_rfl
  | cons e es ih =>
    simp only [fileText, List.flatMap_cons, List.length_append, List.length_cons] at ih ⊢
    omega

/-- A list that is saved is loaded again exactly when all its devices can be read back. -/
theorem load_fileText_iff (hcurve : curve.Lawful) {t : Devices PubKey}
    {order : List (Ripemd160 × Device PubKey)} (horder : order.Perm t.toList) :
    load curve ripemd (fileText curve order) = t ↔
      ∀ k d, t.lookup k = some d → Readable curve ripemd (k, d) := by
  constructor
  · intro hload k d hlookup
    rw [← hload] at hlookup
    exact readable_of_loadLoop (fun k d h => by simp at h) k d hlookup
  · intro hreadable
    have hes : ∀ e ∈ order, Readable curve ripemd e := fun e he =>
      hreadable e.1 e.2 (Table.mem_toList.mp (horder.mem_iff.mp he))
    have hfuel : order.length < (fileText curve order).length + 1 :=
      Nat.lt_succ_of_le (length_fileText order)
    have hloop := loadLoop_fileText hcurve hes hfuel (Or.inl rfl) ∅
    exact hloop.trans (Table.foldl_emplace_of_perm horder)

/-! ## The calls -/

variable [DecidableEq PubKey]

/-- Who is authorized depends on the list only. -/
theorem persists_iff {s : State PubKey} :
    Persists curve ripemd s ↔ load curve ripemd s.file = s.devices := by
  refine ⟨fun h => h.devices, fun h => ⟨h, fun p => ?_⟩⟩
  rw [h, authorized, decide_eq_true_iff]

/-- Saving keeps the table, and the file has it exactly when every entry is readable. -/
theorem save_spec {t : Devices PubKey} {order : List (Ripemd160 × Device PubKey)}
    {s : State PubKey} (hcurve : curve.Lawful) (h : save curve t order = some s) :
    s.devices = t ∧
      (Persists curve ripemd s ↔ ∀ k d, t.lookup k = some d → Readable curve ripemd (k, d)) := by
  unfold save at h
  split_ifs at h with horder
  obtain rfl := Option.some.inj h
  exact ⟨rfl, persists_iff.trans (load_fileText_iff hcurve horder)⟩

omit [DecidableEq PubKey] in
/-- All devices can be read back after one is written exactly when this one can. -/
theorem readable_insert_iff {t : Devices PubKey} {k : Ripemd160} {d : Device PubKey}
    (ht : ∀ k d, t.lookup k = some d → Readable curve ripemd (k, d)) :
    (∀ k' d', (t.insert k d).lookup k' = some d' → Readable curve ripemd (k', d')) ↔
      Readable curve ripemd (k, d) := by
  constructor
  · exact fun h => h k d (Finmap.lookup_insert t)
  · intro h k' d' hlookup
    by_cases hk : k' = k
    · subst hk
      rw [Finmap.lookup_insert] at hlookup
      exact Option.some.inj hlookup ▸ h
    · rw [Finmap.lookup_insert_of_ne _ hk] at hlookup
      exact ht k' d' hlookup

omit [DecidableEq PubKey] in
/-- The device that `pair` writes can be read back exactly when its name is a word and,
if it is new, its key is valid. -/
theorem readable_pair_iff {t : Devices PubKey} {pub : Option PubKey} {name : Text}
    (ht : ∀ k d, t.lookup k = some d → Readable curve ripemd (k, d)) :
    (∀ k d, (pair curve ripemd t pub name).lookup k = some d → Readable curve ripemd (k, d)) ↔
      IsWord name ∧ (pub.isSome ∨ Pub.hashOf curve ripemd pub ∈ t) := by
  unfold pair
  cases hlookup : t.lookup (Pub.hashOf curve ripemd pub) with
  | none =>
    dsimp only
    rw [readable_insert_iff ht]
    have hnew : Pub.hashOf curve ripemd pub ∉ t := Finmap.lookup_eq_none.mp hlookup
    constructor
    · exact fun h => ⟨h.isWord, Or.inl h.valid⟩
    · exact fun h => ⟨rfl, h.2.resolve_right hnew, h.1⟩
  | some d =>
    dsimp only
    rw [readable_insert_iff ht]
    have hold := ht _ d hlookup
    constructor
    · intro h
      refine ⟨?_, Or.inr (Finmap.mem_of_lookup_eq_some hlookup)⟩
      by_cases hempty : name = []
      · -- the default name is two words
        have hdefault := h.isWord
        dsimp only at hdefault
        rw [if_pos hempty] at hdefault
        exact absurd hdefault not_isWord_defaultName
      · have hname := h.isWord
        dsimp only at hname
        rwa [if_neg hempty] at hname
    · rintro ⟨hname, -⟩
      refine ⟨hold.key, hold.valid, ?_⟩
      dsimp only
      rwa [if_neg hname.1]

/-- Where the list survives a restart it does so after a call exactly when the call puts
nothing else into it than devices that can be read back. -/
theorem persists_step_iff (hcurve : curve.Lawful) {s s' : State PubKey}
    {e : Call PubKey × List (Ripemd160 × Device PubKey)} (hs : Persists curve ripemd s)
    (h : step curve ripemd s e = some s') :
    Persists curve ripemd s' ↔ Plain curve ripemd s e := by
  have hreadable : ∀ k d, s.devices.lookup k = some d → Readable curve ripemd (k, d) := by
    rw [← hs.devices]
    exact readable_of_loadLoop (fun k d h => by simp at h)
  obtain ⟨call, order⟩ := e
  cases call with
  | pair pub name =>
    rw [(save_spec hcurve h).2, readable_pair_iff hreadable]
    rfl
  | unpair pub =>
    simp only [step] at h
    split_ifs at h with hmem
    · rw [(save_spec hcurve h).2]
      refine iff_of_true (fun k d hlookup => ?_) trivial
      by_cases hk : k = Pub.hashOf curve ripemd pub
      · rw [hk, Finmap.lookup_erase] at hlookup
        cases hlookup
      · rw [Finmap.lookup_erase_ne hk] at hlookup
        exact hreadable k d hlookup
    · obtain rfl := Option.some.inj h
      exact iff_of_true hs trivial
  | authorize pub =>
    simp only [step] at h
    split_ifs at h with hempty
    · rw [(save_spec hcurve h).2, readable_insert_iff hreadable]
      constructor
      · exact fun h _ => h.valid
      · exact fun h => ⟨rfl, h hempty, isWord_firstSeenName⟩
    · obtain rfl := Option.some.inj h
      exact iff_of_true hs fun h => absurd h hempty

/-- **Paired devices persist** in every state of a run exactly when the devices that are
put into the list have valid keys, and names that are one word. -/
theorem persists_iff_plain (hcurve : curve.Lawful) {file : Text}
    {es : List (Call PubKey × List (Ripemd160 × Device PubKey))} {t : State PubKey}
    (h : run (step curve ripemd) (start curve ripemd file) es = some t) :
    (∀ es' u, es' <+: es → run (step curve ripemd) (start curve ripemd file) es' = some u →
      Persists curve ripemd u) ↔
        AlongRun (step curve ripemd) (Plain curve ripemd) (start curve ripemd file) es :=
  safe_iff_alongRun (fun _ _ _ (_ : True) _ => trivial)
    (fun _ _ _ _ hs hstep => persists_step_iff hcurve hs hstep) trivial
    (persists_iff.mpr rfl) h

/-! ## Two devices -/

/-- The record of a device. -/
def record (k : Bool) (name : Text) : Ripemd160 × Device Bool :=
  (Pub.hashOf Curve.ofTwoKeys Curve.firstByte (some k), ⟨some k, name⟩)

/-- Two devices are paired, and the first of them is unpaired. -/
def pairTwo : List (Call Bool × List (Ripemd160 × Device Bool)) :=
  [(.pair (some true) ['a'], [record true ['a']]),
    (.pair (some false) ['b'], [record false ['b'], record true ['a']]),
    (.unpair (some true), [record false ['b']])]

/-- A run that pairs two devices of plain names: the file has the table after every call. -/
theorem persists_iff_plain_pairTwo :
    ∃ t, run (step Curve.ofTwoKeys Curve.firstByte) (start Curve.ofTwoKeys Curve.firstByte [])
        pairTwo = some t ∧
      ∀ es' u, es' <+: pairTwo →
        run (step Curve.ofTwoKeys Curve.firstByte) (start Curve.ofTwoKeys Curve.firstByte [])
            es' = some u →
          Persists Curve.ofTwoKeys Curve.firstByte u := by
  obtain ⟨t, ht⟩ : ∃ t, run (step Curve.ofTwoKeys Curve.firstByte)
      (start Curve.ofTwoKeys Curve.firstByte []) pairTwo = some t :=
    Option.isSome_iff_exists.mp (by decide +kernel)
  refine ⟨t, ht, (persists_iff_plain Curve.lawful_ofTwoKeys ht).mpr (.of_forall fun e he s => ?_)⟩
  simp only [pairTwo, List.mem_cons, List.not_mem_nil, or_false] at he
  rcases he with rfl | rfl | rfl
  · exact ⟨by decide, Or.inl rfl⟩
  · exact ⟨by decide, Or.inl rfl⟩
  · trivial

/-- A device that is paired without a name is not in the list after a restart, and a
stranger is authorized then. -/
theorem unnamed_not_persists :
    ∃ t, run (step Curve.ofTwoKeys Curve.firstByte) (start Curve.ofTwoKeys Curve.firstByte [])
        [(.pair (some true) [], [record true []])] = some t ∧
      ¬ Persists Curve.ofTwoKeys Curve.firstByte t ∧
      authorized Curve.ofTwoKeys Curve.firstByte
        (load Curve.ofTwoKeys Curve.firstByte t.file) (some false) = true := by
  have hview : (run (step Curve.ofTwoKeys Curve.firstByte)
      (start Curve.ofTwoKeys Curve.firstByte [])
      [(.pair (some true) [], [record true []])]).map (fun t =>
        (decide (load Curve.ofTwoKeys Curve.firstByte t.file = t.devices),
          authorized Curve.ofTwoKeys Curve.firstByte (load Curve.ofTwoKeys Curve.firstByte t.file)
            (some false))) = some (false, true) := by
    decide +kernel
  obtain ⟨t, ht, hpair⟩ := Option.map_eq_some_iff.mp hview
  obtain ⟨hload, hstranger⟩ := Prod.mk.inj hpair
  exact ⟨t, ht, fun h => of_decide_eq_false hload h.devices, hstranger⟩

end AcCore.Pairing
