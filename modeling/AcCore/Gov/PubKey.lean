import AcCore.Gov.Curve
import AcCore.Lib.Run

/-!
# Public keys and their cached hash

A public key computes its hash when it is asked for it first, and keeps it. Copies take
the hash along with the key. The functions that read a key from a text write the key and
leave the hash as it is, and the assignment of a text writes nothing.
-/

namespace AcCore.Gov

open Lib

/-- `pub_t`. -/
structure Pub (PubKey : Type) where
  data : PubKey
  valid : Bool
  h : Bool
  hashCached : Ripemd160
  deriving DecidableEq

namespace Pub

section Definitions

variable {PrivKey PubKey : Type} (curve : Curve PrivKey PubKey) (ripemd : List UInt8 → Ripemd160)
  (unparsed : List UInt8 → PubKey)

/-- The default constructor; the data is what was in the memory. -/
def create (data : PubKey) : Pub PubKey := ⟨data, false, false, Ripemd160.zero⟩

/-- `compute_hash`. -/
def computeHash (p : Pub PubKey) : Ripemd160 :=
  if p.valid then ripemd (curve.pubkeySerialize p.data) else Ripemd160.set 0

/-- `hash`, with the object that it leaves. -/
def hash (p : Pub PubKey) : Ripemd160 × Pub PubKey :=
  if p.h then (p.hashCached, p)
  else (p.computeHash curve ripemd, { p with h := true, hashCached := p.computeHash curve ripemd })

/-- `zero`. -/
def zero (p : Pub PubKey) : Pub PubKey := { p with valid := false }

/-- `set_b58`, with the object that it leaves. A key that cannot be parsed leaves data that
the library does not tell. -/
def setB58 (p : Pub PubKey) (s : Text) : Bool × Pub PubKey :=
  match Base58.decode s with
  | none => (false, p)
  | some v =>
    if v.length ≠ 33 then (false, p)
    else
      match curve.pubkeyParse v with
      | none => (false, { p with data := unparsed v, valid := false })
      | some k => (true, { p with data := k, valid := true })

/-- `operator >>`, after the text is extracted. -/
def extract (p : Pub PubKey) (s : Text) : Pub PubKey :=
  match p.setB58 curve unparsed s with
  | (true, p) => p
  | (false, p) => p.zero

/-- `from_b58`, with data that was in the memory. -/
def fromB58 (data : PubKey) (s : Text) : Pub PubKey :=
  match Base58.decode s with
  | none => (create data).zero
  | some v =>
    if v = [] then (create data).zero
    else
      match curve.pubkeyParse v with
      | none => { create data with data := unparsed v }.zero
      | some k => { create data with data := k, valid := true }

/-- `operator =` of a text: what `from_b58` returns is dropped. -/
def assignText (p : Pub PubKey) (data : PubKey) (s : Text) : Pub PubKey :=
  let _ := fromB58 curve unparsed data s
  p

/-- The key of an object; `none` when it is not valid. -/
def key (p : Pub PubKey) : Option PubKey := if p.valid then some p.data else none

/-- The hash of a key, which is 0 when there is none. -/
def hashOf : Option PubKey → Ripemd160
  | none => Ripemd160.set 0
  | some k => ripemd (curve.pubkeySerialize k)

end Definitions

end Pub

/-- The text is that of 33 bytes, the length of a key. -/
def IsKeyText (s : Text) : Prop := ∃ v, Base58.decode s = some v ∧ v.length = 33

/-- Whether a text is that of a key is decided by decoding it. -/
instance IsKeyText.decidable (t : Text) : Decidable (IsKeyText t) :=
  decidable_of_iff ((Base58.decode t).map List.length = some 33) (by simp [IsKeyText])

/-- What is done with the objects of a program, which have numbers here. -/
inductive PubOp (PubKey : Type) where
  | construct (i : ℕ) (data : PubKey)
  | copy (i j : ℕ)
  | assign (i j : ℕ)
  | assignText (i : ℕ) (data : PubKey) (s : Text)
  | setB58 (i : ℕ) (s : Text)
  | extract (i : ℕ) (s : Text)
  | zero (i : ℕ)
  | hash (i : ℕ)

/-- The objects of a program. -/
abbrev Pubs (PubKey : Type) := ℕ → Option (Pub PubKey)

namespace Pubs

variable {PrivKey PubKey : Type} (curve : Curve PrivKey PubKey) (ripemd : List UInt8 → Ripemd160)
  (unparsed : List UInt8 → PubKey)

/-- Writes an object. -/
def set (s : Pubs PubKey) (i : ℕ) (p : Pub PubKey) : Pubs PubKey := Function.update s i (some p)

/-- Changes an object, if there is one. -/
def modify (s : Pubs PubKey) (i : ℕ) (f : Pub PubKey → Pub PubKey) : Option (Pubs PubKey) :=
  (s i).map fun p => s.set i (f p)

/-- One operation. The copy constructor and the assignment take all members along. -/
def step (s : Pubs PubKey) : PubOp PubKey → Option (Pubs PubKey)
  | .construct i data => some (s.set i (Pub.create data))
  | .copy i j => (s j).map fun p => s.set i p
  | .assign i j => (s j).bind fun p => s.modify i fun _ => p
  | .assignText i data t => s.modify i fun p => p.assignText curve unparsed data t
  | .setB58 i t => s.modify i fun p => (p.setB58 curve unparsed t).2
  | .extract i t => s.modify i fun p => p.extract curve unparsed t
  | .zero i => s.modify i Pub.zero
  | .hash i => s.modify i fun p => (p.hash curve ripemd).2

/-- Every object answers with the hash of its key. -/
def HashesCurrent (s : Pubs PubKey) : Prop :=
  ∀ i p, s i = some p → (p.hash curve ripemd).1 = p.computeHash curve ripemd

/-- After the assignment of a text the object is the key that the text is read as. -/
def AssignsText (s : Pubs PubKey) : PubOp PubKey → Prop
  | .assignText i data t => ∀ s', step curve ripemd unparsed s (.assignText i data t) = some s' →
      ∀ p, s' i = some p → p.key = (Pub.fromB58 curve unparsed data t).key
  | _ => True

/-- An object that keeps a hash is left with a key of the same hash. -/
def KeepsHash (s : Pubs PubKey) : PubOp PubKey → Prop
  | .setB58 i t => ∀ p, s i = some p → p.h = true → IsKeyText t →
      Pub.hashOf curve ripemd (curve.setB58 t) = Pub.hashOf curve ripemd p.key
  | .extract i t => ∀ p, s i = some p → p.h = true →
      Pub.hashOf curve ripemd (curve.setB58 t) = Pub.hashOf curve ripemd p.key
  | .zero i => ∀ p, s i = some p → p.h = true →
      Pub.hashOf curve ripemd none = Pub.hashOf curve ripemd p.key
  | _ => True

/-- A text is assigned to an object that is its key already. -/
def AssignsKnown (s : Pubs PubKey) : PubOp PubKey → Prop
  | .assignText i data t => ∀ p, s i = some p → p.key = (Pub.fromB58 curve unparsed data t).key
  | _ => True

/-- Only calls of `set_b58` are asked about. -/
instance KeepsHash.decidable (s : Pubs PubKey) :
    ∀ op, Decidable (KeepsHash curve ripemd s op)
  | .setB58 i t => inferInstanceAs (Decidable (∀ p ∈ s i, p.h = true → IsKeyText t →
      Pub.hashOf curve ripemd (curve.setB58 t) = Pub.hashOf curve ripemd p.key))
  | .extract i t => inferInstanceAs (Decidable (∀ p ∈ s i, p.h = true →
      Pub.hashOf curve ripemd (curve.setB58 t) = Pub.hashOf curve ripemd p.key))
  | .zero i => inferInstanceAs (Decidable (∀ p ∈ s i, p.h = true →
      Pub.hashOf curve ripemd none = Pub.hashOf curve ripemd p.key))
  | .construct .. | .copy .. | .assign .. | .assignText .. | .hash .. => isTrue trivial

/-- Only assignments from text are asked about. -/
instance AssignsKnown.decidable [DecidableEq PubKey] (s : Pubs PubKey) :
    ∀ op, Decidable (AssignsKnown curve unparsed s op)
  | .assignText i data t => inferInstanceAs (Decidable (∀ p ∈ s i,
      p.key = (Pub.fromB58 curve unparsed data t).key))
  | .construct .. | .copy .. | .assign .. | .setB58 .. | .extract .. | .zero .. | .hash .. =>
    isTrue trivial

end Pubs

/-! ## One object -/

namespace Pub

variable {PrivKey PubKey : Type} {curve : Curve PrivKey PubKey} {ripemd : List UInt8 → Ripemd160}
  {unparsed : List UInt8 → PubKey} {p : Pub PubKey} {t : Text}

/-- The hash that an object keeps is that of its key. -/
def Current (curve : Curve PrivKey PubKey) (ripemd : List UInt8 → Ripemd160) (p : Pub PubKey) :
    Prop :=
  p.h = true → p.hashCached = hashOf curve ripemd p.key

/-- The computed hash is that of the key. -/
theorem computeHash_eq : p.computeHash curve ripemd = hashOf curve ripemd p.key := by
  unfold computeHash key
  split_ifs <;> rfl

/-- The cached hash is the computed one exactly when the cache is current. -/
theorem hash_eq_iff :
    (p.hash curve ripemd).1 = p.computeHash curve ripemd ↔ p.Current curve ripemd := by
  unfold hash Current
  rw [← computeHash_eq]
  split_ifs with hcached
  · simp [hcached]
  · simp [hcached]

/-- Asking for the hash changes neither the key nor the answer. -/
theorem current_hash (h : p.Current curve ripemd) :
    ((p.hash curve ripemd).2).Current curve ripemd := by
  unfold hash
  split_ifs with hcached
  · exact h
  · intro _
    rw [computeHash_eq]
    rfl

/-- Where the kept hash stays, it is that of the new key exactly when this has the same. -/
theorem current_iff {p' : Pub PubKey} (hp : p.Current curve ripemd) (hh : p'.h = p.h)
    (hcached : p'.hashCached = p.hashCached) : p'.Current curve ripemd ↔
      (p.h = true → hashOf curve ripemd p'.key = hashOf curve ripemd p.key) := by
  unfold Current
  rw [hh, hcached]
  constructor
  · exact fun h hset => (h hset).symm.trans (hp hset)
  · exact fun h hset => (hp hset).trans (h hset).symm

/-- Setting a key from text leaves the cache as it is. -/
theorem setB58_kept : (p.setB58 curve unparsed t).2.h = p.h ∧
    (p.setB58 curve unparsed t).2.hashCached = p.hashCached := by
  unfold setB58
  split
  · exact ⟨rfl, rfl⟩
  · split_ifs
    · exact ⟨rfl, rfl⟩
    · split <;> exact ⟨rfl, rfl⟩

/-- A text that is no key's leaves the object as it is. -/
theorem setB58_of_not (h : ¬ IsKeyText t) : p.setB58 curve unparsed t = (false, p) := by
  unfold setB58
  cases hdecode : Base58.decode t with
  | none => rfl
  | some v => exact if_pos fun hlength => h ⟨v, hdecode, hlength⟩

/-- The key that is read from a text. -/
theorem key_setB58 (h : IsKeyText t) : (p.setB58 curve unparsed t).2.key = curve.setB58 t ∧
    ((p.setB58 curve unparsed t).1 = false → curve.setB58 t = none) := by
  obtain ⟨v, hdecode, hlength⟩ := h
  rw [setB58, Curve.setB58, hdecode, Option.bind_some, if_pos hlength]
  dsimp only
  rw [if_neg (not_not.mpr hlength)]
  cases curve.pubkeyParse v with
  | none => exact ⟨rfl, fun _ => rfl⟩
  | some k => exact ⟨rfl, fun h => (by cases h)⟩

/-- A text that is no key text sets no key. -/
theorem curve_setB58_of_not (h : ¬ IsKeyText t) : curve.setB58 t = none := by
  unfold Curve.setB58
  cases hdecode : Base58.decode t with
  | none => rfl
  | some v =>
    rw [Option.bind_some]
    exact if_neg fun hlength => h ⟨v, hdecode, hlength⟩

/-- After an extraction the key is that of the text, or none. -/
theorem extract_spec : (p.extract curve unparsed t).key = curve.setB58 t ∧
    (p.extract curve unparsed t).h = p.h ∧
      (p.extract curve unparsed t).hashCached = p.hashCached := by
  have hkept : (p.setB58 curve unparsed t).2.h = p.h ∧
      (p.setB58 curve unparsed t).2.hashCached = p.hashCached := setB58_kept
  unfold extract
  by_cases ht : IsKeyText t
  · obtain ⟨hkey, hfalse⟩ : (p.setB58 curve unparsed t).2.key = curve.setB58 t ∧
        ((p.setB58 curve unparsed t).1 = false → curve.setB58 t = none) := key_setB58 ht
    cases hset : p.setB58 curve unparsed t with
    | mk ok p' =>
      rw [hset] at hkept hkey hfalse
      cases ok with
      | true => exact ⟨hkey, hkept⟩
      | false => exact ⟨(hfalse rfl).symm, hkept⟩
  · rw [setB58_of_not ht, curve_setB58_of_not ht]
    exact ⟨rfl, rfl, rfl⟩

end Pub

/-! ## The objects of a program -/

namespace Pubs

variable {PrivKey PubKey : Type} {curve : Curve PrivKey PubKey} {ripemd : List UInt8 → Ripemd160}
  {unparsed : List UInt8 → PubKey} {s s' : Pubs PubKey} {op : PubOp PubKey} {i : ℕ}
  {p : Pub PubKey}

/-- All hashes are current exactly when those of the objects are. -/
theorem hashesCurrent_iff :
    HashesCurrent curve ripemd s ↔ ∀ i p, s i = some p → p.Current curve ripemd := by
  simp only [HashesCurrent, Pub.hash_eq_iff]

/-- The object that was set. -/
theorem set_self : s.set i p i = some p := by rw [set, Function.update_self]

/-- After one object is written all answers are right exactly when its answer is. -/
theorem hashesCurrent_set (hs : HashesCurrent curve ripemd s) :
    HashesCurrent curve ripemd (s.set i p) ↔ p.Current curve ripemd := by
  rw [hashesCurrent_iff] at hs ⊢
  constructor
  · exact fun h => h i p set_self
  · intro h j q hq
    by_cases hj : j = i
    · subst hj
      rw [set_self] at hq
      exact Option.some.inj hq ▸ h
    · rw [set, Function.update_of_ne hj] at hq
      exact hs j q hq

/-- The same for an object that is changed. -/
theorem hashesCurrent_modify {f : Pub PubKey → Pub PubKey} (hs : HashesCurrent curve ripemd s)
    (h : s.modify i f = some s') :
    HashesCurrent curve ripemd s' ↔ ∀ p, s i = some p → (f p).Current curve ripemd := by
  obtain ⟨p, hp, rfl⟩ := Option.map_eq_some_iff.mp h
  rw [hashesCurrent_set hs]
  simp [hp]

/-- What an operation does to right answers. -/
theorem hashesCurrent_step (hs : HashesCurrent curve ripemd s)
    (h : step curve ripemd unparsed s op = some s') :
    HashesCurrent curve ripemd s' ↔ KeepsHash curve ripemd s op := by
  have hcurrent := hashesCurrent_iff.mp hs
  cases op with
  | construct i data =>
    obtain rfl := Option.some.inj h
    rw [hashesCurrent_set hs]
    exact iff_of_true (fun hset => (nomatch hset)) trivial
  | copy i j =>
    obtain ⟨p, hp, rfl⟩ := Option.map_eq_some_iff.mp h
    rw [hashesCurrent_set hs]
    exact iff_of_true (hcurrent j p hp) trivial
  | assign i j =>
    obtain ⟨p, hp, h⟩ := Option.bind_eq_some_iff.mp h
    rw [hashesCurrent_modify hs h]
    exact iff_of_true (fun _ _ => hcurrent j p hp) trivial
  | assignText i data t =>
    rw [hashesCurrent_modify hs h]
    exact iff_of_true (fun p hp => hcurrent i p hp) trivial
  | setB58 i t =>
    rw [hashesCurrent_modify hs h]
    refine forall₂_congr fun p hp => ?_
    rw [Pub.current_iff (hcurrent i p hp) Pub.setB58_kept.1 Pub.setB58_kept.2]
    by_cases ht : IsKeyText t
    · simp only [(Pub.key_setB58 ht).1, ht, forall_const]
    · simp [Pub.setB58_of_not ht, ht]
  | extract i t =>
    rw [hashesCurrent_modify hs h]
    refine forall₂_congr fun p hp => ?_
    rw [Pub.current_iff (hcurrent i p hp) Pub.extract_spec.2.1 Pub.extract_spec.2.2,
      Pub.extract_spec.1]
  | zero i =>
    rw [hashesCurrent_modify hs h]
    refine forall₂_congr fun p hp => ?_
    exact Pub.current_iff (hcurrent i p hp) rfl rfl
  | hash i =>
    rw [hashesCurrent_modify hs h]
    exact iff_of_true (fun p hp => Pub.current_hash (hcurrent i p hp)) trivial

/-- The assignment of a text leaves the object as it is. -/
theorem assignsText_iff :
    AssignsText curve ripemd unparsed s op ↔ AssignsKnown curve unparsed s op := by
  cases op with
  | assignText i data t =>
    constructor
    · intro h p hp
      have hstep : step curve ripemd unparsed s (.assignText i data t) = some (s.set i p) := by
        rw [step, modify, hp]
        rfl
      exact h _ hstep p set_self
    · intro h s' hstep p hp
      obtain ⟨q, hq, rfl⟩ := Option.map_eq_some_iff.mp hstep
      rw [set_self] at hp
      exact Option.some.inj hp ▸ h q hq
  | _ => exact Iff.rfl

/-- **The address of a public key.** All objects answer with the hash of their key after
each operation of a run, and take the key of a text that is assigned, exactly when no
object that keeps a hash is given a key with another, and a text is assigned to its own
key only. -/
theorem hashesCurrent_iff_keeps {ops : List (PubOp PubKey)} {t : Pubs PubKey}
    (h : run (step curve ripemd unparsed) (fun _ => none) ops = some t) :
    ((∀ ops' u, ops' <+: ops → run (step curve ripemd unparsed) (fun _ => none) ops' = some u →
        HashesCurrent curve ripemd u) ∧
      AlongRun (step curve ripemd unparsed) (AssignsText curve ripemd unparsed) (fun _ => none)
        ops) ↔
    AlongRun (step curve ripemd unparsed)
      (fun s op => KeepsHash curve ripemd s op ∧ AssignsKnown curve unparsed s op)
      (fun _ => none) ops := by
  have hinit : HashesCurrent curve ripemd (fun _ => none) := fun i p hp => (nomatch hp)
  rw [safe_iff_alongRun (fun _ _ _ (_ : True) _ => trivial)
    (fun _ _ _ _ hs hstep => hashesCurrent_step hs hstep) trivial hinit h]
  constructor
  · rintro ⟨hkeeps, hassigns⟩
    exact hkeeps.and (hassigns.imp fun _ _ => assignsText_iff.mp)
  · intro hboth
    exact ⟨hboth.imp fun _ _ hs => hs.1, hboth.imp fun _ _ hs => assignsText_iff.mpr hs.2⟩

/-! ## Two objects -/

/-- One object is read from a text and the other is a copy of it with the hash. -/
def copyOne : List (PubOp Bool) :=
  [.construct 0 true, .setB58 0 (Curve.ofTwoKeys.toB58 true), .hash 0, .copy 1 0, .hash 1,
    .extract 1 (Curve.ofTwoKeys.toB58 true),
    .assignText 0 false (Curve.ofTwoKeys.toB58 true)]

/-- A run that copies a key whose hash was computed: the hashes stay current. -/
theorem hashesCurrent_iff_keeps_copyOne :
    ∃ t, run (step Curve.ofTwoKeys Curve.firstByte fun _ => false) (fun _ => none) copyOne =
        some t ∧
      (∀ ops' u, ops' <+: copyOne →
        run (step Curve.ofTwoKeys Curve.firstByte fun _ => false) (fun _ => none) ops' = some u →
          HashesCurrent Curve.ofTwoKeys Curve.firstByte u) ∧
      AlongRun (step Curve.ofTwoKeys Curve.firstByte fun _ => false)
        (AssignsText Curve.ofTwoKeys Curve.firstByte fun _ => false) (fun _ => none) copyOne := by
  obtain ⟨t, ht⟩ : ∃ t, run (step Curve.ofTwoKeys Curve.firstByte fun _ => false)
      (fun _ => none) copyOne = some t :=
    Option.isSome_iff_exists.mp (by decide +kernel)
  refine ⟨t, ht, (hashesCurrent_iff_keeps ht).mpr ?_⟩
  decide +kernel

/-- A key that is read into an object after its hash was asked for. -/
def readAgain : List (PubOp Bool) :=
  [.construct 0 true, .setB58 0 (Curve.ofTwoKeys.toB58 true), .hash 0,
    .setB58 0 (Curve.ofTwoKeys.toB58 false)]

/-- The object answers with the hash of the key that it had before. -/
theorem readAgain_not_current :
    ∃ t, run (step Curve.ofTwoKeys Curve.firstByte fun _ => false) (fun _ => none) readAgain =
        some t ∧
      ¬ HashesCurrent Curve.ofTwoKeys Curve.firstByte t := by
  have hview : ((run (step Curve.ofTwoKeys Curve.firstByte fun _ => false) (fun _ => none)
      readAgain).bind fun t => (t 0).map fun p =>
        decide ((p.hash Curve.ofTwoKeys Curve.firstByte).1 =
          p.computeHash Curve.ofTwoKeys Curve.firstByte)) = some false := by
    decide +kernel
  obtain ⟨t, ht, hview⟩ := Option.bind_eq_some_iff.mp hview
  obtain ⟨p, hp, hstale⟩ := Option.map_eq_some_iff.mp hview
  exact ⟨t, ht, fun h => of_decide_eq_false hstale (h 0 p hp)⟩

end Pubs

end AcCore.Gov
