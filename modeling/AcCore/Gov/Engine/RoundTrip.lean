import AcCore.Gov.Engine.DiffCodec
import AcCore.Gov.Engine.DiffOrder
import AcCore.Lib.Stream

/-!
# Diffs written and read back

A node saves a diff as its text and other nodes read it. The counts are
printed as what they are and read into variables of type `int`, so this file
determines which diffs are read back as they were written, with the averages
rounded to six digits, and with the same text.
-/

namespace AcCore.Gov

open Lib

namespace Engine

/-- `operator <<` for a `double`, with six digits. -/
def sixFormat : Format := ⟨sixText, fun v => (isWord_sixText v).2⟩

end Engine

open Engine

/-- The base58 text of a hash is read back as the hash. -/
theorem Ripemd160.setB58_toB58 (v : Ripemd160) : setB58 (toB58 v) = some v := by
  have hlength : v.bytes.length = 20 := codec.length_enc v
  rw [setB58, toB58, Base58.decode_encode]
  simp only [hlength, if_true]
  exact congrArg some (codec.dec_enc v)

/-- The base58 text of a hash is one word. -/
theorem Ripemd160.isWord_toB58 (v : Ripemd160) : IsWord v.toB58 := by
  refine ⟨fun hnil => ?_, v.blankFree_toB58⟩
  have hset := v.setB58_toB58
  rw [hnil] at hset
  cases hset

/-- `operator >>` of a hash reads its base58 text. -/
theorem Cash.reads_extractHash (v : Ripemd160) : Reads Cash.extractHash [v.toB58] v := by
  intro ws s hs
  obtain ⟨s', hword, hs'⟩ := reads_extract v.isWord_toB58 ws s hs
  exact ⟨s', by simp only [Cash.extractHash, hword, v.setB58_toB58], hs'⟩

namespace Engine

/-! ## Tables -/

section Emplaced

variable {κ α : Type} [DecidableEq κ]

/-- The first entry of each key counts. -/
theorem lookup_emplaced (es : List (κ × α)) (k : κ) :
    (emplaced es).lookup k = (es.find? fun e => e.1 = k).map Prod.snd := by
  rw [emplaced, Table.lookup_foldl_emplace, Finmap.lookup_empty, Option.none_or]

variable [LinearOrder κ]

/-- A table that is listed and emplaced again is the same. -/
theorem emplaced_toList (t : Table κ α) : emplaced (Table.toList t) = t :=
  Table.foldl_emplace_of_perm (.refl _)

omit [LinearOrder κ] in
/-- Entries that are all alike make one. -/
theorem mem_emplaced_replicate {n : ℕ} {e : κ × α} {k : κ}
    (h : k ∈ emplaced (List.replicate n e)) : k = e.1 := by
  obtain ⟨a, ha⟩ := Finmap.mem_iff.mp h
  rw [lookup_emplaced, Option.map_eq_some_iff] at ha
  obtain ⟨e', hfind, -⟩ := ha
  have hkey : e'.1 = k := by simpa using List.find?_some hfind
  rw [← hkey, List.eq_of_mem_replicate (List.mem_of_find?_eq_some hfind)]

omit [DecidableEq κ] in
/-- A table whose keys are all the same has at most one entry. -/
theorem length_keyList_lt_two {t : Table κ α} {k : κ} (h : ∀ k' ∈ t, k' = k) :
    (Table.keyList t).length < 2 := by
  have hall : ∀ k' ∈ Table.keyList t, k' = k := fun k' hk' => h k' (Table.mem_keyList.mp hk')
  have hnodup := Table.nodup_keyList t
  rw [List.eq_replicate_of_mem hall, List.nodup_replicate] at hnodup
  omega

/-- A table lists as many entries as it has keys. -/
theorem length_toList (t : Table κ α) : (Table.toList t).length = (Table.keyList t).length := by
  rw [← Table.map_fst_toList, List.length_map]

end Emplaced

/-! ## Policies -/

/-- The policies that are read back. -/
def Policies.rounded {n : ℕ} (p : Policies n) : Policies n := fun i => sixRounded (p i)

/-- Numbers that a `double` can hold. -/
def Policies.Finite {n : ℕ} (p : Policies n) : Prop := ∀ i, |p i| ≤ doubleMax

/-- Policies are read back rounded to six digits. -/
theorem reads_extractPolicies {n : ℕ} {p : Policies n} (hp : p.Finite) :
    Reads (extractPolicies n) (policiesWords sixFormat p) p.rounded := by
  induction n with
  | zero => exact fun ws s hs => ⟨s, by rw [extractPolicies, Subsingleton.elim p.rounded], hs⟩
  | succ n ih =>
    intro ws s hs
    rw [policiesWords, List.ofFn_succ] at hs
    obtain ⟨s', hfirst, hs'⟩ := reads_extractDecimal (hp 0) _ s hs
    have htail : Policies.Finite fun i : Fin n => p i.succ := fun i => hp i.succ
    obtain ⟨s'', hrest, hs''⟩ := ih htail ws s' hs'
    refine ⟨s'', ?_, hs''⟩
    simp only [extractPolicies, hfirst, hrest, Prod.mk.injEq, and_true]
    funext i
    cases i using Fin.cases <;> rfl

/-- Rounded policies print as the policies themselves do. -/
theorem policiesWords_rounded {n : ℕ} (p : Policies n) :
    policiesWords sixFormat p.rounded = policiesWords sixFormat p := by
  simp only [policiesWords, Policies.rounded, sixFormat, sixText_sixRounded]

/-- Reading policies fails with zeros where the stream ends. -/
theorem fails_extractPolicies (n : ℕ) : Fails (extractPolicies n) fun _ => 0 := by
  induction n with
  | zero =>
    rw [Fails, extractPolicies]
    exact congrArg (·, none) (funext fun i => i.elim0)
  | succ n ih =>
    have ih : extractPolicies n none = (fun _ => 0, none) := ih
    simp only [Fails, extractPolicies, extractDecimal, ih, Prod.mk.injEq, and_true]
    funext i
    cases i using Fin.cases <;> rfl

/-! ## The sections -/

namespace Auth

/-- A delta whose numbers and addresses can be read. -/
structure Delta.Readable (d : Delta) : Prop where
  policies : Policies.Finite d.policies
  addresses : ∀ k a, d.toHall.lookup k = some a → a.val ≠ []

/-- The delta that is read back: the averages are rounded. -/
def Delta.reread (d : Delta) : Delta := ⟨⟨Policies.rounded d.policies, 0⟩, d.toHall⟩

/-- The words of the hall are those of its entries, key and address. -/
theorem Delta.hallWords_eq (t : Table Ripemd160 Address) :
    Delta.hallWords t = (Table.toList t).flatMap fun e => [e.1.toB58, e.2.val] := by
  have heach : ∀ k ∈ Table.keyList t, [k.toB58, ((t.lookup k).map Subtype.val).getD []] =
      (((t.lookup k).map (Prod.mk k)).toList).flatMap fun e => [e.1.toB58, e.2.val] := by
    intro k hk
    obtain ⟨a, ha⟩ := Finmap.mem_iff.mp (Table.mem_keyList.mp hk)
    simp [ha]
  rw [Delta.hallWords, List.flatMap_congr heach, Table.toList, List.filterMap_eq_flatMap_toList,
    List.flatMap_assoc]

/-- A candidate is read back from its key and its address. -/
theorem reads_extractCandidate (k : Ripemd160) {a : Address} (ha : a.val ≠ []) :
    Reads extractCandidate [k.toB58, a.val] (k, a) := by
  intro ws s hs
  obtain ⟨s', hkey, hs'⟩ := Cash.reads_extractHash k _ s hs
  obtain ⟨s'', haddress, hs''⟩ := reads_extract ⟨ha, a.2⟩ ws s' hs'
  exact ⟨s'', by simp only [extractCandidate, hkey, haddress, Subtype.coe_eta], hs''⟩

/-- Reading a candidate fails with empty fields where the stream ends. -/
theorem fails_extractCandidate :
    Fails extractCandidate (Ripemd160.zero, ⟨[], blankFree_nil⟩) := rfl

/-- A delta of the auth app is read back as it was written, but for rounding. -/
theorem Delta.fromStream_words {d : Delta} (hd : d.Readable)
    (hfits : (Table.keyList d.toHall).length < 2 ^ 31) {ws : List Text} {s : Option Text}
    (hs : Gives (d.words sixFormat ++ ws) s) :
    ∃ s', Delta.fromStream s = some (d.reread, s') ∧ Gives ws s' := by
  rw [Delta.words, Delta.hallWords_eq, List.cons_append, List.cons_append, List.append_assoc] at hs
  obtain ⟨s₁, hcount, hs₁⟩ := hs.extractInt hfits none
  have heach : ∀ e ∈ Table.toList d.toHall,
      Reads extractCandidate [e.1.toB58, e.2.val] (id e) := fun e he =>
    reads_extractCandidate e.1 (hd.addresses e.1 e.2 (Table.mem_toList.mp he))
  obtain ⟨s₂, hhall, hs₂⟩ := reads_extractMany heach _ s₁ hs₁
  obtain ⟨s₃, hpolicies, hs₃⟩ := reads_extractPolicies hd.policies ws s₂ hs₂
  rw [length_toList, List.map_id] at hhall
  refine ⟨s₃, ?_, hs₃⟩
  simp only [Delta.fromStream, hcount, Option.bind_eq_bind, Option.bind_some,
    Int.toNat_natCast, hhall, hpolicies, Option.pure_def, emplaced_toList, Delta.reread]

/-- With too many candidates all that is read is one without a key. -/
theorem Delta.fromStream_overflow {d : Delta} (hmany : 2 ^ 31 ≤ (Table.keyList d.toHall).length)
    {ws : List Text} {s : Option Text} (hs : Gives (d.words sixFormat ++ ws) s) :
    ∃ hall, Delta.fromStream s = some (⟨⟨fun _ => 0, 0⟩, hall⟩, none) ∧
      ∀ k ∈ hall, k = Ripemd160.zero := by
  rw [Delta.words, List.cons_append, List.cons_append] at hs
  obtain ⟨n, -, hcount⟩ := hs.extractInt_overflow hmany none
  have hpolicies : extractPolicies 2 none = (fun _ => 0, none) := fails_extractPolicies 2
  refine ⟨emplaced (List.replicate n.toNat (Ripemd160.zero, ⟨[], blankFree_nil⟩)), ?_,
    fun k hk => mem_emplaced_replicate hk⟩
  simp only [Delta.fromStream, hcount, Option.bind_eq_bind, Option.bind_some,
    fails_extractCandidate.extractMany, hpolicies, Option.pure_def]

end Auth

end Engine

namespace Cash

/-- Numbers that the variables of the code can hold. -/
structure LocalDelta.Readable (g : LocalDelta) : Prop where
  policies : Policies.Finite g.policies
  boxes : ∀ k a, g.accounts.lookup k = some a → -2 ^ 63 ≤ a.box ∧ a.box < 2 ^ 63
  fees : -2 ^ 63 ≤ g.fees ∧ g.fees < 2 ^ 63

/-- The cash section can be read back: its policies and its pool can. -/
structure Delta.Readable (d : Delta) : Prop where
  policies : Policies.Finite d.policies
  g : d.g.Readable

/-- The pool that is read back: the policies of its sender are rounded. -/
def LocalDelta.reread (g : LocalDelta) : LocalDelta :=
  ⟨Policies.rounded g.policies, g.accounts, g.fees⟩

/-- The delta that is read back, with an empty table of the majority merger. -/
def Delta.reread (d : Delta) : Delta := ⟨⟨Policies.rounded d.policies, 0⟩, d.g.reread, ∅⟩

/-- An integer in the range of `int64_t` is its own value there. -/
theorem toInt_ofInt {v : ℤ} (h : -2 ^ 63 ≤ v ∧ v < 2 ^ 63) : (Int64.ofInt v).toInt = v :=
  Int64.toInt_ofInt_of_le h.1 h.2

/-- An entry of the ledger is read back from its three words. -/
theorem reads_extractEntry (k : Ripemd160) {a : Account} (ha : -2 ^ 63 ≤ a.box ∧ a.box < 2 ^ 63) :
    Reads extractEntry [k.toB58, a.lockingProgram.toB58, intText a.box] (k, a) := by
  intro ws s hs
  obtain ⟨s₁, hkey, hs₁⟩ := reads_extractHash k _ s hs
  obtain ⟨s₂, hprogram, hs₂⟩ := reads_extractHash a.lockingProgram _ s₁ hs₁
  obtain ⟨s₃, hbox, hs₃⟩ := reads_extractInt64 ha.1 ha.2 ws s₂ hs₂
  exact ⟨s₃, by simp only [extractEntry, hkey, hprogram, hbox, toInt_ofInt ha], hs₃⟩

/-- Reading an entry fails with empty fields where the stream ends. -/
theorem fails_extractEntry :
    Fails extractEntry (Ripemd160.zero, ⟨Ripemd160.zero, (0 : Int64).toInt⟩) := rfl

/-- A pool is read back as it was written, but for rounding. -/
theorem LocalDelta.fromStream_words {g : LocalDelta} (hg : g.Readable)
    (hfits : (Table.keyList g.accounts).length < 2 ^ 31) {ws : List Text} {s : Option Text}
    (hs : Gives (g.words sixFormat ++ ws) s) :
    ∃ s', LocalDelta.fromStream s = some (g.reread, s') ∧ Gives ws s' := by
  rw [LocalDelta.words, List.cons_append, List.cons_append, List.append_assoc] at hs
  obtain ⟨s₁, hcount, hs₁⟩ := hs.extractInt hfits none
  have heach : ∀ e ∈ Table.toList g.accounts,
      Reads extractEntry [e.1.toB58, e.2.lockingProgram.toB58, intText e.2.box] (id e) :=
    fun e he => reads_extractEntry e.1 (hg.boxes e.1 e.2 (Table.mem_toList.mp he))
  obtain ⟨s₂, haccounts, hs₂⟩ := reads_extractMany heach _ s₁ hs₁
  obtain ⟨s₃, hfees, hs₃⟩ := reads_extractInt64 hg.fees.1 hg.fees.2 _ s₂ hs₂
  obtain ⟨s₄, hpolicies, hs₄⟩ := reads_extractPolicies hg.policies ws s₃ hs₃
  rw [length_toList, List.map_id] at haccounts
  refine ⟨s₄, ?_, hs₄⟩
  simp only [LocalDelta.fromStream, hcount, Option.bind_eq_bind, Option.bind_some,
    Int.toNat_natCast, haccounts, hfees, hpolicies, toInt_ofInt hg.fees, Option.pure_def,
    emplaced_toList, LocalDelta.reread]

/-- A delta of the cash app is read back as it was written, but for rounding. -/
theorem Delta.fromStream_words {d : Delta} (hd : d.Readable)
    (hfits : (Table.keyList d.g.accounts).length < 2 ^ 31) {ws : List Text} {s : Option Text}
    (hs : Gives (d.words sixFormat ++ ws) s) :
    ∃ s', Delta.fromStream s = some (d.reread, s') ∧ Gives ws s' := by
  rw [Delta.words, List.append_assoc] at hs
  obtain ⟨s₁, hpool, hs₁⟩ := LocalDelta.fromStream_words hd.g hfits hs
  obtain ⟨s₂, hpolicies, hs₂⟩ := reads_extractPolicies hd.policies ws s₁ hs₁
  refine ⟨s₂, ?_, hs₂⟩
  simp only [Delta.fromStream, hpool, hpolicies, Option.bind_eq_bind, Option.bind_some,
    Option.pure_def, Delta.reread]

/-- With too many accounts all that is read is one without a key. -/
theorem LocalDelta.fromStream_overflow {g : LocalDelta}
    (hmany : 2 ^ 31 ≤ (Table.keyList g.accounts).length) {ws : List Text} {s : Option Text}
    (hs : Gives (g.words sixFormat ++ ws) s) :
    ∃ g', LocalDelta.fromStream s = some (g', none) ∧ ∀ k ∈ g'.accounts, k = Ripemd160.zero := by
  rw [LocalDelta.words, List.cons_append, List.cons_append] at hs
  obtain ⟨n, -, hcount⟩ := hs.extractInt_overflow hmany none
  have hpolicies : extractPolicies 1 none = (fun _ => 0, none) := fails_extractPolicies 1
  have hread : LocalDelta.fromStream s = some (⟨fun _ => 0,
      emplaced (List.replicate n.toNat (Ripemd160.zero, ⟨Ripemd160.zero, (0 : Int64).toInt⟩)),
      (0 : Int64).toInt⟩, none) := by
    simp only [LocalDelta.fromStream, hcount, Option.bind_eq_bind, Option.bind_some,
      fails_extractEntry.extractMany, hpolicies, Option.pure_def, extractInt64]
  exact ⟨_, hread, fun k hk => mem_emplaced_replicate hk⟩

/-- The pool of a delta with too many accounts is such a one. -/
theorem Delta.fromStream_overflow {d : Delta}
    (hmany : 2 ^ 31 ≤ (Table.keyList d.g.accounts).length) {ws : List Text} {s : Option Text}
    (hs : Gives (d.words sixFormat ++ ws) s) :
    ∃ d', Delta.fromStream s = some (d', none) ∧ ∀ k ∈ d'.g.accounts, k = Ripemd160.zero := by
  rw [Delta.words, List.append_assoc] at hs
  obtain ⟨g', hpool, hzero⟩ := LocalDelta.fromStream_overflow hmany hs
  have hpolicies : extractPolicies 1 none = (fun _ => 0, none) := fails_extractPolicies 1
  refine ⟨⟨⟨fun _ => 0, 0⟩, g', ∅⟩, ?_, hzero⟩
  simp only [Delta.fromStream, hpool, hpolicies, Option.bind_eq_bind, Option.bind_some,
    Option.pure_def]

end Cash

namespace Engine

/-! ## The diff -/

/-- A diff whose numbers and addresses can be read. -/
structure Diff.Readable (d : Diff) : Prop where
  auth : ∀ a ∈ d.auth, a.Readable
  cash : ∀ c ∈ d.cash, c.Readable
  works : ∀ k w, d.proofOfWork.lookup k = some w → w < 2 ^ 64

/-- A diff whose counts fit in an `int`. -/
structure Diff.FitsInt (d : Diff) : Prop where
  auth : ∀ a ∈ d.auth, (Table.keyList a.toHall).length < 2 ^ 31
  cash : ∀ c ∈ d.cash, (Table.keyList c.g.accounts).length < 2 ^ 31
  works : (Table.keyList d.proofOfWork).length < 2 ^ 31

/-- The diff that is read back. -/
def Diff.reread (d : Diff) : Diff :=
  ⟨d.prev, d.auth.map Auth.Delta.reread, d.cash.map Cash.Delta.reread, d.proofOfWork⟩

section Sections

variable {α β : Type} (auth : Option Text → Option (α × Option Text))
  (cash : Option Text → Option (β × Option Text)) (debug : Bool) (n : ℕ) (a : Option α)
  (c : Option β)

/-- One pass of the loop over the sections reads that of the auth app. -/
theorem readSections_auth {ws : List Text} {s : Option Text}
    (hs : Gives (natText Auth.appId :: ws) s) :
    ∃ s', Gives ws s' ∧ readSections debug auth cash (n + 1) (a, c) s =
      (auth s').bind fun r => readSections debug auth cash n (a.or (some r.1), c) r.2 := by
  obtain ⟨s', hid, hs'⟩ := hs.extractInt (by decide) none
  exact ⟨s', hs', by simp only [readSections, hid, Option.bind_eq_bind, Option.bind_some, if_true]⟩

/-- One pass of the loop over the sections reads that of the cash app. -/
theorem readSections_cash {ws : List Text} {s : Option Text}
    (hs : Gives (natText Cash.appId :: ws) s) :
    ∃ s', Gives ws s' ∧ readSections debug auth cash (n + 1) (a, c) s =
      (cash s').bind fun r => readSections debug auth cash n (a, c.or (some r.1)) r.2 := by
  obtain ⟨s', hid, hs'⟩ := hs.extractInt (by decide) none
  have hne : ((Cash.appId : ℕ) : ℤ) ≠ (Auth.appId : ℕ) := by decide
  exact ⟨s', hs', by simp only [readSections, hid, Option.bind_eq_bind, Option.bind_some, if_true,
    if_neg hne]⟩

end Sections

/-- `diff::from_stream` after the sections. -/
def Diff.readWorks (prev : Ripemd160) (n : ℤ)
    (found : (Option Auth.Delta × Option Cash.Delta) × Option Text) : Option (Option Diff) :=
  (extractInt (some n) found.2).bind fun r =>
    if r.1 < 0 then some none
    else some (some ⟨prev, found.1.1, found.1.2,
      emplaced (extractMany extractWork r.1.toNat r.2).1⟩)

variable {debug : Bool}

/-- The sections of the text of a diff, and what comes after them. -/
theorem Diff.fromStream_words (debug : Bool) (d : Diff) :
    ∃ s, Gives (authWords sixFormat d.auth ++ (cashWords sixFormat d.cash ++
        powWords d.proofOfWork)) s ∧
      Diff.fromStream debug (some (d.toStream sixFormat)) =
        (readSections debug Auth.Delta.fromStream Cash.Delta.fromStream
          (d.auth.toList.length + d.cash.toList.length) (none, none) s).bind
            (readWorks d.prev (d.auth.toList.length + d.cash.toList.length : ℕ)) := by
  have hs := gives_unwords (d.words sixFormat)
  rw [words, List.cons_append] at hs
  obtain ⟨s₁, hprev, hs₁⟩ := Cash.reads_extractHash d.prev _ _ hs
  have hsmall : d.auth.toList.length + d.cash.toList.length < 2 ^ 31 := by
    have hauth : d.auth.toList.length ≤ 1 := by cases d.auth <;> simp
    have hcash : d.cash.toList.length ≤ 1 := by cases d.cash <;> simp
    omega
  obtain ⟨s₂, hcount, hs₂⟩ := Gives.extractInt hs₁ hsmall none
  refine ⟨s₂, hs₂, ?_⟩
  have hnonneg : ¬ ((d.auth.toList.length + d.cash.toList.length : ℕ) : ℤ) < 0 := by omega
  rw [toStream, words, List.cons_append, Diff.fromStream]
  simp only [hprev, hcount, Option.bind_eq_bind, Option.bind_some, if_neg hnonneg,
    Int.toNat_natCast]
  rfl

/-- The section of the auth app, when there is one, is read back. -/
theorem readSections_authWords (debug : Bool) {d : Option Auth.Delta} (hd : ∀ a ∈ d, a.Readable)
    (hfits : ∀ a ∈ d, (Table.keyList a.toHall).length < 2 ^ 31) {ws : List Text}
    {s : Option Text} (hs : Gives (Diff.authWords sixFormat d ++ ws) s) (n : ℕ)
    (c : Option Cash.Delta) :
    ∃ s', Gives ws s' ∧
      readSections debug Auth.Delta.fromStream Cash.Delta.fromStream (d.toList.length + n)
          (none, c) s =
        readSections debug Auth.Delta.fromStream Cash.Delta.fromStream n
          (d.map Auth.Delta.reread, c) s' := by
  cases d with
  | none =>
    exact ⟨s, hs, by rw [Option.toList_none, List.length_nil, Nat.zero_add, Option.map_none]⟩
  | some a =>
    obtain ⟨s₁, hs₁, hstep⟩ := readSections_auth Auth.Delta.fromStream
      Cash.Delta.fromStream debug n none c hs
    obtain ⟨s₂, hread, hs₂⟩ := Auth.Delta.fromStream_words (hd a rfl) (hfits a rfl) hs₁
    refine ⟨s₂, hs₂, ?_⟩
    rw [Option.toList_some, List.length_singleton, Nat.add_comm, hstep, hread]
    rfl

/-- The section of the cash app, when there is one, is read back. -/
theorem readSections_cashWords (debug : Bool) {d : Option Cash.Delta} (hd : ∀ c ∈ d, c.Readable)
    (hfits : ∀ c ∈ d, (Table.keyList c.g.accounts).length < 2 ^ 31) {ws : List Text}
    {s : Option Text} (hs : Gives (Diff.cashWords sixFormat d ++ ws) s) (a : Option Auth.Delta) :
    ∃ s', Gives ws s' ∧
      readSections debug Auth.Delta.fromStream Cash.Delta.fromStream d.toList.length (a, none) s =
        some ((a, d.map Cash.Delta.reread), s') := by
  cases d with
  | none => exact ⟨s, hs, rfl⟩
  | some c =>
    obtain ⟨s₁, hs₁, hstep⟩ := readSections_cash Auth.Delta.fromStream
      Cash.Delta.fromStream debug 0 a none hs
    obtain ⟨s₂, hread, hs₂⟩ := Cash.Delta.fromStream_words (hd c rfl) (hfits c rfl) hs₁
    refine ⟨s₂, hs₂, ?_⟩
    rw [Option.toList_some, List.length_singleton, hstep, hread]
    rfl

/-- A proof of work is read back from its key and its amount. -/
theorem reads_extractWork (k : Ripemd160) {w : ℕ} (hw : w < 2 ^ 64) :
    Reads extractWork [k.toB58, natText w] (k, w) := by
  intro ws s hs
  obtain ⟨s', hkey, hs'⟩ := Cash.reads_extractHash k _ s hs
  obtain ⟨s'', hwork, hs''⟩ := reads_extractUInt64 hw ws s' hs'
  exact ⟨s'', by simp only [extractWork, hkey, hwork, UInt64.toNat_ofNat_of_lt' hw], hs''⟩

/-- Reading a proof of work fails with nothing where the stream ends. -/
theorem fails_extractWork : Fails extractWork (Ripemd160.zero, 0) := rfl

/-- The contributors are read back. -/
theorem Diff.readWorks_powWords {pow : Table Ripemd160 ℕ}
    (hpow : ∀ k w, pow.lookup k = some w → w < 2 ^ 64)
    (hfits : (Table.keyList pow).length < 2 ^ 31) {ws : List Text} {s : Option Text}
    (hs : Gives (powWords pow ++ ws) s) (prev : Ripemd160) (n : ℤ)
    (found : Option Auth.Delta × Option Cash.Delta) :
    readWorks prev n (found, s) = some (some ⟨prev, found.1, found.2, pow⟩) := by
  rw [powWords, List.cons_append] at hs
  obtain ⟨s₁, hcount, hs₁⟩ := hs.extractInt hfits (some n)
  have heach : ∀ e ∈ Table.toList pow, Reads extractWork [e.1.toB58, natText e.2] (id e) :=
    fun e he => reads_extractWork e.1 (hpow e.1 e.2 (Table.mem_toList.mp he))
  obtain ⟨s₂, hworks, -⟩ := reads_extractMany heach _ s₁ hs₁
  rw [length_toList, List.map_id] at hworks
  have hnonneg : ¬ ((Table.keyList pow).length : ℤ) < 0 := by omega
  simp only [readWorks, hcount, Option.bind_some, if_neg hnonneg, Int.toNat_natCast, hworks,
    emplaced_toList]

/-- A diff whose counts fit is read back as it was written, but for rounding. -/
theorem Diff.fromStream_toStream (debug : Bool) {d : Diff} (hd : d.Readable) (hfits : d.FitsInt) :
    Diff.fromStream debug (some (d.toStream sixFormat)) = some (some d.reread) := by
  obtain ⟨s₁, hs₁, hread⟩ := d.fromStream_words debug
  obtain ⟨s₂, hs₂, hauth⟩ := readSections_authWords debug hd.auth hfits.auth hs₁
    d.cash.toList.length none
  obtain ⟨s₃, hs₃, hcash⟩ := readSections_cashWords debug hd.cash hfits.cash hs₂
    (d.auth.map Auth.Delta.reread)
  rw [← List.append_nil (powWords d.proofOfWork)] at hs₃
  rw [hread, hauth, hcash, Option.bind_some, readWorks_powWords hd.works hfits.works hs₃]
  rfl

/-- What is read back of the auth section prints the same text. -/
theorem Auth.Delta.words_reread (d : Auth.Delta) :
    d.reread.words sixFormat = d.words sixFormat := by
  simp only [Auth.Delta.words, Auth.Delta.reread, policiesWords_rounded]

/-- What is read back of the cash section prints the same text. -/
theorem Cash.Delta.words_reread (d : Cash.Delta) :
    d.reread.words sixFormat = d.words sixFormat := by
  simp only [Cash.Delta.words, Cash.Delta.reread, Cash.LocalDelta.words, Cash.LocalDelta.reread,
    policiesWords_rounded]

/-- What is read back has the same text. -/
theorem Diff.toStream_reread (d : Diff) : d.reread.toStream sixFormat = d.toStream sixFormat := by
  have hauth : authWords sixFormat (d.auth.map Auth.Delta.reread) = authWords sixFormat d.auth := by
    cases d.auth with
    | none => rfl
    | some a => simp only [authWords, Option.map_some, Option.elim_some, Auth.Delta.words_reread]
  have hcash : cashWords sixFormat (d.cash.map Cash.Delta.reread) = cashWords sixFormat d.cash := by
    cases d.cash with
    | none => rfl
    | some c => simp only [cashWords, Option.map_some, Option.elim_some, Cash.Delta.words_reread]
  have hlength : d.reread.auth.toList.length + d.reread.cash.toList.length =
      d.auth.toList.length + d.cash.toList.length := by
    cases hauth : d.auth <;> cases hcash : d.cash <;> simp [reread, hauth, hcash]
  rw [toStream, toStream, words, words, hlength, reread, hauth, hcash]

/-! ## Counts that do not fit -/

/-- After a failure only what was found before is kept. -/
theorem Diff.readWorks_failed {n : ℤ} (hn : 0 ≤ n) (prev : Ripemd160)
    (found : Option Auth.Delta × Option Cash.Delta) :
    ∃ pow, readWorks prev n (found, none) = some (some ⟨prev, found.1, found.2, pow⟩) ∧
      ∀ k ∈ pow, k = Ripemd160.zero := by
  refine ⟨emplaced (List.replicate n.toNat (Ripemd160.zero, 0)), ?_,
    fun k hk => mem_emplaced_replicate hk⟩
  simp only [readWorks, extractInt, Option.map_some, Option.bind_some, if_neg hn.not_gt,
    fails_extractWork.extractMany]

/-- With too many contributors all that is read is one. -/
theorem Diff.readWorks_overflow {pow : Table Ripemd160 ℕ}
    (hmany : 2 ^ 31 ≤ (Table.keyList pow).length) {ws : List Text} {s : Option Text}
    (hs : Gives (powWords pow ++ ws) s) (prev : Ripemd160) (n : ℤ)
    (found : Option Auth.Delta × Option Cash.Delta) :
    ∃ pow', readWorks prev n (found, s) = some (some ⟨prev, found.1, found.2, pow'⟩) ∧
      ∀ k ∈ pow', k = Ripemd160.zero := by
  rw [powWords, List.cons_append] at hs
  obtain ⟨m, hm, hcount⟩ := hs.extractInt_overflow hmany (some n)
  refine ⟨emplaced (List.replicate m.toNat (Ripemd160.zero, 0)), ?_,
    fun k hk => mem_emplaced_replicate hk⟩
  simp only [readWorks, hcount, Option.bind_some, if_neg hm.not_gt,
    fails_extractWork.extractMany]

/-- With too many candidates there is no second section, and the hall that is
read is another one. -/
theorem Diff.fromStream_authOverflow (debug : Bool) {d : Diff} {a : Auth.Delta}
    (ha : d.auth = some a) (hmany : 2 ^ 31 ≤ (Table.keyList a.toHall).length) :
    ∃ hall pow, Diff.fromStream debug (some (d.toStream sixFormat)) =
        (if d.cash = none then some (some ⟨d.prev, some ⟨⟨fun _ => 0, 0⟩, hall⟩, none, pow⟩)
          else none) ∧ ∀ k ∈ hall, k = Ripemd160.zero := by
  obtain ⟨s, hs, hwords⟩ := d.fromStream_words debug
  rw [ha] at hs
  obtain ⟨s₁, hs₁, hstep⟩ := readSections_auth Auth.Delta.fromStream
    Cash.Delta.fromStream debug d.cash.toList.length none none hs
  obtain ⟨hall, hread, hzero⟩ := Auth.Delta.fromStream_overflow hmany hs₁
  obtain ⟨pow, hworks, -⟩ := readWorks_failed (Int.natCast_nonneg 1) d.prev
    (some ⟨⟨fun _ => 0, 0⟩, hall⟩, none)
  refine ⟨hall, pow, ?_, hzero⟩
  rw [hwords, ha, Option.toList_some, List.length_singleton, Nat.add_comm 1, hstep, hread]
  cases d.cash with
  | none => exact hworks
  | some c => rfl

/-- With too many accounts the pool that is read is another one. -/
theorem Diff.fromStream_cashOverflow (debug : Bool) {d : Diff} (hd : d.Readable)
    (hfits : ∀ a ∈ d.auth, (Table.keyList a.toHall).length < 2 ^ 31) {c : Cash.Delta}
    (hc : d.cash = some c) (hmany : 2 ^ 31 ≤ (Table.keyList c.g.accounts).length) :
    ∃ c' pow, Diff.fromStream debug (some (d.toStream sixFormat)) =
        some (some ⟨d.prev, d.auth.map Auth.Delta.reread, some c', pow⟩) ∧
      (∀ k ∈ c'.g.accounts, k = Ripemd160.zero) ∧ ∀ k ∈ pow, k = Ripemd160.zero := by
  obtain ⟨s, hs, hwords⟩ := d.fromStream_words debug
  obtain ⟨s₁, hs₁, hauth⟩ := readSections_authWords debug hd.auth hfits hs
    d.cash.toList.length none
  rw [hc] at hs₁ hwords hauth
  obtain ⟨s₂, hs₂, hstep⟩ := readSections_cash Auth.Delta.fromStream
    Cash.Delta.fromStream debug 0 (d.auth.map Auth.Delta.reread) none hs₁
  obtain ⟨c', hread, hzero⟩ := Cash.Delta.fromStream_overflow hmany hs₂
  obtain ⟨pow, hworks, hpow⟩ := readWorks_failed
    (Int.natCast_nonneg (d.auth.toList.length + (some c).toList.length)) d.prev
    (d.auth.map Auth.Delta.reread, some c')
  refine ⟨c', pow, ?_, hzero, hpow⟩
  rw [hwords, hauth, Option.toList_some, List.length_singleton, hstep, hread]
  exact hworks

/-- With too many contributors others are read. -/
theorem Diff.fromStream_worksOverflow (debug : Bool) {d : Diff} (hd : d.Readable)
    (hauthFits : ∀ a ∈ d.auth, (Table.keyList a.toHall).length < 2 ^ 31)
    (hcashFits : ∀ c ∈ d.cash, (Table.keyList c.g.accounts).length < 2 ^ 31)
    (hmany : 2 ^ 31 ≤ (Table.keyList d.proofOfWork).length) :
    ∃ pow, Diff.fromStream debug (some (d.toStream sixFormat)) =
        some (some { d.reread with proofOfWork := pow }) ∧ ∀ k ∈ pow, k = Ripemd160.zero := by
  obtain ⟨s₁, hs₁, hwords⟩ := d.fromStream_words debug
  obtain ⟨s₂, hs₂, hauth⟩ := readSections_authWords debug hd.auth hauthFits hs₁
    d.cash.toList.length none
  obtain ⟨s₃, hs₃, hcash⟩ := readSections_cashWords debug hd.cash hcashFits hs₂
    (d.auth.map Auth.Delta.reread)
  rw [← List.append_nil (powWords d.proofOfWork)] at hs₃
  obtain ⟨pow, hworks, hzero⟩ := readWorks_overflow hmany hs₃ d.prev
    (d.auth.toList.length + d.cash.toList.length : ℕ)
    (d.auth.map Auth.Delta.reread, d.cash.map Cash.Delta.reread)
  refine ⟨pow, ?_, hzero⟩
  rw [hwords, hauth, hcash]
  exact hworks

/-! ## The round trip -/

/-- The text of the diff is read as a diff with the same previous block,
contributors, pool and hall, and with the same text and hash. -/
def Diff.RoundTrips (ripemd : List UInt8 → Ripemd160) (debug : Bool) (d : Diff) : Prop :=
  ∃ d', Diff.fromStream debug (some (d.toStream sixFormat)) = some (some d') ∧
    d'.prev = d.prev ∧ d'.proofOfWork = d.proofOfWork ∧
      (d'.cash.map fun c => (c.g.accounts, c.g.fees)) =
          (d.cash.map fun c => (c.g.accounts, c.g.fees)) ∧
        (d'.auth.map fun a => a.toHall) = (d.auth.map fun a => a.toHall) ∧
          d'.toStream sixFormat = d.toStream sixFormat ∧
            d'.hash ripemd sixFormat = d.hash ripemd sixFormat

variable {ripemd : List UInt8 → Ripemd160}

/-- A readable diff whose counts fit in an `int` is read back. -/
theorem Diff.FitsInt.roundTrips {d : Diff} (hfits : d.FitsInt) (hd : d.Readable) :
    d.RoundTrips ripemd debug := by
  refine ⟨d.reread, d.fromStream_toStream debug hd hfits, rfl, rfl, ?_, ?_, d.toStream_reread,
    by rw [hash, hash, d.toStream_reread]⟩
  · simp only [reread, Option.map_map]
    rfl
  · simp only [reread, Option.map_map]
    rfl

/-- A diff that is read back has a hall whose count fits in an `int`. -/
theorem Diff.RoundTrips.fits_auth {d : Diff} (h : d.RoundTrips ripemd debug) :
    ∀ a ∈ d.auth, (Table.keyList a.toHall).length < 2 ^ 31 := by
  intro a ha
  by_contra hmany
  obtain ⟨d', hread, -, -, -, hhall, -⟩ := h
  obtain ⟨hall, pow, hover, hzero⟩ := d.fromStream_authOverflow debug ha (not_lt.mp hmany)
  rw [hread] at hover
  split_ifs at hover
  obtain rfl := Option.some.inj (Option.some.inj hover)
  rw [Option.mem_def.mp ha] at hhall
  have hsame : hall = a.toHall := Option.some.inj hhall
  have hone : (Table.keyList a.toHall).length < 2 :=
    length_keyList_lt_two fun k hk => hzero k (hsame ▸ hk)
  omega

/-- A diff that is read back has a ledger whose count fits in an `int`. -/
theorem Diff.RoundTrips.fits_cash {d : Diff} (hd : d.Readable) (h : d.RoundTrips ripemd debug) :
    ∀ c ∈ d.cash, (Table.keyList c.g.accounts).length < 2 ^ 31 := by
  intro c hc
  by_contra hmany
  have hfits := h.fits_auth
  obtain ⟨d', hread, -, -, hpool, -, -⟩ := h
  obtain ⟨c', pow, hover, hzero, -⟩ := d.fromStream_cashOverflow debug hd hfits hc (not_lt.mp hmany)
  obtain rfl := Option.some.inj (Option.some.inj (hread.symm.trans hover))
  rw [Option.mem_def.mp hc] at hpool
  have hsame : c'.g.accounts = c.g.accounts := (Prod.mk.inj (Option.some.inj hpool)).1
  have hone : (Table.keyList c.g.accounts).length < 2 :=
    length_keyList_lt_two fun k hk => hzero k (hsame ▸ hk)
  omega

/-- A diff that is read back has works whose count fits in an `int`. -/
theorem Diff.RoundTrips.fits_works {d : Diff} (hd : d.Readable) (h : d.RoundTrips ripemd debug) :
    (Table.keyList d.proofOfWork).length < 2 ^ 31 := by
  by_contra hmany
  have hauthFits := h.fits_auth
  have hcashFits := h.fits_cash hd
  obtain ⟨d', hread, -, hpow, -⟩ := h
  obtain ⟨pow, hover, hzero⟩ :=
    d.fromStream_worksOverflow debug hd hauthFits hcashFits (not_lt.mp hmany)
  obtain rfl := Option.some.inj (Option.some.inj (hread.symm.trans hover))
  have hsame : pow = d.proofOfWork := hpow
  have hone : (Table.keyList d.proofOfWork).length < 2 :=
    length_keyList_lt_two fun k hk => hzero k (hsame ▸ hk)
  omega

/-- A readable diff is read back exactly when its counts fit in an `int`. -/
theorem Diff.Readable.roundTrips_iff {d : Diff} (hd : d.Readable) :
    d.RoundTrips ripemd debug ↔ d.FitsInt :=
  ⟨fun h => ⟨h.fits_auth, h.fits_cash hd, h.fits_works hd⟩, fun h => h.roundTrips hd⟩

/-! ## Diffs that a node forms -/

/-- A contribution whose addresses are not empty and whose numbers are finite
and of their types. -/
structure LocalDeltas.Readable {PubKey : Type} (g : LocalDeltas PubKey) : Prop where
  policies : ∀ a ∈ g.auth, Policies.Finite a.policies
  addresses : ∀ a ∈ g.auth, ∀ e ∈ a.toHall, e.2.val ≠ []
  cash : ∀ c ∈ g.cash, c.Readable

/-- Sums of finite votes are bounded by their number times the greatest double. -/
theorem Policies.Finite.sum {n : ℕ} {ps : List (Policies n)} (h : ∀ p ∈ ps, p.Finite) (i : Fin n) :
    |(ps.map fun p => p i).sum| ≤ ps.length * doubleMax := by
  induction ps with
  | nil => simp
  | cons p ps ih =>
    have hp := h p (by simp) i
    have hps := ih fun q hq => h q (by simp [hq])
    calc |((p :: ps).map fun p => p i).sum| = |p i + (ps.map fun p => p i).sum| := by simp
      _ ≤ |p i| + |(ps.map fun p => p i).sum| := abs_add_le _ _
      _ ≤ doubleMax + ps.length * doubleMax := add_le_add hp hps
      _ = (p :: ps).length * doubleMax := by push_cast [List.length_cons]; ring

/-- An average is not greater than the greatest of its numbers. -/
theorem Policies.Finite.average {n : ℕ} {ps : List (Policies n)} (h : ∀ p ∈ ps, p.Finite) :
    Policies.Finite (ps.foldl PoliciesDelta.merge PoliciesDelta.create).endMerge.policies := by
  intro i
  have hmax : (0 : ℚ) ≤ doubleMax := by decide +kernel
  have hsum := Policies.Finite.sum h i
  rw [PoliciesDelta.foldl_merge]
  simp only [PoliciesDelta.endMerge, averageEndMerge, PoliciesDelta.create, zero_add]
  rcases ps.length.eq_zero_or_pos with hzero | hpos
  · simpa [hzero] using hmax
  · have hpos : (0 : ℚ) < ps.length := by exact_mod_cast hpos
    rwa [abs_div, abs_of_pos hpos, div_le_iff₀ hpos, mul_comm]

section Formed

variable {PubKey : Type} {ec : Ec PubKey}

/-- What arrivals leave: the deltas are merged in the order of the adds. -/
theorem run_arrive_merged {es : List (Arrival PubKey)} {d₀ d : Diff}
    (h : run (arrive ec ripemd) d₀ es = some d) :
    d.auth = ((Arrival.added es).filterMap LocalDeltas.auth).foldl Diff.addAuth d₀.auth ∧
      d.cash = ((Arrival.added es).filterMap LocalDeltas.cash).foldl (Diff.addCash ripemd)
        d₀.cash ∧
        ∀ k w, d.proofOfWork.lookup k = some w → d₀.proofOfWork.lookup k = some w ∨ w = 0 := by
  induction es generalizing d₀ with
  | nil =>
    obtain rfl := Option.some.inj h
    exact ⟨rfl, rfl, fun k w hw => Or.inl hw⟩
  | cons e es ih =>
    obtain ⟨d₁, hstep, hrest⟩ := run_cons_eq_some.mp h
    obtain ⟨hauth, hcash, hpow⟩ := ih hrest
    cases e with
    | allow g =>
      obtain ⟨-, hd₁⟩ := Option.ite_none_right_eq_some.mp hstep
      obtain rfl := Option.some.inj hd₁
      rw [Diff.allow_fst] at hauth hcash hpow
      refine ⟨hauth, hcash, fun k w hw => ?_⟩
      rcases hpow k w hw with hk | hzero
      · rw [Table.lookup_emplace] at hk
        split_ifs at hk with heq
        · subst heq
          cases hlookup : d₀.proofOfWork.lookup (ec.hash g.pubkey) with
          | none =>
            rw [hlookup] at hk
            exact Or.inr (Option.some.inj hk).symm
          | some w' =>
            rw [hlookup] at hk
            exact Or.inl hk
        · exact Or.inl hk
      · exact Or.inr hzero
    | add g =>
      obtain ⟨w₀, -, rfl⟩ := Option.map_eq_some_iff.mp hstep
      refine ⟨?_, ?_, fun k w hw => ?_⟩
      · cases hg : g.auth <;> simpa [Arrival.added, Diff.merge, hg] using hauth
      · cases hg : g.cash <;> simpa [Arrival.added, Diff.merge, hg] using hcash
      · rcases hpow k w hw with hk | hzero
        · rw [Diff.merge] at hk
          by_cases heq : k = ec.hash g.pubkey
          · subst heq
            rw [Finmap.lookup_insert] at hk
            exact Or.inr (Option.some.inj hk).symm
          · rw [Finmap.lookup_insert_of_ne _ heq] at hk
            exact Or.inl hk
        · exact Or.inr hzero

/-- The hall of a diff has addresses of the contributions. -/
theorem mem_of_lookup_hallOf {gs : List Auth.LocalDelta} {k : Ripemd160} {a : Auth.Address}
    (h : (hallOf gs).lookup k = some a) : ∃ g ∈ gs, (k, a) ∈ g.toHall := by
  rw [hallOf, Auth.Delta.lookup_emplaceAll, Finmap.lookup_empty, Option.none_or] at h
  obtain ⟨g, hg, hfirst⟩ := firstAddress_flatMap h
  obtain ⟨e, hfind, rfl⟩ := Option.map_eq_some_iff.mp hfirst
  obtain rfl : e.1 = k := by simpa using List.find?_some hfind
  exact ⟨g, hg, List.mem_of_find?_eq_some hfind⟩

/-- A contribution with nothing in it is readable. -/
theorem readable_create : Cash.LocalDelta.create.Readable := by
  refine ⟨fun i => ?_, fun k a ha => ?_, by norm_num [Cash.LocalDelta.create]⟩
  · have hmax : (0 : ℚ) ≤ doubleMax := by decide +kernel
    simpa [Cash.LocalDelta.create] using hmax
  · simp [Cash.LocalDelta.create] at ha

/-- What nodes form of contributions that can be read can be read. -/
theorem readable_endAdding {es : List (Arrival PubKey)} {d : Diff}
    {entries : Cash.Delta.Listing} (hes : ∀ g ∈ Arrival.added es, g.Readable)
    (hrun : run (arrive ec ripemd) Diff.create es = some d) (hlists : d.Lists entries)
    (prev : Ripemd160) : ({ d.endAdding entries with prev := prev } : Diff).Readable := by
  obtain ⟨hauth, hcash, hpow⟩ := run_arrive_merged hrun
  have hauth : d.auth = mergedAuth ((Arrival.added es).filterMap LocalDeltas.auth) := hauth
  have hcash : d.cash = mergedCash ripemd ((Arrival.added es).filterMap LocalDeltas.cash) := hcash
  constructor
  · rw [Diff.endAdding, hauth, mergedAuth_eq]
    intro a ha
    split_ifs at ha
    · cases ha
    · obtain rfl := Option.some.inj ha
      rw [Auth.Delta.foldl_merge]
      constructor
      · refine Policies.Finite.average fun p hp => ?_
        obtain ⟨g, hg, rfl⟩ := List.mem_map.mp hp
        obtain ⟨ld, hld, hld'⟩ := List.mem_filterMap.mp hg
        exact (hes ld hld).policies g hld'
      · intro k a ha
        obtain ⟨g, hg, hmem⟩ := mem_of_lookup_hallOf ha
        obtain ⟨ld, hld, hld'⟩ := List.mem_filterMap.mp hg
        exact (hes ld hld).addresses g hld' _ hmem
  · rw [Diff.Lists, hcash, mergedCash_eq] at hlists
    rw [Diff.endAdding, hcash, mergedCash_eq]
    intro c hc
    split_ifs at hc hlists
    · cases hc
    · obtain rfl := Option.some.inj hc
      have hreadable : ∀ g ∈ (Arrival.added es).filterMap LocalDeltas.cash, g.Readable := by
        intro g hg
        obtain ⟨ld, hld, hld'⟩ := List.mem_filterMap.mp hg
        exact (hes ld hld).cash g hld'
      constructor
      · rw [Cash.Delta.foldl_merge]
        refine Policies.Finite.average fun p hp => ?_
        obtain ⟨g, hg, rfl⟩ := List.mem_map.mp hp
        exact (hreadable g hg).policies
      · rcases Cash.Delta.merged_g_mem hlists with hmem | hcreate
        · exact hreadable _ hmem
        · exact hcreate ▸ readable_create
  · intro k w hw
    rcases hpow k w hw with hempty | rfl
    · simp [Diff.create] at hempty
    · norm_num

/-- **Round trip of diffs.** A diff that is formed of contributions is read back
from its text, with the same contents and the same hash, exactly when the
numbers of its contributors, candidates and accounts fit in an `int`. -/
theorem diff_roundTrips_iff (ec : Ec PubKey) (ripemd : List UInt8 → Ripemd160) (debug : Bool)
    {es : List (Arrival PubKey)} {d : Diff} {entries : Cash.Delta.Listing} (prev : Ripemd160)
    (hes : ∀ g ∈ Arrival.added es, g.Readable)
    (hrun : run (arrive ec ripemd) Diff.create es = some d) (hlists : d.Lists entries) :
    ({ d.endAdding entries with prev := prev } : Diff).RoundTrips ripemd debug ↔
      ({ d.endAdding entries with prev := prev } : Diff).FitsInt :=
  (readable_endAdding hes hrun hlists prev).roundTrips_iff

end Formed

/-- Its numbers are of the types of the code. -/
theorem readable_candidateAt (pubkey : UInt32) {address : Auth.Address} (h : address.val ≠ []) :
    (candidateAt pubkey address).Readable := by
  have hmax : (0 : ℚ) ≤ doubleMax := by decide +kernel
  refine ⟨?_, ?_, ?_⟩
  · rintro a ⟨⟩ i
    simpa using hmax
  · rintro a ⟨⟩ e he
    obtain rfl := List.mem_singleton.mp he
    exact h
  · rintro c ⟨⟩

/-- A pool with two accounts. -/
def poolOfTwo : Cash.LocalDelta :=
  ⟨fun _ => 1 / 2, (Finmap.singleton (Ripemd160.set 1) ⟨Ripemd160.set 1, -90⟩).insert
    (Ripemd160.set 2) ⟨Ripemd160.set 1, 83⟩, 7⟩

/-- A contribution with a candidate and the pool. -/
def contributionOf (pubkey : UInt32) : LocalDeltas UInt32 :=
  { candidateAt pubkey ⟨['a'], blankFree_letter⟩ with cash := some poolOfTwo }

/-- Three contributions arrive, the last two at once. -/
def threeArrivals : List (Arrival UInt32) :=
  [.allow (contributionOf 1), .add (contributionOf 1), .allow (contributionOf 2),
    .allow (contributionOf 3), .add (contributionOf 3), .add (contributionOf 2)]

/-- The pools, as the table of the majority merger lists them. -/
def threePools : Cash.Delta.Listing :=
  [⟨poolOfTwo.key fun _ => Ripemd160.zero, poolOfTwo, 3⟩]

/-- The numbers of the pool are of the types of the code. -/
theorem readable_poolOfTwo : poolOfTwo.Readable := by
  have hboxes : ∀ e ∈ Table.toList poolOfTwo.accounts, -2 ^ 63 ≤ e.2.box ∧ e.2.box < 2 ^ 63 := by
    decide +kernel
  have hhalf : |(1 / 2 : ℚ)| ≤ doubleMax := by decide +kernel
  exact ⟨fun _ => hhalf, fun x a hx => hboxes (x, a) (Table.mem_toList.mpr hx), by decide⟩

/-- So are those of the contribution. -/
theorem readable_contributionOf (pubkey : UInt32) : (contributionOf pubkey).Readable := by
  have hcandidate : (candidateAt pubkey ⟨['a'], blankFree_letter⟩).Readable :=
    readable_candidateAt pubkey (by decide)
  refine ⟨hcandidate.policies, hcandidate.addresses, ?_⟩
  rintro c ⟨⟩
  exact readable_poolOfTwo

/-- The diff of three contributions is read back. -/
theorem diff_roundTrips_threeArrivals :
    ∃ d, run (arrive numberedKeys fun _ => Ripemd160.zero) Diff.create threeArrivals = some d ∧
      d.Lists threePools ∧
      ({ d.endAdding threePools with prev := Ripemd160.set 5 } : Diff).RoundTrips
        (fun _ => Ripemd160.zero) true := by
  have hview : (run (arrive numberedKeys fun _ => Ripemd160.zero) Diff.create threeArrivals).any
      (fun d => decide (d.Lists threePools ∧
        ∀ a ∈ (d.endAdding threePools).auth, (Table.keyList a.toHall).length < 2 ^ 31) &&
        decide ((∀ c ∈ (d.endAdding threePools).cash,
          (Table.keyList c.g.accounts).length < 2 ^ 31) ∧
          (Table.keyList d.proofOfWork).length < 2 ^ 31)) = true := by
    decide +kernel
  obtain ⟨d, hd, hview⟩ := (Option.any_eq_true _ _).mp hview
  simp only [Bool.and_eq_true, decide_eq_true_eq] at hview
  obtain ⟨⟨hlists, hauth⟩, hcash, hworks⟩ := hview
  refine ⟨d, hd, hlists, (diff_roundTrips_iff _ _ true _ ?_ hd hlists).mpr
    ⟨hauth, hcash, hworks⟩⟩
  intro g hg
  simp only [threeArrivals, Arrival.added, List.mem_cons, List.not_mem_nil, or_false] at hg
  rcases hg with rfl | rfl | rfl
  · exact readable_contributionOf 1
  · exact readable_contributionOf 3
  · exact readable_contributionOf 2
/-- Contributions of so many keys, which have the same candidate. -/
def crowd (n : ℕ) : List (LocalDeltas UInt32) :=
  (List.range n).map fun i => candidateAt (UInt32.ofNat i) ⟨['a'], blankFree_letter⟩

/-- The contributions of the crowd are readable. -/
theorem readable_crowd {n : ℕ} : ∀ g ∈ crowd n, g.Readable := by
  intro g hg
  obtain ⟨i, -, rfl⟩ := List.mem_map.mp hg
  exact readable_candidateAt _ (by decide)

/-- The keys of the crowd are distinct up to `2 ^ 32` contributors. -/
theorem nodup_keys_crowd {n : ℕ} (hn : n ≤ 2 ^ 32) :
    ((crowd n).map fun g => numberedKeys.hash g.pubkey).Nodup := by
  rw [crowd, List.map_map]
  refine List.Nodup.map_on ?_ List.nodup_range
  intro i hi j hj heq
  rw [List.mem_range] at hi hj
  have hkey : UInt32.ofNat i = UInt32.ofNat j := congrArg Ripemd160.w2 heq
  have hnat := congrArg UInt32.toNat hkey
  rwa [UInt32.toNat_ofNat_of_lt' (hi.trans_le hn), UInt32.toNat_ofNat_of_lt' (hj.trans_le hn)]
    at hnat

/-- The diff of too many contributors is not read back. -/
theorem exists_not_roundTrips {n : ℕ} (hn : n ≤ 2 ^ 32) (hmany : 2 ^ 31 ≤ n) :
    ∃ d, run (arrive numberedKeys fun _ => Ripemd160.zero) Diff.create
        ((crowd n).map Arrival.allow ++ (crowd n).map Arrival.add) = some d ∧
      d.Lists [] ∧
        ¬ ({ d.endAdding [] with prev := Ripemd160.set 5 } : Diff).RoundTrips
          (fun _ => Ripemd160.zero) true := by
  have hes := schedule_allow_then_add (List.Perm.refl (crowd n))
  have hkeys : ((Arrival.allowed ((crowd n).map Arrival.allow ++ (crowd n).map Arrival.add)).map
      fun g => numberedKeys.hash g.pubkey).Nodup := by
    simpa using nodup_keys_crowd hn
  obtain ⟨d, hrun, -, hpow, -, hcash⟩ :=
    run_arrive numberedKeys (fun _ => Ripemd160.zero) hes.addsAllowed hkeys
  have hnone : (crowd n).filterMap LocalDeltas.cash = [] := by
    rw [List.filterMap_eq_nil_iff]
    intro g hg
    obtain ⟨i, -, rfl⟩ := List.mem_map.mp hg
    rfl
  have hlists : d.Lists [] := by
    simp only [Arrival.added_append, Arrival.added_map_allow, Arrival.added_map_add,
      List.nil_append, hnone] at hcash
    rw [Diff.Lists, hcash]
    rfl
  refine ⟨d, hrun, hlists, fun h => ?_⟩
  have hreadable := readable_endAdding (by simpa using readable_crowd) hrun hlists
    (Ripemd160.set 5)
  have hfits : (Table.keyList d.proofOfWork).length < 2 ^ 31 :=
    (hreadable.roundTrips_iff.mp h).works
  have hsubset : (crowd n).map (fun g => numberedKeys.hash g.pubkey) ⊆
      Table.keyList d.proofOfWork := by
    intro k hk
    rw [Table.mem_keyList, Finmap.mem_iff]
    exact ⟨0, by rw [hpow, if_pos (by simpa using hk)]⟩
  have hlength := ((nodup_keys_crowd hn).subperm hsubset).length_le
  rw [List.length_map, crowd, List.length_map, List.length_range] at hlength
  omega

/-- The diff of 2 ^ 31 contributors is not read back. -/
theorem not_diff_roundTrips_crowd :
    (∀ g ∈ crowd (2 ^ 31), g.Readable) ∧
      ∃ d, run (arrive numberedKeys fun _ => Ripemd160.zero) Diff.create
          ((crowd (2 ^ 31)).map Arrival.allow ++ (crowd (2 ^ 31)).map Arrival.add) = some d ∧
        d.Lists [] ∧
          ¬ ({ d.endAdding [] with prev := Ripemd160.set 5 } : Diff).RoundTrips
            (fun _ => Ripemd160.zero) true :=
  ⟨readable_crowd, exists_not_roundTrips (by norm_num) le_rfl⟩

end Engine

end AcCore.Gov
