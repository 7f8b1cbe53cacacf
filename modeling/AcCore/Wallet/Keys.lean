import AcCore.Lib.Run
import AcCore.Wallet.Wallet

/-!
# The file with the keys

The wallet has its private keys in a file of words, which it reads when it is started
and writes whenever there is a new key. The public keys and the addresses are computed
again from the private keys. What is lost here is lost for good, so this file follows
the keys through new ones, through restarts and through crashes.
-/

namespace AcCore

open Lib Gov

/-- `priv_t`. -/
structure Priv where
  bytes : List UInt8
  length_eq : bytes.length = 32
  deriving DecidableEq

namespace Priv

/-- A key of zeroes. -/
def zero : Priv := ⟨List.replicate 32 0, List.length_replicate⟩

/-- `priv_t::to_b58`. -/
def toB58 (k : Priv) : Text := Base58.encode k.bytes

/-- `priv_t::from_b58`, which takes 32 bytes only. -/
def fromB58 (s : Text) : Priv :=
  match Base58.decode s with
  | none => zero
  | some v => if h : v.length = 32 then ⟨v, h⟩ else zero

/-- The text of a key is read back as the key. -/
theorem fromB58_toB58 (k : Priv) : fromB58 k.toB58 = k := by
  rw [fromB58, toB58, Base58.decode_encode]
  exact dif_pos k.length_eq

/-- The text of a key is one word. -/
theorem isWord_toB58 (k : Priv) : IsWord k.toB58 := by
  refine Curve.isWord_encode fun hnil => ?_
  have hlength := k.length_eq
  rw [hnil] at hlength
  cases hlength

end Priv

/-- The keys of a wallet by their addresses, and the file with them. -/
structure KeyStore where
  keys : Table Ripemd160 Priv
  file : Option Text
  needSave : Bool

/-- What happens to the keys. -/
inductive KeyEvent where
  /-- `new_address`, with the key that is generated. -/
  | newAddress (k : Priv)
  /-- `add_address`. -/
  | addAddress (k : Priv)
  /-- The wallet is deleted and constructed again. -/
  | restart
  /-- The wallet is gone and constructed again. -/
  | crash

/-- The key that an event brings. -/
def KeyEvent.key : KeyEvent → Option Priv
  | .newAddress k => some k
  | .addAddress k => some k
  | _ => none

namespace KeyStore

variable {PubKey : Type} (curve : Curve Priv PubKey) (ripemd : List UInt8 → Ripemd160)
  (verify : Priv → Bool)

/-- The hash of the public key of a private key. -/
def addressOf (k : Priv) : Ripemd160 := ripemd (curve.pubkeySerialize (curve.pubkeyCreate k))

/-- The loop of `load`. Words that are no keys are skipped. -/
def loadLoop : ℕ → Option Text → Table Ripemd160 Priv → Table Ripemd160 Priv
  | 0, _, t => t
  | fuel + 1, s, t =>
    if isGood s then
      let (pkb58, s) := extract s
      if pkb58 = [] then loadLoop fuel s t
      else
        let pk := Priv.fromB58 pkb58
        if verify pk then loadLoop fuel s (Table.emplace (addressOf curve ripemd pk) pk t)
        else loadLoop fuel s t
    else t

/-- `load`. -/
def load (file : Option Text) : Table Ripemd160 Priv :=
  file.elim ∅ fun text => loadLoop curve ripemd verify (text.length + 1) (some text) ∅

/-- What `save` writes, for the order in which the table is iterated. -/
def fileText (order : List (Ripemd160 × Priv)) : Text :=
  order.flatMap fun e => e.2.toB58 ++ [' ']

/-- `save`; `none` when the list is not an order of the table. -/
def save (s : KeyStore) (order : List (Ripemd160 × Priv)) : Option KeyStore :=
  if s.needSave then
    if order.Perm s.keys.toList then
      some { s with file := some (fileText order), needSave := false }
    else none
  else some s

/-- The constructor, on the file that is found. -/
def start (file : Option Text) : KeyStore := ⟨load curve ripemd verify file, file, false⟩

/-- One event; the order is that in which the table is iterated if it is saved. `none`
when the order is none, or when a key is generated that is not valid. -/
def step (s : KeyStore) : KeyEvent × List (Ripemd160 × Priv) → Option KeyStore
  | (.newAddress k, order) =>
    if verify k then
      save { s with keys := Table.emplace (addressOf curve ripemd k) k s.keys, needSave := true }
        order
    else none
  | (.addAddress k, order) =>
    if verify k then
      if addressOf curve ripemd k ∈ s.keys then some s
      else save { s with
        keys := Table.emplace (addressOf curve ripemd k) k s.keys, needSave := true } order
    else some s
  | (.restart, order) => (s.save order).map fun s => start curve ripemd verify s.file
  | (.crash, _) => some (start curve ripemd verify s.file)

variable {curve ripemd verify}

/-! ## What is saved is loaded -/

/-- Keys that are valid, each at the address that belongs to it. -/
def Valid (curve : Curve Priv PubKey) (ripemd : List UInt8 → Ripemd160) (verify : Priv → Bool)
    (t : Table Ripemd160 Priv) : Prop :=
  ∀ x k, t.lookup x = some k → addressOf curve ripemd k = x ∧ verify k = true

/-- A valid table stays valid with a verified key at its address. -/
theorem Valid.emplace {t : Table Ripemd160 Priv} (h : Valid curve ripemd verify t) {k : Priv}
    (hk : verify k = true) :
    Valid curve ripemd verify (Table.emplace (addressOf curve ripemd k) k t) := by
  intro x k' hlookup
  rw [Table.lookup_emplace] at hlookup
  split_ifs at hlookup with hx
  · subst hx
    cases hold : t.lookup (addressOf curve ripemd k) with
    | none =>
      rw [hold, Option.getD_none, Option.some.injEq] at hlookup
      exact hlookup ▸ ⟨rfl, hk⟩
    | some old =>
      rw [hold, Option.getD_some, Option.some.injEq] at hlookup
      exact hlookup ▸ h _ _ hold
  · exact h x k' hlookup

/-- Whatever the file contains, what is loaded are valid keys. -/
theorem valid_loadLoop {fuel : ℕ} {s : Option Text} {t : Table Ripemd160 Priv}
    (ht : Valid curve ripemd verify t) :
    Valid curve ripemd verify (loadLoop curve ripemd verify fuel s t) := by
  induction fuel generalizing s t with
  | zero => exact ht
  | succ fuel ih =>
    rw [loadLoop]
    split_ifs with hgood
    · dsimp only
      split_ifs with hempty hverify
      · exact ih ht
      · exact ih (ht.emplace hverify)
      · exact ih ht
    · exact ht

/-- What is loaded from any file is valid. -/
theorem valid_load (file : Option Text) :
    Valid curve ripemd verify (load curve ripemd verify file) := by
  cases file with
  | none =>
    intro x k hlookup
    cases hlookup
  | some text =>
    refine valid_loadLoop fun x k hlookup => ?_
    cases hlookup

/-- The loop puts the keys in one after the other. -/
theorem loadLoop_fileText {es : List (Ripemd160 × Priv)}
    (hes : ∀ e ∈ es, addressOf curve ripemd e.2 = e.1 ∧ verify e.2 = true) {fuel : ℕ}
    (hfuel : es.length < fuel) {blank : Text} (hblank : blank = [] ∨ blank = [' '])
    (t : Table Ripemd160 Priv) :
    loadLoop curve ripemd verify fuel (some (blank ++ fileText es)) t =
      es.foldl (fun t e => Table.emplace e.1 e.2 t) t := by
  induction es generalizing fuel blank t with
  | nil =>
    obtain ⟨fuel, rfl⟩ := Nat.exists_eq_succ_of_ne_zero (by omega : fuel ≠ 0)
    rcases hblank with rfl | rfl
    · rfl
    · -- the blank at the end is no key, and nothing comes after it
      have hend : loadLoop curve ripemd verify fuel none t = t := by cases fuel <;> rfl
      exact hend
  | cons e es ih =>
    obtain ⟨fuel, rfl⟩ := Nat.exists_eq_succ_of_ne_zero (by omega : fuel ≠ 0)
    obtain ⟨x, k⟩ := e
    obtain ⟨haddress, hverify⟩ := hes (x, k) List.mem_cons_self
    have htext : fileText ((x, k) :: es) = k.toB58 ++ ' ' :: fileText es := by simp [fileText]
    have hword : extract (some (blank ++ fileText ((x, k) :: es))) =
        (k.toB58, some (' ' :: fileText es)) := by
      rw [htext]
      rcases hblank with rfl | rfl
      · rw [extract, List.nil_append, readWord_append k.isWord_toB58]
      · rw [extract, List.singleton_append, readWord_blank, readWord_append k.isWord_toB58]
    have hgood : isGood (some (blank ++ fileText ((x, k) :: es))) = true := by
      rw [htext]
      cases h : blank ++ (k.toB58 ++ ' ' :: fileText es) with
      | nil => simp at h
      | cons c cs => rfl
    have hrest := ih (fun e he => hes e (List.mem_cons_of_mem _ he))
      (Nat.succ_lt_succ_iff.mp hfuel) (Or.inr rfl) (Table.emplace x k t)
    rw [loadLoop, if_pos hgood, hword]
    dsimp only
    rw [if_neg k.isWord_toB58.1, k.fromB58_toB58, if_pos hverify, List.foldl_cons, ← hrest,
      haddress]
    rfl

/-- A file is at least as long as it has keys. -/
theorem length_fileText (es : List (Ripemd160 × Priv)) : es.length ≤ (fileText es).length := by
  induction es with
  | nil => exact le_rfl
  | cons e es ih =>
    simp only [fileText, List.flatMap_cons, List.length_append, List.length_cons] at ih ⊢
    omega

/-- Valid keys that are saved are loaded again, in whatever order they are written. -/
theorem load_fileText {t : Table Ripemd160 Priv} (ht : Valid curve ripemd verify t)
    {order : List (Ripemd160 × Priv)} (horder : order.Perm t.toList) :
    load curve ripemd verify (some (fileText order)) = t := by
  have hes : ∀ e ∈ order, addressOf curve ripemd e.2 = e.1 ∧ verify e.2 = true := fun e he =>
    ht e.1 e.2 (Table.mem_toList.mp (horder.mem_iff.mp he))
  have hloop := loadLoop_fileText hes (Nat.lt_succ_of_le (length_fileText order)) (Or.inl rfl) ∅
  exact hloop.trans (Table.foldl_emplace_of_perm horder)

/-! ## No key is lost -/

/-- The file has the keys, and nothing is left to be saved. -/
structure Settled (curve : Curve Priv PubKey) (ripemd : List UInt8 → Ripemd160)
    (verify : Priv → Bool) (s : KeyStore) : Prop where
  valid : Valid curve ripemd verify s.keys
  saved : start curve ripemd verify s.file = s

/-- At the start everything is saved. -/
theorem settled_start (file : Option Text) :
    (start curve ripemd verify file).Settled curve ripemd verify :=
  ⟨valid_load file, rfl⟩

/-- A settled store has nothing to save. -/
theorem Settled.needSave {s : KeyStore} (h : s.Settled curve ripemd verify) :
    s.needSave = false := by
  rw [← h.saved]
  rfl

/-- After a new key is put in, `save` leaves nothing to be saved. -/
theorem settled_save {s s' : KeyStore} {order : List (Ripemd160 × Priv)}
    (hvalid : Valid curve ripemd verify s.keys) (hneed : s.needSave = true)
    (h : s.save order = some s') : s'.Settled curve ripemd verify ∧ s'.keys = s.keys := by
  rw [save, if_pos hneed] at h
  obtain ⟨horder, h⟩ := Option.ite_none_right_eq_some.mp h
  obtain rfl := Option.some.inj h
  refine ⟨⟨hvalid, ?_⟩, rfl⟩
  rw [start, load_fileText hvalid horder]

/-- The key is found at its address, or another key of the same address is. -/
def Finds (curve : Curve Priv PubKey) (ripemd : List UInt8 → Ripemd160)
    (t : Table Ripemd160 Priv) (k : Priv) : Prop :=
  t.lookup (addressOf curve ripemd k) = some k ∨
    ∃ k' ≠ k, addressOf curve ripemd k' = addressOf curve ripemd k ∧
      t.lookup (addressOf curve ripemd k) = some k'

/-- Where the address of a key has an entry, the key is found. -/
theorem Valid.finds {t : Table Ripemd160 Priv} (ht : Valid curve ripemd verify t) {k : Priv}
    (hk : addressOf curve ripemd k ∈ t) : Finds curve ripemd t k := by
  obtain ⟨k', hk'⟩ := Finmap.mem_iff.mp hk
  by_cases hsame : k' = k
  · exact Or.inl (hsame ▸ hk')
  · exact Or.inr ⟨k', hsame, (ht _ k' hk').1, hk'⟩

/-- A table that has all entries of another finds what that finds. -/
theorem Finds.mono {t t' : Table Ripemd160 Priv} {k : Priv}
    (hkept : ∀ x k, t.lookup x = some k → t'.lookup x = some k) (h : Finds curve ripemd t k) :
    Finds curve ripemd t' k := by
  rcases h with hk | ⟨k', hne, haddress, hk⟩
  · exact Or.inl (hkept _ _ hk)
  · exact Or.inr ⟨k', hne, haddress, hkept _ _ hk⟩

/-- The keys are those of before and the valid ones of those that came. -/
structure Grows (curve : Curve Priv PubKey) (ripemd : List UInt8 → Ripemd160)
    (verify : Priv → Bool) (came : Priv → Prop) (s s' : KeyStore) : Prop where
  kept : ∀ x k, s.keys.lookup x = some k → s'.keys.lookup x = some k
  added : ∀ k, came k → verify k = true → Finds curve ripemd s'.keys k
  origin : ∀ x ∈ s'.keys, x ∈ s.keys ∨
    ∃ k, came k ∧ verify k = true ∧ addressOf curve ripemd k = x

/-- Where the keys that came are there already. -/
theorem Grows.refl {came : Priv → Prop} (s : KeyStore)
    (hcame : ∀ k, came k → verify k = true → Finds curve ripemd s.keys k) :
    Grows curve ripemd verify came s s where
  kept _ _ hlookup := hlookup
  added := hcame
  origin _ hx := Or.inl hx

/-- First these keys came, and then those. -/
theorem Grows.trans {came came' came'' : Priv → Prop} {s s' s'' : KeyStore}
    (h : Grows curve ripemd verify came s s') (h' : Grows curve ripemd verify came' s' s'')
    (hcame : ∀ k, came'' k ↔ came k ∨ came' k) : Grows curve ripemd verify came'' s s'' where
  kept x k hlookup := h'.kept x k (h.kept x k hlookup)
  added k hk hverify := by
    obtain hk | hk := (hcame k).mp hk
    · exact (h.added k hk hverify).mono h'.kept
    · exact h'.added k hk hverify
  origin x hx := by
    obtain hx | ⟨k, hk, hverify, haddress⟩ := h'.origin x hx
    · refine (h.origin x hx).imp_right fun ⟨k, hk, hverify, haddress⟩ => ?_
      exact ⟨k, (hcame k).mpr (Or.inl hk), hverify, haddress⟩
    · exact Or.inr ⟨k, (hcame k).mpr (Or.inr hk), hverify, haddress⟩

/-- A valid key is put in, and saved. -/
theorem Settled.add {s s' : KeyStore} {k : Priv} {order : List (Ripemd160 × Priv)}
    (h : s.Settled curve ripemd verify) (hverify : verify k = true)
    (hsave : save { s with
      keys := Table.emplace (addressOf curve ripemd k) k s.keys, needSave := true } order =
        some s') :
    s'.Settled curve ripemd verify ∧ Grows curve ripemd verify (fun k' => k = k') s s' := by
  obtain ⟨hsettled, hkeys⟩ := settled_save (h.valid.emplace hverify) rfl hsave
  refine ⟨hsettled, fun x k' hlookup => ?_, ?_, fun x hx => ?_⟩
  · rw [hkeys, Table.lookup_emplace]
    split_ifs with hx
    · rw [← hx, hlookup, Option.getD_some]
    · exact hlookup
  · rintro _ rfl _
    refine hsettled.valid.finds ?_
    rw [hkeys, Table.mem_emplace]
    exact Or.inl rfl
  · rw [hkeys, Table.mem_emplace] at hx
    exact hx.symm.imp_right fun hx => ⟨k, rfl, hverify, hx.symm⟩

/-- **What one event does.** Restarts and crashes do nothing, and keys are added only. -/
theorem Settled.step {s s' : KeyStore} {e : KeyEvent × List (Ripemd160 × Priv)}
    (h : s.Settled curve ripemd verify) (hstep : s.step curve ripemd verify e = some s') :
    s'.Settled curve ripemd verify ∧
      Grows curve ripemd verify (fun k => e.1.key = some k) s s' := by
  obtain ⟨e, order⟩ := e
  have hnone : e.key = none → Grows curve ripemd verify (fun k => e.key = some k) s s :=
    fun hkey => Grows.refl s fun k hk => by
      rw [hkey] at hk
      cases hk
  cases e with
  | newAddress k =>
    obtain ⟨hverify, hsave⟩ := Option.ite_none_right_eq_some.mp hstep
    simpa only [KeyEvent.key, Option.some.injEq] using h.add hverify hsave
  | addAddress k =>
    simp only [KeyEvent.key, Option.some.injEq]
    simp only [KeyStore.step] at hstep
    split_ifs at hstep with hverify hold
    · obtain rfl := Option.some.inj hstep
      exact ⟨h, Grows.refl s (by rintro _ rfl _; exact h.valid.finds hold)⟩
    · exact h.add hverify hstep
    · obtain rfl := Option.some.inj hstep
      exact ⟨h, Grows.refl s (by rintro _ rfl htrue; exact absurd htrue hverify)⟩
  | restart =>
    have hsave : s.save order = some s := by rw [save, h.needSave]; rfl
    simp only [KeyStore.step, hsave, Option.map_some, h.saved] at hstep
    obtain rfl := Option.some.inj hstep
    exact ⟨h, hnone rfl⟩
  | crash =>
    simp only [KeyStore.step, h.saved] at hstep
    obtain rfl := Option.some.inj hstep
    exact ⟨h, hnone rfl⟩

/-- **What a run does.** -/
theorem Settled.run {s s' : KeyStore} {es : List (KeyEvent × List (Ripemd160 × Priv))}
    (h : s.Settled curve ripemd verify)
    (hrun : Lib.run (KeyStore.step curve ripemd verify) s es = some s') :
    s'.Settled curve ripemd verify ∧
      Grows curve ripemd verify (fun k => ∃ e ∈ es, e.1.key = some k) s s' := by
  induction es generalizing s with
  | nil =>
    obtain rfl := Option.some.inj hrun
    exact ⟨h, Grows.refl s (by simp)⟩
  | cons e es ih =>
    obtain ⟨mid, hstep, hrest⟩ := run_cons_eq_some.mp hrun
    obtain ⟨hmid, hfirst⟩ := h.step hstep
    obtain ⟨hend, hgrows⟩ := ih hmid hrest
    exact ⟨hend, hfirst.trans hgrows fun k => List.exists_mem_cons_iff ..⟩

/-- The wallet with the keys. -/
def Settled.wallet {s : KeyStore} (h : s.Settled curve ripemd verify) : Wallet curve ripemd where
  keys := s.keys
  address_eq x k hlookup := (h.valid x k hlookup).1

/-- **No key is lost.** Whatever file the wallet starts from, whichever keys are generated
or added, and wherever it is restarted or crashes in between: the file always has what
the wallet has, so that the wallet that starts from it is the same one; every key that
was in the file at the beginning is still there, every valid key that came can be found at
its address, unless another key of the same address is there, and nothing else can. -/
theorem keys_survive {file : Option Text} {es : List (KeyEvent × List (Ripemd160 × Priv))}
    {s : KeyStore}
    (hrun : Lib.run (KeyStore.step curve ripemd verify) (start curve ripemd verify file) es =
      some s) :
    start curve ripemd verify s.file = s ∧
      Grows curve ripemd verify (fun k => ∃ e ∈ es, e.1.key = some k)
        (start curve ripemd verify file) s ∧
      ∃ w : Wallet curve ripemd, w.keys = s.keys := by
  obtain ⟨hsettled, hgrows⟩ := (settled_start file).run hrun
  exact ⟨hsettled.saved, hgrows, hsettled.wallet, rfl⟩

/-! ## Three keys -/

/-- A key that ends in a byte. -/
def keyEnding (b : UInt8) : Priv := ⟨List.replicate 31 0 ++ [b], by simp⟩

/-- A curve whose public keys are the private ones. -/
def mirror : Curve Priv (List UInt8) where
  pubkeyCreate := Priv.bytes
  pubkeySerialize bytes := 2 :: bytes
  pubkeyParse bytes := some bytes.tail
  ecdsaSign k _ := k.bytes
  ecdsaVerify pub _ signature := pub = signature
  ecdsaVerifyNormalized pub _ signature := pub = signature

/-- A hash that shows the last byte. -/
def ripemdLast (bytes : List UInt8) : Ripemd160 := Ripemd160.set (bytes.getLastD 0).toUInt32

/-- A file with a key and a word that is none. -/
def oldFile : Text := (keyEnding 1).toB58 ++ [' ', '?']

/-- A key is generated, the wallet crashes, and a key is added, twice. -/
def threeKeys : List (KeyEvent × List (Ripemd160 × Priv)) :=
  [(.newAddress (keyEnding 2), [(Ripemd160.set 2, keyEnding 2), (Ripemd160.set 1, keyEnding 1)]),
    (.crash, []),
    (.addAddress (keyEnding 3), [(Ripemd160.set 2, keyEnding 2), (Ripemd160.set 3, keyEnding 3),
      (Ripemd160.set 1, keyEnding 1)]),
    (.addAddress (keyEnding 3), []), (.restart, [])]

/-- All three keys are there at the end. -/
theorem keys_survive_threeKeys :
    ∃ s, Lib.run (KeyStore.step mirror ripemdLast fun k => k ≠ Priv.zero)
        (start mirror ripemdLast (fun k => k ≠ Priv.zero) (some oldFile)) threeKeys = some s ∧
      start mirror ripemdLast (fun k => k ≠ Priv.zero) s.file = s ∧
      s.keys.lookup (Ripemd160.set 1) = some (keyEnding 1) ∧
      Finds mirror ripemdLast s.keys (keyEnding 2) ∧
          Finds mirror ripemdLast s.keys (keyEnding 3) := by
  have hsome : (Lib.run (KeyStore.step mirror ripemdLast fun k => k ≠ Priv.zero)
      (start mirror ripemdLast (fun k => k ≠ Priv.zero) (some oldFile)) threeKeys).isSome =
        true := by decide +kernel
  obtain ⟨s, hrun⟩ := Option.isSome_iff_exists.mp hsome
  obtain ⟨hsaved, hgrows, -⟩ := keys_survive hrun
  refine ⟨s, hrun, hsaved, hgrows.kept _ _ (by decide +kernel), ?_, ?_⟩
  · exact hgrows.added (keyEnding 2) ⟨_, List.mem_cons_self, rfl⟩ (by decide)
  · have hthird : (KeyEvent.addAddress (keyEnding 3), [(Ripemd160.set 2, keyEnding 2),
        (Ripemd160.set 3, keyEnding 3), (Ripemd160.set 1, keyEnding 1)]) ∈ threeKeys :=
      List.mem_cons_of_mem _ (List.mem_cons_of_mem _ List.mem_cons_self)
    exact hgrows.added (keyEnding 3) ⟨_, hthird, rfl⟩ (by decide)

end KeyStore

end AcCore
