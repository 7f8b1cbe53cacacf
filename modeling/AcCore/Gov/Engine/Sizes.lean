import AcCore.Gov.Engine.Relay
import Mathlib.Algebra.BigOperators.Fin

/-!
# How long the texts are

The characters of a block and of a contribution, counted by what they list: the
candidates with their addresses, the accounts with their boxes, the contributors with
their work, and the policies.
-/

namespace AcCore.Gov.Engine

open Lib

variable (fmt : Format)

/-- A number, with the blank after it. -/
def natSize (n : ℕ) : ℕ := (natText n).length + 1

/-- The policies. -/
def policiesSize {n : ℕ} (p : Policies n) : ℕ := ∑ i, ((fmt.double (p i)).length + 1)

namespace Auth

/-- A candidate: the hash and the address. -/
def candidateSize (e : Ripemd160 × Address) : ℕ := e.1.toB58.length + e.2.val.length + 2

/-- The section of the auth app in a contribution. -/
def LocalDelta.size (g : LocalDelta) : ℕ :=
  natSize appId + natSize g.toHall.length + (g.toHall.map candidateSize).sum +
    policiesSize fmt g.policies

/-- The section of the auth app in a block. -/
def Delta.size (d : Delta) : ℕ :=
  natSize appId + natSize (Table.keyList d.toHall).length +
    ((Table.toList d.toHall).map candidateSize).sum + policiesSize fmt d.policies

end Auth

end AcCore.Gov.Engine

namespace AcCore.Gov.Cash

open Lib Engine

variable (fmt : Format)

/-- An account: the hash, the locking program and the box. -/
def accountSize (e : Ripemd160 × Account) : ℕ :=
  e.1.toB58.length + e.2.lockingProgram.toB58.length + (intText e.2.box).length + 3

/-- The pool. -/
def LocalDelta.poolSize (g : LocalDelta) : ℕ :=
  natSize (Table.keyList g.accounts).length + ((Table.toList g.accounts).map accountSize).sum +
    ((intText g.fees).length + 1) + policiesSize fmt g.policies

/-- The section of the cash app in a contribution. -/
def LocalDelta.size (g : LocalDelta) : ℕ := natSize appId + g.poolSize fmt

/-- The section of the cash app in a block. -/
def Delta.size (d : Delta) : ℕ := natSize appId + d.g.poolSize fmt + policiesSize fmt d.policies

end AcCore.Gov.Cash

namespace AcCore.Gov.Engine

open Lib

variable {PrivKey PubKey : Type} (curve : Curve PrivKey PubKey) (fmt : Format)

/-- A contributor, with its work. -/
def workSize (e : Ripemd160 × ℕ) : ℕ := e.1.toB58.length + 1 + natSize e.2

/-- A block. -/
def Diff.size (d : Diff) : ℕ :=
  d.prev.toB58.length + 1 + natSize (d.auth.toList.length + d.cash.toList.length) +
    d.auth.elim 0 (Auth.Delta.size fmt) + d.cash.elim 0 (Cash.Delta.size fmt) +
    natSize (Table.keyList d.proofOfWork).length +
    ((Table.toList d.proofOfWork).map workSize).sum

/-- A contribution. -/
def LocalDeltas.size (g : LocalDeltas PubKey) : ℕ :=
  (curve.toB58 g.pubkey).length + g.signature.length + 3 +
    natSize (g.auth.toList.length + g.cash.toList.length) +
    g.auth.elim 0 (Auth.LocalDelta.size sixFormat) +
    g.cash.elim 0 (Cash.LocalDelta.size sixFormat)

/-! ## The texts have these sizes -/

variable {curve fmt}

/-- A word adds its length and a blank. -/
theorem length_unwords_cons (w : Text) (ws : List Text) :
    (unwords (w :: ws)).length = w.length + 1 + (unwords ws).length := by
  rw [length_unwords, length_unwords, List.map_cons, List.sum_cons]

/-- The lengths of two lists of words add up. -/
theorem length_unwords_append (ws vs : List Text) :
    (unwords (ws ++ vs)).length = (unwords ws).length + (unwords vs).length := by
  rw [unwords_append, List.length_append]

/-- The words of the entries of a list. -/
theorem length_unwords_flatMap {α : Type} (f : α → List Text) (xs : List α) :
    (unwords (xs.flatMap f)).length = (xs.map fun x => (unwords (f x)).length).sum := by
  induction xs with
  | nil => rfl
  | cons x xs ih =>
    rw [List.flatMap_cons, length_unwords_append, ih, List.map_cons, List.sum_cons]

/-- The length of printed policies. -/
theorem length_policiesWords {n : ℕ} (p : Policies n) :
    (unwords (policiesWords fmt p)).length = policiesSize fmt p := by
  rw [policiesWords, length_unwords, List.map_ofFn, List.sum_ofFn]
  rfl

/-- The section of the auth app in a contribution. -/
theorem Auth.LocalDelta.length_words (g : Auth.LocalDelta) :
    (unwords (natText appId :: g.words fmt)).length = g.size fmt := by
  have hlist : (unwords (g.toHall.flatMap fun e => [e.1.toB58, e.2.val])).length =
      (g.toHall.map candidateSize).sum := by
    rw [length_unwords_flatMap]
    congr 2
    funext e
    simp only [length_unwords_cons, unwords_nil, List.length_nil, candidateSize]
    omega
  rw [length_unwords_cons, words, List.cons_append, length_unwords_cons, length_unwords_append,
    hlist, length_policiesWords, size, natSize, natSize]
  omega

/-- The section of the auth app in a block. -/
theorem Auth.Delta.length_words (d : Auth.Delta) :
    (unwords (natText appId :: d.words fmt)).length = d.size fmt := by
  have hlist : (unwords (hallWords d.toHall)).length =
      ((Table.toList d.toHall).map candidateSize).sum := by
    rw [hallWords_eq, length_unwords_flatMap]
    congr 2
    funext e
    simp only [length_unwords_cons, unwords_nil, List.length_nil, candidateSize]
    omega
  rw [length_unwords_cons, words, List.cons_append, length_unwords_cons, length_unwords_append,
    hlist, length_policiesWords, size, natSize, natSize]
  omega

end AcCore.Gov.Engine

namespace AcCore.Gov.Cash

open Lib Engine

variable {fmt : Format}

/-- The pool of the cash app. -/
theorem LocalDelta.length_words (g : Cash.LocalDelta) :
    (unwords (g.words fmt)).length = g.poolSize fmt := by
  have hlist : (unwords ((Table.toList g.accounts).flatMap fun e =>
      [e.1.toB58, e.2.lockingProgram.toB58, intText e.2.box])).length =
        ((Table.toList g.accounts).map accountSize).sum := by
    rw [length_unwords_flatMap]
    congr 2
    funext e
    simp only [length_unwords_cons, unwords_nil, List.length_nil, accountSize]
    omega
  rw [words, List.cons_append, length_unwords_cons, length_unwords_append, hlist,
    length_unwords_cons, length_policiesWords, poolSize, natSize]
  omega

/-- The section of the cash app in a block. -/
theorem Delta.length_words (d : Cash.Delta) :
    (unwords (natText appId :: d.words fmt)).length = d.size fmt := by
  rw [length_unwords_cons, words, length_unwords_append, LocalDelta.length_words,
    length_policiesWords, size, natSize]
  omega

end AcCore.Gov.Cash

namespace AcCore.Gov.Engine

open Lib

variable {PrivKey PubKey : Type} {curve : Curve PrivKey PubKey} {fmt : Format}

/-- **The text of a block has this many characters.** -/
theorem Diff.length_toStream (d : Diff) : (d.toStream fmt).length = d.size fmt := by
  have hauth : (unwords (authWords fmt d.auth)).length = d.auth.elim 0 (Auth.Delta.size fmt) := by
    cases d.auth with
    | none => rfl
    | some a => exact a.length_words
  have hcash : (unwords (cashWords fmt d.cash)).length = d.cash.elim 0 (Cash.Delta.size fmt) := by
    cases d.cash with
    | none => rfl
    | some c => exact c.length_words
  have hworks : (unwords (powWords d.proofOfWork)).length =
      natSize (Table.keyList d.proofOfWork).length +
        ((Table.toList d.proofOfWork).map workSize).sum := by
    rw [powWords, length_unwords_cons, length_unwords_flatMap]
    congr 3
    funext e
    simp only [length_unwords_cons, unwords_nil, List.length_nil, workSize, natSize]
  rw [toStream, words, List.cons_append, List.cons_append, List.nil_append, length_unwords_cons,
    length_unwords_cons, length_unwords_append, length_unwords_append, hauth, hcash, hworks, size]
  simp only [natSize]
  omega

/-- **The text of a contribution has this many characters.** -/
theorem LocalDeltas.length_toStream (g : LocalDeltas PubKey) :
    (g.toStream curve).length = g.size curve := by
  have hauth : (unwords (g.auth.elim [] fun a => natText Auth.appId :: a.words sixFormat)).length =
      g.auth.elim 0 (Auth.LocalDelta.size sixFormat) := by
    cases g.auth with
    | none => rfl
    | some a => exact a.length_words
  have hcash : (unwords (g.cash.elim [] fun c => natText Cash.appId :: c.words sixFormat)).length =
      g.cash.elim 0 (Cash.LocalDelta.size sixFormat) := by
    cases g.cash with
    | none => rfl
    | some c =>
      rw [Option.elim_some, length_unwords_cons, c.length_words]
      rfl
  have hmessage : (g.messageToSign sixFormat).length =
      natSize (g.auth.toList.length + g.cash.toList.length) +
        g.auth.elim 0 (Auth.LocalDelta.size sixFormat) +
        g.cash.elim 0 (Cash.LocalDelta.size sixFormat) := by
    rw [messageToSign, length_unwords_cons, length_unwords_append, hauth, hcash, natSize]
    omega
  rw [toStream, size]
  simp only [List.length_append, List.length_cons, List.length_nil, hmessage]
  omega

/-! ## Numbers of entries

A hash has 28 characters at most, a number of 64 bits 20, and a policy 13 when it is a number
of the type `double`. So a text is short when it lists few entries. -/

/-- A number of 64 bits with sign has twenty characters at most. -/
theorem length_intText_le {v : ℤ} (hv : -2 ^ 63 ≤ v ∧ v < 2 ^ 63) : (intText v).length ≤ 20 := by
  cases v with
  | ofNat n =>
    have hn : (n : ℤ) < 10 ^ 20 := lt_trans hv.2 (by norm_num)
    have hn' : n < 10 ^ 20 := by omega
    exact (Nat.length_toDigits_le_iff (by norm_num) (by norm_num)).mpr hn'
  | negSucc n =>
    have hn : n + 1 < 10 ^ 19 := by omega
    have := (Nat.length_toDigits_le_iff (b := 10) (by norm_num) (by norm_num)).mpr hn
    rw [intText, List.length_cons]
    exact Nat.succ_le_succ this

/-- The texts of the policies have the width of a `double`. -/
def Policies.Narrow (fmt : Format) {n : ℕ} (p : Policies n) : Prop :=
  ∀ i, (fmt.double (p i)).length ≤ 13

/-- The numbers of a pool are of the types of the code. -/
structure NarrowPool (fmt : Format) (g : Cash.LocalDelta) : Prop where
  policies : Policies.Narrow fmt g.policies
  boxes : ∀ e ∈ Table.toList g.accounts, -2 ^ 63 ≤ e.2.box ∧ e.2.box < 2 ^ 63
  fees : -2 ^ 63 ≤ g.fees ∧ g.fees < 2 ^ 63

/-- The numbers of a block are of the types of the code. -/
structure Diff.Narrow (fmt : Format) (d : Diff) : Prop where
  auth : ∀ a ∈ d.auth, Policies.Narrow fmt a.policies
  cash : ∀ c ∈ d.cash, NarrowPool fmt c.g ∧ Policies.Narrow fmt c.policies
  works : ∀ e ∈ Table.toList d.proofOfWork, e.2 < 2 ^ 64

/-- The numbers of a contribution are of the types of the code. -/
structure LocalDeltas.Narrow (g : LocalDeltas PubKey) : Prop where
  auth : ∀ a ∈ g.auth, Policies.Narrow sixFormat a.policies
  cash : ∀ c ∈ g.cash, NarrowPool sixFormat c

/-- The policies are finitely many. -/
instance (fmt : Format) {n : ℕ} (p : Policies n) : Decidable (Policies.Narrow fmt p) :=
  inferInstanceAs (Decidable (∀ i, (fmt.double (p i)).length ≤ 13))

/-- The boxes of a pool are finitely many. -/
instance (fmt : Format) (g : Cash.LocalDelta) : Decidable (NarrowPool fmt g) :=
  decidable_of_iff (_ ∧ _ ∧ _)
    ⟨fun h => ⟨h.1, h.2.1, h.2.2⟩, fun h => ⟨h.policies, h.boxes, h.fees⟩⟩

/-- The sections of a diff are checked one by one. -/
instance (fmt : Format) (d : Diff) : Decidable (d.Narrow fmt) :=
  decidable_of_iff (_ ∧ _ ∧ _) ⟨fun h => ⟨h.1, h.2.1, h.2.2⟩, fun h => ⟨h.auth, h.cash, h.works⟩⟩

/-- The parts of a contribution are checked one by one. -/
instance (g : LocalDeltas PubKey) : Decidable g.Narrow :=
  decidable_of_iff (_ ∧ _) ⟨fun h => ⟨h.1, h.2⟩, fun h => ⟨h.auth, h.cash⟩⟩

/-- The widest that so many entries can be, with these candidates. -/
def entriesSize (candidates : List (Ripemd160 × Auth.Address)) (accounts contributors : ℕ) : ℕ :=
  30 * candidates.length + (candidates.map fun e => e.2.val.length).sum + 79 * accounts +
    50 * contributors

/-- The narrowest that so many entries can be, with these candidates. -/
def narrowestSize (candidates : List (Ripemd160 × Auth.Address)) (accounts contributors : ℕ) : ℕ :=
  22 * candidates.length + (candidates.map fun e => e.2.val.length).sum + 44 * accounts +
    23 * contributors

/-- The candidates that a block lists. -/
def Diff.candidates (d : Diff) : List (Ripemd160 × Auth.Address) :=
  d.auth.elim [] fun a => Table.toList a.toHall

/-- The number of the accounts that it lists. -/
def Diff.accountCount (d : Diff) : ℕ := d.cash.elim 0 fun c => (Table.keyList c.g.accounts).length

/-- The number of the contributors that it lists. -/
def Diff.contributorCount (d : Diff) : ℕ := (Table.keyList d.proofOfWork).length

/-- The candidates that a contribution lists. -/
def LocalDeltas.candidates (g : LocalDeltas PubKey) : List (Ripemd160 × Auth.Address) :=
  g.auth.elim [] fun a => a.toHall

/-- The number of the accounts that it lists. -/
def LocalDeltas.accountCount (g : LocalDeltas PubKey) : ℕ :=
  g.cash.elim 0 fun c => (Table.keyList c.accounts).length

/-- A number below a hundred thousand, with its blank. -/
theorem natSize_le {n : ℕ} (hn : n < 10 ^ 5) : natSize n ≤ 6 :=
  Nat.succ_le_succ ((Nat.length_toDigits_le_iff (by norm_num) (by norm_num)).mpr hn)

/-- Policies of the width of a `double`. -/
theorem Policies.Narrow.size_le {n : ℕ} {p : Policies n} (h : Policies.Narrow fmt p) :
    policiesSize fmt p ≤ 14 * n := by
  have hsum : policiesSize fmt p ≤ ∑ _i : Fin n, 14 :=
    Finset.sum_le_sum fun i _ => Nat.succ_le_succ (h i)
  simpa [mul_comm] using hsum

/-- The candidates have few characters more than the addresses. -/
theorem sum_candidateSize_le (es : List (Ripemd160 × Auth.Address)) :
    (es.map Auth.candidateSize).sum ≤ 30 * es.length + (es.map fun e => e.2.val.length).sum := by
  induction es with
  | nil => simp
  | cons e es ih =>
    have hhash := e.1.length_toB58_le
    simp only [List.map_cons, List.sum_cons, List.length_cons, Auth.candidateSize]
    omega

/-- A section of the auth app with these candidates. -/
theorem authSize_le {es : List (Ripemd160 × Auth.Address)} {p : Policies 2}
    (hp : Policies.Narrow fmt p) (hcount : es.length < 10 ^ 5) :
    natSize Auth.appId + natSize es.length + (es.map Auth.candidateSize).sum + policiesSize fmt p ≤
      37 + (30 * es.length + (es.map fun e => e.2.val.length).sum) := by
  have hid : natSize Auth.appId = 3 := by decide
  have hnumber := natSize_le hcount
  have hentries := sum_candidateSize_le es
  have hpolicies := hp.size_le
  omega

/-- There are two sections at most. -/
theorem natSize_sections {α β : Type} (a : Option α) (b : Option β) :
    natSize (a.toList.length + b.toList.length) ≤ 2 := by
  cases a <;> cases b
  · exact (by decide : natSize 0 ≤ 2)
  · exact (by decide : natSize 1 ≤ 2)
  · exact (by decide : natSize 1 ≤ 2)
  · exact (by decide : natSize 2 ≤ 2)

/-- The sum of numbers with a bound. -/
theorem sum_le_mul {α : Type} {f : α → ℕ} {xs : List α} {k : ℕ} (h : ∀ x ∈ xs, f x ≤ k) :
    (xs.map f).sum ≤ k * xs.length := by
  rw [mul_comm, ← smul_eq_mul, ← List.length_map f]
  refine List.sum_le_card_nsmul _ k fun n hn => ?_
  obtain ⟨x, hx, rfl⟩ := List.mem_map.mp hn
  exact h x hx

/-- A pool with few accounts is short. -/
theorem NarrowPool.size_le {g : Cash.LocalDelta} (h : NarrowPool fmt g)
    (hcount : (Table.keyList g.accounts).length < 10 ^ 5) :
    g.poolSize fmt ≤ 41 + 79 * (Table.keyList g.accounts).length := by
  have haccounts : ((Table.toList g.accounts).map Cash.accountSize).sum ≤
      79 * (Table.toList g.accounts).length := by
    refine sum_le_mul fun e he => ?_
    have hhash := e.1.length_toB58_le
    have hprogram := e.2.lockingProgram.length_toB58_le
    have hbox := length_intText_le (h.boxes e he)
    rw [Cash.accountSize]
    omega
  rw [length_toList] at haccounts
  have hnumber := natSize_le hcount
  have hfees := length_intText_le h.fees
  have hpolicies := h.policies.size_le
  rw [Cash.LocalDelta.poolSize]
  omega

/-- The entries of a block are so few that their numbers have five digits. -/
structure Diff.Countable (d : Diff) : Prop where
  candidates : d.candidates.length < 10 ^ 5
  accounts : d.accountCount < 10 ^ 5
  contributors : d.contributorCount < 10 ^ 5

/-- **A block with few entries is short.** -/
theorem Diff.Narrow.size_le {d : Diff} (h : d.Narrow fmt) (hcount : d.Countable) :
    d.size fmt ≤ 132 + entriesSize d.candidates d.accountCount d.contributorCount := by
  have hprev := d.prev.length_toB58_le
  have hsections := natSize_sections d.auth d.cash
  have hauth : d.auth.elim 0 (Auth.Delta.size fmt) ≤
      37 + (30 * d.candidates.length + (d.candidates.map fun e => e.2.val.length).sum) := by
    have hcandidates := hcount.candidates
    unfold Diff.candidates at hcandidates ⊢
    cases ha : d.auth with
    | none => exact Nat.zero_le _
    | some a =>
      rw [ha] at hcandidates
      have hsize := authSize_le (h.auth a ha) hcandidates
      rw [Option.elim_some, Option.elim_some, Auth.Delta.size, ← length_toList]
      exact hsize
  have hcash : d.cash.elim 0 (Cash.Delta.size fmt) ≤ 58 + 79 * d.accountCount := by
    have haccounts := hcount.accounts
    unfold Diff.accountCount at haccounts ⊢
    cases hc : d.cash with
    | none => exact Nat.zero_le _
    | some c =>
      rw [hc] at haccounts
      obtain ⟨hpool, hnarrow⟩ := h.cash c hc
      have hsize := hpool.size_le haccounts
      have hpolicies := hnarrow.size_le
      have hid : natSize Cash.appId = 3 := by decide
      rw [Option.elim_some, Option.elim_some, Cash.Delta.size]
      omega
  have hworks : ((Table.toList d.proofOfWork).map workSize).sum ≤
      50 * (Table.toList d.proofOfWork).length := by
    refine sum_le_mul fun e he => ?_
    have hhash := e.1.length_toB58_le
    have hwork : natSize e.2 ≤ 21 := Nat.succ_le_succ
      ((Nat.length_toDigits_le_iff (by norm_num) (by norm_num)).mpr
        ((h.works e he).trans_le (by norm_num)))
    rw [workSize]
    omega
  have hnumber := natSize_le hcount.contributors
  rw [length_toList] at hworks
  unfold Diff.contributorCount at hnumber ⊢
  rw [Diff.size, entriesSize]
  omega

/-- The entries of a contribution are so few that their numbers have five digits. -/
structure LocalDeltas.Countable (g : LocalDeltas PubKey) : Prop where
  candidates : g.candidates.length < 10 ^ 5
  accounts : g.accountCount < 10 ^ 5

/-- **A contribution with few entries is short**, but for its key and its signature. -/
theorem LocalDeltas.Narrow.size_le {g : LocalDeltas PubKey} (h : g.Narrow)
    (hcount : g.Countable) :
    g.size curve ≤ (curve.toB58 g.pubkey).length + g.signature.length + 86 +
      entriesSize g.candidates g.accountCount 0 := by
  have hsections := natSize_sections g.auth g.cash
  have hauth : g.auth.elim 0 (Auth.LocalDelta.size sixFormat) ≤
      37 + (30 * g.candidates.length + (g.candidates.map fun e => e.2.val.length).sum) := by
    have hcandidates := hcount.candidates
    unfold LocalDeltas.candidates at hcandidates ⊢
    cases ha : g.auth with
    | none => exact Nat.zero_le _
    | some a =>
      rw [ha] at hcandidates
      exact authSize_le (h.auth a ha) hcandidates
  have hcash : g.cash.elim 0 (Cash.LocalDelta.size sixFormat) ≤ 44 + 79 * g.accountCount := by
    have haccounts := hcount.accounts
    unfold LocalDeltas.accountCount at haccounts ⊢
    cases hc : g.cash with
    | none => exact Nat.zero_le _
    | some c =>
      rw [hc] at haccounts
      have hsize := (h.cash c hc).size_le haccounts
      have hid : natSize Cash.appId = 3 := by decide
      rw [Option.elim_some, Option.elim_some, Cash.LocalDelta.size]
      omega
  rw [LocalDeltas.size, entriesSize]
  omega

/-! ## Many entries

A hash has twenty characters at least, and a number one. -/

/-- A number has a character. -/
theorem intText_pos (v : ℤ) : 1 ≤ (intText v).length := by
  cases v with
  | ofNat n => exact List.length_pos_iff.mpr Nat.toDigits_ne_nil
  | negSucc n => exact Nat.succ_le_succ (Nat.zero_le _)

/-- With the blank after it, it has two. -/
theorem two_le_natSize (n : ℕ) : 2 ≤ natSize n :=
  Nat.succ_le_succ (List.length_pos_iff.mpr Nat.toDigits_ne_nil)

/-- The sum of numbers with a lower bound. -/
theorem mul_le_sum {α : Type} {f : α → ℕ} {xs : List α} {k : ℕ} (h : ∀ x ∈ xs, k ≤ f x) :
    k * xs.length ≤ (xs.map f).sum := by
  rw [mul_comm, ← smul_eq_mul, ← List.length_map f]
  refine List.card_nsmul_le_sum _ k fun n hn => ?_
  obtain ⟨x, hx, rfl⟩ := List.mem_map.mp hn
  exact h x hx

/-- The candidates have the characters of the addresses and more. -/
theorem le_sum_candidateSize (es : List (Ripemd160 × Auth.Address)) :
    22 * es.length + (es.map fun e => e.2.val.length).sum ≤ (es.map Auth.candidateSize).sum := by
  induction es with
  | nil => simp
  | cons e es ih =>
    have hhash := e.1.le_length_toB58
    simp only [List.map_cons, List.sum_cons, List.length_cons, Auth.candidateSize]
    omega

/-- A pool with its accounts. -/
theorem le_poolSize (g : Cash.LocalDelta) :
    44 * (Table.keyList g.accounts).length ≤ g.poolSize fmt := by
  have haccounts : 44 * (Table.toList g.accounts).length ≤
      ((Table.toList g.accounts).map Cash.accountSize).sum := by
    refine mul_le_sum fun e _ => ?_
    have hhash := e.1.le_length_toB58
    have hprogram := e.2.lockingProgram.le_length_toB58
    have hbox := intText_pos e.2.box
    rw [Cash.accountSize]
    omega
  rw [length_toList] at haccounts
  rw [Cash.LocalDelta.poolSize]
  omega

/-- **A block with many entries is long.** -/
theorem Diff.le_size (d : Diff) :
    25 + narrowestSize d.candidates d.accountCount d.contributorCount ≤ d.size fmt := by
  have hprev := d.prev.le_length_toB58
  have hsections := two_le_natSize (d.auth.toList.length + d.cash.toList.length)
  have hauth : 22 * d.candidates.length + (d.candidates.map fun e => e.2.val.length).sum ≤
      d.auth.elim 0 (Auth.Delta.size fmt) := by
    unfold Diff.candidates
    cases d.auth with
    | none => exact Nat.zero_le _
    | some a =>
      have hentries := le_sum_candidateSize (Table.toList a.toHall)
      rw [Option.elim_some, Option.elim_some, Auth.Delta.size]
      omega
  have hcash : 44 * d.accountCount ≤ d.cash.elim 0 (Cash.Delta.size fmt) := by
    unfold Diff.accountCount
    cases d.cash with
    | none => exact Nat.zero_le _
    | some c =>
      have hpool : _ ≤ c.g.poolSize fmt := le_poolSize c.g
      rw [Option.elim_some, Option.elim_some, Cash.Delta.size]
      omega
  have hworks : 23 * (Table.toList d.proofOfWork).length ≤
      ((Table.toList d.proofOfWork).map workSize).sum := by
    refine mul_le_sum fun e _ => ?_
    have hhash := e.1.le_length_toB58
    have hwork := two_le_natSize e.2
    rw [workSize]
    omega
  have hnumber := two_le_natSize (Table.keyList d.proofOfWork).length
  rw [length_toList] at hworks
  unfold Diff.contributorCount
  rw [Diff.size, narrowestSize]
  omega

/-- **A contribution with many entries is long.** -/
theorem LocalDeltas.le_size (g : LocalDeltas PubKey) :
    (curve.toB58 g.pubkey).length + g.signature.length + 5 +
      narrowestSize g.candidates g.accountCount 0 ≤ g.size curve := by
  have hsections := two_le_natSize (g.auth.toList.length + g.cash.toList.length)
  have hauth : 22 * g.candidates.length + (g.candidates.map fun e => e.2.val.length).sum ≤
      g.auth.elim 0 (Auth.LocalDelta.size sixFormat) := by
    unfold LocalDeltas.candidates
    cases g.auth with
    | none => exact Nat.zero_le _
    | some a =>
      have hentries := le_sum_candidateSize a.toHall
      rw [Option.elim_some, Option.elim_some, Auth.LocalDelta.size]
      omega
  have hcash : 44 * g.accountCount ≤ g.cash.elim 0 (Cash.LocalDelta.size sixFormat) := by
    unfold LocalDeltas.accountCount
    cases g.cash with
    | none => exact Nat.zero_le _
    | some c =>
      have hpool : _ ≤ c.poolSize sixFormat := le_poolSize c
      rw [Option.elim_some, Option.elim_some, Cash.LocalDelta.size]
      omega
  rw [LocalDeltas.size, narrowestSize]
  omega

end AcCore.Gov.Engine
