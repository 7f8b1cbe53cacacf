import AcCore.Gov.Cash.Delta
import AcCore.Gov.Engine.AuthDelta

/-!
# Diffs

A node forms a diff from the signed contributions (`local_deltas`) that it
receives: each is first allowed, once for each key, and then added, which
merges what it has for each app. `end_adding` closes the diff. The text of a
diff is what its hash, and so the vote of the node, depends on.
-/

namespace AcCore.Gov.Engine

open Lib

variable {PubKey : Type} (ec : Ec PubKey) (ripemd : List UInt8 → Ripemd160) (fmt : Format)

/-- `local_deltas`: the contribution of one node, at most one for each app. -/
structure LocalDeltas (PubKey : Type) where
  pubkey : PubKey
  signature : Text
  auth : Option Auth.LocalDelta
  cash : Option Cash.LocalDelta

/-- `local_deltas::message_to_sign`. -/
def LocalDeltas.messageToSign (g : LocalDeltas PubKey) : Text :=
  unwords (natText (g.auth.toList.length + g.cash.toList.length) ::
    ((g.auth.elim [] fun a => natText Auth.appId :: a.words fmt) ++
      g.cash.elim [] fun c => natText Cash.appId :: c.words fmt))

/-- `diff`: a delta for each app, and for each key that contributed its work. -/
structure Diff where
  prev : Ripemd160
  auth : Option Auth.Delta
  cash : Option Cash.Delta
  proofOfWork : Table Ripemd160 ℕ

namespace Diff

/-- A new diff. -/
def create : Diff := ⟨Ripemd160.zero, none, none, ∅⟩

/-- `diff::allow`. -/
def allow (d : Diff) (g : LocalDeltas PubKey) : Diff × Bool :=
  match d.proofOfWork.lookup (ec.hash g.pubkey) with
  | some _ => (d, false)
  | none => ({ d with proofOfWork := d.proofOfWork.insert (ec.hash g.pubkey) 0 }, true)

/-- `diff::add(int, local_delta*)` for the auth app. -/
def addAuth (d : Option Auth.Delta) (g : Auth.LocalDelta) : Option Auth.Delta :=
  some ((d.getD Auth.Delta.create).merge g)

/-- `diff::add(int, local_delta*)` for the cash app. -/
def addCash (d : Option Cash.Delta) (g : Cash.LocalDelta) : Option Cash.Delta :=
  some ((d.getD Cash.Delta.create).merge ripemd g)

/-- What `diff::add(local_deltas*)` writes: the deltas of the apps, and the
work of the contributor, which is the sum of what `merge` returns, 0. -/
def merge (d : Diff) (g : LocalDeltas PubKey) : Diff :=
  { d with
    auth := g.auth.elim d.auth (addAuth d.auth)
    cash := g.cash.elim d.cash (addCash ripemd d.cash)
    proofOfWork := d.proofOfWork.insert (ec.hash g.pubkey) 0 }

/-- `diff::add(local_deltas*)`. The entry of the key is written without a check
that there is one: for a contribution that was not allowed the code has no
defined result. -/
def add (d : Diff) (g : LocalDeltas PubKey) : Option Diff :=
  (d.proofOfWork.lookup (ec.hash g.pubkey)).map fun _ => d.merge ec ripemd g

/-- `diff::end_adding`, when the table of the majority merger lists its entries
as given. -/
def endAdding (d : Diff) (entries : Cash.Delta.Listing) : Diff :=
  { d with
    auth := d.auth.map Auth.Delta.endMerge
    cash := d.cash.map fun c => c.endMerge entries }

/-- An order in which the hash table of the cash delta may list its entries. -/
def Lists (d : Diff) (entries : Cash.Delta.Listing) : Prop :=
  (entries : Multiset _) = (d.cash.getD Cash.Delta.create).m.entries

/-- Listings are compared with the merged table. -/
instance (d : Diff) (entries : Cash.Delta.Listing) : Decidable (d.Lists entries) :=
  inferInstanceAs (Decidable (_ = _))

/-- What `allow` does to a diff: it enters the key among the contributors. -/
theorem allow_fst (d : Diff) (g : LocalDeltas PubKey) :
    (d.allow ec g).1 =
      { d with proofOfWork := Table.emplace (ec.hash g.pubkey) 0 d.proofOfWork } := by
  unfold allow Table.emplace
  cases d.proofOfWork.lookup (ec.hash g.pubkey) <;> rfl

/-! ## The text of a diff -/

/-- The part of the text about the auth app. -/
def authWords (d : Option Auth.Delta) : List Text :=
  d.elim [] fun d => natText Auth.appId :: d.words fmt

/-- The part of the text about the cash app. -/
def cashWords (d : Option Cash.Delta) : List Text :=
  d.elim [] fun d => natText Cash.appId :: d.words fmt

/-- The part of the text about the contributors. -/
def powWords (pow : Table Ripemd160 ℕ) : List Text :=
  natText (Table.keyList pow).length ::
    (Table.toList pow).flatMap fun e => [e.1.toB58, natText e.2]

/-- The words of the text: the apps come in the order of their ids. -/
def words (d : Diff) : List Text :=
  [d.prev.toB58, natText (d.auth.toList.length + d.cash.toList.length)] ++
    (authWords fmt d.auth ++ (cashWords fmt d.cash ++ powWords d.proofOfWork))

/-- `diff::to_stream`. -/
def toStream (d : Diff) : Text := unwords (d.words fmt)

/-- `diff::hash`, when no hash is cached. -/
def hash (d : Diff) : Ripemd160 :=
  ripemd ((d.toStream fmt).map fun c => UInt8.ofNat c.toNat)

/-- The words of a diff have no blanks. -/
theorem blankFree_words (d : Diff) : ∀ w ∈ d.words fmt, BlankFree w := by
  intro w hw
  simp only [words, List.cons_append, List.nil_append, List.mem_cons, List.mem_append] at hw
  rcases hw with rfl | rfl | hw | hw | hw
  · exact Ripemd160.blankFree_toB58 _
  · exact blankFree_natText _
  · cases hauth : d.auth with
    | none => simp [authWords, hauth] at hw
    | some a =>
      rw [hauth] at hw
      rcases List.mem_cons.mp hw with rfl | hw
      · exact blankFree_natText _
      · exact a.blankFree_words fmt w hw
  · cases hcash : d.cash with
    | none => simp [cashWords, hcash] at hw
    | some c =>
      rw [hcash] at hw
      rcases List.mem_cons.mp hw with rfl | hw
      · exact blankFree_natText _
      · exact c.blankFree_words fmt w hw
  · simp only [powWords, List.mem_cons, List.mem_flatMap, List.not_mem_nil, or_false] at hw
    rcases hw with rfl | ⟨e, -, rfl | rfl⟩
    · exact blankFree_natText _
    · exact Ripemd160.blankFree_toB58 _
    · exact blankFree_natText _

/-- Two diffs have the same text exactly when they have the same words. -/
theorem toStream_eq_iff {d d' : Diff} :
    d.toStream fmt = d'.toStream fmt ↔ d.words fmt = d'.words fmt :=
  ⟨unwords_injective (d.blankFree_words fmt) (d'.blankFree_words fmt),
    fun h => congrArg unwords h⟩

end Diff

end AcCore.Gov.Engine
