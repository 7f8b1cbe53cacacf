import AcCore.Gov.Cash.TxCodec
import AcCore.Gov.Engine.Diff
import AcCore.Lib.Reader

/-!
# Diffs on the wire

What the code reads from a stream as the contribution of a node, or as a block.
The readers do not stop when an extraction fails. Where an assertion fails, more
is reserved than there can be, or the control depends on a variable that is not
initialised, the code has no defined result; `limit` is the number of elements
that can be reserved, and `debug` says whether assertions are compiled.
-/

namespace AcCore.Gov.Engine

open Lib Cash

/-- The table into which the entries of a list are emplaced one after the other. -/
def emplaced {κ α : Type} [DecidableEq κ] (es : List (κ × α)) : Table κ α :=
  es.foldl (fun t e => Table.emplace e.1 e.2 t) ∅

/-- `policies_base::from_stream`. -/
def extractPolicies : (n : ℕ) → Option Text → Policies n × Option Text
  | 0, s => (Fin.elim0, s)
  | n + 1, s =>
    let (v, s) := extractDecimal s
    let (vs, s) := extractPolicies n s
    (Fin.cons v vs, s)

/-- `vector::reserve` with a signed number, which is turned unsigned. -/
def reserve (limit : ℕ) (n : ℤ) : Option Unit :=
  if (n % 2 ^ 64).toNat ≤ limit then some () else none

/-- An extracted word has no blanks. -/
theorem blankFree_extract (s : Option Text) : BlankFree (extract s).1 := by
  unfold extract
  split
  · exact fun _ h => (nomatch h)
  · split
    · exact fun _ h => (nomatch h)
    · next h => exact (isWord_of_readWord h).2

namespace Auth

/-- A key and an address. -/
def extractCandidate (s : Option Text) : (Ripemd160 × Address) × Option Text :=
  let (pkeyh, s) := extractHash s
  ((pkeyh, ⟨(extract s).1, blankFree_extract s⟩), (extract s).2)

/-- `local_delta::from_stream`. -/
def LocalDelta.fromStream (limit : ℕ) (s : Option Text) : Option (LocalDelta × Option Text) := do
  let (n, s) ← extractInt none s
  reserve limit n
  let (toHall, s) := extractMany extractCandidate n.toNat s
  let (policies, s) := extractPolicies 2 s
  return (⟨policies, toHall⟩, s)

/-- `delta::from_stream`. -/
def Delta.fromStream (s : Option Text) : Option (Delta × Option Text) := do
  let (n, s) ← extractInt none s
  let (toHall, s) := extractMany extractCandidate n.toNat s
  let (policies, s) := extractPolicies 2 s
  return (⟨⟨policies, 0⟩, emplaced toHall⟩, s)

end Auth

end AcCore.Gov.Engine

namespace AcCore.Gov.Cash

open Lib Engine

/-- `batch_item::from_stream`, after the key. -/
def extractEntry (s : Option Text) : (Ripemd160 × Account) × Option Text :=
  let (pubk, s) := extractHash s
  let (lockingProgram, s) := extractHash s
  let (box, s) := extractInt64 s
  ((pubk, ⟨lockingProgram, box.toInt⟩), s)

/-- `local_delta::from_stream`. -/
def LocalDelta.fromStream (s : Option Text) : Option (LocalDelta × Option Text) := do
  let (n, s) ← extractInt none s
  let (accounts, s) := extractMany extractEntry n.toNat s
  let (fees, s) := extractInt64 s
  let (policies, s) := extractPolicies 1 s
  return (⟨policies, emplaced accounts, fees.toInt⟩, s)

/-- `delta::from_stream`. -/
def Delta.fromStream (s : Option Text) : Option (Delta × Option Text) := do
  let (g, s) ← LocalDelta.fromStream s
  let (policies, s) := extractPolicies 1 s
  return (⟨⟨policies, 0⟩, g, ∅⟩, s)

/-- `query_accounts_t::from_string`. -/
def queryAccountsFromString (limit : ℕ) (s : Text) : Option (List Ripemd160) := do
  let (n, s) ← extractInt none (some s)
  reserve limit n
  return (extractMany extractHash n.toNat s).1

end AcCore.Gov.Cash

namespace AcCore.Gov.Engine

open Lib Cash

variable {PubKey : Type} (ec : Ec PubKey)

/-- The loop over the apps in `local_deltas::from_stream` and `diff::from_stream`:
the first section of an app counts, and an id that is not that of an app is an
assertion that fails. -/
def readSections {α β : Type} (debug : Bool) (auth : Option Text → Option (α × Option Text))
    (cash : Option Text → Option (β × Option Text)) :
    ℕ → Option α × Option β → Option Text → Option ((Option α × Option β) × Option Text)
  | 0, found, s => some (found, s)
  | n + 1, (a, c), s => do
    let (appid, s) ← extractInt none s
    if appid = Auth.appId then
      let (x, s) ← auth s
      readSections debug auth cash n (a.or (some x), c) s
    else if appid = Cash.appId then
      let (x, s) ← cash s
      readSections debug auth cash n (a, c.or (some x)) s
    else if debug then none
    else readSections debug auth cash n (a, c) s

/-- `is >> pubkey`: a text that is not a key makes the stream fail. -/
def extractPubKey (s : Option Text) : Option PubKey × Option Text :=
  let (w, s) := extract s
  match ec.setB58 w with
  | none => (none, none)
  | some k => (some k, s)

/-- `local_deltas::from_stream`: `some none` when it returns 0. -/
def LocalDeltas.fromStream (debug : Bool) (limit : ℕ) (s : Option Text) :
    Option (Option (LocalDeltas (Option PubKey))) :=
  let (pubkey, s) := extractPubKey ec s
  let (signature, s) := extract s
  if signature = [] then some none
  else do
    let (n, s) ← extractInt none s
    if n < 0 then return none
    let ((auth, cash), _) ← readSections debug (Auth.LocalDelta.fromStream limit)
      Cash.LocalDelta.fromStream n.toNat (none, none) s
    return some ⟨pubkey, signature, auth, cash⟩

/-- A contributor and its work. -/
def extractWork (s : Option Text) : (Ripemd160 × ℕ) × Option Text :=
  let (pubkeyh, s) := extractHash s
  let (work, s) := extractUInt64 s
  ((pubkeyh, work.toNat), s)

/-- `diff::from_stream`: `some none` when it returns 0. The second count is read
into the variable of the first. -/
def Diff.fromStream (debug : Bool) (s : Option Text) : Option (Option Diff) := do
  let (prev, s) := extractHash s
  let (n, s) ← extractInt none s
  if n < 0 then return none
  let ((auth, cash), s) ← readSections debug Auth.Delta.fromStream Cash.Delta.fromStream n.toNat
    (none, none) s
  let (n, s) ← extractInt (some n) s
  if n < 0 then return none
  let (works, _) := extractMany extractWork n.toNat s
  return some ⟨prev, auth, cash, emplaced works⟩

end AcCore.Gov.Engine
