import AcCore.Gov.Curve
import AcCore.Gov.Engine.Daemon
import AcCore.Gov.Engine.RoundTrip

/-!
# Contributions on the wire

A node signs the text of its contribution and sends it with its key and the
signature. Who receives it makes the text again from what it has read, checks
the signature against that, and sends it on. This file determines when this is
the text that was signed.
-/

namespace AcCore.Gov.Engine

open Lib

variable {PrivKey PubKey : Type} (curve : Curve PrivKey PubKey) (ripemd : List UInt8 → Ripemd160)

/-- `signed_data::sign`. -/
def LocalDeltas.sign (k : PrivKey) (g : LocalDeltas PubKey) : LocalDeltas PubKey :=
  { g with
    pubkey := curve.pubkeyCreate k
    signature := curve.signEncode k (Sha256.ofText (g.messageToSign sixFormat)) }

/-- `local_deltas::to_stream`. -/
def LocalDeltas.toStream (g : LocalDeltas PubKey) : Text :=
  curve.toB58 g.pubkey ++ ' ' :: (g.signature ++ ' ' :: (g.messageToSign sixFormat ++ [' ']))

/-- A node with the keys `k`. -/
def nodeWith (programs : Cash.LockingPrograms) (k : PrivKey) : Setting PubKey where
  ec := curve.ec ripemd
  ripemd := ripemd
  fmt := sixFormat
  programs := programs
  pub := curve.pubkeyCreate k
  signEncode text := curve.signEncode k (Sha256.ofText text)

/-- The contribution of a node is the pools of both apps, signed. -/
theorem createLocalDeltas_eq_sign (programs : Cash.LockingPrograms) (k : PrivKey) (s : Daemon) :
    (s.createLocalDeltas (nodeWith curve ripemd programs k)).1 =
      LocalDeltas.sign curve k ⟨curve.pubkeyCreate k, [], some s.auth.createLocalDelta.1,
        some s.cash.createLocalDelta.1⟩ := rfl

/-! ## Receiving -/

variable (debug : Bool) (limit : ℕ)

/-- What a node reads of a text: `none` when it is not a contribution with a
valid key, or reading it has no defined result. -/
def LocalDeltas.receive (s : Text) : Option (LocalDeltas PubKey) :=
  (fromStream (curve.ec ripemd) debug limit (some s)).bind fun r =>
    r.bind fun g => g.pubkey.map fun k => ⟨k, g.signature, g.auth, g.cash⟩

/-- The contribution after it has been sent and received so many times. -/
def LocalDeltas.relayed (g : LocalDeltas PubKey) : ℕ → Option (LocalDeltas PubKey)
  | 0 => some g
  | n + 1 => (g.relayed n).bind fun g => receive curve ripemd debug limit (g.toStream curve)

/-- However often the contribution is relayed, it has the text that was signed,
and is verified. -/
def LocalDeltas.SurvivesWire (g : LocalDeltas PubKey) : Prop :=
  ∀ n, ∃ g', g.relayed curve ripemd debug limit n = some g' ∧
    g'.messageToSign sixFormat = g.messageToSign sixFormat ∧
      g'.verify (curve.ec ripemd) sixFormat = true

/-- The contribution is read back as it was. -/
def LocalDeltas.ReadsBack (g : LocalDeltas PubKey) : Prop :=
  receive curve ripemd debug limit (g.toStream curve) = some g

/-- A contribution whose counts fit in an `int`. -/
structure LocalDeltas.FitsInt (g : LocalDeltas PubKey) : Prop where
  auth : ∀ a ∈ g.auth, a.toHall.length < 2 ^ 31
  cash : ∀ c ∈ g.cash, (Table.keyList c.accounts).length < 2 ^ 31

/-- The policies have six digits: they are printed as they are. -/
structure LocalDeltas.SixDigits (g : LocalDeltas PubKey) : Prop where
  auth : ∀ a ∈ g.auth, Policies.rounded a.policies = a.policies
  cash : ∀ c ∈ g.cash, Policies.rounded c.policies = c.policies

/-! ## The sections -/

variable {curve ripemd debug limit}

namespace Auth

/-- The contribution that is read back: the policies are rounded. -/
def LocalDelta.reread (g : LocalDelta) : LocalDelta := ⟨Policies.rounded g.policies, g.toHall⟩

/-- What is read back of the auth part prints the same text. -/
theorem LocalDelta.words_reread (g : LocalDelta) :
    g.reread.words sixFormat = g.words sixFormat := by
  simp only [LocalDelta.words, LocalDelta.reread, policiesWords_rounded]

/-- The words of the auth part have no blanks. -/
theorem LocalDelta.blankFree_words (fmt : Format) (g : LocalDelta) :
    ∀ w ∈ g.words fmt, BlankFree w := by
  intro w hw
  simp only [words, List.cons_append, List.mem_cons, List.mem_append, List.mem_flatMap,
    List.not_mem_nil, or_false] at hw
  rcases hw with rfl | ⟨e, -, rfl | rfl⟩ | hw
  · exact blankFree_natText _
  · exact Ripemd160.blankFree_toB58 _
  · exact e.2.2
  · exact blankFree_policiesWords fmt _ w hw

/-- A contribution of the auth app is read back as it was written, but for
rounding. -/
theorem LocalDelta.fromStream_words {g : LocalDelta} (hpolicies : Policies.Finite g.policies)
    (haddresses : ∀ e ∈ g.toHall, e.2.val ≠ []) (hfits : g.toHall.length < 2 ^ 31)
    (hlimit : g.toHall.length ≤ limit) {ws : List Text} {s : Option Text}
    (hs : Gives (g.words sixFormat ++ ws) s) :
    ∃ s', LocalDelta.fromStream limit s = some (g.reread, s') ∧ Gives ws s' := by
  rw [LocalDelta.words, List.cons_append, List.cons_append, List.append_assoc] at hs
  obtain ⟨s₁, hcount, hs₁⟩ := hs.extractInt hfits none
  have heach : ∀ e ∈ g.toHall, Reads extractCandidate [e.1.toB58, e.2.val] (id e) := fun e he =>
    reads_extractCandidate e.1 (haddresses e he)
  obtain ⟨s₂, hhall, hs₂⟩ := reads_extractMany heach _ s₁ hs₁
  obtain ⟨s₃, hrest, hs₃⟩ := reads_extractPolicies hpolicies ws s₂ hs₂
  rw [List.map_id] at hhall
  have hreserve : reserve limit (g.toHall.length : ℤ) = some () := by
    rw [reserve, if_pos (by omega)]
  refine ⟨s₃, ?_, hs₃⟩
  simp only [LocalDelta.fromStream, hcount, hreserve, Option.bind_eq_bind, Option.bind_some,
    Int.toNat_natCast, hhall, hrest, Option.pure_def, LocalDelta.reread]

/-- With too many candidates, as many are read as an `int` can count. -/
theorem LocalDelta.fromStream_overflow {g : LocalDelta} (hmany : 2 ^ 31 ≤ g.toHall.length)
    (hlimit : 2 ^ 31 ≤ limit) {ws : List Text} {s : Option Text}
    (hs : Gives (g.words sixFormat ++ ws) s) :
    ∃ g', LocalDelta.fromStream limit s = some (g', none) ∧ g'.toHall.length = 2 ^ 31 - 1 := by
  rw [LocalDelta.words, List.cons_append, List.cons_append] at hs
  have hcount := hs.extractInt_max hmany none
  have hpolicies : extractPolicies 2 none = (fun _ => 0, none) := fails_extractPolicies 2
  have hreserve : reserve limit (2 ^ 31 - 1) = some () := by
    rw [reserve, if_pos (by omega)]
  refine ⟨⟨fun _ => 0, List.replicate ((2 ^ 31 - 1 : ℤ).toNat)
    (Ripemd160.zero, ⟨[], blankFree_nil⟩)⟩, ?_, by rw [List.length_replicate]; rfl⟩
  simp only [LocalDelta.fromStream, hcount, hreserve, Option.bind_eq_bind, Option.bind_some,
    fails_extractCandidate.extractMany, hpolicies, Option.pure_def]

end Auth

/-- What is read back of the cash part prints the same text. -/
theorem Cash.LocalDelta.words_reread (g : Cash.LocalDelta) :
    g.reread.words sixFormat = g.words sixFormat := by
  simp only [Cash.LocalDelta.words, Cash.LocalDelta.reread, policiesWords_rounded]

/-- The part of a contribution about the auth app. -/
def LocalDeltas.authWords (g : LocalDeltas PubKey) : List Text :=
  g.auth.elim [] fun a => natText Auth.appId :: a.words sixFormat

/-- The part of a contribution about the cash app. -/
def LocalDeltas.cashWords (g : LocalDeltas PubKey) : List Text :=
  g.cash.elim [] fun c => natText Cash.appId :: c.words sixFormat

/-- The words of the text that is signed. -/
def LocalDeltas.messageWords (g : LocalDeltas PubKey) : List Text :=
  natText (g.auth.toList.length + g.cash.toList.length) :: (g.authWords ++ g.cashWords)

/-- The signed message is the message words joined. -/
theorem LocalDeltas.messageToSign_eq (g : LocalDeltas PubKey) :
    g.messageToSign sixFormat = unwords g.messageWords := rfl

/-- The words of the signed message have no blanks. -/
theorem LocalDeltas.blankFree_messageWords (g : LocalDeltas PubKey) :
    ∀ w ∈ g.messageWords, BlankFree w := by
  intro w hw
  simp only [messageWords, List.mem_cons, List.mem_append] at hw
  rcases hw with rfl | hw | hw
  · exact blankFree_natText _
  · cases hauth : g.auth with
    | none => simp [authWords, hauth] at hw
    | some a =>
      rw [authWords, hauth] at hw
      rcases List.mem_cons.mp hw with rfl | hw
      · exact blankFree_natText _
      · exact a.blankFree_words sixFormat w hw
  · cases hcash : g.cash with
    | none => simp [cashWords, hcash] at hw
    | some c =>
      rw [cashWords, hcash] at hw
      rcases List.mem_cons.mp hw with rfl | hw
      · exact blankFree_natText _
      · exact c.blankFree_words sixFormat w hw

/-- Two contributions with the same text have the same words. -/
theorem LocalDeltas.messageWords_of_messageToSign {g g' : LocalDeltas PubKey}
    (h : g.messageToSign sixFormat = g'.messageToSign sixFormat) :
    g.messageWords = g'.messageWords :=
  unwords_injective g.blankFree_messageWords g'.blankFree_messageWords h

/-- The text of a contribution, word by word, with an empty word for the blank
at its end. -/
theorem LocalDeltas.toStream_eq (g : LocalDeltas PubKey) :
    g.toStream curve =
      unwords (curve.toB58 g.pubkey :: g.signature :: (g.messageWords ++ [[]])) := by
  rw [toStream, messageToSign_eq]
  simp

/-- What is received is what is read of the sections. -/
theorem LocalDeltas.receive_words (hcurve : curve.Lawful) (ripemd : List UInt8 → Ripemd160)
    (debug : Bool) (limit : ℕ) {g : LocalDeltas PubKey} (hsignature : IsWord g.signature) :
    ∃ s, Gives (g.authWords ++ (g.cashWords ++ [[]])) s ∧
      receive curve ripemd debug limit (g.toStream curve) =
        (readSections debug (Auth.LocalDelta.fromStream limit) Cash.LocalDelta.fromStream
          (g.auth.toList.length + g.cash.toList.length) (none, none) s).map fun r =>
            { g with auth := r.1.1, cash := r.1.2 } := by
  have hwords : g.messageWords ++ [[]] =
      natText (g.auth.toList.length + g.cash.toList.length) ::
        (g.authWords ++ (g.cashWords ++ [[]])) := by
    rw [messageWords, List.cons_append, List.append_assoc]
  have hs := gives_unwords (curve.toB58 g.pubkey :: g.signature :: (g.messageWords ++ [[]]))
  rw [← toStream_eq, hwords] at hs
  obtain ⟨s₁, hkey, hs₁⟩ := reads_extract (hcurve.isWord_toB58 g.pubkey) _ _ hs
  obtain ⟨s₂, hword, hs₂⟩ := reads_extract hsignature _ s₁ hs₁
  have hsmall : g.auth.toList.length + g.cash.toList.length < 2 ^ 31 := by
    have hauth : g.auth.toList.length ≤ 1 := by cases g.auth <;> simp
    have hcash : g.cash.toList.length ≤ 1 := by cases g.cash <;> simp
    omega
  obtain ⟨s₃, hcount, hs₃⟩ := hs₂.extractInt hsmall none
  refine ⟨s₃, hs₃, ?_⟩
  have hset : (curve.ec ripemd).setB58 (curve.toB58 g.pubkey) = some g.pubkey :=
    hcurve.setB58_toB58 g.pubkey
  have hnonneg : ¬ ((g.auth.toList.length + g.cash.toList.length : ℕ) : ℤ) < 0 := by omega
  rw [receive, fromStream]
  simp only [extractPubKey, hkey, hset, hword, if_neg hsignature.1, hcount, if_neg hnonneg,
    Option.bind_eq_bind, Option.bind_some, Int.toNat_natCast]
  cases readSections debug (Auth.LocalDelta.fromStream limit) Cash.LocalDelta.fromStream
    (g.auth.toList.length + g.cash.toList.length) (none, none) s₃ <;> rfl

/-! ## Counts that fit -/

/-- The section of the auth app, when there is one, is read back. -/
theorem LocalDeltas.readSections_authWords (debug : Bool) (hlimit : 2 ^ 31 ≤ limit)
    {g : LocalDeltas PubKey} (hg : g.Readable) (hfits : ∀ a ∈ g.auth, a.toHall.length < 2 ^ 31)
    {ws : List Text} {s : Option Text} (hs : Gives (g.authWords ++ ws) s) (n : ℕ) :
    ∃ s', Gives ws s' ∧
      readSections debug (Auth.LocalDelta.fromStream limit) Cash.LocalDelta.fromStream
          (g.auth.toList.length + n) (none, none) s =
        readSections debug (Auth.LocalDelta.fromStream limit) Cash.LocalDelta.fromStream n
          (g.auth.map Auth.LocalDelta.reread, none) s' := by
  cases hauth : g.auth with
  | none =>
    rw [authWords, hauth] at hs
    exact ⟨s, hs, by rw [Option.toList_none, List.length_nil, Nat.zero_add, Option.map_none]⟩
  | some a =>
    rw [authWords, hauth] at hs
    obtain ⟨s₁, hs₁, hstep⟩ := readSections_auth (Auth.LocalDelta.fromStream limit)
      Cash.LocalDelta.fromStream debug n none none hs
    have hcount := hfits a hauth
    obtain ⟨s₂, hread, hs₂⟩ := Auth.LocalDelta.fromStream_words (hg.policies a hauth)
      (hg.addresses a hauth) hcount (by omega : _ ≤ limit) hs₁
    refine ⟨s₂, hs₂, ?_⟩
    rw [Option.toList_some, List.length_singleton, Nat.add_comm, hstep, hread]
    rfl

/-- The contribution that is read back. -/
def LocalDeltas.reread (g : LocalDeltas PubKey) : LocalDeltas PubKey :=
  { g with auth := g.auth.map Auth.LocalDelta.reread, cash := g.cash.map Cash.LocalDelta.reread }

/-- A contribution whose counts fit is received as it was sent, but for rounding. -/
theorem LocalDeltas.receive_toStream (hcurve : curve.Lawful) (ripemd : List UInt8 → Ripemd160)
    (debug : Bool) (hlimit : 2 ^ 31 ≤ limit) {g : LocalDeltas PubKey} (hg : g.Readable)
    (hsignature : IsWord g.signature) (hfits : g.FitsInt) :
    receive curve ripemd debug limit (g.toStream curve) = some g.reread := by
  obtain ⟨s, hs, hreceive⟩ := receive_words hcurve ripemd debug limit hsignature
  obtain ⟨s₁, hs₁, hauth⟩ := readSections_authWords debug hlimit hg hfits.auth hs
    g.cash.toList.length
  rw [hreceive, hauth]
  cases hcash : g.cash with
  | none =>
    rw [reread, hcash]
    rfl
  | some c =>
    rw [cashWords, hcash] at hs₁
    obtain ⟨s₂, hs₂, hstep⟩ := readSections_cash (Auth.LocalDelta.fromStream limit)
      Cash.LocalDelta.fromStream debug 0 (g.auth.map Auth.LocalDelta.reread) none hs₁
    obtain ⟨s₃, hread, -⟩ :=
      Cash.LocalDelta.fromStream_words (hg.cash c hcash) (hfits.cash c hcash) hs₂
    rw [Option.toList_some, List.length_singleton, hstep, hread, reread, hcash]
    rfl

/-- It is read back as it was when its policies have six digits. -/
theorem LocalDeltas.readsBack_iff (hcurve : curve.Lawful) (ripemd : List UInt8 → Ripemd160)
    (debug : Bool) (hlimit : 2 ^ 31 ≤ limit) {g : LocalDeltas PubKey} (hg : g.Readable)
    (hsignature : IsWord g.signature) (hfits : g.FitsInt) :
    g.ReadsBack curve ripemd debug limit ↔ g.SixDigits := by
  have hsix : g.SixDigits ↔ (∀ a ∈ g.auth, Policies.rounded a.policies = a.policies) ∧
      ∀ c ∈ g.cash, Policies.rounded c.policies = c.policies :=
    ⟨fun h => ⟨h.auth, h.cash⟩, fun h => ⟨h.1, h.2⟩⟩
  rw [hsix, ReadsBack, receive_toStream hcurve ripemd debug hlimit hg hsignature hfits,
    Option.some.injEq]
  obtain ⟨pubkey, signature, auth, cash⟩ := g
  have hauth : auth.map Auth.LocalDelta.reread = auth ↔
      ∀ a ∈ auth, Policies.rounded a.policies = a.policies := by
    cases auth with
    | none => simp
    | some a =>
      obtain ⟨policies, toHall⟩ := a
      simp [Auth.LocalDelta.reread]
  have hcash : cash.map Cash.LocalDelta.reread = cash ↔
      ∀ c ∈ cash, Policies.rounded c.policies = c.policies := by
    cases cash with
    | none => simp
    | some c =>
      obtain ⟨policies, accounts, fees⟩ := c
      simp [Cash.LocalDelta.reread]
  rw [← hauth, ← hcash, reread]
  simp

/-- What is read back has the candidates that were sent. -/
theorem LocalDeltas.authWords_reread (g : LocalDeltas PubKey) :
    g.reread.authWords = g.authWords := by
  cases h : g.auth with
  | none => simp only [authWords, reread, h, Option.map_none]
  | some a => simp only [authWords, reread, h, Option.map_some, Option.elim_some, a.words_reread]

/-- What is read back has the text that was signed. -/
theorem LocalDeltas.messageToSign_reread (g : LocalDeltas PubKey) :
    g.reread.messageToSign sixFormat = g.messageToSign sixFormat := by
  have hcash : g.reread.cashWords = g.cashWords := by
    cases h : g.cash with
    | none => simp only [cashWords, reread, h, Option.map_none]
    | some c =>
      simp only [cashWords, reread, h, Option.map_some, Option.elim_some,
        Cash.LocalDelta.words_reread]
  have hlength : g.reread.auth.toList.length + g.reread.cash.toList.length =
      g.auth.toList.length + g.cash.toList.length := by
    cases hauth : g.auth <;> cases hcash : g.cash <;> simp [reread, hauth, hcash]
  rw [messageToSign_eq, messageToSign_eq, messageWords, messageWords, g.authWords_reread, hcash,
    hlength]

/-- After one relay a contribution is what the first receiver reads. -/
theorem LocalDeltas.relayed_one (g : LocalDeltas PubKey) :
    g.relayed curve ripemd debug limit 1 = receive curve ripemd debug limit (g.toStream curve) := by
  rw [relayed, relayed, Option.bind_some]

/-- So it is sent as the same text, and received as itself from then on. -/
theorem LocalDeltas.relayed_succ (hcurve : curve.Lawful) (ripemd : List UInt8 → Ripemd160)
    (debug : Bool) (hlimit : 2 ^ 31 ≤ limit) {g : LocalDeltas PubKey} (hg : g.Readable)
    (hsignature : IsWord g.signature) (hfits : g.FitsInt) (n : ℕ) :
    g.relayed curve ripemd debug limit (n + 1) = some g.reread := by
  have hreceive := receive_toStream hcurve ripemd debug hlimit hg hsignature hfits
  have hsame : g.reread.toStream curve = g.toStream curve := by
    rw [toStream, toStream, messageToSign_reread]
    rfl
  induction n with
  | zero => rw [Nat.zero_add, relayed_one, hreceive]
  | succ n ih => rw [relayed, ih, Option.bind_some, hsame, hreceive]

/-! ## Counts that do not fit -/

/-- Different natural numbers print differently. -/
theorem natText_injective {m n : ℕ} (h : natText m = natText n) : m = n := by
  have hvalue := congrArg (fun s => Nat.ofDigitChars 10 s 0) h
  simpa only [natText, Nat.ofDigitChars_ten_toDigits] using hvalue

/-- The text tells how many candidates there are. -/
theorem LocalDeltas.length_toHall_of_messageWords {g g' : LocalDeltas PubKey}
    {a a' : Auth.LocalDelta} (ha : g.auth = some a) (ha' : g'.auth = some a')
    (h : g.messageWords = g'.messageWords) : a.toHall.length = a'.toHall.length := by
  simp only [messageWords, authWords, ha, ha', Option.elim_some, Auth.LocalDelta.words,
    List.cons_append, List.cons.injEq] at h
  exact natText_injective h.2.2.1

/-- The text tells how many accounts there are, where the part before them ends. -/
theorem LocalDeltas.length_accounts_of_messageWords {g g' : LocalDeltas PubKey}
    {c c' : Cash.LocalDelta} (hc : g.cash = some c) (hc' : g'.cash = some c')
    (hauth : g.authWords = g'.authWords) (h : g.messageWords = g'.messageWords) :
    (Table.keyList c.accounts).length = (Table.keyList c'.accounts).length := by
  simp only [messageWords, hauth, cashWords, hc, hc', Option.elim_some, Cash.LocalDelta.words,
    List.cons_append, List.cons.injEq, List.append_cancel_left_eq] at h
  exact natText_injective h.2.2.1

/-- A contribution that arrives with the text that was signed has not too many
candidates. -/
theorem LocalDeltas.fits_auth_of_receive (hcurve : curve.Lawful) (hlimit : 2 ^ 31 ≤ limit)
    {g g' : LocalDeltas PubKey} (hsignature : IsWord g.signature)
    (hreceive : receive curve ripemd debug limit (g.toStream curve) = some g')
    (hmessage : g'.messageToSign sixFormat = g.messageToSign sixFormat) :
    ∀ a ∈ g.auth, a.toHall.length < 2 ^ 31 := by
  intro a hauth
  by_contra hmany
  rw [Option.mem_def] at hauth
  obtain ⟨s, hs, hwords⟩ := receive_words hcurve ripemd debug limit hsignature
  rw [authWords, hauth] at hs
  obtain ⟨s₁, hs₁, hstep⟩ := readSections_auth (Auth.LocalDelta.fromStream limit)
    Cash.LocalDelta.fromStream debug g.cash.toList.length none none hs
  obtain ⟨a', hread, hlength⟩ := Auth.LocalDelta.fromStream_overflow (not_lt.mp hmany) hlimit hs₁
  rw [hreceive, hauth, Option.toList_some, List.length_singleton, Nat.add_comm, hstep, hread]
    at hwords
  cases hcash : g.cash with
  | none =>
    rw [hcash] at hwords
    obtain rfl := Option.some.inj hwords
    have hcount : a'.toHall.length = a.toHall.length :=
      length_toHall_of_messageWords rfl hauth (messageWords_of_messageToSign hmessage)
    omega
  | some c =>
    -- The id of the second section is read into a variable that is not initialised.
    rw [hcash] at hwords
    cases hwords

/-- Nor has it too many accounts. -/
theorem LocalDeltas.fits_cash_of_receive (hcurve : curve.Lawful) (hlimit : 2 ^ 31 ≤ limit)
    {g g' : LocalDeltas PubKey} (hg : g.Readable) (hsignature : IsWord g.signature)
    (hreceive : receive curve ripemd debug limit (g.toStream curve) = some g')
    (hmessage : g'.messageToSign sixFormat = g.messageToSign sixFormat) :
    ∀ c ∈ g.cash, (Table.keyList c.accounts).length < 2 ^ 31 := by
  intro c hcash
  by_contra hmany
  rw [Option.mem_def] at hcash
  have hfits := fits_auth_of_receive hcurve hlimit hsignature hreceive hmessage
  obtain ⟨s, hs, hwords⟩ := receive_words hcurve ripemd debug limit hsignature
  obtain ⟨s₁, hs₁, hauth⟩ := readSections_authWords debug hlimit hg hfits hs g.cash.toList.length
  rw [cashWords, hcash] at hs₁
  obtain ⟨s₂, hs₂, hstep⟩ := readSections_cash (Auth.LocalDelta.fromStream limit)
    Cash.LocalDelta.fromStream debug 0 (g.auth.map Auth.LocalDelta.reread) none hs₁
  obtain ⟨c', hread, hzero⟩ := Cash.LocalDelta.fromStream_overflow (not_lt.mp hmany) hs₂
  rw [hreceive, hauth, hcash, Option.toList_some, List.length_singleton, hstep, hread] at hwords
  obtain rfl := Option.some.inj hwords
  have hsame : authWords { g with
      auth := g.auth.map Auth.LocalDelta.reread
      cash := some c' } = g.authWords := g.authWords_reread
  have hcount : (Table.keyList c'.accounts).length = (Table.keyList c.accounts).length :=
    length_accounts_of_messageWords rfl hcash hsame (messageWords_of_messageToSign hmessage)
  have hone : (Table.keyList c'.accounts).length < 2 := length_keyList_lt_two hzero
  omega

/-! ## The wire -/

/-- A signed contribution whose counts fit survives. -/
theorem LocalDeltas.FitsInt.survivesWire (hcurve : curve.Lawful) (hlimit : 2 ^ 31 ≤ limit)
    (k : PrivKey) {g : LocalDeltas PubKey} (hg : g.Readable) (hfits : g.FitsInt) :
    (g.sign curve k).SurvivesWire curve ripemd debug limit := by
  have hverified : (g.sign curve k).verify (curve.ec ripemd) sixFormat = true :=
    hcurve.verify_signEncode k (Sha256.ofText (g.messageToSign sixFormat))
  intro n
  cases n with
  | zero => exact ⟨_, rfl, rfl, hverified⟩
  | succ n =>
    have hreread := (g.sign curve k).messageToSign_reread
    have hrelayed := relayed_succ (g := g.sign curve k) hcurve ripemd debug hlimit
      ⟨hg.policies, hg.addresses, hg.cash⟩ (hcurve.isWord_signEncode k _)
      ⟨hfits.auth, hfits.cash⟩ n
    refine ⟨_, hrelayed, hreread, ?_⟩
    rw [verify, hreread]
    exact hverified

/-- One that survives has counts that fit. -/
theorem LocalDeltas.SurvivesWire.fitsInt (hcurve : curve.Lawful) (hlimit : 2 ^ 31 ≤ limit)
    {g : LocalDeltas PubKey} (hg : g.Readable) (hsignature : IsWord g.signature)
    (h : g.SurvivesWire curve ripemd debug limit) : g.FitsInt := by
  obtain ⟨g', hreceive, hmessage, -⟩ := h 1
  rw [relayed_one] at hreceive
  exact ⟨fits_auth_of_receive hcurve hlimit hsignature hreceive hmessage,
    fits_cash_of_receive hcurve hlimit hg hsignature hreceive hmessage⟩

/-- **Signed contributions.** A contribution that a node has signed arrives with
the text that was signed, and is verified, after any number of relays, exactly
when the numbers of its candidates and accounts fit in an `int`. -/
theorem survivesWire_iff (hcurve : curve.Lawful) (ripemd : List UInt8 → Ripemd160) (debug : Bool)
    (hlimit : 2 ^ 31 ≤ limit) (k : PrivKey) {g : LocalDeltas PubKey} (hg : g.Readable) :
    (g.sign curve k).SurvivesWire curve ripemd debug limit ↔ g.FitsInt := by
  constructor
  · intro h
    have hsigned : (g.sign curve k).Readable := ⟨hg.policies, hg.addresses, hg.cash⟩
    have hfits := h.fitsInt hcurve hlimit hsigned (hcurve.isWord_signEncode k _)
    exact ⟨hfits.auth, hfits.cash⟩
  · exact fun hfits => hfits.survivesWire hcurve hlimit k hg

/-- A contribution of so many candidates, which are all alike, and a pool with
one account. -/
def candidates (n : ℕ) : LocalDeltas Bool where
  pubkey := true
  signature := []
  auth := some
    ⟨fun _ => 1 / 3, List.replicate n (Ripemd160.set 9, ⟨['a'], blankFree_letter⟩)⟩
  cash := some ⟨fun _ => 1, Finmap.singleton (Ripemd160.set 1) ⟨Ripemd160.set 1, -90⟩, 7⟩

/-- The contribution with many candidates is readable. -/
theorem readable_candidates (n : ℕ) : (candidates n).Readable := by
  have hthird : |(1 / 3 : ℚ)| ≤ doubleMax := by decide +kernel
  have hone : |(1 : ℚ)| ≤ doubleMax := by decide +kernel
  refine ⟨?_, ?_, ?_⟩
  · rintro a ⟨⟩ i
    exact hthird
  · rintro a ⟨⟩ e he
    rw [List.eq_of_mem_replicate he]
    decide
  · rintro c ⟨⟩
    refine ⟨fun i => hone, fun x acc hx => ?_, by norm_num⟩
    have hx' : x = Ripemd160.set 1 :=
      (Finmap.mem_singleton x (Ripemd160.set 1) _).mp (Finmap.mem_of_lookup_eq_some hx)
    subst hx'
    cases hx
    norm_num

/-- Two candidates and an account survive. -/
theorem survivesWire_iff_candidates :
    ((candidates 2).sign Curve.ofTwoKeys true).SurvivesWire Curve.ofTwoKeys
      (fun _ => Ripemd160.zero) true (2 ^ 31) := by
  refine (survivesWire_iff Curve.lawful_ofTwoKeys _ true le_rfl true (readable_candidates 2)).mpr
    ⟨?_, ?_⟩
  · rintro a ⟨⟩
    simp
  · rintro c ⟨⟩
    decide +kernel

/-- A contribution of 2 ^ 31 candidates does not. -/
theorem candidates_not_survivesWire :
    (candidates (2 ^ 31)).Readable ∧
      ¬ ((candidates (2 ^ 31)).sign Curve.ofTwoKeys true).SurvivesWire Curve.ofTwoKeys
        (fun _ => Ripemd160.zero) true (2 ^ 31) := by
  have hreadable := readable_candidates (2 ^ 31)
  refine ⟨hreadable, fun h => ?_⟩
  have hsigned : ((candidates (2 ^ 31)).sign Curve.ofTwoKeys true).Readable :=
    ⟨hreadable.policies, hreadable.addresses, hreadable.cash⟩
  have hfits := h.fitsInt Curve.lawful_ofTwoKeys le_rfl hsigned
    (Curve.lawful_ofTwoKeys.isWord_signEncode true _)
  have hcount := hfits.auth _ rfl
  rw [List.length_replicate] at hcount
  exact absurd hcount (lt_irrefl _)

end AcCore.Gov.Engine
