import AcCore.Lib.Run
import AcCore.Wallet.Settlement
import AcCore.Wallet.Signing

/-!
# Signing by several wallets

A transaction may take from accounts of several owners. It goes from wallet to wallet
as a text, and each signs what it has the keys of, with sigcodes of its own choice.
What another wallet has signed before is left alone.
-/

namespace AcCore

open Lib Gov Gov.Cash Gov.Engine

variable {PrivKey PubKey : Type} {curve : Curve PrivKey PubKey}
  {ripemd : List UInt8 → Ripemd160}

/-- The transaction with other unlocking data for one input. -/
def withUnlocking (t : Tx) (n : ℕ) (data : Text) : Tx :=
  { t with inputs := t.inputs.modify n fun i => { i with lockingProgramInput := data } }

namespace Wallet

section Sign

variable (programs : LockingPrograms) (w : Wallet curve ripemd)

/-- One pass of the loop of `tx_sign`; an input that cannot be unlocked is left
without data. -/
def signInput (sigcodes : UInt8) (bases : Accounts) (t : Tx) (n : ℕ) :
    Option (Except Text Tx) := do
  let i ← t.inputs[n]?
  match bases.lookup i.address with
  | none => return .error "Error. Address not found.".toList
  | some src =>
    if App.unlock programs i.address n src.lockingProgram i.lockingProgramInput t then
      return .ok t
    else
      let data ← w.generateLockingProgramInput (fun k => P2pkh.createInputAt curve t n sigcodes k)
        i.address src.lockingProgram
      let signed := withUnlocking t n data
      if App.unlock programs i.address n src.lockingProgram data signed then return .ok signed
      else return .ok (withUnlocking t n [])

/-- The loop of `tx_sign`, over the indexes of the inputs. -/
def signInputsAt (sigcodes : UInt8) (bases : Accounts) :
    Tx → List ℕ → Option (Except Text Tx)
  | t, [] => some (.ok t)
  | t, n :: ns =>
    match w.signInput programs sigcodes bases t n with
    | some (.ok t) => signInputsAt sigcodes bases t ns
    | failed => failed

/-- `tx_sign`. -/
def txSign (exchange : Datagram → Except Text Datagram) (txb58 : Text)
    (sigcodei sigcodeo : UInt8) : Option (Except Text Tx) :=
  match Tx.fromB58 txb58 with
  | .error e => some (.error e.toList)
  | .ok t =>
    match askAccounts exchange (t.inputs.map Input.address) with
    | some (.ok bases) =>
      w.signInputsAt programs (combine sigcodei sigcodeo) bases t (List.range t.inputs.length)
    | some (.error e) => some (.error e)
    | none => none

end Sign

/-- A wallet, with the sigcodes that its owner gives. -/
structure Signer (curve : Curve PrivKey PubKey) (ripemd : List UInt8 → Ripemd160) where
  wallet : Wallet curve ripemd
  sigcodei : UInt8
  sigcodeo : UInt8

/-- `wallet_local_api::tx_sign`: the text of the transaction, for the next wallet; `none`
when there is an error instead. -/
def cosign (programs : LockingPrograms) (exchange : Datagram → Except Text Datagram)
    (txb58 : Text) (s : Signer curve ripemd) : Option Text :=
  match s.wallet.txSign programs exchange txb58 s.sigcodei s.sigcodeo with
  | some (.ok t) => some t.toB58
  | _ => none

/-! ## Unlocking data of one input -/

/-- Unlocking data is no part of the content of the inputs. -/
theorem content_modify (inputs : List Input) (n : ℕ) (data : Text) :
    (inputs.modify n fun i => { i with lockingProgramInput := data }).map Input.content =
      inputs.map Input.content := by
  apply List.ext_getElem?
  intro m
  rw [List.getElem?_map, List.getElem?_map, List.getElem?_modify]
  by_cases hm : n = m
  · simp only [if_pos hm]
    cases inputs[m]? <;> rfl
  · simp only [if_neg hm]
    cases inputs[m]? <;> rfl

/-- Unlocking data does not change what a transaction does. -/
theorem sameContent_withUnlocking (t : Tx) (n : ℕ) (data : Text) :
    SameContent (withUnlocking t n data) t :=
  ⟨content_modify t.inputs n data, rfl, rfl⟩

/-- The inputs of a transaction with unlocking data for one of them. -/
theorem getElem?_withUnlocking {t : Tx} {n : ℕ} {i : Input} (hn : t.inputs[n]? = some i)
    (data : Text) (m : ℕ) :
    (withUnlocking t n data).inputs[m]? =
      if m = n then some { i with lockingProgramInput := data } else t.inputs[m]? := by
  rw [withUnlocking, List.getElem?_modify]
  by_cases hm : m = n
  · subst hm
    simp [hn]
  · simp only [if_neg hm, if_neg (Ne.symm hm)]
    cases t.inputs[m]? <;> rfl

/-- What is checked of an input is its data and what is signed. -/
theorem checkInput_congr {t t' : Tx} (h : SameContent t t') {n : ℕ} (hn : n < t.inputs.length)
    (address : Ripemd160) (data : Text) :
    P2pkh.checkInput curve ripemd address t n data =
      P2pkh.checkInput curve ripemd address t' n data := by
  simp only [P2pkh.checkInput, sigmsg_congr h hn]

/-- Without data nothing is unlocked. -/
theorem checkInput_nil (address : Ripemd160) (t : Tx) (n : ℕ) :
    P2pkh.checkInput curve ripemd address t n [] ≠ some true := by
  have hnil : extract (some []) = ([], none) := rfl
  simp only [P2pkh.checkInput, hnil, extractInt, Option.map_none]
  split_ifs <;> simp

/-- The `p2pkh` check of an input, with the data that it has. -/
def Opened (curve : Curve PrivKey PubKey) (ripemd : List UInt8 → Ripemd160) (t : Tx) (n : ℕ) :
    Prop :=
  ∃ i, t.inputs[n]? = some i ∧
    P2pkh.checkInput curve ripemd i.address t n i.lockingProgramInput = some true

/-- An input is opened when its unlocking data checks. -/
theorem opened_iff {t : Tx} {n : ℕ} {i : Input} (hn : t.inputs[n]? = some i) :
    Opened curve ripemd t n ↔
      P2pkh.checkInput curve ripemd i.address t n i.lockingProgramInput = some true := by
  constructor
  · rintro ⟨i', hi', hcheck⟩
    obtain rfl := Option.some.inj (hn.symm.trans hi')
    exact hcheck
  · exact fun hcheck => ⟨i, hn, hcheck⟩

/-- Unlocking data opens its own input only. -/
theorem opened_withUnlocking {t : Tx} {n : ℕ} {i : Input} (hn : t.inputs[n]? = some i)
    (data : Text) (m : ℕ) :
    Opened curve ripemd (withUnlocking t n data) m ↔
      if m = n then P2pkh.checkInput curve ripemd i.address t n data = some true
      else Opened curve ripemd t m := by
  have hsame := sameContent_withUnlocking t n data
  have hinput := getElem?_withUnlocking hn data m
  by_cases hm : m = n
  · subst hm
    rw [if_pos rfl] at hinput ⊢
    have hlt := (List.getElem?_eq_some_iff.mp hinput).1
    rw [opened_iff hinput, checkInput_congr hsame hlt]
  · rw [if_neg hm] at hinput ⊢
    cases hinput' : t.inputs[m]? with
    | none =>
      have hnot : ∀ t' : Tx, t'.inputs[m]? = none → ¬ Opened curve ripemd t' m := by
        rintro t' hnone ⟨i', hi', -⟩
        rw [hnone] at hi'
        cases hi'
      exact iff_of_false (hnot _ (hinput.trans hinput')) (hnot _ hinput')
    | some i' =>
      have hlt := (List.getElem?_eq_some_iff.mp (hinput.trans hinput')).1
      rw [opened_iff (hinput.trans hinput'), opened_iff hinput', checkInput_congr hsame hlt]

/-- Setting the data that is there changes nothing. -/
theorem withUnlocking_self {t : Tx} {n : ℕ} {i : Input} (hn : t.inputs[n]? = some i) :
    withUnlocking t n i.lockingProgramInput = t := by
  have hinputs : (withUnlocking t n i.lockingProgramInput).inputs = t.inputs := by
    apply List.ext_getElem?
    intro m
    rw [getElem?_withUnlocking hn]
    split_ifs with hm
    · rw [hm, hn]
    · rfl
  rw [withUnlocking] at hinputs ⊢
  dsimp only at hinputs
  rw [hinputs]

/-- A transaction stays encodable with unlocking data that is. -/
theorem encodable_withUnlocking {t : Tx} {n : ℕ} {data : Text} (ht : t.Encodable)
    (hdata : ∀ address amount, (⟨address, amount, data⟩ : Input).Encodable) :
    (withUnlocking t n data).Encodable where
  inputs := by simpa [withUnlocking] using ht.inputs
  outputs := ht.outputs
  unlocking i hi := by
    obtain ⟨m, hm⟩ := List.mem_iff_getElem?.mp hi
    rw [withUnlocking, List.getElem?_modify] at hm
    obtain ⟨i', hi', hm⟩ := Option.map_eq_some_iff.mp hm
    split_ifs at hm with hmn
    · rw [← hm]
      exact hdata _ _
    · rw [← hm]
      exact ht.unlocking i' (List.mem_of_getElem? hi')

/-- The inputs of transactions with the same content have the same addresses. -/
theorem exists_input_of_sameContent {t t' : Tx} (h : SameContent t t') {n : ℕ} {i : Input}
    (hn : t.inputs[n]? = some i) : ∃ i', t'.inputs[n]? = some i' ∧ i'.address = i.address := by
  have hcontent := congrArg (fun cs => cs[n]?) h.1
  rw [List.getElem?_map, List.getElem?_map, hn, Option.map_some, eq_comm,
    Option.map_eq_some_iff] at hcontent
  obtain ⟨i', hi', heq⟩ := hcontent
  exact ⟨i', hi', congrArg Prod.fst heq⟩

/-! ## One wallet -/

section OneWallet

variable (hcurve : curve.Lawful) (w : Wallet curve ripemd)

include hcurve

/-- What the wallet writes for an input opens it if the key is there. -/
theorem exists_generate {t : Tx} {n : ℕ} (hn : n < t.inputs.length) (sigcodes : UInt8)
    (address lockingProgram : Ripemd160) :
    ∃ data, w.generateLockingProgramInput (fun k => P2pkh.createInputAt curve t n sigcodes k)
        address lockingProgram = some data ∧
      (∀ x amount, (⟨x, amount, data⟩ : Input).Encodable) ∧
      (lockingProgram = P2pkh.lockingProgramHash →
        (P2pkh.checkInput curve ripemd address t n data = some true ↔ address ∈ w.keys)) := by
  have hempty : ∀ x amount, (⟨x, amount, []⟩ : Input).Encodable := fun _ _ => Or.inl rfl
  rw [generateLockingProgramInput]
  by_cases hprogram : lockingProgram = P2pkh.lockingProgramHash
  · have hlow : lockingProgram.lt (Ripemd160.set 10000) = true := by rw [hprogram]; decide
    have hzero : lockingProgram ≠ Ripemd160.set 0 := by rw [hprogram]; decide
    have hone : lockingProgram = Ripemd160.set 1 := hprogram
    rw [if_pos hlow, if_neg hzero, if_pos hone]
    cases hk : w.keys.lookup address with
    | none =>
      refine ⟨[], rfl, hempty, fun _ => iff_of_false (checkInput_nil address t n) ?_⟩
      exact Finmap.lookup_eq_none.mp hk
    | some k =>
      obtain ⟨h, hsigmsg⟩ : ∃ h, t.sigmsg n sigcodes = some h := ⟨_, sigmsg_of_lt hn sigcodes⟩
      refine ⟨P2pkh.createInput curve h sigcodes k, ?_,
        fun x amount => P2pkh.encodable_createInput x amount h sigcodes k, fun _ => ?_⟩
      · exact congrArg (Option.map fun h => P2pkh.createInput curve h sigcodes k) hsigmsg
      · rw [P2pkh.checkInput_createInput hcurve ripemd k (w.address_eq address k hk), hsigmsg,
          Option.map_some, hcurve.verify_signEncode]
        exact iff_of_true rfl (Finmap.mem_of_lookup_eq_some hk)
  · have hone : ¬ lockingProgram = Ripemd160.set 1 := hprogram
    refine ⟨[], ?_, hempty, fun h => absurd h hprogram⟩
    rw [if_neg hone, ite_self, ite_self]

/-- What becomes of one input. -/
theorem exists_signInput (exitsWithZero : Ripemd160 → Bool) (sigcodes : UInt8) {bases : Accounts}
    {t : Tx} {n : ℕ} {i : Input} (hn : t.inputs[n]? = some i) {src : Account}
    (hsrc : bases.lookup i.address = some src) :
    ∃ data, w.signInput (.ofCurve curve ripemd exitsWithZero) sigcodes bases t n =
        some (.ok (withUnlocking t n data)) ∧
      (t.Encodable → (withUnlocking t n data).Encodable) ∧
      (src.lockingProgram = P2pkh.lockingProgramHash →
        (P2pkh.checkInput curve ripemd i.address t n data = some true ↔
          P2pkh.checkInput curve ripemd i.address t n i.lockingProgramInput = some true ∨
            i.address ∈ w.keys)) := by
  have hlt := (List.getElem?_eq_some_iff.mp hn).1
  simp only [signInput, hn, Option.bind_eq_bind, Option.bind_some, hsrc, Option.pure_def]
  split_ifs with hopen
  · -- what another wallet has signed is left alone
    refine ⟨i.lockingProgramInput, ?_, ?_, fun hprogram => ?_⟩
    · rw [withUnlocking_self hn]
    · rw [withUnlocking_self hn]
      exact id
    · rw [hprogram, unlock_ofCurve] at hopen
      exact iff_of_true hopen (Or.inl hopen)
  · obtain ⟨data, hdata, hencodable, hkey⟩ :=
      w.exists_generate hcurve hlt sigcodes i.address src.lockingProgram
    have hcongr : ∀ d, P2pkh.checkInput curve ripemd i.address (withUnlocking t n data) n d =
        P2pkh.checkInput curve ripemd i.address t n d := fun d =>
      (checkInput_congr (sameContent_withUnlocking t n data)
        (by simpa [withUnlocking] using hlt) i.address d)
    rw [hdata, Option.bind_some]
    split_ifs with hsigned
    · refine ⟨data, rfl, fun ht => encodable_withUnlocking ht hencodable, fun hprogram => ?_⟩
      rw [hprogram, unlock_ofCurve] at hopen
      rw [hkey hprogram, or_iff_right hopen]
    · refine ⟨[], rfl, fun ht => encodable_withUnlocking ht fun _ _ => Or.inl rfl,
        fun hprogram => ?_⟩
      rw [hprogram, unlock_ofCurve] at hopen
      rw [hprogram, unlock_ofCurve, hcongr, hkey hprogram] at hsigned
      exact iff_of_false (checkInput_nil i.address t n) (not_or.mpr ⟨hopen, hsigned⟩)

end OneWallet

/-! ## Several wallets -/

/-- An account that is locked by `p2pkh`. -/
def LockedByKey (accounts : Accounts) (x : Ripemd160) : Prop :=
  ∃ acc, accounts.lookup x = some acc ∧ acc.lockingProgram = P2pkh.lockingProgramHash

/-- What signing does to a transaction: nothing but unlocking data is written, and of the
inputs that keys can open those are opened that are the signer's own. -/
structure Signs (curve : Curve PrivKey PubKey) (ripemd : List UInt8 → Ripemd160)
    (accounts : Accounts) (own : ℕ → Ripemd160 → Prop) (t t' : Tx) : Prop where
  content : SameContent t t'
  encodable : t.Encodable → t'.Encodable
  opened : ∀ (n : ℕ) (i : Input), t.inputs[n]? = some i → LockedByKey accounts i.address →
    (Opened curve ripemd t' n ↔ Opened curve ripemd t n ∨ own n i.address)

/-- A wallet that owns no key leaves the transaction. -/
theorem Signs.refl (accounts : Accounts) {own : ℕ → Ripemd160 → Prop} (hown : ∀ n x, ¬ own n x)
    (t : Tx) : Signs curve ripemd accounts own t t where
  content := ⟨rfl, rfl, rfl⟩
  encodable := id
  opened n i _ _ := by rw [or_iff_left (hown n i.address)]

/-- Two wallets sign, one after the other, what either of them owns. -/
theorem Signs.trans {accounts : Accounts} {own own' own'' : ℕ → Ripemd160 → Prop} {t t' t'' : Tx}
    (h : Signs curve ripemd accounts own t t') (h' : Signs curve ripemd accounts own' t' t'')
    (hown : ∀ n x, own'' n x ↔ own n x ∨ own' n x) :
    Signs curve ripemd accounts own'' t t'' where
  content := ⟨h.content.1.trans h'.content.1, h.content.2.1.trans h'.content.2.1,
    h.content.2.2.trans h'.content.2.2⟩
  encodable := h'.encodable ∘ h.encodable
  opened n i hn hlocked := by
    obtain ⟨i', hn', haddress⟩ := exists_input_of_sameContent h.content hn
    rw [h'.opened n i' hn' (haddress.symm ▸ hlocked), h.opened n i hn hlocked, haddress, hown,
      or_assoc]

/-- One pass of the loop opens the input of its index, if the key is there. -/
theorem signs_signInput (hcurve : curve.Lawful) (w : Wallet curve ripemd)
    (exitsWithZero : Ripemd160 → Bool) (sigcodes : UInt8) {accounts bases : Accounts} {t : Tx}
    {n : ℕ} {i : Input} (hn : t.inputs[n]? = some i)
    (hbase : ∃ src, bases.lookup i.address = some src ∧ accounts.lookup i.address = some src) :
    ∃ t', w.signInput (.ofCurve curve ripemd exitsWithZero) sigcodes bases t n = some (.ok t') ∧
      Signs curve ripemd accounts (fun m x => m = n ∧ x ∈ w.keys) t t' := by
  obtain ⟨src, hsrc, hacc⟩ := hbase
  obtain ⟨data, hsign, hencodable, hopens⟩ :=
    w.exists_signInput hcurve exitsWithZero sigcodes hn hsrc
  have hsame := sameContent_withUnlocking t n data
  refine ⟨_, hsign, ⟨hsame.1.symm, hsame.2.1.symm, hsame.2.2.symm⟩, hencodable, ?_⟩
  rintro m j hm ⟨acc, hlookup, hprogram⟩
  rw [opened_withUnlocking hn]
  by_cases hmn : m = n
  · subst hmn
    obtain rfl := Option.some.inj (hm.symm.trans hn)
    obtain rfl := Option.some.inj (hacc.symm.trans hlookup)
    rw [if_pos rfl, hopens hprogram, opened_iff hm]
    simp only [true_and]
  · rw [if_neg hmn]
    simp only [hmn, false_and, or_false]

/-- The loop opens the inputs with the indexes that it has been through. -/
theorem signs_signInputsAt (hcurve : curve.Lawful) (w : Wallet curve ripemd)
    (exitsWithZero : Ripemd160 → Bool) (sigcodes : UInt8) {accounts bases : Accounts}
    (ns : List ℕ) {t : Tx} (hns : ∀ n ∈ ns, n < t.inputs.length)
    (hbases : ∀ (n : ℕ) (i : Input), t.inputs[n]? = some i → ∃ src,
      bases.lookup i.address = some src ∧ accounts.lookup i.address = some src) :
    ∃ t', w.signInputsAt (.ofCurve curve ripemd exitsWithZero) sigcodes bases t ns =
        some (.ok t') ∧
      Signs curve ripemd accounts (fun m x => m ∈ ns ∧ x ∈ w.keys) t t' := by
  induction ns generalizing t with
  | nil => exact ⟨t, rfl, Signs.refl accounts (fun _ _ h => List.not_mem_nil h.1) t⟩
  | cons n ns ih =>
    have hlt := hns n List.mem_cons_self
    have hn := List.getElem?_eq_getElem hlt
    obtain ⟨mid, hsign, hfirst⟩ := w.signs_signInput hcurve exitsWithZero sigcodes hn
      (hbases n _ hn)
    have hlength := congrArg List.length hfirst.content.1
    rw [List.length_map, List.length_map] at hlength
    have hcontent : SameContent mid t :=
      ⟨hfirst.content.1.symm, hfirst.content.2.1.symm, hfirst.content.2.2.symm⟩
    obtain ⟨t', hrest, hsigns⟩ := ih
      (fun m hm => hlength ▸ hns m (List.mem_cons_of_mem n hm)) fun m i hm => by
        obtain ⟨i', hm', haddress⟩ := exists_input_of_sameContent hcontent hm
        exact haddress ▸ hbases m i' hm'
    refine ⟨t', ?_, hfirst.trans hsigns fun m x => ?_⟩
    · rw [signInputsAt, hsign]
      exact hrest
    · rw [List.mem_cons, or_and_right]

/-- What a transaction needs to go round: there are inputs, the text keeps it, and there is
something in every account that it takes from. -/
structure Cosignable (a : App) (t : Tx) : Prop where
  inputs : t.inputs ≠ []
  encodable : t.Encodable
  funded : ∀ (n : ℕ) (i : Input), t.inputs[n]? = some i →
    ∃ acc, a.db.accounts.lookup i.address = some acc ∧ 0 < acc.box

/-- A transaction stays cosignable when it is signed. -/
theorem Cosignable.signs {a : App} {own : ℕ → Ripemd160 → Prop} {t t' : Tx}
    (h : Cosignable a t) (hsigns : Signs curve ripemd a.db.accounts own t t') :
    Cosignable a t' where
  inputs hnil := by
    have hlength := congrArg List.length hsigns.content.1
    rw [hnil, List.length_map] at hlength
    exact h.inputs (List.eq_nil_of_length_eq_zero hlength)
  encodable := hsigns.encodable h.encodable
  funded n i hn := by
    obtain ⟨i', hn', haddress⟩ := exists_input_of_sameContent
      ⟨hsigns.content.1.symm, hsigns.content.2.1.symm, hsigns.content.2.2.symm⟩ hn
    exact haddress ▸ h.funded n i' hn'

variable {a : App} {limit : ℕ} (tip : Ripemd160) (lost : Text)

/-- A wallet signs the text that it is given. -/
theorem signs_cosign (hcurve : curve.Lawful) (ha : a.db.Boxed) (hlimit : 100 ≤ limit)
    (exitsWithZero : Ripemd160 → Bool) (s : Signer curve ripemd) {t : Tx}
    (ht : Cosignable a t) :
    ∃ t', cosign (.ofCurve curve ripemd exitsWithZero) (connection limit a tip lost) t.toB58 s =
        some t'.toB58 ∧
      Signs curve ripemd a.db.accounts (fun _ x => x ∈ s.wallet.keys) t t' := by
  have hcount := ht.encodable.inputs
  have hread : Tx.fromB58 t.toB58 = .ok t := by
    rw [Tx.fromB58_toB58]
    exact ht.encodable.read_write
  have hne : t.inputs.map Input.address ≠ [] := by simpa using ht.inputs
  have hasked : (t.inputs.map Input.address).length ≤ limit := by rw [List.length_map]; omega
  have hask := askAccounts_connection ha tip lost hne hasked
    (by rw [List.length_map]; unfold maxAddresses; omega)
  set bases := emplaced (((t.inputs.map Input.address).zip
    ((t.inputs.map Input.address).map a.db.accountAt)).filter fun e => e.2.box > 0)
  have hbases : ∀ (n : ℕ) (i : Input), t.inputs[n]? = some i → ∃ src,
      bases.lookup i.address = some src ∧ a.db.accounts.lookup i.address = some src := by
    intro n i hn
    obtain ⟨acc, hacc, hbox⟩ := ht.funded n i hn
    have hat : a.db.accountAt i.address = acc := by
      rw [Db.accountAt, hacc]
      rfl
    have hmem : i.address ∈ t.inputs.map Input.address :=
      List.mem_map_of_mem (List.mem_of_getElem? hn)
    refine ⟨acc, ?_, hacc⟩
    rw [lookup_emplaced_zip, hat, if_pos ⟨hmem, hbox⟩]
  obtain ⟨t', hsign, hsigns⟩ := s.wallet.signs_signInputsAt hcurve exitsWithZero
    (combine s.sigcodei s.sigcodeo) (List.range t.inputs.length)
    (fun n hn => List.mem_range.mp hn) hbases
  refine ⟨t', ?_, hsigns.content, hsigns.encodable, fun n i hn hlocked => ?_⟩
  · rw [cosign, txSign, hread]
    dsimp only
    rw [hask]
    dsimp only
    rw [hsign]
  · have hlt := (List.getElem?_eq_some_iff.mp hn).1
    rw [hsigns.opened n i hn hlocked]
    simp only [List.mem_range, hlt, true_and]

/-- The text goes from wallet to wallet. -/
theorem signs_run (hcurve : curve.Lawful) (ha : a.db.Boxed) (hlimit : 100 ≤ limit)
    (exitsWithZero : Ripemd160 → Bool) (signers : List (Signer curve ripemd)) {t : Tx}
    (ht : Cosignable a t) :
    ∃ t', run (cosign (.ofCurve curve ripemd exitsWithZero) (connection limit a tip lost)) t.toB58
        signers = some t'.toB58 ∧
      Signs curve ripemd a.db.accounts (fun _ x => ∃ s ∈ signers, x ∈ s.wallet.keys) t t' := by
  induction signers generalizing t with
  | nil => exact ⟨t, rfl, Signs.refl _ (by simp) t⟩
  | cons s signers ih =>
    obtain ⟨mid, hsign, hfirst⟩ := signs_cosign tip lost hcurve ha hlimit exitsWithZero s ht
    obtain ⟨t', hrest, hsigns⟩ := ih (ht.signs hfirst)
    refine ⟨t', ?_, hfirst.trans hsigns fun _ x => List.exists_mem_cons_iff ..⟩
    rw [run, hsign, Option.bind_some, hrest]

/-- **A transaction that goes from wallet to wallet.** Whichever wallets sign it, in
whichever order, with whichever sigcodes and however often, it comes back with the same
inputs, outputs and time stamp, and an input is open exactly if it was before or one of
the wallets has its key. A node therefore takes what the inputs ask for if and only if
the owners of all of them have signed. -/
theorem cosigned_iff (hcurve : curve.Lawful) (ha : a.db.Boxed) (hlimit : 100 ≤ limit)
    (exitsWithZero : Ripemd160 → Bool) (signers : List (Signer curve ripemd)) {t : Tx}
    (ht : Cosignable a t) :
    ∃ t', run (cosign (.ofCurve curve ripemd exitsWithZero) (connection limit a tip lost)) t.toB58
        signers = some t'.toB58 ∧
      SameContent t t' ∧ t'.Encodable ∧
      (∀ (n : ℕ) (i : Input), t.inputs[n]? = some i → LockedByKey a.db.accounts i.address →
        (Opened curve ripemd t' n ↔
          Opened curve ripemd t n ∨ ∃ s ∈ signers, i.address ∈ s.wallet.keys)) ∧
      ((∀ i ∈ t.inputs, LockedByKey a.db.accounts i.address ∧ i.address ∉ a.pool.accounts) →
        (a.Unlocks (.ofCurve curve ripemd exitsWithZero) t' ↔
          ∀ (n : ℕ) (i : Input), t.inputs[n]? = some i →
            Opened curve ripemd t n ∨ ∃ s ∈ signers, i.address ∈ s.wallet.keys)) := by
  obtain ⟨t', hrun, hsigns⟩ := signs_run tip lost hcurve ha hlimit exitsWithZero signers ht
  refine ⟨t', hrun, hsigns.content, hsigns.encodable ht.encodable, hsigns.opened, fun hall => ?_⟩
  have hback : SameContent t' t :=
    ⟨hsigns.content.1.symm, hsigns.content.2.1.symm, hsigns.content.2.2.symm⟩
  -- the node looks at the accounts of the ledger, none of the inputs is in the pool
  have hstate : ∀ i ∈ t.inputs, ∃ acc, a.accountState ∅ i.address = some acc ∧
      acc.lockingProgram = P2pkh.lockingProgramHash := by
    intro i hi
    obtain ⟨⟨acc, hacc, hprogram⟩, hpool⟩ := hall i hi
    refine ⟨acc, ?_, hprogram⟩
    rw [App.accountState, Finmap.lookup_empty, Finmap.lookup_eq_none.mpr hpool, hacc,
      Option.none_or, Option.none_or]
  constructor
  · intro hunlocks n i hn
    obtain ⟨i', hn', haddress⟩ := exists_input_of_sameContent hsigns.content hn
    obtain ⟨acc, hacc, hprogram⟩ := hstate i (List.mem_of_getElem? hn)
    obtain ⟨acc', hacc', hunlock⟩ :=
      hunlocks (i', n) (List.mk_mem_zipIdx_iff_getElem?.mpr hn')
    dsimp only at hacc' hunlock
    rw [haddress, hacc, Option.some.injEq] at hacc'
    rw [← hacc', hprogram, unlock_ofCurve] at hunlock
    exact (hsigns.opened n i hn (hall i (List.mem_of_getElem? hn)).1).mp
      ((opened_iff hn').mpr hunlock)
  · rintro hopen ⟨i', n⟩ hin
    have hn' : t'.inputs[n]? = some i' := List.mk_mem_zipIdx_iff_getElem?.mp hin
    obtain ⟨i, hn, haddress⟩ := exists_input_of_sameContent hback hn'
    obtain ⟨acc, hacc, hprogram⟩ := hstate i (List.mem_of_getElem? hn)
    refine ⟨acc, by rw [← haddress, hacc], ?_⟩
    dsimp only
    rw [hprogram, unlock_ofCurve, ← opened_iff hn']
    exact (hsigns.opened n i hn (hall i (List.mem_of_getElem? hn)).1).mpr (hopen n i hn)

/-- A wallet with one of the two keys. -/
def oneKey (k : Bool) : Wallet Curve.ofTwoKeys ripemdHead where
  keys := Finmap.singleton (Ripemd160.set (if k then 2 else 3)) k
  address_eq address key h := by
    obtain rfl := (Finmap.mem_singleton _ _ _).mp (Finmap.mem_of_lookup_eq_some h)
    rw [Finmap.lookup_singleton_eq] at h
    obtain rfl := Option.some.inj h
    cases k <;> rfl

/-- The transaction with two inputs can be cosigned. -/
theorem cosignable_twoInputs : Cosignable fiveForEach twoInputs where
  inputs := by decide
  encodable := ⟨by decide, by decide, fun i hi => by
    simp only [twoInputs, List.mem_cons, List.not_mem_nil, or_false] at hi
    rcases hi with rfl | rfl <;> exact Or.inl rfl⟩
  funded n i hn := by
    refine ⟨⟨P2pkh.lockingProgramHash, 5⟩, ?_, by norm_num⟩
    have hi := List.mem_of_getElem? hn
    simp only [twoInputs, List.mem_cons, List.not_mem_nil, or_false] at hi
    rcases hi with rfl | rfl <;> decide +kernel

/-- Two wallets with a key each make a transaction of both their accounts. -/
theorem cosigned_iff_twoInputs :
    ∃ t', run (cosign (.ofCurve Curve.ofTwoKeys ripemdHead fun _ => false)
        (connection 100 fiveForEach Ripemd160.zero [])) twoInputs.toB58
        [⟨oneKey false, sigcodeAll, sigcodeAll⟩, ⟨oneKey true, sigcodeThis, sigcodeNone⟩] =
          some t'.toB58 ∧
      fiveForEach.Unlocks (.ofCurve Curve.ofTwoKeys ripemdHead fun _ => false) t' := by
  have hboxed : fiveForEach.db.Boxed := payable_fiveForEach.boxed
  obtain ⟨t', hrun, -, -, -, hunlocks⟩ := cosigned_iff Ripemd160.zero []
    Curve.lawful_ofTwoKeys hboxed le_rfl (fun _ => false)
    [⟨oneKey false, sigcodeAll, sigcodeAll⟩, ⟨oneKey true, sigcodeThis, sigcodeNone⟩]
    cosignable_twoInputs
  refine ⟨t', hrun, (hunlocks fun i hi => ⟨?_, Finmap.notMem_empty⟩).mpr fun n i hn => Or.inr ?_⟩
  · obtain ⟨n, hn⟩ := List.mem_iff_getElem?.mp hi
    obtain ⟨acc, hacc, -⟩ := cosignable_twoInputs.funded n i hn
    exact ⟨acc, hacc, by rw [lookup_fiveForEach hacc]⟩
  · have hi := List.mem_of_getElem? hn
    simp only [twoInputs, List.mem_cons, List.not_mem_nil, or_false] at hi
    rcases hi with rfl | rfl
    · exact ⟨_, List.mem_cons_of_mem _ (List.mem_singleton_self _),
        (Finmap.mem_singleton _ _ _).mpr rfl⟩
    · exact ⟨_, List.mem_cons_self, (Finmap.mem_singleton _ _ _).mpr rfl⟩

end Wallet

end AcCore
