import AcCore.Gov.Cash.Sigmsg
import AcCore.Wallet.Selection

/-!
# Payments that a node accepts

What the wallet returns is to be read by a node, to pay the fee, and to unlock
the accounts it has the keys of. The node reads a hundred inputs and no more, and
with a sigcode that depends on the input the wallet signs for the first one only.
-/

namespace AcCore.Wallet

open Lib Gov Gov.Cash Gov.Engine

/-- A list whose elements are all mapped, element by element. -/
theorem getElem?_mapM {α β : Type} {f : α → Option β} {xs : List α} {ys : List β}
    (h : xs.mapM f = some ys) :
    ys.length = xs.length ∧ ∀ (n : ℕ) (x : α), xs[n]? = some x → ∃ y, f x = some y ∧
      ys[n]? = some y := by
  induction xs generalizing ys with
  | nil =>
    obtain rfl : [] = ys := Option.some.inj h
    exact ⟨rfl, by simp⟩
  | cons x xs ih =>
    simp only [List.mapM_cons, Option.bind_eq_bind, Option.bind_eq_some_iff,
      Option.pure_def, Option.some.injEq] at h
    obtain ⟨y, hy, zs, hzs, rfl⟩ := h
    obtain ⟨hlength, hget⟩ := ih hzs
    refine ⟨by rw [List.length_cons, List.length_cons, hlength], fun n z hz => ?_⟩
    cases n with
    | zero =>
      obtain rfl : x = z := by simpa using hz
      exact ⟨y, hy, rfl⟩
    | succ n => exact hget n z hz

variable {PrivKey PubKey : Type} {curve : Curve PrivKey PubKey}
  {ripemd : List UInt8 → Ripemd160}

variable {w : Wallet curve ripemd}

/-! ## What is reported -/

/-- The wallet keeps the reported accounts of its own keys that have something. -/
theorem lookup_reportedAccounts {reported : Ripemd160 → Ripemd160 × Int64} {address : Ripemd160}
    {a : Account} (h : (w.reportedAccounts reported).lookup address = some a) :
    address ∈ w.keys ∧ 0 < a.box := by
  rw [reportedAccounts, lookup_emplaced, Option.map_eq_some_iff] at h
  obtain ⟨⟨address', a'⟩, hfind, rfl⟩ := h
  obtain rfl : address' = address := by simpa using List.find?_some hfind
  obtain ⟨x, hx, hentry⟩ := List.mem_filterMap.mp (List.mem_of_find?_eq_some hfind)
  dsimp only at hentry
  split_ifs at hentry with hbox
  obtain ⟨rfl, rfl⟩ := Prod.mk.inj (Option.some.inj hentry)
  exact ⟨Table.mem_keyList.mp hx, hbox⟩

/-- Every source has something in it. -/
theorem pos_of_mem_sources {std : BoxSort} {reported : Ripemd160 → Ripemd160 × Int64} :
    ∀ e ∈ sources std (w.reportedAccounts reported), 0 < e.2.box :=
  fun _ he => (lookup_reportedAccounts (mem_sources.mp he)).2

/-! ## The transaction before it is signed -/

/-- What is known of a transaction that passed the checks: it takes from the
first of the sources, as many as the amount and the fee need. -/
structure Prepared (src : List (Ripemd160 × Account)) (i : TxMakeP2pkhInput) (ts : UInt64)
    (t : Tx) (accounts : List InputAccount) : Prop where
  eq_unsigned : t = unsignedTx accounts i ts
  source : ∀ (n : ℕ) (a : InputAccount), accounts[n]? = some a → src[n]? = some a.entry
  lt_length_iff : ∀ n, n < accounts.length ↔
    boxes (src.take n) < i.amount.toInt + i.fee.toInt
  check : t.check wrapInt64 = i.fee.toInt

/-- A sum of two positive words is itself or negative. -/
theorem wrapInt64_add {a b : Int64} (ha : 0 < a.toInt) (hb : 0 < b.toInt) :
    wrapInt64 (a.toInt + b.toInt) < 2 ^ 63 ∧ -2 ^ 63 ≤ wrapInt64 (a.toInt + b.toInt) ∧
      (0 < wrapInt64 (a.toInt + b.toInt) →
        wrapInt64 (a.toInt + b.toInt) = a.toInt + b.toInt) := by
  have hrange := wrapInt64_cases (a.toInt + b.toInt)
  have hlow : -2 ^ 63 ≤ wrapInt64 (a.toInt + b.toInt) := Int.le_bmod (by norm_num)
  have := a.toInt_lt
  have := b.toInt_lt
  omega

/-- What the checks leave. -/
theorem prepareTx_ok {std : BoxSort} {reported : Ripemd160 → Ripemd160 × Int64}
    {i : TxMakeP2pkhInput} {ts : UInt64} {t : Tx} {accounts : List InputAccount}
    (h : w.prepareTx std (.ok reported) i ts = .ok (t, accounts)) :
    accounts = withdraw (wrapInt64 (i.amount.toInt + i.fee.toInt))
        (sources std (w.reportedAccounts reported)) ∧
      accounts ≠ [] ∧ getWithdrawAmount accounts = wrapInt64 (i.amount.toInt + i.fee.toInt) ∧
      t = unsignedTx accounts i ts ∧ 1 ≤ t.check wrapInt64 := by
  unfold prepareTx selectSources queryAccounts at h
  dsimp only at h
  split_ifs at h with hkeys
  · simp [Except.map, bind, Except.bind] at h
  · simp only [Except.map, bind, Except.bind, throw, throwThe, MonadExceptOf.throw, pure,
      Except.pure] at h
    split_ifs at h with hempty htotal hcheck
    obtain ⟨rfl, rfl⟩ := Prod.mk.inj (Except.ok.inj h)
    exact ⟨rfl, hempty, not_ne_iff.mp htotal, rfl, by omega⟩

/-- A transaction that is prepared is prepared from the sources. -/
theorem prepared_of_prepareTx {std : BoxSort} {reported : Ripemd160 → Ripemd160 × Int64}
    {i : TxMakeP2pkhInput} (hamount : 0 < i.amount.toInt) (hfee : 0 < i.fee.toInt) {ts : UInt64}
    {t : Tx} {accounts : List InputAccount}
    (h : w.prepareTx std (.ok reported) i ts = .ok (t, accounts)) :
    Prepared (sources std (w.reportedAccounts reported)) i ts t accounts := by
  have hpos : ∀ e ∈ sources std (w.reportedAccounts reported), 0 < e.2.box := pos_of_mem_sources
  obtain ⟨haccounts, hne, htotal, rfl, hcheck⟩ := prepareTx_ok h
  obtain ⟨htop, hbottom, hexact⟩ := wrapInt64_add hamount hfee
  set total := wrapInt64 (i.amount.toInt + i.fee.toInt)
  obtain ⟨hinputs, -⟩ := Tx.amountsPositive_of_check
    (by omega : 0 ≤ (unsignedTx accounts i ts).check wrapInt64)
  have hword : ∀ a ∈ accounts, 0 < (Int64.ofInt a.withdrawAmount).toInt := fun a ha =>
    hinputs ⟨a.address, Int64.ofInt a.withdrawAmount, []⟩ (List.mem_map_of_mem ha)
  have hpositive : 0 < total := by
    by_contra hnonpos
    obtain ⟨a, ha⟩ := List.exists_mem_of_ne_nil _ hne
    have hall := withdrawAmount_of_nonpos hpos (not_lt.mp hnonpos) a (haccounts ▸ ha)
    have := hword a ha
    rw [hall, toInt_ofInt ⟨hbottom, htop⟩] at this
    exact hnonpos this
  have hbounds : ∀ a ∈ accounts, 0 ≤ a.withdrawAmount ∧ a.withdrawAmount ≤ total := fun a ha =>
    withdrawAmount_bounds hpos hpositive.le a (haccounts ▸ ha)
  have hvalue : ∀ a ∈ accounts, (Int64.ofInt a.withdrawAmount).toInt = a.withdrawAmount := by
    intro a ha
    have := hbounds a ha
    exact toInt_ofInt (by omega)
  -- the sum is between zero and the total, so nothing wraps
  have hsum : (accounts.map InputAccount.withdrawAmount).sum = total := by
    have hmin := sum_withdraw hpos hpositive.le
    have hnonneg := boxes_nonneg hpos
    rw [← haccounts] at hmin
    rwa [getWithdrawAmount_eq, wrapInt64_of_mem (by omega) (by omega)] at htotal
  have hsurplus : (unsignedTx accounts i ts).surplus = i.fee.toInt := by
    have := hexact hpositive
    rw [surplus_unsignedTx hvalue, hsum]
    omega
  refine ⟨rfl, fun n a ha => ?_, fun n => ?_, ?_⟩
  · rw [haccounts] at ha
    exact getElem?_of_withdraw ha
  · rw [haccounts, ← hexact hpositive]
    apply lt_length_withdraw_iff hpos
    · rw [← haccounts]
      exact hsum
    · intro a ha
      rw [← haccounts] at ha
      have := hword a ha
      rwa [hvalue a ha] at this
  · have hpositives := Tx.amountsPositive_of_check
      (by omega : 0 ≤ (unsignedTx accounts i ts).check wrapInt64)
    rw [wraps_wrapInt64.check hpositives, hsurplus]
    exact wrapInt64_of_mem (by omega) i.fee.toInt_lt

/-! ## The signatures -/

/-- Every input gets the data that is generated for its index. -/
theorem signInputs_spec {create : ℕ → PrivKey → Option Text} {inputs : List (Input × InputAccount)}
    {signed : List Input} (h : w.signInputs create inputs = some signed) :
    signed.length = inputs.length ∧ ∀ (n : ℕ) (input : Input) (a : InputAccount),
      inputs[n]? = some (input, a) → ∃ data,
        w.generateLockingProgramInput (create n) input.address a.lockingProgram = some data ∧
          signed[n]? = some { input with lockingProgramInput := data } := by
  obtain ⟨hlength, hget⟩ := getElem?_mapM h
  refine ⟨by rw [hlength, List.length_zipIdx], fun n input a hn => ?_⟩
  obtain ⟨y, hy, hsigned⟩ := hget n ((input, a), n) (by rw [List.getElem?_zipIdx, hn]; simp)
  obtain ⟨data, hdata, rfl⟩ := Option.map_eq_some_iff.mp hy
  exact ⟨data, hdata, hsigned⟩

/-- The input whose digest is signed: the first one, or each its own. -/
def signedIndex (scs : UInt8) (n : ℕ) : ℕ := if sameSigmsgAcrossInputs scs then 0 else n

/-- What is signed of a transaction. -/
structure Signed (w : Wallet curve ripemd) (accounts : List InputAccount) (scs : UInt8)
    (t t' : Tx) : Prop where
  outputs : t'.outputs = t.outputs
  ts : t'.ts = t.ts
  length : t'.inputs.length = t.inputs.length
  input : ∀ (n : ℕ) (input : Input) (a : InputAccount), t.inputs[n]? = some input →
    accounts[n]? = some a → ∃ data,
      w.generateLockingProgramInput (fun k => (t.sigmsg (signedIndex scs n) scs).map fun h =>
        P2pkh.createInput curve h scs k) input.address a.lockingProgram = some data ∧
      t'.inputs[n]? = some { input with lockingProgramInput := data }

/-- A transaction that is signed is signed for every account. -/
theorem signed_of_signTx {t t' : Tx} {accounts : List InputAccount} {scs : UInt8}
    (hlength : accounts.length = t.inputs.length) (h : w.signTx t accounts scs = some t') :
    Signed w accounts scs t t' := by
  have hzip : ∀ (n : ℕ) (input : Input) (a : InputAccount), t.inputs[n]? = some input →
      accounts[n]? = some a → (t.inputs.zip accounts)[n]? = some (input, a) :=
    fun n input a hinput ha => List.getElem?_zip_eq_some.mpr ⟨hinput, ha⟩
  have hcount : (t.inputs.zip accounts).length = t.inputs.length := by
    rw [List.length_zip, hlength, min_self]
  unfold signTx at h
  dsimp only at h
  obtain ⟨signed, hsigned, rfl⟩ := Option.map_eq_some_iff.mp h
  split_ifs at hsigned with hsame
  · obtain ⟨digest, hdigest, hsigned⟩ := Option.bind_eq_some_iff.mp hsigned
    obtain ⟨hsize, hinput⟩ := signInputs_spec hsigned
    refine ⟨rfl, rfl, hsize.trans hcount, fun n input a hn ha => ?_⟩
    rw [signedIndex, if_pos hsame, hdigest]
    exact hinput n input a (hzip n input a hn ha)
  · obtain ⟨hsize, hinput⟩ := signInputs_spec hsigned
    refine ⟨rfl, rfl, hsize.trans hcount, fun n input a hn ha => ?_⟩
    rw [signedIndex, if_neg hsame]
    exact hinput n input a (hzip n input a hn ha)

/-- Signing changes the unlocking data only. -/
theorem Signed.sameContent {t t' : Tx} {accounts : List InputAccount} {scs : UInt8}
    (h : Signed w accounts scs t t') (hlength : accounts.length = t.inputs.length) :
    SameContent t' t := by
  refine ⟨?_, by rw [h.outputs], h.ts⟩
  apply List.ext_getElem?
  intro n
  rw [List.getElem?_map, List.getElem?_map]
  by_cases hn : n < t.inputs.length
  · obtain ⟨data, -, hdata⟩ := h.input n _ _ (List.getElem?_eq_getElem hn)
      (List.getElem?_eq_getElem (hlength ▸ hn))
    rw [hdata, List.getElem?_eq_getElem hn]
    rfl
  · have hn' : ¬ n < t'.inputs.length := by rwa [h.length]
    rw [List.getElem?_eq_none (not_lt.mp hn), List.getElem?_eq_none (not_lt.mp hn')]

/-- The unlocking data of every input survives the wire. -/
theorem Signed.encodable {t t' : Tx} {accounts : List InputAccount} {scs : UInt8}
    (h : Signed w accounts scs t t') (hlength : accounts.length = t.inputs.length) :
    ∀ i ∈ t'.inputs, i.Encodable := by
  intro i hi
  obtain ⟨n, hn⟩ := List.mem_iff_getElem?.mp hi
  have hlt : n < t.inputs.length := by
    rw [← h.length]
    exact (List.getElem?_eq_some_iff.mp hn).1
  obtain ⟨data, hgenerate, hdata⟩ := h.input n _ _ (List.getElem?_eq_getElem hlt)
    (List.getElem?_eq_getElem (hlength ▸ hlt))
  obtain rfl := Option.some.inj (hn.symm.trans hdata)
  unfold generateLockingProgramInput at hgenerate
  split_ifs at hgenerate with hlow hzero hone
  · exact Or.inl (Option.some.inj hgenerate).symm
  · split at hgenerate
    · exact Or.inl (Option.some.inj hgenerate).symm
    · obtain ⟨digest, -, rfl⟩ := Option.map_eq_some_iff.mp hgenerate
      exact P2pkh.encodable_createInput _ _ _ _ _
  · exact Or.inl (Option.some.inj hgenerate).symm
  · exact Or.inl (Option.some.inj hgenerate).symm

/-! ## Which inputs are unlocked -/

/-- The inputs share one message unless a code is for this one only. -/
theorem sameSigmsgAcrossInputs_combine (sci sco : Sigcode) :
    sameSigmsgAcrossInputs (combine sci.code sco.code) = true ↔ sci = .this ∨ sco = .this := by
  cases sci <;> cases sco <;> decide

/-- An input is unlocked when the digest that was signed for it is its own. -/
theorem Signed.unlocked_iff (hcurve : curve.Lawful) (hsigns : curve.SignsOnly) {t t' : Tx}
    {accounts : List InputAccount} {scs : UInt8} (h : Signed w accounts scs t t')
    (hlength : accounts.length = t.inputs.length) {n : ℕ} {input input' : Input}
    {a : InputAccount} (hn : t.inputs[n]? = some input) (ha : accounts[n]? = some a)
    (hn' : t'.inputs[n]? = some input') (hp2pkh : a.lockingProgram = P2pkh.lockingProgramHash)
    (hkey : input.address ∈ w.keys) :
    P2pkh.checkInput curve ripemd input'.address t' n input'.lockingProgramInput = some true ↔
      t.sigmsg n scs = t.sigmsg (signedIndex scs n) scs := by
  obtain ⟨data, hgenerate, hdata⟩ := h.input n input a hn ha
  obtain rfl := Option.some.inj (hn'.symm.trans hdata)
  obtain ⟨k, hk⟩ := Finmap.mem_iff.mp hkey
  have hlow : P2pkh.lockingProgramHash.lt (Ripemd160.set 10000) = true := by decide
  have hzero : P2pkh.lockingProgramHash ≠ Ripemd160.set 0 := by decide
  have hone : P2pkh.lockingProgramHash = Ripemd160.set 1 := rfl
  rw [generateLockingProgramInput, hp2pkh, if_pos hlow, if_neg hzero, if_pos hone, hk]
    at hgenerate
  obtain ⟨digest, hdigest, rfl⟩ := Option.map_eq_some_iff.mp hgenerate
  have hlt : n < t'.inputs.length := (List.getElem?_eq_some_iff.mp hn').1
  rw [P2pkh.checkInput_createInput hcurve ripemd k (w.address_eq _ _ hk),
    sigmsg_congr (h.sameContent hlength) hlt, hdigest, Option.map_eq_some_iff]
  constructor
  · rintro ⟨own, hown, hverify⟩
    rw [hown, (hcurve.verify_signEncode_iff hsigns k own digest).mp hverify]
  · intro hsame
    exact ⟨digest, hsame, hcurve.verify_signEncode k digest⟩

/-- No two inputs have the same content: their addresses differ. -/
theorem Prepared.content_inj {src : List (Ripemd160 × Account)}
    (hnodup : (src.map Prod.fst).Nodup) {i : TxMakeP2pkhInput} {ts : UInt64} {t : Tx}
    {accounts : List InputAccount} (h : Prepared src i ts t accounts) {m n : ℕ}
    (hm : m < accounts.length)
    (heq : (t.inputs.map Input.content)[m]? = (t.inputs.map Input.content)[n]?) : m = n := by
  obtain rfl := h.eq_unsigned
  have haddress : accounts[m]?.map InputAccount.address =
      accounts[n]?.map InputAccount.address := by
    have := congrArg (Option.map Prod.fst) heq
    simpa [unsignedTx, Input.content, Function.comp_def] using this
  have hsource : ∀ (l : ℕ) (a : InputAccount), accounts[l]? = some a →
      (src.map Prod.fst)[l]? = some a.address := by
    intro l a ha
    rw [List.getElem?_map, h.source l a ha]
    rfl
  have ha := List.getElem?_eq_getElem hm
  set a := accounts[m]
  rw [ha, Option.map_some] at haddress
  obtain ⟨b, hb, hab⟩ := Option.map_eq_some_iff.mp haddress.symm
  have hsame : (src.map Prod.fst)[m]? = (src.map Prod.fst)[n]? := by
    rw [hsource m a ha, hsource n b hb, hab]
  exact (List.getElem?_inj (List.getElem?_eq_some_iff.mp (hsource m a ha)).1 hnodup).mp hsame

/-- What is signed first is signed for another input only when it does not depend
on the index. -/
theorem Prepared.sigmsg_signedIndex_iff {src : List (Ripemd160 × Account)}
    (hnodup : (src.map Prod.fst).Nodup) {i : TxMakeP2pkhInput} {ts : UInt64} {t : Tx}
    {accounts : List InputAccount} (h : Prepared src i ts t accounts) {n : ℕ}
    (hn : n < accounts.length) (sci sco : Sigcode) :
    t.sigmsg n (combine sci.code sco.code) =
        t.sigmsg (signedIndex (combine sci.code sco.code) n) (combine sci.code sco.code) ↔
      (sci ≠ .this ∧ sco ≠ .this) ∨ n = 0 := by
  obtain rfl := h.eq_unsigned
  rw [signedIndex]
  split_ifs with hsame
  · rw [sameSigmsgAcrossInputs_combine] at hsame
    have hlength : (unsignedTx accounts i ts).inputs.length = accounts.length := by
      rw [unsignedTx, List.length_map]
    rw [sigmsg_eq_iff (by omega) (by omega)]
    constructor
    · rintro ⟨hinputs, houtputs⟩
      right
      obtain rfl | rfl := hsame
      · have hne : sigcodeInput (combine Sigcode.this.code sco.code) ≠ sigcodeAll := by
          cases sco <;> decide
        exact h.content_inj hnodup hn (hinputs.resolve_left hne)
      · have hthis : sigcodeOutput (combine sci.code Sigcode.this.code) = sigcodeThis := by
          cases sci <;> decide
        have houtput := houtputs hthis
        cases n with
        | zero => rfl
        | succ n => simp [unsignedTx] at houtput
    · rintro (⟨hinputs, houtputs⟩ | rfl)
      · exact absurd hsame (not_or.mpr ⟨hinputs, houtputs⟩)
      · exact ⟨Or.inr rfl, fun _ => rfl⟩
  · rw [sameSigmsgAcrossInputs_combine] at hsame
    exact iff_of_true rfl (Or.inl (not_or.mp hsame))

/-! ## Payments -/

/-- A node accepts what the wallet made of the accounts it was told: it reads the
transaction, the fee is the one asked for, and every account that a key of the
wallet unlocks is unlocked. -/
structure NodeAccepts (w : Wallet curve ripemd) (data : Accounts) (fee : Int64) (t : Tx) :
    Prop where
  decoded : Tx.fromB58 t.toB58 = .ok t
  fees : t.check wrapInt64 = fee.toInt
  unlocked : ∀ (n : ℕ) (input : Input) (a : Account), t.inputs[n]? = some input →
    data.lookup input.address = some a → a.lockingProgram = P2pkh.lockingProgramHash →
    input.address ∈ w.keys →
      P2pkh.checkInput curve ripemd input.address t n input.lockingProgramInput = some true

/-- A transaction that the wallet makes was prepared and signed. -/
theorem txMakeP2pkh_ok {std : BoxSort} {report : Report} {reply : String} {i : TxMakeP2pkhInput}
    {ts : UInt64} {t' : Tx} (h : w.txMakeP2pkh std report reply i ts = some (.ok t')) :
    ∃ t accounts, w.prepareTx std report i ts = .ok (t, accounts) ∧
      w.signTx t accounts (combine i.sigcodeInputs.code i.sigcodeOutputs.code) = some t' := by
  unfold txMakeP2pkh at h
  cases hprepared : w.prepareTx std report i ts with
  | error e => simp [hprepared] at h
  | ok r =>
    rw [hprepared] at h
    obtain ⟨signed, hsigned, hsent⟩ := Option.map_eq_some_iff.mp h
    split_ifs at hsent
    obtain rfl := Except.ok.inj hsent
    exact ⟨r.1, r.2, rfl, hsigned⟩

/-- What the wallet returns is signed from what passed its checks. -/
theorem prepared_of_txMakeP2pkh {std : BoxSort} {reported : Ripemd160 → Ripemd160 × Int64}
    {reply : String} {i : TxMakeP2pkhInput} (hamount : 0 < i.amount.toInt)
    (hfee : 0 < i.fee.toInt) {ts : UInt64} {t' : Tx}
    (h : w.txMakeP2pkh std (.ok reported) reply i ts = some (.ok t')) :
    ∃ t accounts, Prepared (sources std (w.reportedAccounts reported)) i ts t accounts ∧
      accounts.length = t.inputs.length ∧
      Signed w accounts (combine i.sigcodeInputs.code i.sigcodeOutputs.code) t t' := by
  obtain ⟨t, accounts, hprepare, hsign⟩ := txMakeP2pkh_ok h
  have hprepared := prepared_of_prepareTx hamount hfee hprepare
  have hlength : accounts.length = t.inputs.length := by
    rw [hprepared.eq_unsigned, unsignedTx, List.length_map]
  exact ⟨t, accounts, hprepared, hlength, signed_of_signTx hlength hsign⟩

/-- Which of the selected accounts are unlocked: with a sigcode that depends on
the input, the first only. -/
theorem Prepared.unlocked_iff (hcurve : curve.Lawful) (hsigns : curve.SignsOnly)
    {src : List (Ripemd160 × Account)} (hnodup : (src.map Prod.fst).Nodup)
    {i : TxMakeP2pkhInput} {ts : UInt64} {t t' : Tx} {accounts : List InputAccount}
    {sci sco : Sigcode} (h : Prepared src i ts t accounts)
    (hsigned : Signed w accounts (combine sci.code sco.code) t t')
    (hlength : accounts.length = t.inputs.length) {n : ℕ} {a : InputAccount}
    (ha : accounts[n]? = some a) (hp2pkh : a.lockingProgram = P2pkh.lockingProgramHash)
    (hkey : a.address ∈ w.keys) :
    ∃ input, t'.inputs[n]? = some input ∧ input.address = a.address ∧
      (P2pkh.checkInput curve ripemd input.address t' n input.lockingProgramInput = some true ↔
        (sci ≠ .this ∧ sco ≠ .this) ∨ n = 0) := by
  have hinput : t.inputs[n]? = some ⟨a.address, Int64.ofInt a.withdrawAmount, []⟩ := by
    rw [h.eq_unsigned, unsignedTx, List.getElem?_map, ha, Option.map_some]
  obtain ⟨data, -, hdata⟩ := hsigned.input n _ a hinput ha
  refine ⟨_, hdata, rfl, ?_⟩
  rw [hsigned.unlocked_iff hcurve hsigns hlength hinput ha hdata hp2pkh hkey]
  exact h.sigmsg_signedIndex_iff hnodup (List.getElem?_eq_some_iff.mp ha).1 sci sco

/-- When the first input alone is signed, no other account that is needed is locked
by a key. -/
theorem NodeAccepts.unneeded (hcurve : curve.Lawful) (hsigns : curve.SignsOnly) {std : BoxSort}
    {reported : Ripemd160 → Ripemd160 × Int64} {i : TxMakeP2pkhInput} {ts : UInt64} {t t' : Tx}
    {accounts : List InputAccount} {sci sco : Sigcode} {fee : Int64}
    (h : w.NodeAccepts (w.reportedAccounts reported) fee t')
    (hprepared : Prepared (sources std (w.reportedAccounts reported)) i ts t accounts)
    (hlength : accounts.length = t.inputs.length)
    (hsigned : Signed w accounts (combine sci.code sco.code) t t')
    (hthis : ¬ (sci ≠ .this ∧ sco ≠ .this)) (n : ℕ) (e : Ripemd160 × Account)
    (he : (sources std (w.reportedAccounts reported))[n + 1]? = some e)
    (hp2pkh : e.2.lockingProgram = P2pkh.lockingProgramHash) :
    i.amount.toInt + i.fee.toInt ≤
      boxes ((sources std (w.reportedAccounts reported)).take (n + 1)) := by
  by_contra hneeded
  have hn := (hprepared.lt_length_iff (n + 1)).mpr (not_le.mp hneeded)
  have ha := List.getElem?_eq_getElem hn
  obtain rfl := Option.some.inj (he.symm.trans (hprepared.source _ _ ha))
  have hlookup := mem_sources.mp (List.mem_of_getElem? he)
  have hkey := (lookup_reportedAccounts hlookup).1
  obtain ⟨input, hinput, haddress, hunlocked⟩ := hprepared.unlocked_iff hcurve hsigns
    (nodup_sources std _) hsigned hlength ha hp2pkh hkey
  have hcheck := h.unlocked (n + 1) input _ hinput (haddress ▸ hlookup) hp2pkh (haddress ▸ hkey)
  obtain hnot | hzero := hunlocked.mp hcheck
  · exact hthis hnot
  · omega

/-- **When a node accepts what the wallet makes.** The transaction is read
exactly when the hundred accounts with the least in them have the amount and the
fee, and its inputs are unlocked exactly when no sigcode is `this`, or none but
the first of the accounts that are needed is locked by a key. -/
theorem nodeAccepts_iff (hcurve : curve.Lawful) (hsigns : curve.SignsOnly) (std : BoxSort)
    {reported : Ripemd160 → Ripemd160 × Int64} {reply : String} {i : TxMakeP2pkhInput}
    (hamount : 0 < i.amount.toInt) (hfee : 0 < i.fee.toInt) {ts : UInt64} {t : Tx}
    (h : w.txMakeP2pkh std (.ok reported) reply i ts = some (.ok t)) :
    w.NodeAccepts (w.reportedAccounts reported) i.fee t ↔
      i.amount.toInt + i.fee.toInt ≤
          boxes ((sources std (w.reportedAccounts reported)).take 100) ∧
        ((i.sigcodeInputs ≠ .this ∧ i.sigcodeOutputs ≠ .this) ∨
          ∀ (n : ℕ) (e : Ripemd160 × Account),
            (sources std (w.reportedAccounts reported))[n + 1]? = some e →
            e.2.lockingProgram = P2pkh.lockingProgramHash →
            i.amount.toInt + i.fee.toInt ≤
              boxes ((sources std (w.reportedAccounts reported)).take (n + 1))) := by
  obtain ⟨unsigned, accounts, hprepared, hlength, hsigned⟩ :=
    prepared_of_txMakeP2pkh hamount hfee h
  have hnodup := nodup_sources std (w.reportedAccounts reported)
  set src := sources std (w.reportedAccounts reported)
  have hsame := hsigned.sameContent hlength
  have hcount : t.inputs.length = accounts.length := hsigned.length.trans hlength.symm
  constructor
  · intro haccepts
    have hfew := hprepared.lt_length_iff 100
    have hread := length_inputs_of_read (Tx.fromB58_toB58 t ▸ haccepts.decoded)
    refine ⟨by omega, ?_⟩
    by_cases hthis : i.sigcodeInputs ≠ .this ∧ i.sigcodeOutputs ≠ .this
    · exact Or.inl hthis
    · exact Or.inr (haccepts.unneeded hcurve hsigns hprepared hlength hsigned hthis)
  · rintro ⟨hfew, halone⟩
    have hlt := hprepared.lt_length_iff 100
    refine ⟨?_, ?_, fun n input a hinput hlookup hp2pkh hkey => ?_⟩
    · rw [Tx.fromB58_toB58]
      have houtputs : t.outputs.length ≤ 100 := by
        rw [hsigned.outputs, hprepared.eq_unsigned, unsignedTx, List.length_singleton]
        norm_num
      exact Tx.Encodable.read_write ⟨by omega, houtputs, hsigned.encodable hlength⟩
    · rw [← hprepared.check, check_congr hsame]
    · have hn : n < accounts.length := by
        rw [← hcount]
        exact (List.getElem?_eq_some_iff.mp hinput).1
      have ha := List.getElem?_eq_getElem hn
      have hsource := hprepared.source n _ ha
      -- the account that was reported is the one that was selected
      have hselected := mem_sources.mp (List.mem_of_getElem? hsource)
      have haddress : accounts[n].address = input.address := by
        obtain ⟨data, -, hdata⟩ := hsigned.input n _ _
          (List.getElem?_eq_getElem (hlength ▸ hn)) ha
        obtain rfl := Option.some.inj (hinput.symm.trans hdata)
        obtain rfl := hprepared.eq_unsigned
        simp [unsignedTx]
      have haccount : accounts[n].toAccount = a := by
        rw [← haddress] at hlookup
        exact Option.some.inj (hselected.symm.trans hlookup)
      have hprogram : accounts[n].lockingProgram = P2pkh.lockingProgramHash := haccount ▸ hp2pkh
      obtain ⟨input', hinput', -, hunlocked⟩ := hprepared.unlocked_iff hcurve hsigns hnodup
        hsigned hlength ha hprogram (haddress ▸ hkey)
      obtain rfl := Option.some.inj (hinput.symm.trans hinput')
      apply hunlocked.mpr
      obtain hnot | hunneeded := halone
      · exact Or.inl hnot
      · right
        by_contra hzero
        obtain ⟨m, rfl⟩ := Nat.exists_eq_succ_of_ne_zero hzero
        have hle := hunneeded m _ hsource hprogram
        have := (hprepared.lt_length_iff (m + 1)).mp hn
        omega

/-! ## Two accounts -/

/-- A hash that shows the first byte. -/
def ripemdHead (bytes : List UInt8) : Ripemd160 := Ripemd160.set (bytes.headD 0).toUInt32

/-- A wallet with two keys. -/
def twoKeys : Wallet Curve.ofTwoKeys ripemdHead where
  keys := (Finmap.singleton (Ripemd160.set 2) true).insert (Ripemd160.set 3) false
  address_eq address k h := by
    obtain rfl | hmem := Finmap.mem_insert.mp (Finmap.mem_of_lookup_eq_some h)
    · rw [Finmap.lookup_insert] at h
      obtain rfl := Option.some.inj h
      rfl
    · obtain rfl := (Finmap.mem_singleton _ _ _).mp hmem
      rw [Finmap.lookup_insert_of_ne _ (by decide), Finmap.lookup_singleton_eq] at h
      obtain rfl := Option.some.inj h
      rfl

/-- Five in every account, for the owner of a key. -/
def fiveEach (_ : Ripemd160) : Ripemd160 × Int64 := (P2pkh.lockingProgramHash, 5)

/-- A payment of 7 with a fee of 1. -/
def payEight (sigcodeInputs : Sigcode) : TxMakeP2pkhInput where
  rcptAddr := Ripemd160.set 9
  amount := 7
  fee := 1
  sigcodeInputs := sigcodeInputs
  sigcodeOutputs := .all
  sendover := true

/-- It is made, whatever the sigcode of the inputs. -/
theorem exists_payEight (sigcodeInputs : Sigcode) :
    ∃ t, twoKeys.txMakeP2pkh insertionSort (.ok fiveEach) "" (payEight sigcodeInputs) 1 =
      some (.ok t) := by
  have hmade : (twoKeys.txMakeP2pkh insertionSort (.ok fiveEach) "" (payEight sigcodeInputs)
      1).elim false Except.toBool = true := by
    cases sigcodeInputs <;> decide +kernel
  cases hresult :
      twoKeys.txMakeP2pkh insertionSort (.ok fiveEach) "" (payEight sigcodeInputs) 1 with
  | none => simp [hresult] at hmade
  | some r =>
    cases r with
    | error e => simp [hresult, Except.toBool] at hmade
    | ok t => exact ⟨t, rfl⟩

/-- With the sigcode `all` a node takes it: two accounts are needed, and that is
within the limit. -/
theorem nodeAccepts_iff_payEight :
    ∃ t, twoKeys.txMakeP2pkh insertionSort (.ok fiveEach) "" (payEight .all) 1 = some (.ok t) ∧
      twoKeys.NodeAccepts (twoKeys.reportedAccounts fiveEach) 1 t := by
  obtain ⟨t, ht⟩ := exists_payEight .all
  refine ⟨t, ht, (nodeAccepts_iff Curve.lawful_ofTwoKeys Curve.signsOnly_ofTwoKeys insertionSort
    (by decide) (by decide) ht).mpr ⟨?_, Or.inl (by decide)⟩⟩
  decide +kernel

/-- With the sigcode `this` the second account stays locked. -/
theorem payEight_not_accepted :
    ∃ t, twoKeys.txMakeP2pkh insertionSort (.ok fiveEach) "" (payEight .this) 1 = some (.ok t) ∧
      ¬ twoKeys.NodeAccepts (twoKeys.reportedAccounts fiveEach) 1 t := by
  obtain ⟨t, ht⟩ := exists_payEight .this
  refine ⟨t, ht, fun haccepts => ?_⟩
  obtain ⟨unsigned, accounts, hprepared, hlength, hsigned⟩ :=
    prepared_of_txMakeP2pkh (by decide) (by decide) ht
  have hsecond : (sources insertionSort (twoKeys.reportedAccounts fiveEach))[0 + 1]? =
      some (Ripemd160.set 3, ⟨P2pkh.lockingProgramHash, 5⟩) := by decide +kernel
  have hneeded := haccepts.unneeded Curve.lawful_ofTwoKeys Curve.signsOnly_ofTwoKeys hprepared
    hlength hsigned (by decide) 0 _ hsecond rfl
  revert hneeded
  decide +kernel

end AcCore.Wallet
