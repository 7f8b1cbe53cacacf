import AcCore.Gov.Engine.Evidence
import AcCore.Gov.Engine.RoundTrip
import AcCore.Gov.Engine.Sizes
import AcCore.Gov.Socket.Replies
import AcCore.Wallet.Payments

/-!
# The wallet asks a node

The wallet writes its addresses into a datagram, the node reads them and writes
the accounts that its ledger has of them, one after the other and without their
addresses, and the wallet reads these in the order in which it asked. What is in
the wallet after it is the part of the ledger that belongs to it.
-/

namespace AcCore.Gov.Cash

open Lib Engine

/-- `protocol::cash_query`. -/
def cashQueryService : UInt16 := ((700 + 2 : UInt16) <<< (2 : UInt16)) + 2

/-- `protocol::cash_response`. -/
def cashResponseService : UInt16 := ((700 + 3 : UInt16) <<< (2 : UInt16)) + 2

/-- `datagram(service,string)` with a text; `none` when its assertion fails. -/
def datagramOf (service : UInt16) (payload : Text) : Option Datagram :=
  if Socket.headerSize + payload.length < Socket.maxsize then some ⟨service, payload⟩ else none

/-- `account_t::to_stream`. -/
def Account.words (a : Account) : List Text := [a.lockingProgram.toB58, intText a.box]

/-- `account_t::from_stream`. -/
def extractAccount (s : Option Text) : Account × Option Text :=
  let (lockingProgram, s) := extractHash s
  let (box, s) := extractInt64 s
  (⟨lockingProgram, box.toInt⟩, s)

/-- The text that `query_accounts_t::get_datagram` writes. -/
def queryAccountsText (addresses : List Ripemd160) : Text :=
  unwords (natText addresses.length :: addresses.map Ripemd160.toB58)

/-- The account that `cash_query` writes for an address. -/
def Db.accountAt (db : Db) (address : Ripemd160) : Account :=
  (db.accounts.lookup address).getD ⟨Ripemd160.set 0, 0⟩

/-- What `cash_query` reports of an address. -/
def Db.report (db : Db) (address : Ripemd160) : Ripemd160 × Int64 :=
  ((db.accountAt address).lockingProgram, Int64.ofInt (db.accountAt address).box)

/-- The text that `cash_query` writes. -/
def App.cashResponseText (a : App) (tip : Ripemd160) (q : List Ripemd160) : Text :=
  unwords (['0'] :: q.flatMap fun address => (a.db.accountAt address).words) ++ ' ' :: tip.toB58

/-- `process_query`, with `cash_query`: `some none` when it returns false. -/
def App.processQuery (limit : ℕ) (a : App) (tip : Ripemd160) (d : Datagram) :
    Option (Option Datagram) :=
  if d.service = cashQueryService then do
    let q ← queryAccountsFromString limit d.parseString
    (datagramOf cashResponseService (a.cashResponseText tip q)).map some
  else some none

/-! ## The texts -/

/-- A printed hash is taken. -/
theorem takes_extractHash (v : Ripemd160) : Takes extractHash [v.toB58] v := by
  intro blanks hblanks s
  obtain ⟨blanks', hblanks', hword⟩ := takes_extract v.isWord_toB58 blanks hblanks s
  exact ⟨blanks', hblanks', by simp only [extractHash, hword, v.setB58_toB58]⟩

/-- A printed account is taken. -/
theorem takes_extractAccount {a : Account} (ha : -2 ^ 63 ≤ a.box ∧ a.box < 2 ^ 63) :
    Takes extractAccount a.words a := by
  intro blanks hblanks s
  obtain ⟨blanks', hblanks', hread⟩ := ((takes_extractHash a.lockingProgram).append
    (takes_extractInt64 ha.1 ha.2)) blanks hblanks s
  refine ⟨blanks', hblanks', ?_⟩
  simp only [List.singleton_append, Prod.mk.injEq] at hread
  simp only [extractAccount, Account.words, hread, toInt_ofInt ha]

/-- The addresses are read as they were written. -/
theorem queryAccountsFromString_text {limit : ℕ} {addresses : List Ripemd160}
    (hlimit : addresses.length ≤ limit) (hfits : addresses.length < 2 ^ 31) :
    queryAccountsFromString limit (queryAccountsText addresses) = some addresses := by
  obtain ⟨s₁, hcount, hs₁⟩ := Gives.extractInt (gives_unwords _) hfits none
  have hreserve : reserve limit addresses.length = some () := by
    rw [reserve, Int.emod_eq_of_lt (by omega) (by omega), Int.toNat_natCast, if_pos hlimit]
  have heach : ∀ v ∈ addresses, Reads extractHash [v.toB58] (id v) := fun v _ =>
    reads_extractHash v
  have hwords : addresses.flatMap (fun v => [v.toB58]) = addresses.map Ripemd160.toB58 :=
    List.map_eq_flatMap.symm
  obtain ⟨s₂, hmany, -⟩ := reads_extractMany heach [] s₁ (by rwa [hwords, List.append_nil])
  rw [List.map_id] at hmany
  simp only [queryAccountsFromString, queryAccountsText, hcount, Option.bind_eq_bind,
    Option.bind_some, hreserve, Int.toNat_natCast, hmany, Option.pure_def]

/-- A printed account has at most 50 characters. -/
theorem length_words_le {a : Account} (ha : -2 ^ 63 ≤ a.box ∧ a.box < 2 ^ 63) :
    (unwords a.words).length ≤ 50 := by
  have hprogram := a.lockingProgram.length_toB58_le
  have hbox := length_intText_le ha
  rw [length_unwords]
  simp only [Account.words, List.map_cons, List.map_nil, List.sum_cons, List.sum_nil]
  omega

/-- A text with as many entries of a bounded length. -/
theorem length_unwords_flatMap_le {α : Type} {f : α → List Text} {xs : List α} {k : ℕ}
    (h : ∀ x ∈ xs, (unwords (f x)).length ≤ k) :
    (unwords (xs.flatMap f)).length ≤ xs.length * k := by
  rw [length_unwords_flatMap, ← smul_eq_mul, ← List.length_map fun x => (unwords (f x)).length]
  refine List.sum_le_card_nsmul _ k fun n hn => ?_
  obtain ⟨x, hx, rfl⟩ := List.mem_map.mp hn
  exact h x hx

/-! ## The datagrams -/

/-- A text that base 58 keeps is the payload of its datagram. -/
theorem parseString_of_plain {service : UInt16} {payload : Text} (h : Plain payload) :
    (⟨service, payload⟩ : Datagram).parseString = payload := by
  refine List.takeWhile_eq_self_iff.mpr fun c hc => ?_
  simpa using (h c hc).2

/-- The text of a query has no character that a stream would alter. -/
theorem plain_queryAccountsText (addresses : List Ripemd160) :
    Plain (queryAccountsText addresses) := by
  refine plain_unwords fun w hw => ?_
  rcases List.mem_cons.mp hw with rfl | hw
  · exact plain_natText _
  · obtain ⟨v, -, rfl⟩ := List.mem_map.mp hw
    exact plain_encode v.bytes

/-- The text of a reply has no character that a stream would alter. -/
theorem plain_cashResponseText (a : App) (tip : Ripemd160) (q : List Ripemd160) :
    Plain (a.cashResponseText tip q) := by
  have hwords : Plain (unwords (['0'] :: q.flatMap fun address =>
      (a.db.accountAt address).words)) := by
    refine plain_unwords fun w hw => ?_
    rcases List.mem_cons.mp hw with rfl | hw
    · exact plain_natText 0
    · obtain ⟨v, -, hw⟩ := List.mem_flatMap.mp hw
      simp only [Account.words, List.mem_cons, List.not_mem_nil, or_false] at hw
      rcases hw with rfl | rfl
      · exact plain_encode _
      · exact plain_intText _
  intro c hc
  rcases List.mem_append.mp hc with hc | hc
  · exact hwords c hc
  · rcases List.mem_cons.mp hc with rfl | hc
    · decide
    · exact plain_encode tip.bytes c hc

/-- The boxes of the ledger have 64 bits. -/
def Db.Boxed (db : Db) : Prop :=
  ∀ x a, db.accounts.lookup x = some a → -2 ^ 63 ≤ a.box ∧ a.box < 2 ^ 63

/-- The boxes that a ledger reports fit in `int64_t`. -/
theorem Db.Boxed.accountAt {db : Db} (h : db.Boxed) (x : Ripemd160) :
    -2 ^ 63 ≤ (db.accountAt x).box ∧ (db.accountAt x).box < 2 ^ 63 := by
  unfold Db.accountAt
  cases ha : db.accounts.lookup x with
  | none => norm_num
  | some a => exact h x a ha

/-- The greatest number of addresses whose accounts are sure to fit into a datagram. -/
def maxAddresses : ℕ := 1999

/-- A query of few addresses fits in a datagram. -/
theorem length_queryAccountsText_lt {addresses : List Ripemd160}
    (h : addresses.length ≤ maxAddresses) :
    Socket.headerSize + (queryAccountsText addresses).length < Socket.maxsize := by
  unfold maxAddresses at h
  have hcount : (natText addresses.length).length ≤ 4 :=
    (Nat.length_toDigits_le_iff (by norm_num) (by norm_num)).mpr (by omega)
  have heach : (unwords (addresses.map Ripemd160.toB58)).length ≤ addresses.length * 29 := by
    rw [List.map_eq_flatMap]
    refine length_unwords_flatMap_le fun v _ => ?_
    have hword := v.length_toB58_le
    rw [unwords_cons, unwords_nil, List.length_append, List.length_singleton]
    omega
  have hmany := Nat.mul_le_mul_right 29 h
  rw [queryAccountsText, length_unwords_cons]
  simp only [Socket.headerSize, Socket.maxsize]
  omega

/-- The reply to a query of few addresses fits in a datagram. -/
theorem length_cashResponseText_lt {a : App} (ha : a.db.Boxed) (tip : Ripemd160)
    {q : List Ripemd160} (h : q.length ≤ maxAddresses) :
    Socket.headerSize + (a.cashResponseText tip q).length < Socket.maxsize := by
  unfold maxAddresses at h
  have heach : (unwords (q.flatMap fun x => (a.db.accountAt x).words)).length ≤ q.length * 50 :=
    length_unwords_flatMap_le fun x _ => length_words_le (ha.accountAt x)
  have hmany := Nat.mul_le_mul_right 50 h
  have htip := tip.length_toB58_le
  rw [App.cashResponseText, List.length_append, length_unwords_cons, List.length_cons]
  simp only [Socket.headerSize, Socket.maxsize, List.length_cons, List.length_nil]
  omega

/-- A node answers a query that is not too long. -/
theorem processQuery_text {limit : ℕ} {a : App} (ha : a.db.Boxed) (tip : Ripemd160)
    {addresses : List Ripemd160} (hlimit : addresses.length ≤ limit)
    (hmany : addresses.length ≤ maxAddresses) :
    a.processQuery limit tip ⟨cashQueryService, queryAccountsText addresses⟩ =
      some (some ⟨cashResponseService, a.cashResponseText tip addresses⟩) := by
  have hfits : addresses.length < 2 ^ 31 := lt_of_le_of_lt hmany (by decide)
  rw [App.processQuery, if_pos rfl, parseString_of_plain (plain_queryAccountsText addresses),
    queryAccountsFromString_text hlimit hfits]
  simp only [Option.bind_eq_bind, Option.bind_some, datagramOf,
    if_pos (length_cashResponseText_lt ha tip hmany), Option.map_some]

end AcCore.Gov.Cash

namespace AcCore.Wallet

open Lib Gov Gov.Cash Gov.Engine

variable {PrivKey PubKey : Type} {curve : Curve PrivKey PubKey}
  {ripemd : List UInt8 → Ripemd160}

/-- `query_accounts`, from the text of the answer; `none` when the result depends
on a code that is not initialised. -/
def readAccounts (addresses : List Ripemd160) (answer : Text) : Option (Except Text Accounts) := do
  let (code, s) ← extractInt none (some answer)
  if code ≠ 0 then return .error ("Error. Backend reported: ".toList ++ (extract s).1)
  else
    return .ok (emplaced ((addresses.zip (extractMany extractAccount addresses.length s).1).filter
      fun e => e.2.box > 0))

/-- `query_accounts`, over a connection that makes an answer or an error of what is
sent; `none` when the datagram is too long. -/
def askAccounts (exchange : Datagram → Except Text Datagram) (addresses : List Ripemd160) :
    Option (Except Text Accounts) :=
  if addresses = [] then some (.error "Error. Wallet contains no addresses.".toList)
  else do
    let d ← datagramOf cashQueryService (queryAccountsText addresses)
    match exchange d with
    | .error e => return .error e
    | .ok r =>
      if r.service = Socket.govSocketError then return .error r.parseString
      else readAccounts addresses r.parseString

/-- `balance`. -/
def balance (data : Accounts) : ℤ :=
  (Table.toList data).foldl (fun b e => wrapInt64 (b + e.2.box)) 0

/-- A connection to a node, which is lost when there is no answer. -/
def connection (limit : ℕ) (a : App) (tip : Ripemd160) (lost : Text) (d : Datagram) :
    Except Text Datagram :=
  match a.processQuery limit tip d with
  | some (some r) => .ok r
  | _ => .error lost

/-! ## The answer -/

/-- The part of the accounts that is at the addresses, and not empty. -/
theorem lookup_emplaced_zip {accounts : Ripemd160 → Account} (addresses : List Ripemd160)
    (x : Ripemd160) :
    (emplaced ((addresses.zip (addresses.map accounts)).filter fun e => e.2.box > 0)).lookup x =
      if x ∈ addresses ∧ 0 < (accounts x).box then some (accounts x) else none := by
  have hzip : addresses.zip (addresses.map accounts) = addresses.map fun x => (x, accounts x) := by
    have hself := List.zip_map' (f := id) (g := accounts) (l := addresses)
    rwa [List.map_id] at hself
  rw [lookup_emplaced, hzip]
  split_ifs with h
  · -- the entry is there, and no other has its address
    cases hfind : List.find? (fun e => decide (e.1 = x)) (List.filter
        (fun e => decide (e.2.box > 0)) (addresses.map fun x => (x, accounts x))) with
    | none =>
      have hnone := List.find?_eq_none.mp hfind (x, accounts x)
        (List.mem_filter.mpr ⟨List.mem_map_of_mem h.1, by simpa using h.2⟩)
      simp at hnone
    | some e =>
      have hkey : e.1 = x := by simpa using List.find?_some hfind
      obtain ⟨y, -, rfl⟩ := List.mem_map.mp (List.mem_filter.mp (List.mem_of_find?_eq_some hfind)).1
      obtain rfl : y = x := hkey
      rfl
  · rw [Option.map_eq_none_iff, List.find?_eq_none]
    rintro e he hkey
    obtain ⟨hmem, hbox⟩ := List.mem_filter.mp he
    obtain ⟨y, hy, rfl⟩ := List.mem_map.mp hmem
    obtain rfl : y = x := by simpa using hkey
    exact h ⟨hy, by simpa using hbox⟩

/-- The answer is read as the accounts that were written. -/
theorem readAccounts_cashResponseText {a : App} (ha : a.db.Boxed) (tip : Ripemd160)
    (addresses : List Ripemd160) :
    readAccounts addresses (a.cashResponseText tip addresses) =
      some (.ok (emplaced ((addresses.zip (addresses.map a.db.accountAt)).filter
        fun e => e.2.box > 0))) := by
  have hnone : ∀ c ∈ ([] : Text), isSpace c = true := by simp
  have hzero : 0 < 2 ^ 31 := by norm_num
  have hcount := extractInt_word hzero hnone
    ((unwords (addresses.flatMap fun x => (a.db.accountAt x).words)) ++ ' ' :: tip.toB58) none
  have hblank : ∀ c ∈ [' '], isSpace c = true := by simp [isSpace]
  obtain ⟨blanks, -, hmany⟩ := takes_extractMany
    (fun x _ => takes_extractAccount (ha.accountAt x)) [' '] hblank (' ' :: tip.toB58)
  have htext : a.cashResponseText tip addresses = [] ++ (natText 0 ++ ' ' ::
      (unwords (addresses.flatMap fun x => (a.db.accountAt x).words) ++ ' ' :: tip.toB58)) := by
    rw [App.cashResponseText, unwords_cons]
    rfl
  rw [readAccounts, htext, hcount]
  simp only [Option.bind_eq_bind, Option.bind_some, Nat.cast_zero, ne_eq, not_true_eq_false,
    if_false, Option.pure_def]
  rw [List.singleton_append] at hmany
  rw [hmany]

/-- What is asked of a node is answered, and the answer is read. -/
theorem askAccounts_connection {limit : ℕ} {a : App} (ha : a.db.Boxed) (tip : Ripemd160)
    (lost : Text) {addresses : List Ripemd160} (hne : addresses ≠ [])
    (hlimit : addresses.length ≤ limit) (hmany : addresses.length ≤ maxAddresses) :
    askAccounts (connection limit a tip lost) addresses =
      some (.ok (emplaced ((addresses.zip (addresses.map a.db.accountAt)).filter
        fun e => e.2.box > 0))) := by
  have hservice : ¬ cashResponseService = Socket.govSocketError := by decide
  simp only [askAccounts, if_neg hne, datagramOf, if_pos (length_queryAccountsText_lt hmany),
    Option.bind_eq_bind, Option.bind_some, connection, processQuery_text ha tip hlimit hmany,
    if_neg hservice, parseString_of_plain (plain_cashResponseText a tip addresses),
    readAccounts_cashResponseText ha]

/-- What is read is the same for all lists of the same addresses. -/
theorem reportedAccounts_eq {w : Wallet curve ripemd} {db : Db} (hdb : db.Boxed)
    {addresses : List Ripemd160} (hkeys : ∀ x, x ∈ addresses ↔ x ∈ w.keys) :
    emplaced ((addresses.zip (addresses.map db.accountAt)).filter fun e => e.2.box > 0) =
      w.reportedAccounts db.report := by
  refine Finmap.ext_lookup fun x => ?_
  have hbox : ∀ x, (db.report x).2.toInt = (db.accountAt x).box := fun x =>
    toInt_ofInt (hdb.accountAt x)
  have hreport : ∀ x, (⟨(db.report x).1, (db.accountAt x).box⟩ : Account) = db.accountAt x :=
    fun _ => rfl
  have hlisted : w.reportedAccounts db.report =
      emplaced (((Table.keyList w.keys).zip ((Table.keyList w.keys).map db.accountAt)).filter
        fun e => e.2.box > 0) := by
    rw [reportedAccounts]
    congr 1
    induction Table.keyList w.keys with
    | nil => rfl
    | cons y ys ih =>
      simp only [hbox, hreport] at ih ⊢
      rw [List.filterMap_cons, List.map_cons, List.zip_cons_cons, List.filter_cons, ih]
      by_cases hpos : (db.accountAt y).box > 0
      · simp only [hpos, decide_true, if_true]
      · simp only [hpos, decide_false, Bool.false_eq_true, if_false]
  simp only [hlisted, lookup_emplaced_zip, hkeys, Table.mem_keyList]

/-- What a wallet has of the ledger. -/
theorem lookup_reportedAccounts_report {w : Wallet curve ripemd} {db : Db} (hdb : db.Boxed)
    (x : Ripemd160) :
    (w.reportedAccounts db.report).lookup x =
      if x ∈ w.keys then (db.accounts.lookup x).filter fun a => 0 < a.box else none := by
  have hkeys : ∀ y, y ∈ Table.keyList w.keys ↔ y ∈ w.keys := fun _ => Table.mem_keyList
  rw [← reportedAccounts_eq hdb hkeys, lookup_emplaced_zip]
  simp only [Table.mem_keyList]
  by_cases hx : x ∈ w.keys
  · cases ha : db.accounts.lookup x with
    | none => simp [Db.accountAt, ha]
    | some a => simp [Db.accountAt, ha, hx, Option.filter_some]
  · simp [hx]

/-- The balance is the sum of the boxes, in words of 64 bits. -/
theorem balance_eq (data : Accounts) : balance data = wrapInt64 (boxes (Table.toList data)) := by
  have hfold : ∀ (es : List (Ripemd160 × Account)) (start : ℤ),
      es.foldl (fun b e => wrapInt64 (b + e.2.box)) (wrapInt64 start) =
        wrapInt64 (start + boxes es) := by
    intro es
    induction es with
    | nil => simp
    | cons e es ih =>
      intro start
      rw [List.foldl_cons, wraps_wrapInt64.add, ih, boxes_cons, add_assoc]
  have hsum := hfold (Table.toList data) 0
  rwa [wraps_wrapInt64.zero, zero_add] at hsum

/-- **The wallet sees its part of the ledger.** Whatever the ledger of the node and the
order in which the wallet lists its addresses, as long as these are few enough for a
datagram the query is answered, and what the wallet keeps of the answer is, for each
of its addresses, the account in the ledger if there is something in it, and nothing
else. -/
theorem query_round_trip {w : Wallet curve ripemd} {a : App} (ha : a.db.Boxed) {limit : ℕ}
    (tip : Ripemd160) (lost : Text) {addresses : List Ripemd160}
    (hkeys : ∀ x, x ∈ addresses ↔ x ∈ w.keys) (hne : addresses ≠ [])
    (hlimit : addresses.length ≤ limit) (hmany : addresses.length ≤ maxAddresses) :
    ∃ data, askAccounts (connection limit a tip lost) addresses = some (.ok data) ∧
      w.queryAccounts (.ok a.db.report) = .ok data ∧
      balance data = wrapInt64 (boxes (Table.toList data)) ∧
      ∀ x, data.lookup x =
        if x ∈ w.keys then (a.db.accounts.lookup x).filter fun acc => 0 < acc.box else none := by
  refine ⟨w.reportedAccounts a.db.report, ?_, ?_, balance_eq _,
    lookup_reportedAccounts_report ha⟩
  · rw [askAccounts_connection ha tip lost hne hlimit hmany, reportedAccounts_eq ha hkeys]
  · have hsome : Table.keyList w.keys ≠ [] := by
      intro hnil
      obtain ⟨x, hx⟩ := List.exists_mem_of_ne_nil addresses hne
      have hlisted := Table.mem_keyList.mpr ((hkeys x).mp hx)
      rw [hnil] at hlisted
      cases hlisted
    rw [queryAccounts, if_neg hsome]
    rfl

/-- A ledger with five at one address of the wallet with two keys, and ten that
belong to somebody else. -/
def fiveAndTen : App :=
  ⟨⟨(Finmap.singleton (Ripemd160.set 2) ⟨P2pkh.lockingProgramHash, 5⟩).insert (Ripemd160.set 9)
      ⟨P2pkh.lockingProgramHash, 10⟩, 0, 0⟩, LocalDelta.create, tempLoad, tempLoad⟩

/-- The boxes of the sample ledger fit. -/
theorem boxed_fiveAndTen : fiveAndTen.db.Boxed := by
  intro x acc hacc
  have hmem : x = Ripemd160.set 9 ∨ x = Ripemd160.set 2 :=
    (Finmap.mem_insert.mp (Finmap.mem_of_lookup_eq_some hacc)).imp_right
      (Finmap.mem_singleton _ _ _).mp
  rcases hmem with rfl | rfl
  · have hten : fiveAndTen.db.accounts.lookup (Ripemd160.set 9) =
        some ⟨P2pkh.lockingProgramHash, 10⟩ := by decide +kernel
    obtain rfl := Option.some.inj (hacc.symm.trans hten)
    norm_num
  · have hfive : fiveAndTen.db.accounts.lookup (Ripemd160.set 2) =
        some ⟨P2pkh.lockingProgramHash, 5⟩ := by decide +kernel
    obtain rfl := Option.some.inj (hacc.symm.trans hfive)
    norm_num

/-- Two keys asked of a ledger that has one of them. -/
theorem query_round_trip_fiveAndTen :
    ∃ data, askAccounts (connection 2 fiveAndTen Ripemd160.zero []) [Ripemd160.set 3,
        Ripemd160.set 2] = some (.ok data) ∧
      twoKeys.queryAccounts (.ok fiveAndTen.db.report) = .ok data ∧
      balance data = wrapInt64 (boxes (Table.toList data)) ∧
      ∀ x, data.lookup x = if x ∈ twoKeys.keys then
        (fiveAndTen.db.accounts.lookup x).filter fun acc => 0 < acc.box else none := by
  refine query_round_trip boxed_fiveAndTen Ripemd160.zero [] (fun x => ?_) (by decide) (by decide)
    (by decide)
  have hkeys : x ∈ twoKeys.keys ↔ x = Ripemd160.set 3 ∨ x = Ripemd160.set 2 := by
    rw [twoKeys, Finmap.mem_insert, Finmap.mem_singleton]
  rw [hkeys]
  simp

end AcCore.Wallet
