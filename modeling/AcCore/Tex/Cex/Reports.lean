import AcCore.Tex.Cex.Amounts
import AcCore.Tex.Cex.Failures
import AcCore.Tex.Cex.Numerals

/-!
# Orders as they are reported

An order is reported with an amount in the currency that was traded: what was
bought is reported in the currency that is received, at the rate of the order. An
update reads such an amount as the value of the order, in the currency that is
paid, unless the rate changes too.
-/

namespace AcCore.Tex.Cex

open Lib

/-! ## The text of an amount -/

/-- What is decoded is extracted as the decimal fraction that it is. -/
theorem extractDouble_decode {v : ℤ} (hv : 0 ≤ v) (d : ℚ) :
    extractDouble (decode v) d = v / 10 ^ precision := by
  obtain ⟨whole, fraction, htext, hleading, hwhole, hfraction, hlength, hvalue⟩ := decode_eq hv
  obtain ⟨c, rest, rfl⟩ := List.exists_cons_of_ne_nil (ne_nil_of_leading hleading)
  have hc : c.isDigit = true := hwhole c List.mem_cons_self
  have hskip : (decode v).dropWhile isSpace = c :: (rest ++ '.' :: fraction) := by
    rw [htext, List.cons_append, List.dropWhile_cons, isSpace_of_isDigit hc]
    rfl
  obtain ⟨htake, hdrop⟩ := @takeWhile_digits _ ('.' :: fraction) hwhole (by simp)
  obtain ⟨hftake, hfdrop⟩ := @takeWhile_digits _ [] hfraction (by simp)
  rw [List.append_nil] at hftake hfdrop
  rw [List.cons_append] at htake hdrop
  have hcast : (Nat.ofDigitChars 10 (c :: (rest ++ fraction)) 0 : ℚ) = v := by
    rw [← hvalue]
    rfl
  simp only [extractDouble, hskip, splitSign_digit hc, htake, hdrop, List.head?_cons, if_true,
    List.tail_cons, hftake, hfdrop, List.cons_append, hcast, hlength, exponent, Option.getD_some,
    mul_one]
  simp

/-! ## Reports -/

/-- What `report` prints of an order. -/
structure OrderLine where
  orderId : Text
  code : Text
  amount : Text
  cur : Text
  rate : Text
  rateunits : Text
  deriving DecidableEq, Repr

/-- The input that updates an order as it is reported. -/
def OrderLine.toUpdate (l : OrderLine) : UpdateInput := ⟨l.orderId, l.amount, l.rate⟩

namespace Order

/-- The amount of `report`: the value, or what it comes to in the currency that
is received for it. -/
def reported (o : Order) : Option ℤ :=
  if o.buy then toBack o.weak o.rate o.value else some o.value

/-- `report`. -/
def report (o : Order) : Option OrderLine := do
  let v ← o.reported
  let cur ← curstr (if o.buy then o.receivedCur else o.paidCur)
  let weak ← curstr o.weakCur
  let strong ← curstr o.strongCur
  return ⟨natText o.id, if o.buy then ['B'] else ['S'], decode v, cur, decode o.rate,
    weak ++ '/' :: strong⟩

/-- The numbers of a report are of the types that the code has for them. -/
structure Fits (o : Order) : Prop where
  id : o.id < 2 ^ 64
  rate : o.rate < 2 ^ 63
  amount : ∀ v ∈ o.reported, v < 2 ^ 63

/-- What is lost when the value is converted for the report and back. -/
def lost (o : Order) : ℤ :=
  if o.buy then o.value - (o.reported.bind (toLay o.weak o.rate)).getD 0 else 0

variable {o : Order} {l : OrderLine}

/-- What an order loses by the conversions is not negative. -/
theorem lost_nonneg (hvalue : 0 ≤ o.value) (hrate : 0 < o.rate) : 0 ≤ o.lost := by
  unfold lost
  split_ifs with hbuy
  · rw [reported, if_pos hbuy]
    cases hback : (toBack o.weak o.rate o.value).bind (toLay o.weak o.rate) with
    | none => simpa using hvalue
    | some c =>
      obtain ⟨v, hv, hc⟩ := Option.bind_eq_some_iff.mp hback
      have hnonneg := toBack_nonneg hvalue hrate hv
      -- the conversions of one side are those of the other in the other order
      have hle : c ≤ o.value := by
        cases hweak : o.weak <;> rw [hweak] at hv hc
        · exact @gainless_exact true _ o.value hrate _ hvalue le_rfl _ hv _ hnonneg le_rfl c hc
        · exact @gainless_exact false _ o.value hrate _ hvalue le_rfl _ hv _ hnonneg le_rfl c hc
      rw [Option.getD_some]
      omega
  · exact le_rfl

/-- The reported amount is not negative. -/
theorem reported_nonneg (hvalue : 0 ≤ o.value) (hrate : 0 < o.rate) {v : ℤ}
    (hv : o.reported = some v) : 0 ≤ v := by
  unfold reported at hv
  split_ifs at hv
  · exact toBack_nonneg hvalue hrate hv
  · exact Option.some.inj hv ▸ hvalue

/-- What is reported is read back. -/
theorem parse_report (hid : 1 ≤ o.id) (hvalue : 0 ≤ o.value) (hrate : 0 < o.rate) (hfits : o.Fits)
    (h : o.report = some l) :
    ∃ v, o.reported = some v ∧ 0 ≤ v ∧ l.toUpdate.parse = .ok (o.id, v, o.rate) := by
  simp only [report, Option.bind_eq_bind, Option.bind_eq_some_iff] at h
  obtain ⟨v, hv, cur, -, weak, -, strong, -, h⟩ := h
  obtain rfl := Option.some.inj h
  have hnonneg := reported_nonneg hvalue hrate hv
  refine ⟨v, hv, hnonneg, ?_⟩
  have hamount : ¬extractDouble (decode v) (-1) < 0 := by
    rw [extractDouble_decode hnonneg, not_lt]
    positivity
  have hprice : extractDouble (decode o.rate) (-1) ≠ -1 := by
    rw [extractDouble_decode hrate.le]
    have hpos : (0 : ℚ) ≤ o.rate / 10 ^ precision := by positivity
    intro hneg
    rw [hneg] at hpos
    exact absurd hpos (by decide)
  simp only [OrderLine.toUpdate, UpdateInput.parse, extractUInt64_natText hfits.id,
    if_neg (Nat.one_le_iff_ne_zero.mp hid), if_neg hamount, if_neg hprice,
    encode_decode hnonneg (hfits.amount v hv), encode_decode hrate.le hfits.rate]
  rfl

end Order

/-- The two currencies of a place are different. -/
theorem Market.Ok.cur_ne {p : OrderPool} {m : Market} {s : Place} (hm : m.Ok p)
    (hs : s ∈ m.listing) : s.cur ≠ s.otherCur := by
  have hplace := (mem_listing hs).2
  have hweak : s.weakCur = m.weakCurrency := congrArg Place.weakCur hplace
  have hstrong : s.strongCur = m.strongCurrency := congrArg Place.strongCur hplace
  rw [Place.cur, Place.otherCur, hweak, hstrong]
  cases s.weak with
  | true => exact hm.ne
  | false => exact hm.ne.symm

namespace Engine

variable {e e' : Engine} {s : Place} {acid i : Id} {amount : ℤ} {o : Order} {fuel : ℕ}
  {hash : Text → UInt64}

/-! ## The numbers of orders -/

/-- The ids of orders are counted from 1. -/
structure Numbered (e : Engine) : Prop extends e.Registered where
  next : 1 ≤ e.pool.next
  ids : ∀ i ∈ e.listing.map Place.id, 1 ≤ i

/-- Orders stay numbered when only the next id is added. -/
theorem Numbered.moved {cut : Id → ℤ} {gone : List Place} {made : Option (Place × Order)}
    (he : e.Numbered) (hsolvent : e'.Solvent) (h : Moved e e' cut gone made) : e'.Numbered where
  toRegistered := he.toRegistered.moved hsolvent h
  next := he.next.trans h.next
  ids i hi := by
    obtain ⟨hi | ⟨so, hso, rfl⟩, -⟩ := (h.rests he.toMarketsOk i).mp hi
    · exact he.ids i hi
    · rw [(h.new so hso).1]
      exact he.next

/-- What leaves the books alone keeps the orders numbered. -/
theorem Numbered.aside (he : e.Numbered) (hsolvent : e'.Solvent) (h : Aside e e') :
    e'.Numbered where
  toRegistered := he.toRegistered.aside hsolvent h
  next := by
    rw [h.pool]
    exact he.next
  ids i hi := he.ids i (h.listing ▸ hi)

/-- Every step of an operation keeps the orders numbered. -/
theorem Numbered.preserved (G : Guards) (fuel : ℕ) (acid : Id) :
    Preserved G fuel acid Numbered := by
  refine Preserved.of_moved G fuel acid (fun he => he.toSolvent) Numbered.moved ?_ Numbered.aside
  intro e e' m weak buy priLow charge cid w rate amount y gone he hsolvent hfailed
  refine ⟨⟨hsolvent, fun i hi => ?_⟩, ?_, fun i hi => he.ids i (hfailed.rested hi)⟩
  · rw [hfailed.orders]
    exact he.orders i (hfailed.rested hi)
  · rw [hfailed.pool, OrderPool.next_fill]
    exact he.next

/-- In every engine that operations reach the orders are numbered. -/
theorem numbered_of_run {ops : List Op}
    (h : run (Engine.step hash fuel) (Engine.init hash) ops = some e) : e.Numbered :=
  Preserved.of_run (fun acid _ => Numbered.preserved _ fuel acid) (fun he => he.toSolvent)
    Numbered.aside ⟨⟨Solvent.init hash, fun _ hi => nomatch hi⟩, le_rfl, fun _ hi => nomatch hi⟩ h

/-! ## Updates with what is reported -/

/-- What an update of the amount does to the order itself and to the wallets. -/
theorem updateAmount_order (he : e.Ok) (hs : s ∈ e.listing) (ho : e.pool.live.lookup s.id = some o)
    (hpos : 1 ≤ amount) (h : e.updateAmount acid s.id amount = some e') :
    s ∈ e'.listing ∧ e'.pool.valueOf s.id = min o.value amount ∧
      ∀ k, e'.balance k =
        e.balance k - if (acid, o.paidCur) = k then e.paid acid o amount else 0 := by
  have hbooked : ∀ {e' : Engine}, Booked [((acid, o.paidCur), -e.paid acid o amount)] e e' → ∀ k,
      e'.balance k = e.balance k - if (acid, o.paidCur) = k then e.paid acid o amount else 0 := by
    intro e' hbooked k
    rw [hbooked.balance, posted_cons, posted_nil]
    dsimp only
    split_ifs <;> omega
  obtain ⟨o₁, ho₁, ⟨hsame, hpost, hreason⟩ | ⟨-, -, s₁, hs₁, hid, hresized⟩⟩ :=
    updateAmount_spec he h
  all_goals obtain rfl : o = o₁ := Option.some.inj (ho.symm.trans ho₁)
  · -- there are no funds
    have hlt : o.value < amount := by
      rcases hreason with hnone | hsmall | hgone
      · exact hnone.1
      · omega
      · exact absurd (List.mem_map_of_mem hs) hgone
    refine ⟨?_, ?_, hbooked hpost⟩
    · rw [hsame.aside.listing]
      exact hs
    · rw [hsame.pool, OrderPool.valueOf_eq ho, min_eq_left hlt.le]
  · have hmoved := hresized.moved
    refine ⟨?_, ?_, hbooked hresized.booked⟩
    · exact hmoved.listing.mem_iff.mpr (List.mem_append_right _ hs)
    · have hne : ∀ so ∈ (if amount ≤ o.value then none
          else some ({ s₁ with id := e.pool.next }, addedOrder o amount e.pool.next) :
            Option (Place × Order)), so.1.id ≠ s.id := fun so hso hsame =>
        he.notMem_next ((hmoved.new so hso).1 ▸ hsame ▸ List.mem_map_of_mem hs)
      have hself := hmoved.kept s.id hne (by simp)
      rw [ho, Option.map_some] at hself
      rw [OrderPool.valueOf_eq hself]
      rcases le_or_gt amount o.value with hle | hlt
      · rw [min_eq_right hle, if_pos ⟨hid.symm, hle⟩]
        exact sub_sub_cancel _ _
      · rw [min_eq_left hlt.le, if_neg fun h => absurd h.2 (not_le.mpr hlt)]
        exact sub_zero _

/-- An update that changes nothing but what a conversion loses: the order rests
where it was, with its value, and the wallets have what they had. -/
structure SameUpTo (bound : ℤ) (e : Engine) (s : Place) (o : Order) (e' : Engine) : Prop where
  rests : s ∈ e'.listing
  queue : ∃ added, Appended e s added e'
  value : |e'.pool.valueOf s.id - o.value| ≤ bound
  wallets : ∀ c, |e'.balance (o.accountId, c) - e.balance (o.accountId, c)| ≤ bound

/-- An update with this amount keeps the order, its value and the wallet within
the bound. -/
def Within (bound : ℤ) (e : Engine) (o : Order) (amount : ℤ) : Prop :=
  1 ≤ amount ∧ (amount ≤ o.value → o.value - amount ≤ bound) ∧
    (o.value < amount → min (e.balance (o.accountId, o.paidCur)) (amount - o.value) ≤ bound)

/-- An update to the amount that was read gives the order back exactly when it stays within the
bound. -/
theorem Solvent.updateAmount_sameUpTo (he : e.Solvent) (hs : s ∈ e.listing)
    (ho : e.pool.live.lookup s.id = some o) (hpos : 1 ≤ amount) {bound : ℤ} (hbound : 0 ≤ bound)
    {a : Account} (ha : e.accounts.lookup o.accountId = some a)
    (h : e.updateAmount o.accountId s.id amount = some e') :
    SameUpTo bound e s o e' ↔ Within bound e o amount := by
  obtain ⟨hrests, hvalue, hbalance⟩ := updateAmount_order he.toOk hs ho hpos h
  have hfunds := he.balance (o.accountId, o.paidCur)
  have hpaid := hbalance (o.accountId, o.paidCur)
  rw [if_pos rfl] at hpaid
  unfold paid at hpaid
  constructor
  · intro hsame
    have hv := hsame.value
    have hw := hsame.wallets o.paidCur
    rw [hvalue, abs_le] at hv
    rw [hpaid, abs_le] at hw
    refine ⟨hpos, fun hle => ?_, fun hlt => ?_⟩
    · rw [min_eq_right hle] at hv
      omega
    · rw [if_pos (by omega)] at hw
      omega
  · rintro ⟨-, hless, hmore⟩
    refine ⟨hrests, ?_, ?_, fun c => ?_⟩
    · obtain ⟨e₁, h₁, happended⟩ := updateAmount_appended he.toOk hs ho hpos ha
      obtain rfl := Option.some.inj (h₁.symm.trans h)
      exact ⟨_, happended⟩
    · rw [hvalue, abs_le]
      rcases le_or_gt amount o.value with hle | hlt
      · have hdiff := hless hle
        rw [min_eq_right hle]
        omega
      · rw [min_eq_left hlt.le]
        omega
    · rw [hbalance, abs_le]
      unfold paid
      split_ifs with hc hbudget
      · have hdiff := hmore (by omega)
        rw [← hc]
        omega
      · have hdiff := hless (by omega)
        omega
      · omega

/-- A cancelled order rests no more. -/
theorem Cancelled.notMem_listing (h : Cancelled e acid o s e') : s ∉ e'.listing := by
  intro hs
  obtain ⟨o', ho', -⟩ := h.moved.ok.placed s hs
  rw [h.moved.dropped s.id (by simp)] at ho'
  cases ho'

/-- The update of an order with its own rate, by its owner. -/
theorem step_update_eq {pwd : Text} {input : UpdateInput} (hi : i ∈ e.orders)
    (ho : e.pool.live.lookup i = some o) (hauth : e.auth hash acid pwd = true)
    (hparse : input.parse = .ok (i, amount, o.rate)) :
    Engine.step hash fuel e (.api acid pwd (.update [input])) =
      if amount < 1 then (e.cancel acid i).map Prod.fst else e.updateAmount acid i amount := by
  have hread : e.updateInput fuel acid input =
      if amount < 1 then (e.cancel acid i).map Prod.fst else e.updateAmount acid i amount := by
    simp only [updateInput, hparse, updateRead, not_not.mpr hi, if_false, ho, Option.bind_eq_bind,
      Option.bind_some, ne_eq, not_true_eq_false]
    split_ifs
    · cases e.cancel acid i <;> rfl
    · rfl
  rw [← hread]
  simp only [Engine.step, hauth, if_true, execute, run]
  cases e.updateInput fuel acid input <;> rfl

/-- **Updating with what was reported.** In every reachable state, the owner of an
order that rests may update it with the amount and the rate that are reported of
it. This changes nothing, up to the rounding of the conversion, and the amount is
in the currency that an update to another rate takes it for, if and only if the
order was sold. The update alone changes nothing if and only if the reported
amount happens to be the value, or the wallet does not have the difference. -/
theorem update_reported {ops : List Op} {pwd : Text} {l : OrderLine}
    (h : run (Engine.step hash fuel) (Engine.init hash) ops = some e) (hs : s ∈ e.listing)
    (ho : e.pool.live.lookup s.id = some o) (hauth : e.auth hash o.accountId pwd = true)
    (hfits : o.Fits) (hline : o.report = some l) :
    ((∃ e', Engine.step hash fuel e (.api o.accountId pwd (.update [l.toUpdate])) = some e' ∧
          SameUpTo o.lost e s o e') ∧ o.paidCur = updateCur o ↔ o.buy = false) ∧
      ((∃ e', Engine.step hash fuel e (.api o.accountId pwd (.update [l.toUpdate])) = some e' ∧
          SameUpTo o.lost e s o e') ↔ ∃ v ∈ o.reported, Within o.lost e o v) := by
  have he := numbered_of_run h
  have hmem : s.id ∈ e.listing.map Place.id := List.mem_map_of_mem hs
  obtain ⟨a, ha⟩ : ∃ a, e.accounts.lookup o.accountId = some a := by
    simp only [auth, Bool.and_eq_true, Option.any_eq_true] at hauth
    obtain ⟨-, a, ha, -⟩ := hauth
    exact ⟨a, ha⟩
  obtain ⟨m, hm, hsm⟩ := mem_listing.mp hs
  obtain ⟨o₁, ho₁, hat⟩ := he.placed s hs
  obtain rfl : o = o₁ := Option.some.inj (ho.symm.trans ho₁)
  obtain ⟨o₁, ho₁, hvalue⟩ := he.live hs
  obtain rfl : o = o₁ := Option.some.inj (ho.symm.trans ho₁)
  have hid : o.id = s.id := (he.pool s.id o ho).1
  have hrate : 0 < o.rate := by
    rw [hat.rate]
    exact ((he.markets m hm).front s.weak).toQueuesOk.rate_pos (Market.mem_listing hsm).1
  have hlost : 0 ≤ o.lost := Order.lost_nonneg (by omega) hrate
  obtain ⟨v, hv, hnonneg, hparse⟩ :=
    Order.parse_report (hid ▸ he.ids s.id hmem) (by omega) hrate hfits hline
  rw [hid] at hparse
  have hstep : Engine.step hash fuel e (.api o.accountId pwd (.update [l.toUpdate])) = _ :=
    step_update_eq (he.orders s.id hmem) ho hauth hparse
  have hupdate : (∃ e', Engine.step hash fuel e (.api o.accountId pwd (.update [l.toUpdate])) =
      some e' ∧ SameUpTo o.lost e s o e') ↔ ∃ v ∈ o.reported, Within o.lost e o v := by
    rw [hstep, hv]
    simp only [Option.mem_some_iff, exists_eq_left']
    split_ifs with hsmall
    · -- nothing is left of the amount, and the order is cancelled
      refine iff_of_false ?_ fun hwithin => absurd hwithin.1 (not_le.mpr hsmall)
      rintro ⟨e', hmap, hsame⟩
      obtain ⟨⟨e₁, found⟩, hcancel, rfl⟩ := Option.map_eq_some_iff.mp hmap
      obtain ⟨o₁, -, ⟨-, -, hnone⟩ | ⟨s₁, hs₁, -, hid₁, hcancelled⟩⟩ := cancel_spec he.toOk hcancel
      · exact hnone hmem
      · rw [List.inj_on_of_nodup_map he.nodup hs₁ hs hid₁] at hcancelled
        exact hcancelled.notMem_listing hsame.rests
    · obtain ⟨e', hamount, -⟩ := updateAmount_appended he.toOk hs ho (not_lt.mp hsmall) ha
      rw [hamount]
      simp only [Option.some.injEq, exists_eq_left']
      exact he.updateAmount_sameUpTo hs ho (not_lt.mp hsmall) hlost ha hamount
  refine ⟨?_, hupdate⟩
  rw [hupdate, hv]
  constructor
  · rintro ⟨-, hcur⟩
    by_contra hbuy
    rw [Bool.not_eq_false] at hbuy
    rw [updateCur, if_pos hbuy, hat.paidCur, hat.receivedCur] at hcur
    exact (he.markets m hm).cur_ne hsm hcur
  · intro hsold
    have hreported : v = o.value := by
      rw [Order.reported, hsold] at hv
      exact (Option.some.inj hv).symm
    refine ⟨⟨v, rfl, ?_⟩, ?_⟩
    · subst hreported
      exact ⟨hvalue, fun _ => by omega, fun hlt => absurd hlt (lt_irrefl _)⟩
    · rw [updateCur, hsold]
      rfl

/-- The pounds that rest are reported as four, and four they remain. -/
theorem update_reported_sampleTrade :
    ∃ e s o l e', run (Engine.step sampleHash 8) (Engine.init sampleHash)
        (sampleDeposit ++ [sampleTrade ['1', '.', '5']]) = some e ∧ s ∈ e.listing ∧
      e.pool.live.lookup s.id = some o ∧ o.report = some l ∧
      Engine.step sampleHash 8 e (.api o.accountId (List.replicate 8 'p')
        (.update [l.toUpdate])) = some e' ∧ SameUpTo o.lost e s o e' := by
  have hview : (run (Engine.step sampleHash 8) (Engine.init sampleHash)
      (sampleDeposit ++ [sampleTrade ['1', '.', '5']])).bind (fun e =>
        (e.pool.live.lookup 1).bind fun o => o.report.map fun _ =>
          decide (e.listing.map Place.id = [1] ∧
            e.auth sampleHash o.accountId (List.replicate 8 'p') = true ∧ o.id = 1 ∧
            o.rate = 150000 ∧ o.reported = some 400000 ∧ o.buy = false)) = some true := by
    decide +kernel
  simp only [Option.bind_eq_some_iff, Option.map_eq_some_iff, decide_eq_true_eq] at hview
  obtain ⟨e, hrun, o, ho, l, hline, hids, hauth, hid, hrate, hreported, hsold⟩ := hview
  obtain ⟨s, hs, hsid⟩ := List.mem_map.mp (hids ▸ List.mem_singleton_self 1)
  rw [← hsid] at ho
  have hfits : o.Fits := by
    refine ⟨by rw [hid]; decide, by rw [hrate]; decide, fun v hv => ?_⟩
    rw [hreported] at hv
    obtain rfl := Option.mem_some_iff.mp hv
    decide
  obtain ⟨⟨e', hstep, hsame⟩, -⟩ := (update_reported hrun hs ho hauth hfits hline).1.mpr hsold
  exact ⟨e, s, o, l, e', hrun, hs, ho, hline, hstep, hsame⟩

/-- Six euros are bought for four pounds. -/
def sampleBuy : Op :=
  .api 2 (List.replicate 8 'p') (.trade [⟨['B'], ['6'], ['E', 'U', 'R'], ['1', '.', '5'],
    ['E', 'U', 'R', '/', 'G', 'B', 'P']⟩])

/-- The order is reported with six euros; an update with six pays two pounds more. -/
theorem update_reported_sampleBuy :
    ∃ e e' o l, run (Engine.step sampleHash 8) (Engine.init sampleHash)
        (sampleDeposit ++ [sampleBuy]) = some e ∧
      e.pool.live.lookup 1 = some o ∧ o.report = some l ∧
      l = ⟨['1'], ['B'], ['6', '.', '0', '0', '0', '0', '0'], ['E', 'U', 'R'],
        ['1', '.', '5', '0', '0', '0', '0'], ['E', 'U', 'R', '/', 'G', 'B', 'P']⟩ ∧
      Engine.step sampleHash 8 e (.api 2 (List.replicate 8 'p') (.update [l.toUpdate])) = some e' ∧
      o.value = 400000 ∧ o.lost = 0 ∧ e.listing.map Place.id = [1] ∧
      e'.listing.map Place.id = [1, 2] ∧ e'.balance (2, gbp) = e.balance (2, gbp) - 200000 := by
  have hview : (run (Engine.step sampleHash 8) (Engine.init sampleHash)
      (sampleDeposit ++ [sampleBuy])).bind (fun e => (e.pool.live.lookup 1).bind fun o =>
        o.report.bind fun l => (Engine.step sampleHash 8 e
          (.api 2 (List.replicate 8 'p') (.update [l.toUpdate]))).map fun e' =>
            decide (l = ⟨['1'], ['B'], ['6', '.', '0', '0', '0', '0', '0'], ['E', 'U', 'R'],
                ['1', '.', '5', '0', '0', '0', '0'], ['E', 'U', 'R', '/', 'G', 'B', 'P']⟩ ∧
              o.value = 400000 ∧ o.lost = 0 ∧ e.listing.map Place.id = [1] ∧
              e'.listing.map Place.id = [1, 2] ∧
              e'.balance (2, gbp) = e.balance (2, gbp) - 200000)) = some true := by decide +kernel
  simp only [Option.bind_eq_some_iff, Option.map_eq_some_iff, decide_eq_true_eq] at hview
  obtain ⟨e, hrun, o, ho, l, hline, e', hstep, hl, hview⟩ := hview
  exact ⟨e, e', o, l, hrun, ho, hline, hl, hstep, hview⟩

end Engine

end AcCore.Tex.Cex
