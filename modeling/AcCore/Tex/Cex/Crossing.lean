import AcCore.Tex.Cex.Leftover
import AcCore.Tex.Cex.Solvency

/-!
# Crossed books

A trade rests what it could not match. That it could not is found by two tests
of the funds, one at the rate of the other front and one at the limit, and they
convert the amount in opposite directions. Where they agree no order rests at a
rate that the other front accepts.
-/

namespace AcCore.Tex.Cex

open Lib

namespace Front

variable {p : OrderPool} {f : Front} {limitRate : ℤ}

/-- A rate comes before itself. -/
theorem Before.refl (b : Bool) (r : ℤ) : Before b r r := by
  unfold Before
  split_ifs <;> exact le_rfl

/-- When the first order is not accepted no order is. -/
theorem QueuesOk.not_accepts (hf : f.QueuesOk p)
    (h : ∀ e ∈ f.listing.head?, ¬Accepts f.invertPriority limitRate e.1) {e : ℤ × Id}
    (he : e ∈ f.listing) : ¬Accepts f.invertPriority limitRate e.1 := by
  have hsorted := hf.pairwise
  cases hlisting : f.listing with
  | nil =>
    rw [hlisting] at he
    cases he
  | cons e₀ l =>
    rw [hlisting] at he hsorted h
    rw [List.pairwise_cons] at hsorted
    intro haccepts
    refine h e₀ rfl ?_
    rcases List.mem_cons.mp he with rfl | he
    · exact haccepts
    · exact (hsorted.1 e he).trans haccepts

/-- When the first queue has a value and is not accepted no order is. -/
theorem QueuesOk.not_accepts_of_testMatch (hf : f.QueuesOk p) (h : f.testMatch limitRate = false)
    (hvalue : f.listing = [] ∨ ∀ q ∈ f.queues.head?, q.hasValue = true) {e : ℤ × Id}
    (he : e ∈ f.listing) : ¬Accepts f.invertPriority limitRate e.1 := by
  rcases hvalue with hnone | hvalue
  · rw [hnone] at he
    cases he
  · unfold testMatch at h
    cases hqs : f.queues with
    | nil =>
      rw [listing, hqs] at he
      cases he
    | cons q qs =>
      rw [hqs] at h hvalue
      simp only [hvalue q rfl, Bool.and_true] at h
      intro haccepts
      have hbest : Before f.invertPriority q.getRate limitRate := (hf.best hqs he).trans haccepts
      rw [← hf.invert q (by simp [hqs])] at hbest
      rw [compare_iff.mpr hbest] at h
      cases h

end Front

namespace Market

variable [Rounding] {p p' : OrderPool} {m m' : Market} {weak buy priLow : Bool} {w w' : Wallet}
  {limitRate amount v : ℤ} {fuel : ℕ} {r : TradeResult} {y : Matching} {gone : List Place}

/-- What is asked of the book before a trade. Whatever orders at the top of the other front
are taken as a whole: of the amount and of the funds that these leave, the test at the limit
does not say that they match something when the test at the next rate says that they do not,
if the limit accepts this rate. The funds are not negative, and nothing gains by conversions at
the rates that the limit accepts. -/
structure Agrees (p : OrderPool) (m : Market) (weak : Bool) (w : Wallet) (limitRate amount : ℤ)
    (buy : Bool) : Prop where
  funds : 0 ≤ w.available
  gain : ∀ e ∈ (m.front !weak).listing, Front.Accepts weak limitRate e.1 →
    Gainless (!weak) e.1 (Order.converted w amount buy)
  tests : ∀ gone e later w' left, (m.front !weak).listing = gone ++ e :: later →
    Front.Accepts weak limitRate e.1 → LeftBy p (!weak) buy w amount gone w' left →
    0 ≤ w'.available → 0 < left → ∀ n n',
      Order.couldMatchProvidedBigOrdervalue w' e.1 (!weak) buy n left = some false →
      Order.couldMatchProvidedBigOrdervalue w' limitRate weak buy n' left ≠ some true

/-- An empty front has nothing to test. -/
theorem Agrees.of_nil (hl : (m.front !weak).listing = []) (hw : 0 ≤ w.available) :
    m.Agrees p weak w limitRate amount buy where
  funds := hw
  gain e he := by simp [hl] at he
  tests gone e later _ _ hsplit := by simp [hl] at hsplit

/-- An amount that is covered and matches the only order that the limit accepts. -/
theorem Agrees.of_first {e₀ : ℤ × Id} {l : List (ℤ × Id)} {n : ℕ}
    (hl : (m.front !weak).listing = e₀ :: l)
    (hlater : ∀ e ∈ l, ¬Front.Accepts weak limitRate e.1) (hw : 0 ≤ w.available)
    (hgain : Gainless (!weak) e₀.1 (Order.converted w amount buy)) (hcovered : amount ≤ w.available)
    (htest : Order.couldMatchProvidedBigOrdervalue w e₀.1 (!weak) buy n amount = some true) :
    m.Agrees p weak w limitRate amount buy where
  funds := hw
  gain e he haccepts := by
    rw [hl] at he
    rcases List.mem_cons.mp he with rfl | he
    · exact hgain
    · exact absurd haccepts (hlater e he)
  tests gone e later w' left hsplit haccepts hleft _ _ n' _ hfalse := by
    rw [hl] at hsplit
    cases gone with
    | nil =>
      obtain ⟨rfl, -⟩ := List.cons.inj hsplit
      obtain ⟨c, hcost, hfunds, hleft⟩ := hleft
      obtain rfl := Option.some.inj hcost
      obtain rfl : w' = w := by
        cases w
        cases w'
        simpa using hfunds
      have hsame : left = amount := by
        rcases hleft with hleft | ⟨-, hleft, hle⟩
        · simpa [fillValue] using hleft
        · omega
      rw [hsame] at hfalse
      exact absurd (Order.couldMatch_unique htest hfalse) (by simp)
    | cons e₁ gone =>
      have he : e ∈ l := (List.cons.inj hsplit).2 ▸ List.mem_append_right _ List.mem_cons_self
      exact absurd haccepts (hlater e he)

/-- What is asked of a trade. Of low priority: the queue that is tested is not an empty one
before others. Else: the two tests agree. -/
def Tested (p : OrderPool) (m : Market) (weak : Bool) (w : Wallet) (limitRate amount : ℤ)
    (buy priLow : Bool) : Prop :=
  if priLow then
    (m.front !weak).listing = [] ∨ ∀ q ∈ (m.front !weak).queues.head?, q.hasValue = true
  else m.Agrees p weak w limitRate amount buy

/-- Something that rests was left, and passed the test at the limit. -/
theorem hasRest_pos (hy : 0 ≤ y.amountLeft)
    (h : hasRest weak fuel (handOn y) limitRate buy = some true) :
    0 < y.amountLeft ∧ Order.couldMatchProvidedBigOrdervalue y.wallet limitRate weak buy fuel
      y.amountLeft = some true := by
  unfold hasRest at h
  dsimp only [handOn] at h
  by_cases hzero : y.amountLeft = 0
  · simp [hzero] at h
  · have hpos : 0 < y.amountLeft := by omega
    refine ⟨hpos, ?_⟩
    cases weak <;> simpa [hzero, hpos] using h

/-- What is left of an amount when the match of the other front has ended does not rest at a
rate that this front accepts. -/
theorem Agrees.not_accepts (hagrees : m.Agrees p weak w limitRate amount buy) (hm : m.Ok p)
    (hp : p.Ok) (ha : 0 ≤ amount)
    (hrounds : Rounds (m.terms weak buy) (Front.Accepts weak limitRate) (m.front !weak).listing
      (start p w amount) (m'.front !weak).listing y)
    (hsettled : (m'.front !weak).Settled (m.terms weak buy) limitRate y)
    (hinvert : (m'.front !weak).invertPriority = weak)
    (hrest : hasRest weak fuel (handOn y) limitRate buy = some true) :
    ∀ e ∈ (m'.front !weak).listing.head?, ¬Front.Accepts weak limitRate e.1 := by
  intro e he haccepts
  have hf := (hm.front !weak).toQueuesOk
  have hstart : (start p w amount).Solvent := ⟨ha, hagrees.funds, by simp [start]⟩
  obtain ⟨hsolvent, -, -⟩ := hrounds.solvent hp hstart hf.nodup (fun e he => hf.rate_pos he)
    (fun e he => hf.live he) hagrees.gain
  obtain ⟨hpos, htrue⟩ := hasRest_pos hsolvent.left hrest
  rcases hsettled e.1 e.2 he (hinvert.symm ▸ haccepts) with hzero | ⟨n, hfalse⟩
  · omega
  rcases hrounds.leaves hp hstart hf.nodup (fun e he => hf.rate_pos he) (fun e he => hf.live he)
    hagrees.gain with hzero | ⟨e', he', hstuck⟩ | ⟨gone, hlisting, hleft⟩
  · omega
  · -- the test of a stuck match never fails
    obtain rfl := Option.some.inj (he.symm.trans he')
    exact hstuck.couldMatch n hfalse
  · obtain ⟨later, hlater⟩ := List.head?_eq_some_iff.mp he
    rw [hlater] at hlisting
    exact hagrees.tests gone e later y.wallet y.amountLeft hlisting haccepts hleft hsolvent.wallet
      hpos n fuel hfalse htrue

/-- What a trade rests is not at a rate that the other front accepts. -/
theorem Traded.not_accepts
    (h : Traded fuel p m weak w limitRate amount buy priLow m' p' w' r y gone (some v))
    (hm : m.Ok p) (hp : p.Ok) (ha : 0 ≤ amount)
    (htested : m.Tested p weak w limitRate amount buy priLow) {e : ℤ × Id}
    (he : e ∈ (m'.front !weak).listing) : ¬Front.Accepts weak limitRate e.1 := by
  obtain ⟨-, -, -, hmore, -, hhigh, hlow⟩ := h.rest v rfl
  have hinvert : (m'.front !weak).invertPriority = weak := by rw [h.ok.invert, Bool.not_not]
  have hf := (h.ok.front !weak).toQueuesOk
  unfold Tested at htested
  cases priLow with
  | true =>
    rw [if_pos rfl] at htested
    obtain ⟨-, htest⟩ := hlow rfl
    obtain ⟨m₁, htake, hfront⟩ := h.took (by simp)
    -- nothing was matched
    have hsame : m₁ = m := by
      unfold take at htake
      rw [if_pos rfl, htest, if_neg Bool.false_ne_true] at htake
      exact (Prod.mk.inj (Option.some.inj (Option.some.inj htake))).1.symm
    rw [← hinvert]
    rw [hfront, hsame] at he hf ⊢
    exact hf.not_accepts_of_testMatch htest htested he
  | false =>
    rw [if_neg Bool.false_ne_true] at htested
    have hnone := htested.not_accepts hm hp ha h.rounds (hhigh rfl) hinvert hmore
    exact hinvert ▸ hf.not_accepts (hinvert.symm ▸ hnone) he

end Market

namespace Engine

variable {e e' : Engine} {acid i : Id} {c cid : Cur} {cut : Id → ℤ} {gone : List Place} {o : Order}
  {s s' : Place} {m : Market} {fuel : ℕ} {weak buy priLow : Bool} {w : Wallet} {rate amount : ℤ}
  {y : Matching} {charge : Cur} {hash : Text → UInt64} {made : Option (Place × Order)}

/-- Both places are in one market. -/
def SameMarket (s s' : Place) : Prop := s.weakCur = s'.weakCur ∧ s.strongCur = s'.strongCur

/-- In no market an order of the weak front meets one of the strong front. -/
structure Uncrossed (e : Engine) : Prop extends e.Ok where
  rates : ∀ s ∈ e.listing, ∀ s' ∈ e.listing, SameMarket s s' → s.weak = true → s'.weak = false →
    s.rate < s'.rate

/-- Books stay uncrossed when what is made is not accepted by the other front. -/
theorem Uncrossed.moved (he : e.Uncrossed) (h : Moved e e' cut gone made)
    (hmade : ∀ so ∈ made, ∀ s ∈ e'.listing, SameMarket so.1 s → s.weak = !so.1.weak →
      ¬Front.Accepts so.1.weak so.1.rate s.rate) : e'.Uncrossed := by
  have hold : ∀ s ∈ e'.listing, s ∈ e.listing ∨ ∃ so ∈ made, so.1 = s := by
    intro s hs
    have hmem := h.listing.mem_iff.mp (List.mem_append_right gone hs)
    rcases List.mem_append.mp hmem with hmem | hmem
    · obtain ⟨so, hso, hs⟩ := List.mem_map.mp hmem
      exact Or.inr ⟨so, Option.mem_toList.mp hso, hs⟩
    · exact Or.inl hmem
  refine ⟨h.ok, fun s hs s' hs' hsame hweak hstrong => ?_⟩
  rcases hold s hs with hold₁ | ⟨so, hso, rfl⟩
  · rcases hold s' hs' with hold₂ | ⟨so, hso, rfl⟩
    · exact he.rates s hold₁ s' hold₂ hsame hweak hstrong
    · have hnot := hmade so hso s hs ⟨hsame.1.symm, hsame.2.symm⟩ (by rw [hweak, hstrong]; rfl)
      rw [hstrong] at hnot
      simpa [Front.Accepts, Front.Before] using hnot
  · have hnot := hmade so hso s' hs' hsame (by rw [hweak, hstrong]; rfl)
    rw [hweak] at hnot
    simpa [Front.Accepts, Front.Before] using hnot

/-- What is left of the books stays uncrossed. -/
theorem Uncrossed.of_subset (he : e.Uncrossed) (hok : e'.Ok)
    (h : ∀ s ∈ e'.listing, s ∈ e.listing) : e'.Uncrossed :=
  ⟨hok, fun s hs s' hs' => he.rates s (h s hs) s' (h s' hs')⟩

section

variable [Rounding]

/-- The conditions under which no book is crossed. -/
def uncrossing : Guards where
  sell e acid m cid rate amount buy priLow :=
    ∀ a ∈ e.accounts.lookup acid, ∀ w ∈ a.wallets.lookup (chargeCur m cid buy),
      m.Tested e.pool (m.paysWeak cid buy) w rate amount buy priLow
  cancel _ _ _ := True
  update _ _ _ _ := True

/-- A sale that is tested leaves no market crossed. -/
theorem Uncrossed.sold {v : Option ℤ} (he : e.Uncrossed) (hm : e.findMarket m.getKey = some m)
    (ha : 0 ≤ amount) (htested : m.Tested e.pool weak w rate amount buy priLow)
    (h : Sold fuel e acid m weak charge w rate amount buy priLow e' y gone v) : e'.Uncrossed := by
  obtain ⟨m', p', w', r, ht, hmarkets⟩ := h.trade
  refine he.moved h.moved fun so hso s hs hsame hside => ?_
  obtain ⟨v, hv, rfl⟩ := Option.mem_map.mp hso
  obtain rfl := Option.mem_def.mp hv
  -- the place is in the market of the trade
  have hm' : m' ∈ e'.markets := by
    rw [hmarkets]
    have hkey : m'.getKey = m.getKey := getKey_eq ht.weakCurrency ht.strongCurrency
    exact Keyed.mem_put_self (Keyed.mem_of_get hm) hkey
  obtain ⟨m₁, hm₁, hs₁⟩ := mem_listing.mp hs
  have hsame₁ : m₁ = m' := by
    have hfound := h.moved.ok.findMarket_eq hm₁ hs₁
    have hfound' := Keyed.get_of_mem h.moved.ok.keys hm'
    have hkey : marketKey s.weakCur s.strongCur = m'.getKey := by
      rw [Market.getKey, ht.weakCurrency, ht.strongCurrency, ← hsame.1, ← hsame.2]
      rfl
    rw [hkey] at hfound
    exact Option.some.inj (hfound.symm.trans hfound')
  subst hsame₁
  have hfront := (Market.mem_listing hs₁).1
  rw [hside] at hfront
  exact ht.not_accepts (he.markets m (Keyed.mem_of_get hm)) he.pool ha htested hfront

/-- Every step of an operation that is tested leaves no market crossed. -/
theorem Uncrossed.preserved (fuel : ℕ) (acid : Id) :
    Preserved uncrossing fuel acid Uncrossed where
  sell := by
    intro e e' m cid rate amount buy priLow he hm _ hamount hG h
    obtain ⟨a, ha, ⟨-, rfl⟩ | ⟨w, m', p', w', r, y, gone, hw, -, ⟨-, v, -, hsold⟩ |
      ⟨-, -, hfailed⟩⟩⟩ := sell_spec he.toOk hm h
    · exact he
    · exact he.sold hm hamount.le (hG a ha w hw) hsold
    · exact he.of_subset hfailed.ok fun s hs =>
        hfailed.listing.mem_iff.mp (List.mem_append_right gone hs)
  cancel := by
    intro e e' i found he _ h
    obtain ⟨o, -, ⟨-, rfl, -⟩ | ⟨s, -, -, -, hcancelled⟩⟩ := cancel_spec he.toOk h
    · exact he
    · exact he.moved hcancelled.moved (by simp)
  update := by
    intro e e' i amount he _ _ _ h
    obtain ⟨o, -, ⟨hsame, -, -⟩ | ⟨-, -, s, hs, -, hresized⟩⟩ := updateAmount_spec he.toOk h
    · exact he.of_subset (hsame.ok he.toOk) fun s hs => by
        rwa [listing, hsame.markets] at hs
    · -- the order that is added rests at the rate of the other
      refine he.moved hresized.moved fun so hso s' hs' hsame hside => ?_
      split_ifs at hso
      · cases hso
      obtain rfl := Option.mem_some_iff.mp hso
      have hold : s' ∈ e.listing := by
        have hmem := hresized.moved.listing.mem_iff.mp (List.mem_append_right [] hs')
        refine (List.mem_append.mp hmem).resolve_left fun hmade => ?_
        split_ifs at hmade
        obtain rfl := List.mem_singleton.mp hmade
        exact absurd hside (by simp)
      dsimp only at hside ⊢
      unfold Front.Accepts Front.Before
      cases hweak : s.weak with
      | true =>
        rw [hweak] at hside
        have hrates := he.rates s hs s' hold hsame hweak hside
        simpa using hrates
      | false =>
        rw [hweak] at hside
        have hrates := he.rates s' hold s hs ⟨hsame.1.symm, hsame.2.symm⟩ hside hweak
        simpa using hrates

/-- Every operation that is tested leaves no market crossed. -/
theorem Uncrossed.step {op : Op} (he : e.Uncrossed) (hG : uncrossing.Op hash fuel e op)
    (h : Engine.step hash fuel e op = some e') : e'.Uncrossed := by
  rcases he.toOk.step_cases h with ⟨acid, pwd, aop, rfl, hauth, hop, hexecute⟩ | hlisting
  · exact (Uncrossed.preserved fuel acid).execute hop he (hG hauth) hexecute
  · exact he.of_subset (he.toOk.step h) fun _ hs => hlisting ▸ hs

/-- **The book is not crossed.** In every state that is reached by operations
whose trades meet the conditions, no queue of one front that holds an order
accepts the rate of such a queue of the other front. -/
theorem never_crossed {ops : List Op}
    (hG : AlongRun (Engine.step hash fuel) (uncrossing.Op hash fuel) (Engine.init hash) ops)
    (h : run (Engine.step hash fuel) (Engine.init hash) ops = some e) :
    ∀ m ∈ e.markets, ∀ q ∈ m.weakFront.queues, ∀ q' ∈ m.strongFront.queues,
      q.listing ≠ [] → q'.listing ≠ [] →
        q.high.compare q'.getRate = false ∧ q'.high.compare q.getRate = false := by
  have hinit : (Engine.init hash).Uncrossed := ⟨Ok.init hash, fun s hs => nomatch hs⟩
  have he : e.Uncrossed := run_invariant (fun _ _ _ he hG h => he.step hG h) hinit hG h
  intro m hm q hq q' hq' hsome hsome'
  obtain ⟨⟨r, i⟩, hi⟩ := List.exists_mem_of_ne_nil _ hsome
  obtain ⟨⟨r', i'⟩, hi'⟩ := List.exists_mem_of_ne_nil _ hsome'
  have hmOk := he.markets m hm
  have hweak := (hmOk.front true).toQueuesOk
  have hstrong := (hmOk.front false).toQueuesOk
  have hrate := ((WaitingQueues.mem_listing (hweak.queues q hq)).mp hi).1
  have hrate' := ((WaitingQueues.mem_listing (hstrong.queues q' hq')).mp hi').1
  have hplace : m.place true (r, i) ∈ e.listing := mem_listing.mpr
    ⟨m, hm, Market.mem_listing_of_mem (Front.mem_listing.mpr ⟨q, hq, hi⟩)⟩
  have hplace' : m.place false (r', i') ∈ e.listing := mem_listing.mpr
    ⟨m, hm, Market.mem_listing_of_mem (Front.mem_listing.mpr ⟨q', hq', hi'⟩)⟩
  have hlt : r < r' := he.rates _ hplace _ hplace' ⟨rfl, rfl⟩ rfl rfl
  rw [hrate, hrate'] at hlt
  have hinvert : q.high.invertPriority = false :=
    (hweak.invert q hq).trans (hmOk.invert true)
  have hinvert' : q'.high.invertPriority = true :=
    (hstrong.invert q' hq').trans (hmOk.invert false)
  have hgetRate : q'.high.rate = q'.getRate := rfl
  have hgetRate' : q.high.rate = q.getRate := rfl
  constructor
  · simp [WaitingQueue.compare, hinvert, hgetRate', hlt]
  · simp [WaitingQueue.compare, hinvert', hgetRate, hlt]

end

/-- The sales of the pounds of an account, and of euros that take a part of them. -/
def sampleFronts : List Op :=
  sampleDeposit ++ [sampleTrade ['1', '.', '5'], sampleTrade ['1', '.', '7']] ++ sampleBuyer

/-- What the buyer sells: the first order is accepted at this limit, the second is not. -/
def sampleSale : TradeInput :=
  ⟨['S'], ['9'], ['E', 'U', 'R'], ['1', '.', '6'], ['E', 'U', 'R', '/', 'G', 'B', 'P']⟩

/-- What a sale finds: its side, the orders of the other front, and the funds. -/
structure SaleView where
  weak : Bool
  other : List (ℤ × Id)
  funds : ℤ
  deriving DecidableEq

/-- The view that a sale of an account has of the sample market. -/
def saleView (e : Engine) (acid : Id) (cid : Cur) : Option SaleView := do
  let m ← e.findMarket (marketKey eur gbp)
  let a ← e.accounts.lookup acid
  let w ← a.wallets.lookup (chargeCur m cid false)
  return ⟨m.paysWeak cid false, (m.front !m.paysWeak cid false).listing, w.available⟩

/-- What the view of a sale says of the market and the wallet. -/
theorem saleView_eq {l : List (ℤ × Id)} {funds : ℤ} {a : Account}
    (h : e.saleView acid cid = some ⟨weak, l, funds⟩)
    (hm : e.findMarket (marketKey eur gbp) = some m) (ha : e.accounts.lookup acid = some a)
    (hw : a.wallets.lookup (chargeCur m cid false) = some w) :
    m.paysWeak cid false = weak ∧ (m.front !weak).listing = l ∧ w.available = funds := by
  simp only [saleView, hm, ha, hw, Option.bind_eq_bind, Option.bind_some, Option.pure_def,
    Option.some.injEq, SaleView.mk.injEq] at h
  obtain ⟨rfl, rfl, rfl⟩ := h
  exact ⟨rfl, rfl, rfl⟩

open scoped Doubles in
/-- With doubles: pounds rest at 1.5 and at 1.7, the sale of 9 euros takes the first of them for
6 and rests with 3 at 1.6. -/
theorem never_crossed_sampleSale :
    ∃ e, run (Engine.step sampleHash 8) (Engine.init sampleHash)
        (sampleFronts ++ [.api 3 (List.replicate 8 'q') (.trade [sampleSale])]) = some e ∧
      (e.listing.map fun s => (s.weak, s.rate)) = [(true, 160000), (false, 170000)] ∧
      ∀ m ∈ e.markets, ∀ q ∈ m.weakFront.queues, ∀ q' ∈ m.strongFront.queues,
        q.listing ≠ [] → q'.listing ≠ [] →
          q.high.compare q'.getRate = false ∧ q'.high.compare q.getRate = false := by
  have hview :
      ((run (Engine.step sampleHash 8) (Engine.init sampleHash) sampleDeposit).bind fun e₀ =>
      (Engine.step sampleHash 8 e₀ (sampleTrade ['1', '.', '5'])).bind fun e₁ =>
        (Engine.step sampleHash 8 e₁ (sampleTrade ['1', '.', '7'])).bind fun e₂ =>
          (run (Engine.step sampleHash 8) e₂ sampleBuyer).bind fun e₃ =>
            (Engine.step sampleHash 8 e₃
              (.api 3 (List.replicate 8 'q') (.trade [sampleSale]))).map fun e₄ =>
                (e₀.saleView 2 gbp, e₁.saleView 2 gbp, e₃.saleView 3 eur,
                  e₄.listing.map fun s => (s.weak, s.rate))) =
      some (some ⟨false, [], 1000000⟩, some ⟨false, [], 600000⟩,
        some ⟨true, [(150000, 1), (170000, 2)], 1000000⟩, [(true, 160000), (false, 170000)]) := by
    decide +kernel
  simp only [Option.bind_eq_some_iff, Option.map_eq_some_iff, Prod.mk.injEq] at hview
  obtain ⟨e₀, h₀, e₁, h₁, e₂, h₂, e₃, h₃, e, h, hfirst, hsecond, hsale, hlisting⟩ := hview
  have htwo : run (Engine.step sampleHash 8) (Engine.init sampleHash)
      (sampleDeposit ++ [sampleTrade ['1', '.', '5'], sampleTrade ['1', '.', '7']]) = some e₂ := by
    rw [run_append, h₀]
    exact run_cons_eq_some.mpr ⟨e₁, h₁, run_cons_eq_some.mpr ⟨e₂, h₂, rfl⟩⟩
  have hfronts :
      run (Engine.step sampleHash 8) (Engine.init sampleHash) sampleFronts = some e₃ := by
    rw [sampleFronts, run_append, htwo]
    exact h₃
  have hrun : run (Engine.step sampleHash 8) (Engine.init sampleHash)
      (sampleFronts ++ [.api 3 (List.replicate 8 'q') (.trade [sampleSale])]) = some e := by
    rw [run_append, hfronts]
    exact run_cons_eq_some.mpr ⟨e, h, rfl⟩
  -- the pounds find an empty front
  have hidle : ∀ {e : Engine} {funds rate amount : ℤ}, e.saleView 2 gbp = some ⟨false, [], funds⟩ →
      0 ≤ funds → ∀ m, e.findMarket (marketKey eur gbp) = some m →
        uncrossing.sell e 2 m gbp rate amount false false := by
    intro e funds rate amount hview hfunds m hm a ha w hw
    obtain ⟨hside, hnil, rfl⟩ := saleView_eq hview hm ha hw
    rw [hside]
    exact Market.Agrees.of_nil hnil hfunds
  -- the euros buy something from the only order that their limit accepts
  have hbuys : ∀ m, e₃.findMarket (marketKey eur gbp) = some m →
      uncrossing.sell e₃ 3 m eur 160000 900000 false false := by
    intro m hm a ha w hw
    obtain ⟨hside, hother, hfunds⟩ := saleView_eq hsale hm ha hw
    obtain rfl : w = ⟨1000000⟩ := by
      cases w
      exact congrArg Wallet.mk hfunds
    rw [hside]
    have hlater : ∀ e ∈ [((170000 : ℤ), (2 : Id))], ¬Front.Accepts true 160000 e.1 := by
      simp [Front.Accepts, Front.Before]
    have htest : Order.couldMatchProvidedBigOrdervalue ⟨1000000⟩ 150000 false false 1 900000 =
        some true := by decide +kernel
    exact Market.Agrees.of_first hother hlater (by decide)
      (gainless_of_le (by decide) (by decide)) (by decide) htest
  refine ⟨e, hrun, hlisting, never_crossed ((AlongRun.append_iff hfronts).mpr ⟨?_, ?_⟩) hrun⟩
  · rw [sampleFronts]
    refine (AlongRun.append_iff htwo).mpr ⟨(AlongRun.append_iff h₀).mpr
      ⟨sampleDeposit_guard _, ?_⟩, sampleBuyer_guard _ _⟩
    refine (AlongRun.cons_iff h₁).mpr ⟨fun _ => ?_, AlongRun.singleton_iff.mpr fun _ => ?_⟩
    · exact trade_guard (t := ⟨false, 400000, gbp, 150000, eur, gbp⟩) (by decide +kernel)
        (hidle hfirst (by decide))
    · exact trade_guard (t := ⟨false, 400000, gbp, 170000, eur, gbp⟩) (by decide +kernel)
        (hidle hsecond (by decide))
  · exact AlongRun.singleton_iff.mpr fun _ =>
      trade_guard (t := ⟨false, 900000, eur, 160000, eur, gbp⟩) (by decide +kernel) hbuys

/-- Two hundred-thousandths of a euro, offered for the pounds that are there. -/
def sampleDust : List Op :=
  let pwd := List.replicate 8 'q'
  [.newAccount pwd, .api 3 pwd (.deposit eur ['1', '0']),
    .api 3 pwd (.trade [⟨['S'], ['0', '.', '0', '0', '0', '0', '2'], ['E', 'U', 'R'],
      ['1', '.', '5'], ['E', 'U', 'R', '/', 'G', 'B', 'P']⟩])]

open scoped Doubles in
/-- The test of the match says that they buy nothing, and the test at the limit
that they do: they rest at the rate at which the pounds do. -/
theorem crossed_by_dust :
    ∃ e, run (Engine.step sampleHash 8) (Engine.init sampleHash)
        (sampleDeposit ++ [sampleTrade ['1', '.', '5']] ++ sampleDust) = some e ∧
      ∃ m ∈ e.markets, ∃ q ∈ m.weakFront.queues, ∃ q' ∈ m.strongFront.queues,
        q.listing ≠ [] ∧ q'.listing ≠ [] ∧ q.high.compare q'.getRate = true := by
  have h : (run (Engine.step sampleHash 8) (Engine.init sampleHash)
      (sampleDeposit ++ [sampleTrade ['1', '.', '5']] ++ sampleDust)).map (fun e =>
        decide (∃ m ∈ e.markets, ∃ q ∈ m.weakFront.queues, ∃ q' ∈ m.strongFront.queues,
          q.listing ≠ [] ∧ q'.listing ≠ [] ∧ q.high.compare q'.getRate = true)) =
      some true := by decide +kernel
  obtain ⟨e, he, h⟩ := Option.map_eq_some_iff.mp h
  exact ⟨e, he, of_decide_eq_true h⟩

end Engine

end AcCore.Tex.Cex
