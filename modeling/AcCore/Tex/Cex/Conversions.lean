import AcCore.Tex.Cex.Failures

/-!
# The conversions of a trade

Each function that matches, with the products and quotients that it encodes. A
quotient has a divisor, and what is encoded is rounded down to a number of 64
bits: neither is checked where it is done. The functions here list what is
converted, in the order of the code, and leave the rest to the functions that
they follow.
-/

namespace AcCore.Tex.Cex

open Lib

variable [Rounding]

/-- The range of `efp`. -/
def InRange (v : ℤ) : Prop := -2 ^ 63 ≤ v ∧ v < 2 ^ 63

/-- The range of `int64_t` is decided by its two bounds. -/
instance (v : ℤ) : Decidable (InRange v) := inferInstanceAs (Decidable (_ ∧ _))

/-- `encode(decode_dbl(a)*decode_dbl(r))` or `encode(decode_dbl(a)/decode_dbl(r))`. -/
inductive Conversion where
  | product (a r : ℤ)
  | quotient (a r : ℤ)
  deriving DecidableEq, Repr

/-- The divisor is not zero, and what is encoded is in the range. -/
def Conversion.Defined : Conversion → Prop
  | .product a r => InRange (mulRate a r)
  | .quotient a r => decodeDbl r ≠ 0 ∧ InRange (Cex.quotient a r)

/-- Whether a conversion is defined is decided by computing it. -/
instance : (c : Conversion) → Decidable c.Defined
  | .product a r => inferInstanceAs (Decidable (InRange (mulRate a r)))
  | .quotient a r => inferInstanceAs (Decidable (decodeDbl r ≠ 0 ∧ InRange (Cex.quotient a r)))

/-- The conversion of `toLay`. -/
def toLayConversion (weak : Bool) (rate amount : ℤ) : Conversion :=
  if weak then .product amount rate else .quotient amount rate

/-- The conversion of `toBack`. -/
def toBackConversion (weak : Bool) (rate value : ℤ) : Conversion :=
  if weak then .quotient value rate else .product value rate

namespace Order

/-- Of `to_match`. -/
def toMatchConversions (rate amount : ℤ) (weak buy : Bool) : List Conversion :=
  if buy then [] else [toLayConversion weak rate amount]

/-- Of the amount of the call that a call makes of itself. -/
def newamountConversions (w : Wallet) (rate : ℤ) (weak buy : Bool) : List Conversion :=
  if buy then [toLayConversion weak rate w.available] else []

/-- Of `could_match_provided_big_ordervalue`, up to the call of itself. -/
def couldMatchPassConversions (w : Wallet) (rate amount : ℤ) (weak buy : Bool) : List Conversion :=
  toMatchConversions rate amount weak buy ++
    (toMatch rate amount weak buy).elim [] fun evLeftToMatch =>
      if evLeftToMatch = 0 then []
      else .quotient evLeftToMatch rate :: (testCost rate evLeftToMatch buy).elim [] fun cost =>
        if cost ≠ 0 ∧ w.available < cost then newamountConversions w rate weak buy else []

/-- Of `could_match_provided_big_ordervalue`. -/
def couldMatchConversions (w : Wallet) (rate : ℤ) (weak buy : Bool) : ℕ → ℤ → List Conversion
  | 0, _ => []
  | fuel + 1, amount => couldMatchPassConversions w rate amount weak buy ++
    match couldMatchPass w rate amount weak buy with
    | some (.inr newamount) => couldMatchConversions w rate weak buy fuel newamount
    | _ => []

/-- Of `could_match_provided_big_amount`. -/
def couldMatchAmountConversions (rate orderValue : ℤ) (weak buy : Bool) : List Conversion :=
  if buy then [] else [toBackConversion weak rate orderValue]

/-- Of `match`, up to the call of itself. -/
def matchPassConversions (o : Order) (w : Wallet) (rate amount : ℤ) (weak buy : Bool) :
    List Conversion :=
  toMatchConversions rate amount weak buy ++
    (toMatch rate amount weak buy).elim [] fun toMatch =>
      if toMatch = 0 then []
      else
        (if toMatch > o.value ∨ buy then [toBackConversion weak rate (o.received toMatch)]
          else []) ++
          (o.matchCost rate amount toMatch weak buy).elim [] fun cost =>
            if w.available < cost then newamountConversions w rate weak buy else []

/-- Of `match`. -/
def matchConversions (o : Order) (w : Wallet) (rate : ℤ) (cur layCur : Cur) (weak buy : Bool) :
    ℕ → ℤ → List Conversion
  | 0, _ => []
  | fuel + 1, amount => o.matchPassConversions w rate amount weak buy ++
    match o.matchPass w rate amount cur layCur weak buy with
    | some (.inr amount) => o.matchConversions w rate cur layCur weak buy fuel amount
    | _ => []

end Order

namespace WaitingQueue

/-- Of a pass of the loop of `match` after the test of the funds. -/
def matchFirstConversions (t : MatchTerms) (fuel : ℕ) (q : WaitingQueue) (i : Id) (x : Matching) :
    List Conversion :=
  (x.pool.live.lookup i).elim [] fun o =>
    o.matchConversions x.wallet q.rate t.cur t.layCur t.weak t.buy fuel x.amountLeft ++
      (o.match x.wallet q.rate t.cur t.layCur t.weak t.buy fuel x.amountLeft).elim [] fun ans =>
        ((x.record i ans).pool.live.lookup i).elim [] fun o' =>
          Order.couldMatchAmountConversions q.rate o'.value t.weak t.buy

/-- Of `match`. -/
def matchConversions (t : MatchTerms) : ℕ → WaitingQueue → Matching → List Conversion
  | 0, _, _ => []
  | fuel + 1, q, x =>
    match q.orders with
    | [] => []
    | i :: _ => Order.couldMatchConversions x.wallet q.rate t.weak t.buy fuel x.amountLeft ++
      match Order.couldMatchProvidedBigOrdervalue x.wallet q.rate t.weak t.buy fuel
        x.amountLeft with
      | some true => q.matchFirstConversions t fuel i x ++
        (q.matchFirst t fuel i x).elim [] fun (q, x) => matchConversions t fuel q x
      | _ => []

end WaitingQueue

/-- Of `match`. -/
def WaitingQueues.matchConversions (t : MatchTerms) (fuel : ℕ) (q : WaitingQueues) (x : Matching) :
    List Conversion :=
  q.high.matchConversions t fuel x ++ (q.high.match t fuel x).elim [] fun (_, x) =>
    if x.amountLeft = 0 then [] else q.low.matchConversions t fuel x

namespace Front

/-- Of the loop of `match`. -/
def matchLoopConversions (t : MatchTerms) (limitRate : ℤ) :
    ℕ → Option ℤ → Front → Matching → List Conversion
  | 0, _, _, _ => []
  | fuel + 1, prevq, f, x =>
    match f.queues with
    | [] => []
    | q :: qs =>
      if prevq = some q.getRate ∨ !q.high.compare limitRate then []
      else q.matchConversions t fuel x ++ (q.match t fuel x).elim [] fun (q, x) =>
        ({ f with queues := q :: qs } : Front).trim.elim [] fun f =>
          matchLoopConversions t limitRate fuel (some q.getRate) f x

/-- Of `match`. -/
def matchConversions (f : Front) (fuel : ℕ) (p : OrderPool) (w : Wallet) (limitRate amount : ℤ)
    (cur layCur : Cur) (buy : Bool) : List Conversion :=
  matchLoopConversions ⟨cur, layCur, !f.invertPriority, buy⟩ limitRate fuel none f
    ⟨p, w, ⟨[], [], 0⟩, amount⟩

end Front

namespace Market

/-- Of the first part of a trade. -/
def takeConversions (m : Market) (weak : Bool) (fuel : ℕ) (p : OrderPool) (w : Wallet)
    (limitRate amount : ℤ) (buy priLow : Bool) : List Conversion :=
  if priLow then []
  else (m.front !weak).matchConversions fuel p w limitRate amount (m.currency weak)
    (m.currency !weak) buy

/-- Of the test whether something is left. -/
def hasRestConversions (weak : Bool) (fuel : ℕ) (x : Matching) (limitRate : ℤ) (buy : Bool) :
    List Conversion :=
  if (if weak then x.ms.unmatched ≠ 0 else x.ms.unmatched > 0) then
    Order.couldMatchConversions x.wallet limitRate weak buy fuel x.ms.unmatched
  else []

/-- Of the second part of a trade. -/
def restConversions (weak : Bool) (fuel : ℕ) (x : Matching) (limitRate : ℤ) (buy : Bool) :
    List Conversion :=
  hasRestConversions weak fuel x limitRate buy ++
    if hasRest weak fuel x limitRate buy = some true ∧ buy then
      [toLayConversion weak limitRate x.ms.unmatched]
    else []

/-- Of `trade_weak` and `trade_strong`. -/
def tradeSideConversions (m : Market) (weak : Bool) (fuel : ℕ) (p : OrderPool) (w : Wallet)
    (limitRate amount : ℤ) (buy priLow : Bool) : List Conversion :=
  m.takeConversions weak fuel p w limitRate amount buy priLow ++
    (m.take weak fuel p w limitRate amount buy priLow).elim [] fun c => c.elim [] fun (_, x) =>
      restConversions weak fuel x limitRate buy

/-- Of `trade`. -/
def tradeConversions (m : Market) (fuel : ℕ) (p : OrderPool) (w : Wallet) (cur : Cur)
    (limit amount : ℤ) (buy priLow : Bool) : List Conversion :=
  m.tradeSideConversions (m.paysWeak cur buy) fuel p w limit amount buy priLow

end Market

namespace Engine

/-- Of `_sell`. -/
def sellConversions (fuel : ℕ) (e : Engine) (acid : Id) (m : Market) (cid : Cur)
    (limitRate amount : ℤ) (buy priLow : Bool) : List Conversion :=
  (e.sellWallet acid m cid buy).elim [] fun w =>
    m.tradeConversions fuel e.pool w cid limitRate amount buy priLow

/-- Of `_trade`. -/
def tradeConversions (fuel : ℕ) (acid : Id) (priLow : Bool) (e : Engine) (input : TradeInput) :
    List Conversion :=
  match input.parse with
  | .error _ => []
  | .ok t => (e.findMarket (marketKey t.weakcur t.strongcur)).elim [] fun m =>
    e.sellConversions fuel acid m t.curid t.rate t.amount t.buy priLow

/-- Of `update_order`, where the rate changes. -/
def updateConversions (fuel : ℕ) (acid : Id) (e : Engine) (input : UpdateInput) :
    List Conversion :=
  match input.parse with
  | .error _ => []
  | .ok (i, amount, rate) =>
    if i ∉ e.orders then []
    else (e.pool.live.lookup i).elim [] fun o =>
      if amount < 1 ∨ rate = o.rate then []
      else (e.cancel acid i).elim [] fun (e, _) =>
        (e.findMarket (marketKey o.weakCur o.strongCur)).elim [] fun m =>
          e.sellConversions fuel acid m (updateCur o) rate amount o.buy false

end Engine

end AcCore.Tex.Cex
