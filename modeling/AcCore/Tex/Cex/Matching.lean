import AcCore.Lib.Postings
import AcCore.Tex.Cex.Market
import AcCore.Tex.Cex.Rates

/-!
# What a match does

A match takes the values of the resting orders down by what is matched with
them, and moves nothing else: the orders that expire leave their queues with the
value that is left. This file proves it of one order, of a queue, and of a
front.
-/

namespace AcCore.Tex.Cex

open Lib

/-! ## One order -/

/-- Both sides of the match agree, in the currencies of the terms and at the
rate of the item up to one rounding. -/
structure MatchItem.Fair [Rounding] (t : MatchTerms) (i : MatchItem) : Prop where
  layCost : i.lay.cost = i.back.received
  layReceived : i.lay.received = i.back.cost
  layCostCur : i.lay.costCur = t.layCur
  layReceivedCur : i.lay.receivedCur = t.cur
  backCostCur : i.back.costCur = t.cur
  backReceivedCur : i.back.receivedCur = t.layCur
  rate : toBack t.weak i.rate i.back.received = some i.back.cost ∨
    toLay t.weak i.rate i.back.cost = some i.back.received

namespace Order

variable {o o' : Order} {w w' : Wallet} {rate amount left : ℤ} {t : MatchTerms}
  {item : MatchItem} {fuel : ℕ}

/-- What one match of an order does. -/
structure Executed [Rounding] (t : MatchTerms) (rate : ℤ) (o : Order) (w : Wallet)
    (item : MatchItem)
    (o' : Order) (w' : Wallet) : Prop where
  fair : item.Fair t
  layOrderId : item.layOrderId = o.id
  rate : item.rate = rate
  order : o' = { o with value := o.value - item.lay.cost }
  nonneg : 0 ≤ o'.value
  wallet : w'.available = w.available - item.back.cost

/-- A match only takes what was received off the value. -/
theorem afterMatch_eq (o : Order) (toMatch : ℤ) :
    o.afterMatch toMatch = { o with value := o.value - o.received toMatch } := by
  by_cases hall : toMatch > o.value <;> simp [afterMatch, received, hall]

/-- No more is received than the order has. -/
theorem received_le (o : Order) (toMatch : ℤ) : o.received toMatch ≤ o.value := by
  unfold received
  split_ifs <;> omega

/-- A pass that makes a match item executes the order. -/
theorem matchPass_executed [Rounding]
    (h : o.matchPass w rate amount t.cur t.layCur t.weak t.buy =
      some (.inl (some (item, o', w'), left))) : Executed t rate o w item o' w' := by
  simp only [matchPass, Option.bind_eq_bind, Option.bind_eq_some_iff, Option.pure_def] at h
  obtain ⟨m, hm, h⟩ := h
  split_ifs at h with hzero
  · simp at h
  obtain ⟨cost, hcost, h⟩ := Option.bind_eq_some_iff.mp h
  split_ifs at h with hfunds hnone
  · simp at h
  · simp at h
  · simp only [Option.some.injEq, Sum.inl.injEq, Prod.mk.injEq] at h
    obtain ⟨⟨rfl, rfl, rfl⟩, -⟩ := h
    refine ⟨⟨rfl, rfl, rfl, rfl, rfl, rfl, ?_⟩, rfl, rfl, o.afterMatch_eq m, ?_, ?_⟩
    · -- the cost is computed from what is received, or the other way round
      by_cases hback : m > o.value ∨ t.buy = true
      · rw [matchCost, if_pos hback] at hcost
        exact Or.inl hcost
      · rw [matchCost, if_neg hback] at hcost
        rw [not_or, Bool.not_eq_true] at hback
        obtain rfl := Option.some.inj hcost
        refine Or.inr ?_
        simpa [toMatch, matchItem, received, hback] using hm
    · have := o.received_le m
      rw [afterMatch_eq]
      dsimp only
      omega
    · simp only [Wallet.withdraw, matchItem]
      rw [if_neg (by omega)]

/-- What `order::match` does when it returns a match. -/
theorem match_executed [Rounding]
    (h : o.match w rate t.cur t.layCur t.weak t.buy fuel amount =
      some (some (item, o', w'), left)) :
    Executed t rate o w item o' w' := by
  induction fuel generalizing amount with
  | zero => cases h
  | succ fuel ih =>
    simp only [«match», Option.bind_eq_bind, Option.bind_eq_some_iff] at h
    obtain ⟨r, hpass, h⟩ := h
    cases r with
    | inl result =>
      obtain rfl := Option.some.inj h
      exact matchPass_executed hpass
    | inr amount => exact ih h

end Order

namespace Order

/-- More calls of itself do not change the answer of a funding test. -/
theorem couldMatch_mono [Rounding] {w : Wallet} {rate amount : ℤ} {weak buy answer : Bool}
    {fuel : ℕ}
    (h : couldMatchProvidedBigOrdervalue w rate weak buy fuel amount = some answer) {fuel' : ℕ}
    (hle : fuel ≤ fuel') :
    couldMatchProvidedBigOrdervalue w rate weak buy fuel' amount = some answer := by
  induction fuel generalizing amount fuel' with
  | zero => cases h
  | succ fuel ih =>
    obtain ⟨fuel', rfl⟩ : ∃ n, fuel' = n + 1 := ⟨fuel' - 1, by omega⟩
    simp only [couldMatchProvidedBigOrdervalue, Option.bind_eq_bind,
      Option.bind_eq_some_iff] at h ⊢
    obtain ⟨r, hr, h⟩ := h
    refine ⟨r, hr, ?_⟩
    cases r with
    | inl answer' => exact h
    | inr newamount => exact ih h (by omega)

/-- A funding test has one answer. -/
theorem couldMatch_unique [Rounding] {w : Wallet} {rate amount : ℤ} {weak buy a b : Bool}
    {fuel fuel' : ℕ}
    (ha : couldMatchProvidedBigOrdervalue w rate weak buy fuel amount = some a)
    (hb : couldMatchProvidedBigOrdervalue w rate weak buy fuel' amount = some b) : a = b := by
  have ha' := couldMatch_mono ha (le_max_left fuel fuel')
  have hb' := couldMatch_mono hb (le_max_right fuel fuel')
  exact Option.some.inj (ha'.symm.trans hb')

end Order

/-! ## The order objects -/

namespace OrderPool

/-- The orders have their own ids, and the next id is not taken. -/
def Ok (p : OrderPool) : Prop := ∀ i o, p.live.lookup i = some o → o.id = i ∧ i < p.next

/-- Takes what is matched from the value of the order. -/
def reduce (p : OrderPool) (m : MatchItem) : OrderPool :=
  match p.live.lookup m.layOrderId with
  | none => p
  | some o => p.set m.layOrderId { o with value := o.value - m.lay.cost }

/-- Takes all that is matched from the values of the orders. -/
def fill (p : OrderPool) (items : List MatchItem) : OrderPool := items.foldl reduce p

/-- What is matched of an order. -/
def filled (items : List MatchItem) (i : Id) : ℤ :=
  posted (items.map fun m => (m.layOrderId, m.lay.cost)) i

/-- Nothing is filled by no items. -/
@[simp] theorem filled_nil (i : Id) : filled [] i = 0 := rfl

/-- An item adds what it costs the order that it names. -/
theorem filled_cons (m : MatchItem) (items : List MatchItem) (i : Id) :
    filled (m :: items) i = (if m.layOrderId = i then m.lay.cost else 0) + filled items i := by
  simp [filled]

/-- What is filled adds up over the items. -/
theorem filled_append (items items' : List MatchItem) (i : Id) :
    filled (items ++ items') i = filled items i + filled items' i := by
  simp [filled, posted_append]

/-- Orders that no item names are not filled. -/
theorem filled_eq_zero {items : List MatchItem} {i : Id} (h : ∀ m ∈ items, m.layOrderId ≠ i) :
    filled items i = 0 := by
  refine posted_eq_zero fun p hp => ?_
  obtain ⟨m, hm, rfl⟩ := List.mem_map.mp hp
  exact h m hm

/-- The object that was set is the one at its id. -/
@[simp] theorem lookup_set_self (p : OrderPool) (i : Id) (o : Order) :
    (p.set i o).live.lookup i = some o := Finmap.lookup_insert _

/-- Setting an object leaves the others. -/
theorem lookup_set_of_ne (p : OrderPool) {i j : Id} (o : Order) (h : j ≠ i) :
    (p.set i o).live.lookup j = p.live.lookup j := Finmap.lookup_insert_of_ne _ h

/-- One item takes its cost off the order that it names. -/
theorem lookup_reduce (p : OrderPool) (m : MatchItem) (i : Id) :
    (p.reduce m).live.lookup i = (p.live.lookup i).map fun o =>
      { o with value := o.value - if m.layOrderId = i then m.lay.cost else 0 } := by
  unfold reduce
  by_cases hi : m.layOrderId = i
  · subst hi
    cases h : p.live.lookup m.layOrderId with
    | none => simp [h]
    | some o => simp
  · cases h : p.live.lookup m.layOrderId with
    | none => simp [hi]
    | some o =>
      rw [lookup_set_of_ne p _ (Ne.symm hi)]
      simp [hi]

/-- Items take what they fill off the values, and nothing else changes. -/
theorem lookup_fill (p : OrderPool) (items : List MatchItem) (i : Id) :
    (p.fill items).live.lookup i =
      (p.live.lookup i).map fun o => { o with value := o.value - filled items i } := by
  induction items generalizing p with
  | nil => simp [fill]
  | cons m items ih =>
    have hrest := ih (p.reduce m)
    rw [fill, List.foldl_cons, ← fill, hrest, lookup_reduce, Option.map_map]
    congr 1
    funext o
    simp only [Function.comp, filled_cons]
    congr 1
    omega

/-- Orders that no item names keep their objects. -/
theorem lookup_fill_of_notMem (p : OrderPool) {items : List MatchItem} {i : Id}
    (h : ∀ m ∈ items, m.layOrderId ≠ i) : (p.fill items).live.lookup i = p.live.lookup i := by
  rw [lookup_fill, filled_eq_zero h]
  simp

/-- A match hands out no id. -/
@[simp] theorem next_reduce (p : OrderPool) (m : MatchItem) : (p.reduce m).next = p.next := by
  unfold reduce
  split <;> rfl

/-- Matches hand out no ids. -/
@[simp] theorem next_fill (p : OrderPool) (items : List MatchItem) :
    (p.fill items).next = p.next := by
  induction items generalizing p with
  | nil => rfl
  | cons m items ih =>
    rw [fill, List.foldl_cons, ← fill, ih, next_reduce]

/-- Filling by two lists of items, one after the other. -/
theorem fill_append (p : OrderPool) (items items' : List MatchItem) :
    p.fill (items ++ items') = (p.fill items).fill items' := by
  simp [fill]

/-- Matches keep the pool well formed. -/
theorem Ok.fill {p : OrderPool} (hp : p.Ok) (items : List MatchItem) : (p.fill items).Ok := by
  intro i o' h
  rw [lookup_fill, Option.map_eq_some_iff] at h
  obtain ⟨o, ho, rfl⟩ := h
  rw [next_fill]
  exact hp i o ho

/-- The next id is not in use. -/
theorem Ok.notMem_next {p : OrderPool} (hp : p.Ok) : p.live.lookup p.next = none := by
  cases h : p.live.lookup p.next with
  | none => rfl
  | some o => exact absurd (hp _ _ h).2 (lt_irrefl _)

/-- The pool stays well formed when an object keeps its id. -/
theorem Ok.set {p : OrderPool} (hp : p.Ok) {i : Id} {o o' : Order} (ho : p.live.lookup i = some o)
    (hid : o'.id = o.id) : (p.set i o').Ok := by
  intro j o'' h
  by_cases hj : j = i
  · subst hj
    rw [lookup_set_self] at h
    obtain rfl := Option.some.inj h
    exact ⟨hid.trans (hp j o ho).1, (hp j o ho).2⟩
  · rw [lookup_set_of_ne p _ hj] at h
    exact hp j o'' h

/-- A new order is the object at the id that it gets. -/
theorem lookup_newOrder_self (p : OrderPool) (value : ℤ) (weak buy : Bool) :
    (p.newOrder value weak buy).2.live.lookup p.next =
      some (Order.create p.next value weak buy) := Finmap.lookup_insert _

/-- A new order leaves the other objects. -/
theorem lookup_newOrder_of_ne (p : OrderPool) (value : ℤ) (weak buy : Bool) {j : Id}
    (hj : j ≠ p.next) : (p.newOrder value weak buy).2.live.lookup j = p.live.lookup j :=
  Finmap.lookup_insert_of_ne _ hj

/-- A new order keeps the pool well formed. -/
theorem Ok.newOrder {p : OrderPool} (hp : p.Ok) (value : ℤ) (weak buy : Bool) :
    (p.newOrder value weak buy).2.Ok := by
  intro j o h
  by_cases hj : j = p.next
  · subst hj
    rw [lookup_newOrder_self] at h
    obtain rfl := Option.some.inj h
    exact ⟨rfl, Nat.lt_succ_self _⟩
  · rw [lookup_newOrder_of_ne p value weak buy hj] at h
    exact ⟨(hp j o h).1, (hp j o h).2.trans (Nat.lt_succ_self _)⟩

/-- Writing a reduced order is a reduction. -/
theorem set_eq_reduce {p : OrderPool} {m : MatchItem} {o : Order}
    (h : p.live.lookup m.layOrderId = some o) :
    p.set m.layOrderId { o with value := o.value - m.lay.cost } = p.reduce m := by
  simp [reduce, h]

end OrderPool

/-! ## Rounds -/

/-- One pass of the match loop at an order that rests at a rate. -/
structure Touched [Rounding] (t : MatchTerms) (r : ℤ) (i : Id) (expired : Bool)
    (x x' : Matching) : Prop where
  /-- The funds are tested, the order is matched, and it is tested whether it expires. -/
  pass : ∃ fuel o ans o',
    Order.couldMatchProvidedBigOrdervalue x.wallet r t.weak t.buy fuel x.amountLeft = some true ∧
    x.pool.live.lookup i = some o ∧
    o.match x.wallet r t.cur t.layCur t.weak t.buy fuel x.amountLeft = some ans ∧
    (x.record i ans).pool.live.lookup i = some o' ∧
    Order.couldMatchProvidedBigAmount r o'.value t.weak t.buy = some !expired ∧
    x' = if expired then (x.record i ans).expire i else x.record i ans

/-- Passes of the match loop at accepted rates, each at the first order of a list
of the resting orders with their rates, from which the orders that expire are
removed. -/
inductive Rounds [Rounding] (t : MatchTerms) (accepts : ℤ → Prop) :
    List (ℤ × Id) → Matching → List (ℤ × Id) → Matching → Prop
  | nil (l : List (ℤ × Id)) (x : Matching) : Rounds t accepts l x l x
  | touch {r : ℤ} {i : Id} {l l' : List (ℤ × Id)} {x y x' : Matching} (hr : accepts r)
      (h : Touched t r i false x y) (hrest : Rounds t accepts ((r, i) :: l) y l' x') :
      Rounds t accepts ((r, i) :: l) x l' x'
  | expire {r : ℤ} {i : Id} {l l' : List (ℤ × Id)} {x y x' : Matching} (hr : accepts r)
      (h : Touched t r i true x y) (hrest : Rounds t accepts l y l' x') :
      Rounds t accepts ((r, i) :: l) x l' x'

namespace Rounds

variable {t : MatchTerms} {accepts : ℤ → Prop} {l l' l'' : List (ℤ × Id)} {x x' x'' : Matching}

/-- Rounds after rounds are rounds. -/
theorem trans [Rounding] (h : Rounds t accepts l x l' x') (h' : Rounds t accepts l' x' l'' x'') :
    Rounds t accepts l x l'' x'' := by
  induction h with
  | nil => exact h'
  | touch hr hstep _ ih => exact .touch hr hstep (ih h')
  | expire hr hstep _ ih => exact .expire hr hstep (ih h')

/-- Orders leave the list from its front. -/
theorem suffix [Rounding] (h : Rounds t accepts l x l' x') : l' <:+ l := by
  induction h with
  | nil => exact List.suffix_refl _
  | touch _ _ _ ih => exact ih
  | expire _ _ _ ih => exact ih.trans (List.suffix_cons _ _)

/-- Orders further down the list take no part. -/
theorem append [Rounding] (h : Rounds t accepts l x l' x') (m : List (ℤ × Id)) :
    Rounds t accepts (l ++ m) x (l' ++ m) x' := by
  induction h with
  | nil => exact .nil _ _
  | touch hr hstep _ ih => exact .touch hr hstep ih
  | expire hr hstep _ ih => exact .expire hr hstep ih

end Rounds

/-- What a pass does: at most one match, and perhaps the order expires. -/
theorem Touched.cases [Rounding] {t : MatchTerms} {r : ℤ} {i : Id} {expired : Bool}
    {x x' : Matching}
    (h : Touched t r i expired x x') (hp : x.pool.Ok) :
    ∃ items : List MatchItem,
      x'.ms.items = x.ms.items ++ items ∧
      x'.ms.expiredOrders = x.ms.expiredOrders ++ (if expired then [i] else []) ∧
      x'.pool = x.pool.fill items ∧
      x'.wallet.available = x.wallet.available - (items.map (·.back.cost)).sum ∧
      (∀ m ∈ items, m.Fair t ∧ m.rate = r ∧ m.layOrderId = i) ∧
      ∃ o, x'.pool.live.lookup i = some o ∧
        Order.couldMatchProvidedBigAmount r o.value t.weak t.buy = some !expired := by
  obtain ⟨fuel, o, ans, o', -, ho, hmatch, ho', hdust, rfl⟩ := h.pass
  have hexpire : ∀ y : Matching,
      (if expired then y.expire i else y).ms.expiredOrders =
        y.ms.expiredOrders ++ (if expired then [i] else []) ∧
      (if expired then y.expire i else y).ms.items = y.ms.items ∧
      (if expired then y.expire i else y).pool = y.pool ∧
      (if expired then y.expire i else y).wallet = y.wallet := by
    intro y
    cases expired <;> simp [Matching.expire]
  obtain ⟨hexp, hitems, hpool, hwallet⟩ := hexpire (x.record i ans)
  rw [hexp, hitems, hpool, hwallet]
  obtain ⟨result, left⟩ := ans
  cases result with
  | none => exact ⟨[], by simp [Matching.record], by simp [Matching.record],
      by simp [Matching.record, OrderPool.fill], by simp [Matching.record], by simp, o', ho', hdust⟩
  | some r =>
    obtain ⟨item, o'', w⟩ := r
    have hdone := Order.match_executed hmatch
    have hid : item.layOrderId = i := hdone.layOrderId.trans (hp i o ho).1
    refine ⟨[item], rfl, rfl, ?_, by simp [Matching.record, hdone.wallet], ?_, o', ho', hdust⟩
    · rw [Matching.record, hdone.order, OrderPool.fill, List.foldl_cons, List.foldl_nil]
      rw [← hid] at ho ⊢
      exact OrderPool.set_eq_reduce ho
    · intro m hm
      obtain rfl := List.mem_singleton.mp hm
      exact ⟨hdone.fair, hdone.rate, hid⟩

/-- A match makes and deletes no orders. -/
theorem Rounds.pool [Rounding] {t : MatchTerms} {accepts : ℤ → Prop} {l l' : List (ℤ × Id)}
    {x x' : Matching} (h : Rounds t accepts l x l' x') (hp : x.pool.Ok) :
    x'.pool.Ok ∧ x'.pool.next = x.pool.next := by
  induction h with
  | nil => exact ⟨hp, rfl⟩
  | touch _ hstep _ ih | expire _ hstep _ ih =>
    obtain ⟨items, -, -, hpool, -⟩ := hstep.cases hp
    obtain ⟨hok, hnext⟩ := ih (hpool ▸ hp.fill items)
    exact ⟨hok, by rw [hnext, hpool, OrderPool.next_fill]⟩

/-- What all passes of a match do together. -/
structure Effect [Rounding] (t : MatchTerms) (l l' : List (ℤ × Id)) (x x' : Matching)
    (items : List MatchItem) (gone : List (ℤ × Id)) : Prop where
  recorded : x'.ms.items = x.ms.items ++ items
  expired : x'.ms.expiredOrders = x.ms.expiredOrders ++ gone.map Prod.snd
  listing : l = gone ++ l'
  pool : x'.pool = x.pool.fill items
  wallet : x'.wallet.available = x.wallet.available - (items.map (·.back.cost)).sum
  fair : ∀ m ∈ items, m.Fair t ∧ (m.rate, m.layOrderId) ∈ l
  dust : ∀ e ∈ gone, ∃ o, x'.pool.live.lookup e.2 = some o ∧
    Order.couldMatchProvidedBigAmount e.1 o.value t.weak t.buy = some false

/-- Rounds have the effect of a list of items, and of the orders that are gone. -/
theorem Rounds.effect [Rounding] {t : MatchTerms} {accepts : ℤ → Prop} {l l' : List (ℤ × Id)}
    {x x' : Matching} (h : Rounds t accepts l x l' x') (hp : x.pool.Ok)
    (hl : (l.map Prod.snd).Nodup) :
    ∃ items gone, Effect t l l' x x' items gone := by
  induction h with
  | nil l x =>
    exact ⟨[], [], by simp, by simp, rfl, by simp [OrderPool.fill], by simp, by simp, by simp⟩
  | @touch r i l l' x y x' _ hstep _ ih =>
    obtain ⟨first, hitems, hexp, hpool, hwallet, hfair, -⟩ := hstep.cases hp
    obtain ⟨rest, gone, hrest⟩ := ih (hpool ▸ hp.fill first) hl
    refine ⟨first ++ rest, gone, ?_, ?_, hrest.listing, ?_, ?_, ?_, hrest.dust⟩
    · rw [hrest.recorded, hitems, List.append_assoc]
    · rw [hrest.expired, hexp]
      simp
    · rw [hrest.pool, hpool, OrderPool.fill_append]
    · rw [hrest.wallet, hwallet, List.map_append, List.sum_append]
      omega
    · intro m hm
      rcases List.mem_append.mp hm with hm | hm
      · obtain ⟨hf, hr, hi⟩ := hfair m hm
        exact ⟨hf, by simp [hr, hi]⟩
      · exact hrest.fair m hm
  | @expire r i l l' x y x' _ hstep _ ih =>
    obtain ⟨first, hitems, hexp, hpool, hwallet, hfair, o, ho, hdust⟩ := hstep.cases hp
    rw [List.map_cons, List.nodup_cons] at hl
    obtain ⟨rest, gone, hrest⟩ := ih (hpool ▸ hp.fill first) hl.2
    refine ⟨first ++ rest, (r, i) :: gone, ?_, ?_, ?_, ?_, ?_, ?_, ?_⟩
    · rw [hrest.recorded, hitems, List.append_assoc]
    · rw [hrest.expired, hexp]
      simp
    · rw [hrest.listing, List.cons_append]
    · rw [hrest.pool, hpool, OrderPool.fill_append]
    · rw [hrest.wallet, hwallet, List.map_append, List.sum_append]
      omega
    · intro m hm
      rcases List.mem_append.mp hm with hm | hm
      · obtain ⟨hf, hr, hi⟩ := hfair m hm
        exact ⟨hf, by simp [hr, hi]⟩
      · obtain ⟨hf, hmem⟩ := hrest.fair m hm
        exact ⟨hf, List.mem_cons_of_mem _ hmem⟩
    · intro e he
      rcases List.mem_cons.mp he with rfl | he
      · -- the later passes are at other orders
        have hother : ∀ m ∈ rest, m.layOrderId ≠ i := by
          rintro m hm rfl
          exact hl.1 (List.mem_map.mpr ⟨_, (hrest.fair m hm).2, rfl⟩)
        exact ⟨o, by rw [hrest.pool, OrderPool.lookup_fill_of_notMem _ hother, ho], hdust⟩
      · exact hrest.dust e he

end AcCore.Tex.Cex
