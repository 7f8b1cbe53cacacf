import AcCore.Tex.Cex.Crossing

/-!
# Runs of one front

The calls on a front in any order. Its tables always lead to its queues, and no
queue that is dropped has an order. At the top of the heap there can be an empty
queue: `new_order` makes the queue of a rate before it refuses the amount.
-/

namespace AcCore.Tex.Cex

open Lib

namespace Front

/-- The queue at the top of the heap has an order. -/
def Topped (f : Front) : Prop := ∀ q ∈ f.queues.head?, q.listing ≠ []

/-- A search over all queues finds an order that the limit accepts. -/
def Acceptable (f : Front) (limitRate : ℤ) : Prop :=
  ∃ q ∈ f.queues, (q.high.orders ≠ [] ∨ q.low.orders ≠ []) ∧ q.high.compare limitRate = true

/-- The queues of a front are finitely many. -/
instance (f : Front) (limitRate : ℤ) : Decidable (f.Acceptable limitRate) :=
  inferInstanceAs (Decidable (∃ q ∈ f.queues, _))

variable {p p' : OrderPool} {f f' : Front} {q q' : WaitingQueues} {i : Id} {r : ℤ}
  {t : MatchTerms} {limitRate : ℤ} {fuel : ℕ} {x x' : Matching}

/-- The table has every queue that `trim` drops, and these are empty. -/
theorem QueuesOk.exists_trim (hf : f.QueuesOk p) :
    ∃ f', f.trim = some f' ∧ ∀ q ∈ f.queues, q ∉ f'.queues → q.listing = [] := by
  have hloop : ∀ (qs : List WaitingQueues) (rates : Finset ℤ),
      (qs.map WaitingQueues.getRate).Nodup → (∀ q ∈ qs, q.getRate ∈ rates) →
      ∃ r, trimQueues qs rates = some r := by
    intro qs
    induction qs with
    | nil => exact fun rates _ _ => ⟨_, rfl⟩
    | cons q qs ih =>
      intro rates hnodup hrates
      rw [List.map_cons, List.nodup_cons] at hnodup
      unfold trimQueues
      rw [if_pos (hrates q List.mem_cons_self)]
      split_ifs
      · exact ⟨_, rfl⟩
      · refine ih _ hnodup.2 fun q' hq' => Finset.mem_erase.mpr ⟨fun hsame => ?_, ?_⟩
        · exact hnodup.1 (hsame ▸ List.mem_map_of_mem hq')
        · exact hrates q' (List.mem_cons_of_mem _ hq')
  obtain ⟨⟨qs, rates⟩, htrim⟩ := hloop f.queues f.queuesByRate hf.rates fun q hq =>
    (hf.byRate _).mpr (List.mem_map_of_mem hq)
  refine ⟨{ f with queues := qs, queuesByRate := rates }, by simp [Front.trim, htrim],
    fun q hq hnot => ?_⟩
  obtain ⟨gone, hqs, hgone, -⟩ := trimQueues_spec htrim
  have hgone' : q ∈ gone := by
    rw [hqs, List.mem_append] at hq
    exact hq.resolve_right hnot
  exact (hf.queues q hq).hasValue_iff.mp (hgone q hgone')

/-- After `trim` the top has an order. -/
theorem QueuesOk.topped_trim (hf : f.QueuesOk p) (h : f.trim = some f') : f'.Topped := by
  obtain ⟨hf', -, -, -, -, hhead, -⟩ := hf.trim h
  intro q hq hnone
  have hvalue := hhead q hq
  rw [((hf'.queues q (List.mem_of_mem_head? hq)).hasValue_iff).mpr hnone] at hvalue
  cases hvalue

/-- A queue with orders is written: the top has an order unless it is another
queue that has none. -/
theorem topped_setQueue (hq' : q'.listing ≠ [])
    (h : ∀ q ∈ f.queues.head?, q.getRate ≠ q'.getRate → q.listing ≠ []) :
    (f.setQueue q').Topped := by
  intro q hq
  rw [setQueue, Keyed.put, List.head?_map, Option.mem_def, Option.map_eq_some_iff] at hq
  obtain ⟨q₁, hq₁, hq⟩ := hq
  split_ifs at hq with hsame
  · exact hq ▸ hq'
  · exact hq ▸ h q₁ hq₁ hsame

/-! ## The operations and the top -/

/-- At the top of the heap is what was there, or the new queue. -/
theorem head_emplaceQueue (hq : q ∈ (f.emplaceQueue q').queues.head?) :
    q = q' ∨ q ∈ f.queues.head? := by
  unfold emplaceQueue at hq
  cases hqs : f.queues with
  | nil =>
    rw [hqs] at hq
    exact Or.inl (Option.some.inj hq).symm
  | cons q₁ qs =>
    rw [hqs, List.orderedInsert] at hq
    split_ifs at hq
    · exact Or.inl (Option.some.inj hq).symm
    · exact Or.inr hq

/-- After `get_queue_rate` only the queue of the rate can be an empty one at the
top; it is not, unless it was made. -/
theorem Topped.getQueueRate {d : RulerDef} {b : Bool} (htop : f.Topped)
    (h : f.getQueueRate d r = (f', b)) :
    (∀ q ∈ f'.queues.head?, q.getRate ≠ r → q.listing ≠ []) ∧
      ((d.Lists r → r ∈ f.queuesByRate) → f'.Topped) := by
  unfold Front.getQueueRate at h
  split_ifs at h with hknown hvalid
  · obtain ⟨rfl, rfl⟩ := Prod.mk.inj h
    exact ⟨fun q hq _ => htop q hq, fun _ => htop⟩
  · obtain ⟨rfl, rfl⟩ := Prod.mk.inj h
    refine ⟨fun q hq hne => ?_, fun hkept => absurd (hkept hvalid) hknown⟩
    rcases head_emplaceQueue hq with rfl | hq
    · exact absurd rfl hne
    · exact htop q hq
  · obtain ⟨rfl, rfl⟩ := Prod.mk.inj h
    exact ⟨fun q hq _ => htop q hq, fun _ => htop⟩

/-- An order that is made keeps an order at the top. -/
theorem Topped.newOrder {d : RulerDef} {priLow weak buy : Bool} {rate amount : ℤ} {no : Option Id}
    (htop : f.Topped) (hd : ∀ r, d.Lists r → 0 < r) (hf : f.Ok p) (hp : p.Ok)
    (hkept : amount < 1 → d.Lists rate → rate ∈ f.queuesByRate)
    (h : f.newOrder d priLow p rate amount weak buy = some (no, f', p')) : f'.Topped := by
  unfold Front.newOrder at h
  cases hget : f.getQueueRate d rate with
  | mk g b =>
    obtain ⟨hother, hg⟩ := htop.getQueueRate hget
    obtain ⟨hgOk, -, -, -, hqueue⟩ := getQueueRate_spec hd hf hget
    rw [hget] at h
    cases b with
    | false =>
      simp only [Option.some.injEq, Prod.mk.injEq] at h
      obtain ⟨-, rfl, -⟩ := h
      refine hg fun hvalid => ?_
      by_contra hnew
      rw [Front.getQueueRate, if_neg hnew, if_pos hvalid] at hget
      cases hget
    | true =>
      obtain ⟨q, hq⟩ := hqueue rfl
      simp only [hq, Option.map_some, Option.some.injEq] at h
      by_cases hpos : amount < 1
      · have hnone := (WaitingQueues.newOrder_refused (q := q) (p := p) priLow weak buy hpos).1
        generalize q.newOrder priLow p amount weak buy = res at h hnone
        obtain ⟨r₁, r₂, r₃⟩ := res
        dsimp only at hnone
        subst hnone
        simp only [Prod.mk.injEq] at h
        obtain ⟨-, rfl, -⟩ := h
        exact hg (hkept hpos)
      · have hqmem : q ∈ g.queues := Keyed.mem_of_get hq
        have hqrate : q.getRate = rate := Keyed.key_of_get hq
        obtain ⟨q', hnew, -, hrate', -, hperm⟩ := WaitingQueues.newOrder_spec
          (hgOk.queues q hqmem) hp priLow weak buy (not_lt.mp hpos)
        rw [hnew] at h
        simp only [Prod.mk.injEq] at h
        obtain ⟨-, rfl, -⟩ := h
        refine topped_setQueue (fun hnone => ?_) fun q₁ hq₁ hne => hother q₁ hq₁ ?_
        · rw [hnone] at hperm
          exact absurd hperm.nil_eq (List.cons_ne_nil _ _).symm
        · rwa [hrate', hqrate] at hne

/-- A cancellation leaves an order at the top. -/
theorem Ok.topped_cancelOrder {o : Order} (hf : f.Ok p)
    (h : f.cancelOrder p i = some (some (o, f'))) : f'.Topped := by
  rcases cancelOrder_cases hf h with ⟨hnone, -⟩ | ⟨o₁, g, f₁, r, -, hsome, hg, htrim, -⟩
  · cases hnone
  · obtain ⟨rfl, rfl⟩ := Prod.mk.inj (Option.some.inj hsome)
    exact hg.toQueuesOk.topped_trim htrim

/-- An update keeps orders in the top queue. -/
theorem Topped.updateOrder {amount : ℤ} {no : Option Id} (htop : f.Topped) (hf : f.Ok p) (hp : p.Ok)
    (h : f.updateOrder p i amount = some (no, f', p')) : f'.Topped := by
  unfold Front.updateOrder at h
  split_ifs at h with hpos
  · simp only [Option.some.injEq, Prod.mk.injEq] at h
    exact h.2.1 ▸ htop
  cases hlookup : f.queuesByOrder.lookup i with
  | none =>
    simp only [hlookup, Option.some.injEq, Prod.mk.injEq] at h
    exact h.2.1 ▸ htop
  | some r =>
    simp only [hlookup, Option.bind_eq_bind, Option.bind_eq_some_iff] at h
    obtain ⟨q, hq, ⟨j, q₁, p₁⟩, hupdate, h⟩ := h
    have hmem : (r, i) ∈ f.listing := (hf.byOrder i r).mp hlookup
    have hmemq := hf.mem_listing_queue hq hmem
    obtain ⟨o, ho, -⟩ := hf.live hmem
    obtain ⟨q₂, hq₂, -, -, -, hperm⟩ := WaitingQueues.updateOrder_spec
      (hf.queues q (Keyed.mem_of_get hq)) hp hmemq ho (not_lt.mp hpos)
    rw [hq₂] at hupdate
    simp only [Option.some.injEq, Prod.mk.injEq] at hupdate
    obtain ⟨rfl, rfl, rfl⟩ := hupdate
    have hset : (f.setQueue q₂).Topped := by
      refine topped_setQueue (fun hnone => ?_) fun q₁ hq₁ _ => htop q₁ hq₁
      have hmem₂ := hperm.mem_iff.mpr (List.mem_append_right _ hmemq)
      rw [hnone] at hmem₂
      cases hmem₂
    cases hno : (p.resize i o amount).1 with
    | none =>
      simp only [hno, Option.pure_def, Option.some.injEq, Prod.mk.injEq] at h
      exact h.2.1 ▸ hset
    | some j =>
      simp only [hno, Option.pure_def, Option.some.injEq, Prod.mk.injEq] at h
      exact h.2.1 ▸ hset

/-- The first queue of a front after it was matched, before the front is trimmed. -/
theorem QueuesOk.matched {qs : List WaitingQueues} (hf : f.QueuesOk x.pool) (hp : x.pool.Ok)
    (hqs : f.queues = q :: qs) (hmatch : q.match t fuel x = some (q', x')) :
    QueuesOk x'.pool { f with queues := q' :: qs } ∧ x'.pool.Ok := by
  obtain ⟨hrounds, hq', hrate, hinvert', hother, -⟩ :
      Rounds t (fun _ => True) q.listing x q'.listing x' ∧ _ :=
    WaitingQueues.match_spec (hf.queues q (by simp [hqs])) hp True.intro hmatch
  exact ⟨hf.set_first hqs hq' hrate hinvert' hrounds.suffix (hrounds.pool hp).2 hother,
    (hrounds.pool hp).1⟩

/-- A match keeps an order at the top: the front is trimmed in each pass. -/
theorem Topped.matchLoop {prevq : Option ℤ} (htop : f.Topped) (hf : f.QueuesOk x.pool)
    (hp : x.pool.Ok) (h : matchLoop t limitRate fuel prevq f x = some (f', x')) : f'.Topped := by
  induction fuel generalizing prevq f x with
  | zero => cases h
  | succ fuel ih =>
    unfold Front.matchLoop at h
    cases hqs : f.queues with
    | nil =>
      simp only [hqs, Option.some.injEq, Prod.mk.injEq] at h
      exact h.1 ▸ htop
    | cons q qs =>
      simp only [hqs] at h
      split_ifs at h
      · simp only [Option.some.injEq, Prod.mk.injEq] at h
        exact h.1 ▸ htop
      · simp only [Option.bind_eq_bind, Option.bind_eq_some_iff] at h
        obtain ⟨⟨q₁, y⟩, hmatch, f₁, htrim, h⟩ := h
        obtain ⟨hok, hp₁⟩ := hf.matched hp hqs hmatch
        obtain ⟨hf₁, -⟩ := hok.trim htrim
        exact ih (hok.topped_trim htrim) hf₁ hp₁ h

/-- The fronts that are trimmed in the loop of `match`. -/
def matchTrims (t : MatchTerms) (limitRate : ℤ) : ℕ → Option ℤ → Front → Matching → List Front
  | 0, _, _, _ => []
  | fuel + 1, prevq, f, x =>
    match f.queues with
    | [] => []
    | q :: qs =>
      if prevq = some q.getRate ∨ !q.high.compare limitRate then []
      else (q.match t fuel x).elim [] fun (q, x) =>
        let f := { f with queues := q :: qs }
        f :: f.trim.elim [] fun f => matchTrims t limitRate fuel (some q.getRate) f x

/-- The front that is trimmed when an order is cancelled. -/
def cancelTrims (f : Front) (p : OrderPool) (i : Id) : Option Front := do
  let r ← f.queuesByOrder.lookup i
  let q ← f.queue r
  let (_, q) ← (q.cancelOrder p i).join
  return { f.setQueue q with queuesByOrder := f.queuesByOrder.erase i }

/-- Every front that the match trims on its way is well formed. -/
theorem QueuesOk.matchTrims {prevq : Option ℤ} (hf : f.QueuesOk x.pool) (hp : x.pool.Ok) :
    ∀ g ∈ matchTrims t limitRate fuel prevq f x, ∃ p, g.QueuesOk p := by
  induction fuel generalizing prevq f x with
  | zero => exact fun g hg => nomatch hg
  | succ fuel ih =>
    intro g hg
    unfold Front.matchTrims at hg
    cases hqs : f.queues with
    | nil =>
      simp only [hqs] at hg
      cases hg
    | cons q qs =>
      simp only [hqs] at hg
      split_ifs at hg
      · cases hg
      cases hmatch : q.match t fuel x with
      | none =>
        rw [hmatch] at hg
        cases hg
      | some qx =>
        obtain ⟨q₁, y⟩ := qx
        obtain ⟨hok, hp₁⟩ := hf.matched hp hqs hmatch
        rw [hmatch, Option.elim_some] at hg
        rcases List.mem_cons.mp hg with rfl | hg
        · exact ⟨_, hok⟩
        · obtain ⟨f₁, htrim, -⟩ := hok.exists_trim
          rw [htrim, Option.elim_some] at hg
          exact ih (hok.trim htrim).1 hp₁ g hg

/-- The front that a cancellation trims is well formed. -/
theorem Ok.cancelTrims {g : Front} (hf : f.Ok p) (hg : f.cancelTrims p i = some g) : g.Ok p := by
  simp only [Front.cancelTrims, Option.bind_eq_bind, Option.bind_eq_some_iff] at hg
  obtain ⟨r, hlookup, q, hq, ⟨o, q'⟩, hcancel, hg⟩ := hg
  obtain rfl := Option.some.inj hg
  exact (hf.erase hlookup hq (Option.join_eq_some_iff.mp hcancel)).2.2

/-- `test_match` finds an order where the top of the heap has one. -/
theorem QueuesOk.testMatch_eq (hf : f.QueuesOk p) : f.testMatch limitRate = true ↔
    ∃ q ∈ f.queues.head?, q.listing ≠ [] ∧ q.high.compare limitRate = true := by
  unfold testMatch
  cases hqs : f.queues with
  | nil => simp
  | cons q qs =>
    have hvalue := (hf.queues q (by simp [hqs])).hasValue_iff
    rw [← Bool.not_eq_true, ← not_iff_comm] at hvalue
    simp [hvalue, and_comm]

/-- It sees the top of the heap only: it is right at every limit where the top
has an order, or no queue has. -/
theorem QueuesOk.testMatch_iff (hf : f.QueuesOk p) :
    (∀ limitRate, f.testMatch limitRate = true ↔ f.Acceptable limitRate) ↔
      f.Topped ∨ f.listing = [] := by
  constructor
  · intro h
    by_contra hnot
    push Not at hnot
    obtain ⟨htop, hsome⟩ := hnot
    -- an order that rests is accepted at its own rate
    obtain ⟨⟨r, i⟩, hi⟩ := List.exists_mem_of_ne_nil _ hsome
    obtain ⟨q, hq, hmem⟩ := mem_listing.mp hi
    have haccepted := (h q.high.rate).mpr
      ⟨q, hq, WaitingQueues.listing_ne_nil_iff.mp (List.ne_nil_of_mem hmem),
        compare_iff.mpr (Before.refl _ _)⟩
    obtain ⟨q₁, hq₁, hsome₁, -⟩ := hf.testMatch_eq.mp haccepted
    exact htop fun q₂ hq₂ => (Option.mem_unique hq₂ hq₁) ▸ hsome₁
  · intro h limitRate
    rw [hf.testMatch_eq]
    constructor
    · rintro ⟨q, hq, hsome, hcompare⟩
      exact ⟨q, List.mem_of_mem_head? hq, WaitingQueues.listing_ne_nil_iff.mp hsome, hcompare⟩
    · rintro ⟨q, hq, hsome, hcompare⟩
      obtain ⟨⟨r, i⟩, hi⟩ :=
        List.exists_mem_of_ne_nil _ (WaitingQueues.listing_ne_nil_iff.mpr hsome)
      have hmem : (r, i) ∈ f.listing := mem_listing.mpr ⟨q, hq, hi⟩
      rcases h with htop | hnone
      · cases hqs : f.queues with
        | nil =>
          rw [hqs] at hq
          cases hq
        | cons q₁ qs =>
          have hhead : q₁ ∈ f.queues.head? := by rw [hqs]; rfl
          have hmem₁ : q₁ ∈ f.queues := List.mem_of_mem_head? hhead
          have hrate : r = q.getRate := ((WaitingQueues.mem_listing (hf.queues q hq)).mp hi).1
          have hlimit : Before f.invertPriority q.getRate limitRate :=
            hf.invert q hq ▸ compare_iff.mp hcompare
          have hbest := (hrate ▸ hf.best hqs hmem).trans hlimit
          refine ⟨q₁, rfl, htop q₁ hhead, compare_iff.mpr ?_⟩
          rw [hf.invert q₁ hmem₁]
          exact hbest
      · rw [hnone] at hmem
        cases hmem

end Front

/-- What is traded with low priority rests after a test that found nothing. -/
theorem Market.testMatch_of_rest {m m' : Market} {weak buy : Bool} {fuel : ℕ} {p p' : OrderPool}
    {w w' : Wallet} {limitRate amount : ℤ} {r : TradeResult}
    (h : m.tradeSide weak fuel p w limitRate amount buy true = some (m', p', w', r))
    (hr : r.order ≠ none) : (m.front !weak).testMatch limitRate = false := by
  by_contra htest
  rw [Bool.not_eq_false] at htest
  simp only [tradeSide, take, if_true, htest, Option.bind_eq_bind, Option.bind_some,
    Option.pure_def, Option.some.injEq, Prod.mk.injEq] at h
  obtain ⟨-, -, -, rfl⟩ := h
  exact hr rfl

/-! ## Runs -/

/-- A front among the order objects, with the rates of its market once there are
any. -/
structure FrontState where
  front : Front
  pool : OrderPool
  validRates : Option RulerDef

/-- What is called on a front. An order is made elsewhere when the counter of the
ids gives an id to an order of another front. -/
inductive FrontOp where
  | setRates (min max increment : ℤ)
  | newOrder (priLow : Bool) (rate amount : ℤ) (weak buy : Bool)
  | cancelOrder (i : Id)
  | updateOrder (i : Id) (amount : ℤ)
  | match (fuel : ℕ) (w : Wallet) (limitRate amount : ℤ) (cur layCur : Cur) (buy : Bool)
  | elsewhere (amount : ℤ) (weak buy : Bool)

namespace FrontState

/-- A new front. -/
def create (curid : Cur) (invertPriority : Bool) (next : Id) : FrontState :=
  ⟨Front.create curid invertPriority, ⟨∅, next⟩, none⟩

/-- One call. No order is made before the rates are set. -/
def step (s : FrontState) : FrontOp → Option FrontState
  | .setRates min max increment =>
    if 0 < increment then some { s with validRates := some (RulerDef.update min max increment) }
    else none
  | .newOrder priLow rate amount weak buy => do
    let d ← s.validRates
    let (_, f, p) ← s.front.newOrder d priLow s.pool rate amount weak buy
    return { s with front := f, pool := p }
  | .cancelOrder i => do
    match ← s.front.cancelOrder s.pool i with
    | none => return s
    | some (_, f) => return { s with front := f }
  | .updateOrder i amount => do
    let (_, f, p) ← s.front.updateOrder s.pool i amount
    return { s with front := f, pool := p }
  | .match fuel w limitRate amount cur layCur buy => do
    let (f, x) ← s.front.match fuel s.pool w limitRate amount cur layCur buy
    return { s with front := f, pool := x.pool }
  | .elsewhere amount weak buy => some { s with pool := (s.pool.newOrder amount weak buy).2 }

/-- The fronts on which the call calls `trim`. -/
def trims (s : FrontState) : FrontOp → List Front
  | .cancelOrder i => (s.front.cancelTrims s.pool i).toList
  | .match fuel w limitRate amount cur layCur buy =>
    Front.matchTrims ⟨cur, layCur, !s.front.invertPriority, buy⟩ limitRate fuel none s.front
      ⟨s.pool, w, ⟨[], [], 0⟩, amount⟩
  | _ => []

/-- No queue is made for an order that is refused: where the amount is too small
the rate is not valid, or it has a queue. -/
def Kept (s : FrontState) : FrontOp → Prop
  | .newOrder _ rate amount _ _ =>
    amount < 1 → ∀ d ∈ s.validRates, d.Lists rate → rate ∈ s.front.queuesByRate
  | _ => True

/-- Only new orders are asked about. -/
instance : ∀ (s : FrontState) op, Decidable (s.Kept op)
  | s, .newOrder _ rate amount _ _ => inferInstanceAs
      (Decidable (amount < 1 → ∀ d ∈ s.validRates, d.Lists rate → rate ∈ s.front.queuesByRate))
  | _, .setRates .. => isTrue trivial
  | _, .cancelOrder _ => isTrue trivial
  | _, .updateOrder .. => isTrue trivial
  | _, .match .. => isTrue trivial
  | _, .elsewhere .. => isTrue trivial

/-- The front is consistent, and valid rates are positive. -/
structure Ok (s : FrontState) : Prop where
  front : s.front.Ok s.pool
  pool : s.pool.Ok
  rates : ∀ d ∈ s.validRates, ∀ r, d.Lists r → 0 < r

variable {s s' : FrontState} {op : FrontOp} {ops : List FrontOp}

/-- A new front with its pool is well formed. -/
theorem Ok.create (curid : Cur) (invertPriority : Bool) (next : Id) :
    (create curid invertPriority next).Ok where
  front := .create _ _ _
  pool i o ho := by simp [FrontState.create] at ho
  rates d hd := nomatch hd

/-- What one call preserves. -/
theorem Ok.step (hs : s.Ok) (h : s.step op = some s') : s'.Ok := by
  cases op with
  | setRates min max increment =>
    simp only [FrontState.step] at h
    split_ifs at h with hinc
    obtain rfl := Option.some.inj h
    refine ⟨hs.front, hs.pool, fun d hd r hr => ?_⟩
    obtain rfl := Option.mem_some_iff.mp hd
    exact RulerDef.pos_of_lists hinc hr
  | newOrder priLow rate amount weak buy =>
    simp only [FrontState.step, Option.bind_eq_bind, Option.bind_eq_some_iff] at h
    obtain ⟨d, hd, ⟨no, f, p⟩, hnew, h⟩ := h
    obtain rfl := Option.some.inj h
    obtain ⟨-, -, ⟨-, rfl, hrefused⟩ | ⟨-, rfl, -, -, hf, -⟩⟩ :=
      Front.newOrder_spec (hs.rates d hd) hs.front hs.pool hnew
    · exact ⟨hrefused.ok, hs.pool, hs.rates⟩
    · exact ⟨hf, hs.pool.newOrder _ _ _, hs.rates⟩
  | cancelOrder i =>
    simp only [FrontState.step, Option.bind_eq_bind, Option.bind_eq_some_iff] at h
    obtain ⟨c, hcancel, h⟩ := h
    rcases Front.cancelOrder_spec hs.front hcancel with ⟨rfl, -⟩ | ⟨o, f, r, -, rfl, hf, -⟩
    · exact Option.some.inj h ▸ hs
    · obtain rfl := Option.some.inj h
      exact ⟨hf, hs.pool, hs.rates⟩
  | updateOrder i amount =>
    simp only [FrontState.step, Option.bind_eq_bind, Option.bind_eq_some_iff] at h
    obtain ⟨⟨no, f, p⟩, hupdate, h⟩ := h
    obtain rfl := Option.some.inj h
    rcases Front.updateOrder_spec hs.front hs.pool hupdate with
      ⟨-, rfl, rfl, -⟩ | ⟨o, r, -, -, ho, -, rfl, hf, -⟩
    · exact hs
    · exact ⟨hf, hs.pool.resize ho, hs.rates⟩
  | «match» fuel w limitRate amount cur layCur buy =>
    simp only [FrontState.step, Option.bind_eq_bind, Option.bind_eq_some_iff] at h
    obtain ⟨⟨f, x⟩, hmatch, h⟩ := h
    obtain rfl := Option.some.inj h
    obtain ⟨y, rfl, hrounds, hf, -⟩ := Front.match_spec hs.front hs.pool hmatch
    exact ⟨hf, (hrounds.pool hs.pool).1, hs.rates⟩
  | elsewhere amount weak buy =>
    obtain rfl := Option.some.inj h
    refine ⟨hs.front.congr (Nat.le_succ _) fun i hi => ?_, hs.pool.newOrder _ _ _, hs.rates⟩
    refine s.pool.lookup_newOrder_of_ne amount weak buy ?_
    rintro rfl
    exact hs.front.notMem_next hs.pool hi

/-- A call that makes no queue in vain keeps an order at the top. -/
theorem Ok.topped_step (hs : s.Ok) (hkept : s.Kept op) (htop : s.front.Topped)
    (h : s.step op = some s') : s'.front.Topped := by
  cases op with
  | setRates min max increment =>
    simp only [FrontState.step] at h
    split_ifs at h
    obtain rfl := Option.some.inj h
    exact htop
  | newOrder priLow rate amount weak buy =>
    simp only [FrontState.step, Option.bind_eq_bind, Option.bind_eq_some_iff] at h
    obtain ⟨d, hd, ⟨no, f, p⟩, hnew, h⟩ := h
    obtain rfl := Option.some.inj h
    exact htop.newOrder (hs.rates d hd) hs.front hs.pool (fun hsmall => hkept hsmall d hd) hnew
  | cancelOrder i =>
    simp only [FrontState.step, Option.bind_eq_bind, Option.bind_eq_some_iff] at h
    obtain ⟨c, hcancel, h⟩ := h
    cases c with
    | none => exact Option.some.inj h ▸ htop
    | some of =>
      obtain rfl := Option.some.inj h
      exact hs.front.topped_cancelOrder hcancel
  | updateOrder i amount =>
    simp only [FrontState.step, Option.bind_eq_bind, Option.bind_eq_some_iff] at h
    obtain ⟨⟨no, f, p⟩, hupdate, h⟩ := h
    obtain rfl := Option.some.inj h
    exact htop.updateOrder hs.front hs.pool hupdate
  | «match» fuel w limitRate amount cur layCur buy =>
    simp only [FrontState.step, Option.bind_eq_bind, Option.bind_eq_some_iff] at h
    obtain ⟨⟨f, x⟩, hmatch, h⟩ := h
    obtain rfl := Option.some.inj h
    simp only [Front.match, Option.bind_eq_bind, Option.bind_eq_some_iff] at hmatch
    obtain ⟨⟨g, y⟩, hloop, hmatch⟩ := hmatch
    obtain ⟨rfl, rfl⟩ := Prod.mk.inj (Option.some.inj hmatch)
    have hg : g.Topped := htop.matchLoop hs.front.toQueuesOk hs.pool hloop
    exact hg
  | elsewhere amount weak buy =>
    obtain rfl := Option.some.inj h
    exact htop

/-- Every front that is trimmed is consistent. -/
theorem Ok.trims (hs : s.Ok) {g : Front} (hg : g ∈ s.trims op) : ∃ p, g.QueuesOk p := by
  cases op with
  | cancelOrder i => exact ⟨_, (hs.front.cancelTrims (Option.mem_toList.mp hg)).toQueuesOk⟩
  | «match» fuel w limitRate amount cur layCur buy =>
    exact Front.QueuesOk.matchTrims hs.front.toQueuesOk hs.pool g hg
  | setRates => cases hg
  | newOrder => cases hg
  | updateOrder => cases hg
  | elsewhere => cases hg

variable {curid : Cur} {invertPriority : Bool} {next : Id}

/-- Every front that operations reach is well formed. -/
theorem ok_of_run (h : run step (create curid invertPriority next) ops = some s) : s.Ok :=
  run_invariant (fun _ _ _ hs _ h => hs.step h) (Ok.create curid invertPriority next)
    (AlongRun.trivial _ _) h

/-- In a run whose calls make no queue in vain there is an order at the top. -/
theorem topped_of_run (hkept : AlongRun step Kept (create curid invertPriority next) ops)
    (h : run step (create curid invertPriority next) ops = some s) : s.front.Topped := by
  have hstep : ∀ (s : FrontState) op s', s.Ok ∧ s.front.Topped → s.Kept op →
      s.step op = some s' → s'.Ok ∧ s'.front.Topped :=
    fun s op s' hs hkept h => ⟨hs.1.step h, hs.1.topped_step hkept hs.2 h⟩
  have hinit : (create curid invertPriority next).front.Topped := fun q hq => nomatch hq
  exact (run_invariant hstep ⟨Ok.create _ _ _, hinit⟩ hkept h).2

/-- **The representation of a front.** After every sequence of calls the table of
the orders leads exactly from the orders of the queues to their queue, and the
table of the rates has exactly the rates of the heap, where each is once. When a
call trims a front the table has every queue that goes, and it is empty. Where no
queue was made in vain the top of the heap has an order. -/
theorem tables_of_run (h : run step (create curid invertPriority next) ops = some s) :
    (∀ i r, s.front.queuesByOrder.lookup i = some r ↔
      ∃ q ∈ s.front.queues, q.getRate = r ∧ (i ∈ q.high.orders ∨ i ∈ q.low.orders)) ∧
    (∀ r, r ∈ s.front.queuesByRate ↔ ∃ q ∈ s.front.queues, q.getRate = r) ∧
    (s.front.queues.map WaitingQueues.getRate).Nodup ∧
    (∀ op, ∀ g ∈ s.trims op, ∃ g', g.trim = some g' ∧
      ∀ q ∈ g.queues, q ∉ g'.queues → q.high.orders = [] ∧ q.low.orders = []) ∧
    (AlongRun step Kept (create curid invertPriority next) ops →
      ∀ q ∈ s.front.queues.head?, q.high.orders ≠ [] ∨ q.low.orders ≠ []) := by
  have hs := ok_of_run h
  refine ⟨fun i r => ?_, fun r => ?_, hs.front.rates, fun op g hg => ?_, fun hkept q hq => ?_⟩
  · rw [hs.front.byOrder, Front.mem_listing]
    constructor
    · rintro ⟨q, hq, hi⟩
      obtain ⟨hr, hi⟩ := (WaitingQueues.mem_listing (hs.front.queues q hq)).mp hi
      exact ⟨q, hq, hr.symm, hi⟩
    · rintro ⟨q, hq, hr, hi⟩
      exact ⟨q, hq, (WaitingQueues.mem_listing (hs.front.queues q hq)).mpr ⟨hr.symm, hi⟩⟩
  · rw [hs.front.byRate, List.mem_map]
  · obtain ⟨p, hg⟩ := hs.trims hg
    obtain ⟨g', htrim, hgone⟩ := hg.exists_trim
    exact ⟨g', htrim, fun q hq hnot => WaitingQueues.listing_eq_nil_iff.mp (hgone q hq hnot)⟩
  · have htop := topped_of_run hkept h q hq
    exact WaitingQueues.listing_ne_nil_iff.mp htop

/-- Orders at two rates, the better of which is cancelled, and one more that is refused. -/
def cancellation : List FrontOp :=
  [.setRates 100000 200000 5, .newOrder false 110000 10 false false,
    .newOrder false 100000 5 false false, .cancelOrder 2, .newOrder false 110000 0 false false]

/-- The order that is left is at the top of the heap, at the only rate of the table. -/
theorem tables_of_run_cancellation :
    ∃ s, run step (create gbp true 1) cancellation = some s ∧
      s.front.queuesByOrder.lookup 1 = some 110000 ∧ s.front.queuesByRate = {110000} ∧
      s.front.queues ≠ [] ∧ (s.front.queues.map WaitingQueues.getRate).Nodup ∧
      ∀ q ∈ s.front.queues.head?, q.high.orders ≠ [] ∨ q.low.orders ≠ [] := by
  have hview : (run step (create gbp true 1) cancellation).map (fun s =>
      decide (s.front.queuesByOrder.lookup 1 = some 110000 ∧
        s.front.queuesByRate = {110000} ∧ s.front.queues ≠ [])) = some true := by decide +kernel
  have hkept : AlongRun step Kept (create gbp true 1) cancellation := by decide +kernel
  obtain ⟨s, hs, hview⟩ := Option.map_eq_some_iff.mp hview
  obtain ⟨hlookup, hrates, hne⟩ := of_decide_eq_true hview
  exact ⟨s, hs, hlookup, hrates, hne, (tables_of_run hs).2.2.1, (tables_of_run hs).2.2.2.2 hkept⟩

/-- A strong front: an order at the rate 1.1, and one without an amount that is
refused at the better rate 1. -/
def refusal : List FrontOp :=
  [.setRates 100000 200000 5, .newOrder false 110000 10 false false,
    .newOrder false 100000 0 false false]

/-- After a cancellation that finds no order the top of the heap has none. -/
theorem untopped_by_refusal :
    ∃ s, run step (create gbp true 1) (refusal ++ [.cancelOrder 99]) = some s ∧
      ∃ q ∈ s.front.queues.head?, q.high.orders = [] ∧ q.low.orders = [] := by
  have hview : (run step (create gbp true 1) (refusal ++ [.cancelOrder 99])).map (fun s =>
      decide (∃ q ∈ s.front.queues.head?, q.high.orders = [] ∧ q.low.orders = [])) =
      some true := by decide +kernel
  obtain ⟨s, hs, hview⟩ := Option.map_eq_some_iff.mp hview
  exact ⟨s, hs, of_decide_eq_true hview⟩

/-- **What the test of a trade of low priority finds.** In every state that is
reached `test_match` agrees with a search over all queues, at every limit, if and
only if the top of the heap has an order or no queue has. That is so in every run
that made no queue in vain, and then what is traded with low priority rests at a
rate that no order of this front accepts. -/
theorem testMatch_of_run (h : run step (create curid invertPriority next) ops = some s) :
    ((∀ limitRate, s.front.testMatch limitRate = true ↔ s.front.Acceptable limitRate) ↔
      (∀ q ∈ s.front.queues.head?, q.high.orders ≠ [] ∨ q.low.orders ≠ []) ∨
        ∀ q ∈ s.front.queues, q.high.orders = [] ∧ q.low.orders = []) ∧
    (AlongRun step Kept (create curid invertPriority next) ops →
      (∀ limitRate, s.front.testMatch limitRate = true ↔ s.front.Acceptable limitRate) ∧
      ∀ (m m' : Market) weak fuel w limitRate amount buy p' w' r, m.front (!weak) = s.front →
        m.tradeSide weak fuel s.pool w limitRate amount buy true = some (m', p', w', r) →
        r.order ≠ none → ¬s.front.Acceptable limitRate) := by
  have hf := (ok_of_run h).front.toQueuesOk
  refine ⟨?_, fun hkept => ?_⟩
  · rw [hf.testMatch_iff, Front.Topped, Front.listing, List.flatMap_eq_nil_iff]
    simp only [WaitingQueues.listing_ne_nil_iff, WaitingQueues.listing_eq_nil_iff]
  · have hexact := hf.testMatch_iff.mpr (Or.inl (topped_of_run hkept h))
    refine ⟨hexact, ?_⟩
    intro m m' weak fuel w limitRate amount buy p' w' r hfront htrade hr haccepted
    have hnone := Market.testMatch_of_rest htrade hr
    rw [hfront, (hexact limitRate).mpr haccepted] at hnone
    cases hnone

/-- Before the refusal the order is found. -/
theorem testMatch_of_run_refusal :
    ∃ s, run step (create gbp true 1) (refusal.take 2) = some s ∧
      s.front.Acceptable 110000 ∧ s.front.testMatch 110000 = true := by
  have hview : (run step (create gbp true 1) (refusal.take 2)).map (fun s =>
      decide (s.front.Acceptable 110000)) = some true := by decide +kernel
  obtain ⟨s, hs, hview⟩ := Option.map_eq_some_iff.mp hview
  have haccepted := of_decide_eq_true hview
  have hkept : AlongRun step Kept (create gbp true 1) (refusal.take 2) := by decide +kernel
  exact ⟨s, hs, haccepted, (((testMatch_of_run hs).2 hkept).1 110000).mpr haccepted⟩

/-- The order at the rate 1.1 is hidden by the empty queue of the better rate. -/
theorem hidden_by_refusal :
    ∃ s, run step (create gbp true 1) refusal = some s ∧
      ¬∀ limitRate, s.front.testMatch limitRate = true ↔ s.front.Acceptable limitRate := by
  have hview : (run step (create gbp true 1) refusal).map (fun s =>
      decide (s.front.Acceptable 110000 ∧ s.front.testMatch 110000 = false)) = some true := by
    decide +kernel
  obtain ⟨s, hs, hview⟩ := Option.map_eq_some_iff.mp hview
  obtain ⟨haccepted, hhidden⟩ := of_decide_eq_true hview
  refine ⟨s, hs, fun h => ?_⟩
  rw [(h 110000).mpr haccepted] at hhidden
  cases hhidden

end FrontState

end AcCore.Tex.Cex
