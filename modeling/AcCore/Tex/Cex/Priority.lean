import AcCore.Lib.Served
import AcCore.Tex.Cex.Fronts

/-!
# Price-time priority

The functions of this file are those of a match, with the list of the orders
that are touched: each with the rate at which it rests, and whether it left the
front. They return what the match returns. The listing of a front is served at
its head, so that orders are touched by rate, then by priority, then in the
order of the queue.
-/

namespace AcCore.Tex.Cex

open Lib

section

variable [Rounding]

/-- An order that is touched at the rate at which it rests, and whether it left
the front. -/
abbrev Touch := (ℤ × Id) × Bool

/-! ## One queue -/

namespace WaitingQueue

/-- `match`, with the orders that are touched. -/
def matchTrace (t : MatchTerms) :
    ℕ → WaitingQueue → Matching → Option (List Touch × WaitingQueue × Matching)
  | 0, _, _ => none
  | fuel + 1, q, x =>
    match q.orders with
    | [] => some ([], q, x)
    | i :: _ => do
      match ← Order.couldMatchProvidedBigOrdervalue x.wallet q.rate t.weak t.buy fuel
        x.amountLeft with
      | true =>
        let (q', x) ← q.matchFirst t fuel i x
        let (touches, r) ← q'.matchTrace t fuel x
        return (((q.rate, i), decide (i ∉ q'.orders)) :: touches, r)
      | false => return ([], q, x)

variable {t : MatchTerms} {fuel : ℕ} {q q' : WaitingQueue} {x x' : Matching}
  {touches : List Touch}

/-- The trace of the match of a queue records the match. -/
theorem map_matchTrace (q : WaitingQueue) (x : Matching) :
    (q.matchTrace t fuel x).map Prod.snd = q.match t fuel x := by
  induction fuel generalizing q x with
  | zero => rfl
  | succ fuel ih =>
    unfold matchTrace «match»
    cases hl : q.orders with
    | nil => rfl
    | cons i l =>
      simp only [Option.bind_eq_bind, Option.map_bind]
      congr 1
      funext funds
      cases funds with
      | false => rfl
      | true =>
        simp only [Function.comp, Option.map_bind]
        congr 1
        funext r
        obtain ⟨q₁, x₁⟩ := r
        rw [← ih q₁ x₁]
        cases q₁.matchTrace t fuel x₁ <;> rfl

/-- A traced match of a queue is its match. -/
theorem match_of_matchTrace (h : q.matchTrace t fuel x = some (touches, q', x')) :
    q.match t fuel x = some (q', x') := by
  rw [← map_matchTrace, h]
  rfl

/-- A queue is served at its head, and what is not touched stays as it is. -/
theorem matchTrace_spec (hq : q.Ok x.pool)
    (h : q.matchTrace t fuel x = some (touches, q', x')) :
    Served q.listing touches q'.listing ∧
      ∀ j, (∀ a ∈ touches, a.1.2 ≠ j) → x'.pool.live.lookup j = x.pool.live.lookup j := by
  induction fuel generalizing q x touches with
  | zero => cases h
  | succ fuel ih =>
    unfold matchTrace at h
    cases hl : q.orders with
    | nil =>
      simp only [hl, Option.some.injEq, Prod.mk.injEq] at h
      obtain ⟨rfl, rfl, rfl⟩ := h
      exact ⟨.nil _, fun _ _ => rfl⟩
    | cons i l =>
      simp only [hl, Option.bind_eq_bind, Option.bind_eq_some_iff] at h
      obtain ⟨funds, hfunds, h⟩ := h
      cases funds with
      | false =>
        simp only [Option.pure_def, Option.some.injEq, Prod.mk.injEq] at h
        obtain ⟨rfl, rfl, rfl⟩ := h
        exact ⟨.nil _, fun _ _ => rfl⟩
      | true =>
        simp only [Option.bind_eq_some_iff] at h
        obtain ⟨⟨q₁, x₁⟩, hfirst, ⟨ts, q₂, x₂⟩, htail, h⟩ := h
        simp only [Option.pure_def, Option.some.injEq, Prod.mk.injEq] at h
        obtain ⟨rfl, rfl, rfl⟩ := h
        obtain ⟨expired, -, hq₁, hrate, -, horders, hother⟩ :=
          matchFirst_spec hq hl hfunds hfirst
        obtain ⟨hserved, huntouched⟩ := ih hq₁ htail
        have hlisting : q.listing = (q.rate, i) :: l.map fun j => (q.rate, j) := by
          simp [listing, hl]
        have hnodup := hq.nodup
        rw [hl, List.nodup_cons] at hnodup
        refine ⟨?_, fun j hj => ?_⟩
        · rw [hlisting]
          rw [listing, horders, hrate] at hserved
          cases expired with
          | false =>
            rw [show decide (i ∉ q₁.orders) = false by simp [horders]]
            exact .keep hserved
          | true =>
            rw [show decide (i ∉ q₁.orders) = true by simpa [horders] using hnodup.1]
            exact .remove hserved
        · have hne : j ≠ i := (hj _ List.mem_cons_self).symm
          rw [huntouched j fun a ha => hj a (List.mem_cons_of_mem _ ha), hother j hne]

/-- Where the funds do not suffice no order is touched. -/
theorem matchTrace_of_stuck {fuel' : ℕ}
    (hstuck : Order.couldMatchProvidedBigOrdervalue x.wallet q.rate t.weak t.buy fuel'
      x.amountLeft = some false) (h : q.matchTrace t fuel x = some (touches, q', x')) :
    touches = [] := by
  cases fuel with
  | zero => cases h
  | succ fuel =>
    unfold matchTrace at h
    cases hl : q.orders with
    | nil =>
      simp only [hl, Option.some.injEq, Prod.mk.injEq] at h
      exact h.1.symm
    | cons i l =>
      simp only [hl, Option.bind_eq_bind, Option.bind_eq_some_iff] at h
      obtain ⟨funds, hfunds, h⟩ := h
      obtain rfl := Order.couldMatch_unique hfunds hstuck
      simp only [Option.pure_def, Option.some.injEq, Prod.mk.injEq] at h
      exact h.1.symm

end WaitingQueue

/-! ## A pair of queues -/

namespace WaitingQueues

/-- `match`, with the orders that are touched. -/
def matchTrace (t : MatchTerms) (fuel : ℕ) (q : WaitingQueues) (x : Matching) :
    Option (List Touch × WaitingQueues × Matching) := do
  let (touches, high, x) ← q.high.matchTrace t fuel x
  let q := { q with high := high }
  if x.amountLeft = 0 then return (touches, q, x)
  let (touchesLow, low, x) ← q.low.matchTrace t fuel x
  return (touches ++ touchesLow, { q with low := low }, x)

variable {t : MatchTerms} {fuel : ℕ} {q q' : WaitingQueues} {x x' : Matching}
  {touches : List Touch}

/-- The trace of the match of a pair of queues records the match. -/
theorem map_matchTrace (q : WaitingQueues) (x : Matching) :
    (q.matchTrace t fuel x).map Prod.snd = q.match t fuel x := by
  unfold matchTrace «match»
  rw [← WaitingQueue.map_matchTrace]
  cases q.high.matchTrace t fuel x with
  | none => rfl
  | some r =>
    obtain ⟨touches, high, y⟩ := r
    simp only [Option.bind_eq_bind, Option.bind_some, Option.map_some]
    split_ifs
    · rfl
    · rw [← WaitingQueue.map_matchTrace]
      cases q.low.matchTrace t fuel y <;> rfl

/-- A pair of queues is served at its head. -/
theorem matchTrace_spec (hq : q.Ok x.pool)
    (h : q.matchTrace t fuel x = some (touches, q', x')) :
    Served q.listing touches q'.listing ∧
      ∀ j, (∀ a ∈ touches, a.1.2 ≠ j) → x'.pool.live.lookup j = x.pool.live.lookup j := by
  simp only [matchTrace, Option.bind_eq_bind, Option.bind_eq_some_iff] at h
  obtain ⟨⟨touchesHigh, high, y⟩, hhigh, h⟩ := h
  obtain ⟨hserved, huntouched⟩ := WaitingQueue.matchTrace_spec hq.high hhigh
  have hspec := fun (accepts : ℤ → Prop) (hr : accepts q.high.rate) =>
    WaitingQueue.match_spec hq.high hr (WaitingQueue.match_of_matchTrace hhigh)
  obtain ⟨-, -, -, -, hother, hend⟩ := hspec (fun _ => True) trivial
  have happend := hserved.append q.low.listing
  split_ifs at h with hzero
  · simp only [Option.pure_def, Option.some.injEq, Prod.mk.injEq] at h
    obtain ⟨rfl, rfl, rfl⟩ := h
    exact ⟨happend, huntouched⟩
  · simp only [Option.bind_eq_some_iff] at h
    obtain ⟨⟨touchesLow, low, z⟩, hlow, h⟩ := h
    simp only [Option.pure_def, Option.some.injEq, Prod.mk.injEq] at h
    obtain ⟨rfl, rfl, rfl⟩ := h
    have hlowOk : q.low.Ok y.pool := hq.low.congr fun j hj =>
      hother j fun hmem => hq.disjoint hmem hj
    obtain ⟨hservedLow, huntouchedLow⟩ := WaitingQueue.matchTrace_spec hlowOk hlow
    have hstay : ∀ j, (∀ a ∈ touchesHigh ++ touchesLow, a.1.2 ≠ j) →
        z.pool.live.lookup j = x.pool.live.lookup j := fun j hj => by
      rw [huntouchedLow j fun a ha => hj a (List.mem_append_right _ ha),
        huntouched j fun a ha => hj a (List.mem_append_left _ ha)]
    refine ⟨?_, hstay⟩
    rcases hend with hempty | ⟨fuel', hstuck⟩
    · -- the queue of high priority is exhausted
      have hhighNil : high.listing = [] := by simp [WaitingQueue.listing, hempty]
      rw [hhighNil, List.nil_append] at happend
      rw [show (WaitingQueues.mk high low q.hashLow).listing = low.listing by
        simp [listing, hhighNil]]
      exact happend.trans hservedLow
    · rw [← hq.rate] at hstuck
      obtain rfl := WaitingQueue.matchTrace_of_stuck hstuck hlow
      obtain ⟨rfl, rfl⟩ := WaitingQueue.match_of_stuck hstuck
        (WaitingQueue.match_of_matchTrace hlow)
      rw [List.append_nil]
      exact happend

end WaitingQueues

/-! ## A front -/

namespace Front

/-- The loop of `match`, with the orders that are touched. -/
def matchLoopTrace (t : MatchTerms) (limitRate : ℤ) :
    ℕ → Option ℤ → Front → Matching → Option (List Touch × Front × Matching)
  | 0, _, _, _ => none
  | fuel + 1, prevq, f, x =>
    match f.queues with
    | [] => some ([], f, x)
    | q :: qs =>
      if prevq = some q.getRate ∨ !q.high.compare limitRate then some ([], f, x)
      else do
        let (touches, q, x) ← q.matchTrace t fuel x
        let f ← { f with queues := q :: qs }.trim
        let (touches', r) ← matchLoopTrace t limitRate fuel (some q.getRate) f x
        return (touches ++ touches', r)

/-- `match`, with the orders that are touched. -/
def matchTrace (f : Front) (fuel : ℕ) (p : OrderPool) (w : Wallet) (limitRate amount : ℤ)
    (cur layCur : Cur) (buy : Bool) : Option (List Touch × Front × Matching) := do
  let (touches, f, x) ← matchLoopTrace ⟨cur, layCur, !f.invertPriority, buy⟩ limitRate fuel none f
    ⟨p, w, ⟨[], [], 0⟩, amount⟩
  let queuesByOrder := x.ms.expiredOrders.foldl (fun t i => t.erase i) f.queuesByOrder
  return (touches, { f with queuesByOrder := queuesByOrder },
    { x with ms := { x.ms with unmatched := x.amountLeft } })

variable {t : MatchTerms} {fuel : ℕ} {limitRate : ℤ} {p : OrderPool} {f f' : Front}
  {x x' : Matching} {touches : List Touch}

/-- The trace of the loop over the queues records the loop. -/
theorem map_matchLoopTrace (prevq : Option ℤ) (f : Front) (x : Matching) :
    (matchLoopTrace t limitRate fuel prevq f x).map Prod.snd =
      matchLoop t limitRate fuel prevq f x := by
  induction fuel generalizing prevq f x with
  | zero => rfl
  | succ fuel ih =>
    unfold matchLoopTrace matchLoop
    cases hqs : f.queues with
    | nil => rfl
    | cons q qs =>
      dsimp only
      split_ifs
      · rfl
      · rw [← WaitingQueues.map_matchTrace]
        cases q.matchTrace t fuel x with
        | none => rfl
        | some r =>
          obtain ⟨ts, q₁, y⟩ := r
          simp only [Option.bind_eq_bind, Option.bind_some, Option.map_some, Option.map_bind]
          congr 1
          funext f₁
          rw [← ih]
          simp only [Function.comp]
          cases matchLoopTrace t limitRate fuel (some q₁.getRate) f₁ y <;> rfl

/-- The trace of the match of a front records the match. -/
theorem map_matchTrace (f : Front) (p : OrderPool) (w : Wallet) (amount : ℤ) (cur layCur : Cur)
    (buy : Bool) :
    (f.matchTrace fuel p w limitRate amount cur layCur buy).map Prod.snd =
      f.match fuel p w limitRate amount cur layCur buy := by
  unfold matchTrace «match»
  rw [← map_matchLoopTrace]
  cases matchLoopTrace ⟨cur, layCur, !f.invertPriority, buy⟩ limitRate fuel none f
    ⟨p, w, ⟨[], [], 0⟩, amount⟩ <;> rfl

/-- A front is served at its head, at accepted rates. -/
theorem matchLoopTrace_spec {prevq : Option ℤ} (hf : f.QueuesOk x.pool) (hp : x.pool.Ok)
    (h : matchLoopTrace t limitRate fuel prevq f x = some (touches, f', x')) :
    Served f.listing touches f'.listing ∧
      (∀ a ∈ touches, Accepts f.invertPriority limitRate a.1.1) ∧
      ∀ j, (∀ a ∈ touches, a.1.2 ≠ j) → x'.pool.live.lookup j = x.pool.live.lookup j := by
  induction fuel generalizing prevq f x touches with
  | zero => cases h
  | succ fuel ih =>
    unfold matchLoopTrace at h
    cases hqs : f.queues with
    | nil =>
      simp only [hqs, Option.some.injEq, Prod.mk.injEq] at h
      obtain ⟨rfl, rfl, rfl⟩ := h
      exact ⟨.nil _, by simp, fun _ _ => rfl⟩
    | cons q qs =>
      have hqmem : q ∈ f.queues := by simp [hqs]
      simp only [hqs] at h
      split_ifs at h with hstop
      · simp only [Option.some.injEq, Prod.mk.injEq] at h
        obtain ⟨rfl, rfl, rfl⟩ := h
        exact ⟨.nil _, by simp, fun _ _ => rfl⟩
      · rw [not_or, Bool.not_eq_true', Bool.not_eq_false] at hstop
        simp only [Option.bind_eq_bind, Option.bind_eq_some_iff] at h
        obtain ⟨⟨ts, q₁, y⟩, htrace, f₁, htrim, ⟨ts', f₂, y'⟩, hloop, h⟩ := h
        simp only [Option.pure_def, Option.some.injEq, Prod.mk.injEq] at h
        obtain ⟨rfl, rfl, rfl⟩ := h
        have hmatch : q.match t fuel x = some (q₁, y) := by
          rw [← WaitingQueues.map_matchTrace, htrace]
          rfl
        obtain ⟨hserved, huntouched⟩ := WaitingQueues.matchTrace_spec (hf.queues q hqmem) htrace
        obtain ⟨hrounds, hf₁, -, hinvert, -, -, hlisting, -⟩ :=
          hf.match_first hp hqs hstop.2 hmatch htrim
        obtain ⟨hserved', haccepts', huntouched'⟩ := ih hf₁ (hrounds.pool hp).1 hloop
        refine ⟨?_, ?_, fun j hj => ?_⟩
        · have happend := hserved.append (qs.flatMap WaitingQueues.listing)
          rw [← hlisting] at happend
          rw [listing, hqs, List.flatMap_cons]
          exact happend.trans hserved'
        · intro a ha
          rcases List.mem_append.mp ha with ha | ha
          · have hrate := ((WaitingQueues.mem_listing (hf.queues q hqmem)).mp (hserved.mem ha)).1
            rw [hrate]
            exact hf.invert q hqmem ▸ compare_iff.mp hstop.2
          · exact hinvert ▸ haccepts' a ha
        · rw [huntouched' j fun a ha => hj a (List.mem_append_right _ ha),
            huntouched j fun a ha => hj a (List.mem_append_left _ ha)]

/-- The first of two rates is strictly better for who matches the front: lower in
a strong front, higher in a weak one. -/
def Better (invertPriority : Bool) (r r' : ℤ) : Prop := if invertPriority then r < r' else r > r'

omit [Rounding] in
/-- A rate that is better comes before. -/
theorem Better.not_before {b : Bool} {r r' : ℤ} (h : Better b r r') : ¬Before b r' r := by
  unfold Better at h
  unfold Before
  split_ifs at h ⊢ <;> omega

omit [Rounding] in
/-- The rates of a listing are in the order of their priority. -/
theorem QueuesOk.pairwise (hf : f.QueuesOk p) :
    f.listing.Pairwise fun e e' => Before f.invertPriority e.1 e'.1 := by
  have hsorted := List.pairwise_map.mp hf.sorted
  have hqueues := hf.queues
  unfold listing
  revert hsorted hqueues
  generalize f.queues = qs
  intro hsorted hqueues
  induction qs with
  | nil => simp
  | cons q qs ih =>
    rw [List.pairwise_cons] at hsorted
    have hq := hqueues q List.mem_cons_self
    have hrest : ∀ q' ∈ qs, q'.Ok p := fun q' hq' => hqueues q' (List.mem_cons_of_mem _ hq')
    rw [List.flatMap_cons, List.pairwise_append]
    refine ⟨?_, ih hsorted.2 hrest, ?_⟩
    · refine List.pairwise_of_forall_mem_list fun e he e' he' => ?_
      rw [((WaitingQueues.mem_listing (r := e.1) (i := e.2) hq).mp he).1,
        ((WaitingQueues.mem_listing (r := e'.1) (i := e'.2) hq).mp he').1]
      unfold Before
      split_ifs <;> exact le_rfl
    · intro e he e' he'
      obtain ⟨q', hq', hmem⟩ := List.mem_flatMap.mp he'
      rw [((WaitingQueues.mem_listing (r := e.1) (i := e.2) hq).mp he).1,
        ((WaitingQueues.mem_listing (r := e'.1) (i := e'.2) (hrest q' hq')).mp hmem).1]
      exact hsorted.1 q' hq'

omit [Rounding] in
/-- Where the orders of a queue stand in the listing of the front. -/
theorem listing_split (hf : f.QueuesOk p) {q : WaitingQueues} (hq : q ∈ f.queues) :
    ∃ before after, f.listing = before ++
      (q.high.orders.map (fun i => (q.getRate, i)) ++ q.low.orders.map fun i => (q.getRate, i)) ++
      after := by
  obtain ⟨qs, qs', hqs⟩ := List.append_of_mem hq
  refine ⟨qs.flatMap WaitingQueues.listing, qs'.flatMap WaitingQueues.listing, ?_⟩
  have hrate : q.low.rate = q.getRate := (hf.queues q hq).rate
  rw [listing, hqs, List.flatMap_append, List.flatMap_cons, List.append_assoc,
    WaitingQueues.listing, WaitingQueue.listing, WaitingQueue.listing, hrate]
  rfl

/-- **Price-time priority.** A match touches an order only after all orders at
strictly better rates, the orders of high priority at its rate when its own is
low, and the earlier orders of its queue have been removed from the front; and
its rate is one that the limit accepts. The orders that are not touched stay as
they are. -/
theorem match_priority {w : Wallet} {amount : ℤ} {cur layCur : Cur} {buy : Bool} (hf : f.Ok p)
    (hp : p.Ok) (h : f.match fuel p w limitRate amount cur layCur buy = some (f', x)) :
    ∃ touches, f.matchTrace fuel p w limitRate amount cur layCur buy = some (touches, f', x) ∧
      (∀ j, (∀ a ∈ touches, a.1.2 ≠ j) → x.pool.live.lookup j = p.live.lookup j) ∧
      (∀ e, (e, true) ∈ touches → e ∉ f'.listing) ∧
      ∀ pre a post, touches = pre ++ a :: post →
        (∃ q ∈ f.queues, q.getRate = a.1.1 ∧ q.high.compare limitRate = true) ∧
        (∀ e ∈ f.listing, Better f.invertPriority e.1 a.1.1 → (e, true) ∈ pre) ∧
        (∀ q ∈ f.queues, q.getRate = a.1.1 → a.1.2 ∈ q.low.orders →
          ∀ j ∈ q.high.orders, ((q.getRate, j), true) ∈ pre) ∧
        ∀ q ∈ f.queues, q.getRate = a.1.1 → ∀ earlier later,
          q.high.orders = earlier ++ a.1.2 :: later ∨ q.low.orders = earlier ++ a.1.2 :: later →
          ∀ j ∈ earlier, ((q.getRate, j), true) ∈ pre := by
  rw [← map_matchTrace, Option.map_eq_some_iff] at h
  obtain ⟨⟨touches, r⟩, htrace, hr⟩ := h
  dsimp only at hr
  subst hr
  refine ⟨touches, htrace, ?_⟩
  simp only [matchTrace, Option.bind_eq_bind, Option.bind_eq_some_iff] at htrace
  obtain ⟨⟨ts, g, y⟩, hloop, hend⟩ := htrace
  simp only [Option.pure_def, Option.some.injEq, Prod.mk.injEq] at hend
  obtain ⟨rfl, rfl, rfl⟩ := hend
  obtain ⟨hserved, haccepts, huntouched⟩ := matchLoopTrace_spec hf.toQueuesOk hp hloop
  have hnodup : f.listing.Nodup := hf.nodup.of_map
  refine ⟨huntouched, fun e he => hserved.notMem_of_removed hnodup he, ?_⟩
  intro pre a post hsplit
  have ha : a ∈ ts := by simp [hsplit]
  have hmem : (a.1.1, a.1.2) ∈ f.listing := hserved.mem ha
  refine ⟨?_, ?_, ?_, ?_⟩
  · obtain ⟨q, hq, hmemq⟩ := mem_listing.mp hmem
    have hrate := ((WaitingQueues.mem_listing (hf.queues q hq)).mp hmemq).1
    refine ⟨q, hq, hrate.symm, compare_iff.mpr ?_⟩
    rw [hf.invert q hq, show q.high.rate = a.1.1 from hrate.symm]
    exact haccepts a ha
  · intro e he hbetter
    obtain ⟨l₁, l₂, hl⟩ := List.append_of_mem hmem
    refine hserved.removed_before hnodup hsplit hl ?_
    have hpairwise := hf.toQueuesOk.pairwise
    rw [hl] at he hpairwise
    rw [List.pairwise_append, List.pairwise_cons] at hpairwise
    -- an order at a better rate does not come later
    rcases List.mem_append.mp he with he | he
    · exact he
    · rcases List.mem_cons.mp he with rfl | he
      · exact absurd (before_total f.invertPriority a.1.1 a.1.1) (by simpa using hbetter.not_before)
      · exact absurd (hpairwise.2.1.1 e he) hbetter.not_before
  · intro q hq hrate hlow j hj
    obtain ⟨before, after, hlisting⟩ := listing_split hf.toQueuesOk hq
    obtain ⟨l₁, l₂, hl⟩ := List.append_of_mem hlow
    refine hserved.removed_before hnodup hsplit (m := before ++
      q.high.orders.map (fun i => (q.getRate, i)) ++ l₁.map fun i => (q.getRate, i))
      (n := (l₂.map fun i => (q.getRate, i)) ++ after) ?_ ?_
    · rw [hlisting, hl]
      simp [hrate]
    · simp [hj]
  · intro q hq hrate earlier later horders j hj
    obtain ⟨before, after, hlisting⟩ := listing_split hf.toQueuesOk hq
    rcases horders with hhigh | hlow
    · refine hserved.removed_before hnodup hsplit
        (m := before ++ earlier.map fun i => (q.getRate, i))
        (n := (later.map fun i => (q.getRate, i)) ++
          (q.low.orders.map fun i => (q.getRate, i)) ++ after) ?_ ?_
      · rw [hlisting, hhigh]
        simp [hrate]
      · simp [hj]
    · refine hserved.removed_before hnodup hsplit (m := before ++
        q.high.orders.map (fun i => (q.getRate, i)) ++ earlier.map fun i => (q.getRate, i))
        (n := (later.map fun i => (q.getRate, i)) ++ after) ?_ ?_
      · rw [hlisting, hlow]
        simp [hrate]
      · simp [hj]

/-- A strong front with two orders at the rate 1.1, the second of low priority,
and one at the better rate 1. -/
def threeOrders : Option (Front × OrderPool) := do
  let d : RulerDef := ⟨100000, 200000, 5⟩
  let (_, f, p) ← (create gbp true).newOrder d false ⟨∅, 1⟩ 110000 10 false false
  let (_, f, p) ← f.newOrder d true p 110000 20 false false
  let (_, f, p) ← f.newOrder d false p 100000 30 false false
  return (f, p)

omit [Rounding] in
/-- The sample front is well formed. -/
theorem threeOrders_ok {f : Front} {p : OrderPool} (h : threeOrders = some (f, p)) :
    f.Ok p ∧ p.Ok := by
  have hd : ∀ r, RulerDef.Lists ⟨100000, 200000, 5⟩ r → 0 < r := fun r hr => by
    have := hr.1
    dsimp only at this
    omega
  have hnew : ∀ {f f' : Front} {p p' : OrderPool} {priLow : Bool} {rate amount : ℤ}
      {no : Option Id}, f.Ok p → p.Ok →
      f.newOrder ⟨100000, 200000, 5⟩ priLow p rate amount false false = some (no, f', p') →
      f'.Ok p' ∧ p'.Ok := by
    intro f f' p p' priLow rate amount no hf hp h
    obtain ⟨-, -, ⟨-, rfl, hrefused⟩ | ⟨-, rfl, -, -, hf', -⟩⟩ := newOrder_spec hd hf hp h
    · exact ⟨hrefused.ok, hp⟩
    · exact ⟨hf', hp.newOrder _ _ _⟩
  simp only [threeOrders, Option.bind_eq_bind, Option.bind_eq_some_iff] at h
  obtain ⟨⟨_, f₁, p₁⟩, h₁, ⟨_, f₂, p₂⟩, h₂, ⟨_, f₃, p₃⟩, h₃, h⟩ := h
  simp only [Option.pure_def, Option.some.injEq, Prod.mk.injEq] at h
  obtain ⟨rfl, rfl⟩ := h
  have hok₁ := hnew (Ok.create _ gbp true) (fun i o ho => by simp at ho) h₁
  have hok₂ := hnew hok₁.1 hok₁.2 h₂
  exact hnew hok₂.1 hok₂.2 h₃

end Front

end

namespace Front

/-- Three orders: the better rate is matched first, then the high order and the low one, of which
something is left. -/
theorem match_priority_threeOrders :
    ∃ f p f' x touches, threeOrders = some (f, p) ∧
      f.match 9 p ⟨90⟩ 110000 50 eur gbp true = some (f', x) ∧
      f.matchTrace 9 p ⟨90⟩ 110000 50 eur gbp true = some (touches, f', x) ∧
      touches = [((100000, 3), true), ((110000, 1), true), ((110000, 2), false)] ∧
      ∀ e, (e, true) ∈ touches → e ∉ f'.listing := by
  obtain ⟨⟨f, p⟩, hthree⟩ := Option.isSome_iff_exists.mp (show threeOrders.isSome by decide)
  have htouches : (threeOrders.bind fun (f, p) =>
      (f.matchTrace 9 p ⟨90⟩ 110000 50 eur gbp true).map Prod.fst) =
      some [((100000, 3), true), ((110000, 1), true), ((110000, 2), false)] := by decide +kernel
  rw [hthree, Option.bind_some, Option.map_eq_some_iff] at htouches
  obtain ⟨⟨touches, f', x⟩, htrace, htouches⟩ := htouches
  have hmatch : f.match 9 p ⟨90⟩ 110000 50 eur gbp true = some (f', x) := by
    rw [← map_matchTrace, htrace]
    rfl
  obtain ⟨hf, hp⟩ := threeOrders_ok hthree
  obtain ⟨touches', htrace', -, hremoved, -⟩ := match_priority hf hp hmatch
  rw [htrace] at htrace'
  obtain rfl : touches = touches' := congrArg Prod.fst (Option.some.inj htrace')
  exact ⟨f, p, f', x, touches, hthree, hmatch, htrace, htouches, hremoved⟩

end Front

end AcCore.Tex.Cex
