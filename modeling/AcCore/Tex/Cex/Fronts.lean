import AcCore.Tex.Cex.Queues

/-!
# The fronts, consistent

A front is consistent when its queues are, in the order of their priority, and
when its two tables lead to them. The listing of a front has its orders in the
order in which they are matched: this file proves that a match is made of
rounds on the listing, and that the other operations keep the front consistent.
-/

namespace AcCore.Tex.Cex

open Lib

namespace Front

/-- The first of two rates has priority for the front. -/
def Before (invertPriority : Bool) (r r' : ℤ) : Prop := if invertPriority then r ≤ r' else r ≥ r'

/-- The orders of a front with their rates, in the order of the queues. -/
def listing (f : Front) : List (ℤ × Id) := f.queues.flatMap WaitingQueues.listing

/-- The queues of the front are consistent and in the order of their priority. -/
structure QueuesOk (p : OrderPool) (f : Front) : Prop where
  queues : ∀ q ∈ f.queues, q.Ok p
  invert : ∀ q ∈ f.queues, q.high.invertPriority = f.invertPriority
  rates : (f.queues.map WaitingQueues.getRate).Nodup
  sorted : (f.queues.map WaitingQueues.getRate).Pairwise (Before f.invertPriority)
  pos : ∀ q ∈ f.queues, 0 < q.getRate
  byRate : ∀ r, r ∈ f.queuesByRate ↔ r ∈ f.queues.map WaitingQueues.getRate
  nodup : (f.listing.map Prod.snd).Nodup

/-- The front is consistent, with its table of orders. -/
structure Ok (p : OrderPool) (f : Front) : Prop extends f.QueuesOk p where
  byOrder : ∀ i r, f.queuesByOrder.lookup i = some r ↔ (r, i) ∈ f.listing

variable {p p' : OrderPool} {f f' : Front} {q : WaitingQueues} {i : Id} {r : ℤ}

/-- A new front is well formed. -/
theorem Ok.create (p : OrderPool) (curid : Cur) (invertPriority : Bool) :
    Ok p (create curid invertPriority) := by
  refine ⟨⟨?_, ?_, ?_, ?_, ?_, ?_, ?_⟩, ?_⟩ <;> simp [Front.create, listing]

/-- A front lists what its queues list. -/
theorem mem_listing : (r, i) ∈ f.listing ↔ ∃ q ∈ f.queues, (r, i) ∈ q.listing := List.mem_flatMap

/-- A front looks at the values of its own orders only. -/
theorem QueuesOk.congr_value (hf : f.QueuesOk p) (hnext : p.next ≤ p'.next)
    (h : ∀ i ∈ f.listing.map Prod.snd, p.SameValue p' i) : f.QueuesOk p' where
  queues q hq := (hf.queues q hq).congr_value hnext fun i hi => by
    obtain ⟨e, he, rfl⟩ := List.mem_map.mp hi
    exact h e.2 (List.mem_map_of_mem (List.mem_flatMap.mpr ⟨q, hq, he⟩))
  invert := hf.invert
  rates := hf.rates
  sorted := hf.sorted
  pos := hf.pos
  byRate := hf.byRate
  nodup := hf.nodup

/-- A front stays well formed when the values of its orders stay. -/
theorem Ok.congr_value (hf : f.Ok p) (hnext : p.next ≤ p'.next)
    (h : ∀ i ∈ f.listing.map Prod.snd, p.SameValue p' i) : f.Ok p' :=
  ⟨hf.toQueuesOk.congr_value hnext h, hf.byOrder⟩

/-- A front stays well formed when the objects of its orders stay. -/
theorem Ok.congr (hf : f.Ok p) (hnext : p.next ≤ p'.next)
    (h : ∀ i ∈ f.listing.map Prod.snd, p'.live.lookup i = p.live.lookup i) : f.Ok p' :=
  hf.congr_value hnext fun i hi => .of_eq (h i hi)

/-- Every order of a front has an object that is not empty. -/
theorem QueuesOk.live (hf : f.QueuesOk p) (hi : (r, i) ∈ f.listing) :
    ∃ o, p.live.lookup i = some o ∧ 1 ≤ o.value := by
  obtain ⟨q, hq, hi⟩ := mem_listing.mp hi
  exact (hf.queues q hq).live hi

/-! ## Trimming -/

/-- `trim` drops empty queues from the top, and then the top has a value. -/
theorem trimQueues_spec {qs qs' : List WaitingQueues} {rates rates' : Finset ℤ}
    (h : trimQueues qs rates = some (qs', rates')) :
    ∃ gone, qs = gone ++ qs' ∧ (∀ q ∈ gone, q.hasValue = false) ∧
      rates' = rates \ (gone.map WaitingQueues.getRate).toFinset ∧
      ∀ q ∈ qs'.head?, q.hasValue = true := by
  induction qs generalizing rates with
  | nil =>
    obtain ⟨rfl, rfl⟩ := Prod.mk.injEq _ _ _ _ |>.mp (Option.some.inj h)
    exact ⟨[], by simp⟩
  | cons q qs ih =>
    unfold trimQueues at h
    split_ifs at h with hvalue hrate
    · obtain ⟨rfl, rfl⟩ := Prod.mk.injEq _ _ _ _ |>.mp (Option.some.inj h)
      exact ⟨[], by simpa using hvalue⟩
    · obtain ⟨gone, rfl, hgone, rfl, hhead⟩ := ih h
      refine ⟨q :: gone, rfl, ?_, ?_, hhead⟩
      · intro q' hq'
        rcases List.mem_cons.mp hq' with rfl | hq'
        · simpa using hvalue
        · exact hgone q' hq'
      · ext r
        simp [and_assoc, not_or, and_comm]

/-- Trimming drops empty queues from the top, and no order. -/
theorem QueuesOk.trim (hf : f.QueuesOk p) (h : f.trim = some f') :
    f'.QueuesOk p ∧ f'.listing = f.listing ∧ f'.curid = f.curid ∧
      f'.invertPriority = f.invertPriority ∧ f'.queuesByOrder = f.queuesByOrder ∧
      (∀ q ∈ f'.queues.head?, q.hasValue = true) ∧ f'.queues <:+ f.queues := by
  obtain ⟨⟨qs, rates⟩, htrim, rfl⟩ := Option.map_eq_some_iff.mp h
  obtain ⟨gone, hqs, hgone, hrates, hhead⟩ := trimQueues_spec htrim
  have hempty : gone.flatMap WaitingQueues.listing = [] := by
    rw [List.flatMap_eq_nil_iff]
    intro q hq
    exact (hf.queues q (by simp [hqs, hq])).hasValue_iff.mp (hgone q hq)
  have hlisting : qs.flatMap WaitingQueues.listing = f.listing := by
    rw [listing, hqs, List.flatMap_append, hempty, List.nil_append]
  have hmem : ∀ q ∈ qs, q ∈ f.queues := fun q hq => by simp [hqs, hq]
  have hkeys := hf.rates
  rw [hqs, List.map_append, List.nodup_append] at hkeys
  refine ⟨⟨fun q hq => hf.queues q (hmem q hq), fun q hq => hf.invert q (hmem q hq), hkeys.2.1, ?_,
    fun q hq => hf.pos q (hmem q hq), ?_, ?_⟩, hlisting, rfl, rfl, rfl, hhead, ⟨gone, hqs.symm⟩⟩
  · have hsorted := hf.sorted
    rw [hqs, List.map_append, List.pairwise_append] at hsorted
    exact hsorted.2.1
  · intro r
    dsimp only
    rw [hrates, Finset.mem_sdiff, hf.byRate, hqs, List.map_append, List.mem_append,
      List.mem_toFinset]
    constructor
    · rintro ⟨hr | hr, hnot⟩
      · exact absurd hr hnot
      · exact hr
    · exact fun hr => ⟨Or.inr hr, fun hgone' => hkeys.2.2 r hgone' r hr rfl⟩
  · rw [listing]
    dsimp only
    rw [hlisting]
    exact hf.nodup

/-! ## The match -/

variable {t : MatchTerms} {limitRate : ℤ} {fuel : ℕ} {x x' : Matching}

/-- The rates of the front that a limit accepts. -/
def Accepts (invertPriority : Bool) (limitRate r : ℤ) : Prop := Before invertPriority r limitRate

/-- `compare` asks whether the rate of the queue comes before. -/
theorem compare_iff {q : WaitingQueue} : q.compare r = true ↔ Before q.invertPriority q.rate r := by
  unfold WaitingQueue.compare Before
  split_ifs <;> simp

/-- The first queue of a front after it was matched. -/
theorem QueuesOk.set_first {qs : List WaitingQueues} {q' : WaitingQueues} (hf : f.QueuesOk p)
    (hqs : f.queues = q :: qs) (hq' : q'.Ok p') (hrate : q'.getRate = q.getRate)
    (hinvert : q'.high.invertPriority = q.high.invertPriority)
    (hsuffix : q'.listing <:+ q.listing) (hnext : p'.next = p.next)
    (hother : ∀ j ∉ q.listing.map Prod.snd, p'.live.lookup j = p.live.lookup j) :
    QueuesOk p' { f with queues := q' :: qs } := by
  have hlisting : f.listing = q.listing ++ qs.flatMap WaitingQueues.listing := by
    rw [listing, hqs, List.flatMap_cons]
  have hnodup := hf.nodup
  rw [hlisting, List.map_append] at hnodup
  have hkeys : (q' :: qs).map WaitingQueues.getRate = f.queues.map WaitingQueues.getRate := by
    rw [hqs, List.map_cons, List.map_cons, hrate]
  refine ⟨?_, ?_, ?_, ?_, ?_, ?_, ?_⟩
  · intro q₁ hq₁
    rcases List.mem_cons.mp hq₁ with rfl | hq₁
    · exact hq'
    · refine (hf.queues q₁ (by simp [hqs, hq₁])).congr hnext.ge fun i hi => hother i fun hi' => ?_
      obtain ⟨e, he, rfl⟩ := List.mem_map.mp hi
      have hrest : e.2 ∈ (qs.flatMap WaitingQueues.listing).map Prod.snd :=
        List.mem_map_of_mem (List.mem_flatMap.mpr ⟨q₁, hq₁, he⟩)
      exact (List.nodup_append.mp hnodup).2.2 _ hi' _ hrest rfl
  · intro q₁ hq₁
    rcases List.mem_cons.mp hq₁ with rfl | hq₁
    · exact hinvert.trans (hf.invert q (by simp [hqs]))
    · exact hf.invert q₁ (by simp [hqs, hq₁])
  · rw [hkeys]
    exact hf.rates
  · rw [hkeys]
    exact hf.sorted
  · intro q₁ hq₁
    rcases List.mem_cons.mp hq₁ with rfl | hq₁
    · exact hrate ▸ hf.pos q (by simp [hqs])
    · exact hf.pos q₁ (by simp [hqs, hq₁])
  · intro r
    rw [hkeys]
    exact hf.byRate r
  · rw [listing, List.flatMap_cons, List.map_append]
    exact hnodup.sublist ((hsuffix.sublist.map _).append_right _)

/-- The match of a front has ended: at an accepted rate there is no amount
left, or the funds do not suffice. -/
def Settled [Rounding] (t : MatchTerms) (limitRate : ℤ) (f : Front) (x : Matching) : Prop :=
  ∀ r i, f.listing.head? = some (r, i) → Accepts f.invertPriority limitRate r →
    x.amountLeft = 0 ∨ ∃ fuel, Order.couldMatchProvidedBigOrdervalue x.wallet r t.weak t.buy
      fuel x.amountLeft = some false

/-- The first order of a listing is one of the first queue that has any. -/
theorem head_listing {qs : List WaitingQueues} (hqs : f.queues = q :: qs)
    (hq : q.listing ≠ []) (hOk : q.Ok p) (h : f.listing.head? = some (r, i)) : r = q.getRate := by
  rw [listing, hqs, List.flatMap_cons, List.head?_append_of_ne_nil _ hq] at h
  exact ((WaitingQueues.mem_listing hOk).mp (List.mem_of_mem_head? h)).1

/-- The order of the rates is transitive. -/
theorem Before.trans {b : Bool} {r₁ r₂ r₃ : ℤ} (h : Before b r₁ r₂) (h' : Before b r₂ r₃) :
    Before b r₁ r₃ := by
  unfold Before at *
  split_ifs at * <;> omega

/-- The first queue has the best rate of the front. -/
theorem QueuesOk.best (hf : f.QueuesOk p) {qs : List WaitingQueues} (hqs : f.queues = q :: qs)
    (hi : (r, i) ∈ f.listing) : Before f.invertPriority q.getRate r := by
  obtain ⟨q', hq', hmem⟩ := mem_listing.mp hi
  rw [((WaitingQueues.mem_listing (hf.queues q' hq')).mp hmem).1]
  have hsorted := hf.sorted
  rw [hqs, List.map_cons, List.pairwise_cons] at hsorted
  rw [hqs] at hq'
  rcases List.mem_cons.mp hq' with rfl | hq'
  · unfold Before
    split_ifs <;> exact le_rfl
  · exact hsorted.1 _ (List.mem_map_of_mem hq')

/-- One pass of the loop: the first queue is matched. When it is first again its
match has ended. -/
theorem QueuesOk.match_first [Rounding] {qs : List WaitingQueues} {q' : WaitingQueues}
    (hf : f.QueuesOk x.pool) (hp : x.pool.Ok) (hqs : f.queues = q :: qs)
    (haccepts : q.high.compare limitRate = true)
    (hmatch : q.match t fuel x = some (q', x'))
    (htrim : ({ f with queues := q' :: qs } : Front).trim = some f') :
    Rounds t (Accepts f.invertPriority limitRate) f.listing x f'.listing x' ∧
      f'.QueuesOk x'.pool ∧ f'.curid = f.curid ∧ f'.invertPriority = f.invertPriority ∧
      f'.queuesByOrder = f.queuesByOrder ∧
      (∀ j ∉ f.listing.map Prod.snd, x'.pool.live.lookup j = x.pool.live.lookup j) ∧
      f'.listing = q'.listing ++ qs.flatMap WaitingQueues.listing ∧
      ∀ q₂ ∈ f'.queues.head?, some q'.getRate = some q₂.getRate → f'.Settled t limitRate x' := by
  have hq : q ∈ f.queues := by simp [hqs]
  have haccepted : Accepts f.invertPriority limitRate q.getRate :=
    hf.invert q hq ▸ compare_iff.mp haccepts
  obtain ⟨hrounds, hq', hrate, hinvert', hother, hend⟩ :=
    WaitingQueues.match_spec (hf.queues q hq) hp haccepted hmatch
  have hset := hf.set_first hqs hq' hrate hinvert' hrounds.suffix (hrounds.pool hp).2 hother
  obtain ⟨hf', hlisting', hcur, hinvert, hbyOrder, hhead', hsuffix⟩ := hset.trim htrim
  have hlisting : f.listing = q.listing ++ qs.flatMap WaitingQueues.listing := by
    rw [listing, hqs, List.flatMap_cons]
  have hlisting'' : f'.listing = q'.listing ++ qs.flatMap WaitingQueues.listing := by
    rw [hlisting', listing, List.flatMap_cons]
  refine ⟨?_, hf', hcur, hinvert, hbyOrder, ?_, hlisting'', ?_⟩
  · rw [hlisting, hlisting'']
    exact hrounds.append _
  · intro j hj
    rw [hlisting, List.map_append, List.mem_append, not_or] at hj
    exact hother j hj.1
  · intro q₂ hq₂ hsame r i hhead _
    have hmem := List.mem_of_mem_head? hq₂
    obtain rfl : q' = q₂ := List.inj_on_of_nodup_map hset.rates List.mem_cons_self
      (hsuffix.mem hmem) (Option.some.inj hsame)
    have hne : q'.listing ≠ [] := fun hnil => by
      have hvalue := hhead' q' hq₂
      rw [(hq'.hasValue_iff).mpr hnil] at hvalue
      cases hvalue
    obtain ⟨tail, htail⟩ : ∃ tail, f'.queues = q' :: tail := by
      cases hqueues : f'.queues with
      | nil => simp [hqueues] at hq₂
      | cons q₃ tail =>
        rw [hqueues, List.head?_cons, Option.mem_some_iff] at hq₂
        exact ⟨tail, by rw [hq₂]⟩
    rw [head_listing htail hne hq' hhead, hrate]
    exact hend.resolve_left hne

/-- The loop of the match is made of rounds. -/
theorem matchLoop_spec [Rounding] {prevq : Option ℤ} (hf : f.QueuesOk x.pool) (hp : x.pool.Ok)
    (hprev : ∀ q ∈ f.queues.head?, prevq = some q.getRate → f.Settled t limitRate x)
    (h : matchLoop t limitRate fuel prevq f x = some (f', x')) :
    Rounds t (Accepts f.invertPriority limitRate) f.listing x f'.listing x' ∧
      f'.QueuesOk x'.pool ∧ f'.curid = f.curid ∧ f'.invertPriority = f.invertPriority ∧
      f'.queuesByOrder = f.queuesByOrder ∧ f'.Settled t limitRate x' := by
  induction fuel generalizing prevq f x with
  | zero => cases h
  | succ fuel ih =>
    unfold matchLoop at h
    cases hqs : f.queues with
    | nil =>
      simp only [hqs, Option.some.injEq, Prod.mk.injEq] at h
      obtain ⟨rfl, rfl⟩ := h
      refine ⟨.nil _ _, hf, rfl, rfl, rfl, fun r i hhead => ?_⟩
      simp [listing, hqs] at hhead
    | cons q qs =>
      have hinvert := hf.invert q (by simp [hqs])
      simp only [hqs] at h
      split_ifs at h with hstop
      · obtain ⟨rfl, rfl⟩ := Prod.mk.injEq _ _ _ _ |>.mp (Option.some.inj h)
        refine ⟨.nil _ _, hf, rfl, rfl, rfl, ?_⟩
        rcases hstop with hprevq | hrefused
        · exact hprev q (by simp [hqs]) hprevq
        · -- the limit refuses the best rate, and so all others
          intro r i hhead haccepted
          have hbest := hf.best hqs (List.mem_of_mem_head? hhead)
          rw [Bool.not_eq_true'] at hrefused
          rw [compare_iff.mpr (hinvert ▸ hbest.trans haccepted)] at hrefused
          cases hrefused
      · rw [not_or, Bool.not_eq_true', Bool.not_eq_false] at hstop
        simp only [Option.bind_eq_bind, Option.bind_eq_some_iff] at h
        obtain ⟨⟨q₁, y⟩, hmatch, f₁, htrim, h⟩ := h
        obtain ⟨hrounds, hf₁, hcur₁, hinv₁, hbyOrder₁, -, -, hsettled⟩ :=
          hf.match_first hp hqs hstop.2 hmatch htrim
        obtain ⟨hrounds', hf', hcur', hinv', hbyOrder', hsettled'⟩ :=
          ih hf₁ (hrounds.pool hp).1 hsettled h
        rw [hinv₁] at hrounds'
        exact ⟨hrounds.trans hrounds', hf', hcur'.trans hcur₁, hinv'.trans hinv₁,
          hbyOrder'.trans hbyOrder₁, hsettled'⟩

/-- A lookup after some keys were erased. -/
theorem lookup_foldl_erase {α : Type*} (t : Table Id α) (l : List Id) (i : Id) :
    (l.foldl (fun t i => t.erase i) t).lookup i = if i ∈ l then none else t.lookup i := by
  induction l generalizing t with
  | nil => simp
  | cons j l ih =>
    rw [List.foldl_cons, ih]
    by_cases hij : i = j
    · subst hij
      simp
    · simp [hij, Finmap.lookup_erase_ne hij]

/-- A match is made of rounds. -/
theorem match_spec [Rounding] {w : Wallet} {amount : ℤ} {cur layCur : Cur} {buy : Bool}
    (hf : f.Ok p)
    (hp : p.Ok) (h : f.match fuel p w limitRate amount cur layCur buy = some (f', x)) :
    ∃ y, x = { y with ms := { y.ms with unmatched := y.amountLeft } } ∧
      Rounds ⟨cur, layCur, !f.invertPriority, buy⟩ (Accepts f.invertPriority limitRate) f.listing
        ⟨p, w, ⟨[], [], 0⟩, amount⟩ f'.listing y ∧
      f'.Ok x.pool ∧ f'.curid = f.curid ∧ f'.invertPriority = f.invertPriority ∧
      f'.Settled ⟨cur, layCur, !f.invertPriority, buy⟩ limitRate x := by
  simp only [«match», Option.bind_eq_bind, Option.bind_eq_some_iff] at h
  obtain ⟨⟨g, y⟩, hloop, h⟩ := h
  obtain ⟨rfl, rfl⟩ := Prod.mk.injEq _ _ _ _ |>.mp (Option.some.inj h)
  obtain ⟨hrounds, hg, hcur, hinvert, hbyOrder, hsettled⟩ :=
    matchLoop_spec hf.toQueuesOk hp (fun _ _ hprev => by cases hprev) hloop
  refine ⟨y, rfl, hrounds, ?_, hcur, hinvert, hsettled⟩
  obtain ⟨items, gone, heffect⟩ := hrounds.effect hp hf.nodup
  refine ⟨⟨hg.queues, hg.invert, hg.rates, hg.sorted, hg.pos, hg.byRate, hg.nodup⟩, fun i r => ?_⟩
  have hlisting := heffect.listing
  have hnodup := hf.nodup
  rw [hlisting, List.map_append, List.nodup_append] at hnodup
  have hexpired : y.ms.expiredOrders = gone.map Prod.snd := by simpa using heffect.expired
  dsimp only
  rw [lookup_foldl_erase, hexpired, hbyOrder]
  split_ifs with hgone
  · -- an order that expired rests no more
    constructor
    · exact fun h => nomatch h
    · intro hmem
      exact absurd rfl (hnodup.2.2 i hgone i (List.mem_map.mpr ⟨(r, i), hmem, rfl⟩))
  · rw [hf.byOrder, hlisting, List.mem_append]
    constructor
    · rintro (hmem | hmem)
      · exact absurd (List.mem_map.mpr ⟨(r, i), hmem, rfl⟩) hgone
      · exact hmem
    · exact Or.inr

/-! ## Writing a queue -/

variable {q' : WaitingQueues}

/-- A queue is found under its rate. -/
theorem queue_eq (hf : f.QueuesOk p) (hq : q ∈ f.queues) : f.queue q.getRate = some q :=
  Keyed.get_of_mem hf.rates hq

/-- The orders of a queue that is written take the place of those it had. -/
theorem listing_setQueue (hf : f.QueuesOk p) (hq : f.queue q'.getRate = some q) :
    (q.listing ++ (f.setQueue q').listing).Perm (q'.listing ++ f.listing) := by
  have hsum := Keyed.sum_put (fun q => (q.listing : Multiset (ℤ × Id))) hf.rates hq
  have hflat : ∀ qs : List WaitingQueues,
      (qs.map fun q => (q.listing : Multiset (ℤ × Id))).sum =
        (qs.flatMap WaitingQueues.listing : List (ℤ × Id)) := by
    intro qs
    induction qs with
    | nil => rfl
    | cons q qs ih =>
      rw [List.map_cons, List.sum_cons, ih, List.flatMap_cons, Multiset.coe_add]
  rw [hflat, hflat, Multiset.coe_add, Multiset.coe_add, Multiset.coe_eq_coe] at hsum
  exact hsum

/-- A front with one queue replaced by a well-formed one is well formed. -/
theorem QueuesOk.setQueue (hf : f.QueuesOk p) (hq : f.queue q'.getRate = some q)
    (hq' : q'.Ok p') (hinvert : q'.high.invertPriority = q.high.invertPriority)
    (hnext : p.next ≤ p'.next)
    (hother : ∀ j ∈ f.listing.map Prod.snd, j ∉ q.listing.map Prod.snd →
      p'.live.lookup j = p.live.lookup j)
    (hnodup : ((f.setQueue q').listing.map Prod.snd).Nodup) : QueuesOk p' (f.setQueue q') := by
  have hmem : q ∈ f.queues := Keyed.mem_of_get hq
  have hrate : q.getRate = q'.getRate := Keyed.key_of_get hq
  have hkeys : (f.setQueue q').queues.map WaitingQueues.getRate =
      f.queues.map WaitingQueues.getRate := Keyed.map_key_put _ _
  have hcases : ∀ q₁ ∈ (f.setQueue q').queues, q₁ = q' ∨ q₁ ∈ f.queues ∧ q₁ ≠ q := by
    intro q₁ hq₁
    rcases Keyed.mem_put hq₁ with rfl | ⟨hq₁, hne⟩
    · exact Or.inl rfl
    · exact Or.inr ⟨hq₁, fun heq => hne (heq ▸ hrate)⟩
  -- the other queues have other orders
  have hdisjoint : ∀ q₁ ∈ f.queues, q₁ ≠ q → ∀ j ∈ q₁.listing.map Prod.snd,
      j ∉ q.listing.map Prod.snd := by
    intro q₁ hq₁ hne j hj hjq
    obtain ⟨⟨r₁, j₁⟩, hj₁, rfl⟩ := List.mem_map.mp hj
    obtain ⟨⟨r₂, j₂⟩, hj₂, hsame⟩ := List.mem_map.mp hjq
    have heq := List.inj_on_of_nodup_map hf.nodup (mem_listing.mpr ⟨q, hmem, hj₂⟩)
      (mem_listing.mpr ⟨q₁, hq₁, hj₁⟩) hsame
    obtain ⟨rfl, rfl⟩ := Prod.mk.injEq _ _ _ _ |>.mp heq
    have hr₁ := ((WaitingQueues.mem_listing (hf.queues q₁ hq₁)).mp hj₁).1
    have hr₂ := ((WaitingQueues.mem_listing (hf.queues q hmem)).mp hj₂).1
    exact hne (List.inj_on_of_nodup_map hf.rates hq₁ hmem (hr₁.symm.trans hr₂))
  refine ⟨?_, ?_, ?_, ?_, ?_, ?_, hnodup⟩
  · intro q₁ hq₁
    rcases hcases q₁ hq₁ with rfl | ⟨hq₁, hne⟩
    · exact hq'
    · refine (hf.queues q₁ hq₁).congr hnext fun j hj => hother j ?_ (hdisjoint q₁ hq₁ hne j hj)
      obtain ⟨e, he, rfl⟩ := List.mem_map.mp hj
      exact List.mem_map_of_mem (List.mem_flatMap.mpr ⟨q₁, hq₁, he⟩)
  · intro q₁ hq₁
    rcases hcases q₁ hq₁ with rfl | ⟨hq₁, -⟩
    · exact hinvert.trans (hf.invert q hmem)
    · exact hf.invert q₁ hq₁
  · rw [hkeys]
    exact hf.rates
  · rw [hkeys]
    exact hf.sorted
  · intro q₁ hq₁
    rcases hcases q₁ hq₁ with rfl | ⟨hq₁, -⟩
    · exact hrate ▸ hf.pos q hmem
    · exact hf.pos q₁ hq₁
  · intro r
    rw [hkeys]
    exact hf.byRate r

/-! ## New orders -/

/-- Of two rates one comes before the other, or they are equal. -/
theorem before_total (b : Bool) (r r' : ℤ) : Before b r r' ∨ Before b r' r := by
  unfold Before
  split_ifs <;> omega

/-- A new queue goes where its rate belongs. -/
theorem sorted_orderedInsert {qs : List WaitingQueues} {b : Bool}
    (hq : q.high.invertPriority = b)
    (hqs : (qs.map WaitingQueues.getRate).Pairwise (Before b)) :
    ((qs.orderedInsert (fun q q' => q.high.compare q'.high.rate) q).map
      WaitingQueues.getRate).Pairwise (Before b) := by
  induction qs with
  | nil => simp
  | cons q₁ qs ih =>
    rw [List.map_cons, List.pairwise_cons] at hqs
    have hcompare : (q.high.compare q₁.high.rate = true) ↔ Before b q.getRate q₁.getRate := by
      rw [compare_iff, hq]
      rfl
    by_cases hfirst : q.high.compare q₁.high.rate = true
    · rw [List.orderedInsert, if_pos hfirst, List.map_cons, List.map_cons, List.pairwise_cons]
      refine ⟨fun r hr => ?_, List.pairwise_cons.mpr hqs⟩
      rcases List.mem_cons.mp hr with rfl | hr
      · exact hcompare.mp hfirst
      · exact (hcompare.mp hfirst).trans (hqs.1 r hr)
    · rw [List.orderedInsert, if_neg hfirst, List.map_cons, List.pairwise_cons]
      refine ⟨fun r hr => ?_, ih hqs.2⟩
      obtain ⟨q₂, hq₂, rfl⟩ := List.mem_map.mp hr
      rcases (List.mem_orderedInsert _).mp hq₂ with rfl | hq₂
      · exact (before_total b q₁.getRate q₂.getRate).resolve_right
          fun hbefore => hfirst (hcompare.mpr hbefore)
      · exact hqs.1 _ (List.mem_map_of_mem hq₂)

/-- `get_queue_rate` makes no orders, and where it finds a queue it is there. -/
theorem getQueueRate_spec {d : RulerDef} {b : Bool} (hd : ∀ r, d.Lists r → 0 < r) (hf : f.Ok p)
    (h : f.getQueueRate d r = (f', b)) :
    f'.Ok p ∧ f'.listing = f.listing ∧ f'.curid = f.curid ∧
      f'.invertPriority = f.invertPriority ∧ (b = true → ∃ q, f'.queue r = some q) := by
  unfold getQueueRate at h
  split_ifs at h with hknown hvalid
  · obtain ⟨rfl, rfl⟩ := Prod.mk.injEq _ _ _ _ |>.mp h
    refine ⟨hf, rfl, rfl, rfl, fun _ => ?_⟩
    obtain ⟨q, hq, rfl⟩ := List.mem_map.mp ((hf.byRate r).mp hknown)
    exact ⟨q, queue_eq hf.toQueuesOk hq⟩
  · obtain ⟨rfl, rfl⟩ := Prod.mk.injEq _ _ _ _ |>.mp h
    have hperm := List.perm_orderedInsert (fun q q' : WaitingQueues => q.high.compare q'.high.rate)
      (WaitingQueues.create r f.invertPriority) f.queues
    have hlisting : (f.emplaceQueue (WaitingQueues.create r f.invertPriority)).listing =
        f.listing := by
      unfold listing emplaceQueue
      generalize f.queues = qs
      induction qs with
      | nil => rfl
      | cons q qs ih =>
        rw [List.orderedInsert]
        split_ifs
        · rw [List.flatMap_cons, WaitingQueues.listing_create, List.nil_append]
        · rw [List.flatMap_cons, List.flatMap_cons, ih]
    have hcases : ∀ q ∈ (f.emplaceQueue (WaitingQueues.create r f.invertPriority)).queues,
        q = WaitingQueues.create r f.invertPriority ∨ q ∈ f.queues := fun q hq =>
      (List.mem_orderedInsert _).mp hq
    have hrates : ((f.emplaceQueue (WaitingQueues.create r f.invertPriority)).queues.map
        WaitingQueues.getRate).Perm (r :: f.queues.map WaitingQueues.getRate) :=
      hperm.map WaitingQueues.getRate
    have hnew : r ∉ f.queues.map WaitingQueues.getRate := fun hr => hknown ((hf.byRate r).mpr hr)
    have hok : QueuesOk p (f.emplaceQueue (WaitingQueues.create r f.invertPriority)) := by
      refine ⟨?_, ?_, ?_, ?_, ?_, ?_, ?_⟩
      · intro q hq
        rcases hcases q hq with rfl | hq
        · exact WaitingQueues.Ok.create p r _
        · exact hf.queues q hq
      · intro q hq
        rcases hcases q hq with rfl | hq
        · rfl
        · exact hf.invert q hq
      · rw [hrates.nodup_iff, List.nodup_cons]
        exact ⟨hnew, hf.rates⟩
      · exact sorted_orderedInsert rfl hf.sorted
      · intro q hq
        rcases hcases q hq with rfl | hq
        · exact hd r hvalid
        · exact hf.pos q hq
      · intro r'
        rw [hrates.mem_iff, List.mem_cons, ← hf.byRate]
        exact Finset.mem_insert
      · rw [hlisting]
        exact hf.nodup
    refine ⟨⟨hok, fun i r' => ?_⟩, hlisting, rfl, rfl, fun _ => ?_⟩
    · rw [hlisting]
      exact hf.byOrder i r'
    · exact ⟨_, queue_eq hok (q := WaitingQueues.create r f.invertPriority)
        ((List.mem_orderedInsert _).mpr (Or.inl rfl))⟩
  · obtain ⟨rfl, rfl⟩ := Prod.mk.injEq _ _ _ _ |>.mp h
    exact ⟨hf, rfl, rfl, rfl, fun h => nomatch h⟩

/-- The ids of the pool are those of the orders that rest, and the next is free. -/
theorem QueuesOk.notMem_next (hf : f.QueuesOk p) (hp : p.Ok) :
    p.next ∉ f.listing.map Prod.snd := by
  intro hmem
  obtain ⟨⟨r, i⟩, hi, hnext⟩ := List.mem_map.mp hmem
  obtain ⟨o, ho, -⟩ := hf.live hi
  have hlt := (hp i o ho).2
  dsimp only at hnext
  exact absurd hnext hlt.ne

/-- What `new_order` does when it makes no order. -/
structure Refused (p : OrderPool) (f : Front) (d : RulerDef) (rate amount : ℤ) (f' : Front) :
    Prop where
  ok : f'.Ok p
  listing : f'.listing = f.listing
  reason : amount < 1 ∨ ¬d.Lists rate

/-- What `new_order` returns. -/
theorem newOrder_spec {d : RulerDef} {priLow weak buy : Bool} {rate amount : ℤ}
    {no : Option Id} (hd : ∀ r, d.Lists r → 0 < r) (hf : f.Ok p) (hp : p.Ok)
    (h : f.newOrder d priLow p rate amount weak buy = some (no, f', p')) :
    f'.curid = f.curid ∧ f'.invertPriority = f.invertPriority ∧
      ((no = none ∧ p' = p ∧ Refused p f d rate amount f') ∨
        (no = some p.next ∧ p' = (p.newOrder amount weak buy).2 ∧ 1 ≤ amount ∧ 0 < rate ∧
          f'.Ok p' ∧ f'.listing.Perm ((rate, p.next) :: f.listing))) := by
  unfold newOrder at h
  cases hget : f.getQueueRate d rate with
  | mk g b =>
    obtain ⟨hg, hlisting, hcur, hinvert, hqueue⟩ := getQueueRate_spec hd hf hget
    rw [hget] at h
    cases b with
    | false =>
      simp only [Option.some.injEq, Prod.mk.injEq] at h
      obtain ⟨rfl, rfl, rfl⟩ := h
      have hinvalid : ¬d.Lists rate := by
        intro hvalid
        unfold getQueueRate at hget
        split_ifs at hget
        · cases hget
        · cases hget
      exact ⟨hcur, hinvert, Or.inl ⟨rfl, rfl, hg, hlisting, Or.inr hinvalid⟩⟩
    | true =>
      obtain ⟨q, hq⟩ := hqueue rfl
      simp only [hq, Option.map_some, Option.some.injEq] at h
      have hqmem : q ∈ g.queues := Keyed.mem_of_get hq
      have hqrate : q.getRate = rate := Keyed.key_of_get hq
      by_cases hpos : amount < 1
      · obtain ⟨hnone, hpool⟩ :=
          WaitingQueues.newOrder_refused (q := q) (p := p) priLow weak buy hpos
        generalize q.newOrder priLow p amount weak buy = r at h hnone hpool
        obtain ⟨r₁, r₂, r₃⟩ := r
        dsimp only at hnone hpool
        subst hnone hpool
        simp only [Prod.mk.injEq] at h
        obtain ⟨rfl, rfl, rfl⟩ := h
        exact ⟨hcur, hinvert, Or.inl ⟨rfl, rfl, hg, hlisting, Or.inl hpos⟩⟩
      · obtain ⟨q', hnew, hq', hrate', hinvert', hperm⟩ := WaitingQueues.newOrder_spec
          (hg.queues q hqmem) hp priLow weak buy (not_lt.mp hpos)
        rw [hnew] at h
        simp only [Prod.mk.injEq] at h
        obtain ⟨rfl, rfl, rfl⟩ := h
        have hset : g.queue q'.getRate = some q := by rw [hrate', hqrate, hq]
        have hlistingSet : (g.setQueue q').listing.Perm ((rate, p.next) :: g.listing) := by
          have hboth := (listing_setQueue hg.toQueuesOk hset).trans (hperm.append_right g.listing)
          rw [hqrate, List.cons_append] at hboth
          exact (List.perm_append_left_iff q.listing).mp (hboth.trans List.perm_middle.symm)
        have hfresh := hg.toQueuesOk.notMem_next hp
        have hnodup : ((g.setQueue q').listing.map Prod.snd).Nodup := by
          rw [(hlistingSet.map Prod.snd).nodup_iff, List.map_cons, List.nodup_cons]
          exact ⟨hfresh, hg.nodup⟩
        have hok := hg.toQueuesOk.setQueue hset hq' hinvert' (Nat.le_succ _)
          (fun j hj _ => p.lookup_newOrder_of_ne amount weak buy fun h => hfresh (h ▸ hj)) hnodup
        refine ⟨hcur, hinvert, Or.inr ⟨rfl, rfl, not_lt.mp hpos, hqrate ▸ hg.pos q hqmem,
          ⟨⟨hok.queues, hok.invert, hok.rates, hok.sorted, hok.pos, hok.byRate, hok.nodup⟩,
            fun i r => ?_⟩, hlisting ▸ hlistingSet⟩⟩
        have hunknown : g.queuesByOrder.lookup p.next = none := by
          cases hlookup : g.queuesByOrder.lookup p.next with
          | none => rfl
          | some r₁ =>
            exact absurd (List.mem_map_of_mem (f := Prod.snd) ((hg.byOrder _ _).mp hlookup)) hfresh
        change (Table.emplace p.next rate g.queuesByOrder).lookup i = some r ↔
          (r, i) ∈ (g.setQueue q').listing
        rw [Table.lookup_emplace, hlistingSet.mem_iff, List.mem_cons, ← hg.byOrder, hunknown]
        by_cases hi : i = p.next
        · subst hi
          simp [hunknown, eq_comm]
        · simp [hi]

/-! ## Cancelled and updated orders -/

/-- The queue of an order that rests has it. -/
theorem QueuesOk.mem_listing_queue (hf : f.QueuesOk p) (hq : f.queue r = some q)
    (hmem : (r, i) ∈ f.listing) : (r, i) ∈ q.listing := by
  obtain ⟨q₁, hq₁, hmem₁⟩ := mem_listing.mp hmem
  have hrate₁ := ((WaitingQueues.mem_listing (hf.queues q₁ hq₁)).mp hmem₁).1
  have hsame : q₁ = q := List.inj_on_of_nodup_map hf.rates hq₁ (Keyed.mem_of_get hq)
    (hrate₁.symm.trans (Keyed.key_of_get hq).symm)
  exact hsame ▸ hmem₁

/-- The front without a cancelled order, before it is trimmed. -/
theorem Ok.erase {o : Order} {q' : WaitingQueues} (hf : f.Ok p)
    (hlookup : f.queuesByOrder.lookup i = some r) (hq : f.queue r = some q)
    (hcancel : q.cancelOrder p i = some (some (o, q'))) :
    p.live.lookup i = some o ∧ f.listing.Perm ((r, i) :: (f.setQueue q').listing) ∧
      Ok p { f.setQueue q' with queuesByOrder := f.queuesByOrder.erase i } := by
  have hqmem : q ∈ f.queues := Keyed.mem_of_get hq
  have hqrate : q.getRate = r := Keyed.key_of_get hq
  have hmem := hf.mem_listing_queue hq ((hf.byOrder i r).mp hlookup)
  rcases WaitingQueues.cancelOrder_spec (hf.queues q hqmem) hcancel with
    ⟨hnone, -⟩ | ⟨o₁, q₁, ho, hsome, hq', hrate', hinvert', hperm⟩
  · cases hnone
  · obtain ⟨rfl, rfl⟩ := Prod.mk.inj (Option.some.inj hsome)
    have hset : f.queue q'.getRate = some q := by rw [hrate', hqrate, hq]
    have hlisting : f.listing.Perm ((r, i) :: (f.setQueue q').listing) := by
      have hboth := (hperm.append_right (f.setQueue q').listing).symm.trans
        (listing_setQueue hf.toQueuesOk hset)
      rw [hqrate, List.cons_append] at hboth
      exact ((List.perm_append_left_iff q'.listing).mp (List.perm_middle.trans hboth)).symm
    have hnodup := hf.nodup
    rw [(hlisting.map Prod.snd).nodup_iff, List.map_cons, List.nodup_cons] at hnodup
    have hok := hf.toQueuesOk.setQueue hset hq' hinvert' le_rfl (fun _ _ _ => rfl) hnodup.2
    refine ⟨ho, hlisting, ⟨⟨hok.queues, hok.invert, hok.rates, hok.sorted, hok.pos, hok.byRate,
      hok.nodup⟩, fun j r' => ?_⟩⟩
    change (f.queuesByOrder.erase i).lookup j = some r' ↔ (r', j) ∈ (f.setQueue q').listing
    by_cases hj : j = i
    · subst hj
      rw [Finmap.lookup_erase]
      refine ⟨fun h => (by cases h), fun h => ?_⟩
      exact absurd (List.mem_map_of_mem (f := Prod.snd) h) hnodup.1
    · rw [Finmap.lookup_erase_ne hj, hf.byOrder, hlisting.mem_iff, List.mem_cons]
      simp [hj]

/-- What `cancel_order` returns: nothing, or the order and the front that is
trimmed after it was taken out. -/
theorem cancelOrder_cases {c : Option (Order × Front)} (hf : f.Ok p)
    (h : f.cancelOrder p i = some c) :
    (c = none ∧ ∀ r, (r, i) ∉ f.listing) ∨
      ∃ (o : Order) (g f' : Front) (r : ℤ), p.live.lookup i = some o ∧ c = some (o, f') ∧
        g.Ok p ∧ g.trim = some f' ∧ g.curid = f.curid ∧ g.invertPriority = f.invertPriority ∧
        f.listing.Perm ((r, i) :: g.listing) := by
  unfold cancelOrder at h
  cases hlookup : f.queuesByOrder.lookup i with
  | none =>
    rw [hlookup] at h
    refine Or.inl ⟨(Option.some.inj h).symm, fun r hr => ?_⟩
    rw [(hf.byOrder i r).mpr hr] at hlookup
    cases hlookup
  | some r =>
    simp only [hlookup, Option.bind_eq_bind, Option.bind_eq_some_iff] at h
    obtain ⟨q, hq, c', hcancel, h⟩ := h
    cases c' with
    | none =>
      -- the order is in the queue of its rate
      rcases WaitingQueues.cancelOrder_spec (hf.queues q (Keyed.mem_of_get hq)) hcancel with
        ⟨-, hnot⟩ | ⟨o, q', -, hsome, -⟩
      · exact absurd (hf.mem_listing_queue hq ((hf.byOrder i r).mp hlookup)) (hnot r)
      · cases hsome
    | some oq =>
      obtain ⟨o, q'⟩ := oq
      obtain ⟨ho, hlisting, hok⟩ := hf.erase hlookup hq hcancel
      simp only [Option.bind_eq_some_iff] at h
      obtain ⟨f', htrim, h⟩ := h
      obtain rfl := Option.some.inj h
      exact Or.inr ⟨o, _, f', r, ho, rfl, hok, htrim, rfl, rfl, hlisting⟩

/-- Cancelling an order takes it from the front, or the front does not have it. -/
theorem cancelOrder_spec {c : Option (Order × Front)} (hf : f.Ok p)
    (h : f.cancelOrder p i = some c) :
    (c = none ∧ ∀ r, (r, i) ∉ f.listing) ∨
      ∃ o f' r, p.live.lookup i = some o ∧ c = some (o, f') ∧ f'.Ok p ∧
        f'.curid = f.curid ∧ f'.invertPriority = f.invertPriority ∧
        f.listing.Perm ((r, i) :: f'.listing) := by
  rcases cancelOrder_cases hf h with hnone | ⟨o, g, f', r, ho, hc, hg, htrim, hcur, hinv, hlisting⟩
  · exact Or.inl hnone
  · obtain ⟨hf', hlisting', hcur', hinv', hbyOrder', -, -⟩ := hg.toQueuesOk.trim htrim
    refine Or.inr ⟨o, f', r, ho, hc, ⟨hf', fun j r' => ?_⟩, hcur'.trans hcur, hinv'.trans hinv, ?_⟩
    · rw [hbyOrder', hlisting']
      exact hg.byOrder j r'
    · rwa [hlisting']

/-- What `update_order` returns. -/
theorem updateOrder_spec {amount : ℤ} {no : Option Id} (hf : f.Ok p) (hp : p.Ok)
    (h : f.updateOrder p i amount = some (no, f', p')) :
    (no = none ∧ f' = f ∧ p' = p ∧ (amount < 1 ∨ ∀ r, (r, i) ∉ f.listing)) ∨
      ∃ o r, 1 ≤ amount ∧ (r, i) ∈ f.listing ∧ p.live.lookup i = some o ∧
        no = (p.resize i o amount).1 ∧ p' = (p.resize i o amount).2 ∧ f'.Ok p' ∧
        f'.curid = f.curid ∧ f'.invertPriority = f.invertPriority ∧
        f'.listing.Perm (no.toList.map (fun j => (r, j)) ++ f.listing) := by
  unfold updateOrder at h
  split_ifs at h with hpos
  · simp only [Option.some.injEq, Prod.mk.injEq] at h
    obtain ⟨rfl, rfl, rfl⟩ := h
    exact Or.inl ⟨rfl, rfl, rfl, Or.inl hpos⟩
  cases hlookup : f.queuesByOrder.lookup i with
  | none =>
    simp only [hlookup, Option.some.injEq, Prod.mk.injEq] at h
    obtain ⟨rfl, rfl, rfl⟩ := h
    refine Or.inl ⟨rfl, rfl, rfl, Or.inr fun r hr => ?_⟩
    rw [(hf.byOrder i r).mpr hr] at hlookup
    cases hlookup
  | some r =>
    simp only [hlookup, Option.bind_eq_bind, Option.bind_eq_some_iff] at h
    obtain ⟨q, hq, ⟨j, q', p₁⟩, hupdate, h⟩ := h
    have hqmem : q ∈ f.queues := Keyed.mem_of_get hq
    have hqrate : q.getRate = r := Keyed.key_of_get hq
    have hmem : (r, i) ∈ f.listing := (hf.byOrder i r).mp hlookup
    have hmemq := hf.mem_listing_queue hq hmem
    obtain ⟨o, ho, -⟩ := hf.live hmem
    obtain ⟨q₂, hq₂, hok₂, hrate₂, hinvert₂, hperm⟩ :=
      WaitingQueues.updateOrder_spec (hf.queues q hqmem) hp hmemq ho (not_lt.mp hpos)
    rw [hq₂] at hupdate
    simp only [Option.some.injEq, Prod.mk.injEq] at hupdate
    obtain ⟨rfl, rfl, rfl⟩ := hupdate
    have hset : f.queue q₂.getRate = some q := by rw [hrate₂, hqrate, hq]
    have hfresh := hf.toQueuesOk.notMem_next hp
    have hlistingSet : (f.setQueue q₂).listing.Perm
        ((p.resize i o amount).1.toList.map (fun j => (r, j)) ++ f.listing) := by
      have hboth := (listing_setQueue hf.toQueuesOk hset).trans (hperm.append_right f.listing)
      rw [hqrate, List.append_assoc] at hboth
      refine (List.perm_append_left_iff q.listing).mp (hboth.trans ?_)
      rw [← List.append_assoc, ← List.append_assoc]
      exact List.perm_append_comm.append_right _
    have hnodup : ((f.setQueue q₂).listing.map Prod.snd).Nodup := by
      rw [(hlistingSet.map Prod.snd).nodup_iff]
      cases hno : (p.resize i o amount).1 with
      | none => simpa using hf.nodup
      | some j =>
        have hj : j = p.next := OrderPool.eq_next_of_mem_resize hno
        simpa [hj] using ⟨by simpa using hfresh, hf.nodup⟩
    have hok : QueuesOk (p.resize i o amount).2 (f.setQueue q₂) := by
      refine hf.toQueuesOk.setQueue hset hok₂ hinvert₂ OrderPool.next_le_resize ?_ hnodup
      intro j hj hjq
      refine OrderPool.lookup_resize_of_ne ?_ fun h => hfresh (h ▸ hj)
      rintro rfl
      exact hjq (List.mem_map_of_mem (f := Prod.snd) hmemq)
    refine Or.inr ⟨o, r, not_lt.mp hpos, hmem, ho, ?_⟩
    cases hno : (p.resize i o amount).1 with
    | none =>
      simp only [hno, Option.pure_def, Option.some.injEq, Prod.mk.injEq] at h
      obtain ⟨rfl, rfl, rfl⟩ := h
      simp only [hno, Option.toList_none, List.map_nil, List.nil_append] at hlistingSet
      refine ⟨rfl, rfl, ⟨hok, fun j r' => ?_⟩, rfl, rfl, hlistingSet⟩
      rw [hlistingSet.mem_iff]
      exact hf.byOrder j r'
    | some j =>
      simp only [hno, Option.pure_def, Option.some.injEq, Prod.mk.injEq] at h
      obtain ⟨rfl, rfl, rfl⟩ := h
      obtain rfl : j = p.next := OrderPool.eq_next_of_mem_resize hno
      simp only [hno, Option.toList_some, List.map_cons, List.map_nil, List.singleton_append]
        at hlistingSet
      refine ⟨rfl, rfl, ⟨⟨hok.queues, hok.invert, hok.rates, hok.sorted, hok.pos, hok.byRate,
        hok.nodup⟩, fun j r' => ?_⟩, rfl, rfl, hlistingSet⟩
      have hunknown : f.queuesByOrder.lookup p.next = none := by
        cases hlookup : f.queuesByOrder.lookup p.next with
        | none => rfl
        | some r₁ =>
          exact absurd (List.mem_map_of_mem (f := Prod.snd) ((hf.byOrder _ _).mp hlookup)) hfresh
      change (Table.emplace p.next r f.queuesByOrder).lookup j = some r' ↔
        (r', j) ∈ (f.setQueue q₂).listing
      rw [Table.lookup_emplace, hlistingSet.mem_iff, List.mem_cons, ← hf.byOrder, hunknown]
      by_cases hj : j = p.next
      · subst hj
        simp [hunknown, eq_comm]
      · simp [hj]

end Front

end AcCore.Tex.Cex
