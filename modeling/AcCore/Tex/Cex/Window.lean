import AcCore.Tex.Cex.Markets
import AcCore.Tex.Cex.Ruler
import AcCore.Tex.Cex.Spots
import Mathlib.Data.Finset.Sort
import Mathlib.Data.Int.ConditionallyCompleteOrder
import Mathlib.Order.ConditionallyCompleteLattice.Basic

/-!
# The window of a market

A market shows its rates around a center: two positions in their list are moved
apart by half of a width each, and put at an end of the list when they have left it.
What rests in the fronts is then written to the entries of the rates that are found.
Neither the length of the list nor the end of the search is looked at.
-/

namespace AcCore.Tex.Cex

open Lib

/-- `waiting_queue::info`. -/
structure WaitingQueue.Info where
  size : ℕ
  value : ℤ
  deriving DecidableEq, Repr

/-- `waiting_queue::get_info`. -/
def WaitingQueue.getInfo (q : WaitingQueue) : WaitingQueue.Info := ⟨q.orders.length, q.value⟩

/-- `waiting_queues::info`. -/
structure WaitingQueues.Info where
  high : WaitingQueue.Info
  low : WaitingQueue.Info
  deriving DecidableEq, Repr

/-- `waiting_queues::get_info`. -/
def WaitingQueues.getInfo (q : WaitingQueues) : WaitingQueues.Info :=
  ⟨q.high.getInfo, q.low.getInfo⟩

/-- `front::info`: the queues of a front, by their rates. -/
structure Front.Info where
  cur : Cur
  queues : Table ℤ WaitingQueues.Info

/-- `front::get_info`; `none` when the table leads to a queue that is not in the heap. -/
def Front.getInfo (f : Front) : Option Front.Info :=
  (f.queuesByRate.sort.mapM f.queue).map fun qs =>
    ⟨f.curid, qs.foldl (fun t q => Table.emplace q.getRate q.getInfo t) ∅⟩

/-- The entries of a `market::info`: the queues of a rate, and whether it is marked. -/
abbrev Entries := Table ℤ (WaitingQueues.Info × Bool)

/-- `market::info`. -/
structure Market.Info where
  entries : Entries
  weak : Front.Info
  strong : Front.Info

namespace Market.Info

/-- The two iterators of the constructor, as positions in the list, after the tests. -/
def bounds (orderedRuler : List ℤ) (center width : ℤ) : ℤ × ℤ :=
  let i : ℤ := lowerBound orderedRuler center - width.tdiv 2
  let j : ℤ := lowerBound orderedRuler center + width.tdiv 2
  if i < 0 then (0, width)
  else if j - orderedRuler.length ≥ 0 then (orderedRuler.length - width, orderedRuler.length)
  else (i, j)

/-- The rates that the loop between two iterators meets; `none` when it leaves the list. -/
def between (orderedRuler : List ℤ) (i j : ℤ) : Option (List ℤ) :=
  if 0 ≤ i ∧ i ≤ j ∧ j ≤ orderedRuler.length then
    some ((orderedRuler.drop i.toNat).take (j - i).toNat)
  else none

/-- One entry for each rate, without queues. -/
def emptyEntries (rates : List ℤ) : Entries :=
  rates.foldl (fun t r => Table.emplace r (⟨⟨0, 0⟩, ⟨0, 0⟩⟩, false) t) ∅

/-- Writes queues to the entries of their rates; `none` when they are written through
`end()`. -/
def writeQueues : Entries → List (ℤ × WaitingQueues.Info) → Option Entries
  | t, [] => some t
  | t, (r, q) :: qs => if r ∈ t then writeQueues (t.insert r (q, false)) qs else none

/-- Marks the entry of a rate. -/
def mark (t : Entries) (r : ℤ) : Entries := (t.lookup r).elim t fun e => t.insert r (e.1, true)

/-- Marks the first entry and the last one; `none` when there is none. -/
def markEnds (t : Entries) : Option Entries := do
  let first ← (Table.keyList t).head?
  let last ← (Table.keyList t).getLast?
  return mark (mark t first) last

/-- The constructor. -/
def make (orderedRuler : List ℤ) (w s : Front.Info) (center width : ℤ) : Option Market.Info := do
  let (i, j) := bounds orderedRuler center width
  let rates ← between orderedRuler i j
  let entries ← writeQueues (emptyEntries rates) w.queues.toList
  let entries ← writeQueues entries s.queues.toList
  let entries ← markEnds entries
  return ⟨entries, w, s⟩

end Market.Info

/-- `market::get_info`, once the ruler is set. -/
def Market.getInfo (m : Market) (fuel : ℕ) (center width : ℤ) : Option Market.Info := do
  let rates ← m.rulerDef.generateRates fuel
  let w ← m.weakFront.getInfo
  let s ← m.strongFront.getInfo
  Market.Info.make rates.sort w s center width

namespace Market.Info

variable {rates : List ℤ} {w s : Front.Info} {center width r : ℤ} {t t' : Entries}

/-- The rates around the center are shown, with all that rests in the fronts. -/
structure Shows (rates : List ℤ) (w s : Front.Info) (center width : ℤ) : Prop where
  inside : 0 ≤ (bounds rates center width).1 ∧ (bounds rates center width).2 ≤ rates.length
  count : (bounds rates center width).2 - (bounds rates center width).1 = min width rates.length
  around : (bounds rates center width).1 ≤ lowerBound rates center ∧
    lowerBound rates center ≤ (bounds rates center width).2
  hits : ∃ selected info,
    between rates (bounds rates center width).1 (bounds rates center width).2 = some selected ∧
      make rates w s center width = some info ∧ (∀ r, r ∈ info.entries ↔ r ∈ selected) ∧
        ∀ r, r ∈ w.queues ∨ r ∈ s.queues → r ∈ selected

/-- Half of the width in front of the center or, at the ends of the list, where as many
rates are left as the width says. -/
def first (rates : List ℤ) (center width : ℤ) : ℕ :=
  min (lowerBound rates center - width.toNat / 2) (rates.length - width.toNat)

/-- As many rates from there as the width says. -/
def window (rates : List ℤ) (center width : ℤ) : List ℤ :=
  (rates.drop (first rates center width)).take width.toNat

/-- The list is as long as the width, which is even where the window touches no end of
the list, and what rests in the fronts is in the window. -/
structure Fits (rates : List ℤ) (w s : Front.Info) (center width : ℤ) : Prop where
  width_le : width ≤ rates.length
  even : 2 ∣ width ∨ lowerBound rates center < width / 2 ∨
    rates.length ≤ lowerBound rates center + width / 2
  shown : ∀ r, r ∈ w.queues ∨ r ∈ s.queues → r ∈ window rates center width

/-! ## The positions -/

/-- The lower bound is an index of the rates, or their end. -/
theorem lowerBound_le_length : lowerBound rates center ≤ rates.length := List.findIdx_le_length

/-- The positions are in the list, as far apart as they should be, exactly when the list
is long enough and half of the width is not rounded. -/
theorem bounds_iff (hwidth : 2 ≤ width) :
    ((0 ≤ (bounds rates center width).1 ∧ (bounds rates center width).2 ≤ rates.length) ∧
      (bounds rates center width).2 - (bounds rates center width).1 = min width rates.length) ↔
    width ≤ rates.length ∧ (2 ∣ width ∨ lowerBound rates center < width / 2 ∨
      rates.length ≤ lowerBound rates center + width / 2) := by
  unfold bounds
  rw [Int.tdiv_eq_ediv_of_nonneg (by omega)]
  dsimp only
  split_ifs with hfront hback
  · dsimp only
    omega
  · dsimp only
    omega
  · dsimp only
    omega

/-- Then they are where the window is. -/
theorem bounds_eq (hwidth : 2 ≤ width) (hle : width ≤ rates.length)
    (heven : 2 ∣ width ∨ lowerBound rates center < width / 2 ∨
      rates.length ≤ lowerBound rates center + width / 2) :
    bounds rates center width =
      ((first rates center width : ℤ), (first rates center width : ℤ) + width) := by
  have hplace : lowerBound rates center ≤ rates.length := lowerBound_le_length
  unfold bounds first
  rw [Int.tdiv_eq_ediv_of_nonneg (by omega)]
  dsimp only
  split_ifs with hfront hback
  · rw [Prod.mk.injEq]
    omega
  · rw [Prod.mk.injEq]
    omega
  · rw [Prod.mk.injEq]
    omega

/-- The window is a range of the rates. -/
theorem between_window (hwidth : 2 ≤ width) (hle : width ≤ rates.length) :
    between rates (first rates center width) ((first rates center width : ℤ) + width) =
      some (window rates center width) := by
  have hfirst : (first rates center width : ℤ) + width ≤ rates.length := by
    unfold first
    omega
  rw [between, if_pos ⟨by omega, by omega, hfirst⟩, window, Int.toNat_natCast, add_sub_cancel_left]

/-- The window has rates. -/
theorem window_ne_nil (hwidth : 2 ≤ width) (hle : width ≤ rates.length) :
    window rates center width ≠ [] := by
  apply List.ne_nil_of_length_pos
  rw [window, List.length_take, List.length_drop, first]
  omega

/-! ## The entries -/

/-- The empty entries are those of the rates. -/
theorem mem_emptyEntries : r ∈ emptyEntries rates ↔ r ∈ rates := by
  rw [emptyEntries, Table.mem_foldl_emplace (fun r => r), List.map_id']
  simp [Finmap.notMem_empty]

/-- Writing the queues adds no rate. -/
theorem mem_of_writeQueues {qs : List (ℤ × WaitingQueues.Info)} (h : writeQueues t qs = some t') :
    r ∈ t' ↔ r ∈ t := by
  induction qs generalizing t with
  | nil => rw [Option.some.inj h]
  | cons e qs ih =>
    unfold writeQueues at h
    split_ifs at h with hfound
    rw [ih h, Finmap.mem_insert]
    constructor
    · rintro (rfl | hmem)
      · exact hfound
      · exact hmem
    · exact Or.inr

/-- Queues can be written when all their rates are found. -/
theorem exists_writeQueues {qs : List (ℤ × WaitingQueues.Info)} (h : ∀ e ∈ qs, e.1 ∈ t) :
    ∃ t', writeQueues t qs = some t' := by
  induction qs generalizing t with
  | nil => exact ⟨t, rfl⟩
  | cons e qs ih =>
    rw [writeQueues, if_pos (h e List.mem_cons_self)]
    refine ih fun e' he' => ?_
    rw [Finmap.mem_insert]
    exact Or.inr (h e' (List.mem_cons_of_mem _ he'))

/-- Marking adds no rate. -/
theorem mem_mark {r' : ℤ} : r' ∈ mark t r ↔ r' ∈ t := by
  unfold mark
  cases hlookup : t.lookup r with
  | none => rfl
  | some e =>
    rw [Option.elim_some, Finmap.mem_insert]
    constructor
    · rintro (rfl | hmem)
      · exact Finmap.mem_of_lookup_eq_some hlookup
      · exact hmem
    · exact Or.inr

/-- The ends can be marked when there is a rate, and no rate is added. -/
theorem exists_markEnds (h : r ∈ t) : ∃ t', markEnds t = some t' ∧ ∀ r', r' ∈ t' ↔ r' ∈ t := by
  have hne : Table.keyList t ≠ [] := List.ne_nil_of_mem (Table.mem_keyList.mpr h)
  obtain ⟨a, ha⟩ := Option.ne_none_iff_exists'.mp (mt List.head?_eq_none_iff.mp hne)
  obtain ⟨b, hb⟩ := Option.ne_none_iff_exists'.mp (mt List.getLast?_eq_none_iff.mp hne)
  refine ⟨mark (mark t a) b, ?_, fun r' => ?_⟩
  · simp [markEnds, ha, hb]
  · rw [mem_mark, mem_mark]

/-- The rates of a table's entries are its keys. -/
theorem mem_of_mem_toList {q : Table ℤ WaitingQueues.Info} {e : ℤ × WaitingQueues.Info}
    (he : e ∈ q.toList) : e.1 ∈ q := Finmap.mem_of_lookup_eq_some (Table.mem_toList.mp he)

/-- The constructor comes to its end when the rates of both fronts are among those that
are selected. -/
theorem exists_make {selected : List ℤ}
    (hselected : between rates (bounds rates center width).1 (bounds rates center width).2 =
      some selected) (hne : selected ≠ [])
    (hshown : ∀ r, r ∈ w.queues ∨ r ∈ s.queues → r ∈ selected) :
    ∃ info, make rates w s center width = some info ∧ ∀ r, r ∈ info.entries ↔ r ∈ selected := by
  obtain ⟨weak, hweak⟩ : ∃ t, writeQueues (emptyEntries selected) w.queues.toList = some t :=
    exists_writeQueues fun e he =>
      mem_emptyEntries.mpr (hshown _ (Or.inl (mem_of_mem_toList he)))
  have hweakmem : ∀ r, r ∈ weak ↔ r ∈ selected := fun r => by
    rw [mem_of_writeQueues hweak, mem_emptyEntries]
  obtain ⟨both, hboth⟩ : ∃ t, writeQueues weak s.queues.toList = some t :=
    exists_writeQueues fun e he => (hweakmem _).mpr (hshown _ (Or.inr (mem_of_mem_toList he)))
  have hbothmem : ∀ r, r ∈ both ↔ r ∈ selected := fun r => by
    rw [mem_of_writeQueues hboth, hweakmem]
  obtain ⟨r₀, hr₀⟩ := List.exists_mem_of_ne_nil selected hne
  obtain ⟨marked, hmarked, hmem⟩ := exists_markEnds ((hbothmem r₀).mpr hr₀)
  refine ⟨⟨marked, w, s⟩, ?_, fun r => (hmem r).trans (hbothmem r)⟩
  simp only [make, hselected, hweak, hboth, hmarked, Option.bind_eq_bind, Option.bind_some,
    Option.pure_def]

/-- A report that shows the window fits in it. -/
theorem Shows.fits (hwidth : 2 ≤ width) (h : Shows rates w s center width) :
    Fits rates w s center width := by
  obtain ⟨selected, info, hselected, -, -, hshown⟩ := h.hits
  obtain ⟨hle, heven⟩ := (bounds_iff hwidth).mp ⟨h.inside, h.count⟩
  rw [bounds_eq hwidth hle heven] at hselected
  rw [between_window hwidth hle] at hselected
  obtain rfl := Option.some.inj hselected
  exact ⟨hle, heven, hshown⟩

/-- A report that fits in the window shows it. -/
theorem Fits.shows (hwidth : 2 ≤ width) (h : Fits rates w s center width) :
    Shows rates w s center width := by
  obtain ⟨hinside, hcount⟩ := (bounds_iff hwidth).mpr ⟨h.width_le, h.even⟩
  have hbounds := bounds_eq hwidth h.width_le h.even
  have hselected : between rates (bounds rates center width).1 (bounds rates center width).2 =
      some (window rates center width) := by
    rw [hbounds]
    exact between_window hwidth h.width_le
  obtain ⟨info, hmake, hentries⟩ :=
    exists_make hselected (window_ne_nil hwidth h.width_le) h.shown
  refine ⟨hinside, hcount, ?_, _, info, hselected, hmake, hentries, h.shown⟩
  have hplace : lowerBound rates center ≤ rates.length := lowerBound_le_length
  have hle := h.width_le
  rw [hbounds, first]
  dsimp only
  omega

/-- **The window of a market.** The rates around the center are shown, and nothing is
written beyond them, exactly when the list is as long as the width, the width is even
unless the window is at an end of the list, and what rests is in the window. -/
theorem shows_iff (hwidth : 2 ≤ width) :
    Shows rates w s center width ↔ Fits rates w s center width :=
  ⟨fun h => h.fits hwidth, fun h => h.shows hwidth⟩

/-! ## Four rates -/

/-- An order at the last of the rates 5, 10, 15 and 20. -/
def farOrder : Front.Info := ⟨eur, Finmap.singleton 20 ⟨⟨1, 100⟩, ⟨0, 0⟩⟩⟩

/-- A front without orders. -/
def noOrders : Front.Info := ⟨gbp, ∅⟩

/-- The only order of the sample book is at rate 20. -/
theorem mem_farOrder : r ∈ farOrder.queues ∨ r ∈ noOrders.queues ↔ r = 20 := by
  rw [farOrder, noOrders, Finmap.mem_singleton]
  simp [Finmap.notMem_empty]

/-- Around the last rate the order is shown. -/
theorem shows_iff_farOrder : Shows [5, 10, 15, 20] farOrder noOrders 20 2 :=
  (shows_iff (by decide)).mpr ⟨by decide, by decide, fun r hr => by
    rw [mem_farOrder.mp hr]
    decide⟩

/-- Around the first rate the order is out of the window, and is written through the end. -/
theorem farOrder_not_shows :
    ¬ ∀ (rates : List ℤ) (w s : Front.Info) (center width : ℤ), rates.Pairwise (· < ·) →
      (∀ r, r ∈ w.queues ∨ r ∈ s.queues → r ∈ rates) → 2 ≤ width →
        Shows rates w s center width := by
  intro hclaim
  have hshows := hclaim [5, 10, 15, 20] farOrder noOrders 5 2 (by decide)
    (fun r hr => by
      rw [mem_farOrder.mp hr]
      decide) (by decide)
  have hwindow := (hshows.fits (by decide)).shown 20 (mem_farOrder.mpr rfl)
  revert hwindow
  decide

end Market.Info

/-! ## The market -/

/-- What a consistent front tells of itself has the rates of its queues. -/
theorem Front.QueuesOk.getInfo {p : OrderPool} {f : Front} (hf : f.QueuesOk p) :
    ∃ info, f.getInfo = some info ∧ ∀ r, r ∈ info.queues ↔ r ∈ f.queuesByRate := by
  have hmem : ∀ r ∈ f.queuesByRate.sort, r ∈ f.queues.map WaitingQueues.getRate := fun r hr =>
    (hf.byRate r).mp ((Finset.mem_sort _).mp hr)
  obtain ⟨qs, hqs, hkeys⟩ := Keyed.exists_mapM_get hmem
  refine ⟨⟨f.curid, _⟩, congrArg _ hqs, fun r => ?_⟩
  rw [Table.mem_foldl_emplace, hkeys, Finset.mem_sort]
  simp [Finmap.notMem_empty]

/-- A consistent market is shown when the window fits. -/
theorem Market.Ok.exists_getInfo {p : OrderPool} {m : Market} (hm : m.Ok p) {fuel : ℕ}
    {center width : ℤ} {rates : Finset ℤ} (hrates : m.rulerDef.generateRates fuel = some rates)
    (hwidth : 2 ≤ width)
    (hfits : ∀ w s, m.weakFront.getInfo = some w → m.strongFront.getInfo = some s →
      Market.Info.Fits rates.sort w s center width) :
    ∃ info, m.getInfo fuel center width = some info := by
  obtain ⟨w, hw, -⟩ := (hm.front true).toQueuesOk.getInfo
  obtain ⟨s, hs, -⟩ := (hm.front false).toQueuesOk.getInfo
  obtain ⟨-, info, -, hmake, -⟩ := ((hfits w s hw hs).shows hwidth).hits
  refine ⟨info, ?_⟩
  rw [Market.getInfo, hrates]
  rw [Market.front, if_pos rfl] at hw
  rw [Market.front, if_neg Bool.false_ne_true] at hs
  simp only [hw, hs, Option.bind_eq_bind, Option.bind_some, hmake]

end AcCore.Tex.Cex
