import AcCore.Gov.Engine.Growth
import AcCore.Lib.Fair
import Mathlib.Data.Finset.Card
import Mathlib.Data.Fintype.Card
import Mathlib.Tactic.NormNum

/-!
# Whether the draws come to an end

An index that has been drawn is not used again, and one beyond the entries that are
left is not used at all. The entries become fewer with every move, and the indices
below their number become used, so whether the draws end is a matter of counting.
-/

namespace AcCore.Gov.Engine.Auth

open Lib

/-! ## One draw after the other -/

/-- `add_growth_transactions` between two draws: what has been moved, the indices that
have been used, and the entries that are left. -/
structure Drawing (α : Type) where
  picks : List α
  uniq : List UInt32
  listing : List α

/-- One draw, when `s` entries are to be moved. -/
def drawStep {α : Type} (s : ℕ) (t : Drawing α) (r : ℕ) : Drawing α :=
  if t.picks.length = s then t
  else if UInt32.ofNat r ∈ t.uniq then t
  else
    match t.listing[r]? with
    | none => { t with uniq := UInt32.ofNat r :: t.uniq }
    | some x => ⟨t.picks ++ [x], UInt32.ofNat r :: t.uniq, t.listing.eraseIdx r⟩

/-- The bound of the distribution, `size()-1`. -/
def maxr (size : ℕ) : ℕ := if size = 0 then 2 ^ 64 - 1 else size - 1

section Draw

variable {α : Type} {s n : ℕ}

/-- What a draw does. -/
theorem drawStep_cases (s : ℕ) (t : Drawing α) (r : ℕ) :
    ((t.picks.length = s ∨ UInt32.ofNat r ∈ t.uniq) ∧ drawStep s t r = t) ∨
    (t.picks.length ≠ s ∧ UInt32.ofNat r ∉ t.uniq ∧ t.listing.length ≤ r ∧
      drawStep s t r = { t with uniq := UInt32.ofNat r :: t.uniq }) ∨
    (t.picks.length ≠ s ∧ UInt32.ofNat r ∉ t.uniq ∧ ∃ x, t.listing[r]? = some x ∧
      drawStep s t r = ⟨t.picks ++ [x], UInt32.ofNat r :: t.uniq, t.listing.eraseIdx r⟩) := by
  unfold drawStep
  split_ifs with hdone hused
  · exact Or.inl ⟨Or.inl hdone, rfl⟩
  · exact Or.inl ⟨Or.inr hused, rfl⟩
  · cases hx : t.listing[r]? with
    | none => exact Or.inr (Or.inl ⟨hdone, hused, List.getElem?_eq_none_iff.mp hx, rfl⟩)
    | some x => exact Or.inr (Or.inr ⟨hdone, hused, x, rfl, rfl⟩)

/-- The two loops of the source take a draw as `drawStep` does. -/
theorem drawPicks_succ_cons (s : ℕ) (uniq : List UInt32) (listing : List α) (r : ℕ)
    (draws : List ℕ) :
    drawPicks (s + 1) uniq listing (r :: draws) =
      if UInt32.ofNat r ∈ uniq then drawPicks (s + 1) uniq listing draws
      else
        match listing[r]? with
        | none => drawPicks (s + 1) (UInt32.ofNat r :: uniq) listing draws
        | some x =>
          (drawPicks s (UInt32.ofNat r :: uniq) (listing.eraseIdx r) draws).map (x :: ·) := by
  rw [drawPicks, drawIndex]
  split_ifs with hused hsize
  · rfl
  · rw [List.getElem?_eq_none hsize]
    rfl
  · obtain ⟨x, hx⟩ : ∃ x, listing[r]? = some x :=
      ⟨_, List.getElem?_eq_getElem (not_le.mp hsize)⟩
    rw [hx]
    dsimp only [Option.bind_some]
    rw [hx]
    rfl

/-- What has been moved stays moved. -/
theorem picks_prefix_foldl (s : ℕ) (t : Drawing α) (draws : List ℕ) :
    t.picks <+: (draws.foldl (drawStep s) t).picks := by
  induction draws generalizing t with
  | nil => exact List.prefix_refl _
  | cons r draws ih =>
    refine List.IsPrefix.trans ?_ (ih (drawStep s t r))
    obtain ⟨-, hstep⟩ | ⟨-, -, -, hstep⟩ | ⟨-, -, x, -, hstep⟩ := drawStep_cases s t r
    · rw [hstep]
    · rw [hstep]
    · rw [hstep]
      exact List.prefix_append _ _

/-- What the loops of the source return, as a run of single draws. -/
theorem drawPicks_eq_some_iff {k : ℕ} {t : Drawing α} {draws : List ℕ} {picks : List α}
    (hk : t.picks.length + k = s) :
    drawPicks k t.uniq t.listing draws = some picks ↔
      (draws.foldl (drawStep s) t).picks = t.picks ++ picks ∧
        (draws.foldl (drawStep s) t).picks.length = s := by
  induction draws generalizing k t picks with
  | nil =>
    cases k with
    | zero =>
      have hs : t.picks.length = s := hk
      simp [drawPicks, hs, eq_comm]
    | succ k =>
      simp only [drawPicks, drawIndex, Option.bind_none, List.foldl_nil, reduceCtorEq, false_iff]
      omega
  | cons r draws ih =>
    rw [List.foldl_cons]
    obtain ⟨hidle, hstep⟩ | ⟨hdone, hused, hsize, hstep⟩ | ⟨hdone, hused, x, hx, hstep⟩ :=
      drawStep_cases s t r
    · rw [hstep, ← ih hk]
      cases k with
      | zero => rfl
      | succ k => rw [drawPicks_succ_cons, if_pos (hidle.resolve_left (by omega))]
    · obtain ⟨k, rfl⟩ : ∃ j, k = j + 1 := ⟨k - 1, by omega⟩
      rw [hstep, drawPicks_succ_cons, if_neg hused, List.getElem?_eq_none hsize]
      exact ih (t := { t with uniq := UInt32.ofNat r :: t.uniq }) hk
    · obtain ⟨k, rfl⟩ : ∃ j, k = j + 1 := ⟨k - 1, by omega⟩
      rw [hstep, drawPicks_succ_cons, if_neg hused, hx, Option.map_eq_some_iff]
      have hlength : (t.picks ++ [x]).length + k = s := by
        rw [List.length_append, List.length_singleton]
        omega
      set u : Drawing α := ⟨t.picks ++ [x], UInt32.ofNat r :: t.uniq, t.listing.eraseIdx r⟩
      have hrest : ∀ ps, drawPicks k u.uniq u.listing draws = some ps ↔
          (draws.foldl (drawStep s) u).picks = t.picks ++ [x] ++ ps ∧
            (draws.foldl (drawStep s) u).picks.length = s := fun ps => ih (t := u) hlength
      constructor
      · rintro ⟨ps, hps, rfl⟩
        obtain ⟨hpicks, hs⟩ := (hrest ps).mp hps
        exact ⟨by rw [hpicks, List.append_assoc]; rfl, hs⟩
      · rintro ⟨hpicks, hs⟩
        obtain ⟨ps, hps⟩ := picks_prefix_foldl s u draws
        refine ⟨ps, (hrest ps).mpr ⟨hps.symm, hs⟩, ?_⟩
        rw [← hps, List.append_assoc] at hpicks
        exact List.append_cancel_left hpicks

/-! ## Counting -/

/-- What the draws have led to: as many entries are left as have not been moved, and
an index that has been used has been drawn for a move, or is not below the number of
entries that are left. -/
structure Drawn (n s : ℕ) (t : Drawing α) : Prop where
  length : t.picks.length + t.listing.length = n
  le : t.picks.length ≤ s
  used : ∃ drawn : List ℕ, drawn.length = t.picks.length ∧
    ∀ u ∈ t.uniq, ∃ r, UInt32.ofNat r = u ∧ (r ∈ drawn ∨ t.listing.length ≤ r ∧ r < n)

/-- At the start nothing has been drawn. -/
theorem drawn_start (s : ℕ) (listing : List α) : Drawn listing.length s ⟨[], [], listing⟩ :=
  ⟨Nat.zero_add _, Nat.zero_le _, [], rfl, by simp⟩

/-- One draw keeps what is known about the draws. -/
theorem Drawn.step {t : Drawing α} (ht : Drawn n s t) {r : ℕ} (hr : r < n) :
    Drawn n s (drawStep s t r) := by
  obtain ⟨hlength, hle, drawn, hdrawn, hused⟩ := ht
  obtain ⟨-, hstep⟩ | ⟨-, -, hsize, hstep⟩ | ⟨hdone, -, x, hx, hstep⟩ := drawStep_cases s t r
  · rw [hstep]
    exact ⟨hlength, hle, drawn, hdrawn, hused⟩
  · rw [hstep]
    refine ⟨hlength, hle, drawn, hdrawn, ?_⟩
    intro u hu
    rcases List.mem_cons.mp hu with rfl | hu
    · exact ⟨r, rfl, Or.inr ⟨hsize, hr⟩⟩
    · exact hused u hu
  · obtain ⟨hlt, -⟩ := List.getElem?_eq_some_iff.mp hx
    rw [hstep]
    have herase := List.length_eraseIdx_of_lt hlt
    refine ⟨?_, ?_, r :: drawn, ?_, ?_⟩
    · rw [List.length_append, List.length_singleton, herase]
      omega
    · rw [List.length_append, List.length_singleton]
      omega
    · rw [List.length_cons, List.length_append, List.length_singleton, hdrawn]
    · intro u hu
      rcases List.mem_cons.mp hu with rfl | hu
      · exact ⟨r, rfl, Or.inl List.mem_cons_self⟩
      · obtain ⟨q, rfl, hq | ⟨hqle, hqlt⟩⟩ := hused u hu
        · exact ⟨q, rfl, Or.inl (List.mem_cons_of_mem r hq)⟩
        · exact ⟨q, rfl, Or.inr ⟨by rw [herase]; omega, hqlt⟩⟩

/-- Numbers agree as `uint32_t` exactly when they agree modulo `2 ^ 32`. -/
theorem ofNat_eq_iff (a b : ℕ) : UInt32.ofNat a = UInt32.ofNat b ↔ a % 2 ^ 32 = b % 2 ^ 32 := by
  rw [← UInt32.toNat_inj, UInt32.toNat_ofNat', UInt32.toNat_ofNat']

/-- When at most half of the entries are to be moved, some index is unused and below
the number of entries that are left. The indices are used modulo `2 ^ 32`, so that
those from `2 ^ 32` on have to be counted, too. -/
theorem Drawn.exists_unused {t : Drawing α} (ht : Drawn n s t) (hlt : t.picks.length < s)
    (hhalf : 2 * s ≤ n + 1) (hs : s < 2 ^ 31) :
    ∃ r < t.listing.length, UInt32.ofNat r ∉ t.uniq := by
  obtain ⟨hlength, -, drawn, hdrawn, hused⟩ := ht
  by_contra hall
  push Not at hall
  have hsubset : Finset.range (min t.listing.length (2 ^ 32)) ⊆
      (drawn.toFinset ∪ Finset.Ico (max t.listing.length (2 ^ 32)) n).image (· % 2 ^ 32) := by
    intro r hr
    obtain ⟨hsize, hword⟩ := lt_min_iff.mp (Finset.mem_range.mp hr)
    obtain ⟨q, hq, hcase⟩ := hused _ (hall r hsize)
    rw [ofNat_eq_iff, Nat.mod_eq_of_lt hword] at hq
    refine Finset.mem_image.mpr ⟨q, Finset.mem_union.mpr ?_, hq⟩
    rcases hcase with hmem | ⟨hle, hqn⟩
    · exact Or.inl (List.mem_toFinset.mpr hmem)
    · refine Or.inr (Finset.mem_Ico.mpr ⟨max_le hle ?_, hqn⟩)
      by_contra hsmall
      rw [Nat.mod_eq_of_lt (not_le.mp hsmall)] at hq
      omega
  have hcount : min t.listing.length (2 ^ 32) ≤
      drawn.length + (n - max t.listing.length (2 ^ 32)) := by
    calc min t.listing.length (2 ^ 32)
        = (Finset.range (min t.listing.length (2 ^ 32))).card := (Finset.card_range _).symm
      _ ≤ (drawn.toFinset ∪ Finset.Ico (max t.listing.length (2 ^ 32)) n).card :=
          (Finset.card_le_card hsubset).trans Finset.card_image_le
      _ ≤ drawn.toFinset.card + (Finset.Ico (max t.listing.length (2 ^ 32)) n).card :=
          Finset.card_union_le _ _
      _ ≤ drawn.length + (n - max t.listing.length (2 ^ 32)) := by
          rw [Nat.card_Ico]
          exact Nat.add_le_add_right (List.toFinset_card_le _) _
  omega

/-- The indices that have not been used. -/
def unused (n : ℕ) (t : Drawing α) : Finset ℕ :=
  (Finset.range n).filter fun r => UInt32.ofNat r ∉ t.uniq

/-- A draw does nothing, or it uses an index. -/
theorem drawStep_eq_or_lt (t : Drawing α) {r : ℕ} (hr : r < n) :
    drawStep s t r = t ∨ (unused n (drawStep s t r)).card < (unused n t).card := by
  have hless : ∀ u : Drawing α, UInt32.ofNat r ∉ t.uniq → u.uniq = UInt32.ofNat r :: t.uniq →
      (unused n u).card < (unused n t).card := by
    intro u hnot hu
    refine Finset.card_lt_card (Finset.ssubset_iff_of_subset ?_ |>.mpr ⟨r, ?_, ?_⟩)
    · intro q hq
      simp only [unused, Finset.mem_filter, hu, List.mem_cons, not_or] at hq ⊢
      exact ⟨hq.1, hq.2.2⟩
    · simp only [unused, Finset.mem_filter, Finset.mem_range]
      exact ⟨hr, hnot⟩
    · simp [unused, hu]
  obtain ⟨-, hstep⟩ | ⟨-, hnot, -, hstep⟩ | ⟨-, hnot, x, -, hstep⟩ := drawStep_cases s t r
  · exact Or.inl hstep
  · exact Or.inr (hless _ hnot (by rw [hstep]))
  · exact Or.inr (hless _ hnot (by rw [hstep]))

/-- An index that is unused and below the number of entries that are left is taken. -/
theorem drawStep_ne {t : Drawing α} {r : ℕ} (hdone : t.picks.length ≠ s)
    (hr : r < t.listing.length) (hnot : UInt32.ofNat r ∉ t.uniq) : drawStep s t r ≠ t := by
  intro hsame
  obtain ⟨hidle | hused, -⟩ | ⟨-, -, hsize, -⟩ | ⟨-, -, x, -, hstep⟩ := drawStep_cases s t r
  · exact hdone hidle
  · exact hnot hused
  · omega
  · rw [hstep] at hsame
    have hlength := congrArg (fun u : Drawing α => u.picks.length) hsame
    simp at hlength

/-! ## The end of the draws -/

/-- The draws up to `maxr` are those below the number of entries. -/
theorem le_maxr_iff (hn : 0 < n) (r : ℕ) : r ≤ maxr n ↔ r < n := by
  rw [maxr, if_neg hn.ne']
  omega

/-- The remainder of a draw up to `maxr` is fair. -/
theorem fair_mod_maxr (hn : 0 < n) : Fair {r | r ≤ maxr n} (· % n) := by
  simp only [le_maxr_iff hn]
  exact fair_mod hn

/-- The state after the first indices of a stream. -/
def drawing (s : ℕ) (listing : List α) (f : ℕ → ℕ) (m : ℕ) : Drawing α :=
  after (drawStep s) ⟨[], [], listing⟩ f m

/-- The loops of the source end when the last entry has been moved. -/
theorem drawPicks_firsts {listing : List α} {f : ℕ → ℕ} {m : ℕ} {picks : List α} :
    drawPicks s [] listing (firsts f m) = some picks ↔
      (drawing s listing f m).picks = picks ∧ (drawing s listing f m).picks.length = s :=
  drawPicks_eq_some_iff (t := ⟨[], [], listing⟩) (Nat.zero_add s)

/-- What any number of draws have led to. -/
theorem drawn_drawing {listing : List α} (hn : 0 < listing.length) {f : ℕ → ℕ}
    (hf : Fair {r | r ≤ maxr listing.length} f) (m : ℕ) :
    Drawn listing.length s (drawing s listing f m) :=
  after_invariant (fun _ r ht hr => ht.step ((le_maxr_iff hn r).mp hr)) hf.mem
    (drawn_start s listing) m

/-- In no iteration are all indices used. -/
theorem exists_unused_drawing {listing : List α} (hhalf : 2 * s ≤ listing.length + 1)
    (hs : s < 2 ^ 31) {f : ℕ → ℕ} (hf : Fair {r | r ≤ maxr listing.length} f) {m : ℕ}
    (hlt : (drawing s listing f m).picks.length < s) :
    ∃ r < (drawing s listing f m).listing.length,
      UInt32.ofNat r ∉ (drawing s listing f m).uniq :=
  (drawn_drawing (by omega) hf m).exists_unused hlt hhalf hs

/-- When at most half of the entries are to be moved, the draws end. -/
theorem exists_drawPicks {listing : List α} (hhalf : 2 * s ≤ listing.length + 1)
    (hs : s < 2 ^ 31) {f : ℕ → ℕ} (hf : Fair {r | r ≤ maxr listing.length} f) :
    ∃ m picks, drawPicks s [] listing (firsts f m) = some picks := by
  obtain rfl | hpos := Nat.eq_zero_or_pos s
  · exact ⟨0, [], rfl⟩
  have hn : 0 < listing.length := by omega
  have hdown : ∀ (t : Drawing α) r, Drawn listing.length s t → r ≤ maxr listing.length →
      drawStep s t r = t ∨
        (unused listing.length (drawStep s t r)).card < (unused listing.length t).card :=
    fun t r _ hr => drawStep_eq_or_lt t ((le_maxr_iff hn r).mp hr)
  obtain ⟨m, hdone⟩ : ∃ m, (drawing s listing f m).picks.length = s := by
    refine Fair.exists_done (fun t => (unused listing.length t).card)
      (fun t : Drawing α => t.picks.length = s) hf
      (fun _ r ht hr => ht.step ((le_maxr_iff hn r).mp hr)) hdown ?_ (drawn_start s listing)
    intro t ht hdone
    obtain ⟨r, hr, hnot⟩ := ht.exists_unused (lt_of_le_of_ne ht.le hdone) hhalf hs
    have hrn : r ≤ maxr listing.length := by
      have := ht.length
      exact (le_maxr_iff hn r).mpr (by omega)
    exact ⟨r, hrn, (hdown t r ht hrn).resolve_left (drawStep_ne hdone hr hnot)⟩
  exact ⟨m, _, drawPicks_firsts.mpr ⟨rfl, hdone⟩⟩

/-! ## Draws that do not end -/

/-- When all indices below the number of entries that are left have been used, nothing
is moved any more. -/
theorem picks_after_stuck {t : Drawing α} (hstuck : ∀ r < t.listing.length, UInt32.ofNat r ∈ t.uniq)
    (f : ℕ → ℕ) (m : ℕ) :
    (after (drawStep s) t f m).picks = t.picks := by
  suffices h : (after (drawStep s) t f m).picks = t.picks ∧
      ∀ r < (after (drawStep s) t f m).listing.length,
        UInt32.ofNat r ∈ (after (drawStep s) t f m).uniq from h.1
  induction m with
  | zero => exact ⟨rfl, hstuck⟩
  | succ m ih =>
    obtain ⟨hpicks, hused⟩ := ih
    rw [after_succ]
    set u := after (drawStep s) t f m
    obtain ⟨-, hstep⟩ | ⟨-, -, -, hstep⟩ | ⟨-, hnot, x, hx, -⟩ := drawStep_cases s u (f m)
    · rw [hstep]
      exact ⟨hpicks, hused⟩
    · rw [hstep]
      exact ⟨hpicks, fun r hr => List.mem_cons_of_mem _ (hused r hr)⟩
    · exact absurd (hused _ (List.getElem?_eq_some_iff.mp hx).1) hnot

/-- The indices in their order are all taken, as long as they are below the number of
entries that are left. -/
theorem drawing_mod {listing : List α} {j : ℕ} (hj : 2 * j ≤ listing.length + 1) (hjs : j ≤ s)
    (hn : listing.length < 2 ^ 32) :
    (drawing s listing (· % listing.length) j).picks.length = j ∧
      (drawing s listing (· % listing.length) j).listing.length = listing.length - j ∧
      ∀ u, u ∈ (drawing s listing (· % listing.length) j).uniq ↔ ∃ r < j, UInt32.ofNat r = u := by
  induction j with
  | zero => simp [drawing, after, firsts]
  | succ j ih =>
    obtain ⟨hpicks, hlisting, huniq⟩ := ih (by omega) (by omega)
    have hmod : j % listing.length = j := Nat.mod_eq_of_lt (by omega)
    rw [drawing, after_succ, ← drawing, hmod]
    set t := drawing s listing (· % listing.length) j
    obtain ⟨hidle | hused, -⟩ | ⟨-, -, hsize, -⟩ | ⟨-, -, x, hx, hstep⟩ := drawStep_cases s t j
    · omega
    · obtain ⟨r, hr, heq⟩ := (huniq _).mp hused
      rw [ofNat_eq_iff, Nat.mod_eq_of_lt (by omega), Nat.mod_eq_of_lt (by omega)] at heq
      omega
    · omega
    · rw [hstep]
      refine ⟨by simp [hpicks], ?_, ?_⟩
      · rw [List.length_eraseIdx_of_lt (by omega)]
        omega
      · intro u
        rw [List.mem_cons, huniq]
        constructor
        · rintro (rfl | ⟨r, hr, rfl⟩)
          · exact ⟨j, Nat.lt_succ_self j, rfl⟩
          · exact ⟨r, Nat.lt_succ_of_lt hr, rfl⟩
        · rintro ⟨r, hr, rfl⟩
          rcases Nat.lt_succ_iff_lt_or_eq.mp hr with hlt | rfl
          · exact Or.inr ⟨r, hlt, rfl⟩
          · exact Or.inl rfl

/-- When more than half of the entries are to be moved, the draws may not end: in the
first round half of the indices are taken, and they are all that are left. -/
theorem drawPicks_mod_eq_none {listing : List α}
    (hword : listing.length < 2 ^ 32) (hhalf : listing.length + 1 < 2 * s) (m : ℕ) :
    drawPicks s [] listing (firsts (· % listing.length) m) = none := by
  obtain ⟨j, hj, hj'⟩ : ∃ j, 2 * j ≤ listing.length + 1 ∧ listing.length ≤ 2 * j :=
    ⟨(listing.length + 1) / 2, by omega, by omega⟩
  obtain ⟨hpicks, hlisting, huniq⟩ := drawing_mod (s := s) hj (by omega) hword
  by_contra hsome
  obtain ⟨picks, hend⟩ := Option.ne_none_iff_exists'.mp hsome
  obtain ⟨-, hlength⟩ := drawPicks_firsts.mp hend
  have hstuck := picks_after_stuck (s := s) (t := drawing s listing (· % listing.length) j)
    (fun r hr => (huniq _).mpr ⟨r, by omega, rfl⟩)
    (fun k => (j + k) % listing.length) m
  have hbegin : (drawing s listing (· % listing.length) m).picks <+:
      (drawing s listing (· % listing.length) (m + j)).picks := by
    rw [drawing, drawing, after_add]
    exact picks_prefix_foldl s _ _
  have hlater : (drawing s listing (· % listing.length) (m + j)).picks.length = j := by
    rw [Nat.add_comm, drawing, after_add]
    exact (congrArg List.length hstuck).trans hpicks
  have hle := hbegin.length_le
  omega

/-- The draws end on every fair stream if and only if at most half of the entries are
to be moved. -/
theorem drawPicks_ends_iff {listing : List α} (hs : s < 2 ^ 31)
    (hn : s ≠ 0 → 0 < listing.length) :
    (∀ f, Fair {r | r ≤ maxr listing.length} f →
        ∃ m picks, drawPicks s [] listing (firsts f m) = some picks) ↔
      2 * s ≤ listing.length + 1 := by
  constructor
  · intro h
    by_contra hhalf
    have hpos : 0 < listing.length := hn (by omega)
    obtain ⟨m, picks, hpicks⟩ := h _ (fair_mod_maxr hpos)
    rw [drawPicks_mod_eq_none (by omega) (by omega)] at hpicks
    cases hpicks
  · exact fun hhalf f hf => exists_drawPicks hhalf hs hf

end Draw

/-! ## Growth -/

namespace App

section

variable [Rounding]

/-- Growth that is not negative asks for no negative number. -/
theorem floorGrowth_nonneg (n : ℕ) {growth : ℚ} (h : 0 ≤ growth) : 0 ≤ floorGrowth n growth :=
  Int.floor_nonneg.mpr (Rounding.round_nonneg
    (mul_nonneg (Rounding.round_nonneg (Nat.cast_nonneg n)) h))

/-- Negative growth asks for no positive number. -/
theorem floorGrowth_nonpos (n : ℕ) {growth : ℚ} (h : growth ≤ 0) : floorGrowth n growth ≤ 0 :=
  Int.floor_nonpos (Rounding.round_nonpos
    (mul_nonpos_of_nonneg_of_nonpos (Rounding.round_nonneg (Nat.cast_nonneg n)) h))

/-- The number of candidates that become nodes when the policies ask for growth. -/
def asked (a : App) : ℤ :=
  min (max (floorGrowth a.db.hall.keys.card (a.policies 0)) (round (a.policies 1)))
    a.db.hall.keys.card

/-- The number of entries that are moved. -/
def number (a : App) : ℤ :=
  if |a.policies 0| < leastGrowth then 0
  else if 0 ≤ a.policies 0 then a.asked
  else -floorGrowth a.db.nodes.keys.card (a.policies 0)

/-- The conversions of `add_growth_transactions` to `int` are defined. -/
def IntsInRange (a : App) : Prop :=
  leastGrowth ≤ |a.policies 0| →
    (-2 ^ 31 ≤ round (a.policies 1) ∧ round (a.policies 1) < 2 ^ 31) ∧
    (if 0 ≤ a.policies 0 then floorGrowth a.db.hall.keys.card (a.policies 0)
      else -floorGrowth a.db.nodes.keys.card (a.policies 0)) < 2 ^ 31

/-- These keys, each of them once, have left the one table for the other. -/
structure Moves (a : App) (picks : List Ripemd160) (a' : App) : Prop where
  nodup : picks.Nodup
  source : ∀ k ∈ picks, k ∈ if 0 ≤ a.policies 0 then a.db.hall else a.db.nodes
  hall : ∀ k, k ∈ a'.db.hall ↔
    if 0 ≤ a.policies 0 then k ∈ a.db.hall ∧ k ∉ picks else k ∈ a.db.hall ∨ k ∈ picks
  nodes : ∀ k, k ∈ a'.db.nodes ↔
    if 0 ≤ a.policies 0 then k ∈ a.db.nodes ∨ k ∈ picks else k ∈ a.db.nodes ∧ k ∉ picks

/-- On every fair stream the growth ends, and the number of the keys that it has moved
is one of these. In every iteration there is an index that can be taken. -/
def Grows (a : App) (moved : ℕ → Prop) : Prop :=
  ∀ listing : List Ripemd160, (listing : Multiset Ripemd160) = a.growthSource.keys.val →
    ∀ f, Fair {r | r ≤ maxr listing.length} f →
      (∃ m picks a', a.growthPicks listing (firsts f m) = some picks ∧
        a.addGrowthTransactions picks = some a' ∧ moved picks.length ∧ a.Moves picks a') ∧
      ∀ m, (drawing a.growthCount listing f m).picks.length < a.growthCount →
        ∃ r < (drawing a.growthCount listing f m).listing.length,
          UInt32.ofNat r ∉ (drawing a.growthCount listing f m).uniq

/-- Below the least growth nothing is drawn. -/
theorem growth_of_lt {a : App} (h : |a.policies 0| < leastGrowth) : a.growth = none := by
  rw [growth]
  dsimp only
  rw [if_pos h]

/-- With growth the number that is asked for is drawn from the hall. -/
theorem growth_of_nonneg {a : App} (h : leastGrowth ≤ |a.policies 0|) (hg : 0 ≤ a.policies 0) :
    a.growth = some (true, a.asked.toNat) := by
  rw [growth]
  dsimp only
  rw [if_neg h.not_gt, if_pos hg, asked]
  congr 3
  split_ifs <;> omega

/-- With negative growth a part of the nodes is drawn. -/
theorem growth_of_neg {a : App} (h : leastGrowth ≤ |a.policies 0|) (hg : a.policies 0 < 0) :
    a.growth = some (false, (-floorGrowth a.db.nodes.keys.card (a.policies 0)).toNat) := by
  rw [growth]
  dsimp only
  rw [if_neg h.not_gt, if_neg hg.not_ge]

/-- What the source computes is the number that is moved. -/
theorem growthCount_eq_number (a : App) : (a.growthCount : ℤ) = a.number := by
  rw [number, growthCount]
  split_ifs with hnone hg
  · rw [growth_of_lt hnone]
    rfl
  · have hfloor : 0 ≤ floorGrowth a.db.hall.keys.card (a.policies 0) :=
      floorGrowth_nonneg _ hg
    rw [growth_of_nonneg (not_lt.mp hnone) hg]
    refine Int.toNat_of_nonneg ?_
    rw [asked]
    omega
  · have hfloor : floorGrowth a.db.nodes.keys.card (a.policies 0) ≤ 0 :=
      floorGrowth_nonpos _ (not_le.mp hg).le
    rw [growth_of_neg (not_lt.mp hnone) (not_le.mp hg)]
    exact Int.toNat_of_nonneg (by omega)

/-- Fewer than `2 ^ 31` are drawn where the numbers fit in an `int`. -/
theorem growthCount_lt {a : App} (h : a.IntsInRange) : a.growthCount < 2 ^ 31 := by
  have hnumber := growthCount_eq_number a
  rw [number] at hnumber
  split_ifs at hnumber with hnone hg
  · omega
  · obtain ⟨⟨-, hmin⟩, hfloor⟩ := h (not_lt.mp hnone)
    rw [if_pos hg] at hfloor
    rw [asked] at hnumber
    omega
  · obtain ⟨-, hfloor⟩ := h (not_lt.mp hnone)
    rw [if_neg hg] at hfloor
    omega

/-- With growth the draws are from the hall. -/
theorem fromHall_of_nonneg {a : App} (h : leastGrowth ≤ |a.policies 0|)
    (hg : 0 ≤ a.policies 0) : a.fromHall = true := by
  rw [fromHall, growth_of_nonneg h hg]
  rfl

/-- With negative growth the draws are from the nodes. -/
theorem fromHall_of_neg {a : App} (h : leastGrowth ≤ |a.policies 0|)
    (hg : a.policies 0 < 0) : a.fromHall = false := by
  rw [fromHall, growth_of_neg h hg]
  rfl

omit [Rounding] in
/-- Without growth nothing is moved. -/
theorem moves_nil (a : App) : a.Moves [] a := by
  refine ⟨List.nodup_nil, by simp, fun k => ?_, fun k => ?_⟩
  · split_ifs <;> simp
  · split_ifs <;> simp

/-- What the draws pick can be moved. -/
theorem moves_of_growthPicks {a : App} {listing picks : List Ripemd160} {draws : List ℕ}
    (h : a.growthPicks listing draws = some picks) :
    picks.length = a.growthCount ∧ picks.length ≤ listing.length ∧
      ∃ a', a.addGrowthTransactions picks = some a' ∧ a.Moves picks a' := by
  obtain ⟨hlisting, hdraw⟩ := Option.ite_none_right_eq_some.mp h
  obtain ⟨hlength, rest, hperm⟩ := drawPicks_perm hdraw
  have hnodup : picks.Nodup := by
    have hkeys : listing.Nodup := by
      rw [← Multiset.coe_nodup, hlisting]
      exact a.growthSource.keys.nodup
    exact (List.nodup_append.mp (hperm.nodup_iff.mp hkeys)).1
  have hle : picks.length ≤ listing.length := by
    rw [hperm.length_eq, List.length_append]
    exact Nat.le_add_right _ _
  have hsource : ∀ k ∈ picks, k ∈ a.growthSource := by
    intro k hk
    have hmem : k ∈ (listing : Multiset Ripemd160) :=
      Multiset.mem_coe.mpr (hperm.mem_iff.mpr (List.mem_append_left _ hk))
    rwa [hlisting, Finset.mem_val, Finmap.mem_keys] at hmem
  obtain ⟨a', ha'⟩ := exists_addGrowthTransactions hlength hnodup hsource
  refine ⟨hlength, hle, a', ha', ?_⟩
  rcases lt_or_ge |a.policies 0| leastGrowth with hnone | hsome
  · have hcount : a.growthCount = 0 := by rw [growthCount, growth_of_lt hnone]; rfl
    obtain rfl := List.length_eq_zero_iff.mp (hlength.trans hcount)
    obtain ⟨-, t, ⟨-, ht, rfl⟩ | ⟨-, ht, rfl⟩⟩ := addGrowthTransactions_eq_some.mp ha'
    · obtain rfl := Option.some.inj ht
      exact moves_nil a
    · obtain rfl := Option.some.inj ht
      exact moves_nil a
  · obtain ⟨-, ⟨src, dst⟩, ⟨hfrom, ht, rfl⟩ | ⟨hfrom, ht, rfl⟩⟩ :=
      addGrowthTransactions_eq_some.mp ha'
    · have hg : 0 ≤ a.policies 0 := by
        by_contra hg
        rw [fromHall_of_neg hsome (not_le.mp hg)] at hfrom
        cases hfrom
      obtain ⟨hpicks, hsrc, hdst⟩ := mem_of_moveAll ht
      refine ⟨hnodup, ?_, fun k => ?_, fun k => ?_⟩
      · rwa [if_pos hg]
      · rw [if_pos hg, hsrc]
      · rw [if_pos hg, hdst]
    · have hg : ¬ 0 ≤ a.policies 0 := by
        intro hg
        rw [fromHall_of_nonneg hsome hg] at hfrom
        cases hfrom
      obtain ⟨hpicks, hsrc, hdst⟩ := mem_of_moveAll ht
      refine ⟨hnodup, ?_, fun k => ?_, fun k => ?_⟩
      · rwa [if_neg hg]
      · rw [if_neg hg, hdst]
      · rw [if_neg hg, hsrc]

/-- An enumeration of the table lists as many entries as it has keys. -/
theorem length_listing {a : App} {listing : List Ripemd160}
    (h : (listing : Multiset Ripemd160) = a.growthSource.keys.val) :
    listing.length = a.growthSource.keys.card :=
  congrArg Multiset.card h

/-- **What the growth moves.** Whatever the draws, when the growth ends it has moved
the number of keys that the policies say, from the hall to the nodes when the network
grows and back when it shrinks; and it ends on every fair stream, with an index that
can be taken in every iteration, when this is at most half of the table. -/
theorem grows {a : App} (hints : a.IntsInRange) :
    (∀ listing draws picks, a.growthPicks listing draws = some picks →
      ∃ a', a.addGrowthTransactions picks = some a' ∧ (picks.length : ℤ) = a.number ∧
        picks.length ≤ a.growthSource.keys.card ∧ a.Moves picks a') ∧
    (2 * a.number ≤ a.growthSource.keys.card + 1 → a.Grows fun n => (n : ℤ) = a.number) := by
  have hnumber := growthCount_eq_number a
  refine ⟨?_, ?_⟩
  · intro listing draws picks h
    obtain ⟨hlength, hle, a', ha', hmoves⟩ := moves_of_growthPicks h
    rw [length_listing (Option.ite_none_right_eq_some.mp h).1] at hle
    exact ⟨a', ha', by rw [hlength, hnumber], hle, hmoves⟩
  · intro hhalf listing hlisting f hf
    have hcount : 2 * a.growthCount ≤ listing.length + 1 := by
      rw [length_listing hlisting]
      omega
    refine ⟨?_, fun m hlt => exists_unused_drawing hcount (growthCount_lt hints) hf hlt⟩
    obtain ⟨m, picks, hpicks⟩ := exists_drawPicks hcount (growthCount_lt hints) hf
    have h : a.growthPicks listing (firsts f m) = some picks :=
      Option.ite_none_right_eq_some.mpr ⟨hlisting, hpicks⟩
    obtain ⟨hlength, -, a', ha', hmoves⟩ := moves_of_growthPicks h
    have hmoved : (picks.length : ℤ) = a.number := by rw [hlength, hnumber]
    exact ⟨m, picks, a', h, ha', hmoved, hmoves⟩

/-- When it is more than half of the table, the growth may not end. -/
theorem not_grows_of_lt {a : App} {moved : ℕ → Prop} (hpos : 0 < a.growthSource.keys.card)
    (hword : a.growthSource.keys.card < 2 ^ 32)
    (hhalf : a.growthSource.keys.card + 1 < 2 * a.growthCount) : ¬ a.Grows moved := by
  intro h
  obtain ⟨listing, hlisting⟩ := Quot.exists_rep a.growthSource.keys.val
  have hlength := length_listing hlisting
  obtain ⟨⟨m, picks, -, hpicks, -⟩, -⟩ := h listing hlisting _ (fair_mod_maxr (by omega))
  have hdraw := (Option.ite_none_right_eq_some.mp hpicks).2
  rw [drawPicks_mod_eq_none (by omega) (by omega)] at hdraw
  cases hdraw

end

/-- An app with these keys of nodes and of candidates, and these policies. -/
def withKeys (nodes hall : List UInt32) (growth minGrowth : ℚ) : App :=
  let table (keys : List UInt32) : Table Ripemd160 Address :=
    Delta.emplaceAll ∅ (keys.map fun k => (Ripemd160.set k, ⟨['a'], blankFree_letter⟩))
  { create Ripemd160.zero with
    db := ⟨table nodes, table hall⟩
    policies := fun i => if i = 0 then growth else minGrowth }

/-- The growth policy of the sample app. -/
@[simp] theorem growthPolicy_withKeys (nodes hall : List UInt32) (growth minGrowth : ℚ) :
    (withKeys nodes hall growth minGrowth).policies 0 = growth := rfl

/-- The second policy of the sample app. -/
@[simp] theorem minGrowthPolicy_withKeys (nodes hall : List UInt32) (growth minGrowth : ℚ) :
    (withKeys nodes hall growth minGrowth).policies 1 = minGrowth := rfl

open scoped Doubles in
/-- Half of three candidates, of which one becomes a node. -/
theorem grows_half :
    (withKeys [] [7, 8, 9] (1 / 2) 1).Grows
      fun n => (n : ℤ) = (withKeys [] [7, 8, 9] (1 / 2) 1).number := by
  have hints : (withKeys [] [7, 8, 9] (1 / 2) 1).IntsInRange := by
    intro _
    decide +kernel
  exact (grows hints).2 (by decide +kernel)

/-- What the policies ask for, whether they ask for growth or not: exactly that part of
the candidates, rounded down. -/
def AsksFor (a : App) (n : ℕ) : Prop :=
  if 0 ≤ a.policies 0 then (n : ℤ) = a.asked else n ≤ a.db.nodes.keys.card

open scoped Doubles in
/-- Without growth no candidate becomes a node, though one is the least number. A third of
three candidates is rounded to a whole one, where the third is a little less. When
both of two candidates are to become nodes, or two nodes are to leave when there is
one, the draws may not end. And a number can be too great for an `int`. -/
theorem not_grows_asksFor :
    ¬ (withKeys [] [8] 0 1).Grows (withKeys [] [8] 0 1).AsksFor ∧
    ¬ (withKeys [] [7, 8, 9] (toDouble (1 / 3)) 0).Grows
      (withKeys [] [7, 8, 9] (toDouble (1 / 3)) 0).AsksFor ∧
    ¬ (withKeys [] [8, 9] 1 1).Grows (withKeys [] [8, 9] 1 1).AsksFor ∧
    ¬ (withKeys [8] [] (-2) 1).Grows (withKeys [8] [] (-2) 1).AsksFor ∧
    ¬ (withKeys [] [8] (2 ^ 31) 1).IntsInRange := by
  have hother : ∀ (a : App) (listing : List Ripemd160) (n : ℕ), 0 < listing.length →
      (listing : Multiset Ripemd160) = a.growthSource.keys.val → a.growthCount = n →
      ¬ a.AsksFor n → ¬ a.Grows a.AsksFor := by
    intro a listing n hpos hlisting hcount hnot h
    obtain ⟨⟨m, picks, a', -, ha', hmoved, -⟩, -⟩ := h _ hlisting _ (fair_mod_maxr hpos)
    obtain ⟨hlength, -⟩ := addGrowthTransactions_eq_some.mp ha'
    rw [hlength, hcount] at hmoved
    exact hnot hmoved
  refine ⟨?_, ?_, ?_, ?_, ?_⟩
  · refine hother _ [Ripemd160.set 8] 0 Nat.one_pos (by decide +kernel) (by decide +kernel) ?_
    rw [AsksFor, if_pos (by decide +kernel)]
    decide +kernel
  · refine hother _ [Ripemd160.set 7, Ripemd160.set 8, Ripemd160.set 9] 1 (by decide)
      (by decide +kernel) (by decide +kernel) ?_
    rw [AsksFor, if_pos (by decide +kernel)]
    decide +kernel
  · exact not_grows_of_lt (by decide +kernel) (by decide +kernel) (by decide +kernel)
  · exact not_grows_of_lt (by decide +kernel) (by decide +kernel) (by decide +kernel)
  · intro h
    exact absurd (h (by decide +kernel)).2 (by decide +kernel)

end App

end AcCore.Gov.Engine.Auth
