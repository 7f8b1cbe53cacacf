import Mathlib.Algebra.Order.Monoid.Unbundled.Basic
import Mathlib.Data.List.Basic

/-!
# Runs of a partial step function

A component is a step function `σ → ε → Option σ`: `none` says that the event
is not possible in the state, or that the code has no defined result there.
This file gives the runs of such a component and the rules that carry a
property of one step to a whole run.
-/

namespace AcCore.Lib

variable {σ ε : Type*} (step : σ → ε → Option σ)

/-- The state after the events, when every one of them is possible in turn. -/
def run : σ → List ε → Option σ
  | s, [] => some s
  | s, e :: es => (step s e).bind fun s' => run s' es

/-- Every event of the run meets `C` in the state in which it is taken. -/
def AlongRun (C : σ → ε → Prop) : σ → List ε → Prop
  | _, [] => True
  | s, e :: es => C s e ∧ (step s e).elim True fun s' => AlongRun C s' es

/-- The sum over the run of an amount that each step contributes. -/
def runSum {α : Type*} [AddMonoid α] (f : σ → ε → α) : σ → List ε → α
  | _, [] => 0
  | s, e :: es => f s e + (step s e).elim 0 fun s' => runSum f s' es

/-- The events of a run without those of a kind that may depend on the state in
which they happen. -/
def residue (kind : σ → ε → Bool) : σ → List ε → List ε
  | _, [] => []
  | s, e :: es =>
    let rest := (step s e).elim es fun s' => residue kind s' es
    if kind s e then rest else e :: rest

/-- A condition that is decided in every state is decided along a run. -/
instance AlongRun.decidable (C : σ → ε → Prop) [∀ s e, Decidable (C s e)] :
    ∀ s es, Decidable (AlongRun step C s es)
  | _, [] => isTrue trivial
  | s, e :: es =>
    match h : step s e with
    | none => decidable_of_iff (C s e) (by simp [AlongRun, h])
    | some s' =>
      have := AlongRun.decidable C s' es
      decidable_of_iff (C s e ∧ AlongRun step C s' es) (by simp [AlongRun, h])

variable {step}

/-- The empty run stays where it is. -/
@[simp] theorem run_nil (s : σ) : run step s [] = some s := rfl

/-- A run of one more event is one step and the rest of the run from there. -/
theorem run_cons_eq_some {s t : σ} {e : ε} {es : List ε} :
    run step s (e :: es) = some t ↔ ∃ s', step s e = some s' ∧ run step s' es = some t := by
  simp [run, Option.bind_eq_some_iff]

/-- Runs compose. -/
theorem run_append (s : σ) (es fs : List ε) :
    run step s (es ++ fs) = (run step s es).bind fun s' => run step s' fs := by
  induction es generalizing s with
  | nil => rfl
  | cons e es ih =>
    simp only [List.cons_append, run, Option.bind_assoc]
    congr 1
    funext s'
    exact ih s'

/-- The condition of a run holds of its first step and of the run from there. -/
theorem AlongRun.cons_iff {C : σ → ε → Prop} {s s' : σ} {e : ε} {es : List ε}
    (h : step s e = some s') :
    AlongRun step C s (e :: es) ↔ C s e ∧ AlongRun step C s' es := by
  simp [AlongRun, h]

/-- The condition of a run of one event is that of the event. -/
theorem AlongRun.singleton_iff {C : σ → ε → Prop} {s : σ} {e : ε} :
    AlongRun step C s [e] ↔ C s e := by
  cases h : step s e <;> simp [AlongRun, h]

/-- The condition of a run of two parts is that of both. -/
theorem AlongRun.append_iff {C : σ → ε → Prop} {s t : σ} {es fs : List ε}
    (h : run step s es = some t) :
    AlongRun step C s (es ++ fs) ↔ AlongRun step C s es ∧ AlongRun step C t fs := by
  induction es generalizing s with
  | nil =>
    obtain rfl := Option.some.inj h
    exact ⟨fun h => ⟨True.intro, h⟩, fun h => h.2⟩
  | cons e es ih =>
    obtain ⟨s', hs', h⟩ := run_cons_eq_some.mp h
    rw [List.cons_append, AlongRun.cons_iff hs', AlongRun.cons_iff hs', ih h, and_assoc]

/-- A condition along a run is one on every event and the state to which the
events before it lead. -/
theorem alongRun_iff {C : σ → ε → Prop} {s : σ} {es : List ε} :
    AlongRun step C s es ↔ ∀ before e after t, es = before ++ e :: after →
      run step s before = some t → C t e := by
  constructor
  · intro h before e after t hsplit ht
    subst hsplit
    exact ((AlongRun.append_iff ht).mp h).2.1
  · intro h
    induction es generalizing s with
    | nil => trivial
    | cons e es ih =>
      refine ⟨h [] e es s rfl rfl, ?_⟩
      cases hs : step s e with
      | none => trivial
      | some s' =>
        refine ih fun before e' after t hsplit ht => ?_
        exact h (e :: before) e' after t (by rw [hsplit, List.cons_append])
          (run_cons_eq_some.mpr ⟨s', hs, ht⟩)

/-- A weaker condition holds along the same run. -/
theorem AlongRun.imp {C D : σ → ε → Prop} (hCD : ∀ s e, C s e → D s e) {s : σ} {es : List ε}
    (h : AlongRun step C s es) : AlongRun step D s es := by
  induction es generalizing s with
  | nil => trivial
  | cons e es ih =>
    refine ⟨hCD s e h.1, ?_⟩
    cases hs : step s e with
    | none => trivial
    | some s' =>
      rw [AlongRun.cons_iff hs] at h
      exact ih h.2

/-- What every event of the run meets in all states is met along the run. -/
theorem AlongRun.of_forall {C : σ → ε → Prop} {s : σ} {es : List ε}
    (h : ∀ e ∈ es, ∀ s, C s e) : AlongRun step C s es := by
  induction es generalizing s with
  | nil => exact True.intro
  | cons e es ih =>
    refine ⟨h e List.mem_cons_self s, ?_⟩
    cases step s e with
    | none => exact True.intro
    | some s' => exact ih fun e' he' => h e' (List.mem_cons_of_mem _ he')

/-- No condition is met along every run. -/
theorem AlongRun.trivial (s : σ) (es : List ε) : AlongRun step (fun _ _ => True) s es :=
  .of_forall fun _ _ _ => True.intro

/-- Events that are possible one after the other make a run. -/
theorem AlongRun.exists_run {s : σ} {es : List ε}
    (h : AlongRun step (fun s e => (step s e).isSome = true) s es) :
    ∃ t, run step s es = some t := by
  induction es generalizing s with
  | nil => exact ⟨s, rfl⟩
  | cons e es ih =>
    obtain ⟨s', hs'⟩ := Option.isSome_iff_exists.mp h.1
    obtain ⟨t, ht⟩ := ih ((AlongRun.cons_iff hs').mp h).2
    exact ⟨t, run_cons_eq_some.mpr ⟨s', hs', ht⟩⟩

/-- Two conditions that hold along a run hold together along it. -/
theorem AlongRun.and {C D : σ → ε → Prop} {s : σ} {es : List ε} (hC : AlongRun step C s es)
    (hD : AlongRun step D s es) : AlongRun step (fun s e => C s e ∧ D s e) s es := by
  induction es generalizing s with
  | nil => trivial
  | cons e es ih =>
    refine ⟨⟨hC.1, hD.1⟩, ?_⟩
    cases hs : step s e with
    | none => trivial
    | some s' =>
      rw [AlongRun.cons_iff hs] at hC hD
      exact ih hC.2 hD.2

/-- **Invariant rule.** What every step that meets the condition preserves
holds at the end of every run whose steps all meet it. -/
theorem run_invariant {Inv : σ → Prop} {C : σ → ε → Prop}
    (hstep : ∀ s e s', Inv s → C s e → step s e = some s' → Inv s')
    {s t : σ} {es : List ε} (hs : Inv s) (hC : AlongRun step C s es)
    (h : run step s es = some t) : Inv t := by
  induction es generalizing s with
  | nil => exact Option.some.inj h ▸ hs
  | cons e es ih =>
    obtain ⟨s', hs', h'⟩ := run_cons_eq_some.mp h
    rw [AlongRun.cons_iff hs'] at hC
    exact ih (hstep s e s' hs hC.1 hs') hC.2 h'

/-- What follows from an invariant holds along the run. -/
theorem AlongRun.of_invariant {Inv : σ → Prop} {C D : σ → ε → Prop}
    (hstep : ∀ s e s', Inv s → D s e → step s e = some s' → Inv s')
    (hC : ∀ s e, Inv s → D s e → C s e) {s : σ} {es : List ε} (hs : Inv s)
    (hD : AlongRun step D s es) : AlongRun step C s es := by
  induction es generalizing s with
  | nil => exact True.intro
  | cons e es ih =>
    refine ⟨hC s e hs hD.1, ?_⟩
    cases hs' : step s e with
    | none => exact True.intro
    | some s' => exact ih (hstep s e s' hs hD.1 hs') ((AlongRun.cons_iff hs').mp hD).2

/-- **Balance rule.** A quantity that every step changes by what it
contributes has changed by the sum of the contributions after the run. -/
theorem run_balance {α : Type*} [AddMonoid α] {Inv : σ → Prop} {C : σ → ε → Prop} {q : σ → α}
    {f : σ → ε → α}
    (hstep : ∀ s e s', Inv s → C s e → step s e = some s' → Inv s')
    (hq : ∀ s e s', Inv s → C s e → step s e = some s' → q s' = q s + f s e)
    {s t : σ} {es : List ε} (hs : Inv s) (hC : AlongRun step C s es)
    (h : run step s es = some t) : q t = q s + runSum step f s es := by
  induction es generalizing s with
  | nil =>
    cases Option.some.inj h
    simp [runSum]
  | cons e es ih =>
    obtain ⟨s', hs', h'⟩ := run_cons_eq_some.mp h
    rw [AlongRun.cons_iff hs'] at hC
    have hrest := ih (hstep s e s' hs hC.1 hs') hC.2 h'
    have hfirst := hq s e s' hs hC.1 hs'
    simp [runSum, hs', hrest, hfirst, add_assoc]

/-- Contributions that are not negative have no negative sum. -/
theorem runSum_nonneg {α : Type*} [AddMonoid α] [Preorder α] [AddLeftMono α] {Inv : σ → Prop}
    {f : σ → ε → α} (hstep : ∀ s e s', Inv s → step s e = some s' → Inv s')
    (hf : ∀ s e, Inv s → 0 ≤ f s e) {s : σ} (hs : Inv s) (es : List ε) :
    0 ≤ runSum step f s es := by
  induction es generalizing s with
  | nil => exact le_rfl
  | cons e es ih =>
    have hfirst := hf s e hs
    unfold runSum
    cases hs' : step s e with
    | none => simpa using hfirst
    | some s' => exact add_nonneg hfirst (ih (hstep s e s' hs hs'))

/-- **Accumulation rule.** Where a step leaves a state with `P` exactly when it
starts from one and meets `D`, a run does so exactly when every step meets `D`. -/
theorem iff_alongRun {Inv P : σ → Prop} {D : σ → ε → Prop}
    (hstep : ∀ s e s', Inv s → step s e = some s' → Inv s')
    (hP : ∀ s e s', Inv s → step s e = some s' → (P s' ↔ P s ∧ D s e))
    {s t : σ} {es : List ε} (hs : Inv s) (h : run step s es = some t) :
    P t ↔ P s ∧ AlongRun step D s es := by
  induction es generalizing s with
  | nil =>
    cases Option.some.inj h
    simp [AlongRun]
  | cons e es ih =>
    obtain ⟨s', hs', h'⟩ := run_cons_eq_some.mp h
    rw [AlongRun.cons_iff hs', ih (hstep s e s' hs hs') h', hP s e s' hs hs', and_assoc]

/-- **Safety rule.** Where a step from a safe state leads to a safe one exactly
when it meets `D`, all states of a run are safe exactly when every step of the
run meets `D`. -/
theorem safe_iff_alongRun {Inv Q : σ → Prop} {D : σ → ε → Prop}
    (hstep : ∀ s e s', Inv s → step s e = some s' → Inv s')
    (hQ : ∀ s e s', Inv s → Q s → step s e = some s' → (Q s' ↔ D s e))
    {s t : σ} {es : List ε} (hs : Inv s) (hq : Q s) (h : run step s es = some t) :
    (∀ es' u, es' <+: es → run step s es' = some u → Q u) ↔ AlongRun step D s es := by
  induction es generalizing s with
  | nil =>
    refine ⟨fun _ => trivial, fun _ es' u hprefix hu => ?_⟩
    obtain rfl := List.prefix_nil.mp hprefix
    exact Option.some.inj hu ▸ hq
  | cons e es ih =>
    obtain ⟨s', hs', h'⟩ := run_cons_eq_some.mp h
    rw [AlongRun.cons_iff hs']
    constructor
    · intro hsafe
      have hq' : Q s' := hsafe [e] s' (by simp) (by simp [run, hs'])
      refine ⟨(hQ s e s' hs hq hs').mp hq', (ih (hstep s e s' hs hs') hq' h').mp ?_⟩
      intro es' u hprefix hu
      exact hsafe (e :: es') u (List.cons_prefix_cons.mpr ⟨rfl, hprefix⟩)
        (run_cons_eq_some.mpr ⟨s', hs', hu⟩)
    · rintro ⟨hD, hrest⟩ es' u hprefix hu
      have hq' : Q s' := (hQ s e s' hs hq hs').mpr hD
      cases es' with
      | nil => exact Option.some.inj hu ▸ hq
      | cons e' es' =>
        obtain ⟨rfl, htail⟩ := List.cons_prefix_cons.mp hprefix
        obtain ⟨s'', hs'', hu⟩ := run_cons_eq_some.mp hu
        obtain rfl := Option.some.inj (hs'.symm.trans hs'')
        exact (ih (hstep s e' s' hs hs') hq' h').mpr hrest es' u htail hu

/-- **Constancy rule.** Where a step keeps a quantity exactly when it meets
`D`, the quantity is the same in every state of a run exactly when every step
of the run meets `D`. -/
theorem constant_iff_alongRun {α : Type*} {Inv : σ → Prop} {D : σ → ε → Prop} {q : σ → α}
    (hstep : ∀ s e s', Inv s → step s e = some s' → Inv s')
    (hq : ∀ s e s', Inv s → step s e = some s' → (q s' = q s ↔ D s e))
    {s t : σ} {es : List ε} (hs : Inv s) (h : run step s es = some t) :
    (∀ es' u, es' <+: es → run step s es' = some u → q u = q s) ↔ AlongRun step D s es := by
  refine safe_iff_alongRun (Q := fun u => q u = q s) hstep ?_ hs rfl h
  intro s₁ e s' hinv hsame hs'
  rw [← hsame]
  exact hq s₁ e s' hinv hs'

/-- **Erasure rule.** Events without effect can be left out of a run. -/
theorem run_residue {kind : σ → ε → Bool} {s : σ} {es : List ε}
    (h : AlongRun step (fun s e => kind s e = true → step s e = some s) s es) :
    run step s (residue step kind s es) = run step s es := by
  induction es generalizing s with
  | nil => rfl
  | cons e es ih =>
    cases hs : step s e with
    | none =>
      have hkind : kind s e = false := by
        by_contra hk
        rw [Bool.not_eq_false] at hk
        rw [h.1 hk] at hs
        cases hs
      simp [residue, run, hs, hkind]
    | some s' =>
      have hrest := (AlongRun.cons_iff hs).mp h
      by_cases hk : kind s e = true
      · obtain rfl : s = s' := Option.some.inj ((h.1 hk).symm.trans hs)
        simpa [residue, run, hs, hk] using ih hrest.2
      · simpa [residue, run, hs, hk] using ih hrest.2

end AcCore.Lib
