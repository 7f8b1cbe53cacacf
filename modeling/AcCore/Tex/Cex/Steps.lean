import AcCore.Tex.Cex.Engine

/-!
# The operations in parts

An operation of an account that trades is a sequence of sales, cancels and
updates of single orders. The rules of this file carry what the parts preserve
to the operations. Where a part preserves something under a condition only, the
condition is asked of the parts that the operation comes to.
-/

namespace AcCore.Tex.Cex

open Lib

variable [Rounding]

/-! ## What is read from an input -/

omit [Rounding] in
/-- What a text encodes to is not negative. -/
theorem encode_nonneg (s : Text) : 0 ≤ encode s := by
  unfold encode
  dsimp only
  split_ifs
  · exact le_min (Int.natCast_nonneg _) (by norm_num)
  · exact le_rfl

omit [Rounding] in
/-- A trade that is accepted has a positive amount and a positive rate. -/
theorem TradeInput.parse_pos {input : TradeInput} {t : TradeOrder} (h : input.parse = .ok t) :
    0 < t.amount ∧ 0 < t.rate := by
  obtain ⟨⟨hamount, hzero⟩, hrate, hzero'⟩ := encode_of_parse h
  rw [hamount, hrate]
  exact ⟨lt_of_le_of_ne (encode_nonneg _) hzero.symm, lt_of_le_of_ne (encode_nonneg _) hzero'.symm⟩

omit [Rounding] in
/-- An update that is accepted has no negative amount or rate. -/
theorem UpdateInput.parse_nonneg {input : UpdateInput} {i : Id} {amount rate : ℤ}
    (h : input.parse = .ok (i, amount, rate)) : 0 ≤ amount ∧ 0 ≤ rate := by
  obtain ⟨rfl, rfl⟩ := encode_of_parseUpdate h
  exact ⟨encode_nonneg _, encode_nonneg _⟩

omit [Rounding] in
/-- An amount that is accepted is positive. -/
theorem parseAmount_pos {s : Text} {amount : ℤ} (h : parseAmount s = .ok amount) : 0 < amount := by
  obtain ⟨rfl, hzero⟩ := encode_of_parseAmount h
  exact lt_of_le_of_ne (encode_nonneg _) hzero.symm

/-- Whether an operation is one on orders. -/
def AccountOp.onOrders : AccountOp → Bool
  | .trade _ | .tradeLow _ | .update _ | .updateOrder _ _ | .cancelOrder _ | .cancelAllOrders _ =>
    true
  | _ => false

/-! ## Parts and their conditions -/

/-- Conditions on the parts of operations. -/
structure Guards where
  /-- Of a sale, by its account, market, currency, limit, amount, and flags. -/
  sell : Engine → Id → Market → Cur → ℤ → ℤ → Bool → Bool → Prop
  /-- Of a cancel of an order that an update names. -/
  cancel : Engine → Id → Id → Prop
  /-- Of an update of the amount of an order. -/
  update : Engine → Id → Id → ℤ → Prop

namespace Guards

open Engine

/-- The condition of one input of a trade. -/
def Trade (G : Guards) (acid : Id) (priLow : Bool) (e : Engine) (input : TradeInput) : Prop :=
  ∀ t, input.parse = .ok t → ∀ m, e.findMarket (marketKey t.weakcur t.strongcur) = some m →
    G.sell e acid m t.curid t.rate t.amount t.buy priLow

/-- The condition of one input of an update, by the branch that it takes. -/
def Update (G : Guards) (acid : Id) (e : Engine) (input : UpdateInput) : Prop :=
  ∀ i amount rate, input.parse = .ok (i, amount, rate) → i ∈ e.orders →
    ∀ o, e.pool.live.lookup i = some o →
      (amount < 1 → G.cancel e acid i) ∧
      (1 ≤ amount → rate ≠ o.rate → G.cancel e acid i ∧
        ∀ e₁ found, e.cancel acid i = some (e₁, found) →
          ∀ m, e₁.findMarket (marketKey o.weakCur o.strongCur) = some m →
            G.sell e₁ acid m (if o.buy then o.receivedCur else o.paidCur) rate amount o.buy
              false) ∧
      (1 ≤ amount → rate = o.rate → G.update e acid i amount)

/-- The condition of an operation for an account. -/
def Account (G : Guards) (fuel : ℕ) (acid : Id) (e : Engine) : AccountOp → Prop
  | .trade input => AlongRun (tradeInput fuel acid false) (G.Trade acid false) e input
  | .tradeLow input => AlongRun (tradeInput fuel acid true) (G.Trade acid true) e input
  | .update input => AlongRun (updateInput fuel acid) (G.Update acid) e input
  | .updateOrder i amount => 1 ≤ encode amount → G.update e acid i (encode amount)
  | _ => True

/-- The condition of an operation. -/
def Op (G : Guards) (hash : Text → UInt64) (fuel : ℕ) (e : Engine) : Cex.Op → Prop
  | .api acid pwd op => e.auth hash acid pwd = true → G.Account fuel acid e op
  | _ => True

end Guards

namespace Engine

/-- What the parts of the operations of an account preserve. -/
structure Preserved (G : Guards) (fuel : ℕ) (acid : Id) (P : Engine → Prop) : Prop where
  sell : ∀ {e e' : Engine} {m : Market} {cid : Cur} {rate amount : ℤ} {buy priLow : Bool},
    P e → e.findMarket m.getKey = some m → 0 ≤ rate → 0 < amount →
    G.sell e acid m cid rate amount buy priLow →
    e.sell fuel acid m cid rate amount buy priLow = some e' → P e'
  cancel : ∀ {e e' : Engine} {i : Id} {found : Bool}, P e →
    (G.cancel e acid i ∨ (e.pool.live.lookup i).map Order.accountId = some acid ∨
      ∃ a, e.accounts.lookup acid = some a ∧ i ∈ a.orders) →
    e.cancel acid i = some (e', found) → P e'
  update : ∀ {e e' : Engine} {i : Id} {amount : ℤ}, P e → i ∈ e.orders → 1 ≤ amount →
    G.update e acid i amount → e.updateAmount acid i amount = some e' → P e'

variable {G : Guards} {fuel : ℕ} {acid : Id} {P : Engine → Prop} {e e' : Engine}

/-- A preserved property survives one line of a trade. -/
theorem Preserved.tradeInput (hP : Preserved G fuel acid P) {priLow : Bool} {input : TradeInput}
    (he : P e) (hG : G.Trade acid priLow e input)
    (h : e.tradeInput fuel acid priLow input = some e') : P e' := by
  unfold Engine.tradeInput at h
  cases hparse : input.parse with
  | error err =>
    rw [hparse] at h
    exact Option.some.inj h ▸ he
  | ok t =>
    simp only [hparse, tradeOrder] at h
    cases hm : e.findMarket (marketKey t.weakcur t.strongcur) with
    | none =>
      rw [hm] at h
      exact Option.some.inj h ▸ he
    | some m =>
      rw [hm] at h
      have hkey : e.findMarket m.getKey = some m := by
        rw [← hm]
        exact congrArg _ (Keyed.key_of_get hm)
      have hpos := TradeInput.parse_pos hparse
      exact hP.sell he hkey hpos.2.le hpos.1 (hG t hparse m hm) h

/-- A preserved property survives one line of an update. -/
theorem Preserved.updateInput (hP : Preserved G fuel acid P) {input : UpdateInput} (he : P e)
    (hG : G.Update acid e input) (h : e.updateInput fuel acid input = some e') : P e' := by
  unfold Engine.updateInput at h
  cases hparse : input.parse with
  | error err =>
    rw [hparse] at h
    exact Option.some.inj h ▸ he
  | ok t =>
    obtain ⟨i, amount, rate⟩ := t
    simp only [hparse, updateRead] at h
    by_cases hi : i ∉ e.orders
    · rw [if_pos hi] at h
      exact Option.some.inj h ▸ he
    · rw [if_neg hi] at h
      rw [not_not] at hi
      simp only [Option.bind_eq_bind, Option.bind_eq_some_iff] at h
      obtain ⟨o, ho, h⟩ := h
      obtain ⟨hcancel, hrate, hupdate⟩ := hG i amount rate hparse hi o ho
      by_cases hsmall : amount < 1
      · rw [if_pos hsmall] at h
        obtain ⟨⟨e₁, found⟩, h₁, h⟩ := Option.bind_eq_some_iff.mp h
        obtain rfl := Option.some.inj h
        exact hP.cancel he (Or.inl (hcancel hsmall)) h₁
      · rw [if_neg hsmall] at h
        have hpos := not_lt.mp hsmall
        by_cases hne : rate ≠ o.rate
        · -- the order is cancelled, and its amount is sold at the new rate
          rw [if_pos hne] at h
          simp only [Option.bind_eq_some_iff] at h
          obtain ⟨⟨e₁, found⟩, h₁, m, hm, h⟩ := h
          obtain ⟨hG₁, hG₂⟩ := hrate hpos hne
          have hkey : e₁.findMarket m.getKey = some m := by
            rw [← hm]
            exact congrArg _ (Keyed.key_of_get hm)
          exact hP.sell (hP.cancel he (Or.inl hG₁) h₁) hkey (UpdateInput.parse_nonneg hparse).2
            (by omega) (hG₂ e₁ found h₁ m hm) h
        · rw [if_neg hne] at h
          exact hP.update he hi hpos (hupdate hpos (not_not.mp hne)) h

/-- A preserved property survives the cancellation of an order. -/
theorem Preserved.cancelOrder (hP : Preserved G fuel acid P) {i : Id} (he : P e)
    (h : e.cancelOrder acid i = some e') : P e' := by
  unfold Engine.cancelOrder at h
  by_cases hi : i ∉ e.orders
  · rw [if_pos hi] at h
    exact Option.some.inj h ▸ he
  · rw [if_neg hi] at h
    simp only [Option.bind_eq_bind, Option.bind_eq_some_iff] at h
    obtain ⟨o, ho, h⟩ := h
    by_cases howner : o.accountId ≠ acid
    · rw [if_pos howner] at h
      exact Option.some.inj h ▸ he
    · rw [if_neg howner] at h
      obtain ⟨⟨e₁, found⟩, h₁, h⟩ := Option.bind_eq_some_iff.mp h
      obtain rfl := Option.some.inj h
      have hmine : (e.pool.live.lookup i).map Order.accountId = some acid := by
        rw [ho, Option.map_some, not_not.mp howner]
      exact hP.cancel he (Or.inr (Or.inl hmine)) h₁

/-- A preserved property survives the update of an order. -/
theorem Preserved.updateOrder (hP : Preserved G fuel acid P) {i : Id} {amount : Text} (he : P e)
    (hG : 1 ≤ encode amount → G.update e acid i (encode amount))
    (h : e.updateOrder acid i amount = some e') : P e' := by
  unfold Engine.updateOrder at h
  by_cases hsmall : encode amount < 1
  · rw [if_pos hsmall] at h
    exact hP.cancelOrder he h
  rw [if_neg hsmall] at h
  by_cases hi : i ∉ e.orders
  · rw [if_pos hi] at h
    exact Option.some.inj h ▸ he
  · rw [if_neg hi] at h
    rw [not_not] at hi
    simp only [Option.bind_eq_bind, Option.bind_eq_some_iff] at h
    obtain ⟨o, ho, h⟩ := h
    by_cases howner : o.accountId ≠ acid
    · rw [if_pos howner] at h
      exact Option.some.inj h ▸ he
    · rw [if_neg howner] at h
      exact hP.update he hi (not_lt.mp hsmall) (hG (not_lt.mp hsmall)) h

/-- A preserved property survives the cancellation of several orders. -/
theorem Preserved.cancelAllOrders (hP : Preserved G fuel acid P) {ids : List Id} (he : P e)
    (h : e.cancelAllOrders acid ids = some e') : P e' := by
  simp only [Engine.cancelAllOrders, Option.bind_eq_bind, Option.bind_eq_some_iff] at h
  obtain ⟨e₁, hrun, a, -, h⟩ := h
  split_ifs at h
  obtain rfl := Option.some.inj h
  refine run_invariant (C := fun _ _ => True) ?_ he ?_ hrun
  · intro e i e' he _ hstep
    simp only [cancelTracked, Option.bind_eq_bind, Option.bind_eq_some_iff] at hstep
    obtain ⟨a, ha, hstep⟩ := hstep
    split_ifs at hstep with hi
    obtain ⟨⟨e₂, found⟩, h₂, hstep⟩ := Option.bind_eq_some_iff.mp hstep
    dsimp only at hstep
    split_ifs at hstep
    obtain rfl := Option.some.inj hstep
    exact hP.cancel he (Or.inr (Or.inr ⟨a, ha, hi⟩)) h₂
  · exact AlongRun.trivial _ _

/-- **Parts rule.** What the parts preserve the operations on orders preserve. -/
theorem Preserved.execute (hP : Preserved G fuel acid P) {op : AccountOp}
    (hop : op.onOrders = true) (he : P e) (hG : G.Account fuel acid e op)
    (h : e.execute fuel acid op = some e') : P e' := by
  cases op with
  | trade input => exact run_invariant (fun e i e' he hG h => hP.tradeInput he hG h) he hG h
  | tradeLow input => exact run_invariant (fun e i e' he hG h => hP.tradeInput he hG h) he hG h
  | update input => exact run_invariant (fun e i e' he hG h => hP.updateInput he hG h) he hG h
  | updateOrder i amount => exact hP.updateOrder he hG h
  | cancelOrder i => exact hP.cancelOrder he h
  | cancelAllOrders ids => exact hP.cancelAllOrders he h
  | _ => cases hop

end Engine

end AcCore.Tex.Cex
