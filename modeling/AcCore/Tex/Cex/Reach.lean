import AcCore.Tex.Cex.Amends
import AcCore.Tex.Cex.Sells
import AcCore.Tex.Cex.Steps

/-!
# The reachable states of the exchange

The books are consistent in every state that is reached by operations of any
accounts, whatever goes wrong in them.
-/

namespace AcCore.Tex.Cex

open Lib

/-- What the operations that are not on orders do to an account. -/
inductive AccountChange : (Account → Account) → Prop
  | newWallet (cid : Cur) : AccountChange (·.newWallet cid)
  | deleteWallet (cid : Cur) : AccountChange (·.deleteWallet cid)
  | deleteAllWallets : AccountChange (·.deleteAllWallets)
  | deposit (cid : Cur) {amount : ℤ} (h : 0 < amount) : AccountChange (·.deposit cid amount)
  | withdraw (cid : Cur) {amount : ℤ} (h : 0 < amount) :
      AccountChange fun a => (a.withdraw cid amount).2
  | discount (d : ℚ) : AccountChange (·.setCommissionDiscount d)

namespace AccountChange

variable {f : Account → Account}

/-- Deleting wallets leaves the orders and the discount. -/
theorem orders_foldl (l : List Cur) (a : Account) :
    (l.foldl Account.deleteWallet a).orders = a.orders ∧
      (l.foldl Account.deleteWallet a).commissionDiscount = a.commissionDiscount := by
  induction l generalizing a with
  | nil => exact ⟨rfl, rfl⟩
  | cons c l ih =>
    have hone : (a.deleteWallet c).orders = a.orders ∧
        (a.deleteWallet c).commissionDiscount = a.commissionDiscount := by
      unfold Account.deleteWallet
      split
      · exact ⟨rfl, rfl⟩
      · split_ifs <;> exact ⟨rfl, rfl⟩
    rw [List.foldl_cons]
    exact ⟨(ih _).1.trans hone.1, (ih _).2.trans hone.2⟩

/-- No orders are tracked or untracked. -/
theorem orders (hf : AccountChange f) (a : Account) : (f a).orders = a.orders := by
  cases hf with
  | newWallet cid => rfl
  | deleteWallet cid => exact (orders_foldl [cid] a).1
  | deleteAllWallets => exact (orders_foldl _ a).1
  | deposit cid h => rfl
  | withdraw cid h => exact (Account.withdraw_other _ _ _).2
  | discount d =>
    unfold Account.setCommissionDiscount
    split_ifs <;> rfl

end AccountChange

/-- A ruler lists positive rates only. -/
theorem RulerDef.pos_of_lists {min max increment r : ℤ} (hinc : 0 < increment)
    (h : (RulerDef.update min max increment).Lists r) : 0 < r := by
  have hmin := h.1
  unfold RulerDef.update at hmin
  dsimp only at hmin
  split_ifs at hmin with hsmall <;> omega

namespace Market

/-- A new market is well formed. -/
theorem Ok.sampleMarket {p : OrderPool} {weakcur strongcur : Cur} (hne : weakcur ≠ strongcur)
    (min max : ℤ) : (Engine.sampleMarket weakcur strongcur min max).Ok p where
  front weak := by cases weak <;> exact Front.Ok.create p _ _
  invert weak := by cases weak <;> rfl
  ne := hne
  ruler r := RulerDef.pos_of_lists (by decide)
  nodup := List.nodup_nil

end Market

namespace Engine

variable {e e' : Engine} {acid : Id} {fuel : ℕ} {hash : Text → UInt64}

/-! ## Operations that are not on orders -/

/-- An operation that is not on orders changes its account at most. -/
theorem execute_account [Rounding] {op : AccountOp} (hop : op.onOrders = false)
    (h : e.execute fuel acid op = some e') :
    e' = e ∨ ∃ f, AccountChange f ∧ e.modifyAccount acid f = some e' := by
  cases op with
  | newWallet cid =>
    simp only [Engine.execute] at h
    split_ifs at h
    · exact Or.inr ⟨_, .newWallet cid, h⟩
    · exact Or.inl (Option.some.inj h).symm
  | deleteWallet cid =>
    simp only [Engine.execute] at h
    split_ifs at h
    · exact Or.inr ⟨_, .deleteWallet cid, h⟩
    · exact Or.inl (Option.some.inj h).symm
  | deleteAllWallets => exact Or.inr ⟨_, .deleteAllWallets, h⟩
  | deposit cid amount =>
    simp only [Engine.execute] at h
    split_ifs at h
    · exact Or.inl (Option.some.inj h).symm
    · cases hparse : parseAmount amount with
      | error err =>
        rw [hparse] at h
        exact Or.inl (Option.some.inj h).symm
      | ok credited =>
        rw [hparse] at h
        exact Or.inr ⟨_, .deposit cid (parseAmount_pos hparse), h⟩
  | withdraw cid amount =>
    simp only [Engine.execute] at h
    split_ifs at h
    · exact Or.inl (Option.some.inj h).symm
    · cases hparse : parseAmount amount with
      | error err =>
        rw [hparse] at h
        exact Or.inl (Option.some.inj h).symm
      | ok debited =>
        rw [hparse] at h
        exact Or.inr ⟨_, .withdraw cid (parseAmount_pos hparse), h⟩
  | _ => cases hop

/-- Writing to an account leaves the books as they are. -/
theorem sameBooks_of_modify {f : Account → Account} (hf : ∀ a, (f a).orders = a.orders)
    (h : e.modifyAccount acid f = some e') : SameBooks e e' := by
  obtain ⟨a, ha, rfl⟩ := modifyAccount_eq h
  refine ⟨rfl, rfl, rfl, rfl, rfl, fun b => ?_⟩
  rw [tracked_insert rfl]
  split_ifs with hb
  · rw [hb, tracked_of_lookup ha, hf]
  · rfl

/-- A ruler is written to a market without its orders. -/
theorem setRuler_spec {cid1 cid2 : Cur} {min max : ℤ} {increment : Option ℤ} (he : e.Ok)
    (h : e.setRuler cid1 cid2 min max increment = some e') :
    e'.Ok ∧ e'.listing = e.listing ∧ e'.pool = e.pool ∧ e'.orders = e.orders ∧
      e'.accounts = e.accounts ∧ e'.nextAccount = e.nextAccount := by
  unfold setRuler at h
  cases hm : e.findMarket (marketKey cid1 cid2) with
  | none =>
    rw [hm] at h
    obtain rfl := Option.some.inj h
    exact ⟨he, rfl, rfl, rfl, rfl, rfl⟩
  | some m =>
    simp only [hm, Option.map_eq_some_iff, Market.setRuler] at h
    obtain ⟨m', hm', rfl⟩ := h
    split_ifs at hm' with hinc
    obtain rfl := Option.some.inj hm'
    set m' : Market := { m with rulerDef := RulerDef.update min max (increment.getD
      m.rulerDef.increment) } with hdef
    have hmOk := he.markets m (Keyed.mem_of_get hm)
    have hfound : e.findMarket m'.getKey = some m := by
      rw [show m'.getKey = m.getKey from rfl, ← hm]
      exact congrArg _ (Keyed.key_of_get hm)
    have hlisting : (e.setMarket m').listing = e.listing := by
      unfold listing setMarket Keyed.put
      rw [List.flatMap_map]
      refine List.flatMap_congr fun m₁ hm₁ => ?_
      split_ifs with hkey
      · have hsame : m₁ = m := List.inj_on_of_nodup_map he.keys hm₁ (Keyed.mem_of_get hm) hkey
        rw [hsame]
        rfl
      · rfl
    have hok : m'.Ok e.pool :=
      ⟨hmOk.front, hmOk.invert, hmOk.ne, fun r => RulerDef.pos_of_lists hinc, hmOk.nodup⟩
    have hnodup : ((e.setMarket m').listing.map Place.id).Nodup := hlisting ▸ he.nodup
    refine ⟨⟨?_, fun s hs => he.placed s (hlisting ▸ hs)⟩, hlisting, rfl, rfl, rfl, rfl⟩
    exact he.toMarketsOk.setMarket hfound hok he.pool le_rfl (fun _ _ _ => rfl) hnodup

/-! ## The books in a run -/

/-- The first engine is well formed. -/
theorem Ok.init (hash : Text → UInt64) : (init hash).Ok := by
  have hmarkets : (Engine.init hash).markets = [sampleMarket eur gbp 100000 200000,
      sampleMarket usd eur 70000 150000, sampleMarket aud eur 100000 200000,
      sampleMarket usd gbp 100000 200000, sampleMarket aud gbp 150000 250000,
      sampleMarket aud usd 100000 200000] := rfl
  have hlisting : (Engine.init hash).listing = [] := by
    rw [listing, hmarkets]
    rfl
  refine ⟨⟨?_, ?_, ?_, ?_⟩, ?_⟩
  · intro i o ho
    simp [Engine.init, newAccount] at ho
  · rw [hmarkets]
    decide
  · intro m hm
    rw [hmarkets] at hm
    simp only [List.mem_cons, List.not_mem_nil, or_false] at hm
    rcases hm with rfl | rfl | rfl | rfl | rfl | rfl <;>
      exact Market.Ok.sampleMarket (by decide) _ _
  · rw [hlisting]
    exact List.nodup_nil
  · rw [hlisting]
    simp

/-- Cancelling keeps the engine well formed. -/
theorem Ok.cancel {found : Bool} (he : e.Ok) (h : e.cancel acid i = some (e', found)) : e'.Ok := by
  obtain ⟨o, -, ⟨-, rfl, -⟩ | ⟨s, -, -, -, hcancelled⟩⟩ := cancel_spec he h
  · exact he
  · exact hcancelled.moved.ok

/-- The parts keep the books consistent, whatever goes wrong in them. -/
theorem Ok.preserved [Rounding] {G : Guards} (fuel : ℕ) (acid : Id) : Preserved G fuel acid Ok where
  sell he hm _ _ _ h := by
    obtain ⟨a, -,
        ⟨-, rfl⟩ | ⟨w, _, _, _, _, y, gone, -, -, ⟨-, made, -, hsold⟩ | ⟨-, -, hfailed⟩⟩⟩ :=
      sell_spec he hm h
    · exact he
    · exact hsold.moved.ok
    · exact hfailed.ok
  cancel he _ h := he.cancel h
  update he _ _ _ h := by
    obtain ⟨o, -, ⟨hsame, -, -⟩ | ⟨-, -, s, -, -, hresized⟩⟩ := updateAmount_spec he h
    · exact hsame.ok he
    · exact hresized.moved.ok

/-- No guards at all. -/
def Guards.none : Guards := ⟨fun _ _ _ _ _ _ _ _ => True, fun _ _ _ => True, fun _ _ _ _ => True⟩

/-- Every operation meets no guards. -/
theorem Guards.none_account [Rounding] (op : AccountOp) : Guards.none.Account fuel acid e op := by
  have htrade : ∀ (priLow : Bool) (input : List TradeInput),
      AlongRun (tradeInput fuel acid priLow) (Guards.none.Trade acid priLow) e input :=
    fun priLow input => (AlongRun.trivial e input).imp fun _ _ _ _ _ _ _ => True.intro
  cases op with
  | trade input => exact htrade false input
  | tradeLow input => exact htrade true input
  | update input =>
    exact (AlongRun.trivial e input).imp fun _ _ _ _ _ _ _ _ _ _ =>
      ⟨fun _ => True.intro, fun _ _ => ⟨True.intro, fun _ _ _ _ _ => True.intro⟩,
        fun _ _ => True.intro⟩
  | updateOrder i amount => exact fun _ => True.intro
  | _ => exact True.intro

/-- The operations of an account keep the books consistent. -/
theorem Ok.execute [Rounding] (he : e.Ok) {op : AccountOp}
    (h : e.execute fuel acid op = some e') : e'.Ok := by
  cases hop : op.onOrders with
  | true => exact (Ok.preserved fuel acid).execute hop he (Guards.none_account op) h
  | false =>
    rcases execute_account hop h with rfl | ⟨f, hf, h⟩
    · exact he
    · exact (sameBooks_of_modify hf.orders h).ok he

/-- Every operation keeps the engine well formed. -/
theorem Ok.step [Rounding] (he : e.Ok) {op : Op} (h : step hash fuel e op = some e') : e'.Ok := by
  cases op with
  | api acid pwd op =>
    simp only [Engine.step] at h
    split_ifs at h
    · exact he.execute h
    · exact Option.some.inj h ▸ he
  | newAccount pwd =>
    obtain rfl := Option.some.inj h
    unfold newAccount
    split_ifs
    · exact he
    · exact he.congr_value rfl he.pool le_rfl fun _ _ => rfl
  | setCommissionDiscount acid d =>
    simp only [Engine.step] at h
    split at h
    · exact Option.some.inj h ▸ he
    · exact (sameBooks_of_modify (AccountChange.discount d).orders h).ok he
  | setRuler cid1 cid2 min max increment => exact (setRuler_spec he h).1
  | autoMatchIsNotFree =>
    obtain rfl := Option.some.inj h
    exact he.congr_value rfl he.pool le_rfl fun _ _ => rfl

/-- An operation is one on orders, of an account, or it leaves the orders where they are. -/
theorem Ok.step_cases [Rounding] (he : e.Ok) {op : Op} (h : Engine.step hash fuel e op = some e') :
    (∃ acid pwd aop, op = .api acid pwd aop ∧ e.auth hash acid pwd = true ∧
      aop.onOrders = true ∧ e.execute fuel acid aop = some e') ∨ e'.listing = e.listing := by
  have hsame : ∀ {e₁ : Engine}, SameBooks e e₁ → e₁.listing = e.listing := fun h => by
    rw [Engine.listing, h.markets, ← Engine.listing]
  cases op with
  | api acid pwd op =>
    simp only [Engine.step] at h
    split_ifs at h with hauth
    · cases hop : op.onOrders with
      | true => exact Or.inl ⟨acid, pwd, op, rfl, hauth, hop, h⟩
      | false =>
        rcases execute_account hop h with rfl | ⟨f, hf, h⟩
        · exact Or.inr rfl
        · exact Or.inr (hsame (sameBooks_of_modify hf.orders h))
    · exact Or.inr (Option.some.inj h ▸ rfl)
  | newAccount pwd =>
    obtain rfl := Option.some.inj h
    unfold newAccount
    split_ifs <;> exact Or.inr rfl
  | setCommissionDiscount acid d =>
    simp only [Engine.step] at h
    split at h
    · exact Or.inr (Option.some.inj h ▸ rfl)
    · exact Or.inr (hsame (sameBooks_of_modify (AccountChange.discount d).orders h))
  | setRuler cid1 cid2 min max increment => exact Or.inr (setRuler_spec he h).2.1
  | autoMatchIsNotFree => exact Or.inr (Option.some.inj h ▸ rfl)

/-- **The books are consistent in every reachable state.** -/
theorem ok_of_run [Rounding] {ops : List Op} (h : run (step hash fuel) (init hash) ops = some e) :
    e.Ok :=
  run_invariant (C := fun _ _ => True) (fun _ _ _ he _ h => he.step h) (Ok.init hash)
    (AlongRun.trivial _ _) h

end Engine

end AcCore.Tex.Cex
