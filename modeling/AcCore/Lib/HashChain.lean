import Mathlib.Data.List.Basic

/-!
# Chains of blocks

Every block of a chain names the digest of the block before it. The digest of the latest
block commits to the whole chain: two chains with one tip have the same contents, or two
of their blocks have different contents and one digest, or a block has the digest that
stands for no block. Chains are lists with the latest block first.
-/

namespace AcCore.Lib

/-- How blocks are chained: what is digested of a block, its digest, the digest that it
names, and the one that the first block names. -/
structure Chaining (β τ δ : Type*) where
  content : β → τ
  digest : τ → δ
  prev : β → δ
  origin : δ
  /-- What a block names is a part of what is digested. -/
  prev_eq : ∀ {b b'}, content b = content b' → prev b = prev b'

namespace Chaining

variable {β τ δ σ : Type*} (c : Chaining β τ δ)

/-- The digest of the latest block. -/
def tip : List β → δ
  | [] => c.origin
  | b :: _ => c.digest (c.content b)

/-- Every block names the one before it. -/
def Chained : List β → Prop
  | [] => True
  | b :: bs => c.prev b = c.tip bs ∧ Chained bs

/-- Two blocks of one digest that are not the same. -/
def Clash (b b' : β) : Prop :=
  c.content b ≠ c.content b' ∧ c.digest (c.content b) = c.digest (c.content b')

/-- A failure of the digest that shows in two chains: two blocks clash, or the digest of a
block stands for no block. -/
def Broken (bs bs' : List β) : Prop :=
  (∃ b ∈ bs, ∃ b' ∈ bs', c.Clash b b') ∨
    ∃ b ∈ bs ++ bs', c.digest (c.content b) = c.origin

variable {c}

/-- A collision stays one in longer chains. -/
theorem Broken.cons {bs bs' : List β} (h : c.Broken bs bs') (b b' : β) :
    c.Broken (b :: bs) (b' :: bs') := by
  obtain ⟨x, hx, x', hx', hclash⟩ | ⟨x, hx, horigin⟩ := h
  · exact .inl ⟨x, List.mem_cons_of_mem b hx, x', List.mem_cons_of_mem b' hx', hclash⟩
  · refine .inr ⟨x, ?_, horigin⟩
    obtain hx | hx := List.mem_append.mp hx
    · exact List.mem_append_left _ (List.mem_cons_of_mem b hx)
    · exact List.mem_append_right _ (List.mem_cons_of_mem b' hx)

/-- The tip commits to the contents of the chain. -/
theorem contents_eq_or_broken {bs bs' : List β} (h : c.Chained bs) (h' : c.Chained bs')
    (htip : c.tip bs = c.tip bs') :
    bs.map c.content = bs'.map c.content ∨ c.Broken bs bs' := by
  induction bs generalizing bs' with
  | nil =>
    cases bs' with
    | nil => exact .inl rfl
    | cons b' bs' => exact .inr (.inr ⟨b', List.mem_cons_self, htip.symm⟩)
  | cons b bs ih =>
    cases bs' with
    | nil => exact .inr (.inr ⟨b, List.mem_cons_self, htip⟩)
    | cons b' bs' =>
      by_cases hcontent : c.content b = c.content b'
      · -- the two blocks name one block, so that the chains before them have one tip
        have hbefore : c.tip bs = c.tip bs' := by
          rw [← h.1, ← h'.1]
          exact c.prev_eq hcontent
        obtain hrest | hbroken := ih h.2 h'.2 hbefore
        · exact .inl (by rw [List.map_cons, List.map_cons, hcontent, hrest])
        · exact .inr (hbroken.cons b b')
      · exact .inr (.inl ⟨b, List.mem_cons_self, b', List.mem_cons_self, hcontent, htip⟩)

/-! ## What a chain does -/

variable (c)

/-- The state after a chain, when a block acts on the state after the chain before it and
may depend on the tip of that. -/
def replay (act : δ → β → σ → σ) (start : σ) : List β → σ
  | [] => start
  | b :: bs => act (c.tip bs) b (replay act start bs)

variable {c}

/-- Chains of the same contents do the same. -/
theorem replay_congr {act : δ → β → σ → σ}
    (hact : ∀ {b b'} t s, c.content b = c.content b' → act t b s = act t b' s) (start : σ)
    {bs bs' : List β} (h : bs.map c.content = bs'.map c.content) :
    c.replay act start bs = c.replay act start bs' := by
  induction bs generalizing bs' with
  | nil => rw [List.map_eq_nil_iff.mp h.symm]
  | cons b bs ih =>
    obtain ⟨b', bs', rfl, hb, hbs⟩ := List.map_eq_cons_iff.mp h.symm
    have htip : c.tip bs = c.tip bs' := by
      cases bs with
      | nil => rw [List.map_eq_nil_iff.mp hbs]
      | cons x bs =>
        obtain ⟨x', bs', rfl, hx, -⟩ := List.map_eq_cons_iff.mp hbs
        rw [tip, tip, hx]
    rw [replay, replay, ih hbs.symm, htip]
    exact hact _ _ hb.symm

/-- The tip of a chain commits to the state after it. -/
theorem replay_eq_or_broken {act : δ → β → σ → σ}
    (hact : ∀ {b b'} t s, c.content b = c.content b' → act t b s = act t b' s) (start : σ)
    {bs bs' : List β} (h : c.Chained bs) (h' : c.Chained bs') (htip : c.tip bs = c.tip bs') :
    c.replay act start bs = c.replay act start bs' ∨ c.Broken bs bs' :=
  (contents_eq_or_broken h h' htip).imp_left (replay_congr hact start)

end Chaining

end AcCore.Lib
