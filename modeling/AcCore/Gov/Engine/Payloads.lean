import AcCore.Gov.Engine.DiffCodec
import AcCore.Gov.Engine.Evidence

/-!
# Which payloads the parsers survive

The parsers of contributions, blocks and account queries take counts and the ids
of apps from the stream as they come. This file describes the payloads for which
they return, as what can be derived from a grammar of these numbers.
-/

namespace AcCore.Gov.Engine

open Lib Cash

variable {PubKey : Type} (ec : Ec PubKey) (debug : Bool) (limit : ℕ)

/-- The datagrams whose payload is read from a stream. -/
inductive PayloadKind where
  | localDeltas
  | block
  | cashQuery

/-- The parser of the payload returns a value, or rejects it. -/
def Returns (kind : PayloadKind) (d : Datagram) : Prop :=
  match kind with
  | .localDeltas => (LocalDeltas.fromStream ec debug limit (some d.parseString)).isSome
  | .block => (Diff.fromStream debug (some d.parseString)).isSome
  | .cashQuery => (queryAccountsFromString limit d.parseString).isSome

/-- Whether a payload is read is decided kind by kind. -/
instance (kind : PayloadKind) (d : Datagram) : Decidable (Returns ec debug limit kind d) := by
  unfold Returns
  cases kind <;> infer_instance

/-- A number can be read from the stream. -/
def Number (s : Option Text) (n : ℤ) (s' : Option Text) : Prop := extractInt none s = some (n, s')

/-- Sections of apps can be read: each begins with the id of an app and a count
that fits. In a build without assertions other ids are passed over. -/
inductive Sections (debug : Bool) (fits : ℤ → Prop)
    (afterAuth afterCash : ℕ → Option Text → Option Text) : ℕ → Option Text → Prop where
  | done (s : Option Text) : Sections debug fits afterAuth afterCash 0 s
  | auth {n : ℕ} {m : ℤ} {s s₁ s₂ : Option Text} (hid : Number s Auth.appId s₁)
      (hcount : Number s₁ m s₂) (hfits : fits m)
      (hrest : Sections debug fits afterAuth afterCash n (afterAuth m.toNat s₂)) :
      Sections debug fits afterAuth afterCash (n + 1) s
  | cash {n : ℕ} {m : ℤ} {s s₁ s₂ : Option Text} (hid : Number s Cash.appId s₁)
      (hcount : Number s₁ m s₂)
      (hrest : Sections debug fits afterAuth afterCash n (afterCash m.toNat s₂)) :
      Sections debug fits afterAuth afterCash (n + 1) s
  | other {n : ℕ} {appid : ℤ} {s s₁ : Option Text} (hid : Number s appid s₁)
      (hauth : appid ≠ Auth.appId) (hcash : appid ≠ Cash.appId) (hdebug : debug = false)
      (hrest : Sections debug fits afterAuth afterCash n s₁) :
      Sections debug fits afterAuth afterCash (n + 1) s

/-- What is left after the candidates and the votes of the auth app. -/
def afterAuth (n : ℕ) (s : Option Text) : Option Text :=
  (extractPolicies 2 (extractMany Auth.extractCandidate n s).2).2

/-- What is left after the accounts, the fees and the votes of the cash app. -/
def afterCash (n : ℕ) (s : Option Text) : Option Text :=
  (extractPolicies 1 (extractInt64 (extractMany extractEntry n s).2).2).2

/-- What can be reserved for a count. -/
def Reservable (n : ℤ) : Prop := (n % 2 ^ 64).toNat ≤ limit

/-- Whether a count can be reserved is decided by comparing it. -/
instance : DecidablePred (Reservable limit) := fun _ => inferInstanceAs (Decidable (_ ≤ _))

/-- The payload has its counts and ids where they are read. -/
def WellCounted (kind : PayloadKind) (d : Datagram) : Prop :=
  match kind with
  | .localDeltas =>
    let s := (extractPubKey ec (some d.parseString)).2
    (extract s).1 = [] ∨ ∃ n s', Number (extract s).2 n s' ∧
      Sections debug (Reservable limit) afterAuth afterCash n.toNat s'
  | .block =>
    ∃ n s', Number (extractHash (some d.parseString)).2 n s' ∧
      Sections debug (fun _ => True) afterAuth
        (fun n s => (extractPolicies 1 (afterCash n s)).2) n.toNat s'
  | .cashQuery => ∃ n s', Number (some d.parseString) n s' ∧ Reservable limit n

/-! ## The loop over the apps -/

/-- A reader of a section reads a count, fails unless it fits, and leaves what
comes after that many entries. -/
def Leaves {α : Type} (read : Option Text → Option (α × Option Text)) (fits : ℤ → Prop)
    (after : ℕ → Option Text → Option Text) : Prop :=
  ∀ s s', (∃ x, read s = some (x, s')) ↔
    ∃ n s₁, Number s n s₁ ∧ fits n ∧ s' = after n.toNat s₁

variable {fits : ℤ → Prop} {auth' cash' : ℕ → Option Text → Option Text} {debug}

/-- The number that is read decides how a list of sections begins. -/
theorem sections_succ_iff {n : ℕ} {appid : ℤ} {s s₁ : Option Text} (h : Number s appid s₁) :
    Sections debug fits auth' cash' (n + 1) s ↔
      (appid = Auth.appId ∧ ∃ m s₂, (Number s₁ m s₂ ∧ fits m) ∧
        Sections debug fits auth' cash' n (auth' m.toNat s₂)) ∨
      (appid = Cash.appId ∧ ∃ m s₂, Number s₁ m s₂ ∧
        Sections debug fits auth' cash' n (cash' m.toNat s₂)) ∨
      (appid ≠ Auth.appId ∧ appid ≠ Cash.appId ∧ debug = false ∧
        Sections debug fits auth' cash' n s₁) := by
  have hsame : ∀ {appid' s₁'}, Number s appid' s₁' → appid' = appid ∧ s₁' = s₁ := by
    intro appid' s₁' h'
    exact Prod.mk.inj (Option.some.inj (h'.symm.trans h))
  constructor
  · intro hsections
    cases hsections with
    | auth hid hcount hfits hrest =>
      obtain ⟨rfl, rfl⟩ := hsame hid
      exact Or.inl ⟨rfl, _, _, ⟨hcount, hfits⟩, hrest⟩
    | cash hid hcount hrest =>
      obtain ⟨rfl, rfl⟩ := hsame hid
      exact Or.inr (Or.inl ⟨rfl, _, _, hcount, hrest⟩)
    | other hid hauth hcash hdebug hrest =>
      obtain ⟨rfl, rfl⟩ := hsame hid
      exact Or.inr (Or.inr ⟨hauth, hcash, hdebug, hrest⟩)
  · rintro (⟨rfl, m, s₂, ⟨hcount, hfits⟩, hrest⟩ | ⟨rfl, m, s₂, hcount, hrest⟩ |
      ⟨hauth, hcash, hdebug, hrest⟩)
    · exact .auth h hcount hfits hrest
    · exact .cash h hcount hrest
    · exact .other h hauth hcash hdebug hrest

/-- Where sections are read a number was read first. -/
theorem exists_number_of_sections {n : ℕ} {s : Option Text}
    (h : Sections debug fits auth' cash' (n + 1) s) : ∃ appid s₁, Number s appid s₁ := by
  cases h with
  | auth hid => exact ⟨_, _, hid⟩
  | cash hid => exact ⟨_, _, hid⟩
  | other hid => exact ⟨_, _, hid⟩

/-- What follows a section is read where the section leaves the stream. -/
theorem bind_isSome_iff {α γ : Type} {read : Option Text → Option (α × Option Text)}
    {after : ℕ → Option Text → Option Text} (hread : Leaves read fits after) (s : Option Text)
    {next : α → Option Text → Option γ} {P : Option Text → Prop}
    (hnext : ∀ x s', (next x s').isSome ↔ P s') :
    ((read s).bind fun r => next r.1 r.2).isSome ↔
      ∃ m s₂, (Number s m s₂ ∧ fits m) ∧ P (after m.toNat s₂) := by
  rw [Option.isSome_bind, Option.any_eq_true]
  constructor
  · rintro ⟨⟨x, s'⟩, hx, hsome⟩
    obtain ⟨m, s₂, hm, hfits, rfl⟩ := (hread s s').mp ⟨x, hx⟩
    exact ⟨m, s₂, ⟨hm, hfits⟩, (hnext x _).mp hsome⟩
  · rintro ⟨m, s₂, ⟨hm, hfits⟩, hP⟩
    obtain ⟨x, hx⟩ := (hread s _).mpr ⟨m, s₂, hm, hfits, rfl⟩
    exact ⟨(x, _), hx, (hnext x _).mpr hP⟩

/-- The loop over the apps returns exactly for a text with sections. -/
theorem readSections_isSome_iff {α β : Type} {auth : Option Text → Option (α × Option Text)}
    {cash : Option Text → Option (β × Option Text)} (hauth : Leaves auth fits auth')
    (hcash : Leaves cash (fun _ => True) cash') (n : ℕ) (found : Option α × Option β)
    (s : Option Text) :
    (readSections debug auth cash n found s).isSome ↔ Sections debug fits auth' cash' n s := by
  induction n generalizing found s with
  | zero => exact ⟨fun _ => .done s, fun _ => rfl⟩
  | succ n ih =>
    obtain ⟨a, c⟩ := found
    cases hnumber : extractInt none s with
    | none =>
      refine iff_of_false (by simp [readSections, hnumber]) fun h => ?_
      obtain ⟨appid, s₁, hid⟩ := exists_number_of_sections h
      rw [Number, hnumber] at hid
      cases hid
    | some r =>
      obtain ⟨appid, s₁⟩ := r
      rw [sections_succ_iff hnumber]
      simp only [readSections, hnumber, Option.bind_eq_bind, Option.bind_some]
      have hdistinct : (Auth.appId : ℤ) ≠ Cash.appId := by decide
      split_ifs with hauthId hcashId hdebug
      · rw [bind_isSome_iff hauth s₁ fun x s' => ih (a.or (some x), c) s']
        simp [hauthId, hdistinct]
      · rw [bind_isSome_iff hcash s₁ fun x s' => ih (a, c.or (some x)) s']
        simp [hcashId, hdistinct.symm]
      · simp [hauthId, hcashId, hdebug]
      · simpa [hauthId, hcashId, hdebug] using ih (a, c) s₁

/-! ## The readers of the sections -/

/-- A reader that takes a count, and fails unless the count fits. -/
theorem leaves_of_eq {α : Type} {read : Option Text → Option (α × Option Text)}
    {after : ℕ → Option Text → Option Text} [DecidablePred fits] (x : ℤ × Option Text → α)
    (h : ∀ s, read s = (extractInt none s).bind fun r =>
      if fits r.1 then some (x r, after r.1.toNat r.2) else none) : Leaves read fits after := by
  intro s s'
  rw [h]
  constructor
  · rintro ⟨y, hy⟩
    obtain ⟨⟨n, s₁⟩, hn, hy⟩ := Option.bind_eq_some_iff.mp hy
    obtain ⟨hfits, hy⟩ := Option.ite_none_right_eq_some.mp hy
    exact ⟨n, s₁, hn, hfits, (congrArg Prod.snd (Option.some.inj hy)).symm⟩
  · rintro ⟨n, s₁, hn, hfits, rfl⟩
    refine ⟨x (n, s₁), Option.bind_eq_some_iff.mpr ⟨(n, s₁), hn, ?_⟩⟩
    rw [if_pos hfits]

/-- What reading the auth part of a contribution leaves of the stream. -/
theorem leaves_authLocalDelta :
    Leaves (Auth.LocalDelta.fromStream limit) (Reservable limit) afterAuth := by
  refine leaves_of_eq (fun r => ⟨(extractPolicies 2 (extractMany Auth.extractCandidate r.1.toNat
    r.2).2).1, (extractMany Auth.extractCandidate r.1.toNat r.2).1⟩) fun s => ?_
  unfold Auth.LocalDelta.fromStream
  congr 1
  funext r
  obtain ⟨n, s₁⟩ := r
  by_cases hfits : Reservable limit n
  · have hreserve : reserve limit n = some () := if_pos hfits
    simp only [if_pos hfits, hreserve]
    rfl
  · have hreserve : reserve limit n = none := if_neg hfits
    simp only [if_neg hfits, hreserve]
    rfl

/-- What reading the auth section of a diff leaves of the stream. -/
theorem leaves_authDelta : Leaves Auth.Delta.fromStream (fun _ => True) afterAuth := by
  refine leaves_of_eq (fun r => ⟨⟨(extractPolicies 2 (extractMany Auth.extractCandidate r.1.toNat
    r.2).2).1, 0⟩, emplaced (extractMany Auth.extractCandidate r.1.toNat r.2).1⟩) fun s => ?_
  unfold Auth.Delta.fromStream
  congr 1

/-- What is read of the cash app after the count. -/
def cashLocalDelta (r : ℤ × Option Text) : LocalDelta :=
  let (accounts, s) := extractMany extractEntry r.1.toNat r.2
  ⟨(extractPolicies 1 (extractInt64 s).2).1, emplaced accounts, (extractInt64 s).1.toInt⟩

/-- Reading the cash part of a contribution. -/
theorem cashLocalDelta_eq (s : Option Text) :
    LocalDelta.fromStream s = (extractInt none s).bind fun r =>
      some (cashLocalDelta r, afterCash r.1.toNat r.2) := rfl

/-- What reading the cash part of a contribution leaves of the stream. -/
theorem leaves_cashLocalDelta : Leaves LocalDelta.fromStream (fun _ => True) afterCash :=
  leaves_of_eq cashLocalDelta cashLocalDelta_eq

/-- What reading the cash section of a diff leaves of the stream. -/
theorem leaves_cashDelta : Leaves Cash.Delta.fromStream (fun _ => True)
    fun n s => (extractPolicies 1 (afterCash n s)).2 := by
  refine leaves_of_eq (fun r => ⟨⟨(extractPolicies 1 (afterCash r.1.toNat r.2)).1, 0⟩,
    cashLocalDelta r, ∅⟩) fun s => ?_
  unfold Cash.Delta.fromStream
  rw [cashLocalDelta_eq]
  cases extractInt none s <;> rfl

/-! ## The payloads -/

/-- A number is always read into a variable that holds one. -/
theorem exists_extractInt (old : ℤ) (s : Option Text) :
    ∃ n s', extractInt (some old) s = some (n, s') := by
  cases s with
  | none => exact ⟨_, _, rfl⟩
  | some s =>
    simp only [extractInt, Option.map_some]
    split_ifs
    · exact ⟨_, _, rfl⟩
    · split
      · exact ⟨_, _, rfl⟩
      · split_ifs <;> exact ⟨_, _, rfl⟩

/-- What follows a count that is read into a new variable. -/
theorem bind_number_isSome_iff {γ : Type} {s : Option Text} {next : ℤ × Option Text → Option γ}
    {P : ℤ → Option Text → Prop} (hnext : ∀ n s', (next (n, s')).isSome ↔ P n s') :
    ((extractInt none s).bind next).isSome ↔ ∃ n s', Number s n s' ∧ P n s' := by
  rw [Option.isSome_bind, Option.any_eq_true]
  constructor
  · rintro ⟨⟨n, s'⟩, hn, hsome⟩
    exact ⟨n, s', hn, (hnext n s').mp hsome⟩
  · rintro ⟨n, s', hn, hP⟩
    exact ⟨(n, s'), hn, (hnext n s').mpr hP⟩

/-- A total function after an optional value is defined where the value is. -/
theorem bind_isSome_of_total {α β : Type} {f : α → Option β} (hf : ∀ a, (f a).isSome)
    (x : Option α) : (x.bind f).isSome = x.isSome := by
  cases x with
  | none => rfl
  | some a => exact hf a

/-- A list of sections whose count is negative has none. -/
theorem sections_of_neg {n : ℤ} (h : n < 0) (s : Option Text) :
    Sections debug fits auth' cash' n.toNat s := by
  rw [Int.toNat_of_nonpos h.le]
  exact .done s

/-- **Payloads.** The parser of a payload returns exactly when the payload has
its counts and the ids of apps where they are read, and no count for which
nothing can be reserved. -/
theorem returns_iff (kind : PayloadKind) (d : Datagram) :
    Returns ec debug limit kind d ↔ WellCounted ec debug limit kind d := by
  cases kind with
  | localDeltas =>
    simp only [Returns, WellCounted, LocalDeltas.fromStream, Option.bind_eq_bind]
    split_ifs with hsignature
    · exact iff_of_true rfl (Or.inl hsignature)
    · rw [or_iff_right hsignature]
      refine bind_number_isSome_iff fun n s' => ?_
      dsimp only
      split_ifs with hneg
      · exact iff_of_true rfl (sections_of_neg hneg s')
      · rw [← readSections_isSome_iff (leaves_authLocalDelta limit) leaves_cashLocalDelta n.toNat
          (none, none) s', bind_isSome_of_total fun _ => rfl]
  | block =>
    simp only [Returns, WellCounted, Diff.fromStream, Option.bind_eq_bind]
    refine bind_number_isSome_iff fun n s' => ?_
    dsimp only
    split_ifs with hneg
    · exact iff_of_true rfl (sections_of_neg hneg s')
    · rw [← readSections_isSome_iff leaves_authDelta leaves_cashDelta n.toNat (none, none) s',
        bind_isSome_of_total fun r => ?_]
      -- the second count is read into a variable that holds the first
      obtain ⟨m, s₂, hm⟩ := exists_extractInt n r.2
      rw [hm, Option.bind_some]
      split_ifs <;> rfl
  | cashQuery =>
    simp only [Returns, WellCounted, queryAccountsFromString, Option.bind_eq_bind]
    refine bind_number_isSome_iff fun n s' => ?_
    by_cases hfits : Reservable limit n
    · have hreserve : reserve limit n = some () := if_pos hfits
      simp [hreserve, hfits]
    · have hreserve : reserve limit n = none := if_neg hfits
      simp [hreserve, hfits]

/-- Keys are all texts, and no signature is right. -/
def anyKey : Ec Unit := ⟨fun _ => some (), fun _ => Ripemd160.zero, fun _ _ _ => false,
  fun _ _ _ => false⟩

/-- A negative number of accounts, of candidates, and an app that does not
exist. -/
theorem not_returns_negative :
    ¬ Returns anyKey true (2 ^ 63 - 1) .cashQuery ⟨0, "-1 ".toList⟩ ∧
      ¬ Returns anyKey true (2 ^ 63 - 1) .localDeltas ⟨0, "key signature 1 20 -1 ".toList⟩ ∧
      ¬ Returns anyKey true (2 ^ 63 - 1) .block ⟨0, "11111111111111111111 1 7 ".toList⟩ := by
  decide +kernel

end AcCore.Gov.Engine
