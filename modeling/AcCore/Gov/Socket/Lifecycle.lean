import AcCore.Gov.Socket.Connections

/-!
# The life of a client

A client waits to be added, is put into the table, is closed and later taken out of it,
and is deleted. This file follows one client on its way: what the threads do to it, what
holds of it at each place, and how many more times `update` has to come to its end until
it is deleted.
-/

namespace AcCore.Gov.Socket

/-- Where a client is. -/
inductive Place where
  /-- It does not exist, or is not attached. -/
  | nowhere
  /-- In `wadd`. -/
  | waiting
  /-- In the copy of `wadd` that `grow` has. -/
  | growing
  /-- In the table, under this descriptor. -/
  | table (fd : ℕ)
  | attic
  | deleted
  deriving DecidableEq

/-- The client has an entry in the table. -/
@[simp] def Place.InTable : Place → Prop
  | .table _ => True
  | _ => False

/-- A place says whether it is in the table. -/
instance Place.InTable.decidable : ∀ x : Place, Decidable x.InTable
  | .table _ => isTrue trivial
  | .nowhere | .waiting | .growing | .attic | .deleted => isFalse id

/-- The places in the table are those with a descriptor. -/
theorem Place.inTable_iff {x : Place} : x.InTable ↔ ∃ fd, x = .table fd := by
  cases x <;> simp

/-- What the threads know of one client. -/
structure View where
  sock : ℕ
  new : Prop
  parent : Prop
  busy : Prop
  worker : Prop
  keys : ℕ → Prop
  wadd : Prop
  t : Prop
  attic : Prop
  wremove : Prop
  copy : Prop
  deleted : ℕ

namespace View

/-- The client is at this place, and what holds of it there. -/
structure Ok (phase : Phase) (v : View) (x : Place) : Prop where
  wadd : v.wadd ↔ x = .waiting
  t : v.t ↔ x = .growing
  keys : ∀ fd, v.keys fd ↔ x = .table fd
  attic : v.attic ↔ x = .attic
  deleted : v.deleted = if x = .deleted then 1 else 0
  new : v.new → v.sock = 0 ∧ x = .nowhere
  parent : v.parent ↔ v.sock ≠ 0 ∧ x ≠ .nowhere
  waiting : x = .waiting ∨ x = .growing → v.sock ≠ 0
  gone : x = .attic ∨ x = .deleted → v.sock = 0
  entry : ∀ fd, x = .table fd → fd ≠ 0 ∧ (v.sock = fd ∨ v.sock = 0 ∧ ¬ phase.Serving)
  worker : v.busy ↔ v.worker
  busy : v.busy → v.parent
  wremove : v.wremove → x ≠ .nowhere ∧ x ≠ .deleted ∧ (x = .attic → phase.Serving)
  copy : v.copy → phase = .shrink ∧ x ≠ .nowhere ∧ x ≠ .deleted
  again : v.copy → v.wremove → x.InTable
  growing : x = .growing → phase = .grow

/-- The client is deleted before `update` has come to its end this number of times. -/
def Due (phase : Phase) (v : View) (x : Place) (n : ℕ) : Prop :=
  x = .deleted ∨
    x = .attic ∧ (if phase = .sweep then 2 else 1) ≤ n ∨
    (x.InTable ∧ v.sock = 0 ∨ v.copy ∨ v.wremove ∧ phase.Serving) ∧ 2 ≤ n ∨
    v.wremove ∧ 3 ≤ n

/-- A step that leaves one client well keeps count of the ends of `update`. -/
structure Follows (phase : Phase) (v : View) (x : Place) (k : ℕ) (phase' : Phase) (v' : View)
    (x' : Place) : Prop where
  ok : v'.Ok phase' x'
  due : ∀ n, v.Due phase x (n + k) → v'.Due phase' x' n

variable {phase phase' : Phase} {v : View} {x : Place}

/-- A client that is due soon is due later. -/
theorem Due.mono {n m : ℕ} (h : v.Due phase x n) (hnm : n ≤ m) : v.Due phase x m := by
  unfold Due at h ⊢
  exact h.imp_right fun h => h.imp (fun h => ⟨h.1, h.2.trans hnm⟩)
    fun h => h.imp (fun h => ⟨h.1, h.2.trans hnm⟩) fun h => ⟨h.1, h.2.trans hnm⟩

/-- Only deleted clients are due at once. -/
theorem due_zero : v.Due phase x 0 ↔ x = .deleted := by
  unfold Due
  split_ifs <;> simp

/-- Outside of `shrink`, and while no datagrams are read. -/
theorem due_iff {n : ℕ} (hcopy : ¬ v.copy) (hserving : ¬ phase.Serving) :
    v.Due phase x n ↔
      x = .deleted ∨ x = .attic ∧ (if phase = .sweep then 2 else 1) ≤ n ∨
        x.InTable ∧ v.sock = 0 ∧ 2 ≤ n ∨ v.wremove ∧ 3 ≤ n := by
  simp only [Due, hcopy, hserving, and_false, or_false, and_assoc]

/-- A client without a descriptor is not busy. -/
theorem Ok.not_busy (h : v.Ok phase x) (hsock : v.sock = 0) : ¬ v.busy :=
  fun hbusy => (h.parent.mp (h.busy hbusy)).1 hsock

/-- Clients are in the copy only while the table shrinks. -/
theorem Ok.not_copy (h : v.Ok phase x) (hphase : phase ≠ .shrink) : ¬ v.copy :=
  fun hcopy => hphase (h.copy hcopy).1

/-- Clients are being added only while the table grows. -/
theorem Ok.ne_growing (h : v.Ok phase x) (hphase : phase ≠ .grow) : x ≠ .growing :=
  fun hx => hphase (h.growing hx)

/-- Between two places of the thread that are not told apart nothing changes. -/
theorem Ok.stay (h : v.Ok phase x) (hserving : phase'.Serving ↔ phase.Serving)
    (hshrink : phase' = .shrink ↔ phase = .shrink) (hgrow : phase' = .grow ↔ phase = .grow)
    (hsweep : phase' = .sweep ↔ phase = .sweep) : Follows phase v x 0 phase' v x where
  ok := { h with
    entry fd hx := by rw [hserving]; exact h.entry fd hx
    wremove hw := by rw [hserving]; exact h.wremove hw
    copy hc := by rw [hshrink]; exact h.copy hc
    growing hx := hgrow.mpr (h.growing hx) }
  due n hdue := by
    rw [Nat.add_zero] at hdue
    unfold Due at hdue ⊢
    simpa only [hserving, hsweep] using hdue

/-- A client follows itself. -/
theorem Ok.refl (h : v.Ok phase x) : Follows phase v x 0 phase v x :=
  h.stay Iff.rfl Iff.rfl Iff.rfl Iff.rfl

/-- A client that follows twice follows. -/
theorem Follows.trans {k k' : ℕ} {phase'' : Phase} {v' v'' : View} {x' x'' : Place}
    (h : Follows phase v x k phase' v' x') (h' : Follows phase' v' x' k' phase'' v'' x'') :
    Follows phase v x (k + k') phase'' v'' x'' where
  ok := h'.ok
  due n hdue := h'.due n (h.due (n + k') (by rwa [add_assoc, add_comm k']))

/-- A client that is created is nowhere yet. -/
theorem Ok.create (h : v.Ok phase x) (hnew : v.new) (fd : ℕ) :
    Follows phase v x 0 phase { v with sock := fd, new := False } x := by
  obtain ⟨hsock, rfl⟩ := h.new hnew
  have hparent : ¬ v.parent := fun hp => (h.parent.mp hp).2 rfl
  constructor
  · exact { h with
      new hn := hn.elim
      parent := by simp [hparent]
      waiting hx := by simp at hx
      gone hx := by simp at hx
      entry fd hx := by simp at hx }
  · intro n hdue
    unfold Due at hdue ⊢
    simpa using hdue

/-- A client that is attached waits for the loop. -/
theorem Ok.attach (h : v.Ok phase x) (hsock : v.sock ≠ 0) (hparent : ¬ v.parent) :
    Follows phase v x 0 phase { v with parent := True, wadd := True } .waiting := by
  have hx : x = .nowhere := by
    by_contra hx
    exact hparent (h.parent.mpr ⟨hsock, hx⟩)
  subst hx
  have hwremove : ¬ v.wremove := fun hw => (h.wremove hw).1 rfl
  have hcopy : ¬ v.copy := fun hc => (h.copy hc).2.1 rfl
  constructor
  · exact { h with
      wadd := by simp
      t := by simp [h.t]
      keys fd := by simp [h.keys]
      attic := by simp [h.attic]
      deleted := by simp [h.deleted]
      new hn := absurd (h.new hn).1 hsock
      parent := by simp [hsock]
      waiting _ := hsock
      gone hx := by simp at hx
      entry fd hx := by simp at hx
      busy _ := trivial
      wremove hw := absurd hw hwremove
      copy hc := absurd hc hcopy
      again hc := absurd hc hcopy
      growing hx := by simp at hx }
  · intro n hdue
    simp [Due, hwremove, hcopy] at hdue

/-- A client that is to be removed stays where it is until the loop takes it. -/
theorem Ok.remove (h : v.Ok phase x) (hparent : v.parent) (hagain : v.copy → v.keys v.sock) :
    Follows phase v x 0 phase { v with wremove := True } x := by
  obtain ⟨hsock, hx⟩ := h.parent.mp hparent
  constructor
  · exact { h with
      wremove _ := ⟨hx, fun hx => hsock (h.gone (Or.inr hx)),
        fun hx => absurd (h.gone (Or.inl hx)) hsock⟩
      again hc _ := Place.inTable_iff.mpr ⟨v.sock, (h.keys v.sock).mp (hagain hc)⟩ }
  · intro n hdue
    unfold Due at hdue ⊢
    grind

/-- A client that a thread works on stays where it is. -/
theorem Ok.work (h : v.Ok phase x) (hparent : v.parent) :
    Follows phase v x 0 phase { v with busy := True, worker := True } x where
  ok := { h with
    worker := Iff.rfl
    busy _ := hparent }
  due _ hdue := hdue

/-- A client whose thread is done stays where it is. -/
theorem Ok.finish (h : v.Ok phase x) :
    Follows phase v x 0 phase { v with busy := False, worker := False } x where
  ok := { h with
    worker := Iff.rfl
    busy hb := hb.elim }
  due _ hdue := hdue

/-- Taking the list of removals moves no client. -/
theorem Ok.take (h : v.Ok .reads x) :
    Follows .reads v x 0 .shrink { v with copy := v.wremove, wremove := False } x := by
  have hserving : Phase.Serving .reads := Or.inr rfl
  have hcopy : ¬ v.copy := h.not_copy (by decide)
  constructor
  · exact { h with
      entry fd hx := by
        obtain ⟨hfd, hsock | ⟨-, hnot⟩⟩ := h.entry fd hx
        · exact ⟨hfd, Or.inl hsock⟩
        · exact absurd hserving hnot
      wremove hw := hw.elim
      copy hw := ⟨rfl, (h.wremove hw).1, (h.wremove hw).2.1⟩
      again _ hw := hw.elim
      growing hx := absurd hx (h.ne_growing (by decide)) }
  · intro n hdue
    unfold Due at hdue ⊢
    simp only [hcopy, hserving] at hdue
    grind

/-- A client in the copy is closed: it goes to the attic if it is waiting, and stays where
it is otherwise. -/
theorem Ok.close (h : v.Ok .shrink x) (hcopy : v.copy) (hbusy : ¬ v.busy) :
    Follows .shrink v x 0 .shrink
      { v with
        sock := 0, parent := False, wadd := False, attic := v.attic ∨ v.wadd, copy := False }
      (if x = .waiting then .attic else x) := by
  obtain ⟨-, hnowhere, hdeleted⟩ := h.copy hcopy
  have hgrowing : x ≠ .growing := h.ne_growing (by decide)
  have hagain := h.again hcopy
  constructor
  · split_ifs with hx
    · subst hx
      exact { h with
        wadd := by simp
        t := by simp [h.t]
        keys fd := by simp [h.keys]
        attic := by simp [h.wadd]
        deleted := by simp [h.deleted]
        new hn := nomatch (h.new hn).2
        parent := by simp
        waiting hx := by simp at hx
        gone _ := rfl
        entry fd hx := by simp at hx
        busy hb := absurd hb hbusy
        wremove hw := (hagain hw).elim
        copy hc := hc.elim
        again hc := hc.elim
        growing hx := by simp at hx }
    · exact { h with
        wadd := iff_of_false id hx
        attic := by simp [h.attic, h.wadd, hx]
        new hn := ⟨rfl, (h.new hn).2⟩
        parent := by simp
        waiting hw := by simp [hx, hgrowing] at hw
        gone _ := rfl
        entry fd hfd := ⟨(h.entry fd hfd).1, Or.inr ⟨rfl, by decide⟩⟩
        busy hb := absurd hb hbusy
        copy hc := hc.elim
        again hc := hc.elim }
  · intro n hdue
    have htwo : x = .attic ∧ 1 ≤ n ∨ 2 ≤ n := by
      unfold Due at hdue
      rcases hdue with hx | ⟨hx, hn⟩ | ⟨-, hn⟩ | ⟨-, hn⟩
      · exact absurd hx hdeleted
      · exact Or.inl ⟨hx, hn⟩
      · exact Or.inr hn
      · exact Or.inr (by omega)
    unfold Due
    cases x with
    | nowhere => exact absurd rfl hnowhere
    | waiting => simp; omega
    | growing => exact absurd rfl hgrowing
    | table fd => simp at htwo ⊢; omega
    | attic => simp; omega
    | deleted => exact absurd rfl hdeleted

/-- Collecting the additions takes the waiting clients along. -/
theorem Ok.collect (h : v.Ok .shrink x) (hcopy : ¬ v.copy) :
    Follows .shrink v x 0 .grow { v with wadd := False, t := v.wadd }
      (if x = .waiting then .growing else x) := by
  have hgrowing : x ≠ .growing := h.ne_growing (by decide)
  have hshrink : ¬ Phase.Serving .shrink := by decide
  constructor
  · split_ifs with hx
    · subst hx
      exact { h with
        wadd := by simp
        t := by simp [h.wadd]
        keys fd := by simp [h.keys]
        attic := by simp [h.attic]
        deleted := by simp [h.deleted]
        new hn := nomatch (h.new hn).2
        parent := by simp [h.parent]
        waiting _ := h.waiting (Or.inl rfl)
        gone hx := by simp at hx
        entry fd hx := by simp at hx
        wremove _ := by simp
        copy hc := absurd hc hcopy
        again hc := absurd hc hcopy
        growing _ := rfl }
    · exact { h with
        wadd := iff_of_false id hx
        t := by simp [h.wadd, hx, hgrowing]
        entry fd hfd := ⟨(h.entry fd hfd).1, (h.entry fd hfd).2.imp_right fun h => ⟨h.1, by decide⟩⟩
        wremove hw := ⟨(h.wremove hw).1, (h.wremove hw).2.1,
          fun hx => absurd ((h.wremove hw).2.2 hx) hshrink⟩
        copy hc := absurd hc hcopy
        again hc := absurd hc hcopy
        growing hx := absurd hx hgrowing }
  · intro n hdue
    rw [due_iff hcopy hshrink] at hdue
    refine (due_iff hcopy (by decide)).mpr ?_
    by_cases hx : x = .waiting
    · subst hx
      simpa using hdue
    · rw [if_neg hx]
      exact hdue

/-- A client that is added is in the table under its descriptor. -/
theorem Ok.emplace (h : v.Ok .grow x) (ht : v.t) :
    Follows .grow v x 0 .grow { v with t := False, keys := fun fd => fd = v.sock }
      (.table v.sock) := by
  obtain rfl := h.t.mp ht
  have hsock : v.sock ≠ 0 := h.waiting (Or.inr rfl)
  have hcopy : ¬ v.copy := h.not_copy (by decide)
  constructor
  · exact { h with
      wadd := by simp [h.wadd]
      t := by simp
      keys fd := by simp [eq_comm]
      attic := by simp [h.attic]
      deleted := by simp [h.deleted]
      new hn := nomatch (h.new hn).2
      parent := by simp [h.parent]
      waiting _ := hsock
      gone hx := by simp at hx
      entry fd hx := by
        obtain rfl := Place.table.inj hx
        exact ⟨hsock, Or.inl rfl⟩
      wremove _ := by simp
      copy hc := absurd hc hcopy
      again hc := absurd hc hcopy
      growing hx := by simp at hx }
  · intro n hdue
    rw [due_iff hcopy (by decide)] at hdue
    refine (due_iff hcopy (by decide)).mpr ?_
    simp at hdue ⊢
    exact Or.inr hdue

/-- What is in the attic is deleted: no worker is with it. -/
theorem Ok.purge (h : v.Ok .grow x) (ht : ¬ v.t) :
    Follows .grow v x 0 .sweep
      { v with attic := False, deleted := v.deleted + if x = .attic then 1 else 0 }
      (if x = .attic then .deleted else x) := by
  have hgrow : ¬ Phase.Serving .grow := by decide
  have hcopy : ¬ v.copy := h.not_copy (by decide)
  have hremoved : v.wremove → x ≠ .attic := fun hw hx => hgrow ((h.wremove hw).2.2 hx)
  constructor
  · split_ifs with hx
    · subst hx
      exact { h with
        wadd := by simp [h.wadd]
        t := by simp [h.t]
        keys fd := by simp [h.keys]
        attic := by simp
        deleted := by simp [h.deleted]
        new hn := nomatch (h.new hn).2
        parent := by simp [h.parent]
        waiting hx := by simp at hx
        gone _ := h.gone (Or.inl rfl)
        entry fd hx := by simp at hx
        wremove hw := absurd rfl (hremoved hw)
        copy hc := absurd hc hcopy
        again hc := absurd hc hcopy
        growing hx := by simp at hx }
    · exact { h with
        attic := iff_of_false id hx
        entry fd hfd := ⟨(h.entry fd hfd).1, (h.entry fd hfd).2.imp_right fun h => ⟨h.1, by decide⟩⟩
        wremove hw := ⟨(h.wremove hw).1, (h.wremove hw).2.1, fun h => absurd h hx⟩
        copy hc := absurd hc hcopy
        again hc := absurd hc hcopy
        growing hx := absurd (h.t.mpr hx) ht }
  · intro n hdue
    rw [due_iff hcopy hgrow] at hdue
    refine (due_iff hcopy (by decide)).mpr ?_
    by_cases hx : x = .attic
    · exact Or.inl (if_pos hx)
    · rw [if_neg hx]
      exact hdue.imp_right fun hdue => Or.inr (hdue.resolve_left fun hattic => hx hattic.1)

/-- What has no socket is taken out of the table. -/
theorem Ok.sweep (h : v.Ok .sweep x) :
    Follows .sweep v x 1 .select
      { v with
        parent := v.parent ∧ ¬ (v.sock = 0 ∧ ∃ fd, v.keys fd)
        keys := fun fd => v.keys fd ∧ v.sock ≠ 0
        attic := v.attic ∨ v.sock = 0 ∧ ∃ fd, v.keys fd }
      (if v.sock = 0 ∧ x.InTable then .attic else x) := by
  have hselect : Phase.Serving .select := Or.inl rfl
  have hsweep : ¬ Phase.Serving .sweep := by decide
  have hcopy : ¬ v.copy := h.not_copy (by decide)
  have hgrowing : x ≠ .growing := h.ne_growing (by decide)
  have hkeys : (∃ fd, v.keys fd) ↔ x.InTable := by
    simp only [h.keys, Place.inTable_iff]
  simp only [hkeys]
  constructor
  · split_ifs with hx
    · obtain ⟨hsock, hx⟩ := hx
      obtain ⟨fd, rfl⟩ := Place.inTable_iff.mp hx
      exact { h with
        wadd := by simp [h.wadd]
        t := by simp [h.t]
        keys fd := by simp [hsock]
        attic := by simp [hsock]
        deleted := by simp [h.deleted]
        new hn := nomatch (h.new hn).2
        parent := by simp [hsock]
        waiting hx := by simp at hx
        gone _ := hsock
        entry fd hx := by simp at hx
        busy hb := absurd hb (h.not_busy hsock)
        wremove _ := by simp [hselect]
        copy hc := absurd hc hcopy
        again hc := absurd hc hcopy
        growing hx := by simp at hx }
    · have hlive : ∀ fd, x = .table fd → v.sock ≠ 0 := fun fd hfd hsock =>
        hx ⟨hsock, Place.inTable_iff.mpr ⟨fd, hfd⟩⟩
      exact { h with
        keys fd := ⟨fun hk => (h.keys fd).mp hk.1,
          fun hfd => ⟨(h.keys fd).mpr hfd, hlive fd hfd⟩⟩
        attic := by rw [or_iff_left hx]; exact h.attic
        parent := by rw [and_iff_left hx]; exact h.parent
        entry fd hfd := by
          obtain ⟨hne, hsock | ⟨hsock, -⟩⟩ := h.entry fd hfd
          · exact ⟨hne, Or.inl hsock⟩
          · exact absurd hsock (hlive fd hfd)
        busy hb := ⟨h.busy hb, hx⟩
        wremove hw := ⟨(h.wremove hw).1, (h.wremove hw).2.1, fun _ => hselect⟩
        copy hc := absurd hc hcopy
        again hc := absurd hc hcopy
        growing hx := absurd hx hgrowing }
  · intro n hdue
    rw [due_iff hcopy hsweep] at hdue
    unfold Due
    by_cases hx : v.sock = 0 ∧ x.InTable
    · rw [if_pos hx]
      obtain ⟨hsock, hx⟩ := hx
      obtain ⟨fd, rfl⟩ := Place.inTable_iff.mp hx
      simp at hdue ⊢
      omega
    · rw [if_neg hx]
      rcases hdue with hdue | ⟨hattic, hn⟩ | ⟨htable, hsock, -⟩ | ⟨hremoved, hn⟩
      · exact Or.inl hdue
      · exact Or.inr (Or.inl ⟨hattic, by simp at hn ⊢; omega⟩)
      · exact absurd ⟨hsock, htable⟩ hx
      · exact Or.inr (Or.inr (Or.inl ⟨Or.inr (Or.inr ⟨hremoved, hselect⟩), by omega⟩))

end View

end AcCore.Gov.Socket
