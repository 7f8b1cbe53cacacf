import AcCore.Lib.Table

/-!
# Linked lists with an index

A linked list gives every element a place, which stays with it until the element
is erased. An index is a table from the elements to their places: elements are
found and erased through it without a search.
-/

namespace AcCore.Lib

/-- A linked list: its cells in order, each with its place, and the place of the
next cell. -/
structure Linked (α : Type*) where
  cells : List (ℕ × α)
  next : ℕ

namespace Linked

variable {α : Type*}

/-- The list without cells. -/
def empty : Linked α := ⟨[], 0⟩

/-- The elements in order. -/
def values (l : Linked α) : List α := l.cells.map Prod.snd

/-- Appends an element. -/
def pushBack (l : Linked α) (a : α) : Linked α := ⟨l.cells ++ [(l.next, a)], l.next + 1⟩

/-- The element at a place. -/
def get (l : Linked α) (n : ℕ) : Option α := (l.cells.find? fun c => c.1 = n).map Prod.snd

/-- Erases the cell at a place. -/
def erase (l : Linked α) (n : ℕ) : Linked α := { l with cells := l.cells.filter fun c => c.1 ≠ n }

/-- No two cells have one place, and the next place is not taken. -/
structure Ok (l : Linked α) : Prop where
  nodup : (l.cells.map Prod.fst).Nodup
  fresh : ∀ c ∈ l.cells, c.1 < l.next

variable {l : Linked α} {a : α} {n : ℕ}

/-- The values of a list are those in its cells. -/
theorem mem_values : a ∈ l.values ↔ ∃ n, (n, a) ∈ l.cells := by
  simp [values]

/-- The empty list has no values. -/
@[simp] theorem values_empty : (empty : Linked α).values = [] := rfl

/-- A value pushed to the back comes last. -/
@[simp] theorem values_pushBack (l : Linked α) (a : α) :
    (l.pushBack a).values = l.values ++ [a] := by
  simp [values, pushBack]

/-- The empty list is well formed. -/
theorem Ok.empty : (Linked.empty : Linked α).Ok := ⟨List.nodup_nil, by simp [Linked.empty]⟩

/-- A list with one more cell is well formed. -/
theorem Ok.pushBack (h : l.Ok) (a : α) : (l.pushBack a).Ok where
  nodup := by
    have hnew : ∀ m ∈ l.cells.map Prod.fst, m ≠ l.next := by
      intro m hm
      obtain ⟨c, hc, rfl⟩ := List.mem_map.mp hm
      exact (h.fresh c hc).ne
    simpa [Linked.pushBack, List.nodup_append] using ⟨h.nodup, fun m b hb => hnew m
      (List.mem_map.mpr ⟨(m, b), hb, rfl⟩)⟩
  fresh c hc := by
    rcases List.mem_append.mp hc with hc | hc
    · exact (h.fresh c hc).trans (Nat.lt_succ_self _)
    · rw [List.mem_singleton.mp hc]
      exact Nat.lt_succ_self _

/-- A list without one of its cells is well formed. -/
theorem Ok.erase (h : l.Ok) (n : ℕ) : (l.erase n).Ok where
  nodup := h.nodup.sublist (List.filter_sublist.map _)
  fresh c hc := h.fresh c (List.mem_of_mem_filter hc)

/-- A place is that of one element. -/
theorem Ok.unique (h : l.Ok) {c d : ℕ × α} (hc : c ∈ l.cells) (hd : d ∈ l.cells)
    (heq : c.1 = d.1) : c = d := List.inj_on_of_nodup_map h.nodup hc hd heq

/-- The value of a cell that is there. -/
theorem Ok.get_eq (h : l.Ok) (hn : (n, a) ∈ l.cells) : l.get n = some a := by
  unfold get
  cases hfind : l.cells.find? fun c => c.1 = n with
  | none => exact absurd hn (by simpa using List.find?_eq_none.mp hfind (n, a))
  | some c =>
    have hplace : c.1 = n := by simpa using List.find?_some hfind
    rw [h.unique (List.mem_of_find?_eq_some hfind) hn hplace]
    rfl

variable [DecidableEq α]

/-- Erasing a cell erases its value. -/
theorem Ok.values_erase (h : l.Ok) (hvalues : l.values.Nodup) (hn : (n, a) ∈ l.cells) :
    (l.erase n).values = l.values.erase a := by
  have hcells : l.cells.Nodup := h.nodup.of_map
  have hfilter : l.cells.filter (fun c => c.1 ≠ n) = l.cells.erase (n, a) := by
    rw [hcells.erase_eq_filter]
    refine List.filter_congr fun c hc => ?_
    have hsame : c.1 = n ↔ c = (n, a) := ⟨fun heq => h.unique hc hn heq, fun heq => heq ▸ rfl⟩
    rw [Bool.eq_iff_iff]
    simp [hsame]
  obtain ⟨before, after, hsplit⟩ := List.append_of_mem hn
  rw [values, Linked.erase, hfilter, values]
  unfold values at hvalues
  rw [hsplit] at hvalues hcells ⊢
  have hbefore : (n, a) ∉ before := fun hmem => (List.nodup_append.mp hcells).2.2 _ hmem _
    List.mem_cons_self rfl
  have hfirst : a ∉ before.map Prod.snd := fun hmem => by
    rw [List.map_append] at hvalues
    exact (List.nodup_append.mp hvalues).2.2 _ hmem _ (by simp) rfl
  rw [List.erase_append_right _ hbefore, List.map_append, List.map_append,
    List.erase_append_right _ hfirst]
  simp

/-! ## The index -/

/-- The index leads from each element to its place, and from nothing else. -/
def IndexedBy (l : Linked α) (t : Table α ℕ) : Prop :=
  ∀ a n, t.lookup a = some n ↔ (n, a) ∈ l.cells

variable {t : Table α ℕ}

/-- The empty table indexes the empty list. -/
theorem IndexedBy.empty : (Linked.empty : Linked α).IndexedBy ∅ := by
  intro a n
  simp [Linked.empty]

/-- The table has the values of the list. -/
theorem IndexedBy.mem_iff (h : l.IndexedBy t) : a ∈ t ↔ a ∈ l.values := by
  rw [Finmap.mem_iff, mem_values]
  exact exists_congr fun n => h a n

/-- No element has two places. -/
theorem IndexedBy.nodup_values (h : l.IndexedBy t) (hl : l.Ok) : l.values.Nodup := by
  have hcells : l.cells.Nodup := hl.nodup.of_map
  refine hcells.map_on fun c hc d hd heq => ?_
  have hc' := (h c.2 c.1).mpr hc
  have hd' := (h d.2 d.1).mpr hd
  rw [heq, hd'] at hc'
  exact Prod.ext (Option.some.inj hc').symm heq

/-- An element that is appended and put into the index. -/
theorem IndexedBy.pushBack (h : l.IndexedBy t) (ha : a ∉ l.values) :
    (l.pushBack a).IndexedBy (Table.emplace a l.next t) := by
  intro b n
  have hnone : t.lookup a = none := Finmap.lookup_eq_none.mpr fun hmem => ha (h.mem_iff.mp hmem)
  rw [Table.lookup_emplace, hnone]
  by_cases hb : b = a
  · subst hb
    have hold : (n, b) ∉ l.cells := fun hmem => ha (mem_values.mpr ⟨n, hmem⟩)
    simp [Linked.pushBack, hold, eq_comm]
  · simp [Linked.pushBack, hb, h b n]

/-- An element that is erased at its place and from the index. -/
theorem IndexedBy.erase (h : l.IndexedBy t) (hl : l.Ok) (hn : (n, a) ∈ l.cells) :
    (l.erase n).IndexedBy (Finmap.erase a t) := by
  intro b m
  by_cases hb : b = a
  · subst hb
    have hplace : (m, b) ∈ l.cells → m = n := fun hm => by
      have hm' := (h b m).mpr hm
      rw [(h b n).mpr hn] at hm'
      exact (Option.some.inj hm').symm
    simpa [Linked.erase] using hplace
  · have hplace : (m, b) ∈ l.cells → m ≠ n := fun hm hmn =>
      hb (congrArg Prod.snd (hl.unique hm hn hmn))
    rw [Finmap.lookup_erase_ne hb, h b m]
    simpa [Linked.erase] using hplace

end Linked

end AcCore.Lib
