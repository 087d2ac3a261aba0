import NounPhrase.Item

/-!
# Charts

A chart has a column of items for every position of the input. A column lists its items in the
order in which they were found and none twice. Columns are made as they are needed: asking for
one that is not there yet finds no items, and adding to one makes it and those before it.

## Main definitions

* `Column.insert`: an item at the end of a column, unless the column has it.
* `Chart`, `Chart.blank`: charts, and the chart of one empty column.
* `Chart.column`, `Chart.has`: the items of a column, and whether an item is among them.
* `Chart.ensure`, `Chart.add`, `Chart.truncate`: making columns, adding an item, and dropping
  columns.
* `Chart.reach`: a bound on the origins of all items.

## Main results

* `Chart.column_add`: adding an item changes its column alone.
* `Chart.reach_add`: an item with a small origin does not raise the bound.
-/

namespace NounPhrase

/-- The items that end at one position, in the order in which they were found. -/
abbrev Column := List Item

/-- The column with an item at its end, unless it has the item already. -/
def Column.insert (c : Column) (i : Item) : Column := if i ∈ c then c else c ++ [i]

theorem Column.mem_insert {c : Column} {i j : Item} : j ∈ c.insert i ↔ j ∈ c ∨ j = i := by
  unfold insert
  split
  · exact ⟨.inl, fun h => h.elim id (fun e => e ▸ ‹i ∈ c›)⟩
  · simp

/-- A column of items for every position of the input. -/
structure Chart where
  columns : List Column
  deriving DecidableEq, Repr

namespace Chart

/-- The chart of one empty column. -/
def blank : Chart := ⟨[[]]⟩

/-- The number of columns. -/
def size (c : Chart) : Nat := c.columns.length

/-- The items of column `k`; none if the column has not been made. -/
def column (c : Chart) (k : Nat) : Column := c.columns[k]?.getD []

/-- Whether the item is in column `k`. -/
def has (c : Chart) (k : Nat) (i : Item) : Bool := (c.column k).contains i

/-- The chart with the columns up to `k` made. -/
def ensure (c : Chart) (k : Nat) : Chart :=
  ⟨c.columns ++ List.replicate (k + 1 - c.columns.length) []⟩

/-- The chart with an item at the end of column `k`, unless the column has the item already. -/
def add (c : Chart) (k : Nat) (i : Item) : Chart :=
  ⟨(c.ensure k).columns.modify k (·.insert i)⟩

/-- The chart without column `k` and those after it. -/
def truncate (c : Chart) (k : Nat) : Chart := ⟨c.columns.take k⟩

/-! ### Columns after an operation -/

@[simp] theorem column_ensure (c : Chart) (j k : Nat) : (c.ensure k).column j = c.column j := by
  unfold column ensure
  by_cases h : j < c.columns.length
  · rw [List.getElem?_append_left h]
  · rw [List.getElem?_append_right (Nat.le_of_not_lt h), List.getElem?_replicate,
      List.getElem?_eq_none (Nat.le_of_not_lt h)]
    split <;> rfl

theorem lt_size_ensure (c : Chart) (k : Nat) : k < (c.ensure k).columns.length := by
  simp only [ensure, List.length_append, List.length_replicate]
  omega

theorem column_add (c : Chart) (j k : Nat) (i : Item) :
    (c.add k i).column j = if j = k then (c.column k).insert i else c.column j := by
  rw [← column_ensure c j k, ← column_ensure c k k]
  simp only [add, column, List.getElem?_modify]
  split
  · next h =>
    subst h
    simp [lt_size_ensure c k]
  · next h => simp [Ne.symm h]

@[simp] theorem column_add_self (c : Chart) (k : Nat) (i : Item) :
    (c.add k i).column k = (c.column k).insert i := by
  simp [column_add]

theorem column_add_of_ne (c : Chart) {j k : Nat} (i : Item) (h : j ≠ k) :
    (c.add k i).column j = c.column j := by
  simp [column_add, h]

theorem column_truncate (c : Chart) (j k : Nat) :
    (c.truncate k).column j = if j < k then c.column j else [] := by
  simp only [column, truncate, List.getElem?_take]
  split <;> rfl

/-! ### Origins -/

/-- The largest origin of an item in the chart, but at least `k`. -/
def reach (c : Chart) (k : Nat) : Nat := c.columns.flatten.foldr (fun i m => max i.origin m) k

theorem mem_flatten_columns {c : Chart} {i : Item} :
    i ∈ c.columns.flatten ↔ ∃ j, i ∈ c.column j := by
  rw [List.mem_flatten]
  constructor
  · rintro ⟨l, hl, hi⟩
    obtain ⟨j, hj, rfl⟩ := List.getElem_of_mem hl
    exact ⟨j, by simpa [column, hj] using hi⟩
  · rintro ⟨j, hj⟩
    unfold column at hj
    cases hc : c.columns[j]? with
    | none => simp [hc] at hj
    | some l => exact ⟨l, List.mem_of_getElem? hc, by simpa [hc] using hj⟩

theorem reach_le_iff {c : Chart} {k b : Nat} :
    c.reach k ≤ b ↔ k ≤ b ∧ ∀ j, ∀ i ∈ c.column j, i.origin ≤ b := by
  have (l : List Item) : l.foldr (fun i m => max i.origin m) k ≤ b ↔
      k ≤ b ∧ ∀ i ∈ l, i.origin ≤ b := by
    induction l with
    | nil => simp
    | cons i l ih =>
      simp only [List.foldr_cons, Nat.max_le, ih, List.forall_mem_cons]
      exact and_left_comm
  rw [reach, this]
  refine and_congr_right fun _ => ⟨fun h j i hi => h i (mem_flatten_columns.2 ⟨j, hi⟩),
    fun h i hi => ?_⟩
  obtain ⟨j, hj⟩ := mem_flatten_columns.1 hi
  exact h j i hj

theorem le_reach (c : Chart) (k : Nat) : k ≤ c.reach k := (reach_le_iff.1 (Nat.le_refl _)).1

theorem origin_le_reach {c : Chart} (k : Nat) {j : Nat} {i : Item} (h : i ∈ c.column j) :
    i.origin ≤ c.reach k :=
  (reach_le_iff.1 (Nat.le_refl _)).2 j i h

theorem reach_add {c : Chart} {j k : Nat} {i : Item} (h : i.origin ≤ c.reach k) :
    (c.add j i).reach k = c.reach k := by
  refine Nat.le_antisymm (reach_le_iff.2 ⟨le_reach c k, fun l x hx => ?_⟩)
    (reach_le_iff.2 ⟨le_reach _ k, fun l x hx => ?_⟩)
  · rw [column_add] at hx
    split at hx
    · rcases Column.mem_insert.1 hx with hx | rfl
      · exact origin_le_reach k hx
      · exact h
    · exact origin_le_reach k hx
  · refine origin_le_reach (j := l) k ?_
    rw [column_add]
    split
    · next hl => exact Column.mem_insert.2 (.inl (hl ▸ hx))
    · exact hx

end Chart

end NounPhrase
