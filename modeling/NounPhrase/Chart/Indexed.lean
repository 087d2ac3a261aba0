import NounPhrase.Chart.Closure
import Std.Data.HashMap.Lemmas
import Std.Data.HashSet.Lemmas

/-!
# Charts with an index

Whether a column has an item can be told without going through its list, if a set of its items is
kept beside the list. An item is then added if the set does not have it, and both the list and the
set take it. The list gives the items in their order, and the set tells whether an item is there.
Nothing but the way in which they are changed makes the two agree.

In the same way a pass over a column keeps tables of what it has come across: the nonterminals whose
rules have been started, and for every nonterminal the items that have found it without leaving the
column. The moves of an item are then read off the tables, and not off the items before it.

## Main definitions

* `IndexedColumn`, `IndexedColumn.add`: a list of items with a set, and adding an item.
* `IndexedChart`: columns of this kind, with the operations of a chart.
* `ColumnPass`, `ColumnPass.moves`, `ColumnPass.note`: the tables of a pass over a column, the moves
  of an item, and the tables after it.
* `IndexedState.build`: building a column.
* `IndexedState.plain`: the chart and the forest without the sets.

## Main results

* `IndexedChart.column_add`: adding an item changes its column alone.
* `IndexedState.capacity_applyAll_le`: the number of items of a column and of candidates that its
  set lacks does not grow, whatever moves are carried out.

## Implementation notes

That building a column ends is shown without supposing that the set of a column has the items of
its list: an item that is added to the list is always one more item of the set. Nor are the tables
supposed to hold anything: whatever they hold, the moves add items that the column has room for.
-/

namespace NounPhrase

deriving instance Hashable for Nonterminal

deriving instance Hashable for RuleId

deriving instance Hashable for Item

/-- The items of a column in the order in which they were found, and a set to find them in. -/
structure IndexedColumn where
  items : List Item
  seen : Std.HashSet Item

namespace IndexedColumn

/-- The column without items. -/
def blank : IndexedColumn := ⟨[], ∅⟩

/-- Whether the set has the item. -/
def has (c : IndexedColumn) (i : Item) : Bool := c.seen.contains i

/-- Adds an item at the end, unless the set has it. Tells whether the item was new. -/
def add (c : IndexedColumn) (i : Item) : Bool × IndexedColumn :=
  if c.has i then (false, c) else (true, ⟨c.items ++ [i], c.seen.insert i⟩)

theorem has_add {c : IndexedColumn} {i x : Item} : (c.add i).2.has x ↔ c.has x ∨ x = i := by
  rw [add]
  split
  · next hi => exact ⟨.inl, fun h => h.elim id fun h => h ▸ hi⟩
  · simp [has, or_comm, eq_comm (a := i)]

theorem items_isPrefix_add (c : IndexedColumn) (i : Item) : c.items <+: (c.add i).2.items := by
  rw [add]
  split
  · exact List.prefix_refl _
  · exact List.prefix_append ..

theorem mem_of_mem_items_add {c : IndexedColumn} {i x : Item} (h : x ∈ (c.add i).2.items) :
    x ∈ c.items ∨ x = i := by
  rw [add] at h
  split at h
  · exact .inl h
  · simpa using h

end IndexedColumn

/-- A column with an index for every position of the input. -/
structure IndexedChart where
  columns : List IndexedColumn

namespace IndexedChart

/-- The chart of one empty column. -/
def blank : IndexedChart := ⟨[.blank]⟩

/-- Column `k`; it is empty if it has not been made. -/
def column (c : IndexedChart) (k : Nat) : IndexedColumn := c.columns[k]?.getD .blank

/-- Whether the set of column `k` has the item. -/
def has (c : IndexedChart) (k : Nat) (i : Item) : Bool := (c.column k).has i

/-- The chart with the columns up to `k` made. -/
def ensure (c : IndexedChart) (k : Nat) : IndexedChart :=
  ⟨c.columns ++ List.replicate (k + 1 - c.columns.length) .blank⟩

/-- Adds an item to column `k`. Tells whether the item was new there. -/
def add (c : IndexedChart) (k : Nat) (i : Item) : Bool × IndexedChart :=
  let (new, column) := ((c.ensure k).column k).add i
  (new, ⟨(c.ensure k).columns.set k column⟩)

/-- The chart without column `k` and those after it. -/
def truncate (c : IndexedChart) (k : Nat) : IndexedChart := ⟨c.columns.take k⟩

/-- The lists of the columns. -/
def plain (c : IndexedChart) : Chart := ⟨c.columns.map IndexedColumn.items⟩

/-! ### Columns after an operation -/

@[simp] theorem column_plain (c : IndexedChart) (k : Nat) :
    c.plain.column k = (c.column k).items := by
  rw [plain, Chart.column, column, List.getElem?_map]
  cases c.columns[k]? <;> rfl

@[simp] theorem column_ensure (c : IndexedChart) (j k : Nat) :
    (c.ensure k).column j = c.column j := by
  unfold column ensure
  by_cases h : j < c.columns.length
  · rw [List.getElem?_append_left h]
  · rw [List.getElem?_append_right (Nat.le_of_not_lt h), List.getElem?_replicate,
      List.getElem?_eq_none (Nat.le_of_not_lt h)]
    split <;> rfl

/-- Adding an item changes its column alone. -/
theorem column_add (c : IndexedChart) (j k : Nat) (i : Item) :
    (c.add k i).2.column j = if j = k then ((c.column k).add i).2 else c.column j := by
  have hlt : k < (c.ensure k).columns.length := by
    simp only [ensure, List.length_append, List.length_replicate]
    omega
  rw [← column_ensure c j k, ← column_ensure c k k]
  simp only [add, column]
  split
  · next h => rw [h, List.getElem?_set_self hlt, Option.getD_some]
  · next h => rw [List.getElem?_set_ne (Ne.symm h)]

/-! ### The room for items -/

theorem reach_add {c : IndexedChart} {j k : Nat} {i : Item} (h : i.origin ≤ c.plain.reach k) :
    (c.add j i).2.plain.reach k = c.plain.reach k := by
  refine Nat.le_antisymm (Chart.reach_le_iff.2 ⟨Chart.le_reach _ k, fun l x hx => ?_⟩)
    (Chart.reach_le_iff.2 ⟨Chart.le_reach _ k, fun l x hx => ?_⟩)
  · rw [column_plain, column_add] at hx
    split at hx
    · rcases IndexedColumn.mem_of_mem_items_add hx with hx | rfl
      · exact Chart.origin_le_reach k (column_plain .. ▸ hx)
      · exact h
    · exact Chart.origin_le_reach k (column_plain .. ▸ hx)
  · refine Chart.origin_le_reach (j := l) k ?_
    rw [column_plain] at hx ⊢
    rw [column_add]
    split
    · next hl => exact (IndexedColumn.items_isPrefix_add _ i).subset (hl ▸ hx)
    · exact hx

/-- The number of items in the list of column `k`, and of candidates that its set does not have. -/
def capacity (w : WidenedGrammar) (c : IndexedChart) (k : Nat) : Nat :=
  (w.candidates (c.plain.reach k)).countP (!(c.column k).has ·) + (c.column k).items.length

theorem capacity_add_le {w : WidenedGrammar} {c : IndexedChart} {k : Nat} {i : Item}
    (h : i ∈ w.candidates (c.plain.reach k)) : (c.add k i).2.capacity w k ≤ c.capacity w k := by
  unfold capacity
  rw [reach_add (WidenedGrammar.mem_candidates.1 h).2.2, column_add, if_pos rfl]
  by_cases hi : (c.column k).has i
  · have hsame : ((c.column k).add i).2 = c.column k := by rw [IndexedColumn.add, if_pos hi]
    exact Nat.le_of_eq (by rw [hsame])
  · have hcount := WidenedGrammar.countP_not_add_one_le h (Bool.eq_false_iff.mpr hi)
      (IndexedColumn.has_add.mpr (.inr rfl)) fun x hx => IndexedColumn.has_add.mpr (.inl hx)
    have hlength : ((c.column k).add i).2.items.length = (c.column k).items.length + 1 := by
      rw [IndexedColumn.add, if_neg hi, List.length_append, List.length_singleton]
    omega

theorem capacity_add_succ {w : WidenedGrammar} {c : IndexedChart} {k : Nat} {i : Item}
    (h : i.origin ≤ c.plain.reach k) : (c.add (k + 1) i).2.capacity w k = c.capacity w k := by
  unfold capacity
  rw [reach_add h, column_add, if_neg (Nat.ne_of_lt (Nat.lt_succ_self k))]

end IndexedChart

/-! ### A pass over a column -/

/-- What a pass over a column has come across. -/
structure ColumnPass where
  /-- The nonterminals whose rules have been started. -/
  predicted : Std.HashSet Nonterminal
  /-- The items that begin and end in the column, by the nonterminal that they have found. -/
  zeroWidth : Std.HashMap Nonterminal (List Item)

namespace ColumnPass

/-- A pass that has not come across anything. -/
def blank : ColumnPass := ⟨∅, ∅⟩

/-- The items that have found the nonterminal without leaving the column. -/
def found (pass : ColumnPass) (n : Nonterminal) : List Item := pass.zeroWidth.getD n []

/-- The moves of an item, read off the tables and the column in which it begins. -/
def moves (w : WidenedGrammar) (admits : Terminal → List Symbol → Bool) (lookahead : Terminal)
    (chart : IndexedChart) (pass : ColumnPass) (item : Item) : List Move :=
  w.movesBy admits lookahead (w.waiting · (chart.column item.origin).items) pass.found
    (fun n => !pass.predicted.contains n) item

/-- The pass over column `k` after one more item. -/
def note (w : WidenedGrammar) (k : Nat) (pass : ColumnPass) (item : Item) : ColumnPass :=
  match w.next? item with
  | none =>
    match w.completed? item with
    | none => pass
    | some n =>
      if item.origin = k then
        { pass with zeroWidth := pass.zeroWidth.insert n (pass.found n ++ [item]) }
      else pass
  | some (.nonterminal n) => { pass with predicted := pass.predicted.insert n }
  | some (.terminal _) => pass

/-- The column has room for the items that are added, whatever the tables hold. -/
theorem fits_moves (w : WidenedGrammar) (admits : Terminal → List Symbol → Bool)
    (lookahead : Terminal) {chart : IndexedChart} {k : Nat} (pass : ColumnPass) {item : Item}
    (hi : item ∈ chart.plain.column k) :
    ∀ m ∈ pass.moves w admits lookahead chart item, w.Fits chart.plain k m :=
  w.fits_movesBy admits lookahead _ _ hi fun n =>
    congrArg (w.waiting n) (chart.column_plain item.origin).symm

end ColumnPass

/-! ### Building a column -/

/-- A chart with an index, and its forest. -/
structure IndexedState where
  chart : IndexedChart
  forest : Forest

namespace IndexedState

/-- One empty column and no derivations. -/
def blank : IndexedState := ⟨.blank, .blank⟩

/-- The state without the sets. -/
def plain (s : IndexedState) : ParseState := ⟨s.chart.plain, s.forest⟩

/-- Carries out a move in column `k`. -/
def apply (k : Nat) (s : IndexedState) : Move → IndexedState
  | .advance parent child =>
    ⟨(s.chart.add k parent.advance).2, s.forest.record ⟨parent.advance, k⟩ ⟨child, k⟩⟩
  | .start rule => { s with chart := (s.chart.add k (.start rule k)).2 }
  | .scan item => { s with chart := (s.chart.add (k + 1) item.advance).2 }

theorem capacity_apply_le {w : WidenedGrammar} {k : Nat} (s : IndexedState) (m : Move)
    (hm : w.Fits s.chart.plain k m) :
    (s.apply k m).chart.plain.reach k = s.chart.plain.reach k ∧
      (s.apply k m).chart.capacity w k ≤ s.chart.capacity w k := by
  cases m with
  | advance parent child =>
    exact ⟨IndexedChart.reach_add (WidenedGrammar.mem_candidates.1 hm).2.2,
      IndexedChart.capacity_add_le hm⟩
  | start rule =>
    exact ⟨IndexedChart.reach_add (WidenedGrammar.mem_candidates.1 hm).2.2,
      IndexedChart.capacity_add_le hm⟩
  | scan item =>
    exact ⟨IndexedChart.reach_add hm, Nat.le_of_eq (IndexedChart.capacity_add_succ hm)⟩

/-- Carries out a list of moves in column `k`. -/
def applyAll (k : Nat) (s : IndexedState) (ms : List Move) : IndexedState := ms.foldl (apply k) s

theorem capacity_applyAll_le {w : WidenedGrammar} {k : Nat} {ms : List Move} {s : IndexedState}
    (h : ∀ m ∈ ms, w.Fits s.chart.plain k m) :
    (s.applyAll k ms).chart.capacity w k ≤ s.chart.capacity w k :=
  WidenedGrammar.foldl_le_of_fits (fun s : IndexedState => s.chart.plain)
    (fun s => s.chart.capacity w k) capacity_apply_le h

/-- Works on the items of column `k` from place `idx` on, where `pass` is the pass over those before
it. -/
def close (w : WidenedGrammar) (admits : Terminal → List Symbol → Bool) (lookahead : Terminal)
    (k idx : Nat) (pass : ColumnPass) (s : IndexedState) : IndexedState :=
  match h : (s.chart.column k).items[idx]? with
  | none => s
  | some item =>
    close w admits lookahead k (idx + 1) (pass.note w k item)
      (s.applyAll k (pass.moves w admits lookahead s.chart item))
termination_by s.chart.capacity w k - idx
decreasing_by
  obtain ⟨hlt, -⟩ := List.getElem?_eq_some_iff.1 h
  have hmem : item ∈ s.chart.plain.column k := s.chart.column_plain k ▸ List.mem_of_getElem? h
  have := capacity_applyAll_le (pass.fits_moves w admits lookahead hmem)
  have : (s.chart.column k).items.length ≤ s.chart.capacity w k := Nat.le_add_left _ _
  omega

/-- Builds column `k`, where `lookahead` is the next terminal, and makes column `k + 1` if it is not
there. -/
def build (w : WidenedGrammar) (admits : Terminal → List Symbol → Bool) (lookahead : Terminal)
    (k : Nat) (s : IndexedState) : IndexedState :=
  close w admits lookahead k 0 .blank { s with chart := s.chart.ensure (k + 1) }

end IndexedState

end NounPhrase
