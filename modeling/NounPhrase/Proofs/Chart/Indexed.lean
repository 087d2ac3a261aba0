import NounPhrase.Chart.Indexed
import NounPhrase.Proofs.Chart.Growth

/-!
# Charts with an index agree with their lists

A column is exact if its list has no item twice and its set has the items of the list. A column
that has just been made is exact, and adding an item keeps it so, because the set and the list
change together or not at all. To ask the set of an exact column is to ask its list. So whatever is
done with an exact chart is done with its lists.

The tables of a pass over a column hold what can be read off the items that it has worked on, in
their order. They do so for a pass that begins, and noting the next item keeps them so. That an item
is the next one for the lists, too, is clear because the column only grows at its end.

## Main definitions

* `IndexedColumn.IsExact`, `IndexedChart.IsExact`: the set agrees with the list.
* `ColumnPass.IsOver`: the tables agree with the items that have been worked on.

## Main results

* `IndexedColumn.IsExact.add`: adding an item keeps a column exact.
* `IndexedChart.IsExact.plain_add`, `IndexedChart.IsExact.items_column_add`: on the lists it adds
  the item, at the end of its column if it is new.
* `ColumnPass.IsOver.note`, `ColumnPass.IsOver.moves_eq`: noting an item keeps the tables in
  agreement with the items, and the moves read off the tables are those read off the items.
* `IndexedState.plain_build`: building a column keeps a chart exact, and builds it on the lists.
-/

namespace NounPhrase

/-! ### Columns -/

namespace IndexedColumn

/-- The list has no item twice, and the set has the items of the list. -/
structure IsExact (c : IndexedColumn) : Prop where
  nodup : c.items.Nodup
  has_iff : ∀ i, c.has i ↔ i ∈ c.items

variable {c : IndexedColumn}

theorem isExact_blank : blank.IsExact where
  nodup := List.nodup_nil
  has_iff i := by simp [blank, has]

namespace IsExact

/-- The item is at the end of the list, unless the list has had it before. -/
theorem items_add (h : c.IsExact) (i : Item) :
    (c.add i).2.items = Column.insert c.items i := by
  rw [IndexedColumn.add, Column.insert]
  simp only [h.has_iff i]
  split <;> rfl

/-- It is told that the item was new if the list has not had it before. -/
theorem add_fst_iff (h : c.IsExact) (i : Item) : (c.add i).1 ↔ i ∉ c.items := by
  rw [IndexedColumn.add]
  simp only [h.has_iff i]
  split
  · next hi => simp [hi]
  · next hi => simp [hi]

/-- Adding an item keeps a column exact. -/
theorem add (h : c.IsExact) (i : Item) : (c.add i).2.IsExact where
  nodup := by
    rw [h.items_add, Column.insert]
    split
    · exact h.nodup
    · next hi =>
      refine List.nodup_append.mpr ⟨h.nodup, by simp, ?_⟩
      rintro a ha b hb rfl
      exact hi (List.mem_singleton.mp hb ▸ ha)
  has_iff j := by rw [has_add, h.items_add, Column.mem_insert, h.has_iff j]

end IsExact

end IndexedColumn

/-! ### Charts -/

namespace IndexedChart

/-- All columns are exact. -/
def IsExact (c : IndexedChart) : Prop := ∀ column ∈ c.columns, column.IsExact

variable {c : IndexedChart}

@[simp] theorem plain_ensure (c : IndexedChart) (k : Nat) :
    (c.ensure k).plain = c.plain.ensure k := by
  simp [plain, ensure, Chart.ensure, IndexedColumn.blank]

@[simp] theorem plain_truncate (c : IndexedChart) (k : Nat) :
    (c.truncate k).plain = c.plain.truncate k := by
  simp [plain, truncate, Chart.truncate]

theorem isExact_blank : blank.IsExact := fun column hcolumn => by
  rw [List.mem_singleton.mp hcolumn]
  exact IndexedColumn.isExact_blank

namespace IsExact

theorem column (h : c.IsExact) (k : Nat) : (c.column k).IsExact := by
  rw [IndexedChart.column]
  cases hk : c.columns[k]? with
  | none => exact IndexedColumn.isExact_blank
  | some column => exact h column (List.mem_of_getElem? hk)

theorem ensure (h : c.IsExact) (k : Nat) : (c.ensure k).IsExact := fun column hcolumn => by
  rcases List.mem_append.mp hcolumn with hcolumn | hcolumn
  · exact h column hcolumn
  · rw [(List.mem_replicate.mp hcolumn).2]
    exact IndexedColumn.isExact_blank

theorem truncate (h : c.IsExact) (k : Nat) : (c.truncate k).IsExact :=
  fun column hcolumn => h column (List.mem_of_mem_take hcolumn)

theorem add (h : c.IsExact) (k : Nat) (i : Item) : (c.add k i).2.IsExact := fun column hcolumn => by
  rcases List.mem_or_eq_of_mem_set hcolumn with hcolumn | rfl
  · exact h.ensure k column hcolumn
  · exact ((h.ensure k).column k).add i

/-- It is told that the item was new if its column has not listed it before. -/
theorem add_fst_iff (h : c.IsExact) (k : Nat) (i : Item) :
    (c.add k i).1 ↔ i ∉ (c.column k).items := by
  rw [← column_ensure c k k]
  exact ((h.ensure k).column k).add_fst_iff i

/-- On the lists, the item is added to its column. -/
theorem plain_add (h : c.IsExact) (k : Nat) (i : Item) :
    (c.add k i).2.plain = c.plain.add k i := by
  have hitems := ((h.ensure k).column k).items_add i
  have hset (d : Chart) :
      d.columns.modify k (·.insert i) = d.columns.set k ((d.column k).insert i) :=
    List.modify_eq_set ..
  rw [← column_plain] at hitems
  rw [Chart.add, hset, ← plain_ensure, ← hitems]
  exact congrArg Chart.mk List.map_set

/-- A new item is at the end of its column, and nothing else has changed. -/
theorem items_column_add (h : c.IsExact) (j k : Nat) (i : Item) :
    ((c.add k i).2.column j).items =
      if j = k ∧ (c.add k i).1 then (c.column j).items ++ [i] else (c.column j).items := by
  rw [column_add]
  simp only [h.add_fst_iff k i]
  by_cases hj : j = k
  · subst hj
    rw [if_pos rfl, (h.column j).items_add, Column.insert]
    by_cases hi : i ∈ (c.column j).items <;> simp [hi]
  · simp [hj]

end IsExact

end IndexedChart

/-! ### A pass over a column -/

namespace ColumnPass

/-- The tables hold what can be read off the items of column `k` that have been worked on. -/
structure IsOver (w : WidenedGrammar) (k : Nat) (earlier : List Item) (pass : ColumnPass) :
    Prop where
  predicted_iff : ∀ n, pass.predicted.contains n ↔ w.waiting n earlier ≠ []
  found_eq : ∀ n, pass.found n = w.emptyCompletions k n earlier

variable {w : WidenedGrammar} {k : Nat} {pass : ColumnPass}

theorem contains_predicted_note {item : Item} {n : Nonterminal} :
    (pass.note w k item).predicted.contains n ↔
      pass.predicted.contains n ∨ w.next? item = some (.nonterminal n) := by
  unfold note
  cases hnext : w.next? item with
  | none => cases w.completed? item <;> simp [apply_ite]
  | some symbol => cases symbol <;> simp [or_comm]

theorem found_note (item : Item) (n : Nonterminal) :
    (pass.note w k item).found n =
      pass.found n ++ if item.origin = k ∧ w.completed? item = some n then [item] else [] := by
  unfold note
  cases hnext : w.next? item with
  | none =>
    cases hcompleted : w.completed? item with
    | none => simp
    | some m =>
      by_cases horigin : item.origin = k
      · simp only [horigin, if_true, true_and, Option.some.injEq, found]
        rw [Std.HashMap.getD_insert]
        by_cases hm : m = n <;> simp [hm]
      · simp [horigin]
  | some symbol =>
    have hcompleted : w.completed? item = none := if_neg (by simp [hnext])
    cases symbol <;> simp [hcompleted, found]

theorem isOver_blank : blank.IsOver w k [] where
  predicted_iff n := by simp [blank, WidenedGrammar.waiting]
  found_eq n := by simp [blank, found, WidenedGrammar.emptyCompletions]

namespace IsOver

/-- The moves read off the tables are those read off the items. -/
theorem moves_eq {chart : IndexedChart} {idx : Nat}
    (h : pass.IsOver w k ((chart.column k).items.take idx))
    (admits : Terminal → List Symbol → Bool) (lookahead : Terminal) (item : Item) :
    pass.moves w admits lookahead chart item =
      w.moves admits lookahead chart.plain k idx item := by
  have hfresh (n : Nonterminal) : (!pass.predicted.contains n) =
      (w.waiting n ((chart.column k).items.take idx)).isEmpty := by
    rw [Bool.eq_iff_iff, Bool.not_eq_true', ← Bool.not_eq_true, h.predicted_iff n,
      Decidable.not_not, List.isEmpty_iff]
  simp only [moves, WidenedGrammar.moves, chart.column_plain, hfresh, ← h.found_eq]

/-- Noting an item keeps the tables in agreement with the items. -/
theorem note {earlier : List Item} (h : pass.IsOver w k earlier) (item : Item) :
    (pass.note w k item).IsOver w k (earlier ++ [item]) where
  predicted_iff n := by
    rw [contains_predicted_note, h.predicted_iff n]
    by_cases hnext : w.next? item = some (.nonterminal n) <;>
      simp [WidenedGrammar.waiting, hnext]
  found_eq n := by
    rw [found_note, h.found_eq n]
    by_cases hfound : item.origin = k ∧ w.completed? item = some n <;>
      simp [WidenedGrammar.emptyCompletions, hfound]

end IsOver

end ColumnPass

/-! ### Building a column -/

namespace IndexedState

variable {k : Nat} {s : IndexedState}

/-- A move keeps the chart exact, and it is carried out on the lists. -/
theorem plain_apply (h : s.chart.IsExact) (m : Move) :
    (s.apply k m).chart.IsExact ∧ (s.apply k m).plain = s.plain.apply k m := by
  cases m with
  | advance parent child =>
    exact ⟨h.add k _, congrArg (ParseState.mk · _) (h.plain_add k parent.advance)⟩
  | start rule => exact ⟨h.add k _, congrArg (ParseState.mk · _) (h.plain_add k (.start rule k))⟩
  | scan item => exact ⟨h.add _ _, congrArg (ParseState.mk · _) (h.plain_add (k + 1) item.advance)⟩

theorem plain_applyAll (h : s.chart.IsExact) (ms : List Move) :
    (s.applyAll k ms).chart.IsExact ∧ (s.applyAll k ms).plain = s.plain.applyAll k ms := by
  induction ms generalizing s with
  | nil => exact ⟨h, rfl⟩
  | cons m ms ih =>
    obtain ⟨hexact, hplain⟩ := plain_apply (k := k) h m
    obtain ⟨hexact', hplain'⟩ := ih hexact
    exact ⟨hexact', hplain'.trans (congrArg (ParseState.applyAll k · ms) hplain)⟩

/-- The items up to the one that has been worked on stay where they are. -/
theorem take_items_applyAll (h : s.chart.IsExact) {idx : Nat} {item : Item}
    (hitem : (s.chart.column k).items[idx]? = some item) (ms : List Move) :
    ((s.applyAll k ms).chart.column k).items.take (idx + 1) =
      (s.chart.column k).items.take idx ++ [item] := by
  obtain ⟨hlt, -⟩ := List.getElem?_eq_some_iff.mp hitem
  have hgrows : (s.chart.column k).items <+: ((s.applyAll k ms).chart.column k).items := by
    have := (s.plain.extends_applyAll k ms).column k
    rw [← (plain_applyAll h ms).2] at this
    simpa only [plain, IndexedChart.column_plain] using this
  obtain ⟨added, hadded⟩ := hgrows
  rw [← hadded, List.take_append_of_le_length (Nat.succ_le_of_lt hlt), List.take_add_one, hitem]
  rfl

/-- Working on the items of a column sees the same items on the lists. -/
theorem plain_close (w : WidenedGrammar) (admits : Terminal → List Symbol → Bool)
    (lookahead : Terminal) (idx : Nat) (pass : ColumnPass) (h : s.chart.IsExact)
    (hpass : pass.IsOver w k ((s.chart.column k).items.take idx)) :
    (s.close w admits lookahead k idx pass).chart.IsExact ∧
      (s.close w admits lookahead k idx pass).plain = s.plain.close w admits lookahead k idx := by
  fun_induction close w admits lookahead k idx pass s with
  | case1 idx pass s hitem =>
    have hlist : (s.plain.chart.column k)[idx]? = none := s.chart.column_plain k ▸ hitem
    rw [ParseState.close, hlist]
    exact ⟨h, rfl⟩
  | case2 idx pass s item hitem ih =>
    have hlist : (s.plain.chart.column k)[idx]? = some item := s.chart.column_plain k ▸ hitem
    have hnoted := hpass.note item
    rw [← take_items_applyAll h hitem] at hnoted
    obtain ⟨hexact, hplain⟩ :=
      plain_applyAll (k := k) h (pass.moves w admits lookahead s.chart item)
    obtain ⟨hexact', hplain'⟩ := ih hexact hnoted
    have hmoves := congrArg (s.plain.applyAll k) (hpass.moves_eq admits lookahead item)
    rw [ParseState.close, hlist]
    exact ⟨hexact', hplain'.trans (congrArg _ (hplain.trans hmoves))⟩

/-- Building a column keeps the chart exact, and builds the column on the lists. -/
theorem plain_build (w : WidenedGrammar) (admits : Terminal → List Symbol → Bool)
    (lookahead : Terminal) (k : Nat) (h : s.chart.IsExact) :
    (s.build w admits lookahead k).chart.IsExact ∧
      (s.build w admits lookahead k).plain = s.plain.build w admits lookahead k := by
  have hopened : (⟨s.chart.ensure (k + 1), s.forest⟩ : IndexedState).plain =
      { s.plain with chart := s.plain.chart.ensure (k + 1) } :=
    congrArg (ParseState.mk · s.forest) (s.chart.plain_ensure (k + 1))
  rw [ParseState.build, ← hopened]
  exact plain_close w admits lookahead 0 .blank (h.ensure (k + 1)) ColumnPass.isOver_blank

end IndexedState

end NounPhrase
