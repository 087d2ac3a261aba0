import NounPhrase.Chart.Closure
import NounPhrase.Proofs.Forest.Children

/-!
# How a column grows

Building a column carries out moves that the column allows, one after the other. Every move adds
an item to the column or to the next one, at the end, or a child to a cell of the column, behind
the others; nothing is taken away, and no other column changes. A property that holds before a
column is built, and that every allowed move preserves, holds when the column has been built.

## Main definitions

* `ParseState.Extends`: one chart with its forest is the beginning of another.
* `WidenedGrammar.Allows`: the moves that a column allows.

## Main results

* `ParseState.extends_build`: building a column only adds.
* `ParseState.column_build_of_ne`: building a column changes at most the next one besides.
* `ParseState.build_induction`: what the allowed moves preserve holds of the built column.
-/

namespace NounPhrase

theorem Column.isPrefix_insert (c : Column) (i : Item) : c <+: c.insert i := by
  unfold insert
  split
  · exact List.prefix_refl c
  · exact List.prefix_append c [i]

namespace Chart

theorem column_isPrefix_add (c : Chart) (j k : Nat) (i : Item) :
    c.column j <+: (c.add k i).column j := by
  rw [column_add]
  split
  · next h => exact h ▸ Column.isPrefix_insert _ i
  · exact List.prefix_refl _

theorem mem_column_add {c : Chart} {j k : Nat} {i x : Item} :
    x ∈ (c.add k i).column j ↔ x ∈ c.column j ∨ j = k ∧ x = i := by
  rw [column_add]
  split
  · next h => simp [h, Column.mem_insert]
  · next h => simp [h]

theorem size_ensure (c : Chart) (k : Nat) : (c.ensure k).size = max c.size (k + 1) := by
  simp only [size, ensure, List.length_append, List.length_replicate]
  omega

theorem size_add (c : Chart) (k : Nat) (i : Item) : (c.add k i).size = max c.size (k + 1) := by
  rw [← size_ensure]
  simp [size, add]

end Chart

namespace ParseState

/-- The items of every column of `s` are the first ones of that column of `s'`, and the children of
every cell of `s` are the first ones of that cell of `s'`. -/
structure Extends (s s' : ParseState) : Prop where
  column : ∀ j, s.chart.column j <+: s'.chart.column j
  childrenOf : ∀ key, s.forest.childrenOf key <+: s'.forest.childrenOf key

namespace Extends

variable {s s' s'' : ParseState}

theorem refl (s : ParseState) : s.Extends s :=
  ⟨fun _ => List.prefix_refl _, fun _ => List.prefix_refl _⟩

theorem trans (h : s.Extends s') (h' : s'.Extends s'') : s.Extends s'' :=
  ⟨fun j => (h.column j).trans (h'.column j),
    fun key => (h.childrenOf key).trans (h'.childrenOf key)⟩

theorem mem_column (h : s.Extends s') {j : Nat} {i : Item} (hi : i ∈ s.chart.column j) :
    i ∈ s'.chart.column j :=
  (h.column j).subset hi

theorem mem_childrenOf (h : s.Extends s') {key c : Cell} (hc : c ∈ s.forest.childrenOf key) :
    c ∈ s'.forest.childrenOf key :=
  (h.childrenOf key).subset hc

end Extends

theorem extends_apply (s : ParseState) (k : Nat) (m : Move) : s.Extends (s.apply k m) := by
  cases m with
  | advance parent child =>
    exact ⟨fun j => s.chart.column_isPrefix_add j k _,
      fun key => s.forest.childrenOf_isPrefix_record _ _ key⟩
  | start rule => exact ⟨fun j => s.chart.column_isPrefix_add j k _, fun _ => List.prefix_refl _⟩
  | scan item => exact ⟨fun j => s.chart.column_isPrefix_add j _ _, fun _ => List.prefix_refl _⟩

theorem column_apply_of_ne (s : ParseState) {j k : Nat} (m : Move) (h : j ≠ k) (h' : j ≠ k + 1) :
    (s.apply k m).chart.column j = s.chart.column j := by
  cases m with
  | advance parent child => exact Chart.column_add_of_ne _ _ h
  | start rule => exact Chart.column_add_of_ne _ _ h
  | scan item => exact Chart.column_add_of_ne _ _ h'

/-- The state in which building column `k` begins. -/
def opened (s : ParseState) (k : Nat) : ParseState := { s with chart := s.chart.ensure (k + 1) }

@[simp] theorem column_opened (s : ParseState) (j k : Nat) :
    (s.opened k).chart.column j = s.chart.column j :=
  Chart.column_ensure ..

theorem extends_opened (s : ParseState) (k : Nat) : s.Extends (s.opened k) :=
  ⟨fun j => (s.column_opened j k).symm ▸ List.prefix_refl _, fun _ => List.prefix_refl _⟩

end ParseState

/-! ### Allowed moves -/

namespace WidenedGrammar

variable (w : WidenedGrammar) (admits : Terminal → List Symbol → Bool) (lookahead : Terminal)

/-- The moves that column `k` of a chart allows: an item advances over a completed item of the
column, from the column where that one began; a rule starts for which an item of the column waits;
and an item of the column is carried over the next terminal. -/
def Allows (k : Nat) (chart : Chart) : Move → Prop
  | .advance parent child => child ∈ chart.column k ∧ parent ∈ chart.column child.origin ∧
      ∃ n, w.completed? child = some n ∧ w.next? parent = some (.nonterminal n)
  | .start rule => ∃ i ∈ chart.column k, ∃ n, w.next? i = some (.nonterminal n) ∧
      rule ∈ w.admitted (admits lookahead) n
  | .scan item => item ∈ chart.column k ∧ w.next? item = some (.terminal lookahead)

variable {w admits lookahead} {k : Nat} {chart : Chart}

theorem Allows.mono {chart' : Chart} (h : ∀ j i, i ∈ chart.column j → i ∈ chart'.column j)
    {m : Move} (hm : w.Allows admits lookahead k chart m) :
    w.Allows admits lookahead k chart' m := by
  cases m with
  | advance parent child => exact ⟨h _ _ hm.1, h _ _ hm.2.1, hm.2.2⟩
  | start rule =>
    obtain ⟨i, hi, n, hn⟩ := hm
    exact ⟨i, h _ _ hi, n, hn⟩
  | scan item => exact ⟨h _ _ hm.1, hm.2⟩

theorem mem_waiting {n : Nonterminal} {items : List Item} {i : Item} :
    i ∈ w.waiting n items ↔ i ∈ items ∧ w.next? i = some (.nonterminal n) := by
  simp [waiting]

theorem mem_emptyCompletions {n : Nonterminal} {items : List Item} {i : Item} :
    i ∈ w.emptyCompletions k n items ↔
      i ∈ items ∧ i.origin = k ∧ w.completed? i = some n := by
  simp [emptyCompletions]

/-- The moves of an item are allowed. -/
theorem allows_of_mem_moves {idx : Nat} {item : Item} (hi : (chart.column k)[idx]? = some item)
    {m : Move} (hm : m ∈ w.moves admits lookahead chart k idx item) :
    w.Allows admits lookahead k chart m := by
  have hmem := List.mem_of_getElem? hi
  unfold moves movesBy at hm
  split at hm
  · split at hm
    · simp at hm
    · next n hc =>
      obtain ⟨p, hp, rfl⟩ := List.mem_map.mp hm
      obtain ⟨hp, hn⟩ := mem_waiting.mp hp
      exact ⟨hmem, hp, n, hc, hn⟩
  · next n hn =>
    rcases List.mem_append.mp hm with hm | hm
    · obtain ⟨c, hc, rfl⟩ := List.mem_map.mp hm
      obtain ⟨hc, horigin, hcomplete⟩ := mem_emptyCompletions.mp hc
      exact ⟨List.mem_of_mem_take hc, horigin ▸ hmem, n, hcomplete, hn⟩
    · split at hm
      · obtain ⟨id, hid, rfl⟩ := List.mem_map.mp hm
        exact ⟨item, hmem, n, hn, hid⟩
      · simp at hm
  · next t hn =>
    split at hm
    · next ht =>
      obtain rfl := List.mem_singleton.mp hm
      exact ⟨hmem, ht ▸ hn⟩
    · simp at hm

end WidenedGrammar

namespace ParseState

variable {w : WidenedGrammar} {admits : Terminal → List Symbol → Bool} {lookahead : Terminal}
  {k : Nat} {s : ParseState} {P : ParseState → Prop}

/-- What allowed moves preserve, a list of allowed moves preserves. -/
theorem applyAll_induction {ms : List Move}
    (hms : ∀ m ∈ ms, w.Allows admits lookahead k s.chart m)
    (step : ∀ s m, P s → w.Allows admits lookahead k s.chart m → P (s.apply k m)) (h : P s) :
    P (s.applyAll k ms) := by
  induction ms generalizing s with
  | nil => exact h
  | cons m ms ih =>
    refine ih (fun m' hm' => ?_) (step s m h (hms m List.mem_cons_self))
    exact (hms m' (List.mem_cons_of_mem _ hm')).mono fun j i => (s.extends_apply k m).mem_column

/-- What allowed moves preserve, working on the items from some place on preserves. -/
theorem close_induction {idx : Nat}
    (step : ∀ s m, P s → w.Allows admits lookahead k s.chart m → P (s.apply k m)) (h : P s) :
    P (close w admits lookahead k idx s) := by
  fun_induction close w admits lookahead k idx s with
  | case1 => exact h
  | case2 idx s item hi ih =>
    exact ih (applyAll_induction (fun m => WidenedGrammar.allows_of_mem_moves hi) step h)

/-- What allowed moves preserve holds of the built column. -/
theorem build_induction
    (step : ∀ s m, P s → w.Allows admits lookahead k s.chart m → P (s.apply k m))
    (h : P (s.opened k)) : P (s.build w admits lookahead k) :=
  close_induction step h

theorem extends_applyAll (s : ParseState) (k : Nat) (ms : List Move) :
    s.Extends (s.applyAll k ms) := by
  induction ms generalizing s with
  | nil => exact .refl s
  | cons m ms ih => exact (s.extends_apply k m).trans (ih _)

theorem column_applyAll_of_ne (s : ParseState) {j k : Nat} (ms : List Move) (h : j ≠ k)
    (h' : j ≠ k + 1) : (s.applyAll k ms).chart.column j = s.chart.column j := by
  induction ms generalizing s with
  | nil => rfl
  | cons m ms ih => exact (ih (s.apply k m)).trans (s.column_apply_of_ne m h h')

/-- Building a column only adds. -/
theorem extends_build (w : WidenedGrammar) (admits : Terminal → List Symbol → Bool)
    (lookahead : Terminal) (k : Nat) (s : ParseState) :
    s.Extends (s.build w admits lookahead k) :=
  build_induction (fun s' m h _ => h.trans (s'.extends_apply k m)) (s.extends_opened k)

/-- Building a column changes at most the next one besides. -/
theorem column_build_of_ne (w : WidenedGrammar) (admits : Terminal → List Symbol → Bool)
    (lookahead : Terminal) (s : ParseState) {j k : Nat} (h : j ≠ k) (h' : j ≠ k + 1) :
    (s.build w admits lookahead k).chart.column j = s.chart.column j :=
  build_induction (P := fun s' => s'.chart.column j = s.chart.column j)
    (fun s' m hs _ => (s'.column_apply_of_ne m h h').trans hs) (column_opened ..)

/-- Building column `k` makes the columns up to the next one. -/
theorem size_build : (s.build w admits lookahead k).chart.size = max s.chart.size (k + 2) := by
  refine build_induction (P := fun s' => s'.chart.size = max s.chart.size (k + 2))
    (fun s' m hs _ => ?_) (s.chart.size_ensure (k + 1))
  cases m with
  | advance q c => rw [apply, Chart.size_add, hs]; omega
  | start id => rw [apply, Chart.size_add, hs]; omega
  | scan q => rw [apply, Chart.size_add, hs]; omega

end ParseState

end NounPhrase
