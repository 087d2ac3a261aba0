import Mathlib.Data.Set.Basic
import Mathlib.Order.Bounds.Defs
import NounPhrase.Proofs.Chart.Rollback
import NounPhrase.Proofs.Chart.Saturation

/-!
# What building a column adds

The items of a set call for moves in a column: a completed item advances those that wait for it
where it begins, which may be the set itself; an item that waits for a nonterminal starts the rules
for it that can be of use; and an item that waits for the next terminal is carried over. Building a
column adds what the items of the built column call for, and nothing else: it is the least column
that has the items of the old one and what they call for, the next column gains the items that are
carried over, and the forest gains the completed items over which others advance.

A completed item that begins in the next column looks for its parents there, while that column is
still growing. So for the least column and the forest it is asked that no such item has found what
an item waits for that is carried over. Then it makes no difference in which order the items are
worked on. It is enough that the items of the column and of those before it begin no later than
they; what the columns behind it hold makes no difference.

## Main definitions

* `GrowsTo`: a list is another one with new members behind it.
* `Grammar.IsOfUse`: a right-hand side can be of use before a terminal.
* `WidenedGrammar.CallsFor`: the moves that a set of items calls for.
* `WidenedGrammar.IsClosedIn`: a set of items has what it calls for.
* `WidenedGrammar.called`: the items that a list of items calls for.
* `ParseState.IsClearIn`, `ParseState.IsClear`: what is carried over is not looked for at once.
* `ParseState.CarriesOver`, `ParseState.AddsLeast`: what is added to the chart, and how little.

## Main results

* `ParseState.isClear_of_origin_le`: it is not, if no item of the columns up to this one begins
  behind it.
* `ParseState.build_callsFor_induction`: what called-for moves preserve holds of the built column.
* `ParseState.isDone_of_callsFor`: what a built column calls for is done.
* `carriesOver_and_addsLeast_build`: building a column adds what it calls for and nothing else.
* `not_isLeast_crossing`: a chart where the built column is not the least one.
-/

namespace NounPhrase

/-! ### Growing lists -/

/-- The second list is the first with further members behind it, which the first does not have, and
none of them twice. -/
def GrowsTo {α : Type} (old new : List α) : Prop :=
  ∃ gained, new = old ++ gained ∧ gained.Nodup ∧ ∀ a ∈ gained, a ∉ old

namespace GrowsTo

variable {α : Type} {old new : List α}

theorem refl (l : List α) : GrowsTo l l := ⟨[], by simp⟩

theorem concat (h : GrowsTo old new) {a : α} (ha : a ∉ new) : GrowsTo old (new ++ [a]) := by
  obtain ⟨gained, rfl, hnodup, hnew⟩ := h
  rw [List.mem_append, not_or] at ha
  refine ⟨gained ++ [a], List.append_assoc .., List.nodup_append.mpr ⟨hnodup, by simp, ?_⟩, ?_⟩
  · rintro b hb c hc rfl
    exact ha.2 (List.mem_singleton.mp hc ▸ hb)
  · intro b hb
    rcases List.mem_append.mp hb with hb | hb
    · exact hnew b hb
    · exact List.mem_singleton.mp hb ▸ ha.1

/-- Where the old list has no member twice, neither has the new one. -/
theorem nodup (h : GrowsTo old new) (hold : old.Nodup) : new.Nodup := by
  obtain ⟨gained, rfl, hnodup, hnew⟩ := h
  exact List.nodup_append.mpr ⟨hold, hnodup, fun a ha b hb hab => hnew b hb (hab ▸ ha)⟩

end GrowsTo

theorem Chart.growsTo_column_add {old : Column} {c : Chart} {j k : Nat} {i : Item}
    (h : GrowsTo old (c.column j)) : GrowsTo old ((c.add k i).column j) := by
  rw [column_add]
  split
  · next hj =>
    subst hj
    rw [Column.insert]
    split
    · exact h
    · next hi => exact h.concat hi
  · exact h

namespace Forest

variable {f : Forest} {key child key' : Cell}

theorem growsTo_childrenOf_record {old : List Cell} (h : GrowsTo old (f.childrenOf key')) :
    GrowsTo old ((f.record key child).childrenOf key') := by
  rw [childrenOf_record]
  split
  · next hkey =>
    subst hkey
    split
    · exact h
    · next hchild => exact h.concat hchild
  · exact h

/-- A cell that gains no child by a record keeps its entry. -/
theorem get?_record (h : (f.record key child).childrenOf key' = f.childrenOf key') :
    (f.record key child).get? key' = f.get? key' := by
  by_cases hkey : key' = key
  · have hmem : child ∈ (f.record key child).childrenOf key' :=
      mem_childrenOf_record.mpr (.inr ⟨hkey, rfl⟩)
    rw [get?_eq_some_childrenOf (List.ne_nil_of_mem hmem), h,
      get?_eq_some_childrenOf (List.ne_nil_of_mem (h ▸ hmem))]
  · exact get?_record_of_ne hkey

end Forest

/-! ### Moves that are called for -/

/-- A right-hand side can be of use before a terminal if it is empty or begins with the terminal, or
if it begins with a nonterminal whose first set admits the terminal. Before the end of the input
every nonterminal will do. -/
def Grammar.IsOfUse (g : Grammar) (lookahead : Terminal) (rhs : List Symbol) : Prop :=
  rhs = [] ∨ rhs.head? = some (.terminal lookahead) ∨
    ∃ n, rhs.head? = some (.nonterminal n) ∧ (lookahead = .eof ∨ g.first.admits n lookahead)

theorem Grammar.admits_iff {g : Grammar} {lookahead : Terminal} {rhs : List Symbol} :
    g.admits lookahead rhs ↔ g.IsOfUse lookahead rhs := by
  unfold admits IsOfUse
  split <;> simp

namespace WidenedGrammar

/-- The moves that the items of the set `S` call for in column `k`, where the other columns are
those of the chart. -/
def CallsFor (w : WidenedGrammar) (lookahead : Terminal) (k : Nat) (chart : Chart) (S : Set Item) :
    Move → Prop
  | .advance p c => c ∈ S ∧ (if c.origin = k then p ∈ S else p ∈ chart.column c.origin) ∧
      ∃ n, w.completed? c = some n ∧ w.next? p = some (.nonterminal n)
  | .start id => ∃ p ∈ S, ∃ r, w.next? p = some (.nonterminal r.lhs) ∧ w.rule? id = some r ∧
      w.grammar.IsOfUse lookahead r.rhs
  | .scan p => p ∈ S ∧ w.next? p = some (.terminal lookahead)

/-- The set has the items that its items call for in column `k`. -/
structure IsClosedIn (w : WidenedGrammar) (lookahead : Terminal) (k : Nat) (chart : Chart)
    (S : Set Item) : Prop where
  completed : ∀ p c, w.CallsFor lookahead k chart S (.advance p c) → p.advance ∈ S
  predicted : ∀ id, w.CallsFor lookahead k chart S (.start id) → .start id k ∈ S

variable {w : WidenedGrammar} {lookahead : Terminal} {k : Nat} {chart : Chart} {S S' : Set Item}

theorem CallsFor.mono (hS : S ⊆ S') {m : Move} (h : w.CallsFor lookahead k chart S m) :
    w.CallsFor lookahead k chart S' m := by
  cases m with
  | advance p c =>
    obtain ⟨hc, hp, hn⟩ := h
    refine ⟨hS hc, ?_, hn⟩
    split at hp
    · next hk => exact (if_pos hk).mpr (hS hp)
    · next hk => exact (if_neg hk).mpr hp
  | start id =>
    obtain ⟨p, hp, hr⟩ := h
    exact ⟨p, hS hp, hr⟩
  | scan p => exact ⟨hS h.1, h.2⟩

theorem mem_admitted {n : Nonterminal} {id : RuleId} :
    id ∈ w.admitted (w.grammar.admits lookahead) n ↔
      ∃ r, w.rule? id = some r ∧ r.lhs = n ∧ w.grammar.IsOfUse lookahead r.rhs := by
  rw [admitted, List.mem_filter, mem_rulesFor, Grammar.admits_iff]
  constructor
  · rintro ⟨⟨r, hr, hn⟩, huse⟩
    exact ⟨r, hr, hn, rhs_eq_of_rule? hr ▸ huse⟩
  · rintro ⟨r, hr, hn, huse⟩
    exact ⟨⟨r, hr, hn⟩, (rhs_eq_of_rule? hr).symm ▸ huse⟩

/-- The items that the items of a list call for in column `k`. -/
def called (w : WidenedGrammar) (lookahead : Terminal) (k : Nat) (chart : Chart)
    (items : List Item) : List Item :=
  items.flatMap fun i =>
    match w.next? i with
    | none => (w.completed? i).elim [] fun n =>
        (w.waiting n (if i.origin = k then items else chart.column i.origin)).map .advance
    | some (.nonterminal n) => (w.admitted (w.grammar.admits lookahead) n).map (.start · k)
    | some (.terminal _) => []

/-- A list is closed if it has the items that it calls for. -/
theorem isClosedIn_iff {items : List Item} :
    w.IsClosedIn lookahead k chart {i | i ∈ items} ↔
      ∀ i ∈ w.called lookahead k chart items, i ∈ items := by
  constructor
  · intro h i hi
    obtain ⟨j, hj, hi⟩ := List.mem_flatMap.mp hi
    split at hi
    · cases hcomplete : w.completed? j with
      | none => simp [hcomplete] at hi
      | some n =>
        rw [hcomplete] at hi
        obtain ⟨p, hp, rfl⟩ := List.mem_map.mp hi
        obtain ⟨hp, hnext⟩ := mem_waiting.mp hp
        refine h.completed p j ⟨hj, ?_, n, hcomplete, hnext⟩
        split at hp
        · next hk => exact (if_pos hk).mpr hp
        · next hk => exact (if_neg hk).mpr hp
    · next n hnext =>
      obtain ⟨id, hid, rfl⟩ := List.mem_map.mp hi
      obtain ⟨r, hr, rfl, huse⟩ := mem_admitted.mp hid
      exact h.predicted id ⟨j, hj, r, hnext, hr, huse⟩
    · simp at hi
  · refine fun h => ⟨fun p c hm => ?_, fun id hm => ?_⟩
    · obtain ⟨hc, hp, n, hcomplete, hnext⟩ := hm
      refine h _ (List.mem_flatMap.mpr ⟨c, hc, ?_⟩)
      rw [next?_of_completed? hcomplete, hcomplete]
      refine List.mem_map_of_mem (mem_waiting.mpr ⟨?_, hnext⟩)
      split at hp
      · next hk => rwa [if_pos hk]
      · next hk => rwa [if_neg hk]
    · obtain ⟨p, hp, r, hnext, hr, huse⟩ := hm
      refine h _ (List.mem_flatMap.mpr ⟨p, hp, ?_⟩)
      rw [hnext]
      exact List.mem_map_of_mem (mem_admitted.mpr ⟨r, hr, rfl, huse⟩)

instance (items : List Item) : Decidable (w.IsClosedIn lookahead k chart {i | i ∈ items}) :=
  decidable_of_iff _ isClosedIn_iff.symm

end WidenedGrammar

/-! ### Building a column -/

namespace ParseState

variable {w : WidenedGrammar} {lookahead : Terminal} {k : Nat} {s : ParseState}

/-- The set has the items of column `k` and what they call for. Where a completed item of the set
begins in the next column, no item waits for what it has found that is carried over from the set and
was not there before. -/
structure IsClearIn (w : WidenedGrammar) (lookahead : Terminal) (k : Nat) (s : ParseState)
    (S : Set Item) : Prop where
  mem_of_mem_column : ∀ i ∈ s.chart.column k, i ∈ S
  isClosedIn : w.IsClosedIn lookahead k s.chart S
  mem_next : ∀ c ∈ S, c.origin = k + 1 → ∀ n, w.completed? c = some n → ∀ p ∈ S,
    w.next? p = some (.terminal lookahead) → w.next? p.advance = some (.nonterminal n) →
      p.advance ∈ s.chart.column (k + 1)

/-- What is carried over into the next column is not looked for there when column `k` is built. -/
def IsClear (w : WidenedGrammar) (lookahead : Terminal) (k : Nat) (s : ParseState) : Prop :=
  ∃ S, s.IsClearIn w lookahead k S

/-- The old columns are the beginnings of the new ones, and no item is added twice; the next column
gains the items that are carried over, and column `k` alone changes besides. -/
structure CarriesOver (w : WidenedGrammar) (lookahead : Terminal) (k : Nat) (s s' : ParseState) :
    Prop where
  grows : ∀ j, GrowsTo (s.chart.column j) (s'.chart.column j)
  mem_next : ∀ i, i ∈ s'.chart.column (k + 1) ↔ i ∈ s.chart.column (k + 1) ∨
    ∃ p ∈ s'.chart.column k, w.next? p = some (.terminal lookahead) ∧ i = p.advance
  column_eq : ∀ j, j ≠ k → j ≠ k + 1 → s'.chart.column j = s.chart.column j
  size_eq : s'.chart.size = max s.chart.size (k + 2)

/-- Column `k` is the least set that has its old items and is closed. The cells of the forest gain
the completed items over which others advance, behind the children that they had, and no other cell
changes. -/
structure AddsLeast (w : WidenedGrammar) (lookahead : Terminal) (k : Nat) (s s' : ParseState) :
    Prop where
  isLeast : IsLeast {S : Set Item | (∀ i ∈ s.chart.column k, i ∈ S) ∧
    w.IsClosedIn lookahead k s.chart S} {i | i ∈ s'.chart.column k}
  grows : ∀ key, GrowsTo (s.forest.childrenOf key) (s'.forest.childrenOf key)
  mem_childrenOf : ∀ key child, child ∈ s'.forest.childrenOf key ↔
    child ∈ s.forest.childrenOf key ∨ ∃ p c,
      w.CallsFor lookahead k s.chart {i | i ∈ s'.chart.column k} (.advance p c) ∧
        key = ⟨p.advance, k⟩ ∧ child = ⟨c, k⟩
  get?_eq : ∀ key, s'.forest.childrenOf key = s.forest.childrenOf key →
    s'.forest.get? key = s.forest.get? key

/-! #### What is added at all -/

section Growth

variable {admits : Terminal → List Symbol → Bool}

/-- Building a column adds no item twice. -/
theorem growsTo_column_build (j : Nat) :
    GrowsTo (s.chart.column j) ((s.build w admits lookahead k).chart.column j) := by
  refine build_induction (P := fun s' => GrowsTo (s.chart.column j) (s'.chart.column j))
    (fun s' m hs _ => ?_) (by rw [column_opened]; exact .refl _)
  cases m with
  | advance p c => exact Chart.growsTo_column_add hs
  | start id => exact Chart.growsTo_column_add hs
  | scan p => exact Chart.growsTo_column_add hs

/-- Building a column adds no child twice. -/
theorem growsTo_childrenOf_build (key : Cell) :
    GrowsTo (s.forest.childrenOf key) ((s.build w admits lookahead k).forest.childrenOf key) := by
  refine build_induction
    (P := fun s' => GrowsTo (s.forest.childrenOf key) (s'.forest.childrenOf key))
    (fun s' m hs _ => ?_) (.refl _)
  cases m with
  | advance p c => exact Forest.growsTo_childrenOf_record hs
  | start id => exact hs
  | scan p => exact hs

/-- A cell that gains no child keeps its entry. -/
theorem get?_build {key : Cell}
    (h : (s.build w admits lookahead k).forest.childrenOf key = s.forest.childrenOf key) :
    (s.build w admits lookahead k).forest.get? key = s.forest.get? key := by
  -- a cell that gains no child has gained none before
  refine (build_induction (P := fun s' => s.forest.childrenOf key <+: s'.forest.childrenOf key ∧
    (s'.forest.childrenOf key = s.forest.childrenOf key →
      s'.forest.get? key = s.forest.get? key)) (fun s' m hs _ => ?_)
    ⟨List.prefix_refl _, fun _ => rfl⟩).2 h
  have hext := (s'.extends_apply k m).childrenOf key
  refine ⟨hs.1.trans hext, fun heq => ?_⟩
  have heq' : s'.forest.childrenOf key = s.forest.childrenOf key :=
    (hs.1.eq_of_length_le (heq ▸ hext).length_le).symm
  rw [← hs.2 heq']
  cases m with
  | advance p c => exact Forest.get?_record (heq.trans heq'.symm)
  | start id => rfl
  | scan p => rfl

/-- The next column gains the items that are carried over. -/
theorem mem_next_build {i : Item} :
    i ∈ (s.build w admits lookahead k).chart.column (k + 1) ↔ i ∈ s.chart.column (k + 1) ∨
      ∃ p ∈ (s.build w admits lookahead k).chart.column k,
        w.next? p = some (.terminal lookahead) ∧ i = p.advance := by
  constructor
  · refine build_induction (P := fun s' => i ∈ s'.chart.column (k + 1) →
      i ∈ s.chart.column (k + 1) ∨ ∃ p ∈ s'.chart.column k,
        w.next? p = some (.terminal lookahead) ∧ i = p.advance) (fun s' m hs hm hi => ?_)
      (fun hi => .inl (by rwa [column_opened] at hi))
    have hold (hi : i ∈ s'.chart.column (k + 1)) : i ∈ s.chart.column (k + 1) ∨
        ∃ p ∈ (s'.apply k m).chart.column k,
          w.next? p = some (.terminal lookahead) ∧ i = p.advance :=
      (hs hi).imp_right fun ⟨p, hp, h⟩ => ⟨p, (s'.extends_apply k m).mem_column hp, h⟩
    cases m with
    | advance p c => exact hold (by rwa [apply, Chart.column_add_of_ne _ _ (by simp)] at hi)
    | start id => exact hold (by rwa [apply, Chart.column_add_of_ne _ _ (by simp)] at hi)
    | scan p =>
      rcases Chart.mem_column_add.mp hi with hi | ⟨-, rfl⟩
      · exact hold hi
      · exact .inr ⟨p, (s'.extends_apply k _).mem_column hm.1, hm.2, rfl⟩
  · rintro (hi | ⟨p, hp, hnext, rfl⟩)
    · exact (s.extends_build w admits lookahead k).mem_column hi
    · exact advance_mem_column_build hp hnext

end Growth

/-! #### Nothing more than is called for -/

/-- If the items up to column `k` begin there or before, then no item that comes to column `k`
begins behind it. -/
theorem isClear_of_origin_le (h : ∀ j ≤ k, ∀ i ∈ s.chart.column j, i.origin ≤ k) :
    s.IsClear w lookahead k := by
  refine ⟨{i | i.origin ≤ k}, h k (Nat.le_refl k), ⟨fun p c hm => ?_, fun id _ => Nat.le_refl k⟩,
    fun c hc hk => ?_⟩
  · obtain ⟨hc, hp, -⟩ := hm
    split at hp
    · exact hp
    · exact h _ hc p hp
  · have hle : c.origin ≤ k := hc
    omega

/-- The items that have come to column `k` are in the set, the next column has gained such as are
carried over from the set, and the other columns are the old ones. -/
structure IsWithin (w : WidenedGrammar) (lookahead : Terminal) (k : Nat) (s : ParseState)
    (S : Set Item) (s' : ParseState) : Prop where
  mem_of_mem_column : ∀ i ∈ s'.chart.column k, i ∈ S
  mem_next : ∀ i ∈ s'.chart.column (k + 1), i ∈ s.chart.column (k + 1) ∨
    ∃ p ∈ S, w.next? p = some (.terminal lookahead) ∧ i = p.advance
  column_eq : ∀ j, j ≠ k → j ≠ k + 1 → s'.chart.column j = s.chart.column j

namespace IsWithin

variable {S : Set Item} {s' : ParseState} {m : Move}

/-- An allowed move is called for. -/
theorem callsFor (h : s.IsWithin w lookahead k S s') (hS : s.IsClearIn w lookahead k S)
    (hm : w.Allows w.grammar.admits lookahead k s'.chart m) :
    w.CallsFor lookahead k s.chart {i | i ∈ s'.chart.column k} m := by
  cases m with
  | advance p c =>
    obtain ⟨hc, hp, n, hcomplete, hnext⟩ := hm
    refine ⟨hc, ?_, n, hcomplete, hnext⟩
    split
    · next hk => exact hk ▸ hp
    · next hk =>
      by_cases hk' : c.origin = k + 1
      · rw [hk'] at hp ⊢
        -- a parent that was carried over has been there before
        rcases h.mem_next p hp with hp | ⟨q, hq, hterminal, rfl⟩
        · exact hp
        · exact hS.mem_next c (h.mem_of_mem_column c hc) hk' n hcomplete q hq hterminal hnext
      · rwa [← h.column_eq _ hk hk']
  | start id =>
    obtain ⟨p, hp, n, hnext, hid⟩ := hm
    obtain ⟨r, hr, rfl, huse⟩ := WidenedGrammar.mem_admitted.mp hid
    exact ⟨p, hp, r, hnext, hr, huse⟩
  | scan p => exact hm

/-- A move that is called for leaves the set as little. -/
theorem apply (h : s.IsWithin w lookahead k S s') (hS : s.IsClearIn w lookahead k S)
    (hm : w.CallsFor lookahead k s.chart {i | i ∈ s'.chart.column k} m) :
    s.IsWithin w lookahead k S (s'.apply k m) := by
  have hmS : w.CallsFor lookahead k s.chart S m := hm.mono h.mem_of_mem_column
  refine ⟨fun i hi => ?_, fun i hi => ?_,
    fun j hj hj' => (s'.column_apply_of_ne m hj hj').trans (h.column_eq j hj hj')⟩
  · cases m with
    | advance p c =>
      rcases Chart.mem_column_add.mp hi with hi | ⟨-, rfl⟩
      · exact h.mem_of_mem_column i hi
      · exact hS.isClosedIn.completed p c hmS
    | start id =>
      rcases Chart.mem_column_add.mp hi with hi | ⟨-, rfl⟩
      · exact h.mem_of_mem_column i hi
      · exact hS.isClosedIn.predicted id hmS
    | scan p =>
      exact h.mem_of_mem_column i
        (by rwa [ParseState.apply, Chart.column_add_of_ne _ _ (by simp)] at hi)
  · cases m with
    | advance p c =>
      exact h.mem_next i (by rwa [ParseState.apply, Chart.column_add_of_ne _ _ (by simp)] at hi)
    | start id =>
      exact h.mem_next i (by rwa [ParseState.apply, Chart.column_add_of_ne _ _ (by simp)] at hi)
    | scan p =>
      rcases Chart.mem_column_add.mp hi with hi | ⟨-, rfl⟩
      · exact h.mem_next i hi
      · exact .inr ⟨p, hmS.1, hmS.2, rfl⟩

end IsWithin

/-- What moves preserve that the items of the column call for, holds of the built column. -/
theorem build_callsFor_induction {P : ParseState → Prop} (hs : s.IsClear w lookahead k)
    (step : ∀ s' m, P s' → w.CallsFor lookahead k s.chart {i | i ∈ s'.chart.column k} m →
      P (s'.apply k m)) (h : P (s.opened k)) :
    P (s.build w w.grammar.admits lookahead k) := by
  obtain ⟨S, hS⟩ := hs
  refine (build_induction (P := fun s' => s.IsWithin w lookahead k S s' ∧ P s')
    (fun s' m hs' hm => ?_) ⟨⟨fun i hi => ?_, fun i hi => ?_, fun j _ _ => column_opened ..⟩, h⟩).2
  · have hm := hs'.1.callsFor hS hm
    exact ⟨hs'.1.apply hS hm, step s' m hs'.2 hm⟩
  · exact hS.mem_of_mem_column i (by rwa [column_opened] at hi)
  · exact .inl (by rwa [column_opened] at hi)

/-- A built column has no more items than a closed set that has the old ones. -/
theorem mem_of_mem_column_build (hs : s.IsClear w lookahead k) {S : Set Item}
    (hold : ∀ i ∈ s.chart.column k, i ∈ S) (hS : w.IsClosedIn lookahead k s.chart S) :
    ∀ i ∈ (s.build w w.grammar.admits lookahead k).chart.column k, i ∈ S := by
  refine build_callsFor_induction (P := fun s' => ∀ i ∈ s'.chart.column k, i ∈ S) hs
    (fun s' m hs' hm i hi => ?_) (by simpa only [column_opened] using hold)
  have hm : w.CallsFor lookahead k s.chart S m := hm.mono hs'
  cases m with
  | advance p c =>
    rcases Chart.mem_column_add.mp hi with hi | ⟨-, rfl⟩
    · exact hs' i hi
    · exact hS.completed p c hm
  | start id =>
    rcases Chart.mem_column_add.mp hi with hi | ⟨-, rfl⟩
    · exact hs' i hi
    · exact hS.predicted id hm
  | scan p => exact hs' i (by rwa [apply, Chart.column_add_of_ne _ _ (by simp)] at hi)

/-- The forest gains no other children than the completed items over which others advance. -/
theorem callsFor_of_mem_childrenOf_build (hs : s.IsClear w lookahead k) {key child : Cell}
    (hchild : child ∈ (s.build w w.grammar.admits lookahead k).forest.childrenOf key) :
    child ∈ s.forest.childrenOf key ∨ ∃ p c, w.CallsFor lookahead k s.chart
      {i | i ∈ (s.build w w.grammar.admits lookahead k).chart.column k} (.advance p c) ∧
        key = ⟨p.advance, k⟩ ∧ child = ⟨c, k⟩ := by
  revert hchild
  refine build_callsFor_induction (P := fun s' => child ∈ s'.forest.childrenOf key →
    child ∈ s.forest.childrenOf key ∨ ∃ p c,
      w.CallsFor lookahead k s.chart {i | i ∈ s'.chart.column k} (.advance p c) ∧
        key = ⟨p.advance, k⟩ ∧ child = ⟨c, k⟩) hs (fun s' m hs' hm hchild => ?_) .inl
  have hmono : {i | i ∈ s'.chart.column k} ⊆ {i | i ∈ (s'.apply k m).chart.column k} :=
    fun i => (s'.extends_apply k m).mem_column
  have hold (hchild : child ∈ s'.forest.childrenOf key) : child ∈ s.forest.childrenOf key ∨ ∃ p c,
      w.CallsFor lookahead k s.chart {i | i ∈ (s'.apply k m).chart.column k} (.advance p c) ∧
        key = ⟨p.advance, k⟩ ∧ child = ⟨c, k⟩ :=
    (hs' hchild).imp_right fun ⟨p, c, h, heq⟩ => ⟨p, c, h.mono hmono, heq⟩
  cases m with
  | advance p c =>
    rcases Forest.mem_childrenOf_record.mp hchild with hchild | ⟨rfl, rfl⟩
    · exact hold hchild
    · exact .inr ⟨p, c, hm.mono hmono, rfl, rfl⟩
  | start id => exact hold hchild
  | scan p => exact hold hchild

/-! #### All that is called for -/

/-- What the items of a built column call for is done. -/
theorem isDone_of_callsFor {m : Move}
    (hm : w.CallsFor lookahead k s.chart
      {i | i ∈ (s.build w w.grammar.admits lookahead k).chart.column k} m) :
    m.IsDone k (s.build w w.grammar.admits lookahead k) := by
  have hclosed := closed_build w w.grammar.admits lookahead k s
  cases m with
  | advance p c =>
    obtain ⟨hc, hp, n, hcomplete, hnext⟩ := hm
    split at hp
    · next hk =>
      exact hclosed.advanced hc (hk ▸ Nat.ne_of_lt (Nat.lt_succ_self _)) (hk ▸ hp) hcomplete hnext
    · exact isDone_advance_build hc hp hcomplete hnext
  | start id =>
    obtain ⟨p, hp, r, hnext, hr, huse⟩ := hm
    exact hclosed.predicted p hp _ hnext id (WidenedGrammar.mem_admitted.mpr ⟨r, hr, rfl, huse⟩)
  | scan p => exact advance_mem_column_build hm.1 hm.2

end ParseState

/-- Building a column adds items to the column and the next one, no item twice, and the next column
gains the items that are carried over. If what is carried over is not looked for at once, as when
no item up to the column begins behind it, then the built column is the least closed one that has
the old items, and the forest gains the completed items over which others advance. -/
theorem carriesOver_and_addsLeast_build (w : WidenedGrammar) (lookahead : Terminal) (k : Nat)
    (s : ParseState) :
    s.CarriesOver w lookahead k (s.build w w.grammar.admits lookahead k) ∧
      ((∀ j ≤ k, ∀ i ∈ s.chart.column j, i.origin ≤ k) → s.IsClear w lookahead k) ∧
      (s.IsClear w lookahead k →
        s.AddsLeast w lookahead k (s.build w w.grammar.admits lookahead k)) := by
  have hext := s.extends_build w w.grammar.admits lookahead k
  refine ⟨⟨ParseState.growsTo_column_build, fun i => ParseState.mem_next_build,
    fun j => s.column_build_of_ne w _ lookahead, ParseState.size_build⟩,
    ParseState.isClear_of_origin_le, fun hs => ?_⟩
  have hclosed : w.IsClosedIn lookahead k s.chart
      {i | i ∈ (s.build w w.grammar.admits lookahead k).chart.column k} :=
    ⟨fun p c hm => (ParseState.isDone_of_callsFor hm).1,
      fun id hm => ParseState.isDone_of_callsFor hm⟩
  refine ⟨⟨⟨fun i => hext.mem_column, hclosed⟩, fun S hS => ?_⟩,
    ParseState.growsTo_childrenOf_build, fun key child => ⟨?_, ?_⟩,
    fun key => ParseState.get?_build⟩
  · exact ParseState.mem_of_mem_column_build hs hS.1 hS.2
  · exact ParseState.callsFor_of_mem_childrenOf_build hs
  · rintro (hchild | ⟨p, c, hm, rfl, rfl⟩)
    · exact hext.mem_childrenOf hchild
    · exact (ParseState.isDone_of_callsFor hm).2

/-- Three nouns have been read, and the second column is built once more with the sentence rule a
list of nouns wider. It has completed items, and it gains a list that begins where it ends. Of the
columns behind it, the fourth has a noun that begins in the third. -/
theorem carriesOver_and_addsLeast_build_nounLists :
    let w := Grammar.nounLists.unwidened.widen
    let s := ((Session.begin Grammar.nounLists).run
      [.add 0 Grammar.nounLists.unwidened.startItem, .build 0 .comNoun, .build 1 .comNoun,
        .build 2 .comNoun, .build 3 .eof]).state
    let s' := s.build w w.grammar.admits .comNoun 1
    (∀ j ≤ 1, ∀ i ∈ s.chart.column j, i.origin ≤ 1) ∧ (⟨⟨3⟩, 1, 2⟩ : Item) ∈ s.chart.column 3 ∧
      s'.chart.column 1 =
        s.chart.column 1 ++ [⟨⟨0⟩, 2, 0⟩, ⟨⟨1⟩, 0, 1⟩, ⟨⟨2⟩, 0, 1⟩, ⟨⟨1⟩, 1, 1⟩] ∧
      s'.forest.childrenOf ⟨⟨⟨0⟩, 2, 0⟩, 1⟩ = [⟨⟨⟨1⟩, 2, 0⟩, 1⟩, ⟨⟨⟨2⟩, 0, 1⟩, 1⟩] ∧
      s.CarriesOver w .comNoun 1 s' ∧ s.IsClear w .comNoun 1 ∧ s.AddsLeast w .comNoun 1 s' := by
  intro w s s'
  have horigin : ∀ j ≤ 1, ∀ i ∈ s.chart.column j, i.origin ≤ 1 := by decide +kernel
  obtain ⟨hcarries, hclear, hleast⟩ := carriesOver_and_addsLeast_build w .comNoun 1 s
  exact ⟨horigin, by decide +kernel, by decide +kernel, by decide +kernel, hcarries,
    hclear horigin, hleast (hclear horigin)⟩

/-! ### Items that begin in the next column -/

/-- A noun phrase is a determiner and a phrase, twice. -/
def Grammar.crossing : Grammar where
  entry := ⟨.sent, [.nonterminal .phrase], .sentence⟩
  others := [⟨.phrase, [.nonterminal .np], .phraseNp⟩,
    ⟨.np, [.terminal .det, .nonterminal .phrase, .terminal .det, .nonterminal .phrase], .sentence⟩]
  recovery := .phrase
  distinct := by decide
  start_unused := by decide
  entry_unique := by decide
  entry_ends := rfl
  faultless := by decide

/-- The items of the second column begin there or before, but a phrase in the first column begins in
the third. -/
def ParseState.crossing : ParseState where
  chart := ⟨[[⟨⟨1⟩, 0, 2⟩], [⟨⟨2⟩, 4, 0⟩, ⟨⟨2⟩, 0, 1⟩]]⟩
  forest := .blank

/-- Building the second column, the phrase is completed. It advances the noun phrase that it finds
in the third column, which did not stand there before, and it does not advance the one that is
carried over there afterwards. So the built column is not the least one, whether the parents are
looked up in the columns as they were or in those that come about. -/
theorem not_isLeast_crossing :
    (∀ i ∈ ParseState.crossing.chart.column 1, i.origin ≤ 1) ∧
    ∀ chart ∈ [ParseState.crossing.chart, (ParseState.crossing.build Grammar.crossing.unwidened
        Grammar.crossing.admits .det 1).chart],
      ¬ IsLeast {S : Set Item | (∀ i ∈ ParseState.crossing.chart.column 1, i ∈ S) ∧
          Grammar.crossing.unwidened.IsClosedIn .det 1 chart S}
        {i | i ∈ (ParseState.crossing.build Grammar.crossing.unwidened
          Grammar.crossing.admits .det 1).chart.column 1} := by
  refine ⟨by decide, fun chart hchart h => ?_⟩
  rw [List.mem_cons, List.mem_singleton] at hchart
  rcases hchart with rfl | rfl
  · -- without the noun phrase that was advanced, the column is closed
    have hsmaller : (∀ i ∈ ParseState.crossing.chart.column 1,
        i ∈ [⟨⟨2⟩, 4, 0⟩, ⟨⟨2⟩, 0, 1⟩, ⟨⟨1⟩, 1, 2⟩]) ∧ Grammar.crossing.unwidened.IsClosedIn .det 1
          ParseState.crossing.chart {i | i ∈ [⟨⟨2⟩, 4, 0⟩, ⟨⟨2⟩, 0, 1⟩, ⟨⟨1⟩, 1, 2⟩]} := by
      decide +kernel
    have hmem : (⟨⟨2⟩, 2, 1⟩ : Item) ∈ (ParseState.crossing.build Grammar.crossing.unwidened
        Grammar.crossing.admits .det 1).chart.column 1 := by
      decide +kernel
    have : (⟨⟨2⟩, 2, 1⟩ : Item) ∈ [⟨⟨2⟩, 4, 0⟩, ⟨⟨2⟩, 0, 1⟩, ⟨⟨1⟩, 1, 2⟩] := h.2 hsmaller hmem
    revert this
    decide
  · have hclosed := h.1.2
    revert hclosed
    decide +kernel

end NounPhrase
