import Mathlib.Data.Finset.Card
import NounPhrase.Forest.Tree
import NounPhrase.Proofs.Chart.Links
import NounPhrase.Proofs.Chart.Soundness
import NounPhrase.Proofs.Derivation.Acyclic
import NounPhrase.Proofs.Forest.Choice

/-!
# Going down in a forest

The tree of a cell is read off the forest from the right to the left. Going from a cell to one of
the children that are met on the way leads to a part of its stretch of the input. If it is not a
proper part, then what stands before and behind the child has vanished, and the nonterminal of the
cell derives that of the child by a step. So where no nonterminal derives itself, no way down comes
back to the same cell, and going down ends: a child has fewer cells below it than its parent.

## Main definitions

* `Cell.IsComplete`: the item of a cell has found a nonterminal.
* `ParseState.Descends`: a child is met on the way through a cell.
* `ParseState.below`: the number of cells below a cell.

## Main results

* `ParseState.not_transGen_descends`: no way down comes back.
* `ParseState.below_lt`, `ParseState.below_le`: fewer cells are below a child than below its parent,
  and never more than there are children.
-/

namespace NounPhrase

open Relation

namespace WidenedGrammar

variable {w : WidenedGrammar}

/-- An item that is complete at some width has found its nonterminal by a nested rule. -/
theorem isNestedRule_of_completed? {v : Nat} {i : Item} {n : Nonterminal}
    (h : (w.grammar.widened v).completed? i = some n) (hdot : i.dot ≤ (w.rhs i.rule).length) :
    (w.rule? i.rule).map Rule.lhs = some n ∧
      w.IsNestedRule n ((w.rhs i.rule).take i.dot) := by
  obtain ⟨r, hr, rfl, k, hk, hmem⟩ := exists_upTo_mem_rules h hdot
  refine ⟨by rw [hr]; rfl, k, hk, r.upTo i.dot, hmem, rfl, ?_⟩
  rw [rhs_eq_of_rule? hr, Rule.upTo]

end WidenedGrammar

/-- A best child is a child. -/
theorem Forest.mem_childrenOf_of_resolve {f : Forest} {w : WidenedGrammar} {key c : Cell}
    (h : (f.get? key).bind w.resolve = some c) : c ∈ f.childrenOf key := by
  obtain ⟨cs, hcs, hresolve⟩ := Option.bind_eq_some_iff.mp h
  have hne : cs ≠ [] := fun hnil => by simp [hnil, WidenedGrammar.resolve] at hresolve
  obtain ⟨c', hc', heq⟩ := WidenedGrammar.exists_resolve_eq_some (w := w) hne
  obtain rfl := Option.some.inj (hresolve.symm.trans heq)
  rw [Forest.childrenOf, hcs]
  exact hc'

/-- The item of the cell has found the nonterminal `n`, by a sentence rule of any width so far or by
another rule. -/
structure Cell.IsComplete (w : WidenedGrammar) (s : ParseState) (n : Nonterminal) (cell : Cell) :
    Prop where
  mem_column : cell.item ∈ s.chart.column cell.column
  lhs_eq : (w.rule? cell.item.rule).map Rule.lhs = some n
  isNestedRule : w.IsNestedRule n ((w.rhs cell.item.rule).take cell.item.dot)

namespace ParseState

variable {w : WidenedGrammar} {input : List Terminal} {builds : Nat → List Nat} {s : ParseState}

/-- What a child of a cell has found is what the item of the cell had waited for. -/
theorem IsLinked.child (hl : s.IsLinked w input builds) {p : Item} {k : Nat} {n : Nonterminal}
    (hnext : w.next? p = some (.nonterminal n)) {c : Cell}
    (hc : c ∈ s.forest.childrenOf ⟨p.advance, k⟩) :
    c.IsComplete w s n ∧ c.column = k ∧ p ∈ s.chart.column c.item.origin ∧ c.item.origin ≤ k := by
  obtain ⟨q, m, hkey, hq, -, hcolumn, hcmem, hpmem, v, -, hcomplete⟩ := hl.children _ c hc
  obtain rfl := Item.advance_injective hkey
  obtain rfl : n = m := by
    rw [hnext] at hq
    simpa using hq
  have hitem := hl.items _ _ hcmem
  obtain ⟨hlhs, hrule⟩ := WidenedGrammar.isNestedRule_of_completed? hcomplete hitem.dot_le
  exact ⟨⟨hcolumn ▸ hcmem, hlhs, hrule⟩, hcolumn, hpmem, hitem.origin_le⟩

/-- Where an item has advanced over a nonterminal, the best child is found. -/
theorem IsLinked.exists_best_child (hl : s.IsLinked w input builds) {p : Item} {k : Nat}
    {n : Nonterminal} (hp : p.advance ∈ s.chart.column k)
    (hnext : w.next? p = some (.nonterminal n)) :
    ∃ c ∈ s.forest.childrenOf ⟨p.advance, k⟩,
      (s.forest.get? ⟨p.advance, k⟩).bind w.resolve = some c := by
  have hne := (hl.items _ _ hp).advanced p n rfl hnext
  rw [Forest.get?_eq_some_childrenOf hne]
  exact WidenedGrammar.exists_resolve_eq_some hne

/-- A child is met on the way through a complete cell, from its right end to the left: the symbols
of the cell behind the child yield what stands between the child and the end. -/
def Descends (w : WidenedGrammar) (input : List Terminal) (s : ParseState) (parent child : Cell) :
    Prop :=
  (∃ n, parent.IsComplete w s n) ∧
    ∃ d k, d < parent.item.dot ∧ k ≤ parent.column ∧
      child ∈ s.forest.childrenOf ⟨{ parent.item with dot := d + 1 }, k⟩ ∧
      Yields w.IsNestedRule (((w.rhs parent.item.rule).take parent.item.dot).drop (d + 1))
        (between input k parent.column)

/-- A child covers a part of the stretch of its parent. If it covers the whole of it, then the
nonterminal of the parent derives that of the child by a step. -/
theorem Descends.isStep (hl : s.IsLinked w input builds) (hs : s.IsSound w.IsNestedRule w input)
    {a b : Cell} (h : s.Descends w input a b) {n : Nonterminal} (ha : a.IsComplete w s n) :
    ∃ m, b.IsComplete w s m ∧ a.item.origin ≤ b.item.origin ∧ b.column ≤ a.column ∧
      (a.item.origin = b.item.origin → b.column = a.column → IsStep w.IsNestedRule n m) := by
  obtain ⟨-, d, k, hd, hk, hb, hrest⟩ := h
  have hadot := (hl.items _ _ ha.mem_column).dot_le
  have hmem : { a.item with dot := d + 1 } ∈ s.chart.column k := by
    obtain ⟨-, -, -, -, hmem, -⟩ := hl.children _ b hb
    exact hmem
  set p : Item := { a.item with dot := d }
  obtain ⟨m, hnext⟩ : ∃ m, w.next? p = some (.nonterminal m) := by
    obtain ⟨q, m, hkey, hnext, -⟩ := hl.children _ b hb
    exact ⟨m, Item.advance_injective (i := p) hkey ▸ hnext⟩
  obtain ⟨hcomplete, hcolumn, hpmem, -⟩ := hl.child hnext hb
  obtain ⟨horigin, hbefore⟩ := hs _ p hpmem
  refine ⟨m, hcomplete, horigin, hcolumn ▸ hk, fun heq hspan => ?_⟩
  -- nothing is left for the symbols on both sides of the child
  rw [← hcolumn, hspan, between_self] at hrest
  rw [show b.item.origin = p.origin from heq.symm, between_self] at hbefore
  have hsplit : (w.rhs a.item.rule).take a.item.dot =
      (w.rhs a.item.rule).take d ++ .nonterminal m ::
        ((w.rhs a.item.rule).take a.item.dot).drop (d + 1) := by
    have hget : ((w.rhs a.item.rule).take a.item.dot)[d]? = some (.nonterminal m) := by
      rw [List.getElem?_take_of_lt hd]
      exact hnext
    obtain ⟨hlt, hget⟩ := List.getElem?_eq_some_iff.mp hget
    conv_lhs => rw [← List.take_append_drop d ((w.rhs a.item.rule).take a.item.dot)]
    rw [List.drop_eq_getElem_cons hlt, hget, List.take_take, Nat.min_eq_left (Nat.le_of_lt hd)]
  have hrule := ha.isNestedRule
  rw [hsplit] at hrule
  exact ⟨_, _, hrule, hbefore, hrest⟩

/-- No way down comes back, if no nonterminal derives itself. -/
theorem not_transGen_descends (hacyclic : w.grammar.unwidened.IsAcyclic)
    (hl : s.IsLinked w input builds) (hs : s.IsSound w.IsNestedRule w input) (a : Cell) :
    ¬ TransGen (s.Descends w input) a a := by
  have below {b : Cell} (h : TransGen (s.Descends w input) a b) {n : Nonterminal}
      (ha : a.IsComplete w s n) : ∃ m, b.IsComplete w s m ∧ a.item.origin ≤ b.item.origin ∧
        b.column ≤ a.column ∧ (a.item.origin = b.item.origin → b.column = a.column →
          TransGen (IsStep w.IsNestedRule) n m) := by
    induction h with
    | single hstep =>
      obtain ⟨m, hm, horigin, hcolumn, h⟩ := hstep.isStep hl hs ha
      exact ⟨m, hm, horigin, hcolumn, fun ho hc => .single (h ho hc)⟩
    | tail _ hstep ih =>
      obtain ⟨m, hm, horigin, hcolumn, h⟩ := ih
      obtain ⟨m', hm', horigin', hcolumn', h'⟩ := hstep.isStep hl hs hm
      exact ⟨m', hm', Nat.le_trans horigin horigin', Nat.le_trans hcolumn' hcolumn, fun ho hc =>
        (h (by omega) (by omega)).tail (h' (by omega) (by omega))⟩
  intro h
  obtain ⟨b, ⟨⟨n, ha⟩, -⟩, -⟩ := TransGen.head'_iff.mp h
  obtain ⟨m, hm, -, -, hchain⟩ := below h ha
  obtain rfl : n = m := Option.some.inj (ha.lhs_eq.symm.trans hm.lhs_eq)
  exact WidenedGrammar.not_transGen_isStep hacyclic n (hchain rfl rfl)

/-! ### The number of cells below a cell -/

/-- The number of children in the forest that lie below a cell. -/
noncomputable def below (w : WidenedGrammar) (input : List Terminal) (s : ParseState)
    (cell : Cell) : Nat := by
  classical
  exact ((s.forest.toList.flatMap Prod.snd).toFinset.filter
    (TransGen (s.Descends w input) cell)).card

theorem below_le (cell : Cell) : s.below w input cell ≤ s.forest.childCount := by
  classical
  exact (Finset.card_filter_le _ _).trans
    ((List.toFinset_card_le _).trans_eq s.forest.length_flatMap_toList)

/-- Fewer cells are below a child than below its parent. -/
theorem below_lt (hacyclic : w.grammar.unwidened.IsAcyclic)
    (hl : s.IsLinked w input builds) (hs : s.IsSound w.IsNestedRule w input) {a b : Cell}
    (h : s.Descends w input a b) : s.below w input b < s.below w input a := by
  classical
  refine Finset.card_lt_card ⟨fun c hc => ?_, fun hsub => ?_⟩
  · rw [Finset.mem_filter] at hc ⊢
    exact ⟨hc.1, TransGen.head h hc.2⟩
  · have hmem : b ∈ (s.forest.toList.flatMap Prod.snd).toFinset := by
      obtain ⟨-, d, k, -, -, hb, -⟩ := h
      exact List.mem_toFinset.mpr (Forest.mem_flatMap_of_mem_childrenOf hb)
    have hself := hsub (Finset.mem_filter.mpr ⟨hmem, TransGen.single h⟩)
    exact not_transGen_descends hacyclic hl hs b (Finset.mem_filter.mp hself).2

end ParseState

end NounPhrase
