import NounPhrase.Proofs.Chart.Saturation
import NounPhrase.Proofs.Forest.Children
import NounPhrase.Recognition

/-!
# Links between chart and forest

In a chart that agrees with its forest every item has come about in one of three ways: it begins
where it stands, or it was carried over a token, or it advanced over completed items, and then these
are the children of its cell. The other way round, wherever an item of a built column is complete
and another one waits for it, the forest has recorded it.

Widening makes completed sentence items incomplete again. So a child is complete at some width at
which its column was built, not at the present one; and what a built column has recorded is judged
at the width at which it was built last.

## Main definitions

* `ParseState.IsJustified`: an item has come about in one of the three ways.
* `ParseState.IsChildOf`: a child allowed the item of its cell to advance.
* `ParseState.IsLinked`: all items are justified, and all children are children of their cells.
* `ParseState.IsRecorded`: the forest has what the built columns call for.

## Main results

* `ParseState.IsLinked.build`, `ParseState.IsRecorded.build`: building a column preserves both.
* `ParseState.IsLinked.rollback`, `ParseState.IsRecorded.rollback`: so does recovery.
-/

namespace NounPhrase

theorem Item.advance_injective {i j : Item} (h : i.advance = j.advance) : i = j := by
  rw [← retreat_advance i, h, retreat_advance]

theorem Item.start_ne_advance (id : RuleId) (k : Nat) (p : Item) : start id k ≠ p.advance := by
  intro h
  simpa [start] using congrArg dot h

namespace ParseState

variable (w : WidenedGrammar) (input : List Terminal) (builds : Nat → List Nat) (s : ParseState)

/-- The item of column `k` has come about in one of three ways: its dot is before the first symbol
and its origin is the column, or it was carried over the last terminal from the column before, or
it advanced over a nonterminal and its cell has children. -/
structure IsJustified (k : Nat) (i : Item) : Prop where
  origin_le : i.origin ≤ k
  dot_le : i.dot ≤ (w.rhs i.rule).length
  origin_eq : i.dot = 0 → i.origin = k
  scanned : ∀ p t, i = p.advance → w.next? p = some (.terminal t) →
    ∃ j, k = j + 1 ∧ input[j]? = some t ∧ p ∈ s.chart.column j
  advanced : ∀ p n, i = p.advance → w.next? p = some (.nonterminal n) →
    s.forest.childrenOf ⟨i, k⟩ ≠ []

/-- The child allowed the item of the cell `key` to advance over a nonterminal: it stands in the
same column, was complete when that column was built, and began where the item had waited. -/
def IsChildOf (key child : Cell) : Prop :=
  ∃ p n, key.item = p.advance ∧ w.next? p = some (.nonterminal n) ∧
    key.item ∈ s.chart.column key.column ∧ child.column = key.column ∧
    child.item ∈ s.chart.column key.column ∧ p ∈ s.chart.column child.item.origin ∧
    ∃ v ∈ builds key.column, (w.grammar.widened v).completed? child.item = some n

/-- All items are justified, no cell has a child twice, and all children allowed their cells to
advance. -/
structure IsLinked : Prop where
  items : ∀ k, ∀ i ∈ s.chart.column k, s.IsJustified w input k i
  nodup : ∀ key, (s.forest.childrenOf key).Nodup
  children : ∀ key, ∀ c ∈ s.forest.childrenOf key, s.IsChildOf w builds key c

/-- Wherever an item of a built column is complete and another one waits for it, at the width at
which the column was built last, it is recorded as a child. -/
def IsRecorded (g : Grammar) : Prop :=
  ∀ k v, (builds k).head? = some v → ∀ c ∈ s.chart.column k, ∀ p ∈ s.chart.column c.origin, ∀ n,
    (g.widened v).completed? c = some n → (g.widened v).next? p = some (.nonterminal n) →
      ⟨c, k⟩ ∈ s.forest.childrenOf ⟨p.advance, k⟩

variable {w input builds s} {s' : ParseState} {k : Nat}

/-! ### Building a column -/

theorem IsJustified.mono (h : s.Extends s') {i : Item} (hi : s.IsJustified w input k i) :
    s'.IsJustified w input k i where
  origin_le := hi.origin_le
  dot_le := hi.dot_le
  origin_eq := hi.origin_eq
  scanned p t hp hnext := by
    obtain ⟨j, hj, ht, hmem⟩ := hi.scanned p t hp hnext
    exact ⟨j, hj, ht, h.mem_column hmem⟩
  advanced p n hp hnext hnil := by
    have hprefix := h.childrenOf ⟨i, k⟩
    rw [hnil] at hprefix
    exact hi.advanced p n hp hnext (List.prefix_nil.mp hprefix)

theorem IsChildOf.mono (h : s.Extends s') {key c : Cell} (hc : s.IsChildOf w builds key c) :
    s'.IsChildOf w builds key c := by
  obtain ⟨p, n, hkey, hnext, hmem, hcolumn, hcmem, hpmem, hv⟩ := hc
  exact ⟨p, n, hkey, hnext, h.mem_column hmem, hcolumn, h.mem_column hcmem, h.mem_column hpmem, hv⟩

theorem isJustified_start (id : RuleId) (k : Nat) :
    s.IsJustified w input k (.start id k) where
  origin_le := Nat.le_refl _
  dot_le := Nat.zero_le _
  origin_eq _ := rfl
  scanned p _ hp := absurd hp (Item.start_ne_advance id k p)
  advanced p _ hp := absurd hp (Item.start_ne_advance id k p)

/-- An allowed move preserves the links. -/
theorem IsLinked.apply {admits : Terminal → List Symbol → Bool} {lookahead : Terminal} {m : Move}
    (hk : input[k]? = some lookahead) (hw : w.widenings ∈ builds k) (h : s.IsLinked w input builds)
    (hm : w.Allows admits lookahead k s.chart m) : (s.apply k m).IsLinked w input builds := by
  have hext := s.extends_apply k m
  have hdone := s.isDone_apply k m
  cases m with
  | advance p c =>
    obtain ⟨hc, hp, n, hcomplete, hnext⟩ := hm
    obtain ⟨hmem, hchild⟩ := hdone
    refine ⟨fun j i hi => ?_, fun key => Forest.nodup_childrenOf_record (h.nodup key),
      fun key x hx => ?_⟩
    · rcases Chart.mem_column_add.mp hi with hi | ⟨rfl, rfl⟩
      · exact (h.items j i hi).mono hext
      refine ⟨Nat.le_trans (h.items _ p hp).origin_le (h.items _ c hc).origin_le,
        WidenedGrammar.dot_lt_of_next? hnext, fun hdot => by simp at hdot, fun q t hq hqnext => ?_,
        fun _ _ _ _ => List.ne_nil_of_mem hchild⟩
      rw [← Item.advance_injective hq, hnext] at hqnext
      simp at hqnext
    · rcases Forest.mem_childrenOf_record.mp hx with hx | ⟨rfl, rfl⟩
      · exact (h.children key x hx).mono hext
      · exact ⟨p, n, rfl, hnext, hmem, rfl, hext.mem_column hc, hext.mem_column hp, w.widenings, hw,
          hcomplete⟩
  | start id =>
    refine ⟨fun j i hi => ?_, h.nodup, fun key x hx => (h.children key x hx).mono hext⟩
    rcases Chart.mem_column_add.mp hi with hi | ⟨rfl, rfl⟩
    · exact (h.items j i hi).mono hext
    exact isJustified_start id j
  | scan p =>
    obtain ⟨hp, hnext⟩ := hm
    refine ⟨fun j i hi => ?_, h.nodup, fun key x hx => (h.children key x hx).mono hext⟩
    rcases Chart.mem_column_add.mp hi with hi | ⟨rfl, rfl⟩
    · exact (h.items j i hi).mono hext
    refine ⟨Nat.le_succ_of_le (h.items k p hp).origin_le, WidenedGrammar.dot_lt_of_next? hnext,
      fun hdot => by simp at hdot, fun q t hq hqnext => ?_, fun q n hq hqnext => ?_⟩
    · obtain rfl := Item.advance_injective hq
      rw [hnext] at hqnext
      obtain rfl : lookahead = t := by simpa using hqnext
      exact ⟨k, rfl, hk, hext.mem_column hp⟩
    · rw [← Item.advance_injective hq, hnext] at hqnext
      simp at hqnext

/-- More builds make no link wrong. -/
theorem IsLinked.mono_builds {builds' : Nat → List Nat} (hb : ∀ j, builds j ⊆ builds' j)
    (h : s.IsLinked w input builds) : s.IsLinked w input builds' := by
  refine ⟨h.items, h.nodup, fun key c hc => ?_⟩
  obtain ⟨p, n, hkey, hnext, hmem, hcolumn, hcmem, hpmem, v, hv, hcomplete⟩ := h.children key c hc
  exact ⟨p, n, hkey, hnext, hmem, hcolumn, hcmem, hpmem, v, hb _ hv, hcomplete⟩

/-- Building a column preserves the links. -/
theorem IsLinked.build {admits : Terminal → List Symbol → Bool} {lookahead : Terminal}
    (hk : input[k]? = some lookahead) (hw : w.widenings ∈ builds k)
    (h : s.IsLinked w input builds) : (s.build w admits lookahead k).IsLinked w input builds := by
  refine build_induction (fun _ _ hs hm => hs.apply hk hw hm) ?_
  refine ⟨fun j i hi => ?_, h.nodup,
    fun key c hc => (h.children key c hc).mono (s.extends_opened k)⟩
  rw [column_opened] at hi
  exact (h.items j i hi).mono (s.extends_opened k)

/-- Building a column records what it calls for. -/
theorem IsRecorded.build {admits : Terminal → List Symbol → Bool} {lookahead : Terminal}
    {builds' : Nat → List Nat} (hk : (builds' k).head? = some w.widenings)
    (hbuilds : ∀ j v, j ≠ k → (builds' j).head? = some v → j < k ∧ (builds j).head? = some v)
    (horigin : ∀ j, ∀ i ∈ (s.build w admits lookahead k).chart.column j, i.origin ≤ j)
    (h : s.IsRecorded builds w.grammar) :
    (s.build w admits lookahead k).IsRecorded builds' w.grammar := by
  intro j v hv c hc p hp n hcomplete hnext
  by_cases hj : j = k
  · subst hj
    obtain rfl : w.widenings = v := Option.some.inj (hk.symm.trans hv)
    have hne : c.origin ≠ j + 1 := Nat.ne_of_lt (Nat.lt_succ_of_le (horigin j c hc))
    exact ((closed_build ..).advanced hc hne hp hcomplete hnext).2
  · obtain ⟨hlt, hv⟩ := hbuilds j v hj hv
    have hcolumn (i : Nat) (hi : i ≤ j) :=
      column_build_of_ne w admits lookahead s (j := i) (k := k) (by omega) (by omega)
    rw [hcolumn _ (horigin j c hc)] at hp
    rw [hcolumn j (Nat.le_refl j)] at hc
    exact (s.extends_build w admits lookahead k).mem_childrenOf
      (h j v hv c hc p hp n hcomplete hnext)

/-! ### Recovery -/

theorem column_rollback (s : ParseState) (j k : Nat) :
    (s.rollback k).chart.column j = if j < k then s.chart.column j else [] :=
  s.chart.column_truncate j k

theorem childrenOf_rollback (s : ParseState) (k : Nat) (key : Cell) :
    (s.rollback k).forest.childrenOf key =
      if key.column < k then s.forest.childrenOf key else [] :=
  s.forest.childrenOf_purgeFrom k key

theorem mem_column_rollback {j : Nat} {i : Item} :
    i ∈ (s.rollback k).chart.column j ↔ j < k ∧ i ∈ s.chart.column j := by
  rw [column_rollback]
  split
  · next h => simp [h]
  · next h => simp [h]

theorem mem_childrenOf_rollback {key c : Cell} :
    c ∈ (s.rollback k).forest.childrenOf key ↔ key.column < k ∧ c ∈ s.forest.childrenOf key := by
  rw [childrenOf_rollback]
  split
  · next h => simp [h]
  · next h => simp [h]

/-- Recovery preserves the links: what is left speaks of columns that are left. -/
theorem IsLinked.rollback {builds' : Nat → List Nat} (hbuilds : ∀ j < k, builds' j = builds j)
    (h : s.IsLinked w input builds) : (s.rollback k).IsLinked w.widen input builds' := by
  have hwiden : w.widenings ≤ w.widenings + 1 := Nat.le_succ _
  refine ⟨fun j i hi => ?_, fun key => ?_, fun key c hc => ?_⟩
  · obtain ⟨hj, hi⟩ := mem_column_rollback.mp hi
    have hitem := h.items j i hi
    -- the symbol before the dot is the one that stood there before
    have hnext {p : Item} (hp : i = p.advance) {s : Symbol} (hs : w.widen.next? p = some s) :
        w.next? p = some s := by
      have hdot : p.dot < (w.rhs p.rule).length := by
        have := hitem.dot_le
        rw [hp] at this
        exact this
      rw [← hs, WidenedGrammar.next?, List.getElem?_eq_getElem hdot]
      exact (Grammar.next?_widened hwiden (List.getElem?_eq_getElem hdot)).symm
    refine ⟨hitem.origin_le, Nat.le_trans hitem.dot_le (Grammar.rhs_isPrefix hwiden _).length_le,
      hitem.origin_eq, fun p t hp hs => ?_, fun p n hp hs => ?_⟩
    · obtain ⟨l, hl, ht, hmem⟩ := hitem.scanned p t hp (hnext hp hs)
      exact ⟨l, hl, ht, mem_column_rollback.mpr ⟨by omega, hmem⟩⟩
    · rw [childrenOf_rollback, if_pos hj]
      exact hitem.advanced p n hp (hnext hp hs)
  · rw [childrenOf_rollback]
    split
    · exact h.nodup key
    · exact List.nodup_nil
  · obtain ⟨hj, hc⟩ := mem_childrenOf_rollback.mp hc
    obtain ⟨p, n, hkey, hnext, hmem, hcolumn, hcmem, hpmem, hv⟩ := h.children key c hc
    have horigin := (h.items _ _ hcmem).origin_le
    refine ⟨p, n, hkey, Grammar.next?_widened hwiden hnext, mem_column_rollback.mpr ⟨hj, hmem⟩,
      hcolumn, mem_column_rollback.mpr ⟨hj, hcmem⟩, mem_column_rollback.mpr ⟨by omega, hpmem⟩, ?_⟩
    rw [hbuilds _ hj]
    exact hv

/-- Recovery preserves what the columns that are left have recorded. -/
theorem IsRecorded.rollback {g : Grammar} {builds' : Nat → List Nat}
    (hbuilds : ∀ j v, (builds' j).head? = some v → j < k ∧ (builds j).head? = some v)
    (h : s.IsRecorded builds g) : (s.rollback k).IsRecorded builds' g := by
  intro j v hv c hc p hp n hcomplete hnext
  obtain ⟨hj, hv⟩ := hbuilds j v hv
  exact mem_childrenOf_rollback.mpr ⟨hj, h j v hv c (mem_column_rollback.mp hc).2 p
    (mem_column_rollback.mp hp).2 n hcomplete hnext⟩

/-- Where an attempt begins, the start item is the only one. -/
theorem isLinked_initial (w : WidenedGrammar) (input : List Terminal) (builds : Nat → List Nat) :
    (initial w).IsLinked w input builds := by
  have hchildren (key : Cell) : (initial w).forest.childrenOf key = [] :=
    Forest.childrenOf_blank key
  refine ⟨fun j i hi => ?_, fun key => ?_, fun key c hc => ?_⟩
  · obtain ⟨rfl, rfl⟩ := mem_column_initial.mp hi
    exact isJustified_start w.grammar.startId 0
  · rw [hchildren]
    exact List.nodup_nil
  · simp [hchildren] at hc

end ParseState

end NounPhrase
