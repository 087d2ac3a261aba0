import NounPhrase.Proofs.Chart.Growth
import NounPhrase.Proofs.Grammar.Widths

/-!
# A built column is closed

When a column has been built, nothing is left to do in it: every completed item of the column has
advanced every item that waits for it, every nonterminal that an item waits for has been started,
and every item that waits for the next terminal has been carried over.

The items of the column meet in any order. A completed item advances those that wait for it in its
column of origin when it is worked on. If that is the column being built, more may be added later,
and these advance over it when they are worked on themselves. So the invariant speaks of pairs of
items that have both been worked on. If it is the next column, more may be carried over later, and
then nothing is done about them.

## Main definitions

* `Move.IsDone`: a move has been carried out.
* `WidenedGrammar.ClosedOn`: all is done that the given items of a column call for.
* `WidenedGrammar.Closed`: all is done that the items of a column call for.

## Main results

* `ParseState.closed_build`: a built column is closed.
-/

namespace NounPhrase

/-- The move has been carried out in column `k`. -/
def Move.IsDone (k : Nat) (s : ParseState) : Move → Prop
  | .advance parent child =>
    parent.advance ∈ s.chart.column k ∧ ⟨child, k⟩ ∈ s.forest.childrenOf ⟨parent.advance, k⟩
  | .start rule => .start rule k ∈ s.chart.column k
  | .scan item => item.advance ∈ s.chart.column (k + 1)

theorem Move.IsDone.mono {k : Nat} {s s' : ParseState} (h : s.Extends s') {m : Move}
    (hm : m.IsDone k s) : m.IsDone k s' := by
  cases m with
  | advance parent child => exact ⟨h.mem_column hm.1, h.mem_childrenOf hm.2⟩
  | start rule => exact h.mem_column hm
  | scan item => exact h.mem_column hm

theorem ParseState.isDone_apply (k : Nat) (s : ParseState) (m : Move) :
    m.IsDone k (s.apply k m) := by
  cases m with
  | advance parent child =>
    exact ⟨Chart.mem_column_add.mpr (.inr ⟨rfl, rfl⟩),
      Forest.mem_childrenOf_record.mpr (.inr ⟨rfl, rfl⟩)⟩
  | start rule => exact Chart.mem_column_add.mpr (.inr ⟨rfl, rfl⟩)
  | scan item => exact Chart.mem_column_add.mpr (.inr ⟨rfl, rfl⟩)

theorem ParseState.isDone_applyAll {k : Nat} {s : ParseState} {ms : List Move} {m : Move}
    (hm : m ∈ ms) : m.IsDone k (s.applyAll k ms) := by
  induction ms generalizing s with
  | nil => simp at hm
  | cons m' ms ih =>
    rcases List.mem_cons.mp hm with rfl | hm
    · exact (s.isDone_apply k m).mono ((s.apply k m).extends_applyAll k ms)
    · exact ih hm

namespace WidenedGrammar

variable (w : WidenedGrammar) (admits : Terminal → List Symbol → Bool) (lookahead : Terminal)
  (k : Nat)

/-- All is done that the items `done` of column `k` call for, where items of the column that are
not among them need not have advanced yet, nor items of the next column. -/
structure ClosedOn (done : List Item) (s : ParseState) : Prop where
  completed : ∀ c ∈ done, c.origin ≠ k + 1 → ∀ p ∈ s.chart.column c.origin,
    (c.origin = k → p ∈ done) → ∀ n, w.completed? c = some n → w.next? p = some (.nonterminal n) →
      (Move.advance p c).IsDone k s
  predicted : ∀ p ∈ done, ∀ n, w.next? p = some (.nonterminal n) →
    ∀ id ∈ w.admitted (admits lookahead) n, (Move.start id).IsDone k s
  scanned : ∀ p ∈ done, w.next? p = some (.terminal lookahead) → (Move.scan p).IsDone k s

/-- All is done that the items of column `k` call for. -/
def Closed (s : ParseState) : Prop := w.ClosedOn admits lookahead k (s.chart.column k) s

variable {w admits lookahead k} {s : ParseState} {done : List Item} {item : Item}

/-- A completed item has advanced every item that waits for it, unless it begins in the next
column. -/
theorem Closed.advanced (h : w.Closed admits lookahead k s) {c p : Item} {n : Nonterminal}
    (hc : c ∈ s.chart.column k) (horigin : c.origin ≠ k + 1) (hp : p ∈ s.chart.column c.origin)
    (hcomplete : w.completed? c = some n) (hnext : w.next? p = some (.nonterminal n)) :
    p.advance ∈ s.chart.column k ∧ ⟨c, k⟩ ∈ s.forest.childrenOf ⟨p.advance, k⟩ :=
  h.completed c hc horigin p hp (fun hk => hk ▸ hp) n hcomplete hnext

/-- A column without items calls for nothing. -/
theorem closed_of_column_eq_nil (h : s.chart.column k = []) : w.Closed admits lookahead k s := by
  constructor <;> simp [h]

/-! ### The moves of an item -/

section Moves

variable {chart : Chart} {idx : Nat} {n : Nonterminal} {c p : Item}

theorem advance_mem_moves_of_completed (hc : w.completed? c = some n)
    (hp : p ∈ chart.column c.origin) (hn : w.next? p = some (.nonterminal n)) :
    .advance p c ∈ w.moves admits lookahead chart k idx c := by
  rw [moves, movesBy, next?_of_completed? hc, hc]
  exact List.mem_map_of_mem (mem_waiting.mpr ⟨hp, hn⟩)

theorem advance_mem_moves_of_waiting (hp : w.next? p = some (.nonterminal n))
    (hc : c ∈ (chart.column k).take idx) (horigin : c.origin = k)
    (hcomplete : w.completed? c = some n) :
    .advance p c ∈ w.moves admits lookahead chart k idx p := by
  rw [moves, movesBy, hp]
  exact List.mem_append_left _
    (List.mem_map_of_mem (mem_emptyCompletions.mpr ⟨hc, horigin, hcomplete⟩))

theorem start_mem_moves {id : RuleId} (hp : w.next? p = some (.nonterminal n))
    (hfirst : w.waiting n ((chart.column k).take idx) = [])
    (hid : id ∈ w.admitted (admits lookahead) n) :
    .start id ∈ w.moves admits lookahead chart k idx p := by
  rw [moves, movesBy, hp]
  simp only [hfirst, List.isEmpty_nil, if_true]
  exact List.mem_append_right _ (List.mem_map_of_mem hid)

theorem scan_mem_moves (hp : w.next? p = some (.terminal lookahead)) :
    .scan p ∈ w.moves admits lookahead chart k idx p := by
  simp [moves, movesBy, hp]

end Moves

/-! ### Working on the items of a column -/

/-- An item that is worked on calls for nothing but its moves. -/
theorem ClosedOn.applyAll {idx : Nat} (hi : (s.chart.column k)[idx]? = some item)
    (h : w.ClosedOn admits lookahead k ((s.chart.column k).take idx) s) :
    w.ClosedOn admits lookahead k ((s.chart.column k).take (idx + 1))
      (s.applyAll k (w.moves admits lookahead s.chart k idx item)) := by
  have htake : (s.chart.column k).take (idx + 1) = (s.chart.column k).take idx ++ [item] := by
    rw [List.take_add_one, hi]
    rfl
  have hext := s.extends_applyAll k (w.moves admits lookahead s.chart k idx item)
  have hdone {m : Move} (hm : m ∈ w.moves admits lookahead s.chart k idx item) :=
    ParseState.isDone_applyAll (k := k) (s := s) hm
  have hcolumn (j : Nat) (hj : j ≠ k + 1) (hne : j ≠ k) :=
    s.column_applyAll_of_ne (w.moves admits lookahead s.chart k idx item) hne hj
  generalize s.applyAll k (w.moves admits lookahead s.chart k idx item) = s' at *
  rw [htake]
  constructor
  · intro c hc horigin p hp hk n hcomplete hnext
    -- no parent that counts here has been added by the moves
    have hpmem : p ∈ s.chart.column c.origin := by
      by_cases heq : c.origin = k
      · exact heq ▸ List.mem_of_mem_take (htake ▸ hk heq)
      · rwa [hcolumn _ horigin heq] at hp
    rcases List.mem_append.mp hc with hcdone | hcitem
    · by_cases heq : c.origin = k
      · rcases List.mem_append.mp (hk heq) with hpdone | hpitem
        · exact (h.completed c hcdone horigin p hpmem (fun _ => hpdone) n hcomplete hnext).mono hext
        · obtain rfl := List.mem_singleton.mp hpitem
          exact hdone (advance_mem_moves_of_waiting hnext hcdone heq hcomplete)
      · exact (h.completed c hcdone horigin p hpmem (absurd · heq) n hcomplete hnext).mono hext
    · obtain rfl := List.mem_singleton.mp hcitem
      exact hdone (advance_mem_moves_of_completed hcomplete hpmem hnext)
  · intro p hp n hnext id hid
    rcases List.mem_append.mp hp with hp | hp
    · exact (h.predicted p hp n hnext id hid).mono hext
    · obtain rfl := List.mem_singleton.mp hp
      cases hwaiting : w.waiting n ((s.chart.column k).take idx) with
      | nil => exact hdone (start_mem_moves hnext hwaiting hid)
      | cons q _ =>
        -- the first item that waited for `n` has started its rules
        obtain ⟨hq, hqnext⟩ := mem_waiting.mp (hwaiting ▸ List.mem_cons_self)
        exact (h.predicted q hq n hqnext id hid).mono hext
  · intro p hp hnext
    rcases List.mem_append.mp hp with hp | hp
    · exact (h.scanned p hp hnext).mono hext
    · obtain rfl := List.mem_singleton.mp hp
      exact hdone (scan_mem_moves hnext)

end WidenedGrammar

namespace ParseState

variable {w : WidenedGrammar} {admits : Terminal → List Symbol → Bool} {lookahead : Terminal}
  {k : Nat} {s : ParseState}

theorem extends_close (w : WidenedGrammar) (admits : Terminal → List Symbol → Bool)
    (lookahead : Terminal) (k idx : Nat) (s : ParseState) :
    s.Extends (close w admits lookahead k idx s) :=
  close_induction (fun s' m h _ => h.trans (s'.extends_apply k m)) (.refl s)

theorem closed_close {idx : Nat}
    (h : w.ClosedOn admits lookahead k ((s.chart.column k).take idx) s) :
    w.Closed admits lookahead k (close w admits lookahead k idx s) := by
  fun_induction close w admits lookahead k idx s with
  | case1 idx s hi =>
    rwa [List.take_of_length_le (List.getElem?_eq_none_iff.mp hi)] at h
  | case2 idx s item hi ih =>
    have hlt : idx + 1 ≤ (s.chart.column k).length := (List.getElem?_eq_some_iff.mp hi).1
    have hext := s.extends_applyAll k (w.moves admits lookahead s.chart k idx item)
    obtain ⟨rest, hrest⟩ := hext.column k
    refine ih ?_
    rw [← hrest, List.take_append_of_le_length hlt]
    exact h.applyAll hi

/-- A built column is closed. -/
theorem closed_build (w : WidenedGrammar) (admits : Terminal → List Symbol → Bool)
    (lookahead : Terminal) (k : Nat) (s : ParseState) :
    w.Closed admits lookahead k (s.build w admits lookahead k) := by
  refine closed_close ?_
  rw [List.take_zero]
  constructor <;> simp

/-- Every item of the column is worked on, if it does not stand before the place where this begins:
in the end the moves are done that it had in the chart as it stood then. -/
theorem exists_moves_isDone_close {idx j : Nat} {i : Item} (hj : idx ≤ j)
    (hi : ((close w admits lookahead k idx s).chart.column k)[j]? = some i) :
    ∃ s', s.Extends s' ∧ ∀ m ∈ w.moves admits lookahead s'.chart k j i,
      m.IsDone k (close w admits lookahead k idx s) := by
  fun_induction close w admits lookahead k idx s with
  | case1 idx s hnone =>
    have := (List.getElem?_eq_some_iff.mp hi).1
    have := List.getElem?_eq_none_iff.mp hnone
    omega
  | case2 idx s item hitem ih =>
    have hstep := s.extends_applyAll k (w.moves admits lookahead s.chart k idx item)
    rcases Nat.eq_or_lt_of_le hj with rfl | hlt
    · have hext := extends_close w admits lookahead k (idx + 1)
        (s.applyAll k (w.moves admits lookahead s.chart k idx item))
      have hprefix := (hstep.trans hext).column k
      obtain ⟨hlt, rfl⟩ := List.getElem?_eq_some_iff.mp hitem
      obtain rfl := Option.some.inj ((List.prefix_iff_getElem?.mp hprefix idx hlt).symm.trans hi)
      exact ⟨s, .refl s, fun m hm => (isDone_applyAll hm).mono hext⟩
    · obtain ⟨s', hs', hdone⟩ := ih hlt hi
      exact ⟨s', hstep.trans hs', hdone⟩

/-- A completed item of a built column has advanced the items that waited for it before. -/
theorem isDone_advance_build {c p : Item} {n : Nonterminal}
    (hc : c ∈ (s.build w admits lookahead k).chart.column k) (hp : p ∈ s.chart.column c.origin)
    (hcomplete : w.completed? c = some n) (hnext : w.next? p = some (.nonterminal n)) :
    (Move.advance p c).IsDone k (s.build w admits lookahead k) := by
  obtain ⟨j, hj⟩ := List.mem_iff_getElem?.mp hc
  obtain ⟨s', hs', hdone⟩ := exists_moves_isDone_close (Nat.zero_le j) hj
  exact hdone _ (WidenedGrammar.advance_mem_moves_of_completed hcomplete
    (((s.extends_opened k).trans hs').mem_column hp) hnext)

/-- Every item of a built column that waits for the next terminal has been carried over. -/
theorem advance_mem_column_build {p : Item}
    (hp : p ∈ (s.build w admits lookahead k).chart.column k)
    (hnext : w.next? p = some (.terminal lookahead)) :
    p.advance ∈ (s.build w admits lookahead k).chart.column (k + 1) := by
  obtain ⟨j, hj⟩ := List.mem_iff_getElem?.mp hp
  obtain ⟨s', -, hdone⟩ := exists_moves_isDone_close (Nat.zero_le j) hj
  exact hdone _ (WidenedGrammar.scan_mem_moves hnext)

end ParseState

end NounPhrase
