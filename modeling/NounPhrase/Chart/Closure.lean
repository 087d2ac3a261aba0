import NounPhrase.Chart.Move

/-!
# Building a column

A column is built by working on its items one after the other, those included that are added on
the way, until the last one has been worked on. This ends because a column has room for finitely
many items: the rules and the places of a dot are limited, and no origin lies beyond those that
the chart already has.

## Main definitions

* `WidenedGrammar.candidates`: the items that can be added to a column.
* `ParseState.build`: the chart and the forest with column `k` built.

## Main results

* `ParseState.capacity_applyAll_le`: the number of items of a column and of candidates that it
  lacks does not grow, whatever moves are carried out.
-/

namespace NounPhrase

namespace WidenedGrammar

/-- The items with a place for the dot and an origin of at most `bound`. -/
def candidates (w : WidenedGrammar) (bound : Nat) : List Item :=
  (List.range w.grammar.arena.size).flatMap fun r =>
    (List.range ((w.rhs ⟨r⟩).length + 1)).flatMap fun d =>
      (List.range (bound + 1)).map fun o => ⟨⟨r⟩, d, o⟩

theorem mem_candidates {w : WidenedGrammar} {bound : Nat} {i : Item} :
    i ∈ w.candidates bound ↔
      i.rule.index < w.grammar.arena.size ∧ i.dot ≤ (w.rhs i.rule).length ∧ i.origin ≤ bound := by
  simp only [candidates, List.mem_flatMap, List.mem_map, List.mem_range, Nat.lt_succ_iff]
  constructor
  · rintro ⟨r, hr, d, hd, o, ho, rfl⟩
    exact ⟨hr, hd, ho⟩
  · intro ⟨hr, hd, ho⟩
    exact ⟨_, hr, _, hd, _, ho, rfl⟩

/-- The number of items in column `k`, and of candidates for it that it does not have. -/
def capacity (w : WidenedGrammar) (chart : Chart) (k : Nat) : Nat :=
  (w.candidates (chart.reach k)).countP (!(chart.column k).contains ·) + (chart.column k).length

theorem index_lt_of_next? {w : WidenedGrammar} {i : Item} {s : Symbol}
    (h : w.next? i = some s) : i.rule.index < w.grammar.arena.size ∧
      i.dot < (w.rhs i.rule).length := by
  obtain ⟨hd, -⟩ := List.getElem?_eq_some_iff.1 h
  refine ⟨?_, hd⟩
  unfold rhs rule? at hd
  split at hd
  · next he =>
    rw [he, w.grammar.arena_eq]
    simp [Grammar.entryId, augmented]
  · refine Decidable.byContradiction fun hlt => ?_
    simp [Grammar.rule?, Array.getElem?_eq_none (Nat.le_of_not_lt hlt)] at hd

/-- The items that a move in column `k` may add to the chart. -/
def Fits (w : WidenedGrammar) (chart : Chart) (k : Nat) : Move → Prop
  | .advance parent _ => parent.advance ∈ w.candidates (chart.reach k)
  | .start rule => .start rule k ∈ w.candidates (chart.reach k)
  | .scan item => item.origin ≤ chart.reach k

theorem fits_advance {w : WidenedGrammar} {chart : Chart} {j k : Nat} {p : Item}
    (hp : p ∈ chart.column j) {a : Symbol} (hn : w.next? p = some a) (c : Item) :
    w.Fits chart k (.advance p c) :=
  mem_candidates.2 ⟨(index_lt_of_next? hn).1, (index_lt_of_next? hn).2,
    (Chart.origin_le_reach k hp : p.origin ≤ chart.reach k)⟩

/-- Whatever has been found and started before, the moves of an item fit if its parents wait where
it begins. -/
theorem fits_movesBy (w : WidenedGrammar) (admits : Terminal → List Symbol → Bool)
    (lookahead : Terminal) {chart : Chart} {k : Nat} {parents : Nonterminal → List Item}
    (found : Nonterminal → List Item) (fresh : Nonterminal → Bool) {item : Item}
    (hi : item ∈ chart.column k)
    (hparents : ∀ n, parents n = w.waiting n (chart.column item.origin)) :
    ∀ m ∈ w.movesBy admits lookahead parents found fresh item, w.Fits chart k m := by
  intro m hm
  unfold movesBy at hm
  split at hm
  · split at hm
    · simp at hm
    · next n _ =>
      obtain ⟨p, hp, rfl⟩ := List.mem_map.1 hm
      obtain ⟨hp, hn⟩ := List.mem_filter.1 (hparents n ▸ hp)
      exact fits_advance hp (by simpa using hn) item
  · next n hn =>
    rcases List.mem_append.1 hm with hm | hm
    · obtain ⟨c, -, rfl⟩ := List.mem_map.1 hm
      exact fits_advance hi hn c
    · split at hm
      · obtain ⟨id, hid, rfl⟩ := List.mem_map.1 hm
        obtain ⟨r, hr, -⟩ := Grammar.mem_rulesFor.1 (List.mem_filter.1 hid).1
        obtain ⟨hlt, -⟩ := Array.getElem?_eq_some_iff.1 hr
        exact mem_candidates.2 ⟨hlt, Nat.zero_le _, Chart.le_reach chart k⟩
      · simp at hm
  · split at hm
    · obtain rfl := List.mem_singleton.1 hm
      exact Chart.origin_le_reach k hi
    · simp at hm

theorem fits_moves (w : WidenedGrammar) (admits : Terminal → List Symbol → Bool)
    (lookahead : Terminal) {chart : Chart} {k : Nat} (idx : Nat) {item : Item}
    (hi : item ∈ chart.column k) :
    ∀ m ∈ w.moves admits lookahead chart k idx item, w.Fits chart k m :=
  w.fits_movesBy admits lookahead _ _ hi fun _ => rfl

/-- If a test is passed by one more value of a list, one value less fails it. -/
theorem countP_not_add_one_le {l : List Item} {p p' : Item → Bool} {i : Item} (hi : i ∈ l)
    (hp : p i = false) (hp' : p' i = true) (hmono : ∀ x, p x = true → p' x = true) :
    l.countP (!p' ·) + 1 ≤ l.countP (!p ·) := by
  have mono (l : List Item) : l.countP (!p' ·) ≤ l.countP (!p ·) :=
    List.countP_mono_left fun x _ hx => by
      simp only [Bool.not_eq_true'] at hx ⊢
      exact Bool.eq_false_iff.mpr fun h => Bool.eq_false_iff.mp hx (hmono x h)
  obtain ⟨a, b, rfl⟩ := List.append_of_mem hi
  have ha := mono a
  have hb := mono b
  simp only [List.countP_append, List.countP_cons, hp, hp', Bool.not_true, Bool.not_false,
    if_true, Bool.false_eq_true, if_false]
  omega

theorem capacity_add_le {w : WidenedGrammar} {chart : Chart} {k : Nat} {i : Item}
    (h : i ∈ w.candidates (chart.reach k)) :
    w.capacity (chart.add k i) k ≤ w.capacity chart k := by
  unfold capacity
  rw [Chart.reach_add (mem_candidates.1 h).2.2, Chart.column_add_self]
  unfold Column.insert
  split
  · exact Nat.le_refl _
  next hc =>
  have : (w.candidates (chart.reach k)).countP (!(chart.column k ++ [i]).contains ·) + 1 ≤
      (w.candidates (chart.reach k)).countP (!(chart.column k).contains ·) :=
    countP_not_add_one_le h (by simpa using hc) (by simp) fun x hx => by
      rw [List.contains_iff_mem] at hx ⊢
      exact List.mem_append_left _ hx
  rw [List.length_append, List.length_singleton]
  omega

theorem capacity_add_succ {w : WidenedGrammar} {chart : Chart} {k : Nat} {i : Item}
    (h : i.origin ≤ chart.reach k) : w.capacity (chart.add (k + 1) i) k = w.capacity chart k := by
  unfold capacity
  rw [Chart.reach_add h, Chart.column_add_of_ne _ _ (Nat.ne_of_lt (Nat.lt_succ_self k))]

/-- What does not grow by a move that may be made does not grow by a list of them, if they leave the
reach of the chart as it is. -/
theorem foldl_le_of_fits {σ : Type} (chart : σ → Chart) (size : σ → Nat) {apply : σ → Move → σ}
    {w : WidenedGrammar} {k : Nat} {ms : List Move} {s : σ}
    (step : ∀ s m, w.Fits (chart s) k m →
      (chart (apply s m)).reach k = (chart s).reach k ∧ size (apply s m) ≤ size s)
    (h : ∀ m ∈ ms, w.Fits (chart s) k m) : size (ms.foldl apply s) ≤ size s := by
  induction ms generalizing s with
  | nil => exact Nat.le_refl _
  | cons m ms ih =>
    obtain ⟨hreach, hsize⟩ := step s m (h m List.mem_cons_self)
    refine Nat.le_trans (ih fun m' hm' => ?_) hsize
    have := h m' (List.mem_cons_of_mem _ hm')
    cases m' <;> simpa only [Fits, hreach] using this

end WidenedGrammar

namespace ParseState

theorem capacity_apply_le {w : WidenedGrammar} {k : Nat} (s : ParseState) (m : Move)
    (hm : w.Fits s.chart k m) :
    (s.apply k m).chart.reach k = s.chart.reach k ∧
      w.capacity (s.apply k m).chart k ≤ w.capacity s.chart k := by
  cases m with
  | advance parent child =>
    exact ⟨Chart.reach_add (WidenedGrammar.mem_candidates.1 hm).2.2,
      WidenedGrammar.capacity_add_le hm⟩
  | start rule =>
    exact ⟨Chart.reach_add (WidenedGrammar.mem_candidates.1 hm).2.2,
      WidenedGrammar.capacity_add_le hm⟩
  | scan item => exact ⟨Chart.reach_add hm, Nat.le_of_eq (WidenedGrammar.capacity_add_succ hm)⟩

/-- Carries out a list of moves in column `k`. -/
def applyAll (k : Nat) (s : ParseState) (ms : List Move) : ParseState := ms.foldl (apply k) s

theorem capacity_applyAll_le {w : WidenedGrammar} {k : Nat} {ms : List Move} {s : ParseState}
    (h : ∀ m ∈ ms, w.Fits s.chart k m) :
    w.capacity (s.applyAll k ms).chart k ≤ w.capacity s.chart k :=
  WidenedGrammar.foldl_le_of_fits chart (w.capacity ·.chart k) capacity_apply_le h

/-- Works on the items of column `k` from place `idx` on. -/
def close (w : WidenedGrammar) (admits : Terminal → List Symbol → Bool) (lookahead : Terminal)
    (k idx : Nat) (s : ParseState) : ParseState :=
  match h : (s.chart.column k)[idx]? with
  | none => s
  | some item =>
    close w admits lookahead k (idx + 1)
      (s.applyAll k (w.moves admits lookahead s.chart k idx item))
termination_by w.capacity s.chart k - idx
decreasing_by
  obtain ⟨hlt, -⟩ := List.getElem?_eq_some_iff.1 h
  have := capacity_applyAll_le (w.fits_moves admits lookahead idx (List.mem_of_getElem? h))
  have : (s.chart.column k).length ≤ w.capacity s.chart k := Nat.le_add_left _ _
  omega

/-- Builds column `k`, where `lookahead` is the next terminal; the items that are carried over
land in column `k + 1`, which is made if it is not there. -/
def build (w : WidenedGrammar) (admits : Terminal → List Symbol → Bool) (lookahead : Terminal)
    (k : Nat) (s : ParseState) : ParseState :=
  close w admits lookahead k 0 { s with chart := s.chart.ensure (k + 1) }

end ParseState

end NounPhrase
