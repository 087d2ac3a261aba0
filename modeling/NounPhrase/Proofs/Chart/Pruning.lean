import NounPhrase.Proofs.Chart.Links
import NounPhrase.Proofs.FirstTable.Idle

/-!
# Building a column with and without pruning

If every rule is started for which an item waits, then a column has more items than if only the
admitted rules are. But no item ever moves on that is there in addition: the symbol behind its dot
is another terminal than the next one, or a nonterminal all of whose rules are not admitted either,
so that none of them is ever completed. Both ways of building work on the items that they share in
the same order, carry out the same moves for them, and record the same children.

## Main definitions

* `ParseState.IsAdmitted`: items have moved on only where their rules are admitted.
* `ParseState.Prunes`: one state is another one without the items that pruning leaves out.

## Main results

* `ParseState.IsAdmitted.build`: building a column preserves admission, pruned or not.
* `WidenedGrammar.moves_eq_filter`, `WidenedGrammar.filter_moves_eq_nil`: the moves of an item that
  is kept are the same but for the rules that are not admitted, and one that is left out has no
  others.
* `ParseState.Prunes.build`: building a column with pruning prunes the column.
-/

namespace NounPhrase

theorem Item.start_eq_self {i : Item} (h : i.dot = 0) : start i.rule i.origin = i := by
  rw [start, ← h]

theorem Column.filter_insert (f : Item → Bool) (c : Column) (i : Item) :
    (c.insert i).filter f = if f i then Column.insert (c.filter f) i else c.filter f := by
  unfold insert
  by_cases hi : i ∈ c <;> by_cases hf : f i <;> simp [hi, hf, List.mem_filter]

namespace ParseState

variable {w : WidenedGrammar} {g : Grammar} {ahead : Nat → Terminal}
  {admits : Terminal → List Symbol → Bool} {k : Nat} {s p u : ParseState}

/-! ### Admitted items -/

/-- An item has its dot before the first symbol only in the column where it begins, and only there
its rule need not be admitted. The terminal that comes next at a column is given by `ahead`. -/
structure IsAdmitted (g : Grammar) (ahead : Nat → Terminal) (s : ParseState) : Prop where
  origin_eq : ∀ k, ∀ i ∈ s.chart.column k, i.dot = 0 → i.origin = k
  keeps : ∀ k, ∀ i ∈ s.chart.column k, i.dot ≠ 0 →
    g.keeps (ahead i.origin) (.start i.rule i.origin)

/-- The rule of a completed item is admitted where it began. -/
theorem IsAdmitted.keeps_of_completed (h : s.IsAdmitted w.grammar ahead) {c : Item}
    (hc : c ∈ s.chart.column k) {n : Nonterminal} (hcomplete : w.completed? c = some n) :
    w.grammar.keeps (ahead c.origin) (.start c.rule c.origin) := by
  by_cases hdot : c.dot = 0
  · have hnil : w.rhs c.rule = [] := by
      have := (WidenedGrammar.completed?_eq_some.mp hcomplete).1
      rwa [hdot, Nat.le_zero, List.length_eq_zero_iff] at this
    refine Grammar.keeps_iff.mpr (.inr (.inr ?_))
    rw [Item.start, ← Grammar.admits_rhs_widened _ w.widenings, hnil]
    rfl
  · exact h.keeps k c hc hdot

/-- Where an item begins that is completed, the items that wait for it are kept. -/
theorem IsAdmitted.keeps_of_waiting (h : s.IsAdmitted w.grammar ahead) {c q : Item}
    {n : Nonterminal} (hc : c ∈ s.chart.column k) (hcomplete : w.completed? c = some n)
    (hnext : w.next? q = some (.nonterminal n)) : w.grammar.keeps (ahead c.origin) q := by
  obtain ⟨-, r, hr, rfl⟩ := WidenedGrammar.completed?_eq_some.mp hcomplete
  by_contra hq
  have hnot := WidenedGrammar.not_admits_of_not_keeps hq hnext
    (WidenedGrammar.mem_rulesFor.mpr ⟨r, hr, rfl⟩)
  rcases Grammar.keeps_iff.mp (h.keeps_of_completed hc hcomplete) with hdot | hstart | hadmits
  · exact hdot rfl
  · -- only the start rule is there without being started, and no item waits for its nonterminal
    rw [show c.rule = _ from hstart, WidenedGrammar.rule?_startId] at hr
    obtain rfl := Option.some.inj hr
    exact WidenedGrammar.next?_ne_start q hnext
  · exact hnot hadmits

/-- A completed item is kept. -/
theorem IsAdmitted.keeps_completed (h : s.IsAdmitted w.grammar ahead) {c : Item}
    (hc : c ∈ s.chart.column k) {n : Nonterminal} (hcomplete : w.completed? c = some n) :
    w.grammar.keeps (ahead k) c := by
  by_cases hdot : c.dot = 0
  · have hkeeps := h.keeps_of_completed hc hcomplete
    rwa [Item.start_eq_self hdot, h.origin_eq k c hc hdot] at hkeeps
  · exact Grammar.keeps_of_dot_ne_zero hdot

/-- An allowed move preserves admission. -/
theorem IsAdmitted.apply (h : s.IsAdmitted w.grammar ahead) {m : Move}
    (hm : w.Allows admits (ahead k) k s.chart m) : (s.apply k m).IsAdmitted w.grammar ahead := by
  -- an item that has moved on was admitted, or it is kept where it began
  have moved {q : Item} {j : Nat} (hq : q ∈ s.chart.column j)
      (hkeeps : q.dot = 0 → w.grammar.keeps (ahead j) q) :
      w.grammar.keeps (ahead q.origin) (.start q.rule q.origin) := by
    by_cases hdot : q.dot = 0
    · rw [Item.start_eq_self hdot, h.origin_eq j q hq hdot]
      exact hkeeps hdot
    · exact h.keeps j q hq hdot
  cases m with
  | advance q c =>
    obtain ⟨hc, hq, n, hcomplete, hnext⟩ := hm
    refine ⟨fun j i hi hdot => ?_, fun j i hi hdot => ?_⟩ <;>
      rcases Chart.mem_column_add.mp hi with hi | ⟨rfl, rfl⟩
    · exact h.origin_eq j i hi hdot
    · simp at hdot
    · exact h.keeps j i hi hdot
    · have := moved hq fun _ => h.keeps_of_waiting hc hcomplete hnext
      exact this
  | start id =>
    refine ⟨fun j i hi hdot => ?_, fun j i hi hdot => ?_⟩ <;>
      rcases Chart.mem_column_add.mp hi with hi | ⟨rfl, rfl⟩
    · exact h.origin_eq j i hi hdot
    · rfl
    · exact h.keeps j i hi hdot
    · exact absurd rfl hdot
  | scan q =>
    obtain ⟨hq, hnext⟩ := hm
    refine ⟨fun j i hi hdot => ?_, fun j i hi hdot => ?_⟩ <;>
      rcases Chart.mem_column_add.mp hi with hi | ⟨rfl, rfl⟩
    · exact h.origin_eq j i hi hdot
    · simp at hdot
    · exact h.keeps j i hi hdot
    · have := moved hq fun _ => WidenedGrammar.keeps_of_next?_terminal hnext
      exact this

theorem IsAdmitted.applyAll (h : s.IsAdmitted w.grammar ahead) {ms : List Move}
    (hms : ∀ m ∈ ms, w.Allows admits (ahead k) k s.chart m) :
    (s.applyAll k ms).IsAdmitted w.grammar ahead :=
  applyAll_induction hms (fun _ _ hs hm => hs.apply hm) h

/-- Building a column preserves admission. -/
theorem IsAdmitted.build (h : s.IsAdmitted w.grammar ahead) :
    (s.build w admits (ahead k) k).IsAdmitted w.grammar ahead := by
  refine build_induction (fun _ _ hs hm => hs.apply hm) ⟨fun j i hi => ?_, fun j i hi => ?_⟩ <;>
    rw [column_opened] at hi
  · exact h.origin_eq j i hi
  · exact h.keeps j i hi

theorem IsAdmitted.rollback (h : s.IsAdmitted g ahead) (k : Nat) :
    (s.rollback k).IsAdmitted g ahead :=
  ⟨fun j i hi => h.origin_eq j i (mem_column_rollback.mp hi).2,
    fun j i hi => h.keeps j i (mem_column_rollback.mp hi).2⟩

theorem isAdmitted_initial (w : WidenedGrammar) (ahead : Nat → Terminal) :
    (initial w).IsAdmitted w.grammar ahead := by
  constructor <;> intro k i hi hdot <;> obtain ⟨rfl, rfl⟩ := mem_column_initial.mp hi
  · rfl
  · exact absurd rfl hdot

/-! ### Pruned states -/

/-- The columns of `p` are those of `u` without the items that pruning leaves out, and the two have
the same forest. -/
structure Prunes (g : Grammar) (ahead : Nat → Terminal) (p u : ParseState) : Prop where
  column : ∀ k, p.chart.column k = (u.chart.column k).filter (g.keeps (ahead k))
  forest : p.forest.cells.Equiv u.forest.cells

/-- An item added to both states. -/
theorem Prunes.column_add (h : p.Prunes g ahead u) {i : Item} (hi : g.keeps (ahead k) i) (j : Nat) :
    (p.chart.add k i).column j = ((u.chart.add k i).column j).filter (g.keeps (ahead j)) := by
  rw [Chart.column_add, Chart.column_add]
  split
  · next hj => rw [hj, Column.filter_insert, if_pos hi, h.column]
  · exact h.column j

/-- An item added that pruning leaves out. -/
theorem Prunes.column_add_right (h : p.Prunes g ahead u) {i : Item} (hi : ¬ g.keeps (ahead k) i)
    (j : Nat) : p.chart.column j = ((u.chart.add k i).column j).filter (g.keeps (ahead j)) := by
  rw [Chart.column_add]
  split
  · next hj => rw [hj, Column.filter_insert, if_neg hi, h.column]
  · exact h.column j

end ParseState

/-- Whether the move is carried out with pruning. -/
def Grammar.keepsMove (g : Grammar) (lookahead : Terminal) : Move → Bool
  | .start id => g.admits lookahead (g.unwidened.rhs id)
  | _ => true

namespace ParseState

variable {w : WidenedGrammar} {g : Grammar} {ahead : Nat → Terminal} {k : Nat} {p u : ParseState}

/-- A move that is carried out with pruning. -/
theorem Prunes.apply {m : Move} (hm : g.keepsMove (ahead k) m) (h : p.Prunes g ahead u) :
    (p.apply k m).Prunes g ahead (u.apply k m) := by
  cases m with
  | advance q c =>
    refine ⟨h.column_add (Grammar.keeps_of_dot_ne_zero (Nat.succ_ne_zero _)), ?_⟩
    exact h.forest.alter _ _
  | start id => exact ⟨h.column_add (Grammar.keeps_iff.mpr (.inr (.inr hm))), h.forest⟩
  | scan q => exact ⟨h.column_add (Grammar.keeps_of_dot_ne_zero (Nat.succ_ne_zero _)), h.forest⟩

/-- A move that is not carried out with pruning. -/
theorem Prunes.apply_right {m : Move} (hm : ¬ g.keepsMove (ahead k) m)
    (hstart : m ≠ .start g.startId) (h : p.Prunes g ahead u) : p.Prunes g ahead (u.apply k m) := by
  cases m with
  | advance q c => exact absurd rfl hm
  | start id =>
    refine ⟨h.column_add_right fun hkeeps => ?_, h.forest⟩
    rcases Grammar.keeps_iff.mp hkeeps with hdot | hid | hadmits
    · exact hdot rfl
    · exact hstart (congrArg Move.start hid)
    · exact hm hadmits
  | scan q => exact absurd rfl hm

theorem Prunes.applyAll {ms : List Move} (hstart : .start g.startId ∉ ms)
    (h : p.Prunes g ahead u) :
    (p.applyAll k (ms.filter (g.keepsMove (ahead k)))).Prunes g ahead (u.applyAll k ms) := by
  induction ms generalizing p u with
  | nil => exact h
  | cons m ms ih =>
    rw [List.mem_cons, not_or] at hstart
    by_cases hm : g.keepsMove (ahead k) m
    · rw [List.filter_cons_of_pos hm]
      exact ih hstart.2 (h.apply hm)
    · rw [List.filter_cons_of_neg hm]
      exact ih hstart.2 (h.apply_right hm (Ne.symm hstart.1))

end ParseState

/-! ### The moves of an item -/

namespace WidenedGrammar

variable {w : WidenedGrammar} {ahead : Nat → Terminal} {k iu ip : Nat} {item : Item}
  {p u : ParseState}

theorem start_startId_notMem_moves {admits : Terminal → List Symbol → Bool} {t : Terminal}
    {chart : Chart} (hi : (chart.column k)[iu]? = some item) :
    .start w.grammar.startId ∉ w.moves admits t chart k iu item := by
  intro hm
  obtain ⟨q, -, n, hnext, hid⟩ := allows_of_mem_moves hi hm
  obtain ⟨r, hr, rfl⟩ := mem_rulesFor.mp (List.mem_filter.mp hid).1
  rw [rule?_startId] at hr
  obtain rfl := Option.some.inj hr
  exact next?_ne_start q hnext

/-- The rules that are started with pruning are the admitted ones of those started without. -/
theorem filter_start_admitted (t : Terminal) (n : Nonterminal) :
    ((w.admitted (fun _ => true) n).map Move.start).filter (w.grammar.keepsMove t) =
      (w.admitted (w.grammar.admits t) n).map Move.start := by
  rw [List.filter_map, admitted, admitted, List.filter_filter]
  congr 1
  refine List.filter_congr fun id _ => ?_
  rw [Bool.and_true]
  exact (Grammar.admits_rhs_widened t w.widenings id).symm

/-- No rules are admitted for a nonterminal for which an item waits that pruning leaves out. -/
theorem admitted_eq_nil_of_not_keeps {t : Terminal} {n : Nonterminal}
    (hi : ¬ w.grammar.keeps t item) (hnext : w.next? item = some (.nonterminal n)) :
    w.admitted (w.grammar.admits t) n = [] :=
  List.filter_eq_nil_iff.mpr fun id hid hadmits =>
    not_admits_of_not_keeps hi hnext hid (Grammar.admits_rhs_widened t w.widenings id ▸ hadmits)

/-- The rules that an item starts: with pruning, only those are missing that are not admitted. If
an item that pruning has left out has waited for the same nonterminal before, there are none. -/
theorem starts_eq_filter {n : Nonterminal} {t : Terminal} {l l' : List Item}
    (hl : l = l'.filter (w.grammar.keeps t)) :
    (if (w.waiting n l).isEmpty then (w.admitted (w.grammar.admits t) n).map Move.start else []) =
      (if (w.waiting n l').isEmpty then (w.admitted (fun _ => true) n).map Move.start
        else []).filter (w.grammar.keepsMove t) := by
  have hwaiting : w.waiting n l = (w.waiting n l').filter (w.grammar.keeps t) := by
    rw [hl, waiting, waiting, List.filter_filter, List.filter_filter]
    simp only [Bool.and_comm]
  by_cases hl' : (w.waiting n l').isEmpty
  · rw [if_pos hl', hwaiting, List.isEmpty_iff.mp hl', filter_start_admitted]
    rfl
  rw [if_neg hl', List.filter_nil]
  split
  · next hnil =>
    obtain ⟨q, hq⟩ := List.exists_mem_of_ne_nil _ fun h => hl' (List.isEmpty_iff.mpr h)
    have hkeeps : ¬ w.grammar.keeps t q := fun hkeeps => by
      have hmem : q ∈ w.waiting n l := hwaiting ▸ List.mem_filter.mpr ⟨hq, hkeeps⟩
      rw [List.isEmpty_iff.mp hnil] at hmem
      simp at hmem
    rw [admitted_eq_nil_of_not_keeps hkeeps (mem_waiting.mp hq).2, List.map_nil]
  · rfl

/-- A completed item finds the same items waiting for it. -/
theorem waiting_eq_of_completed (hu : u.IsAdmitted w.grammar ahead)
    (h : p.Prunes w.grammar ahead u) (hitem : item ∈ u.chart.column k) {n : Nonterminal}
    (hcomplete : w.completed? item = some n) :
    w.waiting n (p.chart.column item.origin) = w.waiting n (u.chart.column item.origin) := by
  rw [h.column, waiting, waiting, List.filter_filter]
  refine List.filter_congr fun q _ => ?_
  by_cases hnext : w.next? q = some (.nonterminal n)
  · simp [hnext, hu.keeps_of_waiting hitem hcomplete hnext]
  · simp [hnext]

/-- An item that waits finds the same items completed. -/
theorem emptyCompletions_eq (hu : u.IsAdmitted w.grammar ahead) {l : List Item}
    (hl : ∀ c ∈ l, c ∈ u.chart.column k) (n : Nonterminal) :
    w.emptyCompletions k n (l.filter (w.grammar.keeps (ahead k))) = w.emptyCompletions k n l := by
  rw [emptyCompletions, emptyCompletions, List.filter_filter]
  refine List.filter_congr fun c hc => ?_
  by_cases hcomplete : c.origin = k ∧ w.completed? c = some n
  · simp [hcomplete, hu.keeps_completed (hl c hc) hcomplete.2]
  · simp [hcomplete]

/-- The moves of an item that is kept: with pruning, only rules are missing that are not
admitted. -/
theorem moves_eq_filter (hu : u.IsAdmitted w.grammar ahead) (h : p.Prunes w.grammar ahead u)
    (hi : (u.chart.column k)[iu]? = some item)
    (hip : (p.chart.column k).take ip =
      ((u.chart.column k).take iu).filter (w.grammar.keeps (ahead k))) :
    w.moves w.grammar.admits (ahead k) p.chart k ip item =
      (w.moves (fun _ _ => true) (ahead k) u.chart k iu item).filter
        (w.grammar.keepsMove (ahead k)) := by
  have hadvance {ι : Type} (l : List ι) (f : ι → Item × Item) :
      (l.map fun x => Move.advance (f x).1 (f x).2).filter (w.grammar.keepsMove (ahead k)) =
        l.map fun x => Move.advance (f x).1 (f x).2 :=
    List.filter_eq_self.mpr fun m hm => by
      obtain ⟨x, -, rfl⟩ := List.mem_map.mp hm
      rfl
  unfold moves movesBy
  cases hnext : w.next? item with
  | none =>
    simp only
    cases hcomplete : w.completed? item with
    | none => rfl
    | some n =>
      simp only
      rw [waiting_eq_of_completed hu h (List.mem_of_getElem? hi) hcomplete,
        hadvance _ fun q => (q, item)]
  | some a =>
    cases a with
    | nonterminal n =>
      simp only
      rw [List.filter_append, hadvance _ fun c => (item, c), starts_eq_filter hip, hip,
        emptyCompletions_eq hu fun c => List.mem_of_mem_take]
    | terminal t =>
      simp only
      split <;> rfl

/-- An item that is left out has no moves that are carried out with pruning. -/
theorem filter_moves_eq_nil (hu : u.IsAdmitted w.grammar ahead)
    (hi : (u.chart.column k)[iu]? = some item) (hitem : ¬ w.grammar.keeps (ahead k) item) :
    (w.moves (fun _ _ => true) (ahead k) u.chart k iu item).filter
      (w.grammar.keepsMove (ahead k)) = [] := by
  have hmem := List.mem_of_getElem? hi
  unfold moves movesBy
  cases hnext : w.next? item with
  | none =>
    simp only
    cases hcomplete : w.completed? item with
    | none => rfl
    | some n => exact absurd (hu.keeps_completed hmem hcomplete) hitem
  | some a =>
    cases a with
    | nonterminal n =>
      simp only
      have hempty : w.emptyCompletions k n ((u.chart.column k).take iu) = [] :=
        List.eq_nil_iff_forall_not_mem.mpr fun c hc => by
          obtain ⟨hc, horigin, hcomplete⟩ := mem_emptyCompletions.mp hc
          have hkeeps := hu.keeps_of_waiting (List.mem_of_mem_take hc) hcomplete hnext
          exact hitem (horigin ▸ hkeeps)
      rw [hempty, List.map_nil, List.nil_append]
      split
      · rw [filter_start_admitted, List.map_eq_nil_iff]
        exact admitted_eq_nil_of_not_keeps hitem hnext
      · rfl
    | terminal t =>
      simp only
      split
      · next ht => exact absurd (keeps_of_next?_terminal (ht ▸ hnext)) hitem
      · rfl

end WidenedGrammar

/-! ### Building a column -/

namespace ParseState

variable {w : WidenedGrammar} {admits : Terminal → List Symbol → Bool} {t : Terminal}
  {ahead : Nat → Terminal} {k idx : Nat} {s p u : ParseState}

theorem close_eq_self (h : (s.chart.column k)[idx]? = none) :
    close w admits t k idx s = s := by
  rw [close]
  split
  · rfl
  · next hi => simp [h] at hi

theorem close_eq_close_succ {item : Item} (h : (s.chart.column k)[idx]? = some item) :
    close w admits t k idx s =
      close w admits t k (idx + 1) (s.applyAll k (w.moves admits t s.chart k idx item)) := by
  rw [close]
  split
  · next hi => simp [h] at hi
  · next hi =>
    obtain rfl := Option.some.inj (h.symm.trans hi)
    rfl

/-- Both ways of building a column work on the items that are kept at the same time. In between,
without pruning, items are worked on that are left out with it. -/
theorem Prunes.close (hu : u.IsAdmitted w.grammar ahead) (h : p.Prunes w.grammar ahead u) :
    (close w w.grammar.admits (ahead k) k
        (((u.chart.column k).take idx).filter (w.grammar.keeps (ahead k))).length p).Prunes
      w.grammar ahead (close w (fun _ _ => true) (ahead k) k idx u) := by
  fun_induction ParseState.close w (fun _ _ => true) (ahead k) k idx u generalizing p with
  | case1 idx u hi =>
    rw [List.take_of_length_le (List.getElem?_eq_none_iff.mp hi), ← h.column,
      close_eq_self (List.getElem?_eq_none_iff.mpr (Nat.le_refl _))]
    exact h
  | case2 idx u item hi ih =>
    set ms := w.moves (fun _ _ => true) (ahead k) u.chart k idx item
    set before := ((u.chart.column k).take idx).filter (w.grammar.keeps (ahead k))
    obtain ⟨hlt, hget⟩ := List.getElem?_eq_some_iff.mp hi
    have hu' : (u.applyAll k ms).IsAdmitted w.grammar ahead :=
      hu.applyAll fun m => WidenedGrammar.allows_of_mem_moves hi
    have happly := h.applyAll (k := k) (show .start w.grammar.startId ∉ ms from
      WidenedGrammar.start_startId_notMem_moves hi)
    have htake : ((u.applyAll k ms).chart.column k).take (idx + 1) =
        (u.chart.column k).take idx ++ [item] := by
      obtain ⟨rest, hrest⟩ := (u.extends_applyAll k ms).column k
      rw [← hrest, List.take_append_of_le_length hlt, List.take_add_one, hi]
      rfl
    have hsplit : p.chart.column k =
        before ++ ((u.chart.column k).drop idx).filter (w.grammar.keeps (ahead k)) := by
      rw [h.column, ← List.filter_append, List.take_append_drop]
    rw [htake, List.filter_append] at ih
    by_cases hitem : w.grammar.keeps (ahead k) item
    · have hpi : (p.chart.column k)[before.length]? = some item := by
        rw [hsplit, List.getElem?_append_right (Nat.le_refl _), Nat.sub_self,
          List.drop_eq_getElem_cons hlt, hget, List.filter_cons_of_pos hitem]
        rfl
      rw [close_eq_close_succ hpi,
        WidenedGrammar.moves_eq_filter hu h hi (by rw [hsplit, List.take_left])]
      rw [List.filter_cons_of_pos hitem] at ih
      have := ih hu' happly
      rwa [List.length_append] at this
    · rw [WidenedGrammar.filter_moves_eq_nil hu hi hitem] at happly
      rw [List.filter_cons_of_neg hitem, List.filter_nil, List.append_nil] at ih
      exact ih hu' happly

/-- Building a column with pruning prunes the column. -/
theorem Prunes.build (hu : u.IsAdmitted w.grammar ahead) (h : p.Prunes w.grammar ahead u) :
    (p.build w w.grammar.admits (ahead k) k).Prunes w.grammar ahead
      (u.build w (fun _ _ => true) (ahead k) k) := by
  have hopened : (p.opened k).Prunes w.grammar ahead (u.opened k) :=
    ⟨fun j => by rw [column_opened, column_opened, h.column], h.forest⟩
  have hu' : (u.opened k).IsAdmitted w.grammar ahead :=
    ⟨fun j i hi => hu.origin_eq j i (by rwa [column_opened] at hi),
      fun j i hi => hu.keeps j i (by rwa [column_opened] at hi)⟩
  exact @Prunes.close w ahead k 0 _ _ hu' hopened

theorem Prunes.rollback {g : Grammar} (h : p.Prunes g ahead u) (k : Nat) :
    (p.rollback k).Prunes g ahead (u.rollback k) := by
  refine ⟨fun j => ?_, h.forest.filter _⟩
  rw [column_rollback, column_rollback]
  split
  · exact h.column j
  · rfl

theorem prunes_initial (w : WidenedGrammar) (ahead : Nat → Terminal) :
    (initial w).Prunes w.grammar ahead (initial w) := by
  refine ⟨fun j => (List.filter_eq_self.mpr fun i hi => ?_).symm, .rfl⟩
  obtain ⟨rfl, rfl⟩ := mem_column_initial.mp hi
  exact Grammar.keeps_iff.mpr (.inr (.inl rfl))

end ParseState

end NounPhrase
