import NounPhrase.Proofs.Chart.Growth
import NounPhrase.Session

/-!
# Rolling back

Every operation of a session works on a column and, if it builds the column, on the next one. The
cells of the forest know their columns, so whatever is done from some column on can be told from
what was there before. Dropping the columns and the cells from that column on undoes it, however
often columns were built, with whatever terminals, and however wide the sentence rule was.

The chart and the forest are rolled back each by itself. The chart keeps the columns before a
number and the forest the cells whose column is smaller, so that both stop at the same place.

## Main definitions

* `ParseState.KeepsBelow`: one state has the columns and the cells of another, as far as they lie
  before some column.
* `Session.Step.IsFrom`: an operation works on columns from some column on.

## Main results

* `ParseState.KeepsBelow.build`: building a column keeps what lies before it.
* `ParseState.KeepsBelow.run`: so does a session that works from some column on.
* `rollback_undoes`: rolling back to a column undoes what was done from there on.
-/

namespace NounPhrase

/-! ### The columns before a column -/

namespace Chart

variable {c : Chart} {f k : Nat}

theorem truncate_ensure (hf : f ≤ c.size) (k : Nat) : (c.ensure k).truncate f = c.truncate f := by
  simp only [truncate, ensure]
  rw [List.take_append_of_le_length hf]

theorem truncate_add (hf : f ≤ c.size) (hk : f ≤ k) (i : Item) :
    (c.add k i).truncate f = c.truncate f := by
  have hensure := truncate_ensure hf k
  have hlength : ((c.ensure k).columns.take f).length ≤ k := by
    rw [List.length_take]
    omega
  simp only [truncate, add] at hensure ⊢
  rw [List.take_modify, List.modify_eq_self hlength, hensure]

theorem truncate_truncate (hk : f ≤ k) : (c.truncate k).truncate f = c.truncate f := by
  simp only [truncate, List.take_take, Nat.min_eq_left hk]

theorem size_truncate (c : Chart) (k : Nat) : (c.truncate k).size = min k c.size :=
  List.length_take ..

end Chart

/-! ### What is kept -/

namespace ParseState

/-- The second state has the columns of the first before column `f`, and the same cells there. -/
structure KeepsBelow (f : Nat) (s s' : ParseState) : Prop where
  le_size : f ≤ s'.chart.size
  truncate_eq : s'.chart.truncate f = s.chart.truncate f
  get?_eq : ∀ key : Cell, key.column < f → s'.forest.get? key = s.forest.get? key

namespace KeepsBelow

variable {f : Nat} {s s' : ParseState}

theorem refl (h : f ≤ s.chart.size) : s.KeepsBelow f s := ⟨h, rfl, fun _ _ => rfl⟩

theorem ensure (h : s.KeepsBelow f s') (k : Nat) :
    s.KeepsBelow f { s' with chart := s'.chart.ensure k } where
  le_size := by
    rw [Chart.size_ensure]
    exact Nat.le_trans h.le_size (Nat.le_max_left ..)
  truncate_eq := (Chart.truncate_ensure h.le_size k).trans h.truncate_eq
  get?_eq := h.get?_eq

theorem add (h : s.KeepsBelow f s') {k : Nat} (hk : f ≤ k) (i : Item) :
    s.KeepsBelow f { s' with chart := s'.chart.add k i } where
  le_size := by
    rw [Chart.size_add]
    exact Nat.le_trans h.le_size (Nat.le_max_left ..)
  truncate_eq := (Chart.truncate_add h.le_size hk i).trans h.truncate_eq
  get?_eq := h.get?_eq

theorem record (h : s.KeepsBelow f s') {key : Cell} (hkey : f ≤ key.column) (child : Cell) :
    s.KeepsBelow f { s' with forest := s'.forest.record key child } where
  le_size := h.le_size
  truncate_eq := h.truncate_eq
  get?_eq key' hkey' := by
    have hne : key' ≠ key := by
      rintro rfl
      omega
    exact (Forest.get?_record_of_ne hne).trans (h.get?_eq key' hkey')

theorem truncate (h : s.KeepsBelow f s') {k : Nat} (hk : f ≤ k) :
    s.KeepsBelow f { s' with chart := s'.chart.truncate k } where
  le_size := by
    rw [Chart.size_truncate]
    exact Nat.le_min.mpr ⟨hk, h.le_size⟩
  truncate_eq := (Chart.truncate_truncate hk).trans h.truncate_eq
  get?_eq := h.get?_eq

theorem purge (h : s.KeepsBelow f s') {k : Nat} (hk : f ≤ k) :
    s.KeepsBelow f { s' with forest := s'.forest.purgeFrom k } where
  le_size := h.le_size
  truncate_eq := h.truncate_eq
  get?_eq key hkey := by
    rw [Forest.get?_purgeFrom, if_pos (Nat.lt_of_lt_of_le hkey hk)]
    exact h.get?_eq key hkey

/-- A move in a column adds to that column or to the next one. -/
theorem apply (h : s.KeepsBelow f s') {k : Nat} (hk : f ≤ k) (m : Move) :
    s.KeepsBelow f (s'.apply k m) := by
  cases m with
  | advance parent child =>
    have hkey : f ≤ (⟨parent.advance, k⟩ : Cell).column := hk
    exact (h.add hk parent.advance).record hkey ⟨child, k⟩
  | start rule => exact h.add hk _
  | scan item => exact h.add (Nat.le_succ_of_le hk) _

/-- Building a column keeps what lies before it. -/
theorem build (h : s.KeepsBelow f s') {k : Nat} (hk : f ≤ k) (w : WidenedGrammar)
    (admits : Terminal → List Symbol → Bool) (lookahead : Terminal) :
    s.KeepsBelow f (s'.build w admits lookahead k) :=
  build_induction (fun _ m hs _ => hs.apply hk m) (h.ensure (k + 1))

/-- Rolling back leaves the columns and the cells that were kept, and nothing else. -/
theorem rollback (h : s.KeepsBelow f s') (hforest : ∀ e ∈ s.forest.toList, e.1.column < f) :
    (s'.rollback f).chart.columns = s.chart.columns.take f ∧ (s'.rollback f).chart.size = f ∧
      (s'.rollback f).forest.toList = s.forest.toList := by
  refine ⟨congrArg Chart.columns h.truncate_eq, ?_, Forest.toList_eq_of_get?_eq fun key => ?_⟩
  · rw [ParseState.rollback, Chart.size_truncate]
    exact Nat.min_eq_left h.le_size
  · rw [ParseState.rollback, Forest.get?_purgeFrom]
    by_cases hkey : key.column < f
    · rw [if_pos hkey]
      exact h.get?_eq key hkey
    · rw [if_neg hkey]
      refine (Option.eq_none_iff_forall_ne_some.mpr fun children hget => hkey ?_).symm
      exact hforest (key, children) (Forest.mem_toList.mpr hget)

end KeepsBelow

end ParseState

/-! ### Sessions -/

namespace Session

/-- The operation works on columns from column `f` on. The sentence rule may become wider, and
columns may be made, where there are none yet. -/
def Step.IsFrom (f : Nat) : Step → Prop
  | .add k _ | .build k _ | .truncate k | .purge k => f ≤ k
  | .record key _ => f ≤ key.column
  | .ensure _ | .widen | .narrow => True

variable {f : Nat} {s : ParseState} {t : Session}

theorem keepsBelow_step (h : s.KeepsBelow f t.state) {step : Step} (hstep : step.IsFrom f) :
    s.KeepsBelow f (t.step step).state := by
  cases step with
  | add k item => exact h.add hstep item
  | ensure k => exact h.ensure k
  | build k lookahead => exact h.build hstep _ _ _
  | truncate k => exact h.truncate hstep
  | widen => exact h
  | narrow => exact h
  | record key child => exact h.record hstep child
  | purge k => exact h.purge hstep

theorem keepsBelow_run (h : s.KeepsBelow f t.state) {steps : List Step}
    (hsteps : ∀ step ∈ steps, step.IsFrom f) : s.KeepsBelow f (t.run steps).state := by
  induction steps generalizing t with
  | nil => exact h
  | cons step steps ih =>
    have hstep := keepsBelow_step h (hsteps step List.mem_cons_self)
    exact ih hstep fun step' hstep' => hsteps step' (List.mem_cons_of_mem _ hstep')

end Session

/-- Whatever is done from column `f` on, rolling back to column `f` undoes it: the chart has the
first `f` columns, with the items that they had and in their order, and the forest the cells that it
had, with their children in their order. -/
theorem rollback_undoes (s : Session) {f : Nat} (hsize : f ≤ s.state.chart.size)
    (hforest : ∀ e ∈ s.state.forest.toList, e.1.column < f) {steps : List Session.Step}
    (hsteps : ∀ step ∈ steps, step.IsFrom f) :
    ((s.run steps).state.rollback f).chart.columns = s.state.chart.columns.take f ∧
      ((s.run steps).state.rollback f).chart.size = f ∧
      ((s.run steps).state.rollback f).forest.toList = s.state.forest.toList :=
  (Session.keepsBelow_run (.refl hsize) hsteps).rollback hforest

/-- A sentence is a list of nouns that grows to the left. -/
def Grammar.nounLists : Grammar where
  entry := ⟨.sent, [.nonterminal .phraseS], .sentence⟩
  others := [⟨.phraseS, [.nonterminal .phraseS, .nonterminal .phrase], .listConsLeft⟩,
    ⟨.phraseS, [], .listEmptyLow⟩, ⟨.phrase, [.terminal .comNoun], .word⟩]
  recovery := .phraseS
  distinct := by decide
  start_unused := by decide
  entry_unique := by decide
  entry_ends := rfl
  faultless := by decide

/-- After two nouns the list that began at the first column is completed in the third, with sentence
rules of two widths, and it goes on there. All of this is undone. -/
theorem rollback_undoes_nounLists :
    let s := (Session.begin Grammar.nounLists).run
      [.add 0 Grammar.nounLists.unwidened.startItem, .build 0 .comNoun, .build 1 .comNoun]
    let steps : List Session.Step := [.build 2 .eof, .widen, .build 2 .comNoun, .build 3 .eof]
    2 ≤ s.state.chart.size ∧ (∀ e ∈ s.state.forest.toList, e.1.column < 2) ∧
      (∀ step ∈ steps, step.IsFrom 2) ∧
      s.state.forest.size < (s.run steps).state.forest.size ∧
      ((s.run steps).state.rollback 2).chart.columns = s.state.chart.columns.take 2 ∧
      ((s.run steps).state.rollback 2).chart.size = 2 ∧
      ((s.run steps).state.rollback 2).forest.toList = s.state.forest.toList := by
  intro s steps
  have hsize : 2 ≤ s.state.chart.size := by decide +kernel
  have hforest : ∀ e ∈ s.state.forest.toList, e.1.column < 2 := by decide +kernel
  have hsteps : ∀ step ∈ steps, step.IsFrom 2 := by simp [steps, Session.Step.IsFrom]
  exact ⟨hsize, hforest, hsteps, by decide +kernel, rollback_undoes s hsize hforest hsteps⟩

end NounPhrase
