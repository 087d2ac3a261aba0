import NounPhrase.Proofs.Chart.Indexed
import NounPhrase.Proofs.Chart.Rollback
import NounPhrase.Proofs.Forest.Entries
import NounPhrase.Session.Indexed

/-!
# What holds of a session at all times

The operations of a session may come in any order: columns are dropped and made again, and a
column is built again over the items that it has. No operation checks that the set of a column has
the items of its list, or that the entries of the forest have children and none of them twice. Each
operation keeps it so, and therefore it holds after all of them.

The sets are dealt with once, by showing that a session does to its lists what it would do without
the sets. What is said of the forest is then shown of sessions that have lists alone.

## Main results

* `IndexedSession.plain_step`, `IndexedSession.plain_run`: the operations keep the chart exact, and
  do to the lists what they do without the sets.
* `Session.isTidy_run`: the forest of a session is tidy.
* `Session.childrenOf_step`: no operation but dropping columns takes children away.
* `representation_of_run`: the columns and the forest after any operations.
-/

namespace NounPhrase

/-! ### The forest -/

namespace Session

variable {s : Session}

theorem isTidy_step (h : s.state.forest.IsTidy) (step : Step) :
    (s.step step).state.forest.IsTidy := by
  cases step with
  | build k lookahead =>
    refine ParseState.build_induction (P := fun s' => s'.forest.IsTidy) (fun s' m hs _ => ?_) h
    cases m with
    | advance parent child => exact hs.record _ _
    | start rule => exact hs
    | scan item => exact hs
  | record key child => exact h.record key child
  | purge k => exact h.purgeFrom k
  | _ => exact h

/-- The entries of the forest have children, and none of them twice. -/
theorem isTidy_run (h : s.state.forest.IsTidy) (steps : List Step) :
    (s.run steps).state.forest.IsTidy := by
  induction steps generalizing s with
  | nil => exact h
  | cons step steps ih => exact ih (isTidy_step h step)

/-- The children of a cell stay the first ones in their order, unless its column is dropped. -/
theorem childrenOf_step (s : Session) {step : Step} {key : Cell}
    (hkey : ∀ k, step = .purge k → key.column < k) :
    s.state.forest.childrenOf key <+: (s.step step).state.forest.childrenOf key := by
  cases step with
  | build k lookahead => exact (ParseState.extends_build ..).childrenOf key
  | record key' child => exact s.state.forest.childrenOf_isPrefix_record key' child key
  | purge k =>
    rw [step, Forest.childrenOf_purgeFrom, if_pos (hkey k rfl)]
  | _ => exact List.prefix_refl _

end Session

/-! ### The chart -/

namespace IndexedSession

variable {s : IndexedSession}

/-- An operation keeps the chart exact, and is carried out on the lists. -/
theorem plain_step (h : s.state.chart.IsExact) (step : Session.Step) :
    (s.step step).state.chart.IsExact ∧ (s.step step).plain = s.plain.step step := by
  have withChart {c c' : Chart} (hc : c = c') :
      (⟨s.grammar, ⟨c, s.state.forest⟩⟩ : Session) = ⟨s.grammar, ⟨c', s.state.forest⟩⟩ := by
    rw [hc]
  cases step with
  | add k item => exact ⟨h.add k item, withChart (h.plain_add k item)⟩
  | ensure k => exact ⟨h.ensure k, withChart (s.state.chart.plain_ensure k)⟩
  | build k lookahead =>
    obtain ⟨hexact, hplain⟩ :=
      IndexedState.plain_build s.grammar s.grammar.grammar.admits lookahead k h
    exact ⟨hexact, congrArg (Session.mk s.grammar) hplain⟩
  | truncate k => exact ⟨h.truncate k, withChart (s.state.chart.plain_truncate k)⟩
  | _ => exact ⟨h, rfl⟩

/-- So does a list of operations. -/
theorem plain_run (h : s.state.chart.IsExact) (steps : List Session.Step) :
    (s.run steps).state.chart.IsExact ∧ (s.run steps).plain = s.plain.run steps := by
  induction steps generalizing s with
  | nil => exact ⟨h, rfl⟩
  | cons step steps ih =>
    obtain ⟨hexact, hplain⟩ := plain_step h step
    obtain ⟨hexact', hplain'⟩ := ih hexact
    exact ⟨hexact', hplain'.trans (congrArg (Session.run · steps) hplain)⟩

/-- The entry of a cell stays, with its children the first ones in their order, unless the column of
the cell is dropped. -/
theorem exists_get?_step (h : s.state.chart.IsExact) (hforest : s.state.forest.IsTidy)
    {step : Session.Step} {key : Cell} {children : List Cell}
    (hget : s.state.forest.get? key = some children)
    (hkey : ∀ k, step = .purge k → key.column < k) :
    ∃ children', (s.step step).state.forest.get? key = some children' ∧ children <+: children' := by
  have hstep : (s.step step).state.forest = (s.plain.step step).state.forest :=
    congrArg (·.state.forest) (plain_step h step).2
  refine hforest.exists_get?_of_isPrefix hget ?_
  rw [hstep]
  exact s.plain.childrenOf_step hkey

end IndexedSession

/-- After any operations on the empty chart and the empty forest, each column lists its items
without repetition, and its set has the items of the list. Adding an item tells that it is new if
its column does not list it, and then puts it last there. The entries of the forest have children,
and none of them twice. No operation but dropping columns takes away or moves a recorded child. The
ambiguities are the entries with at least two children, and not more than all entries. -/
theorem representation_of_run (g : Grammar) (steps : List Session.Step) :
    let s := (IndexedSession.begin g).run steps
    s.plain = (Session.begin g).run steps ∧
      (∀ k, (s.state.chart.column k).items.Nodup ∧
        ∀ i, s.state.chart.has k i ↔ i ∈ (s.state.chart.column k).items) ∧
      (∀ k i, ((s.state.chart.add k i).1 ↔ i ∉ (s.state.chart.column k).items) ∧
        ∀ j, ((s.step (.add k i)).state.chart.column j).items =
          if j = k ∧ (s.state.chart.add k i).1 then (s.state.chart.column j).items ++ [i]
          else (s.state.chart.column j).items) ∧
      (∀ key children, s.state.forest.get? key = some children →
        children ≠ [] ∧ children.Nodup) ∧
      (∀ step key children, s.state.forest.get? key = some children →
        (∀ k, step = .purge k → key.column < k) →
          ∃ children', (s.step step).state.forest.get? key = some children' ∧
            children <+: children') ∧
      (∃ cells : Finset Cell,
        (∀ key, key ∈ cells ↔ ∃ children, s.state.forest.get? key = some children) ∧
        s.state.forest.size = cells.card ∧
        s.state.forest.ambiguities =
          (cells.filter fun key => 2 ≤ (s.state.forest.childrenOf key).length).card ∧
        s.state.forest.ambiguities ≤ s.state.forest.size) := by
  intro s
  obtain ⟨hexact, hplain⟩ :=
    IndexedSession.plain_run (s := .begin g) IndexedChart.isExact_blank steps
  have hforest : s.plain.state.forest.IsTidy := by
    rw [hplain]
    exact Session.isTidy_run (s := .begin g) Forest.isTidy_blank steps
  refine ⟨hplain, fun k => ⟨(hexact.column k).nodup, (hexact.column k).has_iff⟩,
    fun k i => ⟨hexact.add_fst_iff k i, fun j => hexact.items_column_add j k i⟩,
    fun key children hget => ⟨hforest.ne_nil key children hget, hforest.nodup key children hget⟩,
    fun step key children hget hkey => IndexedSession.exists_get?_step hexact hforest hget hkey,
    s.state.forest.support, fun key => Forest.mem_support, (Forest.card_support _).symm,
    Forest.ambiguities_eq_card _, Forest.ambiguities_le_size _⟩

/-- A column is dropped after it was built, and made and built again. The item from which all began
is added once more, and a cell that has a child is given another one twice and then a third. -/
theorem representation_of_run_nounLists :
    let item := Grammar.nounLists.unwidened.startItem
    let key : Cell := ⟨item.advance, 1⟩
    let built : Cell := ⟨⟨Grammar.entryId, 1, 0⟩, 1⟩
    let child : Cell := ⟨item, 1⟩
    let steps : List Session.Step := [.add 0 item, .build 0 .comNoun, .build 1 .comNoun,
      .truncate 1, .build 0 .comNoun, .build 1 .eof, .add 0 item, .record key child,
      .record key child, .record key ⟨item, 0⟩]
    let s := (IndexedSession.begin Grammar.nounLists).run steps
    (s.state.chart.column 1).items ≠ [] ∧ (s.state.chart.column 1).items.Nodup ∧
      s.state.chart.has 0 item ∧ (s.state.chart.add 0 item).1 = false ∧
      (s.state.chart.add 1 item).1 = true ∧
      s.state.forest.get? key = some [built, child, ⟨item, 0⟩] ∧
      [built, child, ⟨item, 0⟩].Nodup ∧
      (∃ children, (s.step (.purge 2)).state.forest.get? key = some children ∧
        [built, child, ⟨item, 0⟩] <+: children) ∧
      s.state.forest.ambiguities = 1 ∧ s.state.forest.ambiguities ≤ s.state.forest.size := by
  intro item key built child steps s
  obtain ⟨hplain, hcolumn, hadd, hentry, hstep, cells, -, -, -, hle⟩ :=
    representation_of_run Grammar.nounLists steps
  have hlists (k : Nat) : (s.state.chart.column k).items =
      ((Session.begin Grammar.nounLists).run steps).state.chart.column k := by
    rw [← hplain]
    exact (s.state.chart.column_plain k).symm
  have hforest : s.state.forest = ((Session.begin Grammar.nounLists).run steps).state.forest :=
    congrArg (·.state.forest) hplain
  have hmem : item ∈ (s.state.chart.column 0).items := by
    rw [hlists]
    decide +kernel
  have hnot : item ∉ (s.state.chart.column 1).items := by
    rw [hlists]
    decide +kernel
  have hget : s.state.forest.get? key = some [built, child, ⟨item, 0⟩] := by
    rw [hforest]
    decide +kernel
  have hkey : ∀ k, Session.Step.purge 2 = .purge k → key.column < k := by
    rintro k ⟨⟩
    decide
  refine ⟨?_, (hcolumn 1).1, ((hcolumn 0).2 item).mpr hmem, ?_, (hadd 1 item).1.mpr hnot, hget,
    (hentry key _ hget).2, hstep (.purge 2) key _ hget hkey, ?_, hle⟩
  · rw [hlists]
    decide +kernel
  · exact Bool.eq_false_iff.mpr fun h => (hadd 0 item).1.mp h hmem
  · rw [hforest]
    decide +kernel

end NounPhrase
