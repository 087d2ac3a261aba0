import NounPhrase.Chart.Basic
import NounPhrase.Forest.Basic
import NounPhrase.Grammar.Widened

/-!
# Moves

Working on an item of column `k` is a list of moves, read off the chart as it stands. A completed
item advances the items of its origin column that wait for its nonterminal. An item that waits
for a nonterminal advances over the completions of it that were worked on before and that span
nothing, and starts the rules for it if no item before it did. An item that waits for the next
terminal is carried over to the next column.

## Main definitions

* `Move`: the advance of an item over a completed one, the start of a rule, and the scan of a
  terminal.
* `WidenedGrammar.movesBy`, `WidenedGrammar.moves`: the moves of an item, by what is looked up for
  them, and as they are read off a chart.
* `ParseState`: a chart and a forest, which grow together.
* `ParseState.apply`: the effect of a move.

## Implementation notes

Items are worked on in the order of their column, so those before a place in the column are those
worked on before. What has been predicted and completed in a column is read off them here; a chart
with an index keeps tables of it (`ColumnPass`).
-/

namespace NounPhrase

/-- One addition to a chart and its forest. -/
inductive Move
  /-- The item `parent` advances over the completed item `child`. -/
  | advance (parent child : Item)
  /-- The rule starts in the column. -/
  | start (rule : RuleId)
  /-- The item advances over the next terminal. -/
  | scan (item : Item)
  deriving DecidableEq, Repr

namespace WidenedGrammar

/-- The items among `items` that wait for the nonterminal `n`. -/
def waiting (w : WidenedGrammar) (n : Nonterminal) (items : List Item) : List Item :=
  items.filter fun i => w.next? i = some (.nonterminal n)

/-- The items among `items` that have found the nonterminal `n` without leaving column `k`. -/
def emptyCompletions (w : WidenedGrammar) (k : Nat) (n : Nonterminal) (items : List Item) :
    List Item :=
  items.filter fun i => i.origin = k ∧ w.completed? i = some n

/-- The rules for the nonterminal `n` that pass the test `admits`. -/
def admitted (w : WidenedGrammar) (admits : List Symbol → Bool) (n : Nonterminal) : List RuleId :=
  (w.grammar.rulesFor n).filter fun id => admits (w.rhs id)

/-- The moves of an item, where `lookahead` is the next terminal and a rule is started only if its
right-hand side passes the test `admits`. For every nonterminal it is given which items wait for it
where the item begins, which ones have found it in this column and span nothing, and whether no rule
for it has been started. -/
def movesBy (w : WidenedGrammar) (admits : Terminal → List Symbol → Bool) (lookahead : Terminal)
    (parents found : Nonterminal → List Item) (fresh : Nonterminal → Bool) (item : Item) :
    List Move :=
  match w.next? item with
  | none =>
    match w.completed? item with
    | none => []
    | some n => (parents n).map (.advance · item)
  | some (.nonterminal n) =>
    (found n).map (.advance item ·) ++
      if fresh n then (w.admitted (admits lookahead) n).map .start else []
  | some (.terminal t) => if t = lookahead then [.scan item] else []

/-- The moves of the item at place `idx` of column `k`, read off the chart. -/
def moves (w : WidenedGrammar) (admits : Terminal → List Symbol → Bool) (lookahead : Terminal)
    (chart : Chart) (k idx : Nat) (item : Item) : List Move :=
  let earlier := (chart.column k).take idx
  w.movesBy admits lookahead (w.waiting · (chart.column item.origin))
    (w.emptyCompletions k · earlier) (fun n => (w.waiting n earlier).isEmpty) item

end WidenedGrammar

/-- A chart with its forest. -/
structure ParseState where
  chart : Chart
  forest : Forest

namespace ParseState

/-- One empty column and no derivations. -/
def blank : ParseState := ⟨.blank, .blank⟩

/-- Carries out a move in column `k`. -/
def apply (k : Nat) (s : ParseState) : Move → ParseState
  | .advance parent child =>
    ⟨s.chart.add k parent.advance, s.forest.record ⟨parent.advance, k⟩ ⟨child, k⟩⟩
  | .start rule => { s with chart := s.chart.add k (.start rule k) }
  | .scan item => { s with chart := s.chart.add (k + 1) item.advance }

/-- Drops column `k` and everything after it. -/
def rollback (s : ParseState) (k : Nat) : ParseState := ⟨s.chart.truncate k, s.forest.purgeFrom k⟩

end ParseState

end NounPhrase
