import NounPhrase.Chart.Closure

/-!
# Sessions

A session is a parse taken apart: the grammar, the chart and the forest of a parse, on which its
operations are carried out one by one and in any order.

## Main definitions

* `Session`, `Session.begin`: a widened grammar with a chart and a forest, and the session that
  has done nothing yet.
* `Session.Step`, `Session.step`: the operations and their effects.
* `Session.run`: a list of operations.
-/

namespace NounPhrase

/-- A grammar with a chart and a forest. -/
structure Session where
  grammar : WidenedGrammar
  state : ParseState

namespace Session

/-- The session that has done nothing yet. -/
def begin (g : Grammar) : Session := ⟨g.unwidened, .blank⟩

/-- The operations of a session. -/
inductive Step
  /-- Adds an item to a column. -/
  | add (k : Nat) (item : Item)
  /-- Makes the columns up to `k`. -/
  | ensure (k : Nat)
  /-- Builds column `k`. -/
  | build (k : Nat) (lookahead : Terminal)
  /-- Drops column `k` and those after it. -/
  | truncate (k : Nat)
  /-- Widens the sentence rule. -/
  | widen
  /-- Takes the sentence rule back to the way it was declared. -/
  | narrow
  /-- Records a child of a cell. -/
  | record (key child : Cell)
  /-- Drops the cells in column `k` and those after it. -/
  | purge (k : Nat)

/-- The session after an operation. -/
def step (s : Session) : Step → Session
  | .add k item => { s with state.chart := s.state.chart.add k item }
  | .ensure k => { s with state.chart := s.state.chart.ensure k }
  | .build k lookahead =>
    { s with state := s.state.build s.grammar s.grammar.grammar.admits lookahead k }
  | .truncate k => { s with state.chart := s.state.chart.truncate k }
  | .widen => { s with grammar := s.grammar.widen }
  | .narrow => { s with grammar := s.grammar.grammar.unwidened }
  | .record key child => { s with state.forest := s.state.forest.record key child }
  | .purge k => { s with state.forest := s.state.forest.purgeFrom k }

/-- The session after a list of operations. -/
def run (s : Session) (steps : List Step) : Session := steps.foldl step s

end Session

end NounPhrase
