import NounPhrase.Chart.Indexed
import NounPhrase.Session

/-!
# Sessions on charts with an index

The operations of a session can be carried out on a chart whose columns have sets to find their
items in.

## Main definitions

* `IndexedSession`, `IndexedSession.begin`: a widened grammar with a chart of this kind and a
  forest, and the session that has done nothing yet.
* `IndexedSession.step`, `IndexedSession.run`: an operation, and a list of operations.
* `IndexedSession.plain`: the session without the sets.
-/

namespace NounPhrase

/-- A grammar with a chart with an index, and a forest. -/
structure IndexedSession where
  grammar : WidenedGrammar
  state : IndexedState

namespace IndexedSession

/-- The session that has done nothing yet. -/
def begin (g : Grammar) : IndexedSession := ⟨g.unwidened, .blank⟩

/-- The session without the sets. -/
def plain (s : IndexedSession) : Session := ⟨s.grammar, s.state.plain⟩

/-- The session after an operation. -/
def step (s : IndexedSession) : Session.Step → IndexedSession
  | .add k item => { s with state.chart := (s.state.chart.add k item).2 }
  | .ensure k => { s with state.chart := s.state.chart.ensure k }
  | .build k lookahead =>
    { s with state := s.state.build s.grammar s.grammar.grammar.admits lookahead k }
  | .truncate k => { s with state.chart := s.state.chart.truncate k }
  | .widen => { s with grammar := s.grammar.widen }
  | .narrow => { s with grammar := s.grammar.grammar.unwidened }
  | .record key child => { s with state.forest := s.state.forest.record key child }
  | .purge k => { s with state.forest := s.state.forest.purgeFrom k }

/-- The session after a list of operations. -/
def run (s : IndexedSession) (steps : List Session.Step) : IndexedSession := steps.foldl step s

end IndexedSession

end NounPhrase
