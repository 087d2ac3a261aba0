import NounPhrase.Terminal

/-!
# Events of a parse

A parse reports what it does as a list of events, in order.

## Main definitions

* `Event`: the events.
* `Event.message`: what an event says, without its numbers.
-/

namespace NounPhrase

/-- What a parse reports. The entry length is the number of symbols of the sentence rule, after it
has been widened. -/
inductive Event
  /-- A column was built up to so many items. -/
  | builtColumn (column items : Nat) (lookahead : Terminal)
  /-- The tokens were found to be a sentence. -/
  | accepted (tokens entryLength ambiguities : Nat)
  /-- No item reached the column, or none of those at the end accepts, for a new reason. -/
  | widened (column entryLength : Nat)
  /-- The same again, with the same word to blame. -/
  | restarted (column entryLength : Nat)
  /-- Every token was dropped. -/
  | exhausted (entryLength : Nat)
  deriving DecidableEq, Repr

/-- What an event says. -/
def Event.message : Event → String
  | builtColumn .. => "built column"
  | accepted .. => "accepted"
  | widened .. => "recognition failed, widening the sentence rule"
  | restarted .. => "same failure twice, dropping the last token and restarting"
  | exhausted .. => "no tokens left to parse"

end NounPhrase
