/-!
# Names of the closed alphabets

Terminals, nonterminals and actions are written by name in rule notation. A name outside its
alphabet is the error `UnknownName`, whose text says which alphabet was asked.

## Main definitions

* `Alphabet`: the three alphabets.
* `UnknownName`, `UnknownName.message`: a name that stands for nothing, and the text that says so.
-/

namespace NounPhrase

/-- The alphabets whose members have names. -/
inductive Alphabet
  | terminal | nonterminal | action
  deriving DecidableEq, Repr

/-- The word for a member of the alphabet. -/
def Alphabet.noun : Alphabet → String
  | .terminal => "terminal"
  | .nonterminal => "nonterminal"
  | .action => "action"

/-- The name `name` belongs to no member of `alphabet`. -/
structure UnknownName where
  alphabet : Alphabet
  name : String
  deriving DecidableEq, Repr

/-- The text of the error quotes the name. -/
def UnknownName.message (e : UnknownName) : String :=
  "unknown " ++ e.alphabet.noun ++ " `" ++ e.name ++ "`"

end NounPhrase
