/-!
# Patterns of tags

A tag pattern says for every place of a tag which characters may stand there. A tag fits if it is
as long as the pattern and fits at every place.

## Main definitions

* `Slot`: the characters that may stand at one place.
* `Pattern`, `Pattern.fits`: a slot for every place, and the texts that fit.
* `slots`, `oneOf`: patterns written as text, and the pattern of one place with a choice.
-/

namespace NounPhrase

/-- What may stand at one place of a text. -/
inductive Slot
  /-- Any character but a line feed. -/
  | any
  /-- The given character. -/
  | exactly (c : Char)
  /-- One of the given characters. -/
  | oneOf (cs : List Char)
  deriving DecidableEq, Repr

/-- Whether the character may stand at the place. -/
def Slot.fits : Slot → Char → Bool
  | any, c => c != '\n'
  | exactly d, c => c == d
  | oneOf cs, c => cs.contains c

/-- A slot for every place of a text. -/
abbrev Pattern := List Slot

/-- Whether a text is as long as the pattern and fits at every place. -/
def Pattern.fits : Pattern → List Char → Bool
  | [], [] => true
  | s :: p, c :: cs => s.fits c && fits p cs
  | _, _ => false

/-- The pattern of a text; a dot stands for any character. -/
def slots (text : String) : Pattern :=
  text.toList.map fun c => if c = '.' then .any else .exactly c

/-- The pattern of one place where any character of the text may stand. -/
def oneOf (text : String) : Pattern := [.oneOf text.toList]

end NounPhrase
