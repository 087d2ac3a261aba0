import NounPhrase.Terminal
import NounPhrase.Nonterminal
import NounPhrase.Text.LowerCase

/-!
# Symbols and labels

A rule's right-hand side is a list of symbols, each a terminal or a nonterminal. A branch of a
derivation tree carries a label: a phrase category, or the mark of an anonymous list.

## Main definitions

* `Symbol`: a terminal or a nonterminal, with its text `Symbol.text`.
* `Symbol.ofName`: the symbol of a name, a terminal if the name begins with a lower-case letter.
* `Label`: the tag of a branch, with its text `Label.text`.
-/

namespace NounPhrase

/-- A symbol of a right-hand side. -/
inductive Symbol
  | terminal (t : Terminal)
  | nonterminal (n : Nonterminal)
  deriving DecidableEq, Repr

namespace Symbol

/-- A symbol is written by its name. -/
def text : Symbol → String
  | terminal t => t.name
  | nonterminal n => n.name

/-- The nonterminal that a symbol is, if it is one. -/
def nonterminal? : Symbol → Option Nonterminal
  | terminal _ => none
  | nonterminal n => some n

/-- The symbol with the given name. A name that begins in lower case stands for a terminal, any
other for a nonterminal. -/
def ofName (s : String) : Except UnknownName Symbol :=
  match s.toList with
  | c :: _ => if Text.isLowerCase c then (Terminal.ofName s).map terminal
    else (Nonterminal.ofName s).map nonterminal
  | [] => (Nonterminal.ofName s).map nonterminal

@[simp] theorem nonterminal?_eq_some {s : Symbol} {n : Nonterminal} :
    s.nonterminal? = some n ↔ s = nonterminal n := by
  cases s <;> simp [nonterminal?]

end Symbol

/-- The tag of a branch in a derivation tree. -/
inductive Label
  /-- An anonymous list, made by list rules and optional constituents. -/
  | list
  /-- A constituent of the given category. -/
  | category (n : Nonterminal)
  deriving DecidableEq, Repr

/-- The text of a label: the name of its category, or `list`. -/
def Label.text : Label → String
  | list => "list"
  | category n => n.name

end NounPhrase
