import NounPhrase.Grammar.Basic

/-!
# Dotted rules

An item is a rule with a dot in its right-hand side: the symbols before the dot have been found,
beginning at the origin, and those after it are still to come.

## Main definitions

* `Item`: a dotted rule and its origin.
* `Item.start`, `Item.advance`, `Item.retreat`: a rule before its first symbol, and the dot one
  place further on or back.
* `Cell`: an item and the column in which it ends.
-/

namespace NounPhrase

/-- A dotted rule and the column where its recognition began. -/
structure Item where
  rule : RuleId
  dot : Nat
  origin : Nat
  deriving DecidableEq, Repr

namespace Item

/-- The rule before its first symbol, at column `origin`. -/
def start (rule : RuleId) (origin : Nat) : Item := ⟨rule, 0, origin⟩

/-- The dot one place further on. -/
def advance (i : Item) : Item := { i with dot := i.dot + 1 }

/-- The dot one place back, or the same item at the beginning of its rule. -/
def retreat (i : Item) : Item := { i with dot := i.dot - 1 }

@[simp] theorem rule_advance (i : Item) : i.advance.rule = i.rule := rfl

@[simp] theorem dot_advance (i : Item) : i.advance.dot = i.dot + 1 := rfl

@[simp] theorem origin_advance (i : Item) : i.advance.origin = i.origin := rfl

@[simp] theorem retreat_advance (i : Item) : i.advance.retreat = i := rfl

end Item

/-- An item and the column in which it ends. -/
structure Cell where
  item : Item
  column : Nat
  deriving DecidableEq, Repr

end NounPhrase
