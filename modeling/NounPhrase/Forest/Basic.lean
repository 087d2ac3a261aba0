import NounPhrase.Item
import Std.Data.TreeMap

/-!
# Derivation forests

The forest keeps, for every item that was advanced over a nonterminal, the completed items that
allowed it. Where a cell has several such children, the phrase before its dot has several
derivations.

## Main definitions

* `Cell.compare`: the order of the cells, by column first.
* `Forest`, `Forest.blank`: the children of every cell, in the order in which they were found, and
  the forest without cells.
* `Forest.record`, `Forest.get?`, `Forest.purgeFrom`: adding a child, the children of a cell, and
  dropping all cells from a column on.
* `Forest.size`, `Forest.ambiguities`, `Forest.toList`: the number of cells, the number of those
  with several children, and all cells in order.
-/

namespace NounPhrase

/-- The order of the cells: by column, then by rule, dot and origin. -/
def Cell.compare : Cell → Cell → Ordering :=
  compareLex (compareOn (·.column)) <| compareLex (compareOn (·.item.rule.index)) <|
    compareLex (compareOn (·.item.dot)) (compareOn (·.item.origin))

/-- The children of every cell whose item was advanced over a nonterminal. -/
structure Forest where
  cells : Std.TreeMap Cell (List Cell) Cell.compare

namespace Forest

/-- The forest without cells. -/
def blank : Forest := ⟨∅⟩

/-- The children of a cell in the order in which they were found. -/
def get? (f : Forest) (key : Cell) : Option (List Cell) := f.cells[key]?

/-- The forest with `child` as the last child of `key`, unless it is a child already. -/
def record (f : Forest) (key child : Cell) : Forest :=
  ⟨f.cells.alter key fun
    | none => some [child]
    | some children => some (if child ∈ children then children else children ++ [child])⟩

/-- The forest without the cells in column `k` and those after it. -/
def purgeFrom (f : Forest) (k : Nat) : Forest := ⟨f.cells.filter fun cell _ => cell.column < k⟩

/-- The number of cells with children. -/
def size (f : Forest) : Nat := f.cells.size

/-- The cells with their children, in the order of the cells. -/
def toList (f : Forest) : List (Cell × List Cell) := f.cells.toList

/-- The number of cells with more than one child. -/
def ambiguities (f : Forest) : Nat := f.toList.countP (1 < ·.2.length)

end Forest

end NounPhrase
