import NounPhrase.Chart.Basic
import NounPhrase.Grammar.Widened

/-!
# Printed charts

A chart is printed column by column: a line with the number of the column, then a line for every
item with its origin, its column and the dotted rule.

## Main definitions

* `Chart.text`: the printed form of a chart.
-/

namespace NounPhrase.Chart

/-- The line of an item in column `k`. -/
def itemLine (w : WidenedGrammar) (k : Nat) (i : Item) : String :=
  "  " ++ toString i.origin ++ ".." ++ toString k ++ ": " ++ w.itemText i ++ "\n"

/-- The lines of column `k`. -/
def columnText (w : WidenedGrammar) (k : Nat) (c : Column) : String :=
  "State " ++ toString k ++ ":\n" ++ String.join (c.map (itemLine w k))

/-- The printed form of a chart, with the sentence rule as wide as it is now. -/
def text (w : WidenedGrammar) (c : Chart) : String :=
  String.join (c.columns.mapIdx (columnText w))

end NounPhrase.Chart
