/-!
# Lines

A text is read line by line. A line ends before a line feed, or before a carriage return with a
line feed after it; what follows the last line feed is a line unless it is empty.

## Main definitions

* `Text.lines`: the lines of a text given as a list of characters.
* `Text.linesOf`: the same on strings.
-/

namespace NounPhrase.Text

/-- The lines of a text. A carriage return is part of the line end only directly before the line
feed. -/
def lines : List Char → List (List Char)
  | [] => []
  | '\n' :: cs => [] :: lines cs
  | '\r' :: '\n' :: cs => [] :: lines cs
  | c :: cs =>
    match lines cs with
    | [] => [[c]]
    | line :: rest => (c :: line) :: rest

/-- The lines of a string. -/
def linesOf (s : String) : List String := (lines s.toList).map String.ofList

end NounPhrase.Text
