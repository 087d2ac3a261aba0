/-!
# Segments

Parsing a sentence takes the longer the more items it has, so a long line is cut into segments
of limited length at the blanks between its items.

## Main definitions

* `cutAt`: a text cut at every `limit`-th blank.
* `segments`: the segments of a line.
-/

namespace NounPhrase

/-- The text cut at every `limit`-th blank, where `count` blanks have gone by since the last cut.
What follows the last cut is a piece unless it is empty. -/
def cutAt (limit count : Nat) : List Char → List (List Char)
  | [] => []
  | c :: cs =>
    if c = ' ' ∧ count + 1 = limit then [] :: cutAt limit 0 cs
    else
      match cutAt limit (if c = ' ' then count + 1 else count) cs with
      | [] => [[c]]
      | piece :: pieces => (c :: piece) :: pieces

/-- The segments of a line, each of at most `limit` items, or of one item if the limit is zero. A
line without items is a segment of its own. -/
def segments (line : String) (limit : Nat) : List String :=
  match cutAt (max limit 1) 0 line.toList with
  | [] => [""]
  | pieces => pieces.map String.ofList

end NounPhrase
