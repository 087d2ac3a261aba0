import NounPhrase.Tree.Basic
import NounPhrase.Text.Line

/-!
# Printed trees

A leaf is printed as its span and token. A branch is a pair of parentheses around its span and
label and its children: an only child follows on the same line in parentheses of its own, and
otherwise every line of every child goes on a line of its own, two blanks further in.

## Main definitions

* `Tree.layout`: the printed form as a list of characters.
* `Tree.text`: the printed form as a string.
-/

namespace NounPhrase.Tree

mutual

/-- The printed form of a tree. -/
def layout : Tree → List Char
  | leaf token => (token.text Token.text).toList
  | branch label [t] =>
    '(' :: (label.text Label.text).toList ++ ' ' :: '(' :: t.layout ++ [')', ')']
  | branch label ts => '(' :: (label.text Label.text).toList ++ layoutBelow ts ++ [')']

/-- The printed forms of the children of a branch, line by line and two blanks further in. -/
def layoutBelow : List Tree → List Char
  | [] => []
  | t :: ts => (Text.lines t.layout).flatMap ('\n' :: ' ' :: ' ' :: ·) ++ layoutBelow ts

end

/-- The printed form of a tree as a string. -/
def text (t : Tree) : String := String.ofList t.layout

end NounPhrase.Tree
