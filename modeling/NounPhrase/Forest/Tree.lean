import NounPhrase.Action.Assembly
import NounPhrase.Forest.Basic
import NounPhrase.Grammar.Widened

/-!
# The tree of a forest

The tree of a sentence is read off the forest from the accepting item down, and within a rule from
the last symbol to the first: a terminal takes the last token that has not been taken, and a
nonterminal takes the best child of the cell that ends at its right. Where a cell has several
children, the one whose rule has the highest priority is best, and of equals the one found first.

A forest that was not made by building columns may lack a child or lead through more or fewer
symbols than there are tokens; each is a fault of its own.

## Main definitions

* `WidenedGrammar.resolve`: the best of several children.
* `TreeFault`, `TreeFault.message`: why a forest has no tree, and the text that says so.
* `Forest.tree`: the tree of a sentence.

## Implementation notes

Going down, a pair of a cell and a number of tokens left cannot come back: what follows would be
the same again and never end. The depth of a tree is therefore at most the number of such pairs,
and a longer way down is a derivation that contains itself.
-/

namespace NounPhrase

namespace WidenedGrammar

/-- The priority of a derivation. -/
def priority (w : WidenedGrammar) (c : Cell) : Nat :=
  (w.rule? c.item.rule).elim 0 (·.action.priority)

/-- The better of two derivations, the first if they are equals. -/
def better (w : WidenedGrammar) (best : Option Cell) (c : Cell) : Option Cell :=
  match best with
  | none => some c
  | some b => if w.priority b < w.priority c then some c else some b

/-- The derivation of highest priority, the first of several. -/
def resolve (w : WidenedGrammar) (candidates : List Cell) : Option Cell :=
  candidates.foldl w.better none

end WidenedGrammar

/-- The reason why a forest has no tree. -/
inductive TreeFault
  /-- No child is recorded for the item at the column. -/
  | missingDerivation (item : Item) (column : Nat)
  /-- The tokens do not suffice for the item. -/
  | tokensExhausted (item : Item)
  /-- The tree leaves out the first `count` tokens. -/
  | leftoverTokens (count : Nat)
  /-- The derivation of the item contains itself. -/
  | circular (item : Item)
  deriving DecidableEq, Repr

/-- The text of a fault, with the sentence rule as wide as it is now. -/
def TreeFault.message (w : WidenedGrammar) : TreeFault → String
  | missingDerivation item column =>
    "no derivation recorded for " ++ w.itemText item ++ " at column " ++ toString column
  | tokensExhausted item => "ran out of tokens rebuilding " ++ w.itemText item
  | leftoverTokens count => toString count ++ " tokens left over after rebuilding the tree"
  | circular item => "the derivation of " ++ w.itemText item ++ " contains itself"

namespace Forest

/-- The trees of the symbols of `rhs` before the dot of an item that ends at `column`, followed by
the trees `found`, and the tokens left over. The tokens to take from come in reverse, and
`descend` gives the tree of a child. -/
def children (f : Forest) (w : WidenedGrammar)
    (descend : Cell → List Token → Except TreeFault (Tree × List Token))
    (rhs : List Symbol) (item : Item) :
    (dot column : Nat) → List Token → List Tree → Except TreeFault (List Tree × List Token)
  | 0, _, tokens, found => .ok (found, tokens)
  | dot + 1, column, tokens, found =>
    match rhs[dot]?, tokens with
    | some (.terminal _), token :: tokens =>
      children f w descend rhs item dot (column - 1) tokens
        (.leaf ⟨token, ⟨tokens.length, tokens.length + 1⟩⟩ :: found)
    | some (.terminal _), [] => .error (.tokensExhausted item)
    | _, tokens =>
      let here : Item := { item with dot := dot + 1 }
      match (f.get? ⟨here, column⟩).bind w.resolve with
      | none => .error (.missingDerivation here column)
      | some child => do
        let (tree, tokens) ← descend child tokens
        children f w descend rhs item dot child.item.origin tokens (tree :: found)

/-- The tree of a cell and the tokens left over, if it is at most `depth` rules deep. -/
def descend (f : Forest) (w : WidenedGrammar) :
    (depth : Nat) → Cell → List Token → Except TreeFault (Tree × List Token)
  | 0, cell, _ => .error (.circular cell.item)
  | depth + 1, cell, tokens =>
    match w.rule? cell.item.rule with
    | none => .error (.missingDerivation cell.item cell.column)
    | some rule => do
      let (trees, tokens) ← children f w (fun c ts => descend f w depth c ts) rule.rhs cell.item
        cell.item.dot cell.column tokens []
      return (rule.action.apply ⟨cell.item.origin, cell.column⟩ trees, tokens)

/-- The number of children of all cells. -/
def childCount (f : Forest) : Nat := f.toList.foldr (fun e count => e.2.length + count) 0

/-- The tree of a sentence, from the accepting item after the last token down. The end marker is
the last of the tokens. -/
def tree (f : Forest) (w : WidenedGrammar) (tokens : List Token) : Except TreeFault Tree :=
  match descend f w ((f.childCount + 1) * (tokens.length + 1)) ⟨w.acceptItem, tokens.length⟩
    tokens.reverse with
  | .error fault => .error fault
  | .ok (tree, []) => .ok tree
  | .ok (_, rest) => .error (.leftoverTokens rest.length)

end Forest

end NounPhrase
