import NounPhrase.Symbol
import NounPhrase.Token

/-!
# Derivation trees

A leaf holds a token, a branch a label and the list of its children; both know the span of the
input that they stand for. The phrases of a category are read off a tree as texts: the words of
the leaves below each branch of that category, an inner branch before the one that contains it.

## Main definitions

* `Span`, `Spanned`: a stretch of the input, and a value that stands for one.
* `Tree`: derivation trees.
* `Tree.leaves`, `Tree.words`: the leaves from left to right, and their words.
* `Tree.phrases`, `Tree.nounPhrases`: the texts of the branches of a category.
-/

namespace NounPhrase

/-- The tokens from number `start` on, up to but not including number `stop`. -/
structure Span where
  start : Nat
  stop : Nat
  deriving DecidableEq, Repr

/-- The two ends with two dots between them. -/
def Span.text (s : Span) : String := toString s.start ++ ".." ++ toString s.stop

/-- A value that stands for a stretch of the input. -/
structure Spanned (α : Type) where
  value : α
  span : Span
  deriving DecidableEq, Repr

/-- The span and the text of the value. -/
def Spanned.text {α : Type} (render : α → String) (x : Spanned α) : String :=
  x.span.text ++ ": " ++ render x.value

/-- A derivation tree. -/
inductive Tree
  | leaf (token : Spanned Token)
  | branch (label : Spanned Label) (children : List Tree)
  deriving Repr

namespace Tree

/-- Whether the tree is a single token. -/
def isLeaf : Tree → Bool
  | leaf _ => true
  | branch _ _ => false

/-- The label and the children of a branch. -/
def branch? : Tree → Option (Spanned Label × List Tree)
  | leaf _ => none
  | branch label children => some (label, children)

/-! ### Leaves -/

mutual

/-- The leaves from left to right. -/
def leaves : Tree → List (Spanned Token)
  | leaf token => [token]
  | branch _ children => leavesOfList children

/-- The leaves of a list of trees from left to right. -/
def leavesOfList : List Tree → List (Spanned Token)
  | [] => []
  | t :: ts => t.leaves ++ leavesOfList ts

end

theorem leavesOfList_eq_flatMap (ts : List Tree) : leavesOfList ts = ts.flatMap leaves := by
  induction ts with
  | nil => rfl
  | cons t ts ih => rw [leavesOfList, ih, List.flatMap_cons]

@[simp] theorem leaves_leaf (token : Spanned Token) : (leaf token).leaves = [token] := by
  rw [leaves]

@[simp] theorem leaves_branch (label : Spanned Label) (children : List Tree) :
    (branch label children).leaves = children.flatMap leaves := by
  rw [leaves, leavesOfList_eq_flatMap]

/-- The words of the leaves; a leaf without a word adds none. -/
def words (t : Tree) : List String := t.leaves.filterMap (·.value.word)

/-! ### Phrases -/

mutual

/-- The words of every branch of the category `n`, an inner branch before the one around it. -/
def phrases (n : Nonterminal) : Tree → List String
  | leaf _ => []
  | branch label children =>
    phrasesOfList n children ++
      if label.value = .category n then [" ".intercalate (branch label children).words] else []

/-- The phrases of a list of trees from left to right. -/
def phrasesOfList (n : Nonterminal) : List Tree → List String
  | [] => []
  | t :: ts => t.phrases n ++ phrasesOfList n ts

end

/-- The noun phrases of a sentence. -/
def nounPhrases (t : Tree) : List String := t.phrases .np

end Tree

end NounPhrase
