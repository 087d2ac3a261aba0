import NounPhrase.Action.Basic
import NounPhrase.Tree.Basic

/-!
# How an action builds its tree

An action passes its first child on, makes a sentence of all its children, or makes a branch by a
plan. A plan says of every child whether it is kept or spread: a kept child becomes a child of
the new branch, and of a spread child the children do. Spreading is what keeps lists flat when
the rules for them are recursive, and what dissolves optional constituents.

## Main definitions

* `Placement`, `Assembly`: what a plan says of a child, and the three ways to build a tree.
* `Action.assembly`: the assembly of every action.
* `Action.accepts`: the numbers of children that an action is meant for.
* `Action.apply`: the tree that an action builds.
-/

namespace NounPhrase

/-- What becomes of a child in a new branch. -/
inductive Placement
  /-- The child itself is added. -/
  | keep
  /-- The children of the child are added; a leaf is added itself. -/
  | spread
  deriving DecidableEq, Repr

/-- The trees that stand in a new branch for one child. -/
def Placement.place : Placement → Tree → List Tree
  | .spread, .branch _ children => children
  | _, t => [t]

/-- The way an action builds its tree. -/
inductive Assembly
  /-- The first child, unchanged. -/
  | pass
  /-- A sentence of all the children. -/
  | sentence
  /-- A branch with the given label, the children placed by the plan. -/
  | node (label : Label) (plan : List Placement)
  deriving DecidableEq, Repr

namespace Assembly

/-- A list branch. -/
abbrev list (plan : List Placement) : Assembly := .node .list plan

/-- A branch for a constituent of category `n`. -/
abbrev phrase (n : Nonterminal) (plan : List Placement) : Assembly := .node (.category n) plan

end Assembly

namespace Action

open Assembly Placement in
/-- The assembly of every action. -/
def assembly : Action → Assembly
  | .start | .word | .phraseDetPossPron | .phraseAdvp | .phraseVc | .phraseAp | .phraseInfp
  | .phraseNump | .phraseNp | .phrasePp | .det | .detPossPron | .detPossPronDet | .adj
  | .apMinAlt | .apMaxAlt | .konjDelMin | .npCom => pass
  | .sentence => .sentence
  | .listEmpty | .listEmptyLow | .optNone => list []
  | .listTerm | .listCons | .listConsSing | .listConsPlur | .listConsLeft | .apMinCont | .npRest
  | .npCom1 => list [keep, spread]
  | .optTerm | .optNonterm => list [keep]
  | .advp => phrase .advp [keep]
  | .apMinItem | .compNounCont => list [spread, keep]
  | .apMin => phrase .apMin [spread]
  | .apMax => phrase .apMax [spread, spread, spread, spread]
  | .propCompNounCont | .npSif => list [spread, spread, keep]
  | .numPhrase => phrase .numP [spread, keep, spread]
  | .npRestPhrase | .npSifPhrase | .npPhrase => phrase .np [spread]
  | .npCom2 => list [spread, keep, spread, spread, spread, spread, spread, keep, spread]
  | .npCom3 => list [spread, spread, spread, spread, spread, spread, spread, keep, spread]
  | .npProp => list [spread, spread, spread, keep, spread]
  | .nppc => list [keep, spread, spread, keep, spread]
  | .npComp => list [spread, spread, keep, spread, keep, spread, spread, spread, keep, spread]
  | .ppAp | .ppNp => phrase .pp [keep, keep]
  | .ppMellan | .ppKonj => phrase .pp [keep, keep, keep, keep]
  | .vc => phrase .vc [keep]
  | .vcList => phrase .vc [keep, spread]
  | .vcListSup => phrase .vc [keep, spread, keep]
  | .infp => phrase .infp [keep, spread, keep, spread]

/-- Whether the action builds its tree from `n` children without losing one it should see: a plan
has one entry for every child, and the other assemblies need a child to begin with. -/
def accepts (a : Action) (n : Nat) : Bool :=
  match a.assembly with
  | .pass | .sentence => 1 ≤ n
  | .node _ plan => plan.length == n

/-- The tree that the action builds for a stretch of the input. Children beyond the end of a plan
are left out, and passing on a child where there is none gives an empty list. -/
def apply (a : Action) (span : Span) (children : List Tree) : Tree :=
  match a.assembly with
  | .pass => children.head?.getD (.branch ⟨.list, span⟩ [])
  | .sentence => .branch ⟨.category .sent, span⟩ children
  | .node label plan => .branch ⟨label, span⟩ (List.zipWith Placement.place plan children).flatten

end Action

end NounPhrase
