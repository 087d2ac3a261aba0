import Mathlib.Data.List.Infix
import NounPhrase.Proofs.Tree.Lists

/-!
# What an action keeps of its children

A plan may be shorter than the list of children, and a child may be passed on that is not the only
one. Then children are lost, but never others than the last ones: an action covers the first few of
its children, or all of them. Of a child that it covers all leaves are kept, and all trees below it,
unchanged and in their order. The child itself is lost only where it is a branch that is spread. So
nothing is invented or moved, whatever the children are and however many there are.

## Main definitions

* `Tree.properSubtrees`: the trees in a tree without the tree itself.
* `Action.covered`: the children that an action covers, with what becomes of each.
* `Placement.kept`: the trees that are kept of a child.

## Main results

* `Action.covered_isPrefix`: the covered children are the first ones.
* `Action.leaves_apply_eq`: the leaves are those of the covered children.
* `Action.subtrees_apply`: the trees in the tree that an action makes.
* `leaves_prefix_and_subtrees_kept`: the result in full.
-/

namespace NounPhrase

/-! ### The trees of one child -/

namespace Tree

/-- The trees in a tree without the tree itself, a branch behind those below it. -/
def properSubtrees : Tree → List Tree
  | leaf _ => []
  | branch _ children => children.flatMap subtrees

theorem subtrees_eq_append (t : Tree) : t.subtrees = t.properSubtrees ++ [t] := by
  cases t with
  | leaf token => exact subtrees_leaf token
  | branch label children => exact subtrees_branch label children

end Tree

/-- The trees that are kept of a child: those below it, and the child itself unless it is a branch
that is spread. -/
def Placement.kept (p : Placement) (t : Tree) : List Tree :=
  t.properSubtrees ++ if p = .spread ∧ ¬ t.isLeaf then [] else [t]

theorem Placement.flatMap_subtrees_place (p : Placement) (t : Tree) :
    (p.place t).flatMap Tree.subtrees = p.kept t := by
  cases p with
  | keep =>
    rw [kept, if_neg (by simp), ← t.subtrees_eq_append]
    exact List.flatMap_singleton ..
  | spread =>
    cases t with
    | leaf token =>
      rw [kept, if_neg (by simp [Tree.isLeaf]), ← Tree.subtrees_eq_append]
      exact List.flatMap_singleton ..
    | branch label children =>
      rw [kept, if_pos ⟨rfl, by simp [Tree.isLeaf]⟩, List.append_nil]
      rfl

/-! ### The trees of all children -/

section Plan

variable {α : Type} {f : Tree → List α} {g : Placement × Tree → List α}
  (plan : List Placement) (children : List Tree)

/-- A plan has entries for the first children. -/
theorem map_snd_zip_isPrefix : (plan.zip children).map Prod.snd <+: children := by
  induction plan generalizing children with
  | nil => exact List.nil_prefix
  | cons p plan ih =>
    cases children with
    | nil => exact List.nil_prefix
    | cons t children => exact (List.prefix_cons_inj t).mpr (ih children)

/-- What is listed of the trees that stand for the children is listed child by child. -/
theorem flatMap_flatten_zipWith_place (h : ∀ p t, (p.place t).flatMap f = g (p, t)) :
    (List.zipWith Placement.place plan children).flatten.flatMap f =
      (plan.zip children).flatMap g := by
  rw [← List.map_uncurry_zip_eq_zipWith, ← List.flatMap_def, List.flatMap_assoc]
  exact List.flatMap_congr fun x _ => h x.1 x.2

end Plan

namespace Action

variable (a : Action) (span : Span) (children : List Tree)

/-- The children that the action covers, each with what becomes of it: the first one if it is passed
on, all of them in a sentence, and those for which the plan has an entry. -/
def covered : List (Placement × Tree) :=
  match a.assembly with
  | .pass => (children.take 1).map (.keep, ·)
  | .sentence => children.map (.keep, ·)
  | .node _ plan => plan.zip children

/-- The action covers the first children. -/
theorem covered_isPrefix : (a.covered children).map Prod.snd <+: children := by
  have map_keep (ts : List Tree) : (ts.map (Placement.keep, ·)).map Prod.snd = ts := by
    rw [List.map_map]
    exact List.map_id ts
  rw [covered]
  cases a.assembly with
  | pass => exact (map_keep _).symm ▸ List.take_prefix 1 children
  | sentence => exact (map_keep _).symm ▸ List.prefix_refl children
  | node label plan => exact map_snd_zip_isPrefix plan children

/-- The leaves of the tree are those of the covered children. -/
theorem leaves_apply_eq :
    (a.apply span children).leaves = (a.covered children).flatMap (·.2.leaves) := by
  rw [apply, covered]
  cases a.assembly with
  | pass =>
    cases children with
    | nil => rfl
    | cons t children => exact (List.flatMap_singleton ..).symm
  | sentence =>
    rw [List.flatMap_map]
    exact Tree.leaves_branch ..
  | node label plan =>
    exact (Tree.leaves_branch ..).trans
      (flatMap_flatten_zipWith_place plan children Placement.flatMap_leaves_place)

/-- The trees in the tree are those that are kept of the covered children, with the tree itself at
the end if it is not one of the children. -/
theorem subtrees_apply :
    (a.apply span children).subtrees =
      (a.covered children).flatMap (fun c => c.1.kept c.2) ++
        if a.assembly = .pass ∧ children ≠ [] then [] else [a.apply span children] := by
  have kept_keep (t : Tree) : Placement.keep.kept t = t.subtrees :=
    (Placement.keep.flatMap_subtrees_place t).symm.trans (List.flatMap_singleton ..)
  rw [apply, covered]
  cases a.assembly with
  | pass =>
    cases children with
    | nil => exact Tree.subtrees_branch ..
    | cons t children => simp [kept_keep]
  | sentence => simp [kept_keep, List.flatMap_map]
  | node label plan =>
    have hkept := flatMap_flatten_zipWith_place plan children Placement.flatMap_subtrees_place
      (g := fun c => c.1.kept c.2)
    rw [if_neg (by simp), ← hkept]
    exact Tree.subtrees_branch ..

end Action

/-- The leaves of the tree that an action makes are the first leaves of its children, taken
together, whatever the number of children. They are all leaves if the action accepts that number and
does not pass on one of several children. The trees in it are, for every child that the action
covers, all trees below the child in their order, and the child itself unless it is a branch that is
spread; behind them is the tree itself, if it is not a child that is passed on. -/
theorem leaves_prefix_and_subtrees_kept (a : Action) (span : Span) (children : List Tree) :
    (a.apply span children).leaves <+: children.flatMap Tree.leaves ∧
      (a.accepts children.length → (a.assembly = .pass → children.length ≤ 1) →
        (a.apply span children).leaves = children.flatMap Tree.leaves) ∧
      (a.covered children).map Prod.snd <+: children ∧
      (a.apply span children).subtrees =
        (a.covered children).flatMap
            (fun c => c.2.properSubtrees ++ if c.1 = .spread ∧ ¬ c.2.isLeaf then [] else [c.2]) ++
          if a.assembly = .pass ∧ children ≠ [] then [] else [a.apply span children] := by
  refine ⟨?_, fun haccepts hpass => a.leaves_apply ?_ span, a.covered_isPrefix children,
    a.subtrees_apply span children⟩
  · rw [a.leaves_apply_eq, ← List.flatMap_map]
    exact (a.covered_isPrefix children).flatMap Tree.leaves
  · rw [Action.accepts] at haccepts
    cases ha : a.assembly with
    | pass =>
      rw [ha] at haccepts
      exact Nat.le_antisymm (hpass ha) (of_decide_eq_true haccepts)
    | sentence => trivial
    | node label plan =>
      rw [ha] at haccepts
      exact beq_iff_eq.mp haccepts

/-- A number phrase of a list, a number and a noun phrase: the noun phrase is spread and lost
itself, and all leaves are kept. -/
theorem leaves_prefix_and_subtrees_kept_number :
    let two : Tree := .leaf ⟨⟨.num, some "två", none⟩, ⟨0, 1⟩⟩
    let house : Tree := .leaf ⟨⟨.comNoun, some "hus", none⟩, ⟨1, 2⟩⟩
    let children : List Tree :=
      [.branch ⟨.list, ⟨0, 0⟩⟩ [], two, .branch ⟨.category .np, ⟨1, 2⟩⟩ [house]]
    let tree := Action.numPhrase.apply ⟨0, 2⟩ children
    Action.numPhrase.accepts children.length ∧
      (Action.numPhrase.assembly = .pass → children.length ≤ 1) ∧
      tree.leaves = [⟨⟨.num, some "två", none⟩, ⟨0, 1⟩⟩, ⟨⟨.comNoun, some "hus", none⟩, ⟨1, 2⟩⟩] ∧
      tree.subtrees = [two, house, tree] := by
  intro two house children tree
  obtain ⟨-, hleaves, -, hsubtrees⟩ :=
    leaves_prefix_and_subtrees_kept .numPhrase ⟨0, 2⟩ children
  have haccepts : Action.numPhrase.accepts children.length := rfl
  have hpass : Action.numPhrase.assembly = .pass → children.length ≤ 1 := by decide
  refine ⟨haccepts, hpass, (hleaves haccepts hpass).trans ?_, hsubtrees.trans ?_⟩
  · simp [children, two, house]
  · simp [children, two, house, tree, Action.covered, Action.assembly, Tree.properSubtrees,
      Tree.isLeaf]

end NounPhrase
