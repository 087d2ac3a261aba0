import Mathlib.Data.List.Induction
import NounPhrase.Proofs.Tree.Spans

/-!
# Lists that grow to the right and to the left

A rule for lists adds one element at a time to an empty list. If the rule is recursive on the right,
the elements are added from the last one on, and the tree is one branch with all elements as its
children: the element is kept and the list is spread. The rule that is recursive on the left has the
same plan, but there the list comes first. So it is the list that is kept, and the element that is
spread: every element makes a list around the list before it, and of an element that is a phrase
only the children stay. No token is lost in this way, but phrases are.

## Main definitions

* `rightList`, `leftList`: the trees of a list of elements by the rules of the two kinds.
* `Tree.IsListOf`: a tree is a list with given children.
* `Tree.subtrees`: all trees in a tree.

## Main results

* `rightList_eq`, `leftList_concat`: the trees, and what an element adds to them.
* `length_subtrees_lt`: a list that grows to the left is larger than each of its elements.
* `isListOf_leftList_iff_elements`: when it has the elements as children.
* `not_isListOf_leftList_phrase`: a noun phrase that is lost.
-/

namespace NounPhrase

/-! ### Two ways to make a list -/

/-- The list of the elements by a rule that is recursive on the right. The span of an element is
that of the list that begins with it, and the empty list is at `stop`. -/
def rightList (stop : Span) (elements : List (Spanned Tree)) : Tree :=
  elements.foldr (fun e list => Action.listCons.apply e.span [e.value, list])
    (Action.listEmpty.apply stop [])

/-- The list of the elements by a rule that is recursive on the left. The span of an element is that
of the list that ends with it, and the empty list is at `start`. -/
def leftList (start : Span) (elements : List (Spanned Tree)) : Tree :=
  elements.foldl (fun list e => Action.listConsLeft.apply e.span [list, e.value])
    (Action.listEmptyLow.apply start [])

/-- The tree is an anonymous list with the given children. -/
def Tree.IsListOf (children : List Tree) (t : Tree) : Prop :=
  ∃ span, t = .branch ⟨.list, span⟩ children

section Lists

variable {start stop : Span} {elements : List (Spanned Tree)}

/-- To the right the elements are the children. -/
theorem rightList_eq (stop : Span) (elements : List (Spanned Tree)) :
    rightList stop elements =
      .branch ⟨.list, elements.head?.elim stop (·.span)⟩ (elements.map (·.value)) := by
  induction elements with
  | nil => rfl
  | cons e elements ih =>
    have hcons : rightList stop (e :: elements) =
        Action.listCons.apply e.span [e.value, rightList stop elements] := rfl
    rw [hcons, ih]
    simp [Action.apply, Action.assembly, Placement.place]

@[simp] theorem leftList_nil (start : Span) :
    leftList start [] = .branch ⟨.list, start⟩ [] := rfl

/-- To the left an element makes a list around the list before it, and is spread there. -/
theorem leftList_concat (start : Span) (elements : List (Spanned Tree)) (e : Spanned Tree) :
    leftList start (elements ++ [e]) =
      .branch ⟨.list, e.span⟩ (leftList start elements :: Placement.spread.place e.value) := by
  rw [leftList, List.foldl_append]
  simp [Action.apply, Action.assembly, Placement.place, leftList]

theorem leaves_leftList (start : Span) (elements : List (Spanned Tree)) :
    (leftList start elements).leaves = elements.flatMap (·.value.leaves) := by
  induction elements using List.reverseRecOn with
  | nil => rfl
  | append_singleton elements e ih =>
    rw [leftList_concat, Tree.leaves_branch, List.flatMap_cons, ih,
      Placement.flatMap_leaves_place, List.flatMap_append, List.flatMap_singleton]

end Lists

/-! ### The trees in a tree -/

namespace Tree

mutual

/-- The trees in a tree, a branch behind those below it. -/
def subtrees : Tree → List Tree
  | leaf token => [leaf token]
  | branch label children => subtreesOfList children ++ [branch label children]

/-- The trees in a list of trees from left to right. -/
def subtreesOfList : List Tree → List Tree
  | [] => []
  | t :: ts => t.subtrees ++ subtreesOfList ts

end

theorem subtreesOfList_eq_flatMap (ts : List Tree) : subtreesOfList ts = ts.flatMap subtrees := by
  induction ts with
  | nil => rfl
  | cons t ts ih => rw [subtreesOfList, ih, List.flatMap_cons]

@[simp] theorem subtrees_leaf (token : Spanned Token) : (leaf token).subtrees = [leaf token] := by
  rw [subtrees]

@[simp] theorem subtrees_branch (label : Spanned Label) (children : List Tree) :
    (branch label children).subtrees = children.flatMap subtrees ++ [branch label children] := by
  rw [subtrees, subtreesOfList_eq_flatMap]

end Tree

/-- Of a tree that is placed at most the tree itself is lost. -/
theorem Placement.length_subtrees_le (p : Placement) (t : Tree) :
    t.subtrees.length ≤ ((p.place t).flatMap Tree.subtrees).length + 1 := by
  cases p with
  | keep => simp [place]
  | spread => cases t <;> simp [place]

/-- A list that grows to the left is larger than each of its elements. -/
theorem length_subtrees_lt {start : Span} {elements : List (Spanned Tree)} {e : Spanned Tree}
    (h : e ∈ elements) : e.value.subtrees.length < (leftList start elements).subtrees.length := by
  induction elements using List.reverseRecOn with
  | nil => simp at h
  | append_singleton elements e' ih =>
    have hplace := Placement.spread.length_subtrees_le e'.value
    have hpos : 0 < (leftList start elements).subtrees.length := by
      cases leftList start elements <;> simp
    rw [leftList_concat, Tree.subtrees_branch, List.flatMap_cons, List.length_append,
      List.length_append, List.length_singleton]
    rcases List.mem_append.mp h with h | h
    · have := ih h
      omega
    · obtain rfl := List.mem_singleton.mp h
      omega

/-! ### When the two ways agree -/

/-- A list that grows to the left has the elements as children only if there are none, or if the
empty list at the beginning is the only one. -/
theorem isListOf_leftList_iff_elements {start : Span} {elements : List (Spanned Tree)} :
    (leftList start elements).IsListOf (elements.map (·.value)) ↔
      elements = [] ∨ ∃ span, elements = [⟨.branch ⟨.list, start⟩ [], span⟩] := by
  constructor
  · rintro ⟨span, h⟩
    cases elements using List.reverseRecOn with
    | nil => exact .inl rfl
    | append_singleton elements e =>
      rw [leftList_concat] at h
      obtain ⟨-, h⟩ := Tree.branch.inj h
      cases elements with
      | nil =>
        -- the only element is the list that it was added to
        obtain ⟨hvalue, -⟩ := List.cons.inj h
        exact .inr ⟨e.span, by rw [leftList_nil] at hvalue; rw [hvalue]; rfl⟩
      | cons e' elements =>
        -- the first element cannot be a list that it is an element of
        obtain ⟨hvalue, -⟩ := List.cons.inj h
        have hlt : e'.value.subtrees.length < (leftList start (e' :: elements)).subtrees.length :=
          length_subtrees_lt List.mem_cons_self
        rw [hvalue] at hlt
        exact absurd hlt (Nat.lt_irrefl _)
  · rintro (rfl | ⟨span, rfl⟩)
    · exact ⟨start, rfl⟩
    · exact ⟨span, rfl⟩

/-- Whatever the elements and the spans, the list that grows to the right has the elements as its
children. The list that grows to the left has, after each element, the list before it and the
element as it is when spread. It keeps all leaves in order, but the elements are its children only
if there are none, or if the only one is the empty list at the beginning. -/
theorem isListOf_rightList_and_leftList (start stop : Span) (elements : List (Spanned Tree)) :
    (rightList stop elements).IsListOf (elements.map (·.value)) ∧
      (∀ e, (leftList start (elements ++ [e])).IsListOf
        (leftList start elements :: Placement.spread.place e.value)) ∧
      (leftList start elements).leaves = elements.flatMap (·.value.leaves) ∧
      ((leftList start elements).IsListOf (elements.map (·.value)) ↔
        elements = [] ∨ ∃ span, elements = [⟨.branch ⟨.list, start⟩ [], span⟩]) :=
  ⟨⟨_, rightList_eq stop elements⟩, fun e => ⟨_, leftList_concat start elements e⟩,
    leaves_leftList start elements, isListOf_leftList_iff_elements⟩

/-- The noun phrase of one noun. -/
def Tree.house : Tree :=
  .branch ⟨.category .np, ⟨0, 1⟩⟩ [.leaf ⟨⟨.comNoun, some "hus", some "NCNSN@IS"⟩, ⟨0, 1⟩⟩]

/-- A noun phrase that is added on the left does not stay in the list, and it is no longer one of
the noun phrases of the tree. -/
theorem not_isListOf_leftList_phrase :
    (leftList ⟨0, 0⟩ [⟨.house, ⟨0, 1⟩⟩]).nounPhrases = [] ∧
      (rightList ⟨1, 1⟩ [⟨.house, ⟨0, 1⟩⟩]).nounPhrases = ["hus"] ∧
      ¬ ∀ (start : Span) (elements : List (Spanned Tree)),
        (leftList start elements).IsListOf (elements.map (·.value)) := by
  refine ⟨rfl, rfl, fun h => ?_⟩
  rcases isListOf_leftList_iff_elements.mp (h ⟨0, 0⟩ [⟨.house, ⟨0, 1⟩⟩]) with h | ⟨span, h⟩
  · simp at h
  · simp [Tree.house] at h

end NounPhrase
