import Mathlib.Data.List.Basic
import NounPhrase.Proofs.Tree.Spans

/-!
# The constituents of a tree

The constituents of a tree are its branches that are labelled with a category. An action adds at
most one constituent, at the end, to those of its children, and it loses none if the children that
it spreads are leaves or anonymous lists. The phrases of a category are the texts of its
constituents, and in a tree that keeps all tokens these texts can be read off the spans.

## Main definitions

* `Tree.constituents`: the constituents of a tree with their spans.
* `Action.category?`: the category of the branch that an action makes.
* `Tree.IsBare`, `Assembly.SpreadsBare`: a tree is a leaf or a list, and only such trees are spread.
* `textBetween`: the words of the tokens of a span.

## Main results

* `Tree.phrases_eq`: the phrases of a category are the texts of the spans of its constituents.
* `Action.constituents_apply`: the constituents of the tree that an action makes.
* `Action.isBare_apply`: when an action makes a leaf or a list.
-/

namespace NounPhrase

/-- The category that a label stands for, if it is not the mark of a list. -/
def Label.category? : Label → Option Nonterminal
  | list => none
  | category n => some n

namespace Tree

mutual

/-- The branches that are labelled with a category, an inner branch before the one around it. -/
def constituents : Tree → List (Spanned Nonterminal)
  | leaf _ => []
  | branch label children =>
    constituentsOfList children ++ (label.value.category?.map (⟨·, label.span⟩)).toList

/-- The constituents of a list of trees from left to right. -/
def constituentsOfList : List Tree → List (Spanned Nonterminal)
  | [] => []
  | t :: ts => t.constituents ++ constituentsOfList ts

end

theorem constituentsOfList_eq_flatMap (ts : List Tree) :
    constituentsOfList ts = ts.flatMap constituents := by
  induction ts with
  | nil => rfl
  | cons t ts ih => rw [constituentsOfList, ih, List.flatMap_cons]

@[simp] theorem constituents_leaf (token : Spanned Token) : (leaf token).constituents = [] := by
  rw [constituents]

@[simp] theorem constituents_branch (label : Spanned Label) (children : List Tree) :
    (branch label children).constituents = children.flatMap constituents ++
      (label.value.category?.map (⟨·, label.span⟩)).toList := by
  rw [constituents, constituentsOfList_eq_flatMap]

end Tree

/-! ### Phrases -/

/-- The words of the tokens of a span, with blanks between them. -/
def textBetween (tokens : List Token) (span : Span) : String :=
  " ".intercalate (((tokens.drop span.start).take (span.stop - span.start)).filterMap Token.word)

theorem map_leavesBetween (tokens : List Token) (a b : Nat) :
    (leavesBetween tokens a b).map Spanned.value = (tokens.drop a).take (b - a) := by
  rw [leavesBetween, leavesOf, List.map_take, List.map_drop]
  congr 2
  refine List.ext_getElem? fun k => ?_
  rw [List.getElem?_map, List.getElem?_mapIdx, Option.map_map]
  exact congrFun Option.map_id _

namespace Tree

variable {tokens : List Token} {n : Nonterminal}

theorem phrasesOfList_eq_flatMap (ts : List Tree) :
    phrasesOfList n ts = ts.flatMap (phrases n) := by
  induction ts with
  | nil => rfl
  | cons t ts ih => rw [phrasesOfList, ih, List.flatMap_cons]

/-- The phrases of a category are the texts of the spans of its constituents, in their order. -/
theorem phrases_eq {t : Tree} (h : t.IsSpanned tokens) :
    t.phrases n = (t.constituents.filter (·.value = n)).map (textBetween tokens ·.span) := by
  induction h with
  | leaf => rw [phrases, constituents_leaf]; rfl
  | @branch label a b children _ _ hleaves _ ih =>
    have hwords : " ".intercalate (branch ⟨label, ⟨a, b⟩⟩ children).words =
        textBetween tokens ⟨a, b⟩ := by
      rw [words, hleaves, textBetween, ← map_leavesBetween, List.filterMap_map]
      rfl
    have hchildren : children.flatMap (phrases n) =
        ((children.flatMap constituents).filter (·.value = n)).map (textBetween tokens ·.span) := by
      rw [List.filter_flatMap, List.map_flatMap]
      exact List.flatMap_congr fun t ht => ih t ht
    rw [phrases, phrasesOfList_eq_flatMap, hwords, constituents_branch, List.filter_append,
      List.map_append, hchildren]
    congr 1
    cases label with
    | list => rfl
    | category m => by_cases hm : m = n <;> simp [Label.category?, hm]

end Tree

/-! ### Actions -/

/-- The tree is a leaf or an anonymous list. -/
def Tree.IsBare : Tree → Prop
  | leaf _ => True
  | branch label _ => label.value = .list

/-- A child keeps its constituents wherever it is placed, unless it is spread and a constituent
itself. -/
theorem Placement.flatMap_constituents_place {p : Placement} {t : Tree}
    (h : p = .spread → t.IsBare) : (p.place t).flatMap Tree.constituents = t.constituents := by
  cases p with
  | keep => exact List.flatMap_singleton ..
  | spread =>
    cases t with
    | leaf => exact List.flatMap_singleton ..
    | branch label children =>
      have hlist : label.value = .list := h rfl
      rw [Tree.constituents_branch, hlist]
      exact (List.append_nil _).symm

/-- The assembly spreads leaves and anonymous lists only. -/
def Assembly.SpreadsBare (a : Assembly) (children : List Tree) : Prop :=
  match a with
  | .node _ plan => ∀ x ∈ plan.zip children, x.1 = .spread → x.2.IsBare
  | _ => True

namespace Action

/-- The category of the branch that the action makes, if it makes one that is not a list. -/
def category? (a : Action) : Option Nonterminal :=
  match a.assembly with
  | .pass => none
  | .sentence => some .sent
  | .node label _ => label.category?

variable {a : Action} {children : List Tree}

/-- An action keeps the constituents of its children and adds its own one, if it has a place for
every child and spreads leaves and lists only. -/
theorem constituents_apply (h : a.assembly.Fits children.length)
    (hspread : a.assembly.SpreadsBare children) (span : Span) :
    (a.apply span children).constituents =
      children.flatMap Tree.constituents ++ (a.category?.map (⟨·, span⟩)).toList := by
  rw [apply, category?]
  cases ha : a.assembly with
  | pass =>
    rw [ha] at h
    obtain ⟨t, rfl⟩ := List.length_eq_one_iff.mp h
    simp
  | sentence => exact Tree.constituents_branch ..
  | node label plan =>
    rw [ha] at h hspread
    have hplaced := flatMap_place (f := Tree.constituents) h fun x hx =>
      Placement.flatMap_constituents_place (hspread x hx)
    rw [← hplaced]
    exact Tree.constituents_branch ..

/-- An action makes a leaf or a list if it makes no constituent and passes on none. -/
theorem isBare_apply (h : a.assembly.Fits children.length) (hcategory : a.category? = none)
    (hpass : a.assembly = .pass → ∀ t ∈ children, t.IsBare) (span : Span) :
    (a.apply span children).IsBare := by
  rw [apply]
  rw [category?] at hcategory
  cases ha : a.assembly with
  | pass =>
    rw [ha] at h
    obtain ⟨t, rfl⟩ := List.length_eq_one_iff.mp h
    exact hpass ha t List.mem_cons_self
  | sentence => simp [ha] at hcategory
  | node label plan =>
    rw [ha] at hcategory
    cases label with
    | list => rfl
    | category n => simp [Label.category?] at hcategory

end Action

end NounPhrase
