import NounPhrase.Action.Basic
import NounPhrase.Symbol

/-!
# Rules

A rule says that a phrase category may be made of a list of symbols, and which action builds its
tree. It is written `NP -> det com_noun => np_rest`.

## Main definitions

* `Rule`, `Rule.text`: a rule and its text.
* `Rule.SameShape`: rules that differ in their actions at most.
* `distinctShapes`, `repeatedShapes`: of a list of rules, those with a shape that no earlier rule
  has, and the others.

## Main results

* `pairwise_distinctShapes`: no two rules of `distinctShapes rules` have the same shape.
-/

namespace NounPhrase

/-- A rule of the grammar. -/
structure Rule where
  lhs : Nonterminal
  rhs : List Symbol
  action : Action
  deriving DecidableEq, Repr

namespace Rule

/-- The two sides of the rule with an arrow between them, then its action. -/
def text (r : Rule) : String :=
  r.lhs.name ++ " ->" ++ String.join (r.rhs.map (" " ++ ·.text)) ++ " => " ++ r.action.name

/-- The rules have the same left-hand side and the same right-hand side. -/
def SameShape (r s : Rule) : Prop := r.lhs = s.lhs ∧ r.rhs = s.rhs

instance (r s : Rule) : Decidable (r.SameShape s) :=
  inferInstanceAs (Decidable (_ ∧ _))

/-- Whether the nonterminal `n` stands on either side of the rule. -/
def mentions (r : Rule) (n : Nonterminal) : Bool :=
  r.lhs == n || r.rhs.contains (.nonterminal n)

end Rule

/-! ### Repeated rules -/

/-- Sorts a list of rules into those with a shape of their own, appended to `kept`, and those
with the shape of an earlier rule or of one in `kept`. -/
def splitRepeated (kept : List Rule) : List Rule → List Rule × List Rule
  | [] => (kept, [])
  | r :: rules =>
    if ∃ k ∈ kept, k.SameShape r then
      let (distinct, repeated) := splitRepeated kept rules
      (distinct, r :: repeated)
    else splitRepeated (kept ++ [r]) rules

/-- The rules without those that have the shape of an earlier one. -/
def distinctShapes (rules : List Rule) : List Rule := (splitRepeated [] rules).1

/-- The rules that have the shape of an earlier one. -/
def repeatedShapes (rules : List Rule) : List Rule := (splitRepeated [] rules).2

theorem pairwise_splitRepeated {kept : List Rule} (h : kept.Pairwise (¬ ·.SameShape ·))
    (rules : List Rule) : (splitRepeated kept rules).1.Pairwise (¬ ·.SameShape ·) := by
  fun_induction splitRepeated kept rules with
  | case1 => exact h
  | case2 kept r rules hr distinct repeated he ih => rw [he] at ih; exact ih h
  | case3 kept r rules hr ih =>
    refine ih (List.pairwise_append.2 ⟨h, List.pairwise_singleton _ _, ?_⟩)
    rintro k hk s hs hks
    obtain rfl := List.mem_singleton.1 hs
    exact hr ⟨k, hk, hks⟩

theorem pairwise_distinctShapes (rules : List Rule) :
    (distinctShapes rules).Pairwise (¬ ·.SameShape ·) :=
  pairwise_splitRepeated .nil rules

end NounPhrase
