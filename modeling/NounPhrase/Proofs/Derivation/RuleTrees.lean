import NounPhrase.Proofs.Grammar.Widths
import NounPhrase.Proofs.Tree.Spans

/-!
# Derivations as trees of rules

A derivation of a stretch of the tokens is a tree of rules: below every rule stands a derivation for
each symbol of its right-hand side, one behind the other, and a terminal stands for one token. The
actions of the rules make the tree of the derivation. If they have a place for every child, then
the tree keeps all tokens.

## Main definitions

* `RuleTree`, `RuleTree.tree`: trees of rules, and the trees that the actions make of them.
* `RuleTree.leaves`: the tokens of a derivation, whether or not the actions keep them.
* `IsDerivation`: trees of rules that derive some symbols, one after the other.
* `WidenedGrammar.IsNested`: the rules below the start symbol, after recovery.

## Main results

* `IsDerivation.flatMap_leaves`, `IsDerivation.isSpanned`: the trees of a derivation keep all
  tokens.
-/

namespace NounPhrase

/-- A token, or a rule that stands for a stretch of the tokens, with a part for every symbol. -/
inductive RuleTree
  | token (token : Spanned Token)
  | rule (r : Rule) (span : Span) (parts : List RuleTree)

namespace RuleTree

mutual

/-- The tree that the actions of the rules make. -/
def tree : RuleTree → Tree
  | .token x => .leaf x
  | .rule r span parts => r.action.apply span (treesOfList parts)

/-- The trees of several parts. -/
def treesOfList : List RuleTree → List Tree
  | [] => []
  | p :: parts => p.tree :: treesOfList parts

end

theorem treesOfList_eq_map (parts : List RuleTree) : treesOfList parts = parts.map tree := by
  induction parts with
  | nil => rfl
  | cons p parts ih => rw [treesOfList, ih, List.map_cons]

@[simp] theorem tree_token (x : Spanned Token) : (token x).tree = .leaf x := by
  rw [tree]

@[simp] theorem tree_rule (r : Rule) (span : Span) (parts : List RuleTree) :
    (rule r span parts).tree = r.action.apply span (parts.map tree) := by
  rw [tree, treesOfList_eq_map]

mutual

/-- The tokens of the derivation from left to right. -/
def leaves : RuleTree → List (Spanned Token)
  | .token x => [x]
  | .rule _ _ parts => leavesOfList parts

/-- The tokens of several parts. -/
def leavesOfList : List RuleTree → List (Spanned Token)
  | [] => []
  | p :: parts => p.leaves ++ leavesOfList parts

end

theorem leavesOfList_eq_flatMap (parts : List RuleTree) :
    leavesOfList parts = parts.flatMap leaves := by
  induction parts with
  | nil => rfl
  | cons p parts ih => rw [leavesOfList, ih, List.flatMap_cons]

@[simp] theorem leaves_token (x : Spanned Token) : (token x).leaves = [x] := by
  rw [leaves]

@[simp] theorem leaves_rule (r : Rule) (span : Span) (parts : List RuleTree) :
    (rule r span parts).leaves = parts.flatMap leaves := by
  rw [leaves, leavesOfList_eq_flatMap]

end RuleTree

/-- The parts derive the symbols, one after the other, by rules of the kind `R`, and stand for the
tokens from the one place to the other. -/
inductive IsDerivation (R : Rule → Prop) (tokens : List Token) :
    List Symbol → List RuleTree → Nat → Nat → Prop
  | nil (a : Nat) : IsDerivation R tokens [] [] a a
  | terminal {α : List Symbol} {parts : List RuleTree} {a k : Nat} {token : Token}
      (h : IsDerivation R tokens α parts a k) (htoken : tokens[k]? = some token) :
      IsDerivation R tokens (α ++ [.terminal token.terminal])
        (parts ++ [.token ⟨token, ⟨k, k + 1⟩⟩]) a (k + 1)
  | nonterminal {α : List Symbol} {parts parts' : List RuleTree} {a k b : Nat} {r : Rule}
      (h : IsDerivation R tokens α parts a k) (hr : R r)
      (hparts : IsDerivation R tokens r.rhs parts' k b) :
      IsDerivation R tokens (α ++ [.nonterminal r.lhs]) (parts ++ [.rule r ⟨k, b⟩ parts']) a b

namespace IsDerivation

variable {R : Rule → Prop} {tokens : List Token} {α : List Symbol} {parts : List RuleTree}
  {a b : Nat}

/-- There is a part for every symbol. -/
theorem length_eq (h : IsDerivation R tokens α parts a b) : parts.length = α.length := by
  induction h with
  | nil => rfl
  | terminal _ _ ih => rw [List.length_append, List.length_append, ih]; rfl
  | nonterminal _ _ _ ih => rw [List.length_append, List.length_append, ih]; rfl

theorem le (h : IsDerivation R tokens α parts a b) : a ≤ b := by
  induction h with
  | nil => exact Nat.le_refl _
  | terminal _ _ ih => exact Nat.le_succ_of_le ih
  | nonterminal _ _ _ ih ih' => exact Nat.le_trans ih ih'

theorem le_length (h : IsDerivation R tokens α parts a b) (ha : a ≤ tokens.length) :
    b ≤ tokens.length := by
  induction h with
  | nil => exact ha
  | terminal _ htoken => exact (List.getElem?_eq_some_iff.mp htoken).1
  | nonterminal _ _ _ ih ih' => exact ih' (ih ha)

/-- What stands behind its end makes no difference to a derivation. -/
theorem take (h : IsDerivation R tokens α parts a b) {n : Nat} (hb : b ≤ n) :
    IsDerivation R (tokens.take n) α parts a b := by
  induction h with
  | nil => exact .nil _
  | terminal _ htoken ih =>
    refine .terminal (ih (Nat.le_of_succ_le hb)) ?_
    rw [List.getElem?_take_of_lt hb, htoken]
  | nonterminal _ hr hparts ih ih' =>
    exact .nonterminal (ih (Nat.le_trans hparts.le hb)) hr (ih' hb)

section Fits

variable (hR : ∀ r, R r → r.action.assembly.Fits r.rhs.length)
include hR

/-- The action of a rule has a place for the tree of every part. -/
theorem fits {r : Rule} (hr : R r) (h : IsDerivation R tokens r.rhs parts a b) :
    r.action.assembly.Fits (parts.map RuleTree.tree).length := by
  rw [List.length_map, h.length_eq]
  exact hR r hr

/-- The trees of a derivation have its tokens as leaves. -/
theorem flatMap_leaves (h : IsDerivation R tokens α parts a b) :
    (parts.map RuleTree.tree).flatMap Tree.leaves = leavesBetween tokens a b := by
  induction h with
  | nil => rw [leavesBetween_self]; rfl
  | terminal h htoken ih =>
    rw [List.map_append, List.flatMap_append, ih, ← leavesBetween_append h.le (Nat.le_succ _),
      leavesBetween_succ htoken, List.map_singleton, List.flatMap_singleton, RuleTree.tree_token,
      Tree.leaves_leaf]
  | nonterminal h hr hparts ih ih' =>
    rw [List.map_append, List.flatMap_append, ih, ← leavesBetween_append h.le hparts.le,
      List.map_singleton, List.flatMap_singleton, RuleTree.tree_rule,
      Action.leaves_apply (hparts.fits hR hr), ih']

/-- The trees of a derivation keep all tokens. -/
theorem isSpanned (h : IsDerivation R tokens α parts a b) (ha : a ≤ tokens.length) :
    ∀ t ∈ parts.map RuleTree.tree, t.IsSpanned tokens := by
  induction h with
  | nil => nofun
  | terminal h htoken ih =>
    rw [List.map_append, List.forall_mem_append, List.map_singleton, List.forall_mem_singleton]
    exact ⟨ih ha, by rw [RuleTree.tree_token]; exact .leaf _⟩
  | nonterminal h hr hparts ih ih' =>
    have hk := h.le_length ha
    rw [List.map_append, List.forall_mem_append, List.map_singleton, List.forall_mem_singleton]
    refine ⟨ih ha, ?_⟩
    rw [RuleTree.tree_rule]
    exact Action.isSpanned_apply (hparts.fits hR hr) hparts.le (hparts.le_length hk)
      (hparts.flatMap_leaves hR) (ih' hk)

end Fits

end IsDerivation

/-! ### Rules below the start symbol -/

namespace WidenedGrammar

/-- The rules of a derivation below the start symbol: those that were declared, and sentence rules
of the declared width or wider, up to the present one. -/
def IsNested (w : WidenedGrammar) (r : Rule) : Prop :=
  ∃ k ≤ w.widenings, r ∈ (w.grammar.widened k).entry :: w.grammar.others

variable {w : WidenedGrammar}

/-- Of the rule of an item that was complete at some width, the symbols before the dot make a
nested rule, if it is not the start symbol that was found. -/
theorem isNested_upTo {v : Nat} {i : Item} {n : Nonterminal} {r : Rule}
    (h : (w.grammar.widened v).completed? i = some n) (hdot : i.dot ≤ (w.rhs i.rule).length)
    (hr : w.rule? i.rule = some r) (hn : n ≠ .start) : r.lhs = n ∧ w.IsNested (r.upTo i.dot) := by
  obtain ⟨r', hr', rfl, k, hk, hmem⟩ := exists_upTo_mem_rules h hdot
  obtain rfl := Option.some.inj (hr.symm.trans hr')
  refine ⟨rfl, k, hk, ?_⟩
  rw [rules, augmented] at hmem
  rcases List.mem_append.mp hmem with hmem | hmem
  · exact hmem
  · exact absurd (congrArg Rule.lhs (List.mem_singleton.mp hmem)) hn

end WidenedGrammar

end NounPhrase
