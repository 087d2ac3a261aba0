import NounPhrase.Rule.Basic
import NounPhrase.Action.Assembly

/-!
# Faults of a rule table

A list of rules may fail to be a grammar: it has no rules, it uses the reserved nonterminal, its
sentence symbol has several rules or one that cannot be widened, or a rule uses a nonterminal
without rules or has the wrong number of symbols for its action.

## Main definitions

* `GrammarFault`, `GrammarFault.message`: the faults and their texts.
* `Rule.undefined?`: the first nonterminal of a right-hand side that has no rules.
* `Rule.fault?`: the fault of one rule among the rules of a table.
-/

namespace NounPhrase

/-- The reason why a list of rules is no grammar. -/
inductive GrammarFault
  /-- There are no rules. -/
  | empty
  /-- The nonterminal `n` may not be used in a rule. -/
  | reserved (n : Nonterminal)
  /-- The sentence symbol `n` has `count` rules. -/
  | entryAlternatives (n : Nonterminal) (count : Nat)
  /-- The sentence rule does not end in a nonterminal. -/
  | entryNotWidenable (rule : Rule)
  /-- The nonterminal `n` stands on the right of the rule and has no rules. -/
  | undefined (n : Nonterminal) (rule : Rule)
  /-- The action of the rule does not accept that many children. -/
  | arity (rule : Rule)
  deriving DecidableEq, Repr

/-- The text of a fault. -/
def GrammarFault.message : GrammarFault → String
  | empty => "empty ruleset"
  | reserved n => n.name ++ " is reserved for the augmented start rule"
  | entryAlternatives n count =>
    "the sentence symbol " ++ n.name ++ " must have exactly one rule, found " ++ toString count
  | entryNotWidenable rule =>
    "the sentence rule `" ++ rule.text ++ "` must end in a nonterminal to widen on recovery"
  | undefined n rule => n.name ++ " is used in `" ++ rule.text ++ "` but has no rules"
  | arity rule =>
    "action " ++ rule.action.name ++ " can't build a node from " ++ toString rule.rhs.length ++
      " children in `" ++ rule.text ++ "`"

namespace Rule

/-- The first nonterminal on the right of the rule that is no left-hand side in `rules`. -/
def undefined? (rules : List Rule) (r : Rule) : Option Nonterminal :=
  (r.rhs.filterMap Symbol.nonterminal?).find? fun n => !rules.any (·.lhs == n)

/-- The fault of a rule of the table `rules`; a nonterminal without rules comes before a wrong
number of symbols. -/
def fault? (rules : List Rule) (r : Rule) : Option GrammarFault :=
  match r.undefined? rules with
  | some n => some (.undefined n r)
  | none => if r.action.accepts r.rhs.length then none else some (.arity r)

theorem fault?_eq_none {rules : List Rule} {r : Rule} (h : r.fault? rules = none) :
    (∀ n, .nonterminal n ∈ r.rhs → ∃ s ∈ rules, s.lhs = n) ∧
      r.action.accepts r.rhs.length := by
  unfold fault? at h
  split at h
  · simp at h
  case h_2 hu =>
    refine ⟨fun n hn => ?_, by simpa using h⟩
    have := List.find?_eq_none.1 hu n (List.mem_filterMap.2 ⟨_, hn, rfl⟩)
    simpa using this

end Rule

end NounPhrase
