import Mathlib.Data.List.Forall2
import NounPhrase.Proofs.Derivation.RuleTrees
import NounPhrase.Proofs.Tree.Constituents

/-!
# Flattening keeps the constituents of a derivation

A rule whose plan spreads a symbol gives up the branch that has been built for the symbol, and
keeps what is below it. This is meant for lists. Whether the branch is a list depends on the rules
that were applied to the symbol, and further down where these pass on what they have got. So the
nonterminals are divided into those that can come with a label and those that cannot, and every
rule is checked for spreading symbols of the second kind only.

In a derivation by such rules nothing is spread but leaves and lists. So every application of a
rule that makes a constituent is there in the tree, with its span, and there are no others.

## Main definitions

* `RuleTree.applications`: the rules that are applied in a derivation, with their spans.
* `RuleTree.constituents`: the categories of those that make a constituent.
* `RuleTree.SpreadsLists`: nothing is spread in a derivation but leaves and lists.
* `Rule.spreadSymbols`, `Rule.Flattens`: the symbols that a rule spreads, and the check of a rule.

## Main results

* `IsDerivation.spreadsLists`: derivations by checked rules spread nothing but leaves and lists.
* `IsDerivation.flatMap_constituents`: the constituents of their trees are those of the derivations.
-/

namespace NounPhrase

namespace RuleTree

mutual

/-- The rules that are applied, with the spans for which they stand, a rule behind those that are
applied below it. -/
def applications : RuleTree → List (Spanned Rule)
  | .token _ => []
  | .rule r span parts => applicationsOfList parts ++ [⟨r, span⟩]

/-- The rules that are applied in several parts, from left to right. -/
def applicationsOfList : List RuleTree → List (Spanned Rule)
  | [] => []
  | p :: parts => p.applications ++ applicationsOfList parts

end

theorem applicationsOfList_eq_flatMap (parts : List RuleTree) :
    applicationsOfList parts = parts.flatMap applications := by
  induction parts with
  | nil => rfl
  | cons p parts ih => rw [applicationsOfList, ih, List.flatMap_cons]

@[simp] theorem applications_token (x : Spanned Token) : (token x).applications = [] := by
  rw [applications]

@[simp] theorem applications_rule (r : Rule) (span : Span) (parts : List RuleTree) :
    (rule r span parts).applications = parts.flatMap applications ++ [⟨r, span⟩] := by
  rw [applications, applicationsOfList_eq_flatMap]

/-- The categories of the constituents that are made, with their spans, in the order in which the
rules are applied. -/
def constituents (p : RuleTree) : List (Spanned Nonterminal) :=
  p.applications.filterMap fun a => a.value.action.category?.map (⟨·, a.span⟩)

@[simp] theorem constituents_token (x : Spanned Token) : (token x).constituents = [] := by
  rw [constituents, applications_token, List.filterMap_nil]

@[simp] theorem constituents_rule (r : Rule) (span : Span) (parts : List RuleTree) :
    (rule r span parts).constituents =
      parts.flatMap constituents ++ (r.action.category?.map (⟨·, span⟩)).toList := by
  rw [constituents, applications_rule, List.filterMap_append, List.filterMap_flatMap]
  congr 1

/-- Nothing is spread but leaves and anonymous lists. -/
inductive SpreadsLists : RuleTree → Prop
  | token (x : Spanned Token) : SpreadsLists (token x)
  | rule {r : Rule} {span : Span} {parts : List RuleTree}
      (hspread : r.action.assembly.SpreadsBare (parts.map tree))
      (hparts : ∀ p ∈ parts, p.SpreadsLists) : SpreadsLists (rule r span parts)

end RuleTree

/-! ### The check of a rule -/

namespace Rule

/-- The symbols of the right-hand side that the action of the rule spreads. -/
def spreadSymbols (r : Rule) : List Symbol :=
  match r.action.assembly with
  | .node _ plan => ((plan.zip r.rhs).filter (·.1 = .spread)).map Prod.snd
  | _ => []

theorem mem_spreadSymbols {r : Rule} {label : Label} {plan : List Placement} {s : Symbol}
    (h : r.action.assembly = .node label plan) (hs : (.spread, s) ∈ plan.zip r.rhs) :
    s ∈ r.spreadSymbols := by
  rw [spreadSymbols, h]
  exact List.mem_map.mpr ⟨(.spread, s), List.mem_filter.mpr ⟨hs, rfl⟩, rfl⟩

/-- A rule for a nonterminal that may be reached from the sentence symbol. Let the nonterminals be
given that may be reached, and those that may come with a label. The rule keeps to them, and it
spreads no symbol that may come with a label. -/
structure Flattens (reached labelled : Nonterminal → Bool) (r : Rule) : Prop where
  reached : ∀ s ∈ r.rhs, s.nonterminal?.all reached
  spreads : ∀ s ∈ r.spreadSymbols, ¬ s.nonterminal?.any labelled
  labels : r.action.category? ≠ none → labelled r.lhs
  passes : r.action.assembly = .pass → ∀ s ∈ r.rhs, s.nonterminal?.any labelled → labelled r.lhs

instance (reached labelled : Nonterminal → Bool) (r : Rule) :
    Decidable (r.Flattens reached labelled) :=
  decidable_of_iff
    ((∀ s ∈ r.rhs, s.nonterminal?.all reached) ∧
      (∀ s ∈ r.spreadSymbols, ¬ s.nonterminal?.any labelled) ∧
      (r.action.category? ≠ none → labelled r.lhs) ∧
      (r.action.assembly = .pass → ∀ s ∈ r.rhs, s.nonterminal?.any labelled → labelled r.lhs))
    ⟨fun ⟨h₁, h₂, h₃, h₄⟩ => ⟨h₁, h₂, h₃, h₄⟩, fun ⟨h₁, h₂, h₃, h₄⟩ => ⟨h₁, h₂, h₃, h₄⟩⟩

end Rule

/-- What stands in a row with a member of the one list stands in a row with the corresponding member
of the other. -/
theorem exists_mem_zip_of_forall₂ {α β γ : Type} {P : β → γ → Prop} {xs : List α} {ys : List β}
    {zs : List γ} (h : List.Forall₂ P ys zs) {x : α} {z : γ} (hxz : (x, z) ∈ xs.zip zs) :
    ∃ y, (x, y) ∈ xs.zip ys ∧ P y z := by
  induction h generalizing xs with
  | nil => simp at hxz
  | @cons y' z' ys zs hyz _ ih =>
    cases xs with
    | nil => simp at hxz
    | cons x' xs =>
      rw [List.zip_cons_cons] at hxz ⊢
      rcases List.mem_cons.mp hxz with hxz | hxz
      · obtain ⟨rfl, rfl⟩ := Prod.mk.inj hxz
        exact ⟨y', List.mem_cons_self, hyz⟩
      · obtain ⟨y, hy, hyz⟩ := ih hxz
        exact ⟨y, List.mem_cons_of_mem _ hy, hyz⟩

/-! ### Derivations -/

namespace IsDerivation

variable {R : Rule → Prop} {tokens : List Token} {α : List Symbol} {parts : List RuleTree}
  {a b : Nat}

/-- Only rules of the kind are applied. -/
theorem forall_applications (h : IsDerivation R tokens α parts a b) :
    ∀ x ∈ parts.flatMap RuleTree.applications, R x.value := by
  induction h with
  | nil => simp
  | terminal _ _ ih => simpa using ih
  | nonterminal _ hr _ ih ih' =>
    rw [List.flatMap_append, List.flatMap_singleton, RuleTree.applications_rule,
      List.forall_mem_append, List.forall_mem_append, List.forall_mem_singleton]
    exact ⟨ih, ih', hr⟩

/-- Nothing but leaves and lists is spread where a checked rule is applied, and the tree is a leaf
or a list if the nonterminal of the rule comes without a label. -/
theorem spreadsBare_of_flattens {reached labelled : Nonterminal → Bool} {r : Rule}
    (hr : r.Flattens reached labelled) (hfits : r.action.assembly.Fits parts.length)
    (h : List.Forall₂ (fun s p => ¬ s.nonterminal?.any labelled → p.tree.IsBare) r.rhs parts) :
    r.action.assembly.SpreadsBare (parts.map RuleTree.tree) ∧
      ∀ span, labelled r.lhs = false → (RuleTree.rule r span parts).tree.IsBare := by
  constructor
  · cases ha : r.action.assembly with
    | pass => trivial
    | sentence => trivial
    | node label plan =>
      rintro ⟨p, t⟩ hpt rfl
      rw [List.zip_map_right] at hpt
      obtain ⟨⟨_, part⟩, hpart, heq⟩ := List.mem_map.mp hpt
      obtain ⟨rfl, rfl⟩ := Prod.mk.inj heq
      obtain ⟨s, hs, hbare⟩ := exists_mem_zip_of_forall₂ h hpart
      exact hbare (hr.spreads s (Rule.mem_spreadSymbols ha hs))
  · intro span hlhs
    have hcategory : r.action.category? = none := by
      by_contra hne
      exact Bool.false_ne_true (hlhs.symm.trans (hr.labels hne))
    rw [RuleTree.tree_rule]
    refine Action.isBare_apply (by rwa [List.length_map]) hcategory (fun hpass => ?_) span
    rw [hpass] at hfits
    obtain ⟨part, rfl⟩ := List.length_eq_one_iff.mp hfits
    obtain ⟨s, _, hbare, -, hrhs⟩ := List.forall₂_cons_right_iff.mp h
    rw [List.map_singleton, List.forall_mem_singleton]
    refine hbare fun hlabelled => ?_
    have hs : s ∈ r.rhs := hrhs ▸ List.mem_cons_self
    exact Bool.false_ne_true (hlhs.symm.trans (hr.passes hpass s hs hlabelled))

section Fits

variable (hfits : ∀ r, R r → r.action.assembly.Fits r.rhs.length)
include hfits

/-- Where all rules for nonterminals that may be reached have been checked, derivations spread
nothing but leaves and lists, and the trees of symbols without labels are leaves or lists. -/
theorem spreadsLists {reached labelled : Nonterminal → Bool}
    (hR : ∀ r, R r → reached r.lhs → r.Flattens reached labelled)
    (h : IsDerivation R tokens α parts a b) (hα : ∀ s ∈ α, s.nonterminal?.all reached) :
    List.Forall₂ (fun s p => ¬ s.nonterminal?.any labelled → p.tree.IsBare) α parts ∧
      ∀ p ∈ parts, p.SpreadsLists := by
  induction h with
  | nil => exact ⟨.nil, nofun⟩
  | terminal _ _ ih =>
    rw [List.forall_mem_append] at hα
    obtain ⟨hbare, hspreads⟩ := ih hα.1
    rw [List.forall_mem_append, List.forall_mem_singleton]
    refine ⟨List.rel_append hbare (.cons (fun _ => ?_) .nil), hspreads, .token _⟩
    rw [RuleTree.tree_token]
    trivial
  | @nonterminal _ _ _ _ _ _ r _ hr hparts ih ih' =>
    rw [List.forall_mem_append, List.forall_mem_singleton] at hα
    have hreached : reached r.lhs := by simpa [Symbol.nonterminal?] using hα.2
    have hflattens := hR r hr hreached
    obtain ⟨hbare, hspreads⟩ := ih hα.1
    obtain ⟨hbare', hspreads'⟩ := ih' hflattens.reached
    obtain ⟨hspread, htree⟩ :=
      spreadsBare_of_flattens hflattens (by rw [hparts.length_eq]; exact hfits r hr) hbare'
    rw [List.forall_mem_append, List.forall_mem_singleton]
    refine ⟨List.rel_append hbare (.cons (fun hlhs => htree _ ?_) .nil), hspreads,
      .rule hspread hspreads'⟩
    simpa [Symbol.nonterminal?] using hlhs

/-- If a derivation spreads nothing but leaves and lists, then the constituents of its trees are
those that its rules make. -/
theorem flatMap_constituents (h : IsDerivation R tokens α parts a b)
    (hspreads : ∀ p ∈ parts, p.SpreadsLists) :
    (parts.map RuleTree.tree).flatMap Tree.constituents =
      parts.flatMap RuleTree.constituents := by
  induction h with
  | nil => rfl
  | terminal _ _ ih =>
    rw [List.forall_mem_append] at hspreads
    rw [List.map_append, List.flatMap_append, List.flatMap_append, ih hspreads.1]
    simp
  | nonterminal _ hr hparts ih ih' =>
    rw [List.forall_mem_append, List.forall_mem_singleton] at hspreads
    cases hspreads.2 with
    | rule hspread hspreads' =>
      rw [List.map_append, List.flatMap_append, List.flatMap_append, ih hspreads.1,
        List.map_singleton, List.flatMap_singleton, List.flatMap_singleton, RuleTree.tree_rule,
        Action.constituents_apply (hparts.fits hfits hr) hspread, ih' hspreads',
        RuleTree.constituents_rule]

end Fits

end IsDerivation

end NounPhrase
