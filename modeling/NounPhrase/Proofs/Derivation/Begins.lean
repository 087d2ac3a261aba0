import NounPhrase.Proofs.Derivation.ContextFree

/-!
# What a derivation begins with

A string of symbols can begin with a terminal if some string that it derives begins with it. The
terminal then stands behind symbols that vanish, or it is what a rule for the first other symbol can
begin with. Read in this way no symbols but those in front of the terminal matter, and the rest of
the derivation need not go down to terminals.

## Main definitions

* `Begins`: a string of symbols can begin with a terminal.

## Main results

* `begins_append_iff`: what a concatenation can begin with.
* `RuleTable.begins_of_derives`, `WidenedGrammar.begins_of_derives`: a string can begin with the
  first letter of what it derives, if that is a terminal.
-/

namespace NounPhrase

open Relation

variable {R : Nonterminal → List Symbol → Prop} {α β : List Symbol} {t : Terminal}

/-- By the rules `R` the string of symbols derives one that begins with the terminal. -/
inductive Begins (R : Nonterminal → List Symbol → Prop) : List Symbol → Terminal → Prop
  | terminal (t : Terminal) (α : List Symbol) : Begins R (.terminal t :: α) t
  | nonterminal {n : Nonterminal} {β : List Symbol} {t : Terminal} (hr : R n β) (hβ : Begins R β t)
      (α : List Symbol) : Begins R (.nonterminal n :: α) t
  | vanishing {n : Nonterminal} {α β : List Symbol} {t : Terminal} (hr : R n β)
      (hβ : Yields R β []) (hα : Begins R α t) : Begins R (.nonterminal n :: α) t

/-- A string of symbols can begin with the first terminal of what it yields. -/
theorem Yields.begins {v : List Terminal} (h : Yields R α (t :: v)) : Begins R α t := by
  generalize hu : t :: v = u at h
  induction h generalizing v with
  | nil => cases hu
  | terminal =>
    obtain ⟨rfl, -⟩ := List.cons.inj hu
    exact .terminal _ _
  | @nonterminal n α β u v' hr hβ hα ihβ ihα =>
    cases u with
    | nil => exact .vanishing hr hβ (ihα hu)
    | cons t' u =>
      obtain ⟨rfl, -⟩ := List.cons.inj hu
      exact .nonterminal hr (ihβ rfl) α

theorem Begins.append_right (h : Begins R α t) (β : List Symbol) : Begins R (α ++ β) t := by
  induction h with
  | terminal t α => exact .terminal t _
  | nonterminal hr hγ α => exact .nonterminal hr hγ _
  | vanishing hr hγ _ ih => exact .vanishing hr hγ ih

/-- A concatenation can begin with what its first part can begin with, and with what the second one
can if the first one vanishes. -/
theorem begins_append_iff :
    Begins R (α ++ β) t ↔ Begins R α t ∨ Yields R α [] ∧ Begins R β t := by
  constructor
  · intro h
    induction α with
    | nil => exact .inr ⟨.nil, h⟩
    | cons a α ih =>
      cases h with
      | terminal => exact .inl (.terminal t α)
      | nonterminal hr hγ => exact .inl (.nonterminal hr hγ α)
      | vanishing hr hγ h =>
        rcases ih h with hα | ⟨hα, hβ⟩
        · exact .inl (.vanishing hr hγ hα)
        · exact .inr ⟨.nonterminal hr hγ hα, hβ⟩
  · rintro (h | ⟨hα, hβ⟩)
    · exact h.append_right β
    · induction hα using Yields.vanishing_induction with
      | nil => exact hβ
      | nonterminal hr hγ _ _ ih => exact .vanishing hr hγ ih

/-- What a string of symbols derives begins with a terminal only if the string can begin with it. -/
theorem RuleTable.begins_of_derives {rules : List Rule}
    {x : List (ContextFreeGrammar.Letter Terminal Nonterminal)}
    (h : (contextFree rules).Derives (α.map Symbol.letter) (.terminal t :: x)) :
    Begins (IsRule rules) α t := by
  generalize hy : α.map Symbol.letter = y at h
  induction h using ReflTransGen.head_induction_on generalizing α with
  | refl =>
    obtain ⟨a, α, rfl, ha, -⟩ := List.map_eq_cons_iff.mp hy
    obtain rfl : a = .terminal t := Symbol.letter_injective ha
    exact .terminal t α
  | head hstep _ ih =>
    subst hy
    -- one nonterminal is replaced, and what comes of it can begin with the terminal
    obtain ⟨γ, n, δ, β, rfl, hr, rfl⟩ := produces_iff.mp hstep
    have hbegins : Begins (IsRule rules) (γ ++ (β ++ δ)) t := List.append_assoc γ β δ ▸ ih rfl
    rw [begins_append_iff, begins_append_iff] at hbegins
    rw [begins_append_iff]
    refine hbegins.imp_right fun ⟨hγ, hβδ⟩ => ⟨hγ, ?_⟩
    rcases hβδ with hβ | ⟨hβ, hδ⟩
    · exact .nonterminal hr hβ δ
    · exact .vanishing hr hβ hδ

theorem WidenedGrammar.begins_of_derives {w : WidenedGrammar}
    {x : List (ContextFreeGrammar.Letter Terminal Nonterminal)}
    (h : w.contextFree.Derives (α.map Symbol.letter) (.terminal t :: x)) :
    Begins w.IsRule α t :=
  @RuleTable.begins_of_derives α t w.rules x h

end NounPhrase
