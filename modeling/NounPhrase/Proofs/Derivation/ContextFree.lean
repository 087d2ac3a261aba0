import Mathlib.Computability.ContextFreeGrammar
import NounPhrase.Proofs.Derivation.Yields
import NounPhrase.Proofs.Grammar.Widths

/-!
# The language of a widened grammar

A rule table is a context-free grammar, and a widened grammar is the one of its rules, with the
initial symbol `START`. Its derivations rewrite one nonterminal at a time; here they are compared
with the relation `Yields`, in which a derivation is a sequence of trees.

## Main definitions

* `RuleTable.contextFree`: the context-free grammar of a rule table.
* `WidenedGrammar.contextFree`: the context-free grammar of a widened grammar.
* `WidenedGrammar.IsAcyclic`: no nonterminal derives itself.

## Main results

* `WidenedGrammar.derives_iff_yields`: a string of symbols derives a string of terminals if and
  only if it yields it.
* `WidenedGrammar.isAcyclic_iff`: no nonterminal derives itself if and only if no chain of rules,
  in which all symbols but the next nonterminal vanish, returns to where it began.
-/

/-- A letter of a sentential form of a context-free grammar. -/
abbrev ContextFreeGrammar.Letter (T N : Type) := Symbol T N

namespace NounPhrase

open Relation

/-- A symbol as a letter of sentential forms. -/
def Symbol.letter : Symbol → ContextFreeGrammar.Letter Terminal Nonterminal
  | terminal t => .terminal t
  | nonterminal n => .nonterminal n

theorem Symbol.letter_injective : Function.Injective Symbol.letter := by
  intro s s' h
  cases s <;> cases s' <;> simp_all [letter]

@[simp] theorem Symbol.map_letter_terminal (v : List Terminal) :
    (v.map Symbol.terminal).map Symbol.letter = v.map .terminal := by
  rw [List.map_map]
  rfl

/-- A rule without its action, as a context-free rule. -/
def Rule.contextFree (r : Rule) : ContextFreeRule Terminal Nonterminal :=
  ⟨r.lhs, r.rhs.map Symbol.letter⟩

/-! ### Rule tables -/

namespace RuleTable

/-- The rules of a table, as a relation between a nonterminal and a right-hand side. -/
def IsRule (rules : List Rule) (n : Nonterminal) (β : List Symbol) : Prop :=
  ∃ r ∈ rules, r.lhs = n ∧ r.rhs = β

/-- The context-free grammar of a rule table, whether or not the table has passed any checks. -/
abbrev contextFree (rules : List Rule) : ContextFreeGrammar Terminal where
  NT := Nonterminal
  initial := .start
  rules := (rules.map Rule.contextFree).toFinset

variable {rules : List Rule} {α : List Symbol}

/-- One nonterminal is replaced by one of its right-hand sides. -/
theorem produces_iff {x : List (ContextFreeGrammar.Letter Terminal Nonterminal)} :
    (contextFree rules).Produces (α.map Symbol.letter) x ↔
      ∃ γ n δ β, α = γ ++ .nonterminal n :: δ ∧ IsRule rules n β ∧
        x = (γ ++ β ++ δ).map Symbol.letter := by
  constructor
  · rintro ⟨_, hr, hx⟩
    obtain ⟨r, hmem, rfl⟩ := List.mem_map.mp (List.mem_toFinset.mp hr)
    obtain ⟨p, q, hα, rfl⟩ := hx.exists_parts
    obtain ⟨γ, δ', rfl, rfl, hδ'⟩ := List.map_eq_append_iff.mp (hα.trans (List.append_assoc _ _ _))
    obtain ⟨s, δ, rfl, hs, rfl⟩ := List.map_eq_cons_iff.mp hδ'
    have : s = .nonterminal r.lhs := Symbol.letter_injective hs
    subst this
    exact ⟨γ, r.lhs, δ, r.rhs, rfl, ⟨r, hmem, rfl, rfl⟩, by simp [Rule.contextFree]⟩
  · rintro ⟨γ, n, δ, β, rfl, ⟨r, hr, rfl, rfl⟩, rfl⟩
    refine ⟨r.contextFree, List.mem_toFinset.mpr (List.mem_map_of_mem hr), ?_⟩
    have := r.contextFree.rewrites_of_exists_parts (γ.map Symbol.letter) (δ.map Symbol.letter)
    simpa [Rule.contextFree, Symbol.letter] using this

theorem derives_of_yields {v : List Terminal} (h : Yields (IsRule rules) α v) :
    (contextFree rules).Derives (α.map Symbol.letter) (v.map .terminal) := by
  induction h with
  | nil => exact ReflTransGen.refl
  | terminal _ ih => exact ih.append_left [.terminal _]
  | @nonterminal n α β u v hr _ _ ihβ ihα =>
    rw [List.map_append]
    have hproduces : (contextFree rules).Produces [.nonterminal n] (β.map Symbol.letter) :=
      produces_iff.mpr ⟨[], n, [], β, rfl, hr, by simp⟩
    have hβ : (contextFree rules).Derives [.nonterminal n] (u.map .terminal) :=
      hproduces.single.trans ihβ
    exact (hβ.append_right (α.map Symbol.letter)).trans (ihα.append_left _)

theorem yields_of_derives {v : List Terminal}
    (h : (contextFree rules).Derives (α.map Symbol.letter) (v.map .terminal)) :
    Yields (IsRule rules) α v := by
  generalize hx : α.map Symbol.letter = x at h
  induction h using ReflTransGen.head_induction_on generalizing α with
  | refl =>
    have : v.map Symbol.terminal = α :=
      Symbol.letter_injective.list_map (by rw [hx, Symbol.map_letter_terminal])
    subst this
    clear hx
    induction v with
    | nil => exact .nil
    | cons t v ih => exact .terminal ih
  | head hstep _ ih =>
    subst hx
    obtain ⟨γ, n, δ, β, rfl, hr, rfl⟩ := produces_iff.mp hstep
    obtain ⟨_, v₃, rfl, h₁₂, h₃⟩ := yields_append_iff.mp (ih rfl)
    obtain ⟨v₁, v₂, rfl, h₁, h₂⟩ := yields_append_iff.mp h₁₂
    rw [List.append_assoc]
    exact h₁.append (.nonterminal hr h₂ h₃)

end RuleTable

/-! ### Widened grammars -/

namespace WidenedGrammar

/-- The context-free grammar of the rules. -/
abbrev contextFree (w : WidenedGrammar) : ContextFreeGrammar Terminal where
  NT := Nonterminal
  initial := .start
  rules := (w.rules.map Rule.contextFree).toFinset

variable {w : WidenedGrammar}

/-- One nonterminal is replaced by one of its right-hand sides. -/
theorem produces_iff {α : List Symbol} {x : List (ContextFreeGrammar.Letter Terminal Nonterminal)} :
    w.contextFree.Produces (α.map Symbol.letter) x ↔
      ∃ γ n δ β, α = γ ++ .nonterminal n :: δ ∧ w.IsRule n β ∧
        x = (γ ++ β ++ δ).map Symbol.letter :=
  @RuleTable.produces_iff w.rules α x

theorem IsRule.produces {n : Nonterminal} {β : List Symbol} (h : w.IsRule n β) :
    w.contextFree.Produces [.nonterminal n] (β.map Symbol.letter) :=
  produces_iff.mpr ⟨[], n, [], β, rfl, h, by simp⟩

theorem derives_of_yields {α : List Symbol} {v : List Terminal} (h : Yields w.IsRule α v) :
    w.contextFree.Derives (α.map Symbol.letter) (v.map .terminal) :=
  @RuleTable.derives_of_yields w.rules α v h

theorem yields_of_derives {α : List Symbol} {v : List Terminal}
    (h : w.contextFree.Derives (α.map Symbol.letter) (v.map .terminal)) : Yields w.IsRule α v :=
  @RuleTable.yields_of_derives w.rules α v h

/-- A string of symbols derives a string of terminals if and only if it yields it. -/
theorem derives_iff_yields {α : List Symbol} {v : List Terminal} :
    w.contextFree.Derives (α.map Symbol.letter) (v.map .terminal) ↔ Yields w.IsRule α v :=
  ⟨yields_of_derives, derives_of_yields⟩

/-! ### Nonterminals that derive themselves -/

/-- No nonterminal derives itself in one or more steps. -/
def IsAcyclic (w : WidenedGrammar) : Prop :=
  ∀ n, ¬ TransGen w.contextFree.Produces [.nonterminal n] [.nonterminal n]

/-- A letter of a concatenation stands in one of its parts. -/
theorem append_eq_append_cons {ι : Type} {x y γ δ : List ι} {a : ι}
    (h : x ++ y = γ ++ a :: δ) :
    (∃ δ', x = γ ++ a :: δ' ∧ δ = δ' ++ y) ∨ ∃ γ', γ = x ++ γ' ∧ y = γ' ++ a :: δ := by
  rcases List.append_eq_append_iff.mp h with ⟨γ', rfl, rfl⟩ | ⟨z, rfl, hz⟩
  · exact .inr ⟨γ', rfl, rfl⟩
  · rcases List.cons_eq_append_iff.mp hz with ⟨rfl, rfl⟩ | ⟨δ', rfl, rfl⟩
    · exact .inr ⟨[], by simp, rfl⟩
    · exact .inl ⟨δ', rfl, rfl⟩

/-- If a nonterminal is all that is left of a string of symbols, then it comes from one of its
nonterminals by a chain of steps, and the symbols around that one vanish. -/
theorem exists_chain_of_derives {α : List Symbol} {m : Nonterminal}
    (h : w.contextFree.Derives (α.map Symbol.letter) [.nonterminal m]) :
    ∃ γ n δ, α = γ ++ .nonterminal n :: δ ∧ Yields w.IsRule γ [] ∧ Yields w.IsRule δ [] ∧
      ReflTransGen (IsStep w.IsRule) n m := by
  generalize hx : α.map Symbol.letter = x at h
  induction h using ReflTransGen.head_induction_on generalizing α with
  | refl =>
    have : α = [.nonterminal m] := Symbol.letter_injective.list_map hx
    exact ⟨[], m, [], this, .nil, .nil, .refl⟩
  | head hstep _ ih =>
    subst hx
    obtain ⟨γ, n, δ, β, rfl, hr, rfl⟩ := produces_iff.mp hstep
    obtain ⟨γ', n', δ', hsplit, hγ', hδ', hchain⟩ := ih rfl
    rw [List.append_assoc] at hsplit
    -- what is left comes from before, within or behind the right-hand side `β`
    rcases append_eq_append_cons hsplit with ⟨δ₁, rfl, rfl⟩ | ⟨γ₁, rfl, hβδ⟩
    · obtain ⟨hδ₁, hβδ⟩ := yields_append_nil_iff.mp hδ'
      obtain ⟨hβ, hδ⟩ := yields_append_nil_iff.mp hβδ
      exact ⟨γ', n', δ₁ ++ .nonterminal n :: δ, by simp, hγ',
        hδ₁.append (.nonterminal hr hβ hδ), hchain⟩
    · obtain ⟨hγ, hγ₁⟩ := yields_append_nil_iff.mp hγ'
      rcases append_eq_append_cons hβδ with ⟨δ₁, rfl, rfl⟩ | ⟨γ₂, rfl, rfl⟩
      · obtain ⟨hδ₁, hδ⟩ := yields_append_nil_iff.mp hδ'
        exact ⟨γ, n, δ, rfl, hγ, hδ, hchain.head ⟨γ₁, δ₁, hr, hγ₁, hδ₁⟩⟩
      · obtain ⟨hβ, hγ₂⟩ := yields_append_nil_iff.mp hγ₁
        exact ⟨γ ++ .nonterminal n :: γ₂, n', δ', by simp,
          hγ.append (.nonterminal hr hβ hγ₂), hδ', hchain⟩

theorem transGen_produces_of_isStep {n m : Nonterminal} (h : IsStep w.IsRule n m) :
    TransGen w.contextFree.Produces [.nonterminal n] [.nonterminal m] := by
  obtain ⟨α, β, hr, hα, hβ⟩ := h
  refine TransGen.head' hr.produces ?_
  rw [List.map_append, List.map_cons]
  have hα := (derives_of_yields hα).append_right (.nonterminal m :: β.map Symbol.letter)
  have hβ := (derives_of_yields hβ).append_left [.nonterminal m]
  exact hα.trans hβ

/-- No nonterminal derives itself if and only if no chain of steps returns to where it began. -/
theorem isAcyclic_iff : w.IsAcyclic ↔ ∀ n, ¬ TransGen (IsStep w.IsRule) n n := by
  refine ⟨fun h n hn => h n ?_, fun h n hn => ?_⟩
  · have lift := TransGen.lift' (p := w.contextFree.Produces)
      (fun m => [(Symbol.nonterminal m).letter])
      (fun _ _ => transGen_produces_of_isStep)
    exact lift n n hn
  · obtain ⟨x, hstep, hrest⟩ := TransGen.head'_iff.mp hn
    obtain ⟨γ, m, δ, β, hγ, hr, rfl⟩ := produces_iff (α := [.nonterminal n]).mp hstep
    obtain ⟨rfl, rfl, rfl⟩ : γ = [] ∧ n = m ∧ δ = [] := by
      cases γ <;> simp_all
    rw [List.nil_append, List.append_nil] at hrest
    obtain ⟨α, m, δ, rfl, hα, hδ, hchain⟩ := exists_chain_of_derives hrest
    exact h n (TransGen.head' ⟨α, δ, hr, hα, hδ⟩ hchain)

/-! ### The language -/

/-- The words of the language are the yields of the sentence symbol, with the end marker behind
them. -/
theorem mem_language_iff_yields {v : List Terminal} :
    v ++ [.eof] ∈ w.contextFree.language ↔ Yields w.IsRule [.nonterminal w.grammar.sentence] v := by
  have hstart : w.IsRule .start [.nonterminal w.grammar.sentence, .terminal .eof] :=
    isRule_of_mem_others (r := .start w.grammar.sentence) (by simp)
  rw [ContextFreeGrammar.mem_language_iff]
  refine (derives_iff_yields (α := [.nonterminal .start])).trans ?_
  rw [yields_nonterminal_iff, ← yields_append_terminal_iff]
  constructor
  · rintro ⟨β, hβ, h⟩
    obtain rfl := eq_start_of_isRule hβ
    exact h
  · intro h
    exact ⟨_, hstart, h⟩

end WidenedGrammar

end NounPhrase
