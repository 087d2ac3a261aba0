import NounPhrase.Grammar.Swedish
import NounPhrase.Proofs.Derivation.ContextFree

/-!
# Grammars without circular derivations

Recovery symbols at the end of the sentence rule add no circular derivation. Where the sentence
derives another nonterminal alone by a wider rule, that one stands among the declared symbols, or it
is the recovery symbol, which then could have stood at its declared place. So if no nonterminal
derives itself by the declared rules, none does by sentence rules of any widths.

A grammar is shown to be of this kind by a rank of its nonterminals that falls with every step, and
by a set of nonterminals among which are all that can vanish. The grammar of Swedish has five ranks
above the lowest one.

## Main definitions

* `WidenedGrammar.IsRanked`: a rank falls with every step.
* `Swedish.mayVanish`, `Swedish.level`: the optional categories, and a rank.

## Main results

* `WidenedGrammar.not_transGen_isStep`: no circular derivation by sentence rules of any widths.
* `WidenedGrammar.IsRanked.isAcyclic`: a ranked grammar has no circular derivation.
* `isAcyclic_swedish`: the grammar of Swedish has none.
-/

namespace NounPhrase

open Relation

theorem IsStep.mono {R S : Nonterminal → List Symbol → Prop} (h : ∀ n β, R n β → S n β)
    {n m : Nonterminal} (hn : IsStep R n m) : IsStep S n m := by
  obtain ⟨α, β, hr, hα, hβ⟩ := hn
  exact ⟨α, β, h _ _ hr, hα.mono h, hβ.mono h⟩

namespace WidenedGrammar

variable {w : WidenedGrammar}

/-! ### Sentence rules of any widths -/

/-- What vanishes by sentence rules of any widths vanishes by the declared one. -/
theorem yields_nil_unwidened {α : List Symbol} (h : Yields w.IsNestedRule α []) :
    Yields w.grammar.unwidened.IsRule α [] := by
  induction h using Yields.vanishing_induction with
  | nil => exact .nil
  | nonterminal hr _ _ hβ hα =>
    rcases hr.cases with ⟨k, -, rfl, rfl⟩ | ⟨r, hmem, rfl, rfl⟩
    · have hentry : Yields w.grammar.unwidened.IsRule w.grammar.unwidened.entry.rhs [] :=
        (yields_append_nil_iff.mp hβ).1.append .nil
      exact .nonterminal w.grammar.unwidened.isRule_entry hentry hα
    · have hr : w.grammar.unwidened.IsRule r.lhs r.rhs := isRule_of_mem_others hmem
      exact .nonterminal hr hβ hα

/-- A step by a sentence rule of any width is one by the declared rules. -/
theorem isStep_unwidened {n m : Nonterminal} (h : IsStep w.IsNestedRule n m) :
    IsStep w.grammar.unwidened.IsRule n m := by
  obtain ⟨α, β, hr, hα, hβ⟩ := h
  have hα := yields_nil_unwidened hα
  have hβ := yields_nil_unwidened hβ
  rcases hr.cases with ⟨k, -, rfl, hrhs⟩ | ⟨r, hmem, rfl, hrhs⟩
  · have hentry : w.grammar.unwidened.entry.rhs = w.grammar.entry.rhs := List.append_nil _
    rcases append_eq_append_cons hrhs.symm with ⟨δ, hδ, rfl⟩ | ⟨γ, rfl, hγ⟩
    · refine ⟨α, δ, ?_, hα, (yields_append_nil_iff.mp hβ).1⟩
      rw [← hδ, ← hentry]
      exact isRule_entry _
    · -- the symbol is a recovery symbol, and there is one among those that were declared
      have hm : Symbol.nonterminal m ∈ List.replicate k (.nonterminal w.grammar.recovery) :=
        hγ ▸ List.mem_append_right _ List.mem_cons_self
      obtain rfl : m = w.grammar.recovery := by simpa using (List.mem_replicate.mp hm).2
      obtain ⟨ρ, hρ⟩ := w.grammar.exists_rhs_entry
      refine ⟨ρ, [], ?_, ?_, .nil⟩
      · rw [← hρ, ← hentry]
        exact isRule_entry _
      · have := (yields_append_nil_iff.mp hα).1
        rw [hρ] at this
        exact (yields_append_nil_iff.mp this).1
  · exact ⟨α, β, hrhs ▸ isRule_of_mem_others hmem, hα, hβ⟩

/-- If no nonterminal derives itself by the declared rules, then none does by sentence rules of any
widths. -/
theorem not_transGen_isStep (h : w.grammar.unwidened.IsAcyclic) (n : Nonterminal) :
    ¬ TransGen (IsStep w.IsNestedRule) n n := fun hn =>
  isAcyclic_iff.mp h n (TransGen.mono (fun _ _ => isStep_unwidened) n n hn)

/-- If no nonterminal derives itself by the declared rules, then none does at any width of the
sentence rule. -/
theorem isAcyclic_widened {g : Grammar} (h : g.unwidened.IsAcyclic) (k : Nat) :
    (g.widened k).IsAcyclic :=
  isAcyclic_iff.mpr fun n hn => not_transGen_isStep (w := g.widened k) h n
    (TransGen.mono (fun _ _ => IsStep.mono fun _ _ => IsRule.isNestedRule) n n hn)

/-! ### Ranks -/

/-- Whether the symbol is one of the given nonterminals. -/
def isAmong (p : Nonterminal → Bool) (s : Symbol) : Bool := s.nonterminal?.any p

/-- All nonterminals that can vanish are among the given ones, and the rank falls wherever a symbol
is all that is left of a rule when such nonterminals have vanished. -/
structure IsRanked (w : WidenedGrammar) (mayVanish : Nonterminal → Bool)
    (rank : Nonterminal → Nat) : Prop where
  vanishes : ∀ r ∈ w.rules, r.rhs.all (isAmong mayVanish) → mayVanish r.lhs
  falls : ∀ r ∈ w.rules, ∀ i < r.rhs.length, (r.rhs.eraseIdx i).all (isAmong mayVanish) →
    (r.rhs[i]?.bind Symbol.nonterminal?).all (rank · < rank r.lhs)

namespace IsRanked

variable {mayVanish : Nonterminal → Bool} {rank : Nonterminal → Nat}

theorem all_isAmong (h : w.IsRanked mayVanish rank) {α : List Symbol}
    (hα : Yields w.IsRule α []) : α.all (isAmong mayVanish) := by
  induction hα using Yields.vanishing_induction with
  | nil => rfl
  | nonterminal hr _ _ ihβ ihα =>
    obtain ⟨r, hmem, rfl, rfl⟩ := hr
    rw [List.all_cons, Bool.and_eq_true]
    exact ⟨h.vanishes r hmem ihβ, ihα⟩

theorem rank_lt (h : w.IsRanked mayVanish rank) {n m : Nonterminal} (hn : IsStep w.IsRule n m) :
    rank m < rank n := by
  obtain ⟨α, β, ⟨r, hmem, rfl, hrhs⟩, hα, hβ⟩ := hn
  have := h.falls r hmem α.length (by simp [hrhs])
  rw [hrhs, List.eraseIdx_append_of_length_le (Nat.le_refl _)] at this
  simpa [h.all_isAmong hα, h.all_isAmong hβ, Symbol.nonterminal?] using this

/-- A ranked grammar has no circular derivation. -/
theorem isAcyclic (h : w.IsRanked mayVanish rank) : w.IsAcyclic := by
  refine isAcyclic_iff.mpr fun n hn => ?_
  have hlt {m : Nonterminal} (hm : TransGen (IsStep w.IsRule) n m) : rank m < rank n := by
    induction hm with
    | single hstep => exact h.rank_lt hstep
    | tail _ hstep ih => exact Nat.lt_trans (h.rank_lt hstep) ih
  exact Nat.lt_irrefl _ (hlt hn)

end IsRanked

end WidenedGrammar

namespace Swedish

/-- The categories of optional phrases and those of lists, which may be empty. -/
def mayVanish : Nonterminal → Bool
  | .advpQ | .advpS | .apMinPlurContS | .apMinPlurS | .apMinSingContS | .apMinSingS | .apQ | .apS
  | .comNounS | .compNounContS | .compNounS | .delMinQ | .detPossPronQ | .detQ | .hereThereQ
  | .infVerbS | .konjDelMinQ | .konjQ | .nGenQ | .npS | .numQ | .numS | .partQ | .phraseS | .ppQ
  | .ppS | .propCompNounContS | .propNounS | .sAdvpS => true
  | _ => false

/-- A rank of the categories: above a category stand those that may be made of it alone. -/
def level : Nonterminal → Nat
  | .phraseS | .sent => 5
  | .apQ | .apS | .npS | .phrase => 4
  | .ap | .np => 3
  | .apMin | .apMinPlurS | .apMinSingS | .detPossPronQ | .npRestL => 2
  | .advpQ | .advpS | .apMinPlurL | .apMinSingL | .compNounContS | .detPossPron | .detQ
  | .konjDelMinQ | .npComL | .npSifL | .numQ | .numS | .ppQ | .ppS | .propCompNounContS => 1
  | _ => 0

end Swedish

/-- No nonterminal of the grammar of Swedish derives itself. -/
theorem isAcyclic_swedish : Grammar.swedish.unwidened.IsAcyclic := by
  have h : Grammar.swedish.unwidened.IsRanked Swedish.mayVanish Swedish.level :=
    ⟨by decide +kernel, by decide +kernel⟩
  exact h.isAcyclic

end NounPhrase
