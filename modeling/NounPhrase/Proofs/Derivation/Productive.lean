import NounPhrase.Proofs.Derivation.ContextFree

/-!
# Grammars without dead ends

A nonterminal is of no use if it derives no string of terminals. Where every nonterminal derives
one by the declared rules, it does so at every width of the sentence rule: a recovery symbol at the
end of the sentence rule derives what the declared one derives. So whatever symbols of a rule are
still to come, they can be completed.

## Main definitions

* `Grammar.IsProductive`: every nonterminal derives a string of terminals.

## Main results

* `exists_yields_widened`: what yields a string by the declared rules yields one at every width.
* `Grammar.IsProductive.exists_yields_drop`: the rest of a rule can be completed.
-/

namespace NounPhrase

/-- Every nonterminal with a rule derives a string of terminals by the declared rules. -/
def Grammar.IsProductive (g : Grammar) : Prop :=
  ∀ r ∈ g.entry :: g.others, ∃ v : List Terminal,
    g.unwidened.contextFree.Derives [.nonterminal r.lhs] (v.map .terminal)

/-- A symbol as often as one likes yields what it yields as often. -/
theorem Yields.replicate {R : Nonterminal → List Symbol → Prop} {s : Symbol} {v : List Terminal}
    (h : Yields R [s] v) (k : Nat) :
    Yields R (List.replicate k s) (List.replicate k v).flatten := by
  induction k with
  | zero => exact .nil
  | succ k ih => exact h.append ih

variable {g : Grammar}

/-- What yields a string by the declared rules yields one at every width of the sentence rule. -/
theorem exists_yields_widened (k : Nat) {α : List Symbol} {v : List Terminal}
    (h : Yields g.unwidened.IsRule α v) : ∃ u, Yields (g.widened k).IsRule α u := by
  induction h with
  | nil => exact ⟨_, .nil⟩
  | terminal _ ih =>
    obtain ⟨u, hu⟩ := ih
    exact ⟨_, .terminal hu⟩
  | nonterminal hr _ _ ihβ ihα =>
    obtain ⟨u, hβ⟩ := ihβ
    obtain ⟨u', hα⟩ := ihα
    obtain ⟨r, hr, rfl, rfl⟩ := hr
    rcases List.mem_cons.mp hr with rfl | hr
    · -- the last symbol of the declared rule yields something, and so do copies of it
      obtain ⟨ρ, hρ⟩ := g.exists_rhs_entry
      have hentry : Yields (g.widened k).IsRule g.entry.rhs u :=
        (List.append_nil g.entry.rhs) ▸ hβ
      obtain ⟨_, x, rfl, -, hx⟩ := yields_append_iff.mp (hρ ▸ hentry)
      exact ⟨_, .nonterminal (g.widened k).isRule_entry (hentry.append (hx.replicate k)) hα⟩
    · exact ⟨_, .nonterminal (WidenedGrammar.isRule_of_mem_others hr) hβ hα⟩

namespace WidenedGrammar

variable {w : WidenedGrammar}

/-- Every nonterminal on the right of a rule has a rule, at every width of the sentence rule. -/
theorem exists_lhs_of_mem_rhs {r : Rule} (hr : r ∈ w.rules) {n : Nonterminal}
    (hn : .nonterminal n ∈ r.rhs) : ∃ s ∈ w.grammar.entry :: w.grammar.others, s.lhs = n := by
  rcases List.mem_cons.mp hr with rfl | hr
  · rcases List.mem_append.mp hn with hn | hn
    · exact w.grammar.defined List.mem_cons_self hn
    · obtain ⟨ρ, hρ⟩ := w.grammar.exists_rhs_entry
      have hmem : .nonterminal w.grammar.recovery ∈ w.grammar.entry.rhs :=
        hρ ▸ List.mem_append_right _ List.mem_cons_self
      obtain rfl : n = w.grammar.recovery := by simpa using (List.mem_replicate.mp hn).2
      exact w.grammar.defined List.mem_cons_self hmem
  · rcases List.mem_append.mp hr with hr | hr
    · exact w.grammar.defined (List.mem_cons_of_mem _ hr) hn
    · obtain rfl := List.mem_singleton.mp hr
      obtain rfl : n = w.entry.lhs := by simpa [Rule.start] using hn
      exact ⟨_, List.mem_cons_self, rfl⟩

end WidenedGrammar

namespace Grammar.IsProductive

/-- Symbols that have rules can be completed, at every width of the sentence rule. -/
theorem exists_yields (h : g.IsProductive) (k : Nat) {α : List Symbol}
    (hα : ∀ n, .nonterminal n ∈ α → ∃ r ∈ g.entry :: g.others, r.lhs = n) :
    ∃ u, Yields (g.widened k).IsRule α u := by
  induction α with
  | nil => exact ⟨[], .nil⟩
  | cons s α ih =>
    obtain ⟨u, hu⟩ := ih fun n hn => hα n (List.mem_cons_of_mem _ hn)
    cases s with
    | terminal t => exact ⟨_, .terminal hu⟩
    | nonterminal n =>
      obtain ⟨r, hr, rfl⟩ := hα n List.mem_cons_self
      obtain ⟨v, hv⟩ := h r hr
      have hyields : Yields g.unwidened.IsRule [.nonterminal r.lhs] v :=
        WidenedGrammar.yields_of_derives (α := [.nonterminal r.lhs]) hv
      obtain ⟨x, hx⟩ := exists_yields_widened k hyields
      exact ⟨_, hx.append hu⟩

/-- What is left of a rule can be completed. -/
theorem exists_yields_drop {w : WidenedGrammar} (h : w.grammar.IsProductive) (id : RuleId)
    (d : Nat) : ∃ u, Yields w.IsRule ((w.rhs id).drop d) u := by
  refine h.exists_yields w.widenings fun n hn => ?_
  have hn := List.mem_of_mem_drop hn
  cases hr : w.rule? id with
  | none => simp [WidenedGrammar.rhs, hr] at hn
  | some r =>
    rw [WidenedGrammar.rhs_eq_of_rule? hr] at hn
    rw [WidenedGrammar.rule?_eq] at hr
    exact WidenedGrammar.exists_lhs_of_mem_rhs (List.mem_of_getElem? hr) hn

end Grammar.IsProductive

end NounPhrase
