import NounPhrase.Item
import NounPhrase.Proofs.FirstTable.Viable

/-!
# Rules that are of no use before a terminal

A nonterminal whose first set does not admit a terminal has no rule that is admitted before it: the
first set holds what the first symbol of every rule contributes. So the rules that are not admitted
keep to themselves. A rule that begins with such a nonterminal is not admitted, and starting it
would only start more rules that are not admitted.

## Main definitions

* `Grammar.keeps`: the items that are left when the rules that are not admitted are not started.

## Main results

* `Grammar.admits_rhs_widened`: admission does not depend on the width of the sentence rule.
* `WidenedGrammar.first_admits_of_admits`: an admitted rule makes its nonterminal admitted.
* `WidenedGrammar.not_admits_of_not_keeps`: an item that is left out waits for a nonterminal without
  admitted rules.
-/

namespace NounPhrase

namespace Grammar

/-- Whether the item is kept where `lookahead` comes next. The items that are left out stand before
the first symbol of a rule that is not admitted; the start rule is there without being started. -/
def keeps (g : Grammar) (lookahead : Terminal) (i : Item) : Bool :=
  i.dot ≠ 0 ∨ i.rule = g.startId ∨ g.admits lookahead (g.unwidened.rhs i.rule)

variable {g : Grammar} {t : Terminal} {i : Item}

theorem keeps_iff : g.keeps t i ↔
    i.dot ≠ 0 ∨ i.rule = g.startId ∨ g.admits t (g.unwidened.rhs i.rule) :=
  decide_eq_true_iff

theorem keeps_of_dot_ne_zero (h : i.dot ≠ 0) : g.keeps t i := keeps_iff.mpr (.inl h)

/-- Admission is judged by the first symbol. -/
theorem admits_append {α : List Symbol} (hα : α ≠ []) (β : List Symbol) :
    g.admits t (α ++ β) = g.admits t α := by
  obtain ⟨a, α, rfl⟩ := List.exists_cons_of_ne_nil hα
  cases a <;> rfl

/-- Admission does not depend on the width of the sentence rule. -/
theorem admits_rhs_widened (t : Terminal) (k : Nat) (id : RuleId) :
    g.admits t ((g.widened k).rhs id) = g.admits t (g.unwidened.rhs id) := by
  obtain ⟨β, hβ⟩ := rhs_isPrefix (g := g) (Nat.zero_le k) id
  by_cases hnil : (g.widened 0).rhs id = []
  · have hid : id ≠ entryId := by
      rintro rfl
      obtain ⟨α, hα⟩ := g.exists_rhs_entry
      simp [rhs_entry_widened, hα] at hnil
    simp [WidenedGrammar.rhs, WidenedGrammar.rule?, hid, unwidened]
  · rw [← hβ, admits_append hnil]
    rfl

end Grammar

namespace WidenedGrammar

variable {w : WidenedGrammar} {t : Terminal} {i : Item} {n : Nonterminal} {id : RuleId}

/-- An admitted rule makes its nonterminal admitted. Only before the end of the input rules are
admitted without their first symbols being so. -/
theorem first_admits_of_admits {r : Rule} (hr : r ∈ w.rules) (ht : t ≠ .eof)
    (h : w.grammar.admits t r.rhs) : w.grammar.first.admits r.lhs t := by
  obtain ⟨⟨s, hs, hempty, hterminal⟩, hcorner⟩ := covers_first hr
  suffices s.admits t by simp [FirstTable.admits, hs, this]
  rw [FirstSet.admits, Bool.or_eq_true, List.contains_iff_mem]
  cases hrhs : r.rhs with
  | nil => exact .inl (hempty hrhs)
  | cons a β =>
    rw [hrhs] at h
    cases a with
    | terminal t' =>
      obtain rfl : t' = t := by simpa [Grammar.admits] using h
      exact .inr (hterminal t' β hrhs)
    | nonterminal m =>
      obtain ⟨u, hu, hut⟩ : ∃ u, w.grammar.first.get? m = some u ∧ u.admits t := by
        simpa [Grammar.admits, ht, FirstTable.admits, Option.any_eq_true] using h
      rw [FirstSet.admits, Bool.or_eq_true, List.contains_iff_mem] at hut
      have hsub := hcorner m β s u hrhs hs hu
      exact hut.imp hsub.2 (hsub.1 t)

/-- An item that waits for the next terminal is kept. -/
theorem keeps_of_next?_terminal (hnext : w.next? i = some (.terminal t)) :
    w.grammar.keeps t i := by
  by_cases hdot : i.dot = 0
  · rw [next?, hdot, ← List.head?_eq_getElem?] at hnext
    obtain ⟨β, hβ⟩ : ∃ β, w.rhs i.rule = .terminal t :: β :=
      ⟨_, (List.cons_head?_tail hnext).symm⟩
    have hadmits : w.grammar.admits t (w.rhs i.rule) := by
      rw [hβ]
      simp [Grammar.admits]
    exact Grammar.keeps_iff.mpr (.inr (.inr (Grammar.admits_rhs_widened t w.widenings _ ▸ hadmits)))
  · exact Grammar.keeps_of_dot_ne_zero hdot

/-- An item that is left out waits for a nonterminal without admitted rules, if it waits for one. -/
theorem not_admits_of_not_keeps (hi : ¬ w.grammar.keeps t i)
    (hnext : w.next? i = some (.nonterminal n)) (hid : id ∈ w.grammar.rulesFor n) :
    ¬ w.grammar.admits t (w.grammar.unwidened.rhs id) := by
  rw [Grammar.keeps_iff, not_or, not_or, not_not] at hi
  obtain ⟨hdot, -, hadmits⟩ := hi
  obtain ⟨r, hr, rfl⟩ := mem_rulesFor.mp hid
  intro h
  rw [← Grammar.admits_rhs_widened t w.widenings] at hadmits h
  rw [rhs_eq_of_rule? hr] at h
  rw [next?, hdot] at hnext
  have hmem : r ∈ w.rules := List.mem_of_getElem? (w.rule?_eq id ▸ hr)
  cases hrhs : w.rhs i.rule with
  | nil => simp [hrhs] at hnext
  | cons a β =>
    obtain rfl : a = .nonterminal r.lhs := by simpa [hrhs] using hnext
    have hadmits : ¬ w.grammar.admits t (w.rhs i.rule) := hadmits
    rw [hrhs, Grammar.admits, Bool.or_eq_true, not_or, beq_iff_eq] at hadmits
    exact hadmits.2 (first_admits_of_admits hmem hadmits.1 h)

end WidenedGrammar

end NounPhrase
