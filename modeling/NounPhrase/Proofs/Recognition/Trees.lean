import NounPhrase.Proofs.Forest.Building
import NounPhrase.Proofs.Recognition.Soundness

/-!
# Every derivation has a tree

A derivation that a recognition gives, with or without recovery, has a chart and a forest that agree
and items that are sound. So its tree can be built, as long as no nonterminal of the grammar derives
itself. The grammar of Swedish has no such nonterminal, and parsing by it never fails.

## Main results

* `exists_tree_of_recognize`: a derivation has a tree, and the tokens left while it is built are
  those before the column.
* `tree_of_recognize`: the same, with what follows for the grammar of Swedish.
-/

namespace NounPhrase

/-- The derivation of a recognition has a tree, and wherever the builder of the tree comes by, the
number of tokens left is the number of the column. -/
theorem exists_tree_of_recognize {g : Grammar} {tokens : List Token} {d : Derivation}
    (hacyclic : g.unwidened.IsAcyclic) (h : (g.recognize tokens).derivation = some d) :
    (∃ t, d.tree = .ok t) ∧ ∀ i k rest,
      d.forest.Visits d.grammar (d.tokens ++ [.endMarker]) i k rest → rest.length = k := by
  obtain ⟨n, es, m, hafter, hend, haccept, rfl⟩ := exists_moment_of_recognize h
  have hm := isOf_of_after hafter
  have hc := (Moment.isConsistent_of_after hafter).build hm
  have hs := (Moment.isSound_of_after hafter).build hm
  have hlength : (m.tokens ++ [Token.endMarker]).length = m.column + 1 := by
    rw [List.length_append, List.length_singleton,
      (Moment.sentence_mem_column hafter hend haccept).1]
  have hacyclic : m.grammar.grammar.unwidened.IsAcyclic := hm.grammar_eq ▸ hacyclic
  rw [← hlength] at haccept
  exact ⟨Forest.exists_tree_eq_ok hacyclic hc.linked hs haccept,
    fun _ _ _ hvisits => hvisits.length_eq hacyclic hc.linked hs haccept⟩

/-- If no nonterminal derives itself, then a derivation of a recognition has a tree, and wherever
the builder of the tree comes by, the number of tokens left is the number of the column. No
nonterminal of the grammar of Swedish derives itself, at any width of the sentence rule, and parsing
by this grammar never fails. -/
theorem tree_of_recognize :
    (∀ (g : Grammar) (tokens : List Token) (d : Derivation), g.unwidened.IsAcyclic →
      (g.recognize tokens).derivation = some d → (∃ t, d.tree = .ok t) ∧ ∀ i k rest,
        d.forest.Visits d.grammar (d.tokens ++ [.endMarker]) i k rest → rest.length = k) ∧
    (∀ k, (Grammar.swedish.widened k).IsAcyclic) ∧
    ∀ tokens, ∃ t, Grammar.swedish.parse tokens = .ok t := by
  refine ⟨fun g tokens d hacyclic h => exists_tree_of_recognize hacyclic h,
    WidenedGrammar.isAcyclic_widened isAcyclic_swedish, fun tokens => ?_⟩
  rw [Grammar.parse]
  cases hd : (Grammar.swedish.recognize tokens).derivation with
  | none => exact ⟨none, rfl⟩
  | some d =>
    obtain ⟨⟨t, ht⟩, -⟩ := exists_tree_of_recognize isAcyclic_swedish hd
    refine ⟨some t, ?_⟩
    change d.tree.map some = _
    rw [ht]
    rfl

/-- Two nouns have a tree, after recovery. -/
theorem tree_of_recognize_nouns :
    Grammar.nouns.unwidened.IsAcyclic ∧
      ∃ d, (Grammar.nouns.recognize
          [⟨.comNoun, none, none⟩, ⟨.comNoun, none, none⟩]).derivation = some d ∧
        d.grammar.entryLength = 2 ∧ (∃ t, d.tree = .ok t) ∧ ∀ i k rest,
          d.forest.Visits d.grammar (d.tokens ++ [.endMarker]) i k rest → rest.length = k := by
  have hranked : Grammar.nouns.unwidened.IsRanked (fun _ => false)
      (fun n => if n = .sent then 1 else 0) := ⟨by decide, by decide⟩
  have haccept : (Grammar.nouns.recognize
      [⟨.comNoun, none, none⟩, ⟨.comNoun, none, none⟩]).derivation.any
        (·.grammar.entryLength = 2) = true := by
    decide +kernel
  obtain ⟨d, hd, hlength⟩ := (Option.any_eq_true _ _).mp haccept
  exact ⟨hranked.isAcyclic, d, hd, of_decide_eq_true hlength,
    tree_of_recognize.1 _ _ d hranked.isAcyclic hd⟩

end NounPhrase
