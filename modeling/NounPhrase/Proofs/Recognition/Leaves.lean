import NounPhrase.Proofs.Forest.Following
import NounPhrase.Proofs.Recognition.Trees

/-!
# Every token has its place in the tree

The tree of an accepted sentence is the tree of a derivation: the builder follows one from the
sentence rule down, as wide as this rule is in the end, and what it follows are rules of the grammar
that stand for the accepted tokens. So if no action of the grammar drops a child, then no token is
lost, doubled or moved on the way to the tree, and every branch has the tokens of its span.

## Main definitions

* `Derivation.Follows`: the derivation that the builder of the tree follows.
* `Grammar.KeepsChildren`: no action of a rule drops a child.

## Main results

* `exists_derivation_of_recognize`: the tree is the tree of a derivation of the sentence rule.
* `leaves_of_recognize`: its leaves are the accepted tokens, and every branch has those of its span.
-/

namespace NounPhrase

/-- The builder of the tree of an accepted sentence follows the tree of rules from the accepting
item down, and takes all tokens, from the end marker to the first one. -/
def Derivation.Follows (d : Derivation) (D : RuleTree) : Prop :=
  d.forest.FollowsCell d.grammar ⟨d.grammar.acceptItem, d.tokens.length + 1⟩
    (d.tokens ++ [Token.endMarker]).reverse D []

/-- The tree of an accepted sentence is the tree of a derivation by the sentence rule, as wide as it
is in the end, with the end marker behind it. The builder follows this derivation. -/
theorem exists_derivation_of_recognize {g : Grammar} {tokens : List Token} {d : Derivation}
    {t : Tree} (h : (g.recognize tokens).derivation = some d) (ht : d.tree = .ok t) :
    d.grammar.grammar = g ∧ ∃ parts, d.Follows (.closed d.grammar d.tokens.length parts) ∧
      IsDerivation d.grammar.IsNested d.tokens d.grammar.entry.rhs parts 0 d.tokens.length ∧
      t = (RuleTree.closed d.grammar d.tokens.length parts).tree := by
  obtain ⟨n, es, m, hafter, hend, haccept, rfl⟩ := exists_moment_of_recognize h
  have hm := isOf_of_after hafter
  have hl := ((Moment.isConsistent_of_after hafter).build hm).linked
  have hcolumn : m.column = m.tokens.length := Nat.le_antisymm hm.column_le hend
  have hsentence : ∀ c ∈ m.build.state.forest.childrenOf
      ⟨m.grammar.startItem.advance, m.tokens.length⟩,
      c = ⟨⟨Grammar.entryId, m.grammar.entryLength, 0⟩, m.tokens.length⟩ ∧
        c.item ∈ m.build.state.chart.column m.tokens.length := by
    rw [← hcolumn]
    exact fun c hc => Moment.eq_sentence_of_mem_childrenOf hafter hcolumn hc
  exact ⟨hm.grammar_eq, hl.exists_derivation hsentence (hcolumn ▸ haccept) ht⟩

/-- The sentence rule keeps all its children, and every rule whose action passes on its first child
has this child alone. -/
structure Grammar.KeepsChildren (g : Grammar) : Prop where
  sentence : g.entry.action = .sentence
  pass : ∀ r ∈ g.entry :: g.others, r.action.assembly = .pass → r.rhs.length = 1

/-- After any recovery the actions of the rules have a place for every child. -/
theorem Grammar.KeepsChildren.fits {w : WidenedGrammar} (h : w.grammar.KeepsChildren) {r : Rule}
    (hr : w.IsNested r) : r.action.assembly.Fits r.rhs.length := by
  obtain ⟨k, -, hr⟩ := hr
  rcases List.mem_cons.mp hr with rfl | hr
  · have hsentence : (w.grammar.widened k).entry.action.assembly = .sentence :=
      congrArg Action.assembly h.sentence
    rw [hsentence]
    trivial
  · have hmem : r ∈ w.grammar.entry :: w.grammar.others := List.mem_cons_of_mem _ hr
    have haccepts := w.grammar.arity hmem
    rw [Action.accepts] at haccepts
    cases ha : r.action.assembly with
    | pass => exact h.pass r hmem ha
    | sentence => trivial
    | node label plan =>
      rw [ha] at haccepts
      exact beq_iff_eq.mp haccepts

theorem Grammar.keepsChildren_swedish : Grammar.swedish.KeepsChildren :=
  ⟨rfl, by decide +kernel⟩

/-- If no action of a grammar drops a child, and no nonterminal derives itself, then the tree of an
accepted derivation has the accepted tokens as leaves, from left to right and each at its place,
and every branch of it has the tokens of its span as leaves. Its root is a sentence of all tokens,
with as many children as the sentence rule has symbols in the end. The grammar of Swedish is such
a grammar. -/
theorem leaves_of_recognize :
    (∀ (g : Grammar) (tokens : List Token) (d : Derivation), g.KeepsChildren →
      g.unwidened.IsAcyclic → (g.recognize tokens).derivation = some d →
        ∃ t, d.tree = .ok t ∧ t.leaves = leavesOf d.tokens ∧ t.IsSpanned d.tokens ∧
          ∃ children, t = .branch ⟨.category .sent, ⟨0, d.tokens.length⟩⟩ children ∧
            children.length = d.grammar.entryLength) ∧
    Grammar.swedish.KeepsChildren ∧ Grammar.swedish.unwidened.IsAcyclic := by
  refine ⟨fun g tokens d hkeeps hacyclic h => ?_, Grammar.keepsChildren_swedish, isAcyclic_swedish⟩
  obtain ⟨⟨t, ht⟩, -⟩ := exists_tree_of_recognize hacyclic h
  obtain ⟨rfl, parts, -, hderivation, rfl⟩ := exists_derivation_of_recognize h ht
  have hfits : ∀ r, d.grammar.IsNested r → r.action.assembly.Fits r.rhs.length :=
    fun _ => hkeeps.fits
  have hassembly : d.grammar.entry.action.assembly = .sentence :=
    congrArg Action.assembly hkeeps.sentence
  have hentry := hderivation.fits hfits ⟨_, Nat.le_refl _, List.mem_cons_self⟩
  have hleaves := hderivation.flatMap_leaves hfits
  refine ⟨_, ht, ?_, ?_, parts.map RuleTree.tree, ?_, ?_⟩
  · rw [RuleTree.tree_closed, RuleTree.tree_rule, Action.leaves_apply hentry, hleaves,
      leavesBetween_zero_length]
  · rw [RuleTree.tree_closed, RuleTree.tree_rule]
    exact Action.isSpanned_apply hentry (Nat.zero_le _) (Nat.le_refl _) hleaves
      (hderivation.isSpanned hfits (Nat.zero_le _))
  · rw [RuleTree.tree_closed, RuleTree.tree_rule, Action.apply, hassembly]
  · rw [List.length_map, hderivation.length_eq]
    rfl

/-- Two nouns have both their places in the tree, after recovery. -/
theorem leaves_of_recognize_nouns :
    Grammar.nouns.KeepsChildren ∧ Grammar.nouns.unwidened.IsAcyclic ∧
      ∃ d, (Grammar.nouns.recognize
          [⟨.comNoun, none, none⟩, ⟨.comNoun, none, none⟩]).derivation = some d ∧
        d.grammar.entryLength = 2 ∧ ∃ t, d.tree = .ok t ∧ t.leaves = leavesOf d.tokens ∧
          t.IsSpanned d.tokens ∧
          ∃ children, t = .branch ⟨.category .sent, ⟨0, d.tokens.length⟩⟩ children ∧
            children.length = d.grammar.entryLength := by
  have hkeeps : Grammar.nouns.KeepsChildren := ⟨rfl, by decide⟩
  have hranked : Grammar.nouns.unwidened.IsRanked (fun _ => false)
      (fun n => if n = .sent then 1 else 0) := ⟨by decide, by decide⟩
  have haccept : (Grammar.nouns.recognize
      [⟨.comNoun, none, none⟩, ⟨.comNoun, none, none⟩]).derivation.any
        (·.grammar.entryLength = 2) = true := by
    decide +kernel
  obtain ⟨d, hd, hlength⟩ := (Option.any_eq_true _ _).mp haccept
  exact ⟨hkeeps, hranked.isAcyclic, d, hd, of_decide_eq_true hlength,
    leaves_of_recognize.1 _ _ d hkeeps hranked.isAcyclic hd⟩

end NounPhrase
