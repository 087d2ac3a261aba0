import NounPhrase.Proofs.Derivation.Flattening
import NounPhrase.Proofs.Recognition.Exactness
import NounPhrase.Proofs.Recognition.Leaves

/-!
# No phrase is lost on the way to the tree

The builder of the tree of an accepted sentence follows one derivation. Where the rules have been
checked for spreading lists only, the constituents of the tree are those that the rules of this
derivation make, no more and no less and in the same order, with the spans for which the rules
stand.

The rules of the grammar of Swedish pass the check, but for those for a list of phrases that no
other rule asks for. The rules for noun phrases are those whose actions make noun phrases, so that
a sentence has a noun phrase for every application of such a rule.

## Main definitions

* `Swedish.mayBeReached`, `Swedish.mayBeLabelled`: the categories that may be reached from the
  sentence, and those that may come with a label.

## Main results

* `Grammar.KeepsChildren.flattens`: the check serves for the rules at all widths.
* `exists_constituents_of_recognize`: the constituents of the tree of an accepted sentence.
* `phrases_of_recognize`: the constituents and the noun phrases by the grammar of Swedish.
-/

namespace NounPhrase

variable {w : WidenedGrammar} {r : Rule} {reached labelled : Nonterminal → Bool}

/-- A nested rule has the nonterminal and the action of a rule that was declared. -/
theorem WidenedGrammar.IsNested.exists_declared (h : w.IsNested r) :
    ∃ s ∈ w.grammar.entry :: w.grammar.others, s.lhs = r.lhs ∧ s.action = r.action := by
  obtain ⟨k, -, hr⟩ := h
  rcases List.mem_cons.mp hr with rfl | hr
  · exact ⟨w.grammar.entry, List.mem_cons_self, rfl, rfl⟩
  · exact ⟨r, List.mem_cons_of_mem _ hr, rfl, rfl⟩

/-- If the declared rules have been checked, then so have the sentence rules of all widths. -/
theorem Grammar.KeepsChildren.flattens (hkeeps : w.grammar.KeepsChildren)
    (hcheck : ∀ r ∈ w.grammar.entry :: w.grammar.others, reached r.lhs →
      r.Flattens reached labelled) (hr : w.IsNested r) (hlhs : reached r.lhs) :
    r.Flattens reached labelled := by
  obtain ⟨k, -, hr⟩ := hr
  rcases List.mem_cons.mp hr with rfl | hr
  · have hentry := hcheck w.grammar.entry List.mem_cons_self hlhs
    have hassembly : (w.grammar.widened k).entry.action.assembly = .sentence :=
      congrArg Action.assembly hkeeps.sentence
    refine ⟨?_, ?_, hentry.labels, fun hpass => by simp [hassembly] at hpass⟩
    · -- what is added is the recovery symbol, and it is one of those that were declared
      obtain ⟨ρ, hρ⟩ := w.grammar.exists_rhs_entry
      rw [Grammar.rhs_entry_widened, List.forall_mem_append]
      refine ⟨hentry.reached, fun s hs => ?_⟩
      obtain rfl := (List.mem_replicate.mp hs).2
      exact hentry.reached _ (hρ ▸ List.mem_append_right _ List.mem_cons_self)
    · simp [Rule.spreadSymbols, hassembly]
  · exact hcheck r (List.mem_cons_of_mem _ hr) hlhs

/-- The spans of the constituents of a category are those of the rules for it that are applied, if
the rules for it are those that make it. -/
theorem RuleTree.map_span_filter_constituents {p : RuleTree} {n : Nonterminal}
    (h : ∀ a ∈ p.applications, a.value.action.category? = some n ↔ a.value.lhs = n) :
    (p.constituents.filter (·.value = n)).map Spanned.span =
      (p.applications.filter (·.value.lhs = n)).map Spanned.span := by
  rw [constituents]
  generalize p.applications = as at h
  induction as with
  | nil => rfl
  | cons a as ih =>
    rw [List.forall_mem_cons] at h
    have ih := ih h.2
    by_cases hlhs : a.value.lhs = n
    · simp [h.1.mpr hlhs, hlhs, ih]
    · have hne : a.value.action.category? ≠ some n := fun hc => hlhs (h.1.mp hc)
      cases hc : a.value.action.category? with
      | none => simp [hc, hlhs, ih]
      | some m =>
        have hm : m ≠ n := fun hm => hne (hm ▸ hc)
        simp [hc, hm, hlhs, ih]

/-! ### The derivation that is followed -/

namespace RuleTree

variable {n : Nat} {parts : List RuleTree}

theorem applications_closed : (closed w n parts).applications =
    (rule w.entry ⟨0, n⟩ parts).applications ++
      [⟨.start w.grammar.sentence, ⟨0, n + 1⟩⟩] := by
  rw [closed, applications_rule]
  simp

/-- The rule that closes the input makes no constituent. -/
theorem constituents_closed :
    (closed w n parts).constituents = (rule w.entry ⟨0, n⟩ parts).constituents := by
  rw [closed, constituents_rule]
  simp [Rule.start, Action.category?, Action.assembly]

theorem SpreadsLists.closed (h : (RuleTree.rule w.entry ⟨0, n⟩ parts).SpreadsLists) :
    (RuleTree.closed w n parts).SpreadsLists := by
  refine .rule trivial ?_
  rw [List.forall_mem_cons, List.forall_mem_singleton]
  exact ⟨h, .token _⟩

end RuleTree

/-- Let a grammar keep all children, and let no nonterminal derive itself. If its rules have been
checked for spreading lists only, then the builder of the tree of an accepted sentence follows one
derivation, which spreads nothing but leaves and lists, and the tree has the constituents that the
rules of the derivation make. The rules are those of the grammar and the one that closes the input,
and in the tree every branch has the tokens of its span. -/
theorem exists_constituents_of_recognize {g : Grammar} {tokens : List Token} {d : Derivation}
    (hkeeps : g.KeepsChildren) (hacyclic : g.unwidened.IsAcyclic) (hsentence : reached g.sentence)
    (hcheck : ∀ r ∈ g.entry :: g.others, reached r.lhs → r.Flattens reached labelled)
    (h : (g.recognize tokens).derivation = some d) :
    ∃ D, d.tree = .ok D.tree ∧ (∀ D', d.Follows D' ↔ D' = D) ∧
      D.tree.constituents = D.constituents ∧ D.SpreadsLists ∧ D.tree.IsSpanned d.tokens ∧
      ∀ a ∈ D.applications, a.value = .start g.sentence ∨ d.grammar.IsNested a.value := by
  obtain ⟨⟨_, ht⟩, -⟩ := exists_tree_of_recognize hacyclic h
  obtain ⟨rfl, parts, hfollows, hderivation, rfl⟩ := exists_derivation_of_recognize h ht
  have hfits : ∀ r, d.grammar.IsNested r → r.action.assembly.Fits r.rhs.length :=
    fun _ => hkeeps.fits
  have hnested : d.grammar.IsNested d.grammar.entry := ⟨_, Nat.le_refl _, List.mem_cons_self⟩
  have hreached : ∀ s ∈ [Symbol.nonterminal d.grammar.entry.lhs], s.nonterminal?.all reached :=
    List.forall_mem_singleton.mpr hsentence
  -- the derivation of the sentence symbol, without the end marker
  set S : RuleTree := .rule d.grammar.entry ⟨0, d.tokens.length⟩ parts
  have hS : IsDerivation d.grammar.IsNested d.tokens [.nonterminal d.grammar.entry.lhs] [S] 0
      d.tokens.length := (IsDerivation.nil 0).nonterminal hnested hderivation
  obtain ⟨-, hspreads⟩ := hS.spreadsLists hfits (fun _ => hkeeps.flattens hcheck) hreached
  have hconstituents : S.tree.constituents = S.constituents := by
    simpa using hS.flatMap_constituents hfits hspreads
  have hspanned : S.tree.IsSpanned d.tokens :=
    hS.isSpanned hfits (Nat.zero_le _) _ List.mem_cons_self
  have hnested : ∀ a ∈ S.applications, d.grammar.IsNested a.value := by
    simpa using hS.forall_applications
  rw [List.forall_mem_singleton] at hspreads
  rw [← RuleTree.tree_closed] at hconstituents hspanned
  refine ⟨.closed d.grammar d.tokens.length parts, ht,
    fun D' => ⟨fun hD' => (hD'.unique hfollows).1, fun hD' => hD' ▸ hfollows⟩,
    hconstituents.trans RuleTree.constituents_closed.symm, hspreads.closed, hspanned, ?_⟩
  rw [RuleTree.applications_closed, List.forall_mem_append, List.forall_mem_singleton]
  exact ⟨fun a ha => .inr (hnested a ha), .inl rfl⟩

/-! ### The grammar of Swedish -/

namespace Swedish

/-- The categories but that of lists of phrases, for which no other rule asks. -/
def mayBeReached : Nonterminal → Bool
  | .phraseS => false
  | _ => true

/-- The categories whose trees may be constituents. -/
def mayBeLabelled : Nonterminal → Bool
  | .sent | .phrase | .advp | .ap | .apMin | .apMax | .infp | .np | .numP | .pp | .vc => true
  | _ => false

/-- The rules spread leaves and lists only. -/
theorem flattens : ∀ r ∈ Grammar.swedish.entry :: Grammar.swedish.others, mayBeReached r.lhs →
    r.Flattens mayBeReached mayBeLabelled := by
  decide +kernel

/-- The rules for noun phrases are those that make noun phrases. -/
theorem category?_eq_np_iff : ∀ r ∈ Grammar.swedish.entry :: Grammar.swedish.others,
    r.action.category? = some .np ↔ r.lhs = .np := by
  decide +kernel

end Swedish

/-- The builder of the tree of a sentence that is accepted by the grammar of Swedish follows one
derivation. The constituents of the tree are those that the rules of the derivation make, in the
order in which the rules are applied, and with their spans. Nothing is spread but leaves and lists.
So there is a noun phrase for every application of a rule for noun phrases, an inner one before the
one around it and else from left to right, and it is made of the words of the accepted tokens in the
span of the rule. -/
theorem phrases_of_recognize {tokens : List Token} {d : Derivation}
    (h : (Grammar.swedish.recognize tokens).derivation = some d) :
    ∃ t D, d.tree = .ok t ∧ (∀ D', d.Follows D' ↔ D' = D) ∧ t = D.tree ∧
      t.constituents = D.constituents ∧ D.SpreadsLists ∧
      t.nounPhrases =
        (D.applications.filter (·.value.lhs = .np)).map (textBetween d.tokens ·.span) := by
  have hsentence : Swedish.mayBeReached Grammar.swedish.sentence := rfl
  obtain ⟨D, ht, hfollows, hconstituents, hspreads, hspanned, happlied⟩ :=
    exists_constituents_of_recognize Grammar.keepsChildren_swedish isAcyclic_swedish hsentence
      Swedish.flattens h
  have hgrammar := (exists_derivation_of_recognize h ht).1
  have hcategory : ∀ a ∈ D.applications,
      a.value.action.category? = some .np ↔ a.value.lhs = .np := by
    intro a ha
    rcases happlied a ha with hstart | hnested
    · rw [hstart]
      decide
    · obtain ⟨s, hs, hlhs, haction⟩ := hnested.exists_declared
      rw [hgrammar] at hs
      rw [← hlhs, ← haction]
      exact Swedish.category?_eq_np_iff s hs
  refine ⟨D.tree, D, ht, hfollows, rfl, hconstituents, hspreads, ?_⟩
  have hspans := congrArg (List.map (textBetween d.tokens))
    (RuleTree.map_span_filter_constituents hcategory)
  rw [List.map_map, List.map_map, ← hconstituents] at hspans
  exact (Tree.phrases_eq hspanned).trans hspans

/-- A single noun is a sentence, and the noun phrases of its tree are those of its derivation. -/
theorem phrases_of_recognize_noun :
    ∃ d, (Grammar.swedish.recognize [⟨.comNoun, some "bil", none⟩]).derivation = some d ∧
      d.tokens = [⟨.comNoun, some "bil", none⟩] ∧
      ∃ t D, d.tree = .ok t ∧ (∀ D', d.Follows D' ↔ D' = D) ∧ t = D.tree ∧
        t.constituents = D.constituents ∧ D.SpreadsLists ∧
        t.nounPhrases =
          (D.applications.filter (·.value.lhs = .np)).map (textBetween d.tokens ·.span) := by
  have hword : Yields Grammar.swedish.unwidened.IsRule [.nonterminal .phrase] [.comNoun] :=
    .single ⟨⟨.phrase, [.terminal .comNoun], .word⟩, by decide +kernel, rfl, rfl⟩ (.terminal .nil)
  have hsentence : Yields Grammar.swedish.unwidened.IsRule [.nonterminal .sent] [.comNoun] :=
    .single Grammar.swedish.unwidened.isRule_entry hword
  have hblamed := (Grammar.swedish.unwidened.pass_initial [⟨.comNoun, some "bil", none⟩]).2.mpr
    hsentence
  obtain ⟨s, hs⟩ := recognizeFrom_of_blamed_eq_none (List.cons_ne_nil _ _) hblamed
  exact ⟨_, hs, rfl, phrases_of_recognize hs⟩

end NounPhrase
