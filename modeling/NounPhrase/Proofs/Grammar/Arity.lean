import NounPhrase.Proofs.Grammar.Widths
import NounPhrase.Proofs.Tree.Spans
import NounPhrase.Recognition

/-!
# Numbers of children after recovery

That every action accepts the number of children that its rule gives it is checked once, with the
sentence rule as it was declared. Recovery makes the sentence rule longer, and its action does not
change. A sentence takes any number of children, but a plan has one entry for each symbol that was
declared, and leaves out the children behind its end. So a grammar can pass its checks and yet lose
from the tree, without any sign of it, the phrases that recovery has found.

## Main definitions

* `Grammar.optionalNouns`: a grammar of this kind.

## Main results

* `Action.fits_of_leaves_apply`: an action that keeps the leaves of all children has a place for
  each of them.
* `accepts_widened_iff`: when the actions accept the numbers of children at a width of the sentence
  rule, and when the action of the sentence rule keeps all leaves.
* `accepted_phrase_lost`: a phrase that is recognized and is not in the tree.
-/

namespace NounPhrase

namespace Action

/-- Of leaves in a row, those are placed for which the plan has an entry. -/
theorem zipWith_place_replicate {plan : List Placement} {n : Nat} (h : plan.length ≤ n)
    (token : Spanned Token) :
    List.zipWith Placement.place plan (List.replicate n (.leaf token)) =
      List.replicate plan.length [.leaf token] := by
  induction plan generalizing n with
  | nil => rfl
  | cons p plan ih =>
    obtain ⟨n, rfl⟩ : ∃ n', n = n' + 1 := ⟨n - 1, by simp at h; omega⟩
    have hplace : p.place (.leaf token) = [.leaf token] := by cases p <;> rfl
    rw [List.replicate_succ, List.zipWith_cons_cons, hplace, ih (Nat.succ_le_succ_iff.mp h)]
    rfl

/-- An action that keeps the leaves of any `n` children has a place for each of them, if it accepts
some number of children that is not larger. -/
theorem fits_of_leaves_apply {a : Action} {m n : Nat} (hm : a.accepts m) (hmn : m ≤ n)
    (h : ∀ span children, children.length = n →
      (a.apply span children).leaves = children.flatMap Tree.leaves) : a.assembly.Fits n := by
  let token : Spanned Token := ⟨.endMarker, ⟨0, 1⟩⟩
  have hleaves := h token.span (List.replicate n (.leaf token)) List.length_replicate
  have hall : ((List.replicate n (Tree.leaf token)).flatMap Tree.leaves).length = n := by
    simp [List.length_flatMap]
  rw [← hleaves, apply] at hall
  rw [accepts] at hm
  cases ha : a.assembly with
  | pass =>
    rw [ha] at hm hall
    have hm : 1 ≤ m := of_decide_eq_true hm
    obtain ⟨n, rfl⟩ : ∃ n', n = n' + 1 := ⟨n - 1, by omega⟩
    exact hall.symm
  | sentence => trivial
  | node label plan =>
    rw [ha] at hm hall
    have hm : plan.length = m := beq_iff_eq.mp hm
    have hkept := zipWith_place_replicate (hm ▸ hmn : plan.length ≤ n) token
    show plan.length = n
    simpa [hkept, List.length_flatMap] using hall

end Action

variable {g : Grammar} {k : Nat}

/-- Actions that are no plans accept any number of children but none. -/
theorem Action.accepts_iff {a : Action} {n : Nat} :
    a.accepts n ↔ (∃ label plan, a.assembly = .node label plan ∧ plan.length = n) ∨
      (∀ label plan, a.assembly ≠ .node label plan) ∧ 1 ≤ n := by
  rw [accepts]
  cases ha : a.assembly with
  | pass => simp
  | sentence => simp
  | node label plan =>
    refine beq_iff_eq.trans ⟨fun h => .inl ⟨label, plan, rfl, h⟩, ?_⟩
    rintro (⟨_, _, hplan, h⟩ | ⟨hnone, -⟩)
    · exact (Assembly.node.inj hplan).2 ▸ h
    · exact absurd rfl (hnone label plan)

/-- The actions accept the numbers of children at every width, but that of the sentence rule does
so at the declared width only, if it has a plan. -/
theorem WidenedGrammar.forall_accepts_iff :
    (∀ id r, (g.widened k).rule? id = some r → r.action.accepts r.rhs.length) ↔
      k = 0 ∨ ∀ label plan, g.entry.action.assembly ≠ .node label plan := by
  have hdeclared := Action.accepts_iff.mp (g.arity List.mem_cons_self)
  have hlength : (g.widened k).entry.rhs.length = g.entry.rhs.length + k := by
    rw [Grammar.rhs_entry_widened, List.length_append, List.length_replicate]
  have hentry : g.entry.action.accepts (g.widened k).entry.rhs.length ↔
      k = 0 ∨ ∀ label plan, g.entry.action.assembly ≠ .node label plan := by
    rw [hlength, Action.accepts_iff]
    rcases hdeclared with ⟨label, plan, hplan, hm⟩ | ⟨hnone, hm⟩
    · constructor
      · rintro (⟨_, _, hplan', hm'⟩ | ⟨hnone, -⟩)
        · obtain ⟨-, rfl⟩ := Assembly.node.inj (hplan.symm.trans hplan')
          exact .inl (by omega)
        · exact absurd hplan (hnone label plan)
      · rintro (rfl | hnone)
        · exact .inl ⟨label, plan, hplan, hm⟩
        · exact absurd hplan (hnone label plan)
    · exact iff_of_true (.inr ⟨hnone, Nat.le_add_right_of_le hm⟩) (.inr hnone)
  refine ⟨fun h => hentry.mp (h _ _ (g.widened k).rule?_entryId), fun h id r hr => ?_⟩
  rw [WidenedGrammar.rule?_eq] at hr
  rcases List.mem_cons.mp (List.mem_of_getElem? hr) with rfl | hr
  · exact hentry.mpr h
  · rcases List.mem_append.mp hr with hr | hr
    · exact g.arity (List.mem_cons_of_mem _ hr)
    · obtain rfl := List.mem_singleton.mp hr
      rfl

/-- Whatever the grammar, the actions of all rules but the sentence rule accept the numbers of
children at every width. The action of the sentence rule accepts them at the declared width, and at
the others if it has no plan. It keeps the leaves of all children that a width gives it if it has a
place for each of them, and only then; so it does at every width only if it makes a sentence of
them. -/
theorem accepts_widened_iff (g : Grammar) :
    (∀ k, (∀ id r, (g.widened k).rule? id = some r → r.action.accepts r.rhs.length) ↔
      k = 0 ∨ ∀ label plan, g.entry.action.assembly ≠ .node label plan) ∧
    (∀ k, (∀ span children, children.length = (g.widened k).entryLength →
        (g.entry.action.apply span children).leaves = children.flatMap Tree.leaves) ↔
      g.entry.action.assembly.Fits (g.widened k).entryLength) ∧
    ((∀ k span children, children.length = (g.widened k).entryLength →
        (g.entry.action.apply span children).leaves = children.flatMap Tree.leaves) ↔
      g.entry.action = .sentence) := by
  have hlength (k : Nat) : (g.widened k).entryLength = g.entry.rhs.length + k := by
    rw [WidenedGrammar.entryLength, Grammar.rhs_entry_widened, List.length_append,
      List.length_replicate]
  have hkeeps (k : Nat) : (∀ span children, children.length = (g.widened k).entryLength →
      (g.entry.action.apply span children).leaves = children.flatMap Tree.leaves) ↔
        g.entry.action.assembly.Fits (g.widened k).entryLength :=
    ⟨Action.fits_of_leaves_apply (g.arity List.mem_cons_self)
      (hlength k ▸ Nat.le_add_right _ _), fun h span _ hc => Action.leaves_apply (hc ▸ h) span⟩
  refine ⟨fun k => WidenedGrammar.forall_accepts_iff, hkeeps, ?_⟩
  have hsentence : g.entry.action.assembly = .sentence ↔ g.entry.action = .sentence := by
    cases g.entry.action <;> simp [Action.assembly]
  rw [forall_congr' hkeeps, ← hsentence]
  constructor
  · intro h
    -- no number of children but one is fitting for the other assemblies
    have h₀ := h 0
    have h₁ := h 1
    rw [hlength] at h₀ h₁
    cases ha : g.entry.action.assembly with
    | pass =>
      rw [ha] at h₀ h₁
      have h₀ : g.entry.rhs.length + 0 = 1 := h₀
      have h₁ : g.entry.rhs.length + 1 = 1 := h₁
      omega
    | sentence => rfl
    | node label plan =>
      rw [ha] at h₀ h₁
      have h₀ : plan.length = g.entry.rhs.length + 0 := h₀
      have h₁ : plan.length = g.entry.rhs.length + 1 := h₁
      omega
  · intro h k
    rw [h]
    trivial

/-- A sentence of one noun, as an optional constituent. -/
def Grammar.optionalNouns : Grammar where
  entry := ⟨.sent, [.nonterminal .comNounS], .optNonterm⟩
  others := [⟨.comNounS, [.terminal .comNoun], .word⟩]
  recovery := .comNounS
  distinct := by decide
  start_unused := by decide
  entry_unique := by decide
  entry_ends := rfl
  faultless := by decide

/-- The actions do not accept the numbers of children at every width. Two nouns are accepted, where
a sentence is one optional noun, and the tree has the first one only. -/
theorem accepted_phrase_lost :
    (¬ ∀ (g : Grammar) k id r, (g.widened k).rule? id = some r → r.action.accepts r.rhs.length) ∧
      ∃ d t, (Grammar.optionalNouns.recognize [⟨.comNoun, some "hus", none⟩,
          ⟨.comNoun, some "by", none⟩]).derivation = some d ∧
        d.tokens = [⟨.comNoun, some "hus", none⟩, ⟨.comNoun, some "by", none⟩] ∧
        d.grammar.entryLength = 2 ∧ d.tree.toOption = some t ∧
        t.leaves = [⟨⟨.comNoun, some "hus", none⟩, ⟨0, 1⟩⟩] := by
  refine ⟨fun h => ?_, ?_⟩
  · have hlost : (Grammar.optionalNouns.widened 1).rule? Grammar.entryId =
        some ⟨.sent, [.nonterminal .comNounS, .nonterminal .comNounS], .optNonterm⟩ := by decide
    exact absurd (h _ _ _ _ hlost) (by decide)
  · have hrun : (Grammar.optionalNouns.recognize [⟨.comNoun, some "hus", none⟩,
        ⟨.comNoun, some "by", none⟩]).derivation.any (fun d =>
          decide (d.tokens = [⟨.comNoun, some "hus", none⟩, ⟨.comNoun, some "by", none⟩] ∧
            d.grammar.entryLength = 2) &&
          d.tree.toOption.any (·.leaves = [⟨⟨.comNoun, some "hus", none⟩, ⟨0, 1⟩⟩])) = true := by
      decide +kernel
    obtain ⟨d, hd, hmatch⟩ := (Option.any_eq_true _ _).mp hrun
    obtain ⟨haccept, htree⟩ := Bool.and_eq_true_iff.mp hmatch
    obtain ⟨htokens, hentry⟩ := of_decide_eq_true haccept
    obtain ⟨t, ht, hleaves⟩ := (Option.any_eq_true _ _).mp htree
    exact ⟨d, t, hd, htokens, hentry, ht, of_decide_eq_true hleaves⟩

end NounPhrase
