import NounPhrase.Proofs.Chart.Soundness
import NounPhrase.Proofs.Derivation.ContextFree
import NounPhrase.Proofs.Recognition.Consistency

/-!
# What is accepted has a derivation

Recovery widens the sentence rule while the columns before the failure keep the items that were
completed with a narrower one. The items say what is true all the same, if a derivation may use
sentence rules of all widths so far. Only at the top this is not good enough. But the column behind
the last token is never built again: it has no token that could be blamed for it. So the item that
completes the sentence has been completed with the sentence rule as wide as it is in the end.

## Main definitions

* `WidenedGrammar.IsRecoveredRule`: the rules of a derivation below the outermost sentence.

## Main results

* `ParseState.IsLinked.eq_sentence`: a child of the start item is a sentence.
* `ParseState.IsLinked.exists_sentence`: an accepting item has come from such a child.
* `Moment.isSound_of_after`: the items of every moment are sound, with sentence rules of all widths.
* `Moment.sentence_mem_column`: the sentence that is accepted is complete at the present width.
* `recognize_sound`: an accepted prefix of the tokens has a derivation.
-/

namespace NounPhrase

/-- The rules of a derivation below the outermost sentence: those that were declared, and for a
sentence inside another one the declared sentence rule with recovery symbols behind it, no longer
than the sentence rule is now. -/
def WidenedGrammar.IsRecoveredRule (w : WidenedGrammar) (n : Nonterminal) (β : List Symbol) :
    Prop :=
  (∃ r ∈ w.grammar.others, r.lhs = n ∧ r.rhs = β) ∨
    n = w.grammar.sentence ∧ w.grammar.entry.rhs.length ≤ β.length ∧ β.length ≤ w.entryLength ∧
      ∃ k, β = w.grammar.entry.rhs ++ List.replicate k (.nonterminal w.grammar.recovery)

/-- Rules that lead from nonterminals of one kind to such nonterminals alone may be exchanged for
others that do the same for this kind. -/
theorem Yields.restrict {R S : Nonterminal → List Symbol → Prop} {P : Nonterminal → Prop}
    (h : ∀ n β, P n → R n β → S n β ∧ ∀ m, .nonterminal m ∈ β → P m) {α : List Symbol}
    {v : List Terminal} (hα : Yields R α v) (hP : ∀ m, .nonterminal m ∈ α → P m) :
    Yields S α v := by
  induction hα with
  | nil => exact nil
  | terminal _ ih => exact terminal (ih fun m hm => hP m (List.mem_cons_of_mem _ hm))
  | nonterminal hr _ _ ihβ ihα =>
    obtain ⟨hS, hβ⟩ := h _ _ (hP _ List.mem_cons_self) hr
    exact nonterminal hS (ihβ hβ) (ihα fun m hm => hP m (List.mem_cons_of_mem _ hm))

namespace WidenedGrammar

variable {w : WidenedGrammar}

/-- A nested rule of another nonterminal than the start symbol is one of those below the outermost
sentence. -/
theorem IsNestedRule.isRecoveredRule {n : Nonterminal} {β : List Symbol} (hn : n ≠ .start)
    (h : w.IsNestedRule n β) : w.IsRecoveredRule n β ∧ Symbol.nonterminal .start ∉ β := by
  rcases h.cases with ⟨k, hk, rfl, rfl⟩ | ⟨r, hr, rfl, rfl⟩
  · refine ⟨.inr ⟨rfl, ?_, ?_, k, rfl⟩, start_notMem_rhs_entry (w := w.grammar.widened k)⟩
    · simp
    · simpa [entry, entryLength] using hk
  · rcases List.mem_append.mp hr with hr | hr
    · exact ⟨.inl ⟨r, hr, rfl, rfl⟩, (start_notMem_rhs (w := w) (List.mem_cons_of_mem _ hr)).2⟩
    · obtain rfl := List.mem_singleton.mp hr
      exact absurd rfl hn

theorem yields_isRecoveredRule {α : List Symbol} {v : List Terminal}
    (h : Yields w.IsNestedRule α v) (hα : Symbol.nonterminal .start ∉ α) :
    Yields w.IsRecoveredRule α v := by
  refine h.restrict (P := (· ≠ .start)) (fun n β hn hr => ?_) fun m hm hstart => hα (hstart ▸ hm)
  obtain ⟨hrule, hβ⟩ := IsNestedRule.isRecoveredRule hn hr
  exact ⟨hrule, fun m hm hstart => hβ (hstart ▸ hm)⟩

/-- The start symbol derives the right-hand side of the sentence rule and the end marker. -/
theorem derives_entry (w : WidenedGrammar) :
    w.contextFree.Derives [.nonterminal .start]
      ((w.entry.rhs ++ [Symbol.terminal .eof]).map Symbol.letter) := by
  have hstart : w.IsRule .start [.nonterminal w.grammar.sentence, .terminal .eof] :=
    isRule_of_mem_others (r := .start w.grammar.sentence) (by simp)
  exact hstart.produces.single.tail
    (produces_iff.mpr ⟨[], _, [Symbol.terminal .eof], _, rfl, w.isRule_entry, rfl⟩)

end WidenedGrammar

/-! ### Sound items at every moment -/

/-- Recovery preserves soundness, since the symbols before a dot stay as they are. -/
theorem ParseState.IsSound.rollback {w : WidenedGrammar} {input : List Terminal} {s : ParseState}
    (hdot : ∀ k, ∀ i ∈ s.chart.column k, i.dot ≤ (w.rhs i.rule).length)
    (h : s.IsSound w.IsNestedRule w input) (k : Nat) :
    (s.rollback k).IsSound w.widen.IsNestedRule w.widen input := by
  intro j i hi
  have hi := (mem_column_rollback.mp hi).2
  obtain ⟨horigin, hyields⟩ := h j i hi
  refine ⟨horigin, ?_⟩
  have htake : (w.widen.rhs i.rule).take i.dot = (w.rhs i.rule).take i.dot :=
    Grammar.take_widened (Nat.le_succ w.widenings) i.rule (hdot j i hi)
  rw [htake]
  exact hyields.mono fun _ _ hr => hr.widen

/-- A child of the start item is a sentence that begins with the first token and was complete at
some width at which its column was built. -/
theorem ParseState.IsLinked.eq_sentence {w : WidenedGrammar} {input : List Terminal}
    {builds : Nat → List Nat} {s : ParseState} (hl : s.IsLinked w input builds) {k : Nat} {c : Cell}
    (hc : c ∈ s.forest.childrenOf ⟨w.startItem.advance, k⟩) :
    ∃ v ∈ builds k, ∃ d, (w.grammar.widened v).entryLength ≤ d ∧ d ≤ w.entryLength ∧
      c = ⟨⟨Grammar.entryId, d, 0⟩, k⟩ ∧ c.item ∈ s.chart.column k := by
  obtain ⟨⟨id, d, o⟩, column⟩ := c
  obtain ⟨p, n, hkey, hpnext, -, hcolumn, hcmem, hpmem, v, hv, hcomplete⟩ := hl.children _ _ hc
  obtain rfl : column = k := hcolumn
  obtain rfl := Item.advance_injective (i := w.startItem) hkey
  obtain rfl : w.grammar.sentence = n := by
    rw [w.next?_startItem] at hpnext
    simpa using hpnext
  obtain rfl : o = 0 := ((hl.items _ _ hpmem).origin_eq rfl).symm
  obtain ⟨hle, r, hr, hlhs⟩ := WidenedGrammar.completed?_eq_some.mp hcomplete
  obtain rfl : id = Grammar.entryId := WidenedGrammar.eq_entryId_of_lhs hr hlhs
  have hdot := (hl.items _ _ hcmem).dot_le
  rw [WidenedGrammar.rhs_entryId] at hle hdot
  exact ⟨v, hv, d, hle, hdot, rfl, hcmem⟩

/-- An accepting item has come from the start item by way of a sentence. -/
theorem ParseState.IsLinked.exists_sentence {w : WidenedGrammar} {input : List Terminal}
    {builds : Nat → List Nat} {s : ParseState} (hl : s.IsLinked w input builds) {k : Nat}
    (haccept : w.acceptItem ∈ s.chart.column (k + 1)) :
    ∃ c, c ∈ s.forest.childrenOf ⟨w.startItem.advance, k⟩ := by
  -- back over the end marker, and from there to a child that is a sentence
  obtain ⟨j, hj, -, hmem⟩ :=
    (hl.items _ _ haccept).scanned w.startItem.advance .eof rfl w.next?_advance_startItem
  obtain rfl : k = j := Nat.succ.inj hj
  exact List.exists_mem_of_ne_nil _
    ((hl.items _ _ hmem).advanced w.startItem w.grammar.sentence rfl w.next?_startItem)

namespace Moment

variable {g : Grammar} {tokens : List Token} {n : Nat} {es : List Event} {m : Moment}

/-- The items of the moment are sound, with sentence rules of all widths so far. -/
def IsSound (m : Moment) : Prop :=
  m.state.IsSound m.grammar.IsNestedRule m.grammar (inputTerminals m.tokens)

/-- Building the column preserves soundness. -/
theorem IsSound.build (hm : m.IsOf g tokens) (h : m.IsSound) : m.build.IsSound := by
  have hinput := getElem?_inputTerminals hm
  exact ParseState.IsSound.build (w := m.grammar) (fun _ _ hr => hr.isNestedRule) hinput h

/-- The items of every moment are sound. -/
theorem isSound_of_after (h : g.after tokens n = .moment es m) : m.IsSound := by
  refine after_induction (fun w ts _ => ?_) (fun n es m hm hs => ?_) (fun n es m b hm hs => ?_) h
  · intro j i hi
    obtain ⟨rfl, rfl⟩ := ParseState.mem_column_initial.mp hi
    exact ⟨Nat.le_refl _, by simp [WidenedGrammar.startItem, Item.start]⟩
  · exact hs.build (isOf_of_after hm)
  · have hc := (isConsistent_of_after hm).build (isOf_of_after hm)
    exact (hs.build (isOf_of_after hm)).rollback (fun k i hi => (hc.linked.items k i hi).dot_le) _

/-- Behind the last token the children of the start item are sentences that are complete at the
present width of the sentence rule. -/
theorem eq_sentence_of_mem_childrenOf (h : g.after tokens n = .moment es m)
    (hend : m.column = m.tokens.length) {c : Cell}
    (hc : c ∈ m.build.state.forest.childrenOf ⟨m.grammar.startItem.advance, m.column⟩) :
    c = ⟨⟨Grammar.entryId, m.grammar.entryLength, 0⟩, m.column⟩ ∧
      c.item ∈ m.build.state.chart.column m.column := by
  have hm := isOf_of_after h
  obtain ⟨v, hv, d, hle, hdot, rfl, hmem⟩ :=
    ((isConsistent_of_after h).build hm).linked.eq_sentence hc
  -- the column behind the last token has been built once
  have hbuilds : m.builds m.column = [] := by
    by_contra hb
    have := hm.last_lt _ (hm.here hb)
    omega
  obtain rfl : v = m.grammar.widenings := by
    simpa [Moment.build, hbuilds] using hv
  obtain rfl : d = m.grammar.entryLength := Nat.le_antisymm hdot hle
  exact ⟨rfl, hmem⟩

/-- The sentence that is accepted is complete at the present width of the sentence rule. -/
theorem sentence_mem_column (h : g.after tokens n = .moment es m)
    (hend : m.tokens.length ≤ m.column)
    (haccept : m.grammar.acceptItem ∈ m.build.state.chart.column (m.column + 1)) :
    m.column = m.tokens.length ∧
      ⟨Grammar.entryId, m.grammar.entryLength, 0⟩ ∈ m.build.state.chart.column m.column := by
  have hm := isOf_of_after h
  have hcolumn : m.column = m.tokens.length := Nat.le_antisymm hm.column_le hend
  obtain ⟨c, hc⟩ := ((isConsistent_of_after h).build hm).linked.exists_sentence haccept
  obtain ⟨rfl, hmem⟩ := eq_sentence_of_mem_childrenOf h hcolumn hc
  exact ⟨hcolumn, hmem⟩

end Moment

/-- An accepted derivation covers a prefix of the tokens. They and the end marker have a derivation
from the start symbol: it uses the sentence rule as wide as it is, with recovery symbols behind the
declared ones, for the outermost sentence, and below that rules that were declared, or sentence
rules of the declared width or wider, but no wider than the outermost one. -/
theorem recognize_sound {g : Grammar} {tokens : List Token} {d : Derivation}
    (h : (g.recognize tokens).derivation = some d) :
    d.tokens <+: tokens ∧ d.grammar.grammar = g ∧
      (∃ k, d.grammar.entry.rhs = g.entry.rhs ++ List.replicate k (.nonterminal g.recovery)) ∧
      d.grammar.contextFree.Derives [.nonterminal .start]
        ((d.grammar.entry.rhs ++ [Symbol.terminal .eof]).map Symbol.letter) ∧
      Yields d.grammar.IsRecoveredRule (d.grammar.entry.rhs ++ [.terminal .eof])
        (d.tokens.map Token.terminal ++ [.eof]) := by
  obtain ⟨n, es, m, hafter, hend, haccept, rfl⟩ := exists_moment_of_recognize h
  have hm := isOf_of_after hafter
  obtain ⟨hcolumn, hsentence⟩ := Moment.sentence_mem_column hafter hend haccept
  have hsound := ((Moment.isSound_of_after hafter).build hm _ _ hsentence).2
  have hyields : Yields m.grammar.IsNestedRule m.grammar.entry.rhs
      (m.tokens.map Token.terminal) := by
    have htake : (m.grammar.rhs Grammar.entryId).take m.grammar.entryLength =
        m.grammar.entry.rhs := by
      rw [WidenedGrammar.rhs_entryId]
      exact List.take_length
    have hinput : between (inputTerminals m.tokens) 0 m.column = m.tokens.map Token.terminal := by
      rw [hcolumn, inputTerminals_eq]
      simp [between]
    rw [← htake, ← hinput]
    exact hsound
  have hgrammar := hm.grammar_eq
  refine ⟨hm.isPrefix, hgrammar, ⟨m.grammar.widenings, ?_⟩, m.grammar.derives_entry, ?_⟩
  · rw [← hgrammar]
    rfl
  · exact (WidenedGrammar.yields_isRecoveredRule hyields
      WidenedGrammar.start_notMem_rhs_entry).append (.terminal .nil)

/-- Two nouns are accepted after recovery, by a sentence rule of two nouns. -/
theorem recognize_sound_nouns :
    ∃ d, (Grammar.nouns.recognize [⟨.comNoun, none, none⟩, ⟨.comNoun, none, none⟩]).derivation =
        some d ∧ d.grammar.entryLength = 2 ∧
      Yields d.grammar.IsRecoveredRule (d.grammar.entry.rhs ++ [.terminal .eof])
        [.comNoun, .comNoun, .eof] := by
  have haccept : (Grammar.nouns.recognize
      [⟨.comNoun, none, none⟩, ⟨.comNoun, none, none⟩]).derivation.any (fun d =>
        d.grammar.entryLength = 2 ∧ d.tokens.map Token.terminal = [.comNoun, .comNoun]) = true := by
    decide +kernel
  obtain ⟨d, hd, hmatch⟩ := (Option.any_eq_true _ _).mp haccept
  obtain ⟨hlength, htokens⟩ := of_decide_eq_true hmatch
  obtain ⟨-, -, -, -, hyields⟩ := recognize_sound hd
  rw [htokens] at hyields
  exact ⟨d, hd, hlength, hyields⟩

end NounPhrase
