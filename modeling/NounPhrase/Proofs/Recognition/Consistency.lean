import NounPhrase.Proofs.Chart.Links
import NounPhrase.Proofs.Chart.Soundness
import NounPhrase.Proofs.Recognition.Moments

/-!
# Chart and forest agree

At every moment of a recognition the chart and the forest agree, before its column is built and when
it has been built, also after recovery has widened the sentence rule, dropped columns and begun to
build a column again. A moment remembers the widths at which its columns have been built, and
agreement is judged by them.

## Main definitions

* `Moment.IsConsistent`: the chart and the forest of a moment agree.

## Main results

* `Moment.IsConsistent.build`, `Moment.IsConsistent.recovered`: a step preserves agreement.
* `consistent_before_and_after_build`: chart and forest agree before and after every column is
  built.
-/

namespace NounPhrase

/-- The chart and the forest of the moment agree. -/
structure Moment.IsConsistent (m : Moment) : Prop where
  linked : m.state.IsLinked m.grammar (inputTerminals m.tokens) m.builds
  recorded : m.state.IsRecorded m.builds m.grammar.grammar

namespace Moment

variable {g : Grammar} {tokens : List Token} {m : Moment}

theorem getElem?_inputTerminals (h : m.IsOf g tokens) :
    (inputTerminals m.tokens)[m.column]? = some m.lookahead := by
  have hle := h.column_le
  rw [inputTerminals_eq, lookahead]
  rcases Nat.lt_or_eq_of_le hle with hlt | heq
  · rw [List.getElem?_append_left (by simpa using hlt)]
    simp [List.getElem?_eq_getElem hlt]
  · simp [heq]

/-- Building the column preserves agreement. -/
theorem IsConsistent.build (hm : m.IsOf g tokens) (h : m.IsConsistent) : m.build.IsConsistent := by
  have hbuilds (j : Nat) : m.builds j ⊆ m.build.builds j := by
    simp only [Moment.build]
    split
    · exact List.subset_cons_self _ _
    · exact List.Subset.refl _
  have hhere : m.build.builds m.column = m.grammar.widenings :: m.builds m.column := by
    simp [Moment.build]
  have hlinked : m.build.state.IsLinked m.grammar (inputTerminals m.tokens) m.build.builds :=
    (h.linked.mono_builds hbuilds).build (getElem?_inputTerminals hm)
      (hhere ▸ List.mem_cons_self)
  refine ⟨hlinked, h.recorded.build (by rw [hhere]; rfl) (fun j v hj hv => ?_)
    fun j i hi => (hlinked.items j i hi).origin_le⟩
  simp only [Moment.build, hj, if_false] at hv
  refine ⟨Nat.lt_of_le_of_ne (Nat.le_of_not_lt fun hlt => ?_) hj, hv⟩
  rw [(hm.ahead j hlt).2] at hv
  simp at hv

/-- Going back to the column of the token that is to blame preserves agreement. -/
theorem IsConsistent.recovered (h : m.IsConsistent) (b : Nat) : (m.recovered b).IsConsistent := by
  refine ⟨h.linked.rollback fun j hj => ?_, h.recorded.rollback fun j v hv => ?_⟩
  · simp only [Moment.recovered]
    rw [if_pos (Nat.le_of_lt_succ hj)]
  · simp only [Moment.recovered] at hv
    split at hv
    · next hj => exact ⟨Nat.lt_succ_of_le hj, hv⟩
    · simp at hv

/-- Chart and forest agree at every moment. -/
theorem isConsistent_of_after {n : Nat} {es : List Event} (h : g.after tokens n = .moment es m) :
    m.IsConsistent := by
  refine after_induction (fun w ts _ => ?_) (fun n es m hm hc => ?_) (fun n es m b hm hc => ?_) h
  · exact ⟨ParseState.isLinked_initial .., fun k v hv => by simp [start] at hv⟩
  · have hbuild := hc.build (isOf_of_after hm)
    exact ⟨hbuild.linked, hbuild.recorded⟩
  · exact (hc.build (isOf_of_after hm)).recovered b

end Moment

/-- Stepping from moment to moment ends with what a recognition gives, and at every moment the
chart and the forest agree, before the column is built and when it has been built. -/
theorem consistent_before_and_after_build (g : Grammar) (tokens : List Token) :
    (∃ n, g.after tokens n =
      .finish (g.recognize tokens).events (g.recognize tokens).derivation) ∧
    ∀ n es m, g.after tokens n = .moment es m → m.IsConsistent ∧ m.build.IsConsistent := by
  refine ⟨exists_after_eq_finish g tokens, fun n es m h => ?_⟩
  have hc := Moment.isConsistent_of_after h
  exact ⟨hc, hc.build (isOf_of_after h)⟩

/-- The second of two nouns is too much for a sentence of one. After two columns it has been
blamed, the sentence rule has been widened, and the column before it is about to be built again. -/
theorem consistent_before_and_after_build_nouns :
    ∃ es m, Grammar.nouns.after [⟨.comNoun, none, none⟩, ⟨.comNoun, none, none⟩] 2 =
        .moment es m ∧ m.last = some 1 ∧ m.column = 1 ∧ m.grammar.widenings = 1 ∧
      m.builds 1 = [0] ∧ m.IsConsistent ∧ m.build.IsConsistent := by
  have hafter : (Grammar.nouns.after [⟨.comNoun, none, none⟩, ⟨.comNoun, none, none⟩] 2).moment?.any
      (fun m => m.last = some 1 ∧ m.column = 1 ∧ m.grammar.widenings = 1 ∧ m.builds 1 = [0]) =
        true := by
    decide +kernel
  obtain ⟨m, hm, hmatch⟩ := (Option.any_eq_true _ _).mp hafter
  obtain ⟨es, hes⟩ := Progress.moment?_eq_some.mp hm
  obtain ⟨hlast, hcolumn, hwidenings, hbuilds⟩ := of_decide_eq_true hmatch
  exact ⟨es, m, hes, hlast, hcolumn, hwidenings, hbuilds,
    (consistent_before_and_after_build Grammar.nouns _).2 2 es m hes⟩

end NounPhrase
