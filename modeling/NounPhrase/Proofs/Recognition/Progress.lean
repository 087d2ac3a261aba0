import NounPhrase.Proofs.FirstTable.Viable
import NounPhrase.Proofs.Recognition.Consistency
import NounPhrase.Proofs.Recognition.Ledger

/-!
# Recovery makes progress

When a pass stops before an empty column, the sentence rule is widened and the column of the token
that is to blame is built again. A sentence item that was complete there waits for the recovery
symbol now. If that can begin with the token, then the rules that lead to it are started, behind
symbols that vanish as well, since the first sets admit them; so an item waits for the token and is
carried over. The column that was empty has items, and an attempt that comes to another empty column
comes to it further on.

## Main definitions

* `Moment.IsBeyond`: an attempt has come beyond a token that it has blamed.

## Main results

* `WidenedGrammar.Closed.exists_waiting_of_begins`: if the symbols behind a dot can begin with the
  next terminal, then an item of the closed column waits for it.
* `Moment.column_rebuilt_ne_nil`: the column that was empty has items after recovery.
* `recovery_progresses`: recovery makes progress where the recovery symbol can begin with the token.
-/

namespace NounPhrase

/-! ### Items of a closed column -/

namespace WidenedGrammar.Closed

variable {w : WidenedGrammar} {t : Terminal} {k : Nat} {s : ParseState} {p : Item}
  {α γ : List Symbol}

/-- A rule is started where an item waits for it, if it is admitted. -/
theorem start_mem_column (h : w.Closed w.grammar.admits t k s) (hp : p ∈ s.chart.column k)
    {n : Nonterminal} {β : List Symbol} (hwait : w.next? p = some (.nonterminal n))
    (hr : w.IsRule n β) (hadmits : w.grammar.admits t β) :
    ∃ id r, w.rule? id = some r ∧ r.lhs = n ∧ r.rhs = β ∧ .start id k ∈ s.chart.column k := by
  obtain ⟨id, r, hrule, rfl, rfl⟩ := hr.exists_rule?
  refine ⟨id, r, hrule, rfl, rfl, h.predicted p hp _ hwait id (List.mem_filter.mpr ⟨?_, ?_⟩)⟩
  · exact mem_rulesFor.mpr ⟨r, hrule, rfl⟩
  · exact (rhs_eq_of_rule? hrule).symm ▸ hadmits

/-- An item moves over symbols that vanish. -/
theorem mem_column_of_yields_nil (h : w.Closed w.grammar.admits t k s)
    (hα : Yields w.IsRule α []) (hp : p ∈ s.chart.column k)
    (hrhs : (w.rhs p.rule).drop p.dot = α ++ γ) :
    { p with dot := p.dot + α.length } ∈ s.chart.column k := by
  induction hα using Yields.vanishing_induction generalizing p γ with
  | nil => exact hp
  | nonterminal hr hβ _ ihβ ihα =>
    obtain ⟨hwait, hbehind⟩ := next?_of_drop_eq_cons hrhs
    obtain ⟨id, r, hrule, rfl, rfl, hstart⟩ :=
      h.start_mem_column hp hwait hr (admits_of_yields hβ (.inl rfl))
    have hcomplete := ihβ (γ := []) hstart (by simp [Item.start, rhs_eq_of_rule? hrule])
    have hadv := (h.advanced hcomplete (Nat.ne_of_lt (Nat.lt_succ_self k)) hp
      (completed?_eq_some.mpr ⟨by simp [Item.start, rhs_eq_of_rule? hrule], r, hrule, rfl⟩) hwait).1
    have := ihα hadv hbehind
    simpa only [Item.rule_advance, Item.dot_advance, Item.origin_advance, List.length_cons,
      Nat.add_assoc, Nat.add_comm 1] using this

/-- If the symbols behind the dot of an item can begin with the next terminal, then some item of the
column waits for it. -/
theorem exists_waiting_of_begins (h : w.Closed w.grammar.admits t k s)
    (hα : Begins w.IsRule α t) (hp : p ∈ s.chart.column k)
    (hrhs : (w.rhs p.rule).drop p.dot = α ++ γ) :
    ∃ q ∈ s.chart.column k, w.next? q = some (.terminal t) := by
  induction hα generalizing p γ with
  | terminal t α => exact ⟨p, hp, (next?_of_drop_eq_cons hrhs).1⟩
  | nonterminal hr hβ α ih =>
    obtain ⟨id, r, hrule, rfl, rfl, hstart⟩ :=
      h.start_mem_column hp (next?_of_drop_eq_cons hrhs).1 hr (admits_of_begins hβ)
    exact ih h (γ := []) hstart (by simp [Item.start, rhs_eq_of_rule? hrule])
  | @vanishing n α β t hr hβ _ ih =>
    have hadv := h.mem_column_of_yields_nil (.single hr hβ) hp (γ := α ++ γ) hrhs
    exact ih h (p := p.advance) hadv (next?_of_drop_eq_cons hrhs).2

end WidenedGrammar.Closed

/-- A sentence item that is complete waits for the recovery symbol when the sentence rule is wider
by one. -/
theorem WidenedGrammar.drop_widen_of_next?_eq_none {w : WidenedGrammar} {i : Item}
    (hrule : i.rule = Grammar.entryId) (hdot : i.dot ≤ (w.rhs i.rule).length)
    (hcomplete : w.next? i = none) :
    (w.widen.rhs i.rule).drop i.dot = [.nonterminal w.grammar.recovery] := by
  have hlength := next?_eq_none_iff.mp hcomplete
  rw [hrule, rhs_entryId] at hdot hlength
  have hentry : w.widen.entry.rhs = w.entry.rhs ++ [.nonterminal w.grammar.recovery] := by
    simp [entry, widen, List.replicate_succ']
  rw [hrule, rhs_entryId, hentry, Nat.le_antisymm hdot hlength, List.drop_left]

namespace Moment

variable {g : Grammar} {tokens : List Token} {n : Nat} {es : List Event} {m m' : Moment} {b : Nat}

/-! ### The column that was empty -/

/-- Where a pass stops before an empty column and the word is a new one, recovery goes on with the
column of the moment. -/
theorem after_succ_eq_recovered (h : g.after tokens n = .moment es m)
    (hlt : m.column < m.tokens.length) (hempty : m.build.state.chart.column (m.column + 1) = [])
    (hword : m.last.map (wordAt m.tokens) ≠ some (wordAt m.tokens m.column)) :
    ∃ es', g.after tokens (n + 1) = .moment es' (m.build.recovered m.column) := by
  have hrecover : m.build.recover m.column =
      .moment [.widened (m.column + 1) m.grammar.widen.entryLength] (m.build.recovered m.column) :=
    if_neg hword
  have hnext : g.after tokens (n + 1) = m.step.log es := by
    rw [Grammar.after, Function.iterate_succ_apply', ← Grammar.after, h]
    rfl
  rw [hnext, step, if_pos hlt, if_pos hempty, conclude, hrecover]
  exact ⟨_, rfl⟩

/-- After recovery the column that was empty has items, if a sentence item was complete in the
column of the token and the recovery symbol can begin with the token. -/
theorem column_rebuilt_ne_nil (h : g.after tokens n = .moment es m) {i : Item}
    (hi : i ∈ m.build.state.chart.column m.column) (hrule : i.rule = Grammar.entryId)
    (hcomplete : m.grammar.next? i = none)
    (hbegins : Begins m.grammar.widen.IsRule [.nonterminal g.recovery] m.lookahead) :
    (m.build.recovered m.column).build.state.chart.column (m.column + 1) ≠ [] := by
  have hitem := ((isConsistent_of_after h).build (isOf_of_after h)).linked.items m.column i hi
  have hclosed : m.grammar.widen.Closed m.grammar.grammar.admits m.lookahead m.column
      (m.build.recovered m.column).build.state :=
    ParseState.closed_build ..
  have hkept : i ∈ (m.build.recovered m.column).build.state.chart.column m.column :=
    (ParseState.extends_build _ _ _ _ _).mem_column
      (ParseState.mem_column_rollback.mpr ⟨Nat.lt_succ_self _, hi⟩)
  have hdrop : (m.grammar.widen.rhs i.rule).drop i.dot =
      [.nonterminal m.grammar.grammar.recovery] :=
    WidenedGrammar.drop_widen_of_next?_eq_none hrule hitem.dot_le hcomplete
  rw [(isOf_of_after h).grammar_eq] at hdrop
  obtain ⟨q, hq, hwait⟩ := hclosed.exists_waiting_of_begins hbegins hkept hdrop
  exact List.ne_nil_of_mem (hclosed.scanned q hq hwait)

/-! ### The rest of the attempt -/

/-- The attempt has come beyond token `b`, and has blamed it or a later one last. -/
def IsBeyond (b : Nat) (m : Moment) : Prop := b < m.column ∧ ∃ l, m.last = some l ∧ b ≤ l

/-- An attempt that has come beyond a token does not go back to it. Only the last token is blamed
from behind it, and if it has been blamed before, its word is not a new one. -/
theorem IsBeyond.step (hm : m.IsOf g tokens) (hb : m.IsBeyond b) (h : m.step = .moment es m') :
    m'.tokens = m.tokens ∧ m'.IsBeyond b ∨ m'.tokens = m.tokens.dropLast := by
  obtain ⟨hcolumn, l, hlast, hbl⟩ := hb
  rcases step_cases h with ⟨rfl, -⟩ | ⟨b', hb', -, hword, rfl⟩ | ⟨-, rfl⟩
  · exact .inl ⟨rfl, Nat.lt_succ_of_lt hcolumn, l, hlast, hbl⟩
  · have hlt := hm.last_lt l hlast
    have hne : l ≠ b' := by
      rintro rfl
      exact hword (by rw [hlast]; rfl)
    have hle := hm.column_le
    have : b < b' := by
      unfold Blames at hb'
      omega
    exact .inl ⟨rfl, this, b', rfl, Nat.le_of_lt this⟩
  · exact .inr rfl

/-- After recovery an attempt either is about to build the column of the token again, or has come
beyond the token, if the column behind it has items this time. -/
theorem isBeyond_of_after (h : g.after tokens n = .moment es m)
    (hnext : ∃ es', g.after tokens (n + 1) = .moment es' (m.build.recovered m.column))
    (hrebuilt : (m.build.recovered m.column).build.state.chart.column (m.column + 1) ≠ [])
    {n' : Nat} {es' : List Event} (hn : n < n') (h' : g.after tokens n' = .moment es' m')
    (htokens : m'.tokens = m.tokens) :
    m' = m.build.recovered m.column ∨ m'.IsBeyond m.column := by
  have hne : m.tokens ≠ [] := (isOf_of_after h).ne_nil
  -- an attempt on fewer tokens goes on with fewer tokens
  suffices m'.tokens.length < m.tokens.length ∨ m'.tokens = m.tokens ∧
      (m' = m.build.recovered m.column ∨ m'.IsBeyond m.column) by
    refine (this.resolve_left fun hlt => ?_).2
    rw [htokens] at hlt
    exact Nat.lt_irrefl _ hlt
  clear htokens
  induction n', hn using Nat.le_induction generalizing es' m' with
  | base =>
    obtain ⟨_, hnext⟩ := hnext
    obtain rfl := (Progress.moment.inj (hnext.symm.trans h')).2
    exact .inr ⟨rfl, .inl rfl⟩
  | succ n' hn ih =>
    obtain ⟨_, m₁, _, h₁, hstep⟩ := exists_step_of_after_succ h'
    have hdrop {ts : List Token} (hlength : ts.length ≤ m.tokens.length) :
        ts.dropLast.length < m.tokens.length := by
      have := List.length_pos_iff.mpr hne
      rw [List.length_dropLast]
      omega
    rcases ih h₁ with hlt | ⟨htokens, rfl | hbeyond⟩
    · refine .inl ?_
      rcases step_eq_moment hstep with ⟨rfl, -⟩ | ⟨_, -, rfl⟩ | ⟨-, rfl⟩
      · exact hlt
      · exact hlt
      · exact hdrop (Nat.le_of_lt hlt)
    · rcases step_cases hstep with ⟨rfl, -⟩ | ⟨_, -, hnil, -⟩ | ⟨-, rfl⟩
      · exact .inr ⟨rfl, .inr ⟨Nat.lt_succ_self _, m.column, rfl, Nat.le_refl _⟩⟩
      · have hlt := (isOf_of_after h₁).last_lt m.column rfl
        exact absurd (hnil hlt) hrebuilt
      · exact .inl (hdrop (Nat.le_refl _))
    · rcases hbeyond.step (isOf_of_after h₁) hstep with ⟨htokens', hbeyond⟩ | htokens'
      · exact .inr ⟨htokens'.trans htokens, .inr hbeyond⟩
      · rw [htokens', htokens]
        exact .inl (hdrop (Nat.le_refl _))

end Moment

/-- Let a recognition fail at an empty column behind a token whose word is not the one blamed last.
If a sentence item is complete in the column of the token, and in the grammar with the sentence rule
wider by one the recovery symbol derives a string of symbols that begins with the token, then the
column has items when the column of the token has been built again. As long as no token is dropped,
a recognition fails at an empty column only further on. -/
theorem recovery_progresses (g : Grammar) (tokens : List Token) {n : Nat} {es : List Event}
    {m : Moment} (h : g.after tokens n = .moment es m) {f : Failure}
    (hf : f ∈ failures m.step.events) (hempty : m.build.state.chart.column f.column = [])
    {token : Token} (htoken : m.tokens[f.column - 1]? = some token)
    (hword : m.last.map (wordAt m.tokens) ≠ some token.word) {i : Item}
    (hi : i ∈ m.build.state.chart.column (f.column - 1)) (hrule : i.rule = Grammar.entryId)
    (hcomplete : m.grammar.next? i = none)
    {x : List (ContextFreeGrammar.Letter Terminal Nonterminal)}
    (hderives : m.grammar.widen.contextFree.Derives [.nonterminal g.recovery]
      (.terminal token.terminal :: x)) :
    (∃ es', g.after tokens (n + 1) = .moment es' (m.build.recovered (f.column - 1))) ∧
      (m.build.recovered (f.column - 1)).build.state.chart.column f.column ≠ [] ∧
      ∀ n' es' m', n < n' → g.after tokens n' = .moment es' m' → m'.tokens = m.tokens →
        ∀ f' ∈ failures m'.step.events, m'.build.state.chart.column f'.column = [] →
          f.column < f'.column := by
  obtain ⟨b, hb, hcolumn⟩ := Moment.exists_blames_of_mem_failures hf
  rw [hcolumn] at hempty
  obtain rfl := Moment.eq_column_of_blames h hb hempty
  rw [hcolumn, Nat.add_sub_cancel] at htoken hi ⊢
  have hlt : m.column < m.tokens.length := (List.getElem?_eq_some_iff.mp htoken).1
  have hlookahead : m.lookahead = token.terminal := by rw [Moment.lookahead, htoken]; rfl
  have hwordAt : wordAt m.tokens m.column = token.word := by rw [wordAt, htoken]; rfl
  have hbegins : Begins m.grammar.widen.IsRule [.nonterminal g.recovery] m.lookahead :=
    hlookahead ▸ WidenedGrammar.begins_of_derives (α := [.nonterminal g.recovery]) hderives
  have hnext := Moment.after_succ_eq_recovered h hlt hempty (hwordAt ▸ hword)
  have hrebuilt := Moment.column_rebuilt_ne_nil h hi hrule hcomplete hbegins
  refine ⟨hnext, hrebuilt, fun n' es' m' hn h' htokens f' hf' hnil => ?_⟩
  obtain ⟨b', hb', hcolumn'⟩ := Moment.exists_blames_of_mem_failures hf'
  rw [hcolumn'] at hnil ⊢
  obtain rfl := Moment.eq_column_of_blames h' hb' hnil
  rcases Moment.isBeyond_of_after h hnext hrebuilt hn h' htokens with rfl | hbeyond
  · exact absurd hnil hrebuilt
  · exact Nat.succ_lt_succ hbeyond.1

/-- The second of three nouns is too much for a sentence of one noun, and not for one of two. When
the column between them has been built again, the second noun is carried over. -/
theorem recovery_progresses_nouns :
    ∃ es m, ∃ f ∈ failures m.step.events, Grammar.nouns.after [⟨.comNoun, some "by", none⟩,
        ⟨.comNoun, some "hus", none⟩, ⟨.comNoun, some "bil", none⟩] 1 = .moment es m ∧
      f.column = 2 ∧ m.build.state.chart.column f.column = [] ∧
      (m.build.recovered (f.column - 1)).build.state.chart.column f.column ≠ [] ∧
      ∀ n' es' m', 1 < n' → Grammar.nouns.after [⟨.comNoun, some "by", none⟩,
          ⟨.comNoun, some "hus", none⟩, ⟨.comNoun, some "bil", none⟩] n' = .moment es' m' →
        m'.tokens = m.tokens → ∀ f' ∈ failures m'.step.events,
          m'.build.state.chart.column f'.column = [] → f.column < f'.column := by
  have hafter : (Grammar.nouns.after [⟨.comNoun, some "by", none⟩, ⟨.comNoun, some "hus", none⟩,
      ⟨.comNoun, some "bil", none⟩] 1).moment?.any (fun m => m.last = none ∧
        m.tokens[1]? = some ⟨.comNoun, some "hus", none⟩ ∧
        (∃ f ∈ failures m.step.events, f.column = 2) ∧ m.build.state.chart.column 2 = [] ∧
        ⟨Grammar.entryId, 1, 0⟩ ∈ m.build.state.chart.column 1 ∧
        m.grammar.next? ⟨Grammar.entryId, 1, 0⟩ = none) = true := by
    decide +kernel
  obtain ⟨m, hm, hmatch⟩ := (Option.any_eq_true _ _).mp hafter
  obtain ⟨es, hes⟩ := Progress.moment?_eq_some.mp hm
  obtain ⟨hlast, htoken, ⟨f, hf, hcolumn⟩, hempty, hi, hcomplete⟩ := of_decide_eq_true hmatch
  have hgrammar : m.grammar.widen.grammar = Grammar.nouns := (isOf_of_after hes).grammar_eq
  have hrule : m.grammar.widen.IsRule .comNounS [.terminal .comNoun] :=
    WidenedGrammar.isRule_of_mem_others (r := ⟨.comNounS, [.terminal .comNoun], .word⟩)
      (hgrammar ▸ by decide)
  have hderives : m.grammar.widen.contextFree.Derives [.nonterminal Grammar.nouns.recovery]
      [.terminal .comNoun] :=
    hrule.produces.single
  have hempty : m.build.state.chart.column f.column = [] := hcolumn ▸ hempty
  have htoken : m.tokens[f.column - 1]? = some ⟨.comNoun, some "hus", none⟩ := hcolumn ▸ htoken
  have hi : ⟨Grammar.entryId, 1, 0⟩ ∈ m.build.state.chart.column (f.column - 1) := hcolumn ▸ hi
  exact ⟨es, m, f, hf, hes, hcolumn, hempty, (recovery_progresses Grammar.nouns _ hes hf hempty
    htoken (by simp [hlast]) hi rfl hcomplete hderives).2⟩

end NounPhrase
