import NounPhrase.Proofs.Derivation.Productive
import NounPhrase.Proofs.Recognition.Consistency
import NounPhrase.Proofs.Recognition.Exactness
import NounPhrase.Proofs.Recognition.Ledger

/-!
# A failure comes with the first token that is wrong

A fresh pass has items in a column if and only if the tokens before that column begin a sentence,
closed by the end marker, of the grammar at its width. It does not wait until a token that no
sentence can continue with has done harm.

That a column has items where a sentence goes on is completeness for a part of a derivation: the
rules that are open where the tokens end have been started, although the pass has seen other tokens
behind them than the sentence has. A column looks ahead by one terminal only, and this one belongs
to the common part.

The converse needs that every item is called for: whatever its nonterminal yields can stand behind
the tokens before its origin. The items that have called for it leave symbols to be completed behind
their dots, and these can be completed in a grammar without dead ends. So the tokens before the
column begin a sentence.

## Main definitions

* `WidenedGrammar.IsViable`: the terminals begin a word of the language.
* `ParseState.IsCalledFor`: whatever the nonterminals of the items yield can stand where they began.

## Main results

* `ParseState.IsCalledFor.build`: building a column starts only rules that are called for.
* `WidenedGrammar.BuiltTo.column_ne_nil_of_yields`: an item moves on within what its symbols yield.
* `WidenedGrammar.BuiltTo.column_ne_nil_iff`: a column has items if and only if the input before it
  begins a word of the language.
* `viable_until_failure`: the same for fresh passes, and the first failure of an attempt.
-/

namespace NounPhrase

/-- The terminals are the beginning of a word of the language. -/
def WidenedGrammar.IsViable (w : WidenedGrammar) (v : List Terminal) : Prop :=
  ∃ u, v ++ u ∈ w.contextFree.language

namespace WidenedGrammar

variable {w : WidenedGrammar} {u v : List Terminal}

theorem isViable_iff : w.IsViable v ↔ ∃ u, Yields w.IsRule [.nonterminal .start] (v ++ u) :=
  exists_congr fun _ => (ContextFreeGrammar.mem_language_iff _ _).trans
    (derives_iff_yields (α := [.nonterminal .start]))

theorem IsViable.of_append (h : w.IsViable (v ++ u)) : w.IsViable v := by
  obtain ⟨x, hx⟩ := h
  exact ⟨u ++ x, by rwa [← List.append_assoc]⟩

end WidenedGrammar

/-! ### What an item is called for -/

/-- A stretch that begins where the others end. -/
theorem take_append_between {input : List Terminal} {i k : Nat} (hik : i ≤ k) :
    input.take i ++ between input i k = input.take k := by
  have h : between input 0 i ++ between input i k = between input 0 k :=
    between_append_between (Nat.zero_le i) hik
  simpa only [between, List.drop_zero, Nat.sub_zero] using h

namespace ParseState

variable {w : WidenedGrammar} {input : List Terminal} {s : ParseState}

/-- Whatever the nonterminal of an item yields can stand behind the input before its origin. -/
def IsCalledFor (w : WidenedGrammar) (input : List Terminal) (s : ParseState) : Prop :=
  ∀ k, ∀ i ∈ s.chart.column k, ∃ r, w.rule? i.rule = some r ∧
    ∀ v, Yields w.IsRule [.nonterminal r.lhs] v → w.IsViable (input.take i.origin ++ v)

theorem isCalledFor_initial (w : WidenedGrammar) (input : List Terminal) :
    (initial w).IsCalledFor w input := by
  intro k i hi
  obtain ⟨rfl, rfl⟩ := mem_column_initial.mp hi
  refine ⟨_, w.rule?_startId, fun v hv => WidenedGrammar.isViable_iff.mpr ⟨[], ?_⟩⟩
  rw [List.append_nil]
  exact hv

namespace IsCalledFor

/-- What the symbols behind the dot of an item yield can stand behind the input before its
column. -/
theorem isViable (h : s.IsCalledFor w input) (hsound : s.IsSound w.IsRule w input) {k : Nat}
    {i : Item} (hi : i ∈ s.chart.column k) {v : List Terminal}
    (hv : Yields w.IsRule ((w.rhs i.rule).drop i.dot) v) : w.IsViable (input.take k ++ v) := by
  obtain ⟨r, hr, hviable⟩ := h k i hi
  obtain ⟨horigin, hyields⟩ := hsound k i hi
  have hall : Yields w.IsRule (w.rhs i.rule) (between input i.origin k ++ v) := by
    have := hyields.append hv
    rwa [List.take_append_drop] at this
  have := hviable _ (.single (WidenedGrammar.isRule_of_rule? hr) hall)
  rwa [← List.append_assoc, take_append_between horigin] at this

/-- An allowed move starts only a rule that is called for. -/
theorem apply {admits : Terminal → List Symbol → Bool} {lookahead : Terminal} {k : Nat} {m : Move}
    (hproductive : w.grammar.IsProductive) (hsound : s.IsSound w.IsRule w input)
    (h : s.IsCalledFor w input) (hm : w.Allows admits lookahead k s.chart m) :
    (s.apply k m).IsCalledFor w input := by
  intro j i hi
  cases m with
  | advance p c =>
    rcases Chart.mem_column_add.mp hi with hi | ⟨rfl, rfl⟩
    · exact h j i hi
    · exact h _ p hm.2.1
  | start id =>
    rcases Chart.mem_column_add.mp hi with hi | ⟨rfl, rfl⟩
    · exact h j i hi
    obtain ⟨p, hp, n, hnext, hid⟩ := hm
    obtain ⟨r, hr, rfl⟩ := WidenedGrammar.mem_rulesFor.mp (List.mem_filter.mp hid).1
    refine ⟨r, hr, fun v hv => ?_⟩
    -- the symbols behind the nonterminal in the rule that waits for it can be completed
    obtain ⟨u, hu⟩ := hproductive.exists_yields_drop p.rule (p.dot + 1)
    have hrest : (w.rhs p.rule).drop p.dot =
        .nonterminal r.lhs :: (w.rhs p.rule).drop (p.dot + 1) := by
      obtain ⟨hlt, hget⟩ := List.getElem?_eq_some_iff.mp hnext
      rw [List.drop_eq_getElem_cons hlt, hget]
    have := h.isViable hsound hp (v := v ++ u) (hrest ▸ hv.append hu)
    rw [← List.append_assoc] at this
    exact this.of_append
  | scan p =>
    rcases Chart.mem_column_add.mp hi with hi | ⟨rfl, rfl⟩
    · exact h j i hi
    · exact h _ p hm.1

/-- Building a column starts only rules that are called for. -/
theorem build {admits : Terminal → List Symbol → Bool} {lookahead : Terminal} {k : Nat}
    (hproductive : w.grammar.IsProductive) (hk : input[k]? = some lookahead)
    (hsound : s.IsSound w.IsRule w input) (h : s.IsCalledFor w input) :
    (s.build w admits lookahead k).IsCalledFor w input := by
  refine (build_induction (P := fun s => s.IsSound w.IsRule w input ∧ s.IsCalledFor w input)
    (fun s m hs hm => ⟨hs.1.apply (fun _ _ hr => hr) hk hm, hs.2.apply hproductive hs.1 hm⟩)
    ⟨fun j i hi => ?_, fun j i hi => ?_⟩).2
  · exact hsound j i (by rwa [column_opened] at hi)
  · exact h j i (by rwa [column_opened] at hi)

end IsCalledFor

end ParseState

/-! ### Columns with items -/

namespace WidenedGrammar

variable {w : WidenedGrammar} {admits : Terminal → List Symbol → Bool} {input : List Terminal}
  {k : Nat} {s : ParseState}

namespace BuiltTo

/-- If the input goes on with some beginning of what the symbols behind the dot of an item yield,
then there are items behind it. -/
theorem column_ne_nil_of_yields (h : w.BuiltTo w.grammar.admits input input.length s)
    {α : List Symbol} {v : List Terminal} (hα : Yields w.IsRule α v) {i : Nat} {p : Item}
    {γ : List Symbol} {u x rest : List Terminal} (hp : p ∈ s.chart.column i)
    (hrhs : (w.rhs p.rule).drop p.dot = α ++ γ) (hv : v = u ++ x) (hu : u ≠ [])
    (hinput : input.drop i = u ++ rest) : s.chart.column (i + u.length) ≠ [] := by
  induction hα generalizing i p γ u x rest with
  | nil => exact absurd (List.append_eq_nil_iff.mp hv.symm).1 hu
  | @terminal t α v hα ih =>
    obtain ⟨hwait, hbehind⟩ := next?_of_drop_eq_cons hrhs
    obtain ⟨t', u, rfl⟩ := List.exists_cons_of_ne_nil hu
    obtain ⟨rfl, htail⟩ := List.cons.inj hv
    have hadv : p.advance ∈ s.chart.column (i + 1) :=
      (h.closed_of_drop_eq_cons hinput).scanned p hp hwait
    cases u with
    | nil => exact List.ne_nil_of_mem hadv
    | cons t' u =>
      have hdrop : input.drop (i + 1) = t' :: u ++ rest := drop_add_length (u := [t]) hinput
      have := ih hadv hbehind htail (List.cons_ne_nil t' u) hdrop
      rwa [List.length_cons, Nat.add_comm (t' :: u).length, ← Nat.add_assoc]
  | @nonterminal n α β y z hr hβ hα ihβ ihα =>
    obtain ⟨hwait, hbehind⟩ := next?_of_drop_eq_cons hrhs
    have hn : Yields w.IsRule [.nonterminal n] y := yields_nonterminal_iff.mpr ⟨β, hr, hβ⟩
    obtain ⟨id, r, hrule, rfl, rfl⟩ := hr.exists_rule?
    -- the rule is started for the first terminal of `u`, which the input and the yield share
    obtain ⟨t, u', hcons⟩ := List.exists_cons_of_ne_nil hu
    have hstart : Item.start id i ∈ s.chart.column i := by
      refine h.start_mem_column hp hrule hwait hβ (hinput.trans (by rw [hcons]; rfl)) ?_
      cases y with
      | nil => exact .inl rfl
      | cons t' y =>
        rw [hcons] at hv
        exact .inr (congrArg some (List.cons.inj hv).1)
    have hstart_rhs : (w.rhs id).drop 0 = r.rhs ++ [] := by
      rw [rhs_eq_of_rule? hrule, List.append_nil]
      rfl
    have hwithin {c : List Terminal} (hy : y = u ++ c) : s.chart.column (i + u.length) ≠ [] :=
      ihβ hstart hstart_rhs hy hu hinput
    -- `u` ends within what the rule yields, or goes on behind it
    rcases List.append_eq_append_iff.mp hv with ⟨a, rfl, hz⟩ | ⟨c, hy, -⟩
    · by_cases ha : a = []
      · subst ha
        exact hwithin (c := []) (by simp)
      rw [List.append_assoc] at hinput
      have hne : a ++ rest ≠ [] := fun hnil => ha (List.append_eq_nil_iff.mp hnil).1
      have hadv : p.advance ∈ s.chart.column (i + y.length) :=
        h.mem_column_of_yields hn hp hrhs hinput hne
      have := ihα hadv hbehind hz ha (drop_add_length hinput)
      rwa [List.length_append, ← Nat.add_assoc]
    · exact hwithin hy

/-- In a chart that has been built to the end of the input, a column has items if and only if the
input before it is the beginning of a word of the language. -/
theorem column_ne_nil_iff (h : w.BuiltTo w.grammar.admits input input.length s)
    (hproductive : w.grammar.IsProductive) (hcalled : s.IsCalledFor w input)
    (hk : k ≤ input.length) : s.chart.column k ≠ [] ↔ w.IsViable (input.take k) := by
  constructor
  · intro hne
    obtain ⟨i, hi⟩ := List.exists_mem_of_ne_nil _ hne
    obtain ⟨u, hu⟩ := hproductive.exists_yields_drop i.rule i.dot
    exact (hcalled.isViable h.sound hi hu).of_append
  · intro hviable
    by_cases hne : input.take k = []
    · obtain rfl : k = 0 := by
        have := congrArg List.length hne
        rw [List.length_take, List.length_nil] at this
        omega
      exact List.ne_nil_of_mem h.start
    obtain ⟨u, hu⟩ := isViable_iff.mp hviable
    obtain ⟨β, hβ, hyields⟩ := yields_nonterminal_iff.mp hu
    obtain rfl := eq_start_of_isRule hβ
    have hinput : input.drop 0 = input.take k ++ input.drop k :=
      (List.take_append_drop k input).symm
    have := h.column_ne_nil_of_yields (γ := []) hyields h.start (by simp [startItem, Item.start])
      rfl hne hinput
    rwa [List.length_take, Nat.min_eq_left hk, Nat.zero_add] at this

end BuiltTo

/-- A pass starts only rules that are called for. -/
theorem isCalledFor_pass {rest : List Token} (hproductive : w.grammar.IsProductive)
    (hsound : s.IsSound w.IsRule w input) (h : s.IsCalledFor w input)
    (hinput : input.drop k = inputTerminals rest) :
    (pass w admits k s rest).state.IsCalledFor w input := by
  have hget : input[k]? = (inputTerminals rest).head? := by rw [← List.head?_drop, hinput]
  induction rest generalizing k s with
  | nil => exact h.build hproductive hget hsound
  | cons token rest ih =>
    have hbuild : (s.build w admits token.terminal k).IsCalledFor w input :=
      h.build hproductive hget hsound
    have hdrop : input.drop (k + 1) = inputTerminals rest :=
      drop_add_length (u := [token.terminal]) hinput
    rw [pass]
    split
    · exact hbuild
    · exact ih (hsound.build (fun _ _ hr => hr) hget) hbuild hdrop
        (by rw [← List.head?_drop, hdrop])

end WidenedGrammar

/-- The terminals of the first tokens are the beginning of the input. -/
theorem take_inputTerminals {tokens : List Token} {k : Nat} (hk : k ≤ tokens.length) :
    (inputTerminals tokens).take k = (tokens.take k).map Token.terminal := by
  rw [inputTerminals_eq, List.take_append_of_le_length (by simpa using hk), List.map_take]

/-- In a chart that has been built for all tokens, a column has items if and only if the tokens
before it are the beginning of a word of the language. -/
theorem WidenedGrammar.BuiltTo.column_ne_nil_iff_tokens {w : WidenedGrammar} {tokens : List Token}
    {s : ParseState}
    (h : w.BuiltTo w.grammar.admits (inputTerminals tokens) (inputTerminals tokens).length s)
    (hproductive : w.grammar.IsProductive) (hcalled : s.IsCalledFor w (inputTerminals tokens))
    {k : Nat} (hk : k ≤ tokens.length) :
    s.chart.column k ≠ [] ↔ w.IsViable ((tokens.take k).map Token.terminal) := by
  rw [← take_inputTerminals hk]
  refine h.column_ne_nil_iff hproductive hcalled ?_
  rw [length_inputTerminals]
  exact Nat.le_succ_of_le hk

/-- A fresh pass finds items for a column if and only if the tokens before it are the beginning of
a word of the language. -/
theorem column_pass_ne_nil_iff {w : WidenedGrammar} (hproductive : w.grammar.IsProductive)
    (tokens : List Token) {k : Nat} (hk : k ≤ tokens.length) :
    (pass w w.grammar.admits 0 (.initial w) tokens).state.chart.column k ≠ [] ↔
      w.IsViable ((tokens.take k).map Token.terminal) := by
  have hinitial := WidenedGrammar.BuiltTo.initial w w.grammar.admits (inputTerminals tokens)
  have hdrop : (inputTerminals tokens).drop 0 = inputTerminals tokens := rfl
  have hcalled : (pass w w.grammar.admits 0 (.initial w) tokens).state.IsCalledFor w
      (inputTerminals tokens) :=
    WidenedGrammar.isCalledFor_pass hproductive hinitial.sound (ParseState.isCalledFor_initial w _)
      hdrop
  have hbuilt := (WidenedGrammar.builtTo_pass hinitial hdrop).1
  exact hbuilt.column_ne_nil_iff_tokens hproductive hcalled hk

/-! ### The first failure of an attempt -/

namespace Moment

variable {g : Grammar} {tokens : List Token} {n : Nat} {es : List Event} {m : Moment}

/-- The columns before that of the moment have been built for its tokens, beginning with the start
item, and their items are called for. -/
structure IsFresh (m : Moment) : Prop where
  built : m.grammar.BuiltTo m.grammar.grammar.admits (inputTerminals m.tokens) m.column m.state
  called : m.state.IsCalledFor m.grammar (inputTerminals m.tokens)

theorem IsFresh.next (h : m.IsFresh) (hm : m.IsOf g tokens) (hproductive : g.IsProductive) :
    m.build.next.IsFresh := by
  have hget := getElem?_inputTerminals hm
  have hproductive : m.grammar.grammar.IsProductive := hm.grammar_eq.symm ▸ hproductive
  exact ⟨h.built.build hget, h.called.build hproductive hget h.built.sound⟩

/-- As long as an attempt has not blamed a token, its columns are those of a fresh pass. -/
theorem isFresh_of_after (hproductive : g.IsProductive) (h : g.after tokens n = .moment es m)
    (hlast : m.last = none) : m.IsFresh := by
  revert hlast
  refine after_induction (P := fun m => m.last = none → m.IsFresh) (fun w ts _ _ => ?_)
    (fun n es m hm hfresh hlast => ?_) (fun _ _ _ _ _ _ hlast => ?_) h
  · exact ⟨.initial .., ParseState.isCalledFor_initial _ _⟩
  · exact (hfresh hlast).next (isOf_of_after hm) hproductive
  · simp [recovered] at hlast

/-- If the first failure of an attempt is a column without items, then the tokens before the one
that is to blame are the beginning of a word of the language, and with that one they are not. -/
theorem isViable_of_mem_failures (hproductive : g.IsProductive)
    (h : g.after tokens n = .moment es m) (hlast : m.last = none) {f : Failure}
    (hf : f ∈ failures m.step.events) (hnil : m.build.state.chart.column f.column = []) :
    m.grammar.IsViable ((m.tokens.take (f.column - 1)).map Token.terminal) ∧
      ¬ m.grammar.IsViable ((m.tokens.take f.column).map Token.terminal) := by
  obtain ⟨b, hb, hcolumn⟩ := exists_blames_of_mem_failures hf
  rw [hcolumn] at hnil ⊢
  obtain rfl := eq_column_of_blames h hb hnil
  have hm := isOf_of_after h
  have hlt := (hm.lt_of_blames hb).2
  obtain ⟨hbuilt, hcalled⟩ := (isFresh_of_after hproductive h hlast).next hm hproductive
  -- behind the column without items nothing is left to build
  have hend := hbuilt.of_column_eq_nil hnil
    (show m.column + 1 ≤ (inputTerminals m.tokens).length by rw [length_inputTerminals]; omega)
  have hiff {k : Nat} (hk : k ≤ m.tokens.length) :=
    hend.column_ne_nil_iff_tokens (hm.grammar_eq.symm ▸ hproductive) hcalled hk
  have hne := column_build_ne_nil (column_ne_nil_of_after h m.column (Nat.le_refl _))
  exact ⟨(hiff hm.column_le).mp hne, fun hviable => (hiff hlt).mpr hviable hnil⟩

end Moment

/-- Let every nonterminal derive a string of terminals. Whatever the width of the sentence rule, a
fresh pass reaches a column and finds items for it if and only if the tokens before the column are
the beginning of a word of the language. So if the first failure of an attempt is a column without
items, then the tokens before the one that is to blame can be continued, and with that token they
can no longer be. -/
theorem viable_until_failure (g : Grammar) (hproductive : g.IsProductive) :
    (∀ (n : Nat) (tokens : List Token) (k : Nat), k ≤ tokens.length →
      ((∀ j ≤ k, (pass (g.widened n) g.admits 0 (.initial (g.widened n)) tokens).state.chart.column
          j ≠ []) ↔
        (g.widened n).IsViable ((tokens.take k).map Token.terminal))) ∧
    ∀ tokens n es m, g.after tokens n = .moment es m → m.last = none →
      ∀ f ∈ failures m.step.events, m.build.state.chart.column f.column = [] →
        m.grammar.IsViable ((m.tokens.take (f.column - 1)).map Token.terminal) ∧
          ¬ m.grammar.IsViable ((m.tokens.take f.column).map Token.terminal) := by
  refine ⟨fun n tokens k hk => ?_, fun tokens n es m h hlast f hf hnil =>
    Moment.isViable_of_mem_failures hproductive h hlast hf hnil⟩
  have hiff {j : Nat} (hj : j ≤ tokens.length) :=
    column_pass_ne_nil_iff (w := g.widened n) hproductive tokens hj
  refine ⟨fun hall => (hiff hk).mp (hall k (Nat.le_refl k)), fun hviable j hj => ?_⟩
  have hprefix : (tokens.take j).map Token.terminal <+: (tokens.take k).map Token.terminal :=
    (List.take_prefix_take_left hj).map _
  obtain ⟨u, hu⟩ := hprefix
  exact (hiff (Nat.le_trans hj hk)).mpr (hu ▸ hviable).of_append

theorem Grammar.isProductive_nouns : Grammar.nouns.IsProductive := by
  have hrule {r : Rule} (hr : r ∈ Grammar.nouns.unwidened.rules) :
      Grammar.nouns.unwidened.IsRule r.lhs r.rhs := ⟨r, hr, rfl, rfl⟩
  have hnoun : Yields Grammar.nouns.unwidened.IsRule [.nonterminal .comNounS] [.comNoun] :=
    .single (hrule (r := ⟨.comNounS, [.terminal .comNoun], .word⟩) (by decide)) (.terminal .nil)
  have hsentence : Yields Grammar.nouns.unwidened.IsRule [.nonterminal .sent] [.comNoun] :=
    .single (hrule (r := ⟨.sent, [.nonterminal .comNounS], .sentence⟩) (by decide)) hnoun
  intro r hr
  have hr : r = Grammar.nouns.entry ∨ r = ⟨.comNounS, [.terminal .comNoun], .word⟩ := by
    simpa [Grammar.nouns] using hr
  rcases hr with rfl | rfl
  · exact ⟨_, WidenedGrammar.derives_of_yields hsentence⟩
  · exact ⟨_, WidenedGrammar.derives_of_yields hnoun⟩

/-- Of two nouns, where a sentence is one noun, the second one is blamed, since no sentence begins
with two nouns. -/
theorem viable_until_failure_nouns :
    Grammar.nouns.IsProductive ∧
      ∃ n es m, Grammar.nouns.after [⟨.comNoun, none, none⟩, ⟨.comNoun, none, none⟩] n =
        .moment es m ∧ m.last = none ∧ ∃ f ∈ failures m.step.events, f.column = 2 ∧
          m.build.state.chart.column f.column = [] ∧
          m.grammar.IsViable ((m.tokens.take (f.column - 1)).map Token.terminal) ∧
          ¬ m.grammar.IsViable ((m.tokens.take f.column).map Token.terminal) := by
  have hafter : (Grammar.nouns.after [⟨.comNoun, none, none⟩, ⟨.comNoun, none, none⟩] 1).moment?.any
      (fun m => m.last = none ∧ ∃ f ∈ failures m.step.events, f.column = 2 ∧
        m.build.state.chart.column f.column = []) = true := by
    decide +kernel
  obtain ⟨m, hm, hmatch⟩ := (Option.any_eq_true _ _).mp hafter
  obtain ⟨es, hes⟩ := Progress.moment?_eq_some.mp hm
  obtain ⟨hlast, f, hf, hcolumn, hnil⟩ := of_decide_eq_true hmatch
  have hviable := (viable_until_failure Grammar.nouns Grammar.isProductive_nouns).2 _ 1 es m hes
    hlast f hf hnil
  exact ⟨Grammar.isProductive_nouns, 1, es, m, hes, hlast, f, hf, hcolumn, hnil, hviable⟩

end NounPhrase
