import Mathlib.Logic.Function.Iterate
import NounPhrase.Proofs.Chart.Growth
import NounPhrase.Recognition

/-!
# A recognition moment by moment

A recognition is taken apart into the moments at which a column is about to be built. A moment
has all that the recognition goes on from: the tokens that are left, the sentence rule as wide as
it is, the token blamed last, and the chart and the forest. It also remembers the widths of the
sentence rule at which the columns, as they stand, have been built. One step builds the column and
goes on to the next one, or widens the sentence rule and goes back to the column of the token that
is to blame, or drops the last token and begins anew.

Stepping from the first moment until the end gives the events and the derivation of the
recognition, so what holds at the first moment, and is preserved by the three ways to go on, holds
whenever a column is about to be built.

## Main definitions

* `Moment`, `Moment.build`: a moment, and the moment with its column built.
* `Progress`, `Moment.step`: how a recognition goes on.
* `Grammar.after`: what has become of a recognition after so many columns were built.
* `Moment.IsOf`: the places of a moment fit together.

## Main results

* `exists_after_eq_finish`: the moments end with what the recognition gives.
* `Moment.step_cases`: the three ways to go on, and when each of them is taken.
* `isOf_of_after`, `after_induction`: what all ways to go on preserve holds at every moment.
* `exists_moment_of_recognize`: a derivation is that of some moment.
-/

namespace NounPhrase

/-- A moment at which a column is about to be built. -/
structure Moment where
  /-- The tokens that are left. -/
  tokens : List Token
  /-- The grammar with the sentence rule as wide as it is. -/
  grammar : WidenedGrammar
  /-- The number of the token that was blamed last. -/
  last : Option Nat
  /-- The column that is about to be built. -/
  column : Nat
  state : ParseState
  /-- The numbers of widenings with which a column, as it stands, has been built, the latest
  first. -/
  builds : Nat → List Nat

/-- How a recognition goes on: further events, and the next moment or the end. -/
inductive Progress
  | moment (events : List Event) (m : Moment)
  | finish (events : List Event) (derivation : Option Derivation)

namespace Progress

/-- The progress with events in front. -/
def log (es : List Event) : Progress → Progress
  | moment es' m => moment (es ++ es') m
  | finish es' d => finish (es ++ es') d

/-- The moment, if the recognition goes on. -/
def moment? : Progress → Option Moment
  | moment _ m => some m
  | finish .. => none

theorem moment?_eq_some {o : Progress} {m : Moment} :
    o.moment? = some m ↔ ∃ es, o = moment es m := by
  cases o <;> simp [moment?]

@[simp] theorem log_nil (o : Progress) : o.log [] = o := by cases o <;> rfl

end Progress

namespace Moment

/-- The terminal that comes next. -/
def lookahead (m : Moment) : Terminal := m.tokens[m.column]?.elim .eof Token.terminal

/-- The moment with its column built. -/
def build (m : Moment) : Moment :=
  { m with
    state := m.state.build m.grammar m.grammar.grammar.admits m.lookahead m.column
    builds := fun k => if k = m.column then m.grammar.widenings :: m.builds k else m.builds k }

/-- The moment at the next column. -/
def next (m : Moment) : Moment := { m with column := m.column + 1 }

/-- The first moment of an attempt. -/
def start (w : WidenedGrammar) (tokens : List Token) : Moment :=
  ⟨tokens, w, none, 0, .initial w, fun _ => []⟩

/-- The moment after token `b` has been blamed. -/
def recovered (m : Moment) (b : Nat) : Moment :=
  { m with
    grammar := m.grammar.widen
    last := some b
    column := b
    state := m.state.rollback (b + 1)
    builds := fun k => if k ≤ b then m.builds k else [] }

/-- The derivation that the moment has found. -/
def derivation (m : Moment) : Derivation := ⟨m.grammar, m.state.chart, m.state.forest, m.tokens⟩

/-- An attempt on the tokens, if there are any. -/
def attempted (w : WidenedGrammar) (tokens : List Token) : Progress :=
  if tokens = [] then .finish [.exhausted w.entryLength] none else .moment [] (start w tokens)

/-- Goes on after token `b` has been blamed. -/
def recover (m : Moment) (b : Nat) : Progress :=
  if m.last.map (wordAt m.tokens) = some (wordAt m.tokens b) then
    (attempted m.grammar.widen m.tokens.dropLast).log
      [.restarted (b + 1) m.grammar.widen.entryLength]
  else .moment [.widened (b + 1) m.grammar.widen.entryLength] (m.recovered b)

/-- Ends a pass that has blamed a token, or none. -/
def conclude (m : Moment) : Option Nat → Progress
  | none => .finish [.accepted m.tokens.length m.grammar.entryLength m.state.forest.ambiguities]
      (some m.derivation)
  | some b => m.recover b

/-- Builds the column and goes on. -/
def step (m : Moment) : Progress :=
  (if m.column < m.tokens.length then
    if m.build.state.chart.column (m.column + 1) = [] then m.build.conclude (some m.column)
    else .moment [] m.build.next
  else if m.build.state.chart.has (m.column + 1) m.grammar.acceptItem then m.build.conclude none
  else m.build.conclude (some (m.column - 1))).log
    [.builtColumn m.column (m.build.state.chart.column m.column).length m.lookahead]

end Moment

namespace Progress

/-- Goes on by one column. -/
def next : Progress → Progress
  | moment es m => m.step.log es
  | finish es d => finish es d

end Progress

/-- What has become of the recognition of some tokens after `n` columns were built. -/
def Grammar.after (g : Grammar) (tokens : List Token) (n : Nat) : Progress :=
  Progress.next^[n] (Moment.attempted g.unwidened tokens)

/-! ### The end of a recognition -/

namespace Progress

theorem log_log (o : Progress) (es es' : List Event) : (o.log es').log es = o.log (es ++ es') := by
  cases o <;> simp [log]

theorem next_log (o : Progress) (es : List Event) : (o.log es).next = o.next.log es := by
  cases o with
  | moment es' m => exact (log_log _ es es').symm
  | finish es' d => rfl

theorem moment_eq_log (es : List Event) (m : Moment) : moment es m = (moment [] m).log es := by
  simp [log]

/-- After some columns, the one state of progress becomes the other. -/
def LeadsTo (o o' : Progress) : Prop := ∃ n, next^[n] o = o'

namespace LeadsTo

variable {o o' o'' : Progress}

theorem refl (o : Progress) : o.LeadsTo o := ⟨0, rfl⟩

theorem trans (h : o.LeadsTo o') (h' : o'.LeadsTo o'') : o.LeadsTo o'' := by
  obtain ⟨n, rfl⟩ := h
  obtain ⟨n', rfl⟩ := h'
  exact ⟨n' + n, Function.iterate_add_apply next n' n o⟩

theorem log (h : o.LeadsTo o') (es : List Event) : (o.log es).LeadsTo (o'.log es) := by
  obtain ⟨n, rfl⟩ := h
  refine ⟨n, ?_⟩
  induction n generalizing o with
  | zero => rfl
  | succ n ih => rw [Function.iterate_succ_apply, Function.iterate_succ_apply, next_log, ih]

theorem step (es : List Event) (m : Moment) : (moment es m).LeadsTo (m.step.log es) := ⟨1, rfl⟩

end LeadsTo

end Progress

namespace Moment

/-- The pass over the tokens that come next. -/
def pass (m : Moment) : Pass :=
  NounPhrase.pass m.grammar m.grammar.grammar.admits m.column m.state (m.tokens.drop m.column)

/-- A pass goes through moments until it blames a token or accepts. -/
theorem leadsTo_pass {m : Moment} (hm : m.column ≤ m.tokens.length) :
    ∃ column builds, (Progress.moment [] m).LeadsTo
      ((conclude ⟨m.tokens, m.grammar, m.last, column, m.pass.state, builds⟩ m.pass.blamed).log
        m.pass.events) := by
  unfold pass
  generalize hrest : m.tokens.drop m.column = rest
  have hlength : m.tokens.length = m.column + rest.length := by
    rw [← hrest, List.length_drop]
    omega
  have hget : m.tokens[m.column]? = rest.head? := by rw [← hrest, List.head?_drop]
  induction rest generalizing m with
  | nil =>
    have hlookahead : m.lookahead = .eof := by rw [lookahead, hget]; rfl
    have hnot : ¬ m.column < m.tokens.length := by rw [hlength, List.length_nil]; omega
    have hstate : m.state.build m.grammar m.grammar.grammar.admits .eof m.column =
        m.build.state := by rw [build, hlookahead]
    have hstep := Progress.LeadsTo.step [] m
    rw [Progress.log_nil, step, if_neg hnot, hlookahead] at hstep
    refine ⟨m.column, m.build.builds, ?_⟩
    simp only [NounPhrase.pass, hstate]
    by_cases h : m.build.state.chart.has (m.column + 1) m.grammar.acceptItem
    · rw [if_pos h] at hstep ⊢
      exact hstep
    · rw [if_neg h] at hstep ⊢
      exact hstep
  | cons token rest ih =>
    have hlookahead : m.lookahead = token.terminal := by rw [lookahead, hget]; rfl
    have hlt : m.column < m.tokens.length := by rw [hlength, List.length_cons]; omega
    have hstate : m.state.build m.grammar m.grammar.grammar.admits token.terminal m.column =
        m.build.state := by rw [build, hlookahead]
    have hstep := Progress.LeadsTo.step [] m
    rw [Progress.log_nil, step, if_pos hlt, hlookahead] at hstep
    simp only [NounPhrase.pass, hstate]
    by_cases h : m.build.state.chart.column (m.column + 1) = []
    · rw [if_pos h] at hstep ⊢
      exact ⟨m.column, m.build.builds, hstep⟩
    · rw [if_neg h] at hstep ⊢
      have hdrop : m.tokens.drop (m.column + 1) = rest := by
        rw [← List.drop_drop, hrest]
        rfl
      obtain ⟨column, builds, hrun⟩ := ih (m := m.build.next) hlt hdrop
        (show m.tokens.length = m.column + 1 + rest.length by rw [hlength, List.length_cons]; omega)
        (by rw [← hdrop, List.head?_drop]; rfl)
      have hlog := hrun.log [.builtColumn m.column (m.build.state.chart.column m.column).length
        token.terminal]
      rw [Progress.log_log] at hlog
      exact ⟨column, builds, hstep.trans hlog⟩

/-- Goes on from the result of an attempt. -/
def concludeAttempt (tokens : List Token) :
    List Event × WidenedGrammar × Option ParseState → Progress
  | (es, w, some s) => .finish es (some ⟨w, s.chart, s.forest, tokens⟩)
  | (es, w, none) => (attempted w tokens.dropLast).log es

theorem log_concludeAttempt (tokens : List Token) (es : List Event)
    (r : List Event × WidenedGrammar × Option ParseState) :
    (concludeAttempt tokens r).log es = concludeAttempt tokens (es ++ r.1, r.2) := by
  obtain ⟨es', w, _ | s⟩ := r
  · exact Progress.log_log ..
  · rfl

/-- An attempt goes through moments until it accepts or gives up. -/
theorem leadsTo_attempt {admits : Terminal → List Symbol → Bool} {tokens : List Token}
    (hne : tokens ≠ []) (last : Option (Fin tokens.length)) {w : WidenedGrammar} (s : ParseState)
    (builds : Nat → List Nat) (hadmits : admits = w.grammar.admits) :
    (Progress.moment [] ⟨tokens, w, last.map Fin.val, last.elim 0 Fin.val, s, builds⟩).LeadsTo
      (concludeAttempt tokens (attempt admits tokens hne last w s)) := by
  have hcolumn (last : Option (Fin tokens.length)) : last.elim 0 Fin.val ≤ tokens.length := by
    cases last with
    | none => exact Nat.zero_le _
    | some b => exact Nat.le_of_lt b.isLt
  have hlast (last : Option (Fin tokens.length)) :
      Option.map (wordAt tokens ·) (do let a ← last; pure a.val) =
        (last.map Fin.val).map (wordAt tokens) := by
    cases last <;> rfl
  -- the pass that the attempt begins with ends in what the attempt has concluded from it
  have hpass {last : Option (Fin tokens.length)} {w : WidenedGrammar} {s : ParseState} {p : Pass}
      {blamed : Option Nat} (builds : Nat → List Nat) (hadmits : admits = w.grammar.admits)
      (hp : NounPhrase.pass w admits (last.elim 0 Fin.val) s
        (tokens.drop (last.elim 0 Fin.val)) = p) (hblamed : p.blamed = blamed) :
      ∃ column builds', (Progress.moment []
          ⟨tokens, w, last.map Fin.val, last.elim 0 Fin.val, s, builds⟩).LeadsTo
        ((conclude ⟨tokens, w, last.map Fin.val, column, p.state, builds'⟩ blamed).log
          p.events) := by
    subst hadmits hp hblamed
    exact leadsTo_pass (hcolumn last)
  fun_induction attempt admits tokens hne last w s generalizing builds with
  | case1 last w s k p =>
    rename_i hblamed
    obtain ⟨_, _, hrun⟩ := hpass (s := s) builds hadmits rfl hblamed
    exact hrun
  | case2 last w s k p b =>
    rename_i hblamed hb hw
    obtain ⟨_, _, hrun⟩ := hpass (s := s) builds hadmits rfl hblamed
    rw [hlast] at hw
    simp only [conclude, recover, hw, if_true, Progress.log_log] at hrun
    exact hrun
  | case3 last w s k p b =>
    rename_i hblamed hb hw r ih
    obtain ⟨_, _, hrun⟩ := hpass (s := s) builds hadmits rfl hblamed
    rw [hlast] at hw
    simp only [conclude, recover, hw, if_false, Progress.log, recovered] at hrun
    have hlog := log_concludeAttempt tokens (p.events ++ [.widened (b + 1) w.widen.entryLength]) r
    rw [← List.append_cons] at hlog
    refine hrun.trans ?_
    rw [← hlog, Progress.moment_eq_log]
    exact (ih _ hadmits).log _

end Moment

/-- An attempt changes the width of the sentence rule alone. -/
theorem grammar_attempt (admits : Terminal → List Symbol → Bool) {tokens : List Token}
    (hne : tokens ≠ []) (last : Option (Fin tokens.length)) (w : WidenedGrammar) (s : ParseState) :
    (attempt admits tokens hne last w s).2.1.grammar = w.grammar := by
  fun_induction attempt admits tokens hne last w s with
  | case1 => rfl
  | case2 => rfl
  | case3 _ _ _ _ _ _ _ _ _ _ ih => exact ih

/-- A recognition goes through moments until it ends. -/
theorem leadsTo_recognizeFrom {admits : Terminal → List Symbol → Bool} {tokens : List Token}
    {w : WidenedGrammar} (hadmits : admits = w.grammar.admits) :
    (Moment.attempted w tokens).LeadsTo (.finish (recognizeFrom admits w tokens).events
      (recognizeFrom admits w tokens).derivation) := by
  have hattempt {tokens : List Token} (hne : tokens ≠ []) {w : WidenedGrammar}
      (hadmits : admits = w.grammar.admits) :
      (Moment.attempted w tokens).LeadsTo
        (Moment.concludeAttempt tokens (attempt admits tokens hne none w (.initial w))) := by
    rw [Moment.attempted, if_neg hne]
    exact Moment.leadsTo_attempt hne none (.initial w) (fun _ => []) hadmits
  fun_induction recognizeFrom admits w tokens with
  | case1 w =>
    rw [Moment.attempted, if_pos rfl]
    exact .refl _
  | case2 w tokens hne events w' s he =>
    have hrun := hattempt hne hadmits
    rw [he] at hrun
    exact hrun
  | case3 w tokens hne events w' he r ih =>
    have hrun := hattempt hne hadmits
    rw [he] at hrun
    have hgrammar := grammar_attempt admits hne none w (.initial w)
    rw [he] at hgrammar
    exact hrun.trans ((ih (by rw [hadmits, hgrammar])).log events)

/-- After some columns a recognition has ended with what it gives. -/
theorem exists_after_eq_finish (g : Grammar) (tokens : List Token) :
    ∃ n, g.after tokens n =
      .finish (g.recognize tokens).events (g.recognize tokens).derivation :=
  leadsTo_recognizeFrom rfl

/-! ### What holds at every moment -/

namespace Moment

variable {m m' : Moment} {es : List Event}

theorem attempted_eq_moment {w : WidenedGrammar} {tokens : List Token}
    (h : attempted w tokens = .moment es m) : tokens ≠ [] ∧ m = start w tokens := by
  rw [attempted] at h
  split at h
  · simp at h
  · next hne => exact ⟨hne, (Progress.moment.inj h).2.symm⟩

theorem log_eq_moment {o : Progress} {es' : List Event} (h : o.log es = .moment es' m) :
    ∃ es'', o = .moment es'' m := by
  cases o with
  | moment es'' m' => exact ⟨es'', by rw [(Progress.moment.inj h).2]⟩
  | finish es'' d => simp [Progress.log] at h

theorem log_eq_finish {o : Progress} {es' : List Event} {d : Option Derivation}
    (h : o.log es = .finish es' d) : ∃ es'', o = .finish es'' d := by
  cases o with
  | moment es'' m' => simp [Progress.log] at h
  | finish es'' d' => exact ⟨es'', by rw [(Progress.finish.inj h).2]⟩

/-- The token that a pass blames that ends with the column of the moment. -/
def Blames (m : Moment) (b : Nat) : Prop :=
  b = m.column ∧ m.column < m.tokens.length ∨ b = m.column - 1 ∧ m.tokens.length ≤ m.column

/-- A failure is answered by going back to the column of the token that is to blame, if its word is
not the one blamed last, and else by an attempt without the last token. -/
theorem conclude_cases {b : Nat} (h : m.conclude (some b) = .moment es m') :
    m.last.map (wordAt m.tokens) ≠ some (wordAt m.tokens b) ∧ m' = m.recovered b ∨
      m.tokens.dropLast ≠ [] ∧ m' = start m.grammar.widen m.tokens.dropLast := by
  rw [conclude, recover] at h
  split at h
  · obtain ⟨_, h⟩ := log_eq_moment h
    exact .inr (attempted_eq_moment h)
  · next hword => exact .inl ⟨hword, (Progress.moment.inj h).2.symm⟩

/-- A recognition goes on with the next column, if that has items; or it recovers from a failure,
which blames another word than the last one did; or it begins an attempt without the last token. -/
theorem step_cases (h : m.step = .moment es m') :
    (m' = m.build.next ∧ m.column < m.tokens.length ∧
        m.build.state.chart.column (m.column + 1) ≠ []) ∨
      (∃ b, m.Blames b ∧
        (m.column < m.tokens.length → m.build.state.chart.column (m.column + 1) = []) ∧
        m.last.map (wordAt m.tokens) ≠ some (wordAt m.tokens b) ∧ m' = m.build.recovered b) ∨
      m.tokens.dropLast ≠ [] ∧ m' = start m.grammar.widen m.tokens.dropLast := by
  rw [step] at h
  obtain ⟨_, h⟩ := log_eq_moment h
  split at h
  · next hlt =>
    split at h
    · next hnil =>
      exact .inr ((conclude_cases h).imp_left fun h => ⟨_, .inl ⟨rfl, hlt⟩, fun _ => hnil, h⟩)
    · next hne => exact .inl ⟨(Progress.moment.inj h).2.symm, hlt, hne⟩
  · next hle =>
    split at h
    · simp [conclude] at h
    · exact .inr ((conclude_cases h).imp_left fun h =>
        ⟨_, .inr ⟨rfl, Nat.le_of_not_lt hle⟩, fun hlt => absurd hlt hle, h⟩)

/-- A recognition goes on with the next column, or with the column of the token that is to blame,
or with an attempt without the last token. -/
theorem step_eq_moment (h : m.step = .moment es m') :
    m' = m.build.next ∧ m.column < m.tokens.length ∨
      (∃ b, m.Blames b ∧ m' = m.build.recovered b) ∨
      m.tokens.dropLast ≠ [] ∧ m' = start m.grammar.widen m.tokens.dropLast := by
  rcases step_cases h with ⟨h, hlt, -⟩ | ⟨b, hb, -, -, h⟩ | h
  · exact .inl ⟨h, hlt⟩
  · exact .inr (.inl ⟨b, hb, h⟩)
  · exact .inr (.inr h)

/-- A recognition ends with a derivation when the column behind the last token has been built and
the accepting item has been found. -/
theorem step_eq_finish {d : Derivation} (h : m.step = .finish es (some d)) :
    m.tokens.length ≤ m.column ∧
      m.grammar.acceptItem ∈ m.build.state.chart.column (m.column + 1) ∧
      d = m.build.derivation := by
  have recover {m : Moment} {b : Nat} {es : List Event} :
      m.conclude (some b) ≠ .finish es (some d) := by
    intro h
    rw [conclude, recover] at h
    split at h
    · obtain ⟨_, h⟩ := log_eq_finish h
      rw [attempted] at h
      split at h <;> simp at h
    · simp at h
  rw [step] at h
  obtain ⟨_, h⟩ := log_eq_finish h
  split at h
  · split at h
    · exact absurd h recover
    · simp at h
  · next hle =>
    split at h
    · next haccept =>
      have hd := (Progress.finish.inj h).2
      exact ⟨Nat.le_of_not_lt hle, List.contains_iff_mem.mp haccept, (Option.some.inj hd).symm⟩
    · exact absurd h recover

/-- The places of a moment fit together: it is a moment of a recognition of the tokens. -/
structure IsOf (g : Grammar) (tokens : List Token) (m : Moment) : Prop where
  grammar_eq : m.grammar.grammar = g
  isPrefix : m.tokens <+: tokens
  ne_nil : m.tokens ≠ []
  column_le : m.column ≤ m.tokens.length
  last_lt : ∀ b, m.last = some b → b < m.tokens.length
  /-- Behind the column that is about to be built nothing is left of earlier passes. -/
  ahead : ∀ k, m.column < k → m.state.chart.column k = [] ∧ m.builds k = []
  /-- Only the column of the token blamed last is built again. -/
  here : m.builds m.column ≠ [] → m.last = some m.column

namespace IsOf

variable {g : Grammar} {tokens : List Token}

theorem lt_of_blames (h : m.IsOf g tokens) {b : Nat} (hb : m.Blames b) :
    b ≤ m.column ∧ b < m.tokens.length := by
  have := List.length_pos_iff.mpr h.ne_nil
  have := h.column_le
  unfold Blames at hb
  omega

theorem start {w : WidenedGrammar} {ts : List Token} (hw : w.grammar = g) (hts : ts <+: tokens)
    (hne : ts ≠ []) : (start w ts).IsOf g tokens where
  grammar_eq := hw
  isPrefix := hts
  ne_nil := hne
  column_le := Nat.zero_le _
  last_lt _ hb := by simp [Moment.start] at hb
  ahead k hk := by
    refine ⟨List.eq_nil_iff_forall_not_mem.mpr fun i hi => ?_, rfl⟩
    exact Nat.ne_of_gt hk (ParseState.mem_column_initial.mp hi).1
  here hb := absurd rfl hb

/-- Building changes nothing behind the next column. -/
theorem ahead_build (h : m.IsOf g tokens) {k : Nat} (hk : m.column + 1 < k) :
    m.build.state.chart.column k = [] ∧ m.build.builds k = [] := by
  refine ⟨?_, ?_⟩
  · rw [build, ParseState.column_build_of_ne _ _ _ _ (by omega) (by omega)]
    exact (h.ahead k (by omega)).1
  · simp only [build]
    rw [if_neg (by omega)]
    exact (h.ahead k (by omega)).2

theorem next (h : m.IsOf g tokens) (hlt : m.column < m.tokens.length) :
    m.build.next.IsOf g tokens where
  grammar_eq := h.grammar_eq
  isPrefix := h.isPrefix
  ne_nil := h.ne_nil
  column_le := hlt
  last_lt := h.last_lt
  ahead _ hk := h.ahead_build hk
  here hb := by
    refine absurd ?_ hb
    simp only [Moment.next, build, Nat.succ_ne_self, if_false]
    exact (h.ahead _ (Nat.lt_succ_self _)).2

theorem recovered (h : m.IsOf g tokens) {b : Nat} (hb : m.Blames b) :
    (m.build.recovered b).IsOf g tokens where
  grammar_eq := h.grammar_eq
  isPrefix := h.isPrefix
  ne_nil := h.ne_nil
  column_le := Nat.le_of_lt (h.lt_of_blames hb).2
  last_lt b' hb' := Option.some.inj hb' ▸ (h.lt_of_blames hb).2
  ahead k hk := by
    have hk : b < k := hk
    simp only [Moment.recovered, ParseState.rollback, Chart.column_truncate]
    rw [if_neg (by omega), if_neg (by omega)]
    exact ⟨rfl, rfl⟩
  here _ := rfl

end IsOf

end Moment

section After

variable {g : Grammar} {tokens : List Token} {n : Nat} {es : List Event} {m : Moment}

/-- Every moment but the first one follows another. -/
theorem exists_step_of_after_succ (h : g.after tokens (n + 1) = .moment es m) :
    ∃ es₁ m₁ es₂, g.after tokens n = .moment es₁ m₁ ∧ m₁.step = .moment es₂ m := by
  rw [Grammar.after, Function.iterate_succ_apply'] at h
  cases hn : Progress.next^[n] (Moment.attempted g.unwidened tokens) with
  | finish es₁ d => simp [hn, Progress.next] at h
  | moment es₁ m₁ =>
    rw [hn, Progress.next] at h
    obtain ⟨es₂, h⟩ := Moment.log_eq_moment h
    exact ⟨es₁, m₁, es₂, hn, h⟩

/-- The places of every moment of a recognition fit together. -/
theorem isOf_of_after (h : g.after tokens n = .moment es m) : m.IsOf g tokens := by
  induction n generalizing es m with
  | zero =>
    obtain ⟨hne, rfl⟩ := Moment.attempted_eq_moment h
    exact .start rfl (List.prefix_refl _) hne
  | succ n ih =>
    obtain ⟨_, m₁, _, hn, hstep⟩ := exists_step_of_after_succ h
    have hm := ih hn
    rcases Moment.step_eq_moment hstep with ⟨rfl, hlt⟩ | ⟨b, hb, rfl⟩ | ⟨hne, rfl⟩
    · exact hm.next hlt
    · exact hm.recovered hb
    · exact .start hm.grammar_eq ((List.dropLast_prefix _).trans hm.isPrefix) hne

/-- What holds when an attempt begins, and is preserved by going on to the next column and by going
back to the column of a token that is to blame, holds at every moment of a recognition. -/
theorem after_induction {P : Moment → Prop} (start : ∀ w ts, w.grammar = g → P (.start w ts))
    (next : ∀ n es m, g.after tokens n = .moment es m → P m → P m.build.next)
    (recovered : ∀ n es m b, g.after tokens n = .moment es m → P m → P (m.build.recovered b))
    (h : g.after tokens n = .moment es m) : P m := by
  induction n generalizing es m with
  | zero =>
    obtain ⟨-, rfl⟩ := Moment.attempted_eq_moment h
    exact start _ _ rfl
  | succ n ih =>
    obtain ⟨es₁, m₁, _, hn, hstep⟩ := exists_step_of_after_succ h
    rcases Moment.step_eq_moment hstep with ⟨rfl, -⟩ | ⟨b, -, rfl⟩ | ⟨-, rfl⟩
    · exact next n es₁ m₁ hn (ih hn)
    · exact recovered n es₁ m₁ b hn (ih hn)
    · exact start _ _ (isOf_of_after hn).grammar_eq

end After

/-- A derivation is that of a moment at which the column behind the last token is built. -/
theorem exists_moment_of_recognize {g : Grammar} {tokens : List Token} {d : Derivation}
    (h : (g.recognize tokens).derivation = some d) :
    ∃ n es m, g.after tokens n = .moment es m ∧ m.tokens.length ≤ m.column ∧
      m.grammar.acceptItem ∈ m.build.state.chart.column (m.column + 1) ∧
      d = m.build.derivation := by
  obtain ⟨n, hn⟩ := exists_after_eq_finish g tokens
  rw [h] at hn
  generalize (g.recognize tokens).events = es at hn
  induction n generalizing es with
  | zero =>
    rw [Grammar.after, Function.iterate_zero_apply, Moment.attempted] at hn
    split at hn <;> simp at hn
  | succ n ih =>
    rw [Grammar.after, Function.iterate_succ_apply'] at hn
    cases hn' : Progress.next^[n] (Moment.attempted g.unwidened tokens) with
    | finish es' d' =>
      rw [hn', Progress.next] at hn
      exact ih es (hn'.trans hn)
    | moment es' m =>
      rw [hn', Progress.next] at hn
      obtain ⟨_, hn⟩ := Moment.log_eq_finish hn
      exact ⟨n, es', m, hn', Moment.step_eq_finish hn⟩

/-- A sentence of one noun. -/
def Grammar.nouns : Grammar where
  entry := ⟨.sent, [.nonterminal .comNounS], .sentence⟩
  others := [⟨.comNounS, [.terminal .comNoun], .word⟩]
  recovery := .comNounS
  distinct := by decide
  start_unused := by decide
  entry_unique := by decide
  entry_ends := rfl
  faultless := by decide

end NounPhrase
