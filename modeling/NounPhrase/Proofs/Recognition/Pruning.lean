import NounPhrase.Proofs.Chart.Pruning
import NounPhrase.Proofs.Forest.Children
import NounPhrase.Proofs.Recognition.Moments

/-!
# Recognition with and without pruning

A recognition that starts every rule for which an item waits comes to the same result as one that
starts only the admitted ones. Column by column the items that are carried over are the same, so a
pass comes to an end at the same column, blames the same token, and recovery does the same. What is
left in the end are the same forest and the same tree, and a chart that has the additional items.

## Main definitions

* `Grammar.recognizeUnpruned`: the recognition that starts every rule.
* `Event.outline`: what a report says besides the number of items of a column.
* `ParseState.Agrees`: what there is with pruning agrees with what there is without.
* `Derivation.Prunes`: one derivation is another one without the items that pruning leaves out.

## Main results

* `ParseState.Agrees.pass`, `ParseState.Agrees.attempt`: passes and attempts agree.
* `recognize_prunes`: recognitions agree.
-/

namespace NounPhrase

namespace ParseState

variable {w : WidenedGrammar} {admits : Terminal → List Symbol → Bool} {t : Terminal} {k : Nat}
  {s p u : ParseState}

/-- What building column `k` adds to the next column are items that have moved on. -/
theorem dot_ne_zero_of_mem_build (h : s.chart.column (k + 1) = []) :
    ∀ i ∈ (s.build w admits t k).chart.column (k + 1), i.dot ≠ 0 := by
  refine build_induction (P := fun s' => ∀ i ∈ s'.chart.column (k + 1), i.dot ≠ 0)
    (fun s' m hs _ i hi => ?_) (by rw [column_opened, h]; simp)
  cases m with
  | advance q c =>
    rw [apply, Chart.column_add_of_ne _ _ (Nat.succ_ne_self k)] at hi
    exact hs i hi
  | start id =>
    rw [apply, Chart.column_add_of_ne _ _ (Nat.succ_ne_self k)] at hi
    exact hs i hi
  | scan q =>
    rcases Chart.mem_column_add.mp hi with hi | ⟨-, rfl⟩
    · exact hs i hi
    · exact Nat.succ_ne_zero _

/-! ### Agreement -/

/-- The state `p` prunes `u`, in which the items are admitted, and has as many columns. -/
structure Agrees (g : Grammar) (ahead : Nat → Terminal) (p u : ParseState) : Prop extends
    p.Prunes g ahead u where
  admitted : u.IsAdmitted g ahead
  size_eq : p.chart.size = u.chart.size

variable {g : Grammar} {ahead : Nat → Terminal}

theorem Agrees.build (h : p.Agrees w.grammar ahead u) :
    (p.build w w.grammar.admits (ahead k) k).Agrees w.grammar ahead
      (u.build w (fun _ _ => true) (ahead k) k) :=
  ⟨h.toPrunes.build h.admitted, h.admitted.build, by rw [size_build, size_build, h.size_eq]⟩

theorem Agrees.rollback (h : p.Agrees g ahead u) (k : Nat) :
    (p.rollback k).Agrees g ahead (u.rollback k) := by
  refine ⟨h.toPrunes.rollback k, h.admitted.rollback k, ?_⟩
  have hsize := h.size_eq
  simp only [Chart.size] at hsize
  simp [ParseState.rollback, Chart.truncate, Chart.size, hsize]

theorem agrees_initial (w : WidenedGrammar) (ahead : Nat → Terminal) :
    (initial w).Agrees w.grammar ahead (initial w) :=
  ⟨prunes_initial w ahead, isAdmitted_initial w ahead, rfl⟩

/-- Where all items have moved on, the columns are the same. -/
theorem Agrees.column_eq (h : p.Agrees g ahead u) (hdot : ∀ i ∈ u.chart.column k, i.dot ≠ 0) :
    p.chart.column k = u.chart.column k := by
  rw [h.column, List.filter_eq_self]
  exact fun i hi => Grammar.keeps_of_dot_ne_zero (hdot i hi)

/-- The columns with pruning are those without, less the items that pruning leaves out. -/
theorem Agrees.columns_eq (h : p.Agrees g ahead u) :
    p.chart.columns = u.chart.columns.mapIdx fun k c => c.filter (g.keeps (ahead k)) := by
  refine List.ext_getElem? fun k => ?_
  have hcolumn := h.column k
  have hsize := h.size_eq
  simp only [Chart.size] at hsize
  rw [List.getElem?_mapIdx]
  simp only [Chart.column] at hcolumn
  by_cases hk : k < u.chart.columns.length
  · have hk' : k < p.chart.columns.length := hsize ▸ hk
    simpa [hk, hk'] using hcolumn
  · rw [List.getElem?_eq_none (Nat.le_of_not_lt hk),
      List.getElem?_eq_none (hsize ▸ Nat.le_of_not_lt hk)]
    rfl

end ParseState

/-! ### Passes -/

/-- The report without the number of items of a column. -/
def Event.outline : Event → Event
  | builtColumn column _ lookahead => builtColumn column 0 lookahead
  | e => e

/-- The terminal that comes next at a column; behind the last token it is the end marker. -/
def terminalAt (tokens : List Token) (k : Nat) : Terminal := tokens[k]?.elim .eof Token.terminal

/-- The two passes report the same and blame the same token, and their states agree. -/
structure Pass.Agrees (g : Grammar) (ahead : Nat → Terminal) (p u : Pass) : Prop where
  events : p.events.map Event.outline = u.events.map Event.outline
  state : p.state.Agrees g ahead u.state
  blamed : p.blamed = u.blamed

namespace ParseState

variable {w : WidenedGrammar} {tokens : List Token} {k : Nat} {p u : ParseState}

theorem Agrees.pass {rest : List Token} (h : p.Agrees w.grammar (terminalAt tokens) u)
    (hrest : tokens.drop k = rest) (hempty : ∀ j, k < j → u.chart.column j = []) :
    (pass w w.grammar.admits k p rest).Agrees w.grammar (terminalAt tokens)
      (pass w (fun _ _ => true) k u rest) := by
  induction rest generalizing k p u with
  | nil =>
    have hahead : terminalAt tokens k = .eof := by
      rw [terminalAt, ← List.head?_drop, hrest]
      rfl
    have hbuild := h.build (k := k)
    rw [hahead] at hbuild
    have hcolumn := hbuild.column_eq (dot_ne_zero_of_mem_build (hempty _ (Nat.lt_succ_self k)))
    have hhas : (p.build w w.grammar.admits .eof k).chart.has (k + 1) w.acceptItem =
        (u.build w (fun _ _ => true) .eof k).chart.has (k + 1) w.acceptItem := by
      rw [Chart.has, Chart.has, hcolumn]
    exact ⟨rfl, hbuild, by simp only [NounPhrase.pass, hhas]⟩
  | cons token rest ih =>
    have hahead : terminalAt tokens k = token.terminal := by
      rw [terminalAt, ← List.head?_drop, hrest]
      rfl
    have hbuild := h.build (k := k)
    rw [hahead] at hbuild
    have hcolumn := hbuild.column_eq (dot_ne_zero_of_mem_build (hempty _ (Nat.lt_succ_self k)))
    simp only [NounPhrase.pass, hcolumn]
    split
    · exact ⟨rfl, hbuild, rfl⟩
    · have hdrop : tokens.drop (k + 1) = rest := by
        rw [← List.drop_drop, hrest]
        rfl
      have hnext := ih hbuild hdrop fun j hj => by
        rw [column_build_of_ne _ _ _ _ (by omega) (by omega)]
        exact hempty j (by omega)
      exact ⟨by simp [Event.outline, hnext.events], hnext.state, hnext.blamed⟩

end ParseState

/-! ### Attempts -/

section Attempt

variable {admits : Terminal → List Symbol → Bool} {tokens : List Token} {hne : tokens ≠ []}
  {last : Option (Fin tokens.length)} {w : WidenedGrammar} {s : ParseState} {p : Pass}

theorem attempt_of_accepted (hp : pass w admits (last.elim 0 Fin.val) s
      (tokens.drop (last.elim 0 Fin.val)) = p) (h : p.blamed = none) :
    attempt admits tokens hne last w s =
      (p.events ++ [.accepted tokens.length w.entryLength p.state.forest.ambiguities], w,
        some p.state) := by
  subst hp
  rw [attempt]
  split
  · rfl
  · next hb => simp [h] at hb

theorem attempt_of_restarted {b : Nat} (hp : pass w admits (last.elim 0 Fin.val) s
      (tokens.drop (last.elim 0 Fin.val)) = p) (h : p.blamed = some b)
    (hw : last.map (wordAt tokens ·) = some (wordAt tokens b)) :
    attempt admits tokens hne last w s =
      (p.events ++ [.restarted (b + 1) w.widen.entryLength], w.widen, none) := by
  subst hp
  rw [attempt]
  split
  · next hb => simp [h] at hb
  · next hb =>
    obtain rfl := Option.some.inj (h.symm.trans hb)
    rw [dif_pos hw]

theorem attempt_of_widened {b : Nat} (hp : pass w admits (last.elim 0 Fin.val) s
      (tokens.drop (last.elim 0 Fin.val)) = p) (h : p.blamed = some b) (hb : b < tokens.length)
    (hw : last.map (wordAt tokens ·) ≠ some (wordAt tokens b)) :
    attempt admits tokens hne last w s =
      (p.events ++ .widened (b + 1) w.widen.entryLength ::
        (attempt admits tokens hne (some ⟨b, hb⟩) w.widen (p.state.rollback (b + 1))).1,
        (attempt admits tokens hne (some ⟨b, hb⟩) w.widen (p.state.rollback (b + 1))).2) := by
  subst hp
  rw [attempt]
  split
  · next hb => simp [h] at hb
  · next hb =>
    obtain rfl := Option.some.inj (h.symm.trans hb)
    rw [dif_neg hw]

/-- The results of two attempts: they report the same, the sentence rule is as wide in the end, and
the states agree, if the tokens are accepted. -/
structure AttemptsAgree (g : Grammar) (ahead : Nat → Terminal)
    (r r' : List Event × WidenedGrammar × Option ParseState) : Prop where
  events : r.1.map Event.outline = r'.1.map Event.outline
  grammar_eq : r.2.1 = r'.2.1
  state : Option.Rel (ParseState.Agrees g ahead) r.2.2 r'.2.2

/-- Attempts from states that agree have results that agree. -/
theorem ParseState.Agrees.attempt {g : Grammar} (hgrammar : w.grammar = g) {p u : ParseState}
    (h : p.Agrees g (terminalAt tokens) u)
    (hempty : ∀ j, last.elim 0 Fin.val < j → u.chart.column j = []) :
    AttemptsAgree g (terminalAt tokens) (attempt g.admits tokens hne last w p)
      (attempt (fun _ _ => true) tokens hne last w u) := by
  fun_induction NounPhrase.attempt (fun _ _ => true) tokens hne last w u generalizing p with
  | case1 last w u k q =>
    rename_i hblamed
    subst hgrammar
    have hpass : (NounPhrase.pass w w.grammar.admits k p (tokens.drop k)).Agrees _ _ q :=
      h.pass rfl hempty
    rw [attempt_of_accepted rfl (hpass.blamed.trans hblamed)]
    refine ⟨?_, rfl, .some hpass.state⟩
    rw [List.map_append, List.map_append, hpass.events,
      Forest.ambiguities_eq_of_equiv hpass.state.forest]
  | case2 last w u k q b =>
    rename_i hblamed hb hw
    subst hgrammar
    have hpass : (NounPhrase.pass w w.grammar.admits k p (tokens.drop k)).Agrees _ _ q :=
      h.pass rfl hempty
    rw [attempt_of_restarted rfl (hpass.blamed.trans hblamed) hw]
    refine ⟨?_, rfl, .none⟩
    rw [List.map_append, List.map_append, hpass.events]
  | case3 last w u k q b =>
    rename_i hblamed hb hw r ih
    subst hgrammar
    have hpass : (NounPhrase.pass w w.grammar.admits k p (tokens.drop k)).Agrees _ _ q :=
      h.pass rfl hempty
    have hrest := ih rfl (hpass.state.rollback (b + 1)) fun j hj => by
      rw [ParseState.column_rollback]
      exact if_neg (Nat.not_lt_of_le hj)
    rw [attempt_of_widened rfl (hpass.blamed.trans hblamed) hb.2 hw]
    refine ⟨?_, hrest.grammar_eq, hrest.state⟩
    rw [List.map_append, List.map_append, List.map_cons, List.map_cons, hpass.events, hrest.events]

/-- Fresh attempts agree. -/
theorem attemptsAgree_initial (w : WidenedGrammar) (hne : tokens ≠ []) :
    AttemptsAgree w.grammar (terminalAt tokens)
      (attempt w.grammar.admits tokens hne none w (.initial w))
      (attempt (fun _ _ => true) tokens hne none w (.initial w)) :=
  (ParseState.agrees_initial w _).attempt rfl fun _ hj =>
    List.eq_nil_iff_forall_not_mem.mpr fun _ hi =>
      Nat.ne_of_gt hj (ParseState.mem_column_initial.mp hi).1

end Attempt

/-! ### Recognitions -/

/-- The recognition that starts every rule for which an item waits. -/
def Grammar.recognizeUnpruned (g : Grammar) (tokens : List Token) : Recognition :=
  recognizeFrom (fun _ _ => true) g.unwidened tokens

/-- The derivation `d` is `d'` without the items that pruning leaves out of its columns: the same
tokens were accepted by the same sentence rule, and the forest and the tree, or the fault in its
place, are the same. -/
structure Derivation.Prunes (d d' : Derivation) : Prop where
  tokens_eq : d.tokens = d'.tokens
  grammar_eq : d.grammar = d'.grammar
  forest_eq : d.forest.toList = d'.forest.toList
  tree_eq : d.tree = d'.tree
  columns_eq : d.chart.columns = d'.chart.columns.mapIdx fun k c =>
    c.filter (d.grammar.grammar.keeps (terminalAt d.tokens k))

theorem ParseState.Agrees.derivation {w : WidenedGrammar} {tokens : List Token} {p u : ParseState}
    (h : p.Agrees w.grammar (terminalAt tokens) u) :
    (⟨w, p.chart, p.forest, tokens⟩ : Derivation).Prunes ⟨w, u.chart, u.forest, tokens⟩ :=
  ⟨rfl, rfl, Forest.toList_eq_of_equiv h.forest, Forest.tree_eq_of_equiv h.forest _ _,
    h.columns_eq⟩

section Recognition

variable {admits : Terminal → List Symbol → Bool} {tokens : List Token} {w w' : WidenedGrammar}
  {es : List Event}

theorem recognizeFrom_of_accepted (hne : tokens ≠ []) {s : ParseState}
    (h : attempt admits tokens hne none w (.initial w) = (es, w', some s)) :
    recognizeFrom admits w tokens = ⟨es, some ⟨w', s.chart, s.forest, tokens⟩⟩ := by
  rw [recognizeFrom, dif_neg hne, h]

theorem recognizeFrom_of_restarted (hne : tokens ≠ [])
    (h : attempt admits tokens hne none w (.initial w) = (es, w', none)) :
    recognizeFrom admits w tokens =
      ⟨es ++ (recognizeFrom admits w' tokens.dropLast).events,
        (recognizeFrom admits w' tokens.dropLast).derivation⟩ := by
  rw [recognizeFrom, dif_neg hne, h]

end Recognition

/-- Recognitions with and without pruning report the same besides the numbers of items, and their
derivations agree. -/
theorem recognizeFrom_prunes {g : Grammar} {w : WidenedGrammar} (hgrammar : w.grammar = g)
    (tokens : List Token) :
    (recognizeFrom g.admits w tokens).events.map Event.outline =
        (recognizeFrom (fun _ _ => true) w tokens).events.map Event.outline ∧
      Option.Rel Derivation.Prunes (recognizeFrom g.admits w tokens).derivation
        (recognizeFrom (fun _ _ => true) w tokens).derivation := by
  -- the result of an attempt with pruning, from that of one without
  have hattempt {w w' : WidenedGrammar} (hgrammar : w.grammar = g) {tokens : List Token}
      (hne : tokens ≠ []) {es : List Event} {o : Option ParseState}
      (he : attempt (fun _ _ => true) tokens hne none w (.initial w) = (es, w', o)) :
      w'.grammar = g ∧ ∃ es' o', attempt g.admits tokens hne none w (.initial w) = (es', w', o') ∧
        es'.map Event.outline = es.map Event.outline ∧
        Option.Rel (ParseState.Agrees g (terminalAt tokens)) o' o := by
    subst hgrammar
    have hw' := grammar_attempt (fun _ _ => true) hne none w (.initial w)
    have hagree := attemptsAgree_initial w hne
    rw [he] at hw' hagree
    generalize attempt w.grammar.admits tokens hne none w (.initial w) = r at hagree
    obtain ⟨es', v, o'⟩ := r
    obtain rfl : v = w' := hagree.grammar_eq
    exact ⟨hw', es', o', rfl, hagree.events, hagree.state⟩
  fun_induction recognizeFrom (fun _ _ => true) w tokens with
  | case1 w =>
    rw [recognizeFrom, dif_pos rfl]
    exact ⟨rfl, .none⟩
  | case2 w tokens hne events w' s he =>
    obtain ⟨hw', es, _, hr, hevents, ⟨hstate⟩⟩ := hattempt hgrammar hne he
    rw [recognizeFrom_of_accepted hne hr]
    exact ⟨hevents, .some (ParseState.Agrees.derivation (hw' ▸ hstate))⟩
  | case3 w tokens hne events w' he r ih =>
    obtain ⟨hw', es, _, hr, hevents, ⟨⟩⟩ := hattempt hgrammar hne he
    rw [recognizeFrom_of_restarted hne hr]
    refine ⟨?_, (ih hw').2⟩
    rw [List.map_append, List.map_append, hevents, (ih hw').1]

/-- Whatever the grammar and the tokens, starting every rule for which an item waits, and not only
those that are admitted before the next terminal, makes no difference to what a recognition comes
to: it builds the same columns, fails, widens and drops the same, and accepts the same tokens by the
same sentence rule, with the same forest and the same tree. The columns are the same but for items
before the first symbol of a rule that is not admitted. -/
theorem recognize_prunes (g : Grammar) (tokens : List Token) :
    (g.recognize tokens).events.map Event.outline =
        (g.recognizeUnpruned tokens).events.map Event.outline ∧
      Option.Rel Derivation.Prunes (g.recognize tokens).derivation
        (g.recognizeUnpruned tokens).derivation :=
  recognizeFrom_prunes (w := g.unwidened) rfl tokens

/-- Before a determiner no rule for nouns is started, so that the first column has fewer items. -/
example : (Grammar.nouns.recognize [⟨.det, none, none⟩]).events ≠
    (Grammar.nouns.recognizeUnpruned [⟨.det, none, none⟩]).events := by
  decide +kernel

end NounPhrase
