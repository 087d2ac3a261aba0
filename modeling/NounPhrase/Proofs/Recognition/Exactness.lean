import NounPhrase.Proofs.Chart.Saturation
import NounPhrase.Proofs.Chart.Soundness
import NounPhrase.Proofs.Derivation.ContextFree
import NounPhrase.Proofs.FirstTable.Viable
import NounPhrase.Recognition

/-!
# A fresh pass is exact

A pass that begins with the start item alone reaches the accepting item behind the end of the
input if and only if the input is in the language of the grammar, whatever the width of the
sentence rule. One direction is the soundness of the items. For the other, an item moves over
everything that the symbols behind its dot yield, by induction on the derivation: all columns are
closed, and the admission test passes every rule that the derivation uses.

The first pass of a recognition is such a pass at the declared width, and every later one has a
wider sentence rule. So a sentence is accepted without recovery, as a whole, and nothing else is.

## Main definitions

* `WidenedGrammar.BuiltTo`: the columns before a place have been built, and those after it are
  still empty.

## Main results

* `WidenedGrammar.BuiltTo.start_mem_column_of_yields`: pruning keeps the rules that are needed.
* `WidenedGrammar.BuiltTo.mem_column_of_yields`: an item moves over what its symbols yield.
* `WidenedGrammar.pass_initial`: a fresh pass ends with the accepting item if and only if the
  sentence symbol yields the tokens.
* `recognize_exact`: the same, and what follows for recognition.
-/

namespace NounPhrase

namespace WidenedGrammar

variable {w : WidenedGrammar} {admits : Terminal → List Symbol → Bool} {input : List Terminal}
  {k : Nat} {s : ParseState}

/-- A closed column stays closed when a later column is built. -/
theorem Closed.build_of_lt {lookahead t : Terminal} {j : Nat}
    (h : w.Closed admits lookahead j s) (hjk : j < k)
    (horigin : ∀ i ∈ s.chart.column j, i.origin ≤ j) :
    w.Closed admits lookahead j (s.build w admits t k) := by
  have hext := s.extends_build w admits t k
  have hcolumn (i : Nat) (hi : i ≤ j) : (s.build w admits t k).chart.column i = s.chart.column i :=
    ParseState.column_build_of_ne w admits t s (by omega) (by omega)
  rw [Closed, hcolumn j (Nat.le_refl j)]
  constructor
  · intro c hc hne p hp hpj n hcomplete hnext
    rw [hcolumn _ (horigin c hc)] at hp
    exact (h.completed c hc hne p hp hpj n hcomplete hnext).mono hext
  · intro p hp n hnext id hid
    exact (h.predicted p hp n hnext id hid).mono hext
  · intro p hp hnext
    exact (h.scanned p hp hnext).mono hext

/-- The columns before `k` have been built for the input, beginning with the start item, and those
after `k` are still empty. -/
structure BuiltTo (w : WidenedGrammar) (admits : Terminal → List Symbol → Bool)
    (input : List Terminal) (k : Nat) (s : ParseState) : Prop where
  start : w.startItem ∈ s.chart.column 0
  sound : s.IsSound w.IsRule w input
  closed : ∀ j < k, ∀ t, input[j]? = some t → w.Closed admits t j s
  empty : ∀ j, k < j → s.chart.column j = []

namespace BuiltTo

theorem initial (w : WidenedGrammar) (admits : Terminal → List Symbol → Bool)
    (input : List Terminal) : w.BuiltTo admits input 0 (.initial w) := by
  constructor
  · exact ParseState.mem_column_initial.mpr ⟨rfl, rfl⟩
  · intro j i hi
    obtain ⟨rfl, rfl⟩ := ParseState.mem_column_initial.mp hi
    exact ⟨Nat.le_refl _, by simp [startItem, Item.start]⟩
  · intro j hj
    omega
  · intro j hj
    refine List.eq_nil_iff_forall_not_mem.mpr fun i hi => ?_
    have := (ParseState.mem_column_initial.mp hi).1
    omega

/-- Building the next column. -/
theorem build {t : Terminal} (h : w.BuiltTo admits input k s) (ht : input[k]? = some t) :
    w.BuiltTo admits input (k + 1) (s.build w admits t k) := by
  have hext := s.extends_build w admits t k
  have hsound : (s.build w admits t k).IsSound w.IsRule w input :=
    h.sound.build (fun _ _ hr => hr) ht
  constructor
  · exact hext.mem_column h.start
  · exact hsound
  · intro j hj t' ht'
    by_cases hjk : j = k
    · subst hjk
      obtain rfl : t = t' := Option.some.inj (ht.symm.trans ht')
      exact ParseState.closed_build ..
    · exact (h.closed j (by omega) t' ht').build_of_lt (by omega) fun i hi => (h.sound j i hi).1
  · intro j hj
    rw [ParseState.column_build_of_ne w admits t s (by omega) (by omega)]
    exact h.empty j (by omega)

/-- Behind an empty column nothing is left to build. -/
theorem of_column_eq_nil (h : w.BuiltTo admits input k s) (hk : s.chart.column k = []) {k' : Nat}
    (hkk' : k ≤ k') : w.BuiltTo admits input k' s := by
  have hempty (j : Nat) (hj : k ≤ j) : s.chart.column j = [] := by
    rcases Nat.eq_or_lt_of_le hj with rfl | hj
    · exact hk
    · exact h.empty j hj
  refine ⟨h.start, h.sound, fun j _ t ht => ?_, fun j hj => hempty j (by omega)⟩
  by_cases hjk : j < k
  · exact h.closed j hjk t ht
  · exact closed_of_column_eq_nil (hempty j (by omega))

/-! ### Moving over a derivation -/

/-- If the input goes on at a column, then the column is closed for the terminal that comes next. -/
theorem closed_of_drop_eq_cons (h : w.BuiltTo admits input input.length s) {t : Terminal}
    {rest : List Terminal} (hinput : input.drop k = t :: rest) : w.Closed admits t k s := by
  have ht : input[k]? = some t := by
    rw [← List.head?_drop, hinput]
    rfl
  exact h.closed k (List.getElem?_eq_some_iff.mp ht).1 t ht

/-- A rule is started where an item waits for it, if what the rule yields is empty or begins with
what comes next in the input. -/
theorem start_mem_column (h : w.BuiltTo w.grammar.admits input input.length s)
    {p : Item} (hp : p ∈ s.chart.column k) {id : RuleId} {r : Rule} (hrule : w.rule? id = some r)
    (hwait : w.next? p = some (.nonterminal r.lhs)) {u rest : List Terminal} {t : Terminal}
    (hu : Yields w.IsRule r.rhs u) (hinput : input.drop k = t :: rest)
    (hfirst : u = [] ∨ u.head? = some t) :
    Item.start id k ∈ s.chart.column k := by
  have hadmitted : id ∈ w.admitted (w.grammar.admits t) r.lhs :=
    List.mem_filter.mpr ⟨mem_rulesFor.mpr ⟨r, hrule, rfl⟩,
      (rhs_eq_of_rule? hrule).symm ▸ admits_of_yields hu hfirst⟩
  exact (h.closed_of_drop_eq_cons hinput).predicted p hp _ hwait _ hadmitted

/-- A rule is started where an item waits for it, if the rule yields what comes next in the input
and the input goes on behind that. -/
theorem start_mem_column_of_yields (h : w.BuiltTo w.grammar.admits input input.length s)
    {p : Item} (hp : p ∈ s.chart.column k) {id : RuleId} {r : Rule} (hrule : w.rule? id = some r)
    (hwait : w.next? p = some (.nonterminal r.lhs)) {u rest : List Terminal}
    (hu : Yields w.IsRule r.rhs u) (hinput : input.drop k = u ++ rest) (hrest : rest ≠ []) :
    Item.start id k ∈ s.chart.column k := by
  obtain ⟨t, x, hx⟩ : ∃ t x, u ++ rest = t :: x :=
    List.exists_cons_of_ne_nil fun hnil => hrest (List.append_eq_nil_iff.mp hnil).2
  refine h.start_mem_column hp hrule hwait hu (hinput.trans hx) ?_
  cases u with
  | nil => exact .inl rfl
  | cons _ _ => exact .inr (congrArg some (List.cons.inj hx).1)

/-- An item moves over everything that the symbols behind its dot yield, if the input goes on
behind it. -/
theorem mem_column_of_yields (h : w.BuiltTo w.grammar.admits input input.length s)
    {α : List Symbol} {v : List Terminal} (hα : Yields w.IsRule α v) {i : Nat} {p : Item}
    {γ : List Symbol} {rest : List Terminal} (hp : p ∈ s.chart.column i)
    (hrhs : (w.rhs p.rule).drop p.dot = α ++ γ) (hinput : input.drop i = v ++ rest)
    (hrest : rest ≠ []) :
    { p with dot := p.dot + α.length } ∈ s.chart.column (i + v.length) := by
  induction hα generalizing i p γ rest with
  | nil => exact hp
  | @terminal t α v hα ih =>
    obtain ⟨hwait, hbehind⟩ := next?_of_drop_eq_cons hrhs
    have hadv : p.advance ∈ s.chart.column (i + 1) :=
      (h.closed_of_drop_eq_cons hinput).scanned p hp hwait
    have := ih hadv hbehind (drop_add_length (u := [t]) hinput) hrest
    simpa only [Item.rule_advance, Item.dot_advance, Item.origin_advance, List.length_cons,
      Nat.add_assoc, Nat.add_comm 1] using this
  | @nonterminal n α β u v hr hβ hα ihβ ihα =>
    obtain ⟨hwait, hbehind⟩ := next?_of_drop_eq_cons hrhs
    rw [List.append_assoc] at hinput
    have hvrest : v ++ rest ≠ [] := fun hnil => hrest (List.append_eq_nil_iff.mp hnil).2
    -- the rule is started where the item waits for it
    obtain ⟨id, r, hrule, rfl, rfl⟩ := hr.exists_rule?
    have hstart := h.start_mem_column_of_yields hp hrule hwait hβ hinput hvrest
    -- it is completed where its share of the input ends, and the item advances over it there
    have hcomplete := ihβ (γ := []) hstart (by simp [Item.start, rhs_eq_of_rule? hrule]) hinput
      hvrest
    obtain ⟨t, x, hx⟩ := List.exists_cons_of_ne_nil hvrest
    have hnext := (drop_add_length hinput).trans hx
    have hadv := ((h.closed_of_drop_eq_cons hnext).advanced hcomplete
      (by simp only [Item.start]; omega) hp
      (completed?_eq_some.mpr ⟨by simp [Item.start, rhs_eq_of_rule? hrule], r, hrule, rfl⟩) hwait).1
    have := ihα hadv hbehind (drop_add_length hinput) hrest
    simpa only [Item.rule_advance, Item.dot_advance, Item.origin_advance, List.length_cons,
      List.length_append, Nat.add_assoc, Nat.add_comm 1] using this

/-- A chart that has been built to the end of the input has the accepting item if and only if the
sentence symbol yields the tokens. -/
theorem acceptItem_mem_column_iff {tokens : List Token}
    (h : w.BuiltTo w.grammar.admits (inputTerminals tokens) (inputTerminals tokens).length s) :
    w.acceptItem ∈ s.chart.column (tokens.length + 1) ↔
      Yields w.IsRule [.nonterminal w.grammar.sentence] (tokens.map Token.terminal) := by
  constructor
  · intro hmem
    have hyields := (h.sound _ _ hmem).2
    rw [← length_inputTerminals, acceptItem, between_zero_length, rhs_startId,
      inputTerminals_eq] at hyields
    exact (yields_append_terminal_iff (α := [.nonterminal _])).mp hyields
  · intro hyields
    have hsentence := h.mem_column_of_yields (γ := [.terminal .eof]) hyields h.start
      (by simp [startItem, Item.start]) (inputTerminals_eq tokens) (List.cons_ne_nil _ _)
    have heof : (inputTerminals tokens)[tokens.length]? = some .eof := by
      simp [inputTerminals_eq]
    have hclosed := h.closed tokens.length (by simp) .eof heof
    rw [Nat.zero_add, List.length_map] at hsentence
    exact hclosed.scanned _ hsentence (by simp [next?, startItem, Item.start])

end BuiltTo

/-! ### Passes -/

/-- A pass builds all columns that items reach, and blames no token if it finds the accepting
item. -/
theorem builtTo_pass {rest : List Token} (h : w.BuiltTo admits input k s)
    (hinput : input.drop k = inputTerminals rest) :
    w.BuiltTo admits input input.length (pass w admits k s rest).state ∧
      ((pass w admits k s rest).blamed = none ↔
        w.acceptItem ∈
          (pass w admits k s rest).state.chart.column (k + rest.length + 1)) := by
  have hlength : input.length = k + rest.length + 1 := by
    have := congrArg List.length hinput
    rw [List.length_drop, length_inputTerminals] at this
    omega
  have hget : input[k]? = (inputTerminals rest).head? := by rw [← List.head?_drop, hinput]
  induction rest generalizing k s with
  | nil =>
    refine ⟨?_, ?_⟩
    · rw [hlength]
      exact h.build hget
    · simp [pass, Chart.has]
  | cons token rest ih =>
    have hbuild := h.build (t := token.terminal) hget
    have hdrop : input.drop (k + 1) = inputTerminals rest :=
      drop_add_length (u := [token.terminal]) hinput
    rw [pass]
    split
    · next hempty =>
      have hend : w.BuiltTo admits input input.length _ :=
        hbuild.of_column_eq_nil hempty (by omega)
      refine ⟨hend, ?_⟩
      rw [hbuild.empty (k + (token :: rest).length + 1) (by rw [List.length_cons]; omega)]
      simp
    · rw [List.length_cons] at hlength ⊢
      have := ih hbuild hdrop (by omega) (by rw [← List.head?_drop, hdrop])
      rwa [Nat.add_right_comm k 1, Nat.add_assoc k] at this

/-- A fresh pass ends with the accepting item if and only if the sentence symbol yields the
tokens, and then it blames no token. -/
theorem pass_initial (w : WidenedGrammar) (tokens : List Token) :
    (w.acceptItem ∈ (pass w w.grammar.admits 0 (.initial w) tokens).state.chart.column
        (tokens.length + 1) ↔
      Yields w.IsRule [.nonterminal w.grammar.sentence] (tokens.map Token.terminal)) ∧
    ((pass w w.grammar.admits 0 (.initial w) tokens).blamed = none ↔
      Yields w.IsRule [.nonterminal w.grammar.sentence] (tokens.map Token.terminal)) := by
  obtain ⟨hbuilt, hblamed⟩ :=
    builtTo_pass (.initial w w.grammar.admits (inputTerminals tokens))
      (show (inputTerminals tokens).drop 0 = inputTerminals tokens from rfl)
  rw [Nat.zero_add] at hblamed
  exact ⟨hbuilt.acceptItem_mem_column_iff, hblamed.trans hbuilt.acceptItem_mem_column_iff⟩

end WidenedGrammar

/-! ### Recognition without recovery -/

section Recovery

variable {admits : Terminal → List Symbol → Bool} {tokens : List Token} {w : WidenedGrammar}

/-- An attempt does not make the sentence rule narrower. -/
theorem widenings_le_attempt (admits : Terminal → List Symbol → Bool) (w : WidenedGrammar)
    (hne : tokens ≠ []) (last : Option (Fin tokens.length)) (s : ParseState) :
    w.widenings ≤ (attempt admits tokens hne last w s).2.1.widenings := by
  fun_induction attempt admits tokens hne last w s with
  | case1 => exact Nat.le_refl _
  | case2 => exact Nat.le_succ _
  | case3 _ _ _ _ _ _ _ _ _ _ ih => exact Nat.le_trans (Nat.le_succ _) ih

/-- An attempt whose first pass succeeds ends with it. -/
theorem attempt_of_blamed_eq_none (hne : tokens ≠ []) {s : ParseState}
    (h : (pass w admits 0 s tokens).blamed = none) :
    (attempt admits tokens hne none w s).2 = (w, some (pass w admits 0 s tokens).state) := by
  rw [attempt]
  split
  · rfl
  · next b hb => simp [h] at hb

/-- An attempt whose first pass fails makes the sentence rule wider. -/
theorem lt_widenings_attempt (hne : tokens ≠ []) {s : ParseState}
    (h : (pass w admits 0 s tokens).blamed ≠ none) :
    w.widenings < (attempt admits tokens hne none w s).2.1.widenings := by
  rw [attempt]
  split
  · next hb => exact absurd hb h
  · split
    · exact Nat.lt_succ_self _
    · exact widenings_le_attempt admits w.widen hne _ _

theorem widenings_le_recognizeFrom {d : Derivation}
    (h : (recognizeFrom admits w tokens).derivation = some d) :
    w.widenings ≤ d.grammar.widenings := by
  fun_induction recognizeFrom admits w tokens with
  | case1 => simp at h
  | case2 w tokens hne events w' s he =>
    obtain rfl := Option.some.inj h
    have := widenings_le_attempt admits w hne none (.initial w)
    rwa [he] at this
  | case3 w tokens hne events w' he r ih =>
    have := widenings_le_attempt admits w hne none (.initial w)
    rw [he] at this
    exact Nat.le_trans this (ih h)

/-- A recognition whose first pass succeeds accepts the tokens as they are, by the sentence rule
as it is. -/
theorem recognizeFrom_of_blamed_eq_none (hne : tokens ≠ [])
    (h : (pass w admits 0 (.initial w) tokens).blamed = none) :
    ∃ s : ParseState, (recognizeFrom admits w tokens).derivation =
      some ⟨w, s.chart, s.forest, tokens⟩ := by
  have hattempt := attempt_of_blamed_eq_none hne h
  rw [recognizeFrom, dif_neg hne]
  split
  · next he =>
    rw [he] at hattempt
    obtain ⟨rfl, hs⟩ := Prod.mk.inj hattempt
    exact ⟨_, rfl⟩
  · next he =>
    rw [he] at hattempt
    simp at hattempt

/-- A recognition whose first pass fails accepts nothing by the sentence rule as it is. -/
theorem lt_widenings_recognizeFrom (hne : tokens ≠ [])
    (h : (pass w admits 0 (.initial w) tokens).blamed ≠ none) {d : Derivation}
    (hd : (recognizeFrom admits w tokens).derivation = some d) :
    w.widenings < d.grammar.widenings := by
  have hattempt := lt_widenings_attempt hne h
  rw [recognizeFrom, dif_neg hne] at hd
  split at hd
  · next he =>
    rw [he] at hattempt
    obtain rfl := Option.some.inj hd
    exact hattempt
  · next he =>
    rw [he] at hattempt
    exact Nat.lt_of_lt_of_le hattempt (widenings_le_recognizeFrom hd)

end Recovery

/-- A fresh pass with a sentence rule of any width ends with the accepting item behind the end of
the input if and only if the input is in the language. So a recognition of some tokens accepts by
the declared sentence rule if and only if they are a sentence, and then it keeps every token. -/
theorem recognize_exact (g : Grammar) (k : Nat) (tokens : List Token) :
    ((pass (g.widened k) g.admits 0 (.initial (g.widened k)) tokens).state.chart.has
        (tokens.length + 1) (g.widened k).acceptItem ↔
      tokens.map Token.terminal ++ [.eof] ∈ (g.widened k).contextFree.language) ∧
    (tokens ≠ [] →
      ((∃ d, (g.recognize tokens).derivation = some d ∧ d.grammar = g.unwidened) ↔
        g.unwidened.contextFree.Derives [.nonterminal g.sentence]
          (tokens.map fun token => .terminal token.terminal)) ∧
      ∀ d, (g.recognize tokens).derivation = some d → d.grammar = g.unwidened →
        d.tokens = tokens) := by
  refine ⟨?_, fun hne => ?_⟩
  · rw [WidenedGrammar.mem_language_iff_yields, Chart.has, List.contains_iff_mem]
    exact ((g.widened k).pass_initial tokens).1
  have hblamed := (g.unwidened.pass_initial tokens).2
  have hderives := WidenedGrammar.derives_iff_yields (w := g.unwidened)
    (α := [.nonterminal g.sentence]) (v := tokens.map Token.terminal)
  rw [List.map_map] at hderives
  have haccept (h : (pass g.unwidened g.admits 0 (.initial g.unwidened) tokens).blamed = none) :=
    recognizeFrom_of_blamed_eq_none hne h
  have hreject {d : Derivation} (hd : (g.recognize tokens).derivation = some d)
      (hgrammar : d.grammar = g.unwidened) :
      (pass g.unwidened g.admits 0 (.initial g.unwidened) tokens).blamed = none := by
    by_contra h
    have := lt_widenings_recognizeFrom hne h hd
    rw [hgrammar] at this
    exact Nat.lt_irrefl _ this
  refine ⟨?_, fun d hd hgrammar => ?_⟩
  · refine Iff.trans ⟨fun ⟨d, hd, hgrammar⟩ => hreject hd hgrammar, fun h => ?_⟩
      (hblamed.trans hderives.symm)
    obtain ⟨s, hs⟩ := haccept h
    exact ⟨_, hs, rfl⟩
  · obtain ⟨s, hs⟩ := haccept (hreject hd hgrammar)
    obtain rfl := Option.some.inj (hd.symm.trans hs)
    rfl

/-- A noun phrase is a string of determiners, derived in many ways: the rules are recursive on both
sides, and one of them is empty. -/
def Grammar.determiners : Grammar where
  entry := ⟨.sent, [.nonterminal .np], .sentence⟩
  others := [⟨.np, [.nonterminal .np, .nonterminal .np], .sentence⟩, ⟨.np, [], .listEmpty⟩,
    ⟨.np, [.terminal .det], .word⟩]
  recovery := .np
  distinct := by decide
  start_unused := by decide
  entry_unique := by decide
  entry_ends := rfl
  faultless := by decide

/-- Two determiners are accepted as they are. -/
theorem recognize_exact_determiners :
    ([⟨.det, none, none⟩, ⟨.det, none, none⟩] : List Token) ≠ [] ∧
      ∃ d, (Grammar.determiners.recognize [⟨.det, none, none⟩, ⟨.det, none, none⟩]).derivation =
        some d ∧ d.grammar = Grammar.determiners.unwidened ∧
        d.tokens = [⟨.det, none, none⟩, ⟨.det, none, none⟩] := by
  have hne : ([⟨.det, none, none⟩, ⟨.det, none, none⟩] : List Token) ≠ [] := by decide
  obtain ⟨haccept, hkeep⟩ := (recognize_exact Grammar.determiners 0 _).2 hne
  have hrule {r : Rule} (hr : r ∈ Grammar.determiners.unwidened.rules) :
      Grammar.determiners.unwidened.IsRule r.lhs r.rhs := ⟨r, hr, rfl, rfl⟩
  have hdet : Yields Grammar.determiners.unwidened.IsRule [.nonterminal .np] [.det] :=
    .single (hrule (r := ⟨.np, [.terminal .det], .word⟩) (by decide)) (.terminal .nil)
  have hboth : Yields Grammar.determiners.unwidened.IsRule [.nonterminal .np] [.det, .det] :=
    .single (hrule (r := ⟨.np, [.nonterminal .np, .nonterminal .np], .sentence⟩) (by decide))
      (hdet.append hdet)
  have hsentence : Yields Grammar.determiners.unwidened.IsRule [.nonterminal .sent] [.det, .det] :=
    .single (hrule (r := ⟨.sent, [.nonterminal .np], .sentence⟩) (by decide)) hboth
  obtain ⟨d, hd, hgrammar⟩ := haccept.mpr (WidenedGrammar.derives_iff_yields.mpr hsentence)
  exact ⟨hne, d, hd, hgrammar, hkeep d hd hgrammar⟩

end NounPhrase
