import NounPhrase.Proofs.Derivation.Begins
import NounPhrase.Proofs.FirstTable.Closed
import NounPhrase.Proofs.Grammar.Widths

/-!
# The admission test passes every rule of use

A rule is started before a terminal only if the first sets admit it. The first sets follow first
symbols alone, and the mark of emptiness makes up for the symbols behind one that vanishes: every
rule that yields nothing, or a string that begins with the terminal, is admitted. This holds of any
rules that a table of first sets holds. Widening leaves the first symbols as they are, so the first
sets of the grammar serve at every width.

## Main definitions

* `FirstTable.Holds`: a table holds what some rules contribute.

## Main results

* `FirstTable.holds_ofRules`, `WidenedGrammar.holds_first`: the first sets hold what the rules of
  a table contribute, and what the rules of any width do.
* `FirstTable.Holds.admits_of_begins`, `FirstTable.Holds.admits_of_vanishes`: a nonterminal is
  admitted before what it can begin with, and everywhere if it can vanish.
* `WidenedGrammar.admits_of_yields`: a rule is admitted before the first terminal of its yield, and
  everywhere if it yields nothing.
* `WidenedGrammar.admits_of_begins`: a rule is admitted before what it can begin with.
* `admits_of_derives`: the first sets admit what is derived, for all rule tables and at all widths.
-/

namespace NounPhrase

/-! ### Rules that a table holds -/

namespace FirstTable

/-- The table holds what the rules of the relation contribute. -/
def Holds (table : FirstTable) (R : Nonterminal → List Symbol → Prop) : Prop :=
  ∀ n β, R n β → ∃ r, table.Covers r ∧ r.lhs = n ∧ r.rhs = β

theorem holds_ofRules (rules : List Rule) : (ofRules rules).Holds (RuleTable.IsRule rules) := by
  rintro n β ⟨r, hr, hlhs, hrhs⟩
  exact ⟨r, covers_ofRules hr, hlhs, hrhs⟩

variable {table : FirstTable} {R : Nonterminal → List Symbol → Prop} {α : List Symbol}
  {n : Nonterminal} {t : Terminal}

/-- If a string of symbols vanishes, then the first set of the nonterminal that it begins with is
marked. -/
theorem Holds.exists_empty (h : table.Holds R) (hα : Yields R α []) {α' : List Symbol}
    (hn : α = .nonterminal n :: α') : ∃ s, table.get? n = some s ∧ s.empty := by
  induction hα using Yields.vanishing_induction generalizing n α' with
  | nil => cases hn
  | nonterminal hr hβ _ ihβ _ =>
    obtain ⟨hn, -⟩ := List.cons.inj hn
    obtain ⟨r, ⟨⟨s, hs, hempty, -⟩, hcorner⟩, rfl, rfl⟩ := h _ _ hr
    obtain rfl := Symbol.nonterminal.inj hn
    refine ⟨s, hs, ?_⟩
    cases hrhs : r.rhs with
    | nil => exact hempty hrhs
    | cons a γ =>
      cases a with
      | terminal t => rw [hrhs] at hβ; cases hβ
      | nonterminal m =>
        obtain ⟨s', hs', hempty'⟩ := ihβ hrhs
        exact (hcorner m γ s s' hrhs hs hs').2 hempty'

/-- What a string of symbols can begin with is admitted by the first set of the nonterminal that it
begins with. -/
theorem Holds.exists_admits (h : table.Holds R) (hα : Begins R α t) {α' : List Symbol}
    (hn : α = .nonterminal n :: α') : ∃ s, table.get? n = some s ∧ s.admits t := by
  induction hα generalizing n α' with
  | terminal => cases hn
  | @nonterminal n' β t hr hβ _ ih =>
    obtain ⟨hn, -⟩ := List.cons.inj hn
    obtain ⟨r, ⟨⟨s, hs, -, hterminal⟩, hcorner⟩, rfl, rfl⟩ := h _ _ hr
    obtain rfl := Symbol.nonterminal.inj hn
    refine ⟨s, hs, ?_⟩
    rw [FirstSet.admits, Bool.or_eq_true, List.contains_iff_mem]
    cases hrhs : r.rhs with
    | nil => rw [hrhs] at hβ; cases hβ
    | cons a γ =>
      cases a with
      | terminal t' =>
        rw [hrhs] at hβ
        cases hβ
        exact .inr (hterminal _ _ hrhs)
      | nonterminal m =>
        obtain ⟨s', hs', hadmits⟩ := ih hrhs
        have hsub := hcorner m γ s s' hrhs hs hs'
        rw [FirstSet.admits, Bool.or_eq_true, List.contains_iff_mem] at hadmits
        exact hadmits.imp hsub.2 (hsub.1 t)
  | @vanishing n' α β t hr hβ _ _ =>
    obtain ⟨hn, -⟩ := List.cons.inj hn
    obtain rfl := Symbol.nonterminal.inj hn
    obtain ⟨s, hs, hempty⟩ := h.exists_empty (.single hr hβ) rfl
    exact ⟨s, hs, by simp [FirstSet.admits, hempty]⟩

/-- A nonterminal is admitted before every terminal that it can begin with. -/
theorem Holds.admits_of_begins (h : table.Holds R) (hn : Begins R [.nonterminal n] t) :
    table.admits n t := by
  obtain ⟨s, hs, hadmits⟩ := h.exists_admits hn rfl
  simp [admits, hs, hadmits]

/-- A nonterminal that can vanish is admitted before every terminal. -/
theorem Holds.admits_of_vanishes (h : table.Holds R) (hn : Yields R [.nonterminal n] [])
    (t : Terminal) : table.admits n t := by
  obtain ⟨s, hs, hempty⟩ := h.exists_empty hn rfl
  simp [admits, hs, FirstSet.admits, hempty]

end FirstTable

/-! ### At every width -/

namespace WidenedGrammar

variable {w : WidenedGrammar}

/-- The first sets hold what the rules contribute, at every width of the sentence rule. -/
theorem covers_first {r : Rule} (hr : r ∈ w.rules) : w.grammar.first.Covers r := by
  have covers {s : Rule} (hs : s ∈ augmented w.grammar.entry w.grammar.others) :
      w.grammar.first.Covers s := by
    rw [w.grammar.first_eq]
    exact FirstTable.covers_ofRules hs
  have hr : r ∈ w.entry :: (w.grammar.others ++ [.start w.grammar.entry.lhs]) := hr
  rcases List.mem_cons.mp hr with rfl | hr
  · -- the widened sentence rule begins as the declared one
    obtain ⟨⟨s, hs, hempty, hterminal⟩, hcorner⟩ :=
      covers (s := w.grammar.entry) (by simp [augmented])
    obtain ⟨α, hα⟩ := w.grammar.exists_rhs_entry
    have hhead (a : Symbol) (β : List Symbol) (h : w.entry.rhs = a :: β) :
        ∃ γ, w.grammar.entry.rhs = a :: γ := by
      have hw : w.entry.rhs = w.grammar.entry.rhs ++
        List.replicate w.widenings (.nonterminal w.grammar.recovery) := rfl
      rw [hw, hα] at h
      rw [hα]
      cases α with
      | nil => exact ⟨[], by simpa using (List.cons.inj h).1⟩
      | cons b α => exact ⟨_, by rw [List.cons_append, (List.cons.inj h).1]⟩
    refine ⟨⟨s, hs, fun h => ?_, fun t β h => ?_⟩, fun m β s' u h hs' hu => ?_⟩
    · simp [entry, hα] at h
    · obtain ⟨γ, hγ⟩ := hhead _ _ h
      exact hterminal t γ hγ
    · obtain ⟨γ, hγ⟩ := hhead _ _ h
      exact hcorner m γ s' u hγ hs' hu
  · exact covers (List.mem_cons_of_mem _ hr)

theorem holds_first (w : WidenedGrammar) : w.grammar.first.Holds w.IsRule := by
  rintro n β ⟨r, hr, hlhs, hrhs⟩
  exact ⟨r, covers_first hr, hlhs, hrhs⟩

/-- A rule is admitted before every terminal that it can begin with. -/
theorem admits_of_begins {β : List Symbol} {t : Terminal} (h : Begins w.IsRule β t) :
    w.grammar.admits t β := by
  unfold Grammar.admits
  split
  · rfl
  · cases h
    simp
  · obtain ⟨s, hs, hadmits⟩ := w.holds_first.exists_admits h rfl
    simp [FirstTable.admits, hs, hadmits]

/-- A rule is admitted before the first terminal of its yield, and before every terminal if it
yields nothing. -/
theorem admits_of_yields {β : List Symbol} {v : List Terminal} (h : Yields w.IsRule β v)
    {t : Terminal} (ht : v = [] ∨ v.head? = some t) : w.grammar.admits t β := by
  rcases ht with rfl | ht
  · unfold Grammar.admits
    split
    · rfl
    · cases h
    · obtain ⟨s, hs, hempty⟩ := w.holds_first.exists_empty h rfl
      simp [FirstTable.admits, hs, FirstSet.admits, hempty]
  · obtain ⟨v, rfl⟩ := List.head?_eq_some_iff.mp ht
    exact admits_of_begins h.begins

end WidenedGrammar

/-- If a nonterminal derives a string of symbols that begins with a terminal, then the first sets
admit it before this terminal, and if it derives the empty string, before every one. This holds of
the first sets of any rule table, and of those of a grammar at all widths of its sentence rule,
where they are the first sets of the rules as they were declared. -/
theorem admits_of_derives :
    (∀ (rules : List Rule) (n : Nonterminal),
      (∀ t x, (RuleTable.contextFree rules).Derives [.nonterminal n] (.terminal t :: x) →
        (FirstTable.ofRules rules).admits n t) ∧
      ((RuleTable.contextFree rules).Derives [.nonterminal n] [] →
        ∀ t, (FirstTable.ofRules rules).admits n t)) ∧
    ∀ w : WidenedGrammar, w.grammar.first = FirstTable.ofRules w.grammar.rules ∧
      ∀ n, (∀ t x, w.contextFree.Derives [.nonterminal n] (.terminal t :: x) →
          w.grammar.first.admits n t) ∧
        (w.contextFree.Derives [.nonterminal n] [] → ∀ t, w.grammar.first.admits n t) := by
  refine ⟨fun rules n => ⟨fun t x h => ?_, fun h => ?_⟩, fun w => ⟨w.grammar.first_eq,
    fun n => ⟨fun t x h => ?_, fun h => ?_⟩⟩⟩
  · exact (FirstTable.holds_ofRules rules).admits_of_begins
      (RuleTable.begins_of_derives (α := [.nonterminal n]) h)
  · exact (FirstTable.holds_ofRules rules).admits_of_vanishes
      (RuleTable.yields_of_derives (α := [.nonterminal n]) (v := []) h)
  · exact w.holds_first.admits_of_begins
      (WidenedGrammar.begins_of_derives (α := [.nonterminal n]) h)
  · exact w.holds_first.admits_of_vanishes
      (WidenedGrammar.yields_of_derives (α := [.nonterminal n]) (v := []) h)

/-- A sentence is an optional determiner. -/
def Grammar.optionalDeterminers : Grammar where
  entry := ⟨.sent, [.nonterminal .detQ], .sentence⟩
  others := [⟨.detQ, [], .optNone⟩, ⟨.detQ, [.terminal .det], .optTerm⟩]
  recovery := .detQ
  distinct := by decide
  start_unused := by decide
  entry_unique := by decide
  entry_ends := rfl
  faultless := by decide

/-- A noun behind an optional determiner can come first, though no rule begins with it; and so can
a determiner that only the widened sentence rule has a place for, and anything at all, since the
sentence can vanish. -/
theorem admits_of_derives_determiners :
    (RuleTable.contextFree [⟨.np, [.nonterminal .detQ, .terminal .comNoun], .npRest⟩,
        ⟨.detQ, [], .optNone⟩]).Derives [.nonterminal .np] [.terminal .comNoun] ∧
      (FirstTable.ofRules [⟨.np, [.nonterminal .detQ, .terminal .comNoun], .npRest⟩,
        ⟨.detQ, [], .optNone⟩]).admits .np .comNoun ∧
      (Grammar.optionalDeterminers.widened 1).contextFree.Derives [.nonterminal .sent]
        [.terminal .det, .terminal .det] ∧
      Grammar.optionalDeterminers.first.admits .sent .det ∧
      (Grammar.optionalDeterminers.widened 1).contextFree.Derives [.nonterminal .sent] [] ∧
      Grammar.optionalDeterminers.first.admits .sent .finVerb := by
  obtain ⟨htable, hwidened⟩ := admits_of_derives
  obtain ⟨-, hsent⟩ := hwidened (Grammar.optionalDeterminers.widened 1)
  obtain ⟨hbegins, hvanishes⟩ := hsent .sent
  have hrule {r : Rule} (hr : r ∈ (Grammar.optionalDeterminers.widened 1).rules) :
      (Grammar.optionalDeterminers.widened 1).IsRule r.lhs r.rhs := ⟨r, hr, rfl, rfl⟩
  have hnone := Yields.single (hrule (r := ⟨.detQ, [], .optNone⟩) (by decide)) .nil
  have hdet := Yields.single (hrule (r := ⟨.detQ, [.terminal .det], .optTerm⟩) (by decide))
    (.terminal .nil)
  have hentry := hrule (r := ⟨.sent, [.nonterminal .detQ, .nonterminal .detQ], .sentence⟩)
    (by decide)
  have hnoun : (RuleTable.contextFree [⟨.np, [.nonterminal .detQ, .terminal .comNoun], .npRest⟩,
      ⟨.detQ, [], .optNone⟩]).Derives [.nonterminal .np] [.terminal .comNoun] :=
    RuleTable.derives_of_yields (α := [.nonterminal .np]) (v := [.comNoun])
      (.single ⟨_, List.mem_cons_self, rfl, rfl⟩
        (.nonterminal ⟨_, List.mem_cons_of_mem _ List.mem_cons_self, rfl, rfl⟩ .nil
          (.terminal .nil)))
  have hdets : (Grammar.optionalDeterminers.widened 1).contextFree.Derives [.nonterminal .sent]
      [.terminal .det, .terminal .det] :=
    WidenedGrammar.derives_of_yields (α := [.nonterminal .sent]) (v := [.det, .det])
      (.single hentry (hdet.append hdet))
  have hempty : (Grammar.optionalDeterminers.widened 1).contextFree.Derives
      [.nonterminal .sent] [] :=
    WidenedGrammar.derives_of_yields (α := [.nonterminal .sent]) (v := [])
      (.single hentry (hnone.append hnone))
  exact ⟨hnoun, (htable _ .np).1 .comNoun [] hnoun, hdets, hbegins .det _ hdets, hempty,
    hvanishes hempty .finVerb⟩

end NounPhrase
