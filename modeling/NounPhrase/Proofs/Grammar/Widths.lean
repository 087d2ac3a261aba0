import NounPhrase.Grammar.Widened

/-!
# Grammars at several widths

The rules of a widened grammar are those of the grammar, with copies of the recovery symbol at the
end of the sentence rule. A wider sentence rule begins with every narrower one, so the dots of an
item that was made before a recovery still stand in the rule behind it.

## Main definitions

* `Grammar.widened`: the grammar with a number of widenings.
* `WidenedGrammar.rules`: all rules, the start rule last.
* `WidenedGrammar.IsRule`: the rules as a relation between a nonterminal and a right-hand side.
* `WidenedGrammar.IsNestedRule`: the same with sentence rules of all widths so far.
* `Rule.upTo`: a rule with a part of its right-hand side.

## Main results

* `WidenedGrammar.rule?_eq`: the number of a rule is its place.
* `WidenedGrammar.next?_startItem`, `WidenedGrammar.next?_advance_startItem`: what is waited for at
  the beginning and at the end.
* `WidenedGrammar.completed?_eq_some`: what it means for an item to be complete.
* `WidenedGrammar.exists_upTo_mem_rules`: the rule that was complete at an earlier width.
* `Grammar.rhs_isPrefix`: a wider right-hand side begins with a narrower one.
* `WidenedGrammar.next?_ne_start`: no item waits for the start symbol.
-/

namespace NounPhrase

/-- The grammar after a number of widenings. -/
abbrev Grammar.widened (g : Grammar) (k : Nat) : WidenedGrammar := ⟨g, k⟩

namespace WidenedGrammar

variable (w : WidenedGrammar)

/-- All rules, with the start rule at the end. -/
def rules : List Rule := augmented w.entry w.grammar.others

theorem rule?_eq (id : RuleId) : w.rule? id = w.rules[id.index]? := by
  obtain ⟨_ | k⟩ := id
  · rfl
  · rw [rule?, Grammar.entryId, if_neg (by simp), Grammar.rule?_eq]
    rfl

theorem rhs_eq_of_rule? {w : WidenedGrammar} {id : RuleId} {r : Rule} (h : w.rule? id = some r) :
    w.rhs id = r.rhs := by
  rw [rhs, h]
  rfl

/-- The rules, as a relation between a nonterminal and a right-hand side. -/
def IsRule (n : Nonterminal) (β : List Symbol) : Prop := ∃ r ∈ w.rules, r.lhs = n ∧ r.rhs = β

/-- The rules of a derivation after recovery: those that were declared, and sentence rules of the
declared width or wider, up to the present one. -/
def IsNestedRule (n : Nonterminal) (β : List Symbol) : Prop :=
  ∃ k ≤ w.widenings, (w.grammar.widened k).IsRule n β

theorem isRule_of_rule? {w : WidenedGrammar} {id : RuleId} {r : Rule} (h : w.rule? id = some r) :
    w.IsRule r.lhs (w.rhs id) := by
  rw [rule?_eq] at h
  exact ⟨r, List.mem_of_getElem? h, rfl, (rhs_eq_of_rule? (by rw [rule?_eq, h])).symm⟩

/-- A rule of the relation has a number. -/
theorem IsRule.exists_rule? {w : WidenedGrammar} {n : Nonterminal} {β : List Symbol}
    (h : w.IsRule n β) : ∃ id r, w.rule? id = some r ∧ r.lhs = n ∧ r.rhs = β := by
  obtain ⟨r, hr, hlhs, hrhs⟩ := h
  obtain ⟨k, hk⟩ := List.getElem?_of_mem hr
  exact ⟨⟨k⟩, r, (w.rule?_eq ⟨k⟩).trans hk, hlhs, hrhs⟩

theorem IsRule.isNestedRule {w : WidenedGrammar} {n : Nonterminal} {β : List Symbol}
    (h : w.IsRule n β) : w.IsNestedRule n β :=
  ⟨w.widenings, Nat.le_refl _, h⟩

theorem IsNestedRule.widen {w : WidenedGrammar} {n : Nonterminal} {β : List Symbol}
    (h : w.IsNestedRule n β) : w.widen.IsNestedRule n β := by
  obtain ⟨k, hk, h⟩ := h
  exact ⟨k, Nat.le_succ_of_le hk, h⟩

/-- A nested rule is a sentence rule of some width, or a rule of the grammar as it was declared. -/
theorem IsNestedRule.cases {w : WidenedGrammar} {n : Nonterminal} {β : List Symbol}
    (h : w.IsNestedRule n β) :
    (∃ k ≤ w.widenings, n = w.grammar.sentence ∧
      β = w.grammar.entry.rhs ++ List.replicate k (.nonterminal w.grammar.recovery)) ∨
    ∃ r ∈ w.grammar.others ++ [.start w.grammar.sentence], r.lhs = n ∧ r.rhs = β := by
  obtain ⟨k, hk, r, hr, rfl, rfl⟩ := h
  rcases List.mem_cons.mp hr with rfl | hr
  · exact .inl ⟨k, hk, rfl, rfl⟩
  · exact .inr ⟨r, hr, rfl, rfl⟩

theorem isRule_of_mem_others {w : WidenedGrammar} {r : Rule}
    (hr : r ∈ w.grammar.others ++ [.start w.grammar.sentence]) : w.IsRule r.lhs r.rhs :=
  ⟨r, List.mem_cons_of_mem _ hr, rfl, rfl⟩

theorem isRule_entry (w : WidenedGrammar) : w.IsRule w.grammar.sentence w.entry.rhs :=
  ⟨w.entry, List.mem_cons_self, rfl, rfl⟩

/-! ### Numbers of rules -/

/-- The left-hand sides do not depend on the width. -/
theorem lhs_rule? (id : RuleId) :
    (w.rule? id).map Rule.lhs = (w.grammar.rule? id).map Rule.lhs := by
  rw [rule?]
  split
  · next h =>
    rw [h, Grammar.rule?_eq]
    rfl
  · rfl

theorem mem_rulesFor {w : WidenedGrammar} {n : Nonterminal} {id : RuleId} :
    id ∈ w.grammar.rulesFor n ↔ ∃ r, w.rule? id = some r ∧ r.lhs = n := by
  have : (∃ r, w.rule? id = some r ∧ r.lhs = n) ↔ (w.rule? id).map Rule.lhs = some n := by
    simp
  rw [this, lhs_rule?, Grammar.mem_rulesFor, Option.map_eq_some_iff]

@[simp] theorem rule?_startId : w.rule? w.grammar.startId = some (.start w.grammar.sentence) := by
  rw [rule?_eq, rules, augmented, Grammar.startId]
  simp [Grammar.sentence, entry]

@[simp] theorem rhs_startId :
    w.rhs w.grammar.startId = [.nonterminal w.grammar.sentence, .terminal .eof] :=
  rhs_eq_of_rule? w.rule?_startId

/-- Every parse begins with waiting for a sentence. -/
theorem next?_startItem : w.next? w.startItem = some (.nonterminal w.grammar.sentence) := by
  simp [next?, startItem, Item.start]

/-- Behind the sentence the end of the input is to come. -/
theorem next?_advance_startItem : w.next? w.startItem.advance = some (.terminal .eof) := by
  simp [next?, startItem, Item.start]

@[simp] theorem rule?_entryId : w.rule? Grammar.entryId = some w.entry := by
  simp [rule?]

@[simp] theorem rhs_entryId : w.rhs Grammar.entryId = w.entry.rhs :=
  rhs_eq_of_rule? w.rule?_entryId

/-- Only the sentence rule is a rule for the sentence symbol. -/
theorem eq_entryId_of_lhs {w : WidenedGrammar} {id : RuleId} {r : Rule} (h : w.rule? id = some r)
    (hr : r.lhs = w.grammar.sentence) : id = Grammar.entryId := by
  obtain ⟨_ | k⟩ := id
  · rfl
  have hmem : r ∈ w.grammar.others ++ [.start w.grammar.sentence] := by
    rw [rule?_eq, rules, augmented] at h
    exact List.mem_of_getElem? h
  rcases List.mem_append.mp hmem with hmem | hmem
  · exact absurd hr (w.grammar.entry_unique r hmem)
  · obtain rfl := List.mem_singleton.mp hmem
    have := w.grammar.start_unused _ List.mem_cons_self
    simp only [Rule.mentions, Bool.or_eq_false_iff, beq_eq_false_iff_ne] at this
    exact absurd hr.symm this.1

/-- The start rule is the only one for its nonterminal. -/
theorem eq_start_of_isRule {w : WidenedGrammar} {β : List Symbol} (h : w.IsRule .start β) :
    β = [.nonterminal w.grammar.sentence, .terminal .eof] := by
  obtain ⟨r, hr, hlhs, rfl⟩ := h
  have unused (s : Rule) (hs : s ∈ w.grammar.entry :: w.grammar.others) : s.lhs ≠ .start := by
    have := w.grammar.start_unused s hs
    simp only [Rule.mentions, Bool.or_eq_false_iff, beq_eq_false_iff_ne] at this
    exact this.1
  rw [rules, augmented, List.mem_append, List.mem_cons, List.mem_singleton] at hr
  rcases hr with (rfl | hr) | rfl
  · exact absurd hlhs (unused w.grammar.entry List.mem_cons_self)
  · exact absurd hlhs (unused r (List.mem_cons_of_mem _ hr))
  · rfl

/-! ### Items -/

theorem next?_eq_none_iff {w : WidenedGrammar} {i : Item} :
    w.next? i = none ↔ (w.rhs i.rule).length ≤ i.dot :=
  List.getElem?_eq_none_iff

theorem completed?_eq_some {w : WidenedGrammar} {i : Item} {n : Nonterminal} :
    w.completed? i = some n ↔
      (w.rhs i.rule).length ≤ i.dot ∧ ∃ r, w.rule? i.rule = some r ∧ r.lhs = n := by
  rw [completed?]
  split
  · next h => simp [next?_eq_none_iff.mp h]
  · next h => simpa using fun h' => absurd (next?_eq_none_iff.mpr h') h

/-- A completed item waits for nothing. -/
theorem next?_of_completed? {w : WidenedGrammar} {i : Item} {n : Nonterminal}
    (h : w.completed? i = some n) : w.next? i = none :=
  next?_eq_none_iff.mpr (completed?_eq_some.mp h).1

/-- An item waits for the first of the symbols behind its dot, and the others are behind the dot of
the item that advances over it. -/
theorem next?_of_drop_eq_cons {w : WidenedGrammar} {i : Item} {s : Symbol} {β : List Symbol}
    (h : (w.rhs i.rule).drop i.dot = s :: β) :
    w.next? i = some s ∧ (w.rhs i.advance.rule).drop i.advance.dot = β := by
  refine ⟨by rw [next?, ← List.head?_drop, h]; rfl, ?_⟩
  rw [Item.rule_advance, Item.dot_advance, ← List.drop_drop, h]
  rfl

theorem dot_lt_of_next? {w : WidenedGrammar} {i : Item} {s : Symbol} (h : w.next? i = some s) :
    i.dot < (w.rhs i.rule).length :=
  (List.getElem?_eq_some_iff.mp h).1

/-- The symbols before the dot of an advanced item end with the one that was found last. -/
theorem take_advance {w : WidenedGrammar} {i : Item} {s : Symbol} (h : w.next? i = some s) :
    (w.rhs i.advance.rule).take i.advance.dot = (w.rhs i.rule).take i.dot ++ [s] := by
  rw [Item.rule_advance, Item.dot_advance, List.take_add_one]
  rw [next?] at h
  rw [h]
  rfl

end WidenedGrammar

/-! ### Wider sentence rules -/

namespace Grammar

variable {g : Grammar} {j k : Nat}

theorem rhs_entry_widened (k : Nat) :
    (g.widened k).entry.rhs = g.entry.rhs ++ List.replicate k (.nonterminal g.recovery) :=
  rfl

/-- A wider right-hand side begins with a narrower one. -/
theorem rhs_isPrefix (h : j ≤ k) (id : RuleId) :
    (g.widened j).rhs id <+: (g.widened k).rhs id := by
  by_cases hid : id = entryId
  · subst hid
    rw [WidenedGrammar.rhs_entryId, WidenedGrammar.rhs_entryId, rhs_entry_widened,
      rhs_entry_widened, List.prefix_append_right_inj]
    exact ⟨List.replicate (k - j) _, by rw [List.replicate_append_replicate, Nat.add_sub_cancel' h]⟩
  · simp [WidenedGrammar.rhs, WidenedGrammar.rule?, hid]

/-- What an item waits for does not change when the sentence rule becomes wider. -/
theorem next?_widened (h : j ≤ k) {i : Item} {s : Symbol} (hi : (g.widened j).next? i = some s) :
    (g.widened k).next? i = some s := by
  obtain ⟨β, hβ⟩ := rhs_isPrefix (g := g) h i.rule
  rw [WidenedGrammar.next?, ← hβ, List.getElem?_append_left (WidenedGrammar.dot_lt_of_next? hi)]
  exact hi

/-- The symbols before a dot do not change when the sentence rule becomes wider. -/
theorem take_widened (h : j ≤ k) (id : RuleId) {d : Nat}
    (hd : d ≤ ((g.widened j).rhs id).length) :
    ((g.widened k).rhs id).take d = ((g.widened j).rhs id).take d := by
  obtain ⟨β, hβ⟩ := rhs_isPrefix (g := g) h id
  rw [← hβ, List.take_append_of_le_length hd]

theorem exists_rhs_entry (g : Grammar) : ∃ α, g.entry.rhs = α ++ [.nonterminal g.recovery] :=
  List.getLast?_eq_some_iff.mp g.entry_ends

end Grammar

/-- The rule with the symbols before place `d` alone. -/
def Rule.upTo (r : Rule) (d : Nat) : Rule := { r with rhs := r.rhs.take d }

/-- Of the rule of an item that was complete at some width, the symbols before the dot are the
right-hand side that the rule had at this width. -/
theorem WidenedGrammar.exists_upTo_mem_rules {w : WidenedGrammar} {v : Nat} {i : Item}
    {n : Nonterminal} (h : (w.grammar.widened v).completed? i = some n)
    (hdot : i.dot ≤ (w.rhs i.rule).length) :
    ∃ r, w.rule? i.rule = some r ∧ r.lhs = n ∧
      ∃ k ≤ w.widenings, r.upTo i.dot ∈ (w.grammar.widened k).rules := by
  obtain ⟨hlength, r, hr, rfl⟩ := completed?_eq_some.mp h
  by_cases hid : i.rule = Grammar.entryId
  · rw [hid, rule?_entryId] at hr
    obtain rfl := Option.some.inj hr
    rw [hid, rhs_entryId] at hlength hdot
    refine ⟨w.entry, by rw [hid, rule?_entryId], rfl, ?_⟩
    -- the dot tells at which width the rule was complete
    obtain ⟨k, hk⟩ : ∃ k, i.dot = w.grammar.entry.rhs.length + k := by
      simp only [entry, List.length_append] at hlength
      exact ⟨i.dot - w.grammar.entry.rhs.length, by omega⟩
    have hle : k ≤ w.widenings := by
      simp only [entry, List.length_append, List.length_replicate] at hdot
      omega
    have htake : w.entry.rhs.take i.dot = (w.grammar.widened k).entry.rhs := by
      rw [hk, entry, List.take_length_add_append, List.take_replicate, Nat.min_eq_left hle,
        Grammar.rhs_entry_widened]
    have hentry : w.entry.upTo i.dot = (w.grammar.widened k).entry := by
      rw [Rule.upTo, htake]
      rfl
    exact ⟨k, hle, hentry ▸ List.mem_cons_self⟩
  · have hrule : w.rule? i.rule = some r := by
      rw [← hr]
      simp [rule?, hid]
    have hrhs : r.upTo i.dot = r := by
      rw [rhs_eq_of_rule? hr] at hlength
      rw [Rule.upTo, List.take_of_length_le hlength]
    refine ⟨r, hrule, rfl, w.widenings, Nat.le_refl _, ?_⟩
    rw [rule?_eq] at hrule
    exact hrhs.symm ▸ List.mem_of_getElem? hrule

/-! ### The start symbol -/

namespace WidenedGrammar

variable {w : WidenedGrammar}

theorem start_notMem_rhs {r : Rule} (hr : r ∈ w.grammar.entry :: w.grammar.others) :
    r.lhs ≠ .start ∧ Symbol.nonterminal .start ∉ r.rhs := by
  have := w.grammar.start_unused r hr
  simpa [Rule.mentions] using this

theorem start_notMem_rhs_entry : Symbol.nonterminal .start ∉ w.entry.rhs := by
  obtain ⟨α, hα⟩ := w.grammar.exists_rhs_entry
  have hentry := (start_notMem_rhs (w := w) (r := w.grammar.entry) List.mem_cons_self).2
  intro hmem
  rcases List.mem_append.mp hmem with hmem | hmem
  · exact hentry hmem
  · refine hentry ?_
    rw [(List.mem_replicate.mp hmem).2, hα]
    exact List.mem_append_right _ List.mem_cons_self

/-- No item waits for the start symbol. -/
theorem next?_ne_start (i : Item) : w.next? i ≠ some (.nonterminal .start) := by
  intro h
  have hmem : Symbol.nonterminal .start ∈ w.rhs i.rule := List.mem_of_getElem? h
  obtain ⟨r, hr⟩ : ∃ r, w.rule? i.rule = some r := by
    rw [rhs] at hmem
    cases hr : w.rule? i.rule with
    | none => simp [hr] at hmem
    | some r => exact ⟨r, rfl⟩
  rw [rhs_eq_of_rule? hr] at hmem
  rw [rule?_eq] at hr
  rcases List.mem_cons.mp (List.mem_of_getElem? hr) with rfl | hr
  · exact start_notMem_rhs_entry hmem
  · rcases List.mem_append.mp hr with hr | hr
    · exact (start_notMem_rhs (List.mem_cons_of_mem _ hr)).2 hmem
    · obtain rfl := List.mem_singleton.mp hr
      have hstart : .start = w.entry.lhs := by simpa [Rule.start] using hmem
      exact (start_notMem_rhs List.mem_cons_self).1 hstart.symm

end WidenedGrammar

end NounPhrase
