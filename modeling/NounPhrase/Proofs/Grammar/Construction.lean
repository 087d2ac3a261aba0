import Mathlib.Data.List.Induction
import Mathlib.Data.List.Nodup
import Mathlib.Logic.Relation
import NounPhrase.Grammar.Basic

/-!
# Which rule tables are grammars

Of rules with the same two sides the first is kept, and what is kept is checked. The checks come in
a fixed order, so a table with several faults has a first one, and this one is reported. A rule
that is not kept takes no part in the checks: it may have an action that does not accept its length,
and a second rule for the sentence symbol does no harm if it repeats the first.

A grammar lists the numbers of its rules by left-hand sides. Every number is listed once, and for
every symbol that a rule asks for there is a number.

## Main definitions

* `firstOfShape`: the rules that have a shape which no earlier rule has.
* `InsertsRepeat`: one more rule, with the shape of an earlier one.
* `IsWellFormed`: what a table has to be like.
* `FirstFault`: the first fault of a table, in the order of the checks.
* `Grammar.IsBuiltFrom`: what a grammar has to do with its table.

## Main results

* `distinctShapes_eq`: the rules that are kept are the first ones of their shapes.
* `Grammar.ofRules_eq_error_iff`, `Grammar.exists_ofRules_eq_ok_iff`: the outcomes of the checks.
* `Grammar.isBuiltFrom`: a grammar is built from the rules that are kept.
* `accepts_wellFormed_tables`: all of this together.
-/

namespace NounPhrase

open Relation

/-! ### Repeated shapes -/

/-- The rules that have a shape which no earlier rule has. -/
def firstOfShape (rules : List Rule) : List Rule :=
  (rules.zipIdx.filter fun e : Rule × Nat =>
    decide (∀ s ∈ rules.take e.2, ¬ s.SameShape e.1)).map Prod.fst

/-- The second list has one rule more than the first, with the shape of a rule before it. -/
inductive InsertsRepeat : List Rule → List Rule → Prop
  | intro {front back : List Rule} {r s : Rule} (hs : s ∈ front) (hshape : s.SameShape r) :
      InsertsRepeat (front ++ back) (front ++ r :: back)

theorem splitRepeated_append (kept front back : List Rule) :
    (splitRepeated kept (front ++ back)).1 =
      (splitRepeated (splitRepeated kept front).1 back).1 := by
  fun_induction splitRepeated kept front with
  | case1 => rfl
  | case2 kept r front hr distinct repeated he ih =>
    rw [he] at ih
    rw [List.cons_append, splitRepeated, if_pos hr, ih]
  | case3 kept r front hr ih => rw [List.cons_append, splitRepeated, if_neg hr, ih]

/-- No shape is lost. -/
theorem exists_sameShape_splitRepeated {kept rules : List Rule} {r : Rule} :
    (∃ k ∈ (splitRepeated kept rules).1, k.SameShape r) ↔ ∃ s ∈ kept ++ rules, s.SameShape r := by
  fun_induction splitRepeated kept rules with
  | case1 => rw [List.append_nil]
  | case2 kept q rules hq distinct repeated he ih =>
    rw [he] at ih
    rw [ih]
    obtain ⟨k, hk, hkq⟩ := hq
    constructor
    · rintro ⟨s, hs, hshape⟩
      exact ⟨s, ((List.sublist_cons_self q rules).append_left kept).mem hs, hshape⟩
    · rintro ⟨s, hs, hshape⟩
      rcases List.mem_append.mp hs with hs | hs
      · exact ⟨s, List.mem_append_left _ hs, hshape⟩
      rcases List.mem_cons.mp hs with rfl | hs
      · exact ⟨k, List.mem_append_left _ hk, hkq.1.trans hshape.1, hkq.2.trans hshape.2⟩
      · exact ⟨s, List.mem_append_right _ hs, hshape⟩
  | case3 kept q rules hq ih => rw [ih, List.append_assoc, List.singleton_append]

theorem distinctShapes_append (front back : List Rule) :
    distinctShapes (front ++ back) = (splitRepeated (distinctShapes front) back).1 :=
  splitRepeated_append [] front back

theorem exists_sameShape_distinctShapes {rules : List Rule} {r : Rule} :
    (∃ k ∈ distinctShapes rules, k.SameShape r) ↔ ∃ s ∈ rules, s.SameShape r :=
  exists_sameShape_splitRepeated

/-- A rule with the shape of an earlier one is not kept, and no other is affected. -/
theorem InsertsRepeat.distinctShapes_eq {rules rules' : List Rule}
    (h : InsertsRepeat rules rules') : distinctShapes rules' = distinctShapes rules := by
  obtain ⟨hs, hshape⟩ := h
  rw [distinctShapes_append, distinctShapes_append, splitRepeated,
    if_pos (exists_sameShape_distinctShapes.mpr ⟨_, hs, hshape⟩)]

theorem distinctShapes_concat (rules : List Rule) (r : Rule) :
    distinctShapes (rules ++ [r]) =
      if ∃ s ∈ rules, s.SameShape r then distinctShapes rules else distinctShapes rules ++ [r] := by
  rw [distinctShapes_append, splitRepeated]
  by_cases h : ∃ s ∈ rules, s.SameShape r
  · rw [if_pos h, if_pos (exists_sameShape_distinctShapes.mpr h), splitRepeated]
  · rw [if_neg h, if_neg (exists_sameShape_distinctShapes.not.mpr h), splitRepeated]

/-- A rule at the end is not before any other. -/
theorem firstOfShape_concat (rules : List Rule) (r : Rule) :
    firstOfShape (rules ++ [r]) =
      if ∃ s ∈ rules, s.SameShape r then firstOfShape rules else firstOfShape rules ++ [r] := by
  have hbefore : (rules.zipIdx.filter fun e : Rule × Nat =>
      decide (∀ s ∈ (rules ++ [r]).take e.2, ¬ s.SameShape e.1)) =
        rules.zipIdx.filter fun e : Rule × Nat =>
          decide (∀ s ∈ rules.take e.2, ¬ s.SameShape e.1) := by
    refine List.filter_congr fun e he => ?_
    rw [List.take_append_of_le_length (Nat.le_of_lt (List.snd_lt_of_mem_zipIdx he))]
  rw [firstOfShape, List.zipIdx_append, List.filter_append, List.map_append, hbefore,
    List.zipIdx_singleton, List.filter_cons, List.filter_nil, Nat.zero_add, List.take_left]
  by_cases h : ∃ s ∈ rules, s.SameShape r
  · rw [if_pos h, if_neg (by simpa using h), List.map_nil, List.append_nil, firstOfShape]
  · rw [if_neg h, if_pos (by simpa using h), List.map_singleton, firstOfShape]

/-- The rules that are kept are the first ones of their shapes. -/
theorem distinctShapes_eq (rules : List Rule) : distinctShapes rules = firstOfShape rules := by
  induction rules using List.reverseRecOn with
  | nil => rfl
  | append_singleton rules r ih => rw [distinctShapes_concat, firstOfShape_concat, ih]

/-! ### The checks -/

/-- The nonterminal has a rule in the table. -/
def HasRule (table : List Rule) (n : Nonterminal) : Prop := ∃ r ∈ table, r.lhs = n

/-- The reserved nonterminal stands on neither side of a rule. -/
def StartUnused (table : List Rule) : Prop :=
  ∀ r ∈ table, r.lhs ≠ .start ∧ .nonterminal .start ∉ r.rhs

/-- The rule has no fault as a rule of the table. -/
structure Rule.IsFaultless (table : List Rule) (r : Rule) : Prop where
  hasRule : ∀ n, .nonterminal n ∈ r.rhs → HasRule table n
  accepts : r.action.accepts r.rhs.length

/-- The first fault of a rule of the table: the first nonterminal without a rule, or a length that
its action does not accept. -/
inductive Rule.HasFault (table : List Rule) (r : Rule) : GrammarFault → Prop
  | undefined {front back : List Symbol} {n : Nonterminal}
      (hrhs : r.rhs = front ++ .nonterminal n :: back)
      (hfront : ∀ m, .nonterminal m ∈ front → HasRule table m) (hn : ¬ HasRule table n) :
      HasFault table r (.undefined n r)
  | arity (hrhs : ∀ n, .nonterminal n ∈ r.rhs → HasRule table n)
      (haccepts : ¬ r.action.accepts r.rhs.length) : HasFault table r (.arity r)

/-- The table is one of a grammar with the given sentence rule. -/
structure IsWellFormed (table : List Rule) (entry : Rule) : Prop where
  head? : table.head? = some entry
  startUnused : StartUnused table
  count_eq_one : table.countP (·.lhs == entry.lhs) = 1
  ends : ∃ n, entry.rhs.getLast? = some (.nonterminal n)
  faultless : ∀ r ∈ table, r.IsFaultless table

/-- The first fault of a table: that it is empty, uses the reserved nonterminal, has several rules
for the sentence symbol or one that does not end in a nonterminal, or else the fault of the first
rule that has one. -/
inductive FirstFault (table : List Rule) : GrammarFault → Prop
  | empty (htable : table = []) : FirstFault table .empty
  | reserved (hstart : ¬ StartUnused table) : FirstFault table (.reserved .start)
  | entryAlternatives {entry : Rule} (hhead : table.head? = some entry)
      (hstart : StartUnused table) (hcount : table.countP (·.lhs == entry.lhs) ≠ 1) :
      FirstFault table (.entryAlternatives entry.lhs (table.countP (·.lhs == entry.lhs)))
  | entryNotWidenable {entry : Rule} (hhead : table.head? = some entry)
      (hstart : StartUnused table) (hcount : table.countP (·.lhs == entry.lhs) = 1)
      (hends : ¬ ∃ n, entry.rhs.getLast? = some (.nonterminal n)) :
      FirstFault table (.entryNotWidenable entry)
  | rule {entry : Rule} {front back : List Rule} {r : Rule} {fault : GrammarFault}
      (hhead : table.head? = some entry) (hstart : StartUnused table)
      (hcount : table.countP (·.lhs == entry.lhs) = 1)
      (hends : ∃ n, entry.rhs.getLast? = some (.nonterminal n))
      (htable : table = front ++ r :: back) (hfront : ∀ s ∈ front, s.IsFaultless table)
      (hr : r.HasFault table fault) : FirstFault table fault

section
variable {table : List Rule} {entry r : Rule} {others : List Rule} {fault : GrammarFault}

/-- The first nonterminal without a rule. -/
theorem Rule.undefined?_eq_some_iff {n : Nonterminal} :
    r.undefined? table = some n ↔ ∃ front back, r.rhs = front ++ .nonterminal n :: back ∧
      (∀ m, .nonterminal m ∈ front → HasRule table m) ∧ ¬ HasRule table n := by
  have hrule (m : Nonterminal) : table.any (·.lhs == m) ↔ HasRule table m := by
    simp [HasRule]
  rw [undefined?, List.find?_filterMap, Option.bind_eq_some_iff]
  simp only [List.find?_eq_some_iff_append, Symbol.nonterminal?_eq_some]
  constructor
  · rintro ⟨_, ⟨hn, front, back, hrhs, hfront⟩, rfl⟩
    refine ⟨front, back, hrhs, fun m hm => ?_, ?_⟩
    · have := hfront _ hm
      rw [← hrule]
      simpa [Symbol.nonterminal?] using this
    · rw [← hrule]
      simpa [Symbol.nonterminal?] using hn
  · rintro ⟨front, back, hrhs, hfront, hn⟩
    refine ⟨_, ⟨?_, front, back, hrhs, fun a ha => ?_⟩, rfl⟩
    · rw [← hrule] at hn
      simpa [Symbol.nonterminal?] using hn
    · cases a with
      | terminal t => rfl
      | nonterminal m =>
        have := (hrule m).mpr (hfront m ha)
        simpa [Symbol.nonterminal?] using this

theorem Rule.undefined?_eq_none_iff :
    r.undefined? table = none ↔ ∀ n, .nonterminal n ∈ r.rhs → HasRule table n := by
  rw [undefined?, List.find?_eq_none]
  simp [HasRule]

theorem Rule.fault?_eq_none_iff : r.fault? table = none ↔ r.IsFaultless table := by
  refine ⟨fun h => ⟨(fault?_eq_none h).1, (fault?_eq_none h).2⟩, fun h => ?_⟩
  rw [fault?, undefined?_eq_none_iff.mpr h.hasRule]
  exact if_pos h.accepts

theorem Rule.fault?_eq_some_iff : r.fault? table = some fault ↔ r.HasFault table fault := by
  constructor
  · intro h
    cases hn : r.undefined? table with
    | some n =>
      rw [fault?, hn] at h
      obtain rfl := Option.some.inj h
      obtain ⟨front, back, hrhs, hfront, hn⟩ := undefined?_eq_some_iff.mp hn
      exact .undefined hrhs hfront hn
    | none =>
      rw [fault?, hn] at h
      obtain ⟨haccepts, hfault⟩ := Option.ite_none_left_eq_some.mp h
      obtain rfl := Option.some.inj hfault
      exact .arity (undefined?_eq_none_iff.mp hn) haccepts
  · intro h
    cases h with
    | undefined hrhs hfront hn =>
      rw [fault?, undefined?_eq_some_iff.mpr ⟨_, _, hrhs, hfront, hn⟩]
    | arity hrhs haccepts =>
      rw [fault?, undefined?_eq_none_iff.mpr hrhs]
      exact if_neg haccepts

theorem startUnused_iff : StartUnused table ↔ ∀ r ∈ table, r.mentions .start = false := by
  simp [StartUnused, Rule.mentions]

theorem count_eq_one_iff :
    (entry :: others).countP (·.lhs == entry.lhs) = 1 ↔ ∀ r ∈ others, r.lhs ≠ entry.lhs := by
  simp [List.countP_eq_zero]

/-- A table without faults has no first one. -/
theorem IsWellFormed.not_firstFault (h : IsWellFormed table entry) : ¬ FirstFault table fault := by
  intro hfault
  cases hfault with
  | empty htable => cases htable ▸ h.head?
  | reserved hstart => exact hstart h.startUnused
  | entryAlternatives hhead _ hcount =>
    obtain rfl := Option.some.inj (h.head?.symm.trans hhead)
    exact hcount h.count_eq_one
  | entryNotWidenable hhead _ _ hends =>
    obtain rfl := Option.some.inj (h.head?.symm.trans hhead)
    exact hends h.ends
  | rule _ _ _ _ htable _ hr =>
    have hnone := h.faultless _ (htable ▸ List.mem_append_right _ List.mem_cons_self)
    rw [← Rule.fault?_eq_none_iff, Rule.fault?_eq_some_iff.mpr hr] at hnone
    cases hnone

namespace Grammar

variable {distinct : (entry :: others).Pairwise (¬ ·.SameShape ·)}

/-- The checks report the first fault. -/
theorem firstFault_of_check (h : check entry others distinct = .error fault) :
    FirstFault (entry :: others) fault := by
  rw [check] at h
  split at h
  · next hstart =>
    rw [← startUnused_iff] at hstart
    split at h
    · next hunique =>
      rw [← count_eq_one_iff] at hunique
      split at h
      · next n hends =>
        split at h
        · cases h
        · next first hfirst =>
          obtain rfl := Except.error.inj h
          obtain ⟨front, r, back, htable, hr, hfront⟩ := List.findSome?_eq_some_iff.mp hfirst
          exact .rule rfl hstart hunique ⟨n, hends⟩ htable
            (fun s hs => Rule.fault?_eq_none_iff.mp (hfront s hs))
            (Rule.fault?_eq_some_iff.mp hr)
      · next hends =>
        obtain rfl := Except.error.inj h
        exact .entryNotWidenable rfl hstart hunique fun ⟨n, hn⟩ => hends n hn
    · next hunique =>
      rw [← count_eq_one_iff] at hunique
      obtain rfl := Except.error.inj h
      exact .entryAlternatives rfl hstart hunique
  · next hstart =>
    rw [← startUnused_iff] at hstart
    obtain rfl := Except.error.inj h
    exact .reserved hstart

/-- The checks before that of the first fault are passed. -/
theorem check_of_firstFault (h : FirstFault (entry :: others) fault) :
    check entry others distinct = .error fault := by
  rw [check]
  cases h with
  | empty htable => cases htable
  | reserved hstart => rw [dif_neg (startUnused_iff.not.mp hstart)]
  | entryAlternatives hhead hstart hcount =>
    obtain rfl := Option.some.inj hhead
    rw [dif_pos (startUnused_iff.mp hstart), dif_neg (count_eq_one_iff.not.mp hcount)]
  | entryNotWidenable hhead hstart hcount hends =>
    obtain rfl := Option.some.inj hhead
    rw [dif_pos (startUnused_iff.mp hstart), dif_pos (count_eq_one_iff.mp hcount)]
    split
    · next n hn => exact absurd ⟨n, hn⟩ hends
    · rfl
  | rule hhead hstart hcount hends htable hfront hr =>
    obtain rfl := Option.some.inj hhead
    obtain ⟨n, hn⟩ := hends
    rw [dif_pos (startUnused_iff.mp hstart), dif_pos (count_eq_one_iff.mp hcount)]
    have hfirst : (entry :: others).findSome? (·.fault? (entry :: others)) = some fault :=
      List.findSome?_eq_some_iff.mpr ⟨_, _, _, htable, Rule.fault?_eq_some_iff.mpr hr,
        fun s hs => Rule.fault?_eq_none_iff.mpr (hfront s hs)⟩
    split
    · split
      · next hnone => cases hnone.symm.trans hfirst
      · next hsome => cases hsome.symm.trans hfirst; rfl
    · next hends => exact absurd hn (hends n)

/-- The checks keep the rules as they are. -/
theorem eq_of_check_eq_ok {g : Grammar} (h : check entry others distinct = .ok g) :
    g.entry = entry ∧ g.others = others := by
  rw [check] at h
  split at h
  · split at h
    · split at h
      · split at h
        · obtain rfl := Except.ok.inj h
          exact ⟨rfl, rfl⟩
        · cases h
      · cases h
    · cases h
  · cases h

/-- The rules of a grammar are a table without faults. -/
theorem isWellFormed (g : Grammar) : IsWellFormed (g.entry :: g.others) g.entry where
  head? := rfl
  startUnused := startUnused_iff.mpr g.start_unused
  count_eq_one := count_eq_one_iff.mpr g.entry_unique
  ends := ⟨g.recovery, g.entry_ends⟩
  faultless r hr := Rule.fault?_eq_none_iff.mp (g.faultless r hr)

/-! ### Numbers of rules -/

/-- The grammar has the rules of the table and the start rule behind them, and the last symbol of
the sentence rule to recover with. The numbers of the rules for a nonterminal are listed in
increasing order. Every number is listed once and for one nonterminal, and there is one for the
nonterminal to recover with. -/
structure IsBuiltFrom (g : Grammar) (table : List Rule) : Prop where
  isWellFormed : IsWellFormed table g.entry
  arena : g.arena.toList =
    table ++ [⟨.start, [.nonterminal g.entry.lhs, .terminal .eof], .start⟩]
  recovery : g.entry.rhs.getLast? = some (.nonterminal g.recovery)
  rulesFor_sorted : ∀ n, (g.rulesFor n).Pairwise (·.index < ·.index)
  mem_rulesFor : ∀ n id, id ∈ g.rulesFor n ↔ ∃ r, g.arena.toList[id.index]? = some r ∧ r.lhs = n
  rulesFor_perm : (Nonterminal.all.flatMap g.rulesFor).Perm
    ((List.range (table.length + 1)).map RuleId.mk)
  rulesFor_recovery : g.rulesFor g.recovery ≠ []

theorem rulesFor_sorted (g : Grammar) (n : Nonterminal) :
    (g.rulesFor n).Pairwise (·.index < ·.index) := by
  have hplaces : g.rules.zipIdx.Pairwise (·.2 < ·.2) := by
    rw [← List.pairwise_map, List.zipIdx_map_snd]
    exact List.pairwise_lt_range' 1
  rw [rulesFor_eq, List.pairwise_map]
  exact hplaces.filter _

theorem nodup_rulesFor (g : Grammar) (n : Nonterminal) : (g.rulesFor n).Nodup :=
  (g.rulesFor_sorted n).imp fun hlt heq => absurd (heq ▸ hlt) (Nat.lt_irrefl _)

/-- A rule has one left-hand side, so its number is listed for one nonterminal only. -/
theorem nodup_flatMap_rulesFor (g : Grammar) : (Nonterminal.all.flatMap g.rulesFor).Nodup := by
  refine List.nodup_flatMap.mpr ⟨fun n _ => g.nodup_rulesFor n, ?_⟩
  refine List.Pairwise.imp (R := (· ≠ ·)) ?_ (by decide : Nonterminal.all.Nodup)
  intro n m hnm id hn hm
  obtain ⟨r, hr, rfl⟩ := mem_rulesFor.mp hn
  obtain ⟨s, hs, rfl⟩ := mem_rulesFor.mp hm
  obtain rfl := Option.some.inj (hr.symm.trans hs)
  exact hnm rfl

/-- Over all nonterminals every number is listed once. -/
theorem rulesFor_perm (g : Grammar) : (Nonterminal.all.flatMap g.rulesFor).Perm
    ((List.range g.rules.length).map RuleId.mk) := by
  have hrange : ((List.range g.rules.length).map RuleId.mk).Nodup :=
    List.nodup_range.map fun _ _ h => RuleId.mk.inj h
  refine (List.perm_ext_iff_of_nodup g.nodup_flatMap_rulesFor hrange).mpr fun id => ?_
  rw [List.mem_flatMap, List.mem_map]
  constructor
  · rintro ⟨n, -, hn⟩
    obtain ⟨r, hr, -⟩ := mem_rulesFor.mp hn
    rw [rule?_eq] at hr
    exact ⟨id.index, List.mem_range.mpr (List.getElem?_eq_some_iff.mp hr).1, rfl⟩
  · rintro ⟨i, hi, rfl⟩
    have hr := List.getElem?_eq_getElem (List.mem_range.mp hi)
    exact ⟨_, Nonterminal.mem_all _, mem_rulesFor.mpr ⟨_, (g.rule?_eq ⟨i⟩).trans hr, rfl⟩⟩

/-- The recovery symbol stands on the right of the sentence rule, so it has a rule. -/
theorem rulesFor_recovery (g : Grammar) : g.rulesFor g.recovery ≠ [] := by
  obtain ⟨r, hr, hlhs⟩ := g.defined List.mem_cons_self (List.mem_of_getLast? g.entry_ends)
  obtain ⟨i, hi⟩ := List.mem_iff_getElem?.mp (List.mem_append_left [.start g.entry.lhs] hr)
  exact List.ne_nil_of_mem (mem_rulesFor.mpr ⟨r, (g.rule?_eq ⟨i⟩).trans hi, hlhs⟩)

theorem isBuiltFrom (g : Grammar) : g.IsBuiltFrom (g.entry :: g.others) where
  isWellFormed := g.isWellFormed
  arena := by rw [g.arena_eq]; rfl
  recovery := g.entry_ends
  rulesFor_sorted := g.rulesFor_sorted
  mem_rulesFor n id := by rw [g.arena_eq, Grammar.mem_rulesFor, g.rule?_eq, rules]
  rulesFor_perm := by
    have hlength : g.rules.length = (g.entry :: g.others).length + 1 := by simp [rules, augmented]
    rw [← hlength]
    exact g.rulesFor_perm
  rulesFor_recovery := g.rulesFor_recovery

end Grammar

end

/-! ### Outcomes -/

theorem ofRules_of_distinctShapes_eq_nil {rules : List Rule} (h : distinctShapes rules = []) :
    Grammar.ofRules rules = .error .empty := by
  unfold Grammar.ofRules
  split
  · rfl
  · next hcons => cases hcons.symm.trans h

theorem ofRules_of_distinctShapes_eq_cons {rules : List Rule} {entry : Rule} {others : List Rule}
    (h : distinctShapes rules = entry :: others) :
    Grammar.ofRules rules = Grammar.check entry others (h ▸ pairwise_distinctShapes rules) := by
  unfold Grammar.ofRules
  split
  · next hnil => cases hnil.symm.trans h
  · next entry' others' h' =>
    obtain ⟨rfl, rfl⟩ := List.cons.inj (h'.symm.trans h)
    rfl

namespace Grammar

variable {rules rules' : List Rule} {fault : GrammarFault}

/-- What the checks report is the first fault of the rules that are kept. -/
theorem ofRules_eq_error_iff : ofRules rules = .error fault ↔
    FirstFault (distinctShapes rules) fault := by
  cases h : distinctShapes rules with
  | nil =>
    rw [ofRules_of_distinctShapes_eq_nil h]
    refine ⟨fun hempty => Except.error.inj hempty ▸ .empty rfl, fun hfirst => ?_⟩
    cases hfirst with
    | empty => rfl
    | reserved hstart => exact absurd (List.forall_mem_nil _) hstart
    | entryAlternatives hhead => cases hhead
    | entryNotWidenable hhead => cases hhead
    | rule hhead => cases hhead
  | cons entry others =>
    rw [ofRules_of_distinctShapes_eq_cons h]
    exact ⟨firstFault_of_check, check_of_firstFault⟩

theorem isBuiltFrom_of_ofRules {g : Grammar} (h : ofRules rules = .ok g) :
    g.IsBuiltFrom (distinctShapes rules) := by
  cases hrules : distinctShapes rules with
  | nil => cases (ofRules_of_distinctShapes_eq_nil hrules).symm.trans h
  | cons entry others =>
    rw [ofRules_of_distinctShapes_eq_cons hrules] at h
    obtain ⟨rfl, rfl⟩ := eq_of_check_eq_ok h
    exact g.isBuiltFrom

theorem exists_ofRules_eq_ok_iff : (∃ g, ofRules rules = .ok g) ↔
    ∃ entry, IsWellFormed (distinctShapes rules) entry := by
  constructor
  · rintro ⟨g, hg⟩
    exact ⟨g.entry, (isBuiltFrom_of_ofRules hg).isWellFormed⟩
  · rintro ⟨entry, hentry⟩
    cases hg : ofRules rules with
    | ok g => exact ⟨g, rfl⟩
    | error fault => exact absurd (ofRules_eq_error_iff.mp hg) hentry.not_firstFault

/-- The outcome depends on the rules that are kept. -/
theorem ofRules_congr (h : distinctShapes rules' = distinctShapes rules) :
    ofRules rules' = ofRules rules := by
  cases hrules : distinctShapes rules with
  | nil =>
    rw [ofRules_of_distinctShapes_eq_nil hrules, ofRules_of_distinctShapes_eq_nil (h.trans hrules)]
  | cons entry others =>
    rw [ofRules_of_distinctShapes_eq_cons hrules,
      ofRules_of_distinctShapes_eq_cons (h.trans hrules)]

/-- Further rules with the shapes of earlier ones change nothing. -/
theorem ofRules_eq_of_insertsRepeat (h : ReflTransGen InsertsRepeat rules rules') :
    ofRules rules' = ofRules rules := by
  induction h with
  | refl => rfl
  | tail _ hinsert ih => rw [ofRules_congr hinsert.distinctShapes_eq, ih]

end Grammar

/-- A list of rules is accepted if and only if what is left of it without the repeated shapes is a
table without faults. Else the first fault of that table is reported. The grammar is built from that
table, so further rules with the shapes of earlier ones, wherever they stand, change neither the
grammar nor the fault. -/
theorem accepts_wellFormed_tables (rules : List Rule) :
    ((∃ g, Grammar.ofRules rules = .ok g) ↔
      ∃ entry, IsWellFormed (firstOfShape rules) entry) ∧
    (∀ fault, Grammar.ofRules rules = .error fault ↔ FirstFault (firstOfShape rules) fault) ∧
    (∀ g, Grammar.ofRules rules = .ok g → g.IsBuiltFrom (firstOfShape rules)) ∧
    ∀ rules', ReflTransGen InsertsRepeat rules rules' →
      Grammar.ofRules rules' = Grammar.ofRules rules := by
  rw [← distinctShapes_eq]
  exact ⟨Grammar.exists_ofRules_eq_ok_iff, fun _ => Grammar.ofRules_eq_error_iff,
    fun _ => Grammar.isBuiltFrom_of_ofRules, fun _ => Grammar.ofRules_eq_of_insertsRepeat⟩

/-- A sentence is a phrase, and a phrase is a pronoun. -/
def pronounRules : List Rule :=
  [⟨.sent, [.nonterminal .phrase], .sentence⟩, ⟨.phrase, [.terminal .pron], .word⟩]

/-- The same with other actions. A second rule for the sentence symbol is a fault in itself, and so
is the action that builds a list of a single word. -/
def pronounRepeats : List Rule :=
  [⟨.sent, [.nonterminal .phrase], .word⟩, ⟨.phrase, [.terminal .pron], .listTerm⟩]

theorem accepts_wellFormed_tables_pronouns :
    IsWellFormed (firstOfShape pronounRules) ⟨.sent, [.nonterminal .phrase], .sentence⟩ ∧
    ReflTransGen InsertsRepeat pronounRules (pronounRules ++ pronounRepeats) ∧
    ∃ g, Grammar.ofRules pronounRules = .ok g ∧ g.IsBuiltFrom (firstOfShape pronounRules) ∧
      Grammar.ofRules (pronounRules ++ pronounRepeats) = .ok g := by
  have hwell : IsWellFormed (firstOfShape pronounRules)
      ⟨.sent, [.nonterminal .phrase], .sentence⟩ := by
    rw [show firstOfShape pronounRules = pronounRules by decide]
    exact {
      head? := rfl
      startUnused := startUnused_iff.mpr (by decide)
      count_eq_one := by decide
      ends := ⟨.phrase, rfl⟩
      faultless := by
        simp only [← Rule.fault?_eq_none_iff]
        decide }
  have hsent : InsertsRepeat pronounRules
      (pronounRules ++ [⟨.sent, [.nonterminal .phrase], .word⟩]) :=
    @InsertsRepeat.intro pronounRules [] _ ⟨.sent, [.nonterminal .phrase], .sentence⟩
      (by decide) (by decide)
  have hphrase : InsertsRepeat (pronounRules ++ [⟨.sent, [.nonterminal .phrase], .word⟩])
      (pronounRules ++ pronounRepeats) :=
    @InsertsRepeat.intro (pronounRules ++ [⟨.sent, [.nonterminal .phrase], .word⟩]) [] _
      ⟨.phrase, [.terminal .pron], .word⟩ (by decide) (by decide)
  have hinserts := (ReflTransGen.single hsent).tail hphrase
  obtain ⟨hok, -, hbuilt, hsame⟩ := accepts_wellFormed_tables pronounRules
  obtain ⟨g, hg⟩ := hok.mpr ⟨_, hwell⟩
  exact ⟨hwell, hinserts, g, hg, hbuilt g hg, (hsame _ hinserts).trans hg⟩

end NounPhrase
