import Mathlib.Logic.Function.Iterate
import Mathlib.Logic.Relation
import NounPhrase.Proofs.FirstTable.Closed

/-!
# First sets are what is reached by first symbols

A nonterminal reaches what its rules begin with, and what the nonterminals among these reach in
turn. A first set has the terminals that are reached, and it has the mark if an empty rule is
reached. Every table that holds what the rules contribute has all of this, since a step from one
nonterminal to the next is a pair along which it hands on. And nothing else comes into the sets,
since handing on goes along such steps only. So the order of the pairs, on which the passes depend,
does not show in the result.

## Main definitions

* `LeftCorner`: a rule of a nonterminal begins with another one.
* `ReachesHead`: a nonterminal reaches a rule with a given first symbol, or an empty one.
* `FirstTable.IsExact`: a table has what is reached, for every left-hand side.
* `FirstTable.IsListed`: the sets come in the order of some nonterminals.

## Main results

* `FirstTable.exists_saturate_eq_iterate`: the saturated table is that of the first pass in which
  nothing is new.
* `FirstTable.isExact_ofRules`: the table of first sets is exact.
* `FirstTable.isListed_ofRules`: the sets are listed in the order of declaration.
* `ofRules_exact`: the first sets are the least ones that hold what the rules contribute, and what
  follows from this.
-/

namespace NounPhrase

open Relation

/-- A rule of the first nonterminal begins with the second one. -/
def LeftCorner (rules : List Rule) (n m : Nonterminal) : Prop :=
  ∃ r ∈ rules, r.lhs = n ∧ r.rhs.head? = some (.nonterminal m)

/-- By first symbols the nonterminal reaches one with a rule that begins with the given symbol. An
empty rule begins with none. -/
def ReachesHead (rules : List Rule) (n : Nonterminal) (head : Option Symbol) : Prop :=
  ∃ m, ReflTransGen (LeftCorner rules) n m ∧ ∃ r ∈ rules, r.lhs = m ∧ r.rhs.head? = head

variable {rules : List Rule} {n m : Nonterminal} {head : Option Symbol}

theorem ReachesHead.of_reflTransGen (h : ReflTransGen (LeftCorner rules) n m)
    (hm : ReachesHead rules m head) : ReachesHead rules n head := by
  obtain ⟨k, hk, hr⟩ := hm
  exact ⟨k, h.trans hk, hr⟩

/-- What reaches anything is a left-hand side. -/
theorem ReachesHead.exists_lhs_eq (h : ReachesHead rules n head) : ∃ r ∈ rules, r.lhs = n := by
  obtain ⟨m, hm, r, hr, hlhs, -⟩ := h
  rcases hm.cases_head with rfl | ⟨_, ⟨r', hr', hlhs', -⟩, -⟩
  · exact ⟨r, hr, hlhs⟩
  · exact ⟨r', hr', hlhs'⟩

namespace FirstTable

variable {table : FirstTable}

/-! ### Passes -/

/-- The saturated table comes out of passes that make sets larger, as many of them as there are
until no set grows. There are no more of them than members to add. -/
theorem exists_saturate_eq_iterate (table : FirstTable) :
    ∃ k ≤ table.room, (∀ j < k, ((·.propagate.1)^[j] table).Grows) ∧
      ¬ ((·.propagate.1)^[k] table).Grows ∧ table.saturate = (·.propagate.1)^[k] table := by
  induction table using saturate.induct with
  | case1 table hg ih =>
    obtain ⟨k, hk, hgrows, hstop, heq⟩ := ih
    refine ⟨k + 1, Nat.lt_of_le_of_lt hk (room_propagate_lt hg), fun j hj => ?_, ?_, ?_⟩
    · cases j with
      | zero => exact hg
      | succ j => exact hgrows j (Nat.lt_of_succ_lt_succ hj)
    · exact hstop
    · rw [saturate, if_pos hg, heq, Function.iterate_succ_apply]
  | case2 table hg =>
    refine ⟨0, Nat.zero_le _, fun j hj => absurd hj (Nat.not_lt_zero j), hg, ?_⟩
    rw [saturate, if_neg hg, propagate_eq_self hg]
    rfl

/-! ### What is in the sets -/

/-- The table has first sets for the left-hand sides and nothing else. They have the terminals that
are reached by first symbols, and the mark if an empty rule is reached. -/
structure IsExact (rules : List Rule) (table : FirstTable) : Prop where
  exists_get?_iff : ∀ n, (∃ s, table.get? n = some s) ↔ ∃ r ∈ rules, r.lhs = n
  mem_terminals_iff : ∀ n s, table.get? n = some s →
    ∀ t, t ∈ s.terminals ↔ ReachesHead rules n (some (.terminal t))
  empty_iff : ∀ n s, table.get? n = some s → (s.empty ↔ ReachesHead rules n none)

/-- Whoever has a first set after handing on had one before. -/
theorem isSome_get?_handOn (table : FirstTable) (corner : Nonterminal × Nonterminal)
    (n : Nonterminal) : ((table.handOn corner).1.get? n).isSome = (table.get? n).isSome := by
  rw [get?_handOn, Option.isSome_map]

/-- The sets have no more than what is reached. -/
def IsReached (rules : List Rule) (table : FirstTable) : Prop :=
  ∀ n s, table.get? n = some s → (∀ t ∈ s.terminals, ReachesHead rules n (some (.terminal t))) ∧
    (s.empty → ReachesHead rules n none)

theorem isReached_direct (rules : List Rule) : (direct rules).IsReached rules := by
  intro n s hs
  rw [get?_direct] at hs
  obtain rfl : directSet rules n = s := by
    split at hs
    · exact Option.some.inj hs
    · cases hs
  constructor
  · intro t ht
    exact ⟨n, .refl, mem_terminals_directSet.mp ht⟩
  · intro he
    obtain ⟨r, hr, hlhs, hrhs⟩ := empty_directSet.mp he
    exact ⟨n, .refl, r, hr, hlhs, by rw [hrhs]; rfl⟩

/-- Handing on along a step brings nothing that is not reached. -/
theorem IsReached.handOn (h : table.IsReached rules) (hcorner : LeftCorner rules n m) :
    (table.handOn (n, m)).1.IsReached rules := by
  intro k s' hs'
  rw [get?_handOn, Option.map_eq_some_iff] at hs'
  obtain ⟨s, hs, rfl⟩ := hs'
  split
  · next hk =>
    obtain rfl : k = n := hk
    cases hu : table.get? m with
    | none => exact h k s hs
    | some u =>
      obtain ⟨hterminals, hempty⟩ := h k s hs
      obtain ⟨hterminals', hempty'⟩ := h m u hu
      refine ⟨fun t ht => ?_, fun he => ?_⟩
      · rcases FirstSet.mem_union.mp ht with ht | ht
        · exact hterminals t ht
        · exact .of_reflTransGen (.single hcorner) (hterminals' t ht)
      · rcases Bool.or_eq_true_iff.mp he with he | he
        · exact hempty he
        · exact .of_reflTransGen (.single hcorner) (hempty' he)
  · exact h k s hs

/-- A table that holds what the rules contribute has all that is reached. -/
theorem mem_of_reachesHead (hcovers : ∀ r ∈ rules, table.Covers r) {s : FirstSet}
    (hs : table.get? n = some s) (h : ReachesHead rules n head) :
    (∀ t, head = some (.terminal t) → t ∈ s.terminals) ∧ (head = none → s.empty) := by
  obtain ⟨m, hm, r, hr, rfl, rfl⟩ := h
  induction hm using ReflTransGen.head_induction_on generalizing s with
  | refl =>
    obtain ⟨⟨s', hs', hempty, hterminal⟩, -⟩ := hcovers r hr
    obtain rfl : s = s' := Option.some.inj (hs.symm.trans hs')
    refine ⟨fun t ht => ?_, fun he => hempty (List.head?_eq_none_iff.mp he)⟩
    obtain ⟨α, hα⟩ := List.head?_eq_some_iff.mp ht
    exact hterminal t α hα
  | @head n k hcorner hk ih =>
    -- the next nonterminal is a left-hand side as well, so it has a set to hand on
    obtain ⟨r', hr', rfl, hhead⟩ := hcorner
    obtain ⟨α, hα⟩ := List.head?_eq_some_iff.mp hhead
    obtain ⟨r'', hr'', rfl⟩ : ∃ r'' ∈ rules, r''.lhs = k :=
      ReachesHead.exists_lhs_eq ⟨r.lhs, hk, r, hr, rfl, rfl⟩
    obtain ⟨⟨u, hu, -⟩, -⟩ := hcovers r'' hr''
    have hsub := (hcovers r' hr').2 _ α s u hα hs hu
    obtain ⟨hterminals, hempty⟩ := ih hu
    exact ⟨fun t ht => hsub.1 t (hterminals t ht), fun he => hsub.2 (hempty he)⟩

/-- The table of first sets is exact. -/
theorem isExact_ofRules (rules : List Rule) : (ofRules rules).IsExact rules := by
  have hstep (t : FirstTable)
      (h : (∀ n, (t.get? n).isSome ↔ ∃ r ∈ rules, r.lhs = n) ∧ t.IsReached rules) :
      ∀ corner ∈ (direct rules).corners,
        (∀ n, ((t.handOn corner).1.get? n).isSome ↔ ∃ r ∈ rules, r.lhs = n) ∧
          (t.handOn corner).1.IsReached rules := by
    rintro ⟨n, m⟩ hcorner
    exact ⟨fun k => by rw [isSome_get?_handOn]; exact h.1 k,
      h.2.handOn (mem_corners_direct.mp hcorner).2⟩
  have hdirect : ∀ n, ((direct rules).get? n).isSome ↔ ∃ r ∈ rules, r.lhs = n := by
    intro n
    rw [get?_direct]
    split <;> simp_all
  obtain ⟨⟨hdomain, hreached⟩, -⟩ := saturate_induction hstep ⟨hdirect, isReached_direct rules⟩
  have hcovers : ∀ r ∈ rules, (ofRules rules).Covers r := fun r hr => covers_ofRules hr
  refine ⟨fun n => Option.isSome_iff_exists.symm.trans (hdomain n), fun n s hs t => ?_,
    fun n s hs => ?_⟩
  · exact ⟨(hreached n s hs).1 t, fun h => (mem_of_reachesHead hcovers hs h).1 t rfl⟩
  · exact ⟨(hreached n s hs).2, fun h => (mem_of_reachesHead hcovers hs h).2 rfl⟩

/-- Nonterminals that reach the same have the same first sets, in tables that are exact for their
rules. -/
theorem IsExact.get?_eq {rules' : List Rule} {table' : FirstTable} (h : table.IsExact rules)
    (h' : table'.IsExact rules') (hlhs : (∃ r ∈ rules, r.lhs = n) ↔ ∃ r ∈ rules', r.lhs = m)
    (hreaches : ∀ head, ReachesHead rules n head ↔ ReachesHead rules' m head) :
    table.get? n = table'.get? m := by
  rw [← h.exists_get?_iff, ← h'.exists_get?_iff] at hlhs
  cases hs : table.get? n with
  | none =>
    cases hu : table'.get? m with
    | none => rfl
    | some u => simp [hs, hu] at hlhs
  | some s =>
    obtain ⟨u, hu⟩ := hlhs.mp ⟨s, hs⟩
    rw [hu]
    refine congrArg some (FirstSet.eq_of_mem_iff (fun t => ?_) (Bool.eq_iff_iff.mpr ?_))
    · rw [h.mem_terminals_iff n s hs, h'.mem_terminals_iff m u hu, hreaches]
    · rw [h.empty_iff n s hs, h'.empty_iff m u hu, hreaches]

/-- Nonterminals on a common cycle have the same first set, or none if they are one nonterminal
without rules. -/
theorem IsExact.get?_eq_of_cycle (h : table.IsExact rules)
    (hnm : ReflTransGen (LeftCorner rules) n m) (hmn : ReflTransGen (LeftCorner rules) m n) :
    table.get? n = table.get? m := by
  refine h.get?_eq h ?_ fun head => ⟨.of_reflTransGen hmn, .of_reflTransGen hnm⟩
  rcases hnm.cases_head with rfl | ⟨_, ⟨r, hr, hlhs, -⟩, -⟩
  · rfl
  · rcases hmn.cases_head with rfl | ⟨_, ⟨r', hr', hlhs', -⟩, -⟩
    · rfl
    · exact ⟨fun _ => ⟨r', hr', hlhs'⟩, fun _ => ⟨r, hr, hlhs⟩⟩

/-! ### The list of the sets -/

/-- The nonterminals with rules, in the order of declaration. -/
def leftSides (rules : List Rule) : List Nonterminal :=
  Nonterminal.all.filter fun n => rules.any (·.lhs == n)

/-- The sets of the table are listed for the given nonterminals, in their order. -/
def IsListed (table : FirstTable) (ns : List Nonterminal) : Prop :=
  table.sets = ns.filterMap fun n => (table.get? n).map (n, ·)

theorem isListed_direct (rules : List Rule) : (direct rules).IsListed (leftSides rules) := by
  have hsome : ∀ n ∈ leftSides rules,
      ((direct rules).get? n).map (n, ·) = some (n, directSet rules n) := by
    intro n hn
    rw [get?_direct, if_pos (List.mem_filter.mp hn).2, Option.map_some]
  rw [IsListed, List.filterMap_congr hsome, List.filterMap_eq_map']
  rfl

/-- Handing on changes a set in its place. -/
theorem IsListed.handOn {ns : List Nonterminal} (h : table.IsListed ns)
    (corner : Nonterminal × Nonterminal) : (table.handOn corner).1.IsListed ns := by
  unfold IsListed at h ⊢
  simp only [get?_handOn, Option.map_map]
  rw [FirstTable.handOn]
  split
  · next hnone => simpa [hnone, Function.comp_def] using h
  · next u hsome =>
    simp only [hsome, Option.elim_some]
    conv_lhs => rw [h]
    rw [List.map_filterMap]
    refine List.filterMap_congr fun n _ => ?_
    rw [Option.map_map]
    refine congrArg (Option.map · (table.get? n)) (funext fun s => ?_)
    simp only [Function.comp_apply, FirstSet.absorb_fst]
    split <;> rfl

/-- The sets are listed for the left-hand sides in the order of declaration. -/
theorem isListed_ofRules (rules : List Rule) : (ofRules rules).IsListed (leftSides rules) :=
  (saturate_induction (P := (·.IsListed (leftSides rules))) (fun _ ht corner _ => ht.handOn corner)
    (isListed_direct rules)).1

/-- The first sets do not depend on the order of the rules, nor on how often a rule is there. -/
theorem sets_eq_of_mem_iff {rules' : List Rule} (h : ∀ r, r ∈ rules' ↔ r ∈ rules) :
    (ofRules rules').sets = (ofRules rules).sets := by
  have hcorner : LeftCorner rules' = LeftCorner rules := by
    funext n m
    simp only [LeftCorner, h]
  have hget (n : Nonterminal) : (ofRules rules').get? n = (ofRules rules).get? n :=
    (isExact_ofRules rules').get?_eq (isExact_ofRules rules) (by simp only [h])
      fun head => by simp only [ReachesHead, hcorner, h]
  have hsides : leftSides rules' = leftSides rules := by
    refine List.filter_congr fun n _ => Bool.eq_iff_iff.mpr ?_
    simp only [List.any_eq_true, h]
  rw [isListed_ofRules, isListed_ofRules, hsides]
  simp only [hget]

end FirstTable

open FirstTable in
/-- The table of first sets is found after as many passes as make a set larger, which are no more
than there are members to add, and it has sets for the left-hand sides, of the terminals that are
reached by first symbols and with the mark if an empty rule is reached. It holds what the rules
contribute, and every other table that does has at least its sets. One more pass says that no set
grows and changes nothing, nonterminals on a common cycle have equal sets, and the same rules in
another order, or repeated, give the same sets. -/
theorem ofRules_exact (rules : List Rule) :
    (∃ k ≤ (direct rules).room, (∀ j < k, ((·.propagate.1)^[j] (direct rules)).Grows) ∧
      ¬ ((·.propagate.1)^[k] (direct rules)).Grows ∧
      ofRules rules = (·.propagate.1)^[k] (direct rules)) ∧
    (ofRules rules).IsExact rules ∧
    (∀ r ∈ rules, (ofRules rules).Covers r) ∧
    (∀ table : FirstTable, (∀ r ∈ rules, table.Covers r) → ∀ n s u,
      (ofRules rules).get? n = some s → table.get? n = some u → s.IsSubset u) ∧
    (ofRules rules).propagate = (ofRules rules, false) ∧
    (∀ n m, ReflTransGen (LeftCorner rules) n m → ReflTransGen (LeftCorner rules) m n →
      (ofRules rules).get? n = (ofRules rules).get? m) ∧
    ∀ rules', (∀ r, r ∈ rules' ↔ r ∈ rules) → (ofRules rules').sets = (ofRules rules).sets := by
  have hexact := isExact_ofRules rules
  obtain ⟨k, hk, hgrows, hstop, heq⟩ := exists_saturate_eq_iterate (direct rules)
  refine ⟨⟨k, hk, hgrows, hstop, heq⟩, hexact, fun r hr => covers_ofRules hr, ?_, ?_,
    fun n m => hexact.get?_eq_of_cycle, fun rules' => sets_eq_of_mem_iff⟩
  · intro table hcovers n s u hs hu
    refine ⟨fun t ht => ?_, fun he => ?_⟩
    · exact (mem_of_reachesHead hcovers hu ((hexact.mem_terminals_iff n s hs t).mp ht)).1 t rfl
    · exact (mem_of_reachesHead hcovers hu ((hexact.empty_iff n s hs).mp he)).2 rfl
  · rw [ofRules, heq]
    exact propagate_eq_self hstop

/-- Adjective phrases of two kinds, each of which may consist of one of the other kind. -/
def adjectiveRules : List Rule :=
  [⟨.ap, [.nonterminal .apMin], .apMinAlt⟩, ⟨.apMin, [.nonterminal .ap], .apMin⟩,
    ⟨.apMin, [.terminal .adjSing], .adj⟩, ⟨.ap, [.terminal .adv], .word⟩]

open FirstTable in
/-- The two kinds of adjective phrases have one first set, in whatever order the rules come. -/
theorem ofRules_exact_adjectives :
    LeftCorner adjectiveRules .ap .apMin ∧ LeftCorner adjectiveRules .apMin .ap ∧
      (ofRules adjectiveRules).get? .ap = (ofRules adjectiveRules).get? .apMin ∧
      (∃ s, (ofRules adjectiveRules).get? .ap = some s ∧ s.terminals = [.adv, .adjSing] ∧
        s.empty = false ∧ ReachesHead adjectiveRules .ap (some (.terminal .adjSing))) ∧
      (ofRules adjectiveRules.reverse).sets = (ofRules adjectiveRules).sets := by
  obtain ⟨-, hexact, -, -, -, hcycle, horder⟩ := ofRules_exact adjectiveRules
  have hap : LeftCorner adjectiveRules .ap .apMin := by unfold LeftCorner; decide
  have hapMin : LeftCorner adjectiveRules .apMin .ap := by unfold LeftCorner; decide
  have hset : ((ofRules adjectiveRules).get? .ap).any fun s =>
      s.terminals = [.adv, .adjSing] ∧ s.empty = false := by
    decide +kernel
  obtain ⟨s, hs, hterminals, hempty⟩ : ∃ s, (ofRules adjectiveRules).get? .ap = some s ∧
      s.terminals = [.adv, .adjSing] ∧ s.empty = false := by
    simpa [Option.any_eq_true] using hset
  refine ⟨hap, hapMin, hcycle _ _ (.single hap) (.single hapMin),
    ⟨s, hs, hterminals, hempty, (hexact.mem_terminals_iff _ s hs _).mp ?_⟩,
    horder _ fun r => List.mem_reverse⟩
  rw [hterminals]
  decide

end NounPhrase
