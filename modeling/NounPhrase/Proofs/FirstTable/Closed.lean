import Mathlib.Data.List.Basic
import NounPhrase.FirstTable

/-!
# First sets are closed under handing on

The table of first sets is saturated: what a rule contributes to the first set of its left-hand
side is in that set, and if the rule begins with a nonterminal, so is everything in the first set
of that nonterminal. The passes end with one in which nothing is new. Such a pass has changed
nothing, and what each pair would hand on is there already.

## Main definitions

* `FirstSet.IsSubset`: one first set is part of another.
* `FirstTable.HoldsHead`: a table holds what a rule contributes without handing on.
* `FirstTable.Covers`: a table holds all that a rule contributes.

## Main results

* `FirstSet.not_absorb_iff`: nothing is new in a union if and only if the one set is part of the
  other.
* `FirstTable.handOnAll_eq_self`: a pass in which nothing is new changes nothing.
* `FirstTable.saturate_induction`: what handing on preserves holds of the saturated table.
* `FirstTable.covers_ofRules`: the table of first sets holds what its rules contribute.
-/

namespace NounPhrase

namespace FirstSet

variable {s u : FirstSet}

/-- Every member of `s` is in `u`, and so is the mark. -/
def IsSubset (s u : FirstSet) : Prop :=
  (∀ t ∈ s.terminals, t ∈ u.terminals) ∧ (s.empty → u.empty)

theorem IsSubset.refl (s : FirstSet) : s.IsSubset s := ⟨fun _ h => h, id⟩

theorem isSubset_union_left (s u : FirstSet) : s.IsSubset (s.union u) :=
  ⟨fun _ h => mem_union.mpr (.inl h), fun h => by simp [h]⟩

/-- A set is what it has as members. -/
theorem eq_of_mem_iff (hterminals : ∀ t, t ∈ s.terminals ↔ t ∈ u.terminals)
    (hempty : s.empty = u.empty) : s = u := by
  obtain ⟨terminals, empty, hs⟩ := s
  obtain ⟨terminals', empty', hu⟩ := u
  obtain rfl : terminals = terminals' := by
    rw [← hs, ← hu]
    refine List.filter_congr fun t _ => ?_
    rw [List.contains_eq_mem, List.contains_eq_mem, decide_eq_decide]
    exact hterminals t
  obtain rfl : empty = empty' := hempty
  rfl

theorem union_eq_left (h : u.IsSubset s) : s.union u = s :=
  eq_of_mem_iff (fun t => mem_union.trans (or_iff_left_of_imp (h.1 t)))
    (by have := h.2; cases hs : s.empty <;> cases hu : u.empty <;> simp_all)

/-- No terminal of a set is lost in a union, and none changes its place. -/
theorem sublist_union (s u : FirstSet) : s.terminals.Sublist (s.union u).terminals := by
  have h : (Terminal.all.filter s.terminals.contains).Sublist (Terminal.all.filter fun t =>
      s.terminals.contains t || u.terminals.contains t) :=
    List.monotone_filter_right _ fun t ht => Bool.or_eq_true_iff.mpr (.inl ht)
  rw [s.ordered] at h
  rwa [union, ofPred]

/-- Nothing is new in a union if and only if the second set is part of the first one. -/
theorem not_absorb_iff : (s.absorb u).2 = false ↔ u.IsSubset s := by
  constructor
  · intro h
    rw [absorb, Bool.or_eq_false_iff, bne_eq_false_iff_eq, Bool.and_eq_false_imp] at h
    obtain ⟨hlength, hempty⟩ := h
    have hterminals := (sublist_union s u).eq_of_length hlength.symm
    refine ⟨fun t ht => ?_, fun he => by simpa using hempty he⟩
    rw [hterminals]
    exact mem_union.mpr (.inr ht)
  · intro h
    rw [absorb, union_eq_left h, Bool.or_eq_false_iff, bne_eq_false_iff_eq, Bool.and_eq_false_imp]
    exact ⟨rfl, fun he => by simp [h.2 he]⟩

end FirstSet

namespace FirstTable

variable {table : FirstTable} {rules : List Rule} {r : Rule}

/-! ### Handing on -/

theorem mem_sets_of_get? {n : Nonterminal} {s : FirstSet} (h : table.get? n = some s) :
    (n, s) ∈ table.sets := by
  obtain ⟨l, l', h, -⟩ := List.lookup_eq_some_iff.mp h
  simp [h]

@[simp] theorem corners_handOn (table : FirstTable) (corner : Nonterminal × Nonterminal) :
    (table.handOn corner).1.corners = table.corners := by
  rw [handOn]
  split <;> rfl

/-- A look-up where the values of one key have been changed. -/
private theorem lookup_map_ite (l : List (Nonterminal × FirstSet)) (f : FirstSet → FirstSet)
    (m k : Nonterminal) :
    (l.map fun e => if e.1 = m then (e.1, f e.2) else e).lookup k =
      (l.lookup k).map fun s => if k = m then f s else s := by
  induction l with
  | nil => rfl
  | cons e l ih =>
    have hkey : (if e.1 = m then (e.1, f e.2) else e).1 = e.1 := by split <;> rfl
    rw [List.map_cons, List.lookup_cons, List.lookup_cons, hkey]
    split
    · next hk =>
      rw [eq_of_beq hk, Option.map_some]
      split <;> rfl
    · exact ih

/-- The first nonterminal of a pair receives what the second one has, and the others stay as they
are. -/
theorem get?_handOn (table : FirstTable) (corner : Nonterminal × Nonterminal) (k : Nonterminal) :
    (table.handOn corner).1.get? k = (table.get? k).map fun s =>
      if k = corner.1 then (table.get? corner.2).elim s s.union else s := by
  rw [handOn]
  split
  · next hnone => simp [hnone]
  · next u hsome =>
    rw [hsome]
    exact lookup_map_ite table.sets (fun s => (s.absorb u).1) corner.1 k

/-- If nothing is new in handing on, then nothing changes, and what the second nonterminal has is
part of what the first one has. -/
theorem handOn_eq_self {corner : Nonterminal × Nonterminal}
    (h : (table.handOn corner).2 = false) :
    table.handOn corner = (table, false) ∧ ∀ s u, table.get? corner.1 = some s →
      table.get? corner.2 = some u → u.IsSubset s := by
  rw [handOn] at h ⊢
  split
  · next hnone => exact ⟨rfl, fun s u _ hu => by simp [hnone] at hu⟩
  · next u hsome =>
    rw [hsome] at h
    have hsub : ∀ e ∈ table.sets, e.1 = corner.1 → u.IsSubset e.2 := fun e he hkey =>
      FirstSet.not_absorb_iff.mp (by simpa [hkey] using List.any_eq_false.mp h e he)
    have hsets : (table.sets.map fun e =>
        if e.1 = corner.1 then (e.1, (e.2.absorb u).1) else e) = table.sets := by
      refine (List.map_congr_left fun e he => ?_).trans (List.map_id _)
      split
      · next hkey => rw [FirstSet.absorb_fst, FirstSet.union_eq_left (hsub e he hkey), id]
      · rfl
    refine ⟨Prod.ext (by rw [hsets]) h, fun s u' hs hu' => ?_⟩
    obtain rfl : u = u' := Option.some.inj (hsome.symm.trans hu')
    exact hsub _ (mem_sets_of_get? hs) rfl

/-- If nothing is new in a pass, then nothing is in any of its steps, and nothing changes. -/
theorem handOnAll_eq_self {corners : List (Nonterminal × Nonterminal)}
    (h : (table.handOnAll corners).2 = false) :
    table.handOnAll corners = (table, false) ∧
      ∀ corner ∈ corners, (table.handOn corner).2 = false := by
  induction corners with
  | nil => exact ⟨rfl, List.forall_mem_nil _⟩
  | cons corner corners ih =>
    simp only [handOnAll_cons, Bool.or_eq_false_iff] at h ⊢
    obtain ⟨hhead, htail⟩ := h
    have hself := (handOn_eq_self hhead).1
    rw [hself] at htail ⊢
    obtain ⟨htable, hcorners⟩ := ih htail
    exact ⟨by rw [htable]; rfl, List.forall_mem_cons.mpr ⟨hhead, hcorners⟩⟩

/-- If no set grows, then a pass changes nothing. -/
theorem propagate_eq_self (h : ¬ table.Grows) : table.propagate = (table, false) :=
  (handOnAll_eq_self (Bool.eq_false_iff.mpr h)).1

/-- If no set grows, then the first set of the first nonterminal of a pair has all that the second
one has. -/
theorem isSubset_of_not_grows (h : ¬ table.Grows) {m n : Nonterminal}
    (hcorner : (m, n) ∈ table.corners) {s u : FirstSet} (hs : table.get? m = some s)
    (hu : table.get? n = some u) : u.IsSubset s :=
  (handOn_eq_self ((handOnAll_eq_self (Bool.eq_false_iff.mpr h)).2 _ hcorner)).2 s u hs hu

/-! ### Passes -/

/-- What handing on preserves is preserved by a pass. -/
theorem propagate_induction {P : FirstTable → Prop}
    (step : ∀ t, P t → ∀ corner ∈ table.corners, P (t.handOn corner).1) (h : P table) :
    P table.propagate.1 := by
  have handOnAll (corners : List (Nonterminal × Nonterminal)) (t : FirstTable) (ht : P t)
      (hcorners : ∀ corner ∈ corners, corner ∈ table.corners) : P (t.handOnAll corners).1 := by
    induction corners generalizing t with
    | nil => exact ht
    | cons corner corners ih =>
      obtain ⟨hhead, htail⟩ := List.forall_mem_cons.mp hcorners
      rw [handOnAll_cons]
      exact ih _ (step t ht corner hhead) htail
  exact handOnAll _ _ h fun _ hc => hc

@[simp] theorem corners_propagate (table : FirstTable) :
    table.propagate.1.corners = table.corners :=
  propagate_induction (P := fun t => t.corners = table.corners)
    (fun t ht _ _ => (t.corners_handOn _).trans ht) rfl

/-- What handing on along the pairs preserves holds of the saturated table, in which no set grows
and whose pairs are the same. -/
theorem saturate_induction {P : FirstTable → Prop}
    (step : ∀ t, P t → ∀ corner ∈ table.corners, P (t.handOn corner).1) (h : P table) :
    P table.saturate ∧ table.saturate.corners = table.corners ∧ ¬ table.saturate.Grows := by
  induction table using saturate.induct with
  | case1 table hg ih =>
    rw [saturate, if_pos hg]
    have hcorners := table.corners_propagate
    rw [hcorners] at ih
    exact ih step (propagate_induction step h)
  | case2 table hg =>
    rw [saturate, if_neg hg, propagate_eq_self hg]
    exact ⟨h, rfl, hg⟩

/-! ### What a rule contributes -/

/-- The table has a first set for the rule's left-hand side. It is marked if the rule is empty,
and has the terminal that the rule begins with. -/
def HoldsHead (table : FirstTable) (r : Rule) : Prop :=
  ∃ s, table.get? r.lhs = some s ∧ (r.rhs = [] → s.empty) ∧
    ∀ t α, r.rhs = .terminal t :: α → t ∈ s.terminals

/-- The table holds the head of the rule, and if the rule begins with a nonterminal, the first set
of the left-hand side has all that the nonterminal's has. -/
def Covers (table : FirstTable) (r : Rule) : Prop :=
  table.HoldsHead r ∧ ∀ m α s u, r.rhs = .nonterminal m :: α → table.get? r.lhs = some s →
    table.get? m = some u → u.IsSubset s

/-- The left-hand sides have the first sets of what their rules contribute, and nothing else has a
first set. -/
theorem get?_direct (rules : List Rule) (n : Nonterminal) :
    (direct rules).get? n = if rules.any (·.lhs == n) then some (directSet rules n) else none := by
  have lookup (l : List Nonterminal) : (l.map fun m => (m, directSet rules m)).lookup n =
      if n ∈ l then some (directSet rules n) else none := by
    induction l with
    | nil => rfl
    | cons m l ih =>
      rw [List.map_cons, List.lookup_cons]
      split
      · next h => simp [eq_of_beq h]
      · next h => simp [ih, ne_of_beq_false h]
  rw [get?, direct, lookup]
  simp only [List.mem_filter, Nonterminal.mem_all, true_and]

theorem mem_terminals_directSet {n : Nonterminal} {t : Terminal} :
    t ∈ (directSet rules n).terminals ↔
      ∃ r ∈ rules, r.lhs = n ∧ r.rhs.head? = some (.terminal t) := by
  simp [directSet]

theorem empty_directSet {n : Nonterminal} :
    (directSet rules n).empty ↔ ∃ r ∈ rules, r.lhs = n ∧ r.rhs = [] := by
  simp [directSet, FirstSet.ofPred]

theorem holdsHead_direct (hr : r ∈ rules) : (direct rules).HoldsHead r := by
  have hany : rules.any (·.lhs == r.lhs) = true := List.any_eq_true.mpr ⟨r, hr, beq_self_eq_true _⟩
  refine ⟨directSet rules r.lhs, by rw [get?_direct, if_pos hany], fun h => ?_, fun t α h => ?_⟩
  · exact empty_directSet.mpr ⟨r, hr, rfl, h⟩
  · exact mem_terminals_directSet.mpr ⟨r, hr, rfl, by rw [h]; rfl⟩

theorem HoldsHead.handOn (h : table.HoldsHead r) (corner : Nonterminal × Nonterminal) :
    (table.handOn corner).1.HoldsHead r := by
  obtain ⟨s, hs, hempty, hterminal⟩ := h
  obtain ⟨s', hs', hsub⟩ : ∃ s', (table.handOn corner).1.get? r.lhs = some s' ∧ s.IsSubset s' := by
    rw [get?_handOn, hs]
    refine ⟨_, rfl, ?_⟩
    split
    · cases table.get? corner.2 with
      | none => exact .refl s
      | some u => exact FirstSet.isSubset_union_left s u
    · exact .refl s
  exact ⟨s', hs', fun h => hsub.2 (hempty h), fun t α h => hsub.1 t (hterminal t α h)⟩

/-- The pairs are the left-hand sides with the other nonterminals that their rules begin with. -/
theorem mem_corners_direct {m n : Nonterminal} :
    (m, n) ∈ (direct rules).corners ↔
      m ≠ n ∧ ∃ r ∈ rules, r.lhs = m ∧ r.rhs.head? = some (.nonterminal n) := by
  have hcorner (r : Rule) : r.corner? = some (m, n) ↔
      m ≠ n ∧ r.lhs = m ∧ r.rhs.head? = some (.nonterminal n) := by
    rw [Rule.corner?]
    split
    · next k hk =>
      rw [hk]
      split <;> grind
    · next hk => simpa using fun _ _ => hk n
  rw [direct, List.mem_eraseDups, List.mem_filterMap]
  simp only [hcorner]
  grind

/-- The table of first sets holds what its rules contribute. -/
theorem covers_ofRules (hr : r ∈ rules) : (ofRules rules).Covers r := by
  obtain ⟨hhead, hcorners, hg⟩ := saturate_induction (P := (·.HoldsHead r))
    (fun _ h corner _ => h.handOn corner) (holdsHead_direct hr)
  refine ⟨hhead, fun m α s u hrhs hs hu => ?_⟩
  by_cases hm : r.lhs = m
  · obtain rfl : s = u := Option.some.inj (hs.symm.trans (hm ▸ hu))
    exact .refl s
  · have hcorner : (r.lhs, m) ∈ (ofRules rules).corners := by
      rw [ofRules, hcorners]
      exact mem_corners_direct.mpr ⟨hm, r, hr, rfl, by rw [hrhs]; rfl⟩
    exact isSubset_of_not_grows hg hcorner hs hu

end FirstTable

end NounPhrase
