import Mathlib.Data.Finset.Card
import NounPhrase.Proofs.Forest.Following

/-!
# The course of the builder

A forest need not come from a chart. Whatever it holds, the builder goes from the accepting item
down and from right to left through every rule, and where it goes does not depend on the tokens: it
follows the best children, and it keeps a column of its own. So its course is a list of steps that
the forest alone decides. The tokens only decide how far the builder comes. It takes one for every
terminal, and so it stops at a terminal for which no token is left, or at a cell that has no child,
whichever comes first. If it comes to the end, then it has taken a token for each terminal, in
their order, and the tokens that it has not taken are left over.

## Main definitions

* `BuilderStep`: a token is taken, a child is visited, or no child is found.
* `Forest.Course`: the steps of the builder up to the first cell without a child. It exists if what
  is followed up to there is finite, and its dots lie within the rules.
* `BuilderStep.faultOf`: where the builder stops with a number of tokens.
* `Forest.Meets`: the children that the builder visits from a cell.
* `Forest.IsFinite`: the derivation that is followed is finite, and its dots lie within the rules.

## Main results

* `Forest.Course.unique`: a forest has one course.
* `Forest.IsFinite.exists_course`: there is a course if the derivation is finite.
* `Forest.Course.isFinite`: a derivation with a course that is whole is finite.
* `Forest.Course.children_eq_ok`, `Forest.Course.children_eq_error`: the builder follows its course.
* `Forest.Follows.leavesOf_append`: the terminals have the tokens that are taken.
* `tree_outcomes`: the outcomes of building a tree.
-/

namespace NounPhrase

/-- A step of the builder. -/
inductive BuilderStep
  /-- A token is taken for a terminal of the item. -/
  | take (item : Item)
  /-- The builder goes down to a child. -/
  | down (child : Cell)
  /-- The cell has no child. -/
  | miss (key : Cell)
  deriving DecidableEq

namespace BuilderStep

/-- The number of tokens that are taken. -/
def takes (steps : List BuilderStep) : Nat := steps.countP (· matches take _)

/-- The children that are visited. -/
def downs (steps : List BuilderStep) : List Cell :=
  steps.filterMap fun
    | down c => some c
    | _ => none

/-- The number of different children that are visited. -/
def width (steps : List BuilderStep) : Nat := (downs steps).toFinset.card

/-- Everywhere a child is found. -/
def IsWhole (steps : List BuilderStep) : Prop := ∀ key, miss key ∉ steps

/-- The first fault on the way with `count` tokens. -/
def faultOf : List BuilderStep → (count : Nat) → Option TreeFault
  | [], _ => none
  | take item :: _, 0 => some (.tokensExhausted item)
  | take _ :: steps, count + 1 => faultOf steps count
  | down _ :: steps, count => faultOf steps count
  | miss key :: _, _ => some (.missingDerivation key.item key.column)

section
variable {steps steps' : List BuilderStep} {count : Nat} {i : Item} {c key : Cell}

@[simp] theorem takes_nil : takes [] = 0 := rfl

@[simp] theorem takes_take : takes (take i :: steps) = takes steps + 1 := by simp [takes]

@[simp] theorem takes_down : takes (down c :: steps) = takes steps := by simp [takes]

@[simp] theorem takes_append : takes (steps ++ steps') = takes steps + takes steps' :=
  List.countP_append

@[simp] theorem mem_downs : c ∈ downs steps ↔ down c ∈ steps := by
  simp only [downs, List.mem_filterMap]
  constructor
  · rintro ⟨step, hstep, heq⟩
    cases step <;> simp_all
  · exact fun h => ⟨_, h, rfl⟩

theorem width_mono (h : ∀ c, down c ∈ steps → down c ∈ steps') : width steps ≤ width steps' := by
  refine Finset.card_le_card fun c hc => ?_
  rw [List.mem_toFinset, mem_downs] at hc ⊢
  exact h c hc

/-- Where a child is not visited below itself, there are fewer below it. -/
theorem width_lt (hc : down c ∉ steps) (h : ∀ c, down c ∈ steps → down c ∈ steps') :
    width steps < width (down c :: steps') := by
  refine Finset.card_lt_card (Finset.ssubset_iff_of_subset (fun c hc => ?_) |>.mpr ⟨c, ?_⟩)
  · rw [List.mem_toFinset, mem_downs] at hc ⊢
    exact List.mem_cons_of_mem _ (h c hc)
  · rw [List.mem_toFinset, List.mem_toFinset, mem_downs, mem_downs]
    exact ⟨List.mem_cons_self, hc⟩

@[simp] theorem isWhole_nil : IsWhole [] := nofun

@[simp] theorem isWhole_take : IsWhole (take i :: steps) ↔ IsWhole steps := by simp [IsWhole]

@[simp] theorem isWhole_down : IsWhole (down c :: steps) ↔ IsWhole steps := by simp [IsWhole]

@[simp] theorem not_isWhole_miss : ¬ IsWhole (miss key :: steps) :=
  fun h => h key List.mem_cons_self

/-- With enough tokens the builder comes to the end of a course that is whole. -/
theorem faultOf_eq_none_iff : faultOf steps count = none ↔ IsWhole steps ∧ takes steps ≤ count := by
  fun_induction faultOf steps count <;> simp_all

/-- The builder goes on with the tokens that are left. -/
theorem faultOf_append : faultOf (steps ++ steps') count =
    (faultOf steps count).or (faultOf steps' (count - takes steps)) := by
  fun_induction faultOf steps count <;> simp_all [faultOf]

/-- Before it stops the builder has found all children. It stops at a terminal when all tokens are
taken, or else at a cell without a child. -/
theorem exists_of_faultOf_eq_some {fault : TreeFault} (h : faultOf steps count = some fault) :
    ∃ before after, IsWhole before ∧
      ((∃ item, steps = before ++ take item :: after ∧ takes before = count ∧
          fault = .tokensExhausted item) ∨
        ∃ key, steps = before ++ miss key :: after ∧ takes before ≤ count ∧
          fault = .missingDerivation key.item key.column) := by
  fun_induction faultOf steps count with
  | case1 => cases h
  | case2 item steps =>
    exact ⟨[], steps, isWhole_nil, .inl ⟨item, rfl, rfl, (Option.some.inj h).symm⟩⟩
  | case3 item steps count ih =>
    obtain ⟨before, after, hwhole, hstop⟩ := ih h
    refine ⟨take item :: before, after, isWhole_take.mpr hwhole, ?_⟩
    rcases hstop with ⟨i, rfl, htakes, hfault⟩ | ⟨key, rfl, htakes, hfault⟩
    · exact .inl ⟨i, rfl, by rw [takes_take, htakes], hfault⟩
    · exact .inr ⟨key, rfl, by rw [takes_take]; exact Nat.succ_le_succ htakes, hfault⟩
  | case4 c steps count ih =>
    obtain ⟨before, after, hwhole, hstop⟩ := ih h
    refine ⟨down c :: before, after, isWhole_down.mpr hwhole, ?_⟩
    rcases hstop with ⟨i, rfl, htakes, hfault⟩ | ⟨key, rfl, htakes, hfault⟩
    · exact .inl ⟨i, rfl, by rwa [takes_down], hfault⟩
    · exact .inr ⟨key, rfl, by rwa [takes_down], hfault⟩
  | case5 count key steps =>
    exact ⟨[], steps, isWhole_nil, .inr ⟨key, rfl, Nat.zero_le _, (Option.some.inj h).symm⟩⟩

theorem faultOf_append_of_isWhole (hwhole : IsWhole steps) (htakes : takes steps ≤ count) :
    faultOf (steps ++ steps') count = faultOf steps' (count - takes steps) := by
  rw [faultOf_append, faultOf_eq_none_iff.mpr ⟨hwhole, htakes⟩, Option.none_or]

theorem faultOf_eq_tokensExhausted_iff :
    faultOf steps count = some (.tokensExhausted i) ↔ ∃ before after,
      steps = before ++ take i :: after ∧ IsWhole before ∧ takes before = count := by
  constructor
  · intro h
    obtain ⟨before, after, hwhole, ⟨_, rfl, htakes, hfault⟩ | ⟨_, -, -, hfault⟩⟩ :=
      exists_of_faultOf_eq_some h
    · obtain rfl := TreeFault.tokensExhausted.inj hfault
      exact ⟨before, after, rfl, hwhole, htakes⟩
    · cases hfault
  · rintro ⟨before, after, rfl, hwhole, rfl⟩
    rw [faultOf_append_of_isWhole hwhole (Nat.le_refl _), Nat.sub_self, faultOf]

theorem faultOf_eq_missingDerivation_iff {k : Nat} :
    faultOf steps count = some (.missingDerivation i k) ↔ ∃ before after,
      steps = before ++ miss ⟨i, k⟩ :: after ∧ IsWhole before ∧ takes before ≤ count := by
  constructor
  · intro h
    obtain ⟨before, after, hwhole, ⟨_, -, -, hfault⟩ | ⟨_, rfl, htakes, hfault⟩⟩ :=
      exists_of_faultOf_eq_some h
    · cases hfault
    · obtain ⟨rfl, rfl⟩ := TreeFault.missingDerivation.inj hfault
      exact ⟨before, after, rfl, hwhole, htakes⟩
  · rintro ⟨before, after, rfl, hwhole, htakes⟩
    rw [faultOf_append_of_isWhole hwhole htakes, faultOf]

theorem faultOf_ne_leftoverTokens {r : Nat} :
    faultOf steps count ≠ some (.leftoverTokens r) := fun h => by
  simpa using exists_of_faultOf_eq_some h

theorem faultOf_ne_circular : faultOf steps count ≠ some (.circular i) := fun h => by
  simpa using exists_of_faultOf_eq_some h

end

end BuilderStep

/-! ### The course -/

namespace Forest

open BuilderStep

/-- With the dot of the item moved back to `dot`, and at the column that it keeps, the builder has
these steps before it. It goes from right to left through the symbols, and at a nonterminal first
through the best child, from where it comes back at the origin of the child. At the first cell
without a child its course is at an end. -/
inductive Course (f : Forest) (w : WidenedGrammar) :
    Item → (dot column : Nat) → List BuilderStep → Prop
  | start {i : Item} {k : Nat} : Course f w i 0 k []
  | terminal {i : Item} {d k : Nat} {t : Terminal} {steps : List BuilderStep}
      (hnext : (w.rhs i.rule)[d]? = some (.terminal t)) (h : Course f w i d (k - 1) steps) :
      Course f w i (d + 1) k (take i :: steps)
  | nonterminal {i : Item} {d k : Nat} {n : Nonterminal} {c : Cell} {r : Rule}
      {steps steps' : List BuilderStep} (hnext : (w.rhs i.rule)[d]? = some (.nonterminal n))
      (hc : (f.get? ⟨{ i with dot := d + 1 }, k⟩).bind w.resolve = some c)
      (hr : w.rule? c.item.rule = some r)
      (hchild : Course f w c.item c.item.dot c.column steps) (hwhole : IsWhole steps)
      (h : Course f w i d c.item.origin steps') :
      Course f w i (d + 1) k (down c :: (steps ++ steps'))
  | broken {i : Item} {d k : Nat} {n : Nonterminal} {c : Cell} {r : Rule}
      {steps : List BuilderStep} (hnext : (w.rhs i.rule)[d]? = some (.nonterminal n))
      (hc : (f.get? ⟨{ i with dot := d + 1 }, k⟩).bind w.resolve = some c)
      (hr : w.rule? c.item.rule = some r)
      (hchild : Course f w c.item c.item.dot c.column steps) (hmiss : ¬ IsWhole steps) :
      Course f w i (d + 1) k (down c :: steps)
  | miss {i : Item} {d k : Nat} {n : Nonterminal}
      (hnext : (w.rhs i.rule)[d]? = some (.nonterminal n))
      (hc : f.childrenOf ⟨{ i with dot := d + 1 }, k⟩ = []) :
      Course f w i (d + 1) k [miss ⟨{ i with dot := d + 1 }, k⟩]

/-- A cell has a best child, if it has a child at all. -/
theorem resolve_eq_none_iff {f : Forest} {w : WidenedGrammar} {key : Cell} :
    (f.get? key).bind w.resolve = none ↔ f.childrenOf key = [] := by
  constructor
  · intro h
    by_contra hne
    obtain ⟨c, -, hc⟩ := WidenedGrammar.exists_resolve_eq_some (w := w) hne
    rw [get?_eq_some_childrenOf hne, Option.bind_some, hc] at h
    cases h
  · intro h
    rw [Option.eq_none_iff_forall_ne_some]
    intro c hc
    simpa [h] using mem_childrenOf_of_resolve hc

variable {f : Forest} {w : WidenedGrammar} {item : Item} {d k : Nat} {steps : List BuilderStep}

namespace Course

/-- The forest leaves the builder no choice. -/
theorem unique {steps' : List BuilderStep} (h : f.Course w item d k steps)
    (h' : f.Course w item d k steps') : steps = steps' := by
  induction h generalizing steps' with
  | start => cases h'; rfl
  | terminal hnext _ ih =>
    cases h' with
    | terminal _ h' => rw [ih h']
    | nonterminal hnext' => simp [hnext] at hnext'
    | broken hnext' => simp [hnext] at hnext'
    | miss hnext' => simp [hnext] at hnext'
  | nonterminal hnext hc _ _ hwhole _ ihchild ih =>
    cases h' with
    | terminal hnext' => simp [hnext] at hnext'
    | nonterminal _ hc' _ hchild' _ h' =>
      obtain rfl := Option.some.inj (hc.symm.trans hc')
      rw [ihchild hchild', ih h']
    | broken _ hc' _ hchild' hmiss =>
      obtain rfl := Option.some.inj (hc.symm.trans hc')
      exact absurd (ihchild hchild' ▸ hwhole) hmiss
    | miss _ hc' => cases hc.symm.trans (resolve_eq_none_iff.mpr hc')
  | broken hnext hc _ _ hmiss ihchild =>
    cases h' with
    | terminal hnext' => simp [hnext] at hnext'
    | nonterminal _ hc' _ hchild' hwhole _ =>
      obtain rfl := Option.some.inj (hc.symm.trans hc')
      exact absurd (ihchild hchild' ▸ hwhole) hmiss
    | broken _ hc' _ hchild' _ =>
      obtain rfl := Option.some.inj (hc.symm.trans hc')
      rw [ihchild hchild']
    | miss _ hc' => cases hc.symm.trans (resolve_eq_none_iff.mpr hc')
  | miss hnext hc =>
    cases h' with
    | terminal hnext' => simp [hnext] at hnext'
    | nonterminal _ hc' => cases hc'.symm.trans (resolve_eq_none_iff.mpr hc)
    | broken _ hc' => cases hc'.symm.trans (resolve_eq_none_iff.mpr hc)
    | miss => rfl

/-- A child that is visited is one of the forest, and below it the course is its own and shorter. -/
theorem of_down_mem (h : f.Course w item d k steps) {c : Cell} (hc : down c ∈ steps) :
    c ∈ f.toList.flatMap Prod.snd ∧ ∃ steps', f.Course w c.item c.item.dot c.column steps' ∧
      steps'.length < steps.length := by
  induction h with
  | start => cases hc
  | terminal _ _ ih =>
    obtain ⟨hmem, steps', h', hlt⟩ := ih (by simpa using hc)
    exact ⟨hmem, steps', h', Nat.lt_succ_of_lt hlt⟩
  | nonterminal _ hbest _ hchild _ _ ihchild ih =>
    simp only [List.mem_cons, List.mem_append, down.injEq] at hc
    simp only [List.length_cons, List.length_append]
    rcases hc with rfl | hc | hc
    · exact ⟨mem_flatMap_of_mem_childrenOf (mem_childrenOf_of_resolve hbest), _, hchild, by omega⟩
    · obtain ⟨hmem, steps', h', hlt⟩ := ihchild hc
      exact ⟨hmem, steps', h', by omega⟩
    · obtain ⟨hmem, steps', h', hlt⟩ := ih hc
      exact ⟨hmem, steps', h', by omega⟩
  | broken _ hbest _ hchild _ ihchild =>
    rcases List.mem_cons.mp hc with hc | hc
    · obtain rfl := down.inj hc
      exact ⟨mem_flatMap_of_mem_childrenOf (mem_childrenOf_of_resolve hbest), _, hchild,
        Nat.lt_succ_self _⟩
    · obtain ⟨hmem, steps', h', hlt⟩ := ihchild hc
      exact ⟨hmem, steps', h', Nat.lt_succ_of_lt hlt⟩
  | miss => simp at hc

/-- No child is visited again below itself. -/
theorem down_notMem {c : Cell} (h : f.Course w c.item c.item.dot c.column steps) :
    down c ∉ steps := by
  intro hc
  obtain ⟨-, steps', h', hlt⟩ := h.of_down_mem hc
  rw [h.unique h'] at hlt
  exact Nat.lt_irrefl _ hlt

theorem width_le (h : f.Course w item d k steps) : width steps ≤ f.childCount := by
  rw [width, ← length_flatMap_toList]
  refine Nat.le_trans (Finset.card_le_card fun c hc => ?_) (List.toFinset_card_le _)
  rw [List.mem_toFinset, mem_downs] at hc
  exact List.mem_toFinset.mpr (h.of_down_mem hc).1

/-- Where the builder may go down as many rules as there are children on its course, it may go down
from a child as many as there are below. -/
theorem exists_depth {c : Cell} (h : f.Course w c.item c.item.dot c.column steps)
    {steps' : List BuilderStep} {depth : Nat} (hsteps : ∀ c, down c ∈ steps → down c ∈ steps')
    (hdepth : width (down c :: steps') ≤ depth) :
    ∃ depth', depth = depth' + 1 ∧ width steps ≤ depth' := by
  have hlt := width_lt h.down_notMem hsteps
  exact ⟨depth - 1, by omega, by omega⟩

end Course

/-! ### The builder on its course -/

/-- What is built of a cell is the tree of the derivation that is followed. -/
theorem descend_of_children_eq_ok {depth : Nat} {c : Cell} {r : Rule} {tokens rest : List Token}
    {parts : List RuleTree} (hr : w.rule? c.item.rule = some r)
    (h : f.children w (f.descend w depth) (w.rhs c.item.rule) c.item c.item.dot c.column tokens [] =
      .ok (parts.map RuleTree.tree ++ [], rest)) :
    f.descend w (depth + 1) c tokens =
      .ok ((RuleTree.rule (r.upTo c.item.dot) ⟨c.item.origin, c.column⟩ parts).tree, rest) := by
  rw [WidenedGrammar.rhs_eq_of_rule? hr, List.append_nil] at h
  simp only [descend, hr, h, bind, Except.bind, pure, Except.pure, RuleTree.tree_rule]
  rfl

theorem descend_of_children_eq_error {depth : Nat} {c : Cell} {r : Rule} {tokens : List Token}
    {fault : TreeFault} (hr : w.rule? c.item.rule = some r)
    (h : f.children w (f.descend w depth) (w.rhs c.item.rule) c.item c.item.dot c.column tokens [] =
      .error fault) :
    f.descend w (depth + 1) c tokens = .error fault := by
  rw [WidenedGrammar.rhs_eq_of_rule? hr] at h
  simp only [descend, hr, h, bind, Except.bind]

namespace Course

/-- With tokens for all its terminals the builder comes to the end of a course that is whole. -/
theorem children_eq_ok (h : f.Course w item d k steps) {depth : Nat} (hdepth : width steps ≤ depth)
    {tokens : List Token} (hfault : faultOf steps tokens.length = none) (found : List Tree) :
    ∃ parts, f.Follows w { item with dot := d } k tokens parts (tokens.drop (takes steps)) ∧
      f.children w (f.descend w depth) (w.rhs item.rule) item d k tokens found =
        .ok (parts.map RuleTree.tree ++ found, tokens.drop (takes steps)) := by
  induction h generalizing depth tokens found with
  | start => exact ⟨[], .start rfl, rfl⟩
  | @terminal i d k t steps hnext _ ih =>
    cases tokens with
    | nil => cases hfault
    | cons token tokens =>
      obtain ⟨parts, hparts, heq⟩ := ih hdepth hfault
        (.leaf ⟨token, ⟨tokens.length, tokens.length + 1⟩⟩ :: found)
      rw [takes_take, List.drop_succ_cons]
      refine ⟨_, .terminal (p := { i with dot := d }) hnext hparts, ?_⟩
      rw [children_terminal hnext, heq]
      simp
  | @nonterminal i d k n c r steps steps' hnext hc hr hchild hwhole _ ihchild ih =>
    obtain ⟨depth, rfl, hle⟩ := hchild.exists_depth (fun _ h => List.mem_append_left _ h) hdepth
    have hle' : width steps' ≤ depth + 1 := Nat.le_trans
      (width_mono fun c h => List.mem_cons_of_mem _ (List.mem_append_right _ h)) hdepth
    rw [faultOf, faultOf_append] at hfault
    obtain ⟨hfault, hfault'⟩ := Option.or_eq_none_iff.mp hfault
    rw [← List.length_drop] at hfault'
    obtain ⟨parts, hparts, heq⟩ := ihchild hle hfault []
    obtain ⟨parts', hparts', heq'⟩ := ih hle' hfault'
      ((RuleTree.rule (r.upTo c.item.dot) ⟨c.item.origin, c.column⟩ parts).tree :: found)
    rw [takes_down, takes_append, ← List.drop_drop]
    refine ⟨_, .nonterminal (p := { i with dot := d }) hnext hc hr hparts hparts', ?_⟩
    rw [children_nonterminal hnext hc, descend_of_children_eq_ok hr heq]
    refine heq'.trans ?_
    rw [List.map_append, List.append_assoc, List.map_singleton]
    rfl
  | broken _ _ _ _ hmiss =>
    rw [faultOf, faultOf_eq_none_iff] at hfault
    exact absurd hfault.1 hmiss
  | miss => cases hfault

/-- Else it stops at the first fault. -/
theorem children_eq_error (h : f.Course w item d k steps) {depth : Nat}
    (hdepth : width steps ≤ depth) {tokens : List Token} {fault : TreeFault}
    (hfault : faultOf steps tokens.length = some fault) (found : List Tree) :
    f.children w (f.descend w depth) (w.rhs item.rule) item d k tokens found = .error fault := by
  induction h generalizing depth tokens found with
  | start => cases hfault
  | terminal hnext _ ih =>
    cases tokens with
    | nil =>
      obtain rfl := Option.some.inj hfault
      exact children_terminal_nil hnext
    | cons token tokens =>
      rw [children_terminal hnext]
      exact ih hdepth hfault _
  | @nonterminal i d k n c r steps steps' hnext hc hr hchild hwhole _ ihchild ih =>
    obtain ⟨depth, rfl, hle⟩ := hchild.exists_depth (fun _ h => List.mem_append_left _ h) hdepth
    have hle' : width steps' ≤ depth + 1 := Nat.le_trans
      (width_mono fun c h => List.mem_cons_of_mem _ (List.mem_append_right _ h)) hdepth
    rw [faultOf, faultOf_append] at hfault
    rw [children_nonterminal hnext hc]
    cases hfirst : faultOf steps tokens.length with
    | some first =>
      rw [hfirst, Option.some_or] at hfault
      obtain rfl := Option.some.inj hfault
      rw [descend_of_children_eq_error hr (ihchild hle hfirst [])]
      rfl
    | none =>
      rw [hfirst, Option.none_or, ← List.length_drop] at hfault
      obtain ⟨parts, -, heq⟩ := hchild.children_eq_ok hle hfirst []
      rw [descend_of_children_eq_ok hr heq]
      exact ih hle' hfault _
  | @broken i d k n c r steps hnext hc hr hchild _ ihchild =>
    obtain ⟨depth, rfl, hle⟩ := hchild.exists_depth (fun _ h => h) hdepth
    rw [children_nonterminal hnext hc,
      descend_of_children_eq_error hr (ihchild hle hfault [])]
    rfl
  | miss hnext hc =>
    obtain rfl := Option.some.inj hfault
    exact children_nonterminal_of_eq_none hnext (resolve_eq_none_iff.mpr hc) _

end Course

/-- The terminals have the tokens that are taken, each at its place. -/
theorem Follows.leavesOf_append {i : Item} {tokens rest : List Token} {parts : List RuleTree}
    (h : f.Follows w i k tokens parts rest) :
    leavesOf rest.reverse ++ parts.flatMap RuleTree.leaves = leavesOf tokens.reverse := by
  induction h with
  | start => rw [List.flatMap_nil, List.append_nil]
  | @terminal _ _ _ token rest _ _ _ _ ih =>
    rw [List.flatMap_append, ← List.append_assoc, ih, List.flatMap_singleton, RuleTree.leaves_token,
      List.reverse_cons, leavesOf, leavesOf, List.mapIdx_append]
    simp
  | nonterminal _ _ _ _ _ ih ih' =>
    rw [List.flatMap_append, ← List.append_assoc, ih', List.flatMap_singleton, RuleTree.leaves_rule,
      ih]

/-- If no token is left, the terminals of the derivation have all tokens. -/
theorem FollowsCell.leaves_eq {c : Cell} {tokens : List Token} {d : RuleTree}
    (h : f.FollowsCell w c tokens.reverse d []) : d.leaves = leavesOf tokens := by
  obtain ⟨r, parts, -, hparts, rfl⟩ := h
  have happend := hparts.leavesOf_append
  rw [List.reverse_reverse] at happend
  rw [RuleTree.leaves_rule]
  exact happend

/-! ### The tree -/

variable {tokens : List Token}

/-- The builder may go down more rules than there are children in the forest. -/
theorem exists_depth_of_tree (f : Forest) (n : Nat) :
    ∃ depth, (f.childCount + 1) * (n + 1) = depth + 1 ∧ f.childCount ≤ depth := by
  have hle : f.childCount + 1 ≤ (f.childCount + 1) * (n + 1) :=
    Nat.le_mul_of_pos_right _ (Nat.succ_pos n)
  exact ⟨(f.childCount + 1) * (n + 1) - 1, by omega, by omega⟩

namespace Course

theorem tree_eq_error (h : f.Course w w.acceptItem 2 tokens.length steps) {fault : TreeFault}
    (hfault : faultOf steps tokens.length = some fault) : f.tree w tokens = .error fault := by
  obtain ⟨depth, heq, hdepth⟩ := f.exists_depth_of_tree tokens.length
  rw [← List.length_reverse] at hfault
  have hchildren := h.children_eq_error (Nat.le_trans h.width_le hdepth) hfault []
  have hdescend := descend_of_children_eq_error (c := ⟨w.acceptItem, tokens.length⟩)
    w.rule?_startId hchildren
  rw [tree, heq, hdescend]

theorem exists_tree_eq (h : f.Course w w.acceptItem 2 tokens.length steps)
    (hfault : faultOf steps tokens.length = none) :
    ∃ d, f.FollowsCell w ⟨w.acceptItem, tokens.length⟩ tokens.reverse d
        (tokens.reverse.drop (takes steps)) ∧
      f.tree w tokens = if takes steps = tokens.length then .ok d.tree
        else .error (.leftoverTokens (tokens.length - takes steps)) := by
  obtain ⟨depth, heq, hdepth⟩ := f.exists_depth_of_tree tokens.length
  have hle := (faultOf_eq_none_iff.mp hfault).2
  rw [← List.length_reverse] at hfault
  obtain ⟨parts, hparts, hchildren⟩ := h.children_eq_ok (Nat.le_trans h.width_le hdepth) hfault []
  have hdescend := descend_of_children_eq_ok (c := ⟨w.acceptItem, tokens.length⟩)
    w.rule?_startId hchildren
  refine ⟨_, ⟨_, parts, w.rule?_startId, hparts, rfl⟩, ?_⟩
  rw [tree, heq, hdescend]
  generalize hrest : tokens.reverse.drop (takes steps) = rest
  have hlength : rest.length = tokens.length - takes steps := by
    rw [← hrest, List.length_drop, List.length_reverse]
  cases rest with
  | nil =>
    rw [List.length_nil] at hlength
    rw [if_pos (by omega)]
  | cons token rest =>
    rw [List.length_cons] at hlength
    rw [if_neg (by omega), ← hlength]
    rfl

end Course

/-! ### Finite derivations -/

/-- Going back from the dot `dot` of the item at the column, the builder visits the child. -/
inductive Meets (f : Forest) (w : WidenedGrammar) (item : Item) :
    (dot column : Nat) → Cell → Prop
  | here {d k : Nat} {n : Nonterminal} {c : Cell}
      (hnext : (w.rhs item.rule)[d]? = some (.nonterminal n))
      (hc : (f.get? ⟨{ item with dot := d + 1 }, k⟩).bind w.resolve = some c) :
      Meets f w item (d + 1) k c
  | terminal {d k : Nat} {t : Terminal} {child : Cell}
      (hnext : (w.rhs item.rule)[d]? = some (.terminal t)) (h : Meets f w item d (k - 1) child) :
      Meets f w item (d + 1) k child
  | nonterminal {d k : Nat} {n : Nonterminal} {c child : Cell}
      (hnext : (w.rhs item.rule)[d]? = some (.nonterminal n))
      (hc : (f.get? ⟨{ item with dot := d + 1 }, k⟩).bind w.resolve = some c)
      (h : Meets f w item d c.item.origin child) : Meets f w item (d + 1) k child

/-- The derivation that is followed from the cell is finite, and everywhere in it the dot lies
within the rule. -/
inductive IsFinite (f : Forest) (w : WidenedGrammar) : Cell → Prop
  | intro {cell : Cell} {r : Rule} (hr : w.rule? cell.item.rule = some r)
      (hdot : cell.item.dot ≤ r.rhs.length)
      (h : ∀ child, f.Meets w cell.item cell.item.dot cell.column child → IsFinite f w child) :
      IsFinite f w cell

theorem IsFinite.exists_rule {cell : Cell} (h : f.IsFinite w cell) :
    ∃ r, w.rule? cell.item.rule = some r := by
  cases h with
  | intro hr => exact ⟨_, hr⟩

/-- There is a course if the derivation is finite. -/
theorem IsFinite.exists_course {cell : Cell} (h : f.IsFinite w cell) :
    ∃ steps, f.Course w cell.item cell.item.dot cell.column steps := by
  induction h with
  | @intro cell r hr hdot hbelow ih =>
    rw [← WidenedGrammar.rhs_eq_of_rule? hr] at hdot
    suffices h : ∀ d ≤ cell.item.dot, ∀ k,
        (∀ child, f.Meets w cell.item d k child →
          (∃ r, w.rule? child.item.rule = some r) ∧
            ∃ steps, f.Course w child.item child.item.dot child.column steps) →
        ∃ steps, f.Course w cell.item d k steps by
      exact h _ (Nat.le_refl _) _ fun child hchild =>
        ⟨(hbelow child hchild).exists_rule, ih child hchild⟩
    intro d
    induction d with
    | zero => exact fun _ k _ => ⟨[], .start⟩
    | succ d ihd =>
      intro hd k hmeets
      have hnext := List.getElem?_eq_getElem (Nat.lt_of_lt_of_le hd hdot)
      generalize (w.rhs cell.item.rule)[d] = a at hnext
      cases a with
      | terminal t =>
        obtain ⟨steps, h⟩ := ihd (Nat.le_of_succ_le hd) (k - 1)
          fun child hchild => hmeets child (.terminal hnext hchild)
        exact ⟨_, .terminal hnext h⟩
      | nonterminal n =>
        cases hc : (f.get? ⟨{ cell.item with dot := d + 1 }, k⟩).bind w.resolve with
        | none => exact ⟨_, .miss hnext (resolve_eq_none_iff.mp hc)⟩
        | some c =>
          obtain ⟨⟨r, hr⟩, steps, hchild⟩ := hmeets c (.here hnext hc)
          by_cases hwhole : IsWhole steps
          · obtain ⟨steps', h⟩ := ihd (Nat.le_of_succ_le hd) c.item.origin
              fun child hchild => hmeets child (.nonterminal hnext hc hchild)
            exact ⟨_, .nonterminal hnext hc hr hchild hwhole h⟩
          · exact ⟨_, .broken hnext hc hr hchild hwhole⟩

namespace Course

theorem dot_le (h : f.Course w item d k steps) : d ≤ (w.rhs item.rule).length := by
  cases h with
  | start => exact Nat.zero_le _
  | terminal hnext | nonterminal hnext | broken hnext | miss hnext =>
    exact (List.getElem?_eq_some_iff.mp hnext).1

/-- On a course that is whole the derivations of all children are finite. -/
theorem isFinite_of_meets (h : f.Course w item d k steps) (hwhole : IsWhole steps) {child : Cell}
    (hchild : f.Meets w item d k child) : f.IsFinite w child := by
  induction h generalizing child with
  | start => cases hchild
  | terminal hnext _ ih =>
    cases hchild with
    | terminal _ hchild => exact ih (isWhole_take.mp hwhole) hchild
    | here hnext' => simp [hnext] at hnext'
    | nonterminal hnext' => simp [hnext] at hnext'
  | @nonterminal i d k n c r steps steps' hnext hc hr hcourse hwhole' _ ihchild ih =>
    have hwhole'' : IsWhole steps' := fun key hkey =>
      hwhole key (List.mem_cons_of_mem _ (List.mem_append_right _ hkey))
    cases hchild with
    | terminal hnext' => simp [hnext] at hnext'
    | here _ hc' =>
      obtain rfl := Option.some.inj (hc.symm.trans hc')
      have hdot := hcourse.dot_le
      rw [WidenedGrammar.rhs_eq_of_rule? hr] at hdot
      exact .intro hr hdot fun child => ihchild hwhole'
    | nonterminal _ hc' hchild =>
      obtain rfl := Option.some.inj (hc.symm.trans hc')
      exact ih hwhole'' hchild
  | broken _ _ _ _ hmiss => exact absurd (isWhole_down.mp hwhole) hmiss
  | miss => exact absurd hwhole not_isWhole_miss

/-- A derivation with a course that is whole is finite. -/
theorem isFinite {cell : Cell} {r : Rule}
    (h : f.Course w cell.item cell.item.dot cell.column steps) (hwhole : IsWhole steps)
    (hr : w.rule? cell.item.rule = some r) : f.IsFinite w cell := by
  have hdot := h.dot_le
  rw [WidenedGrammar.rhs_eq_of_rule? hr] at hdot
  exact .intro hr hdot fun child => h.isFinite_of_meets hwhole

end Course

end Forest

open BuilderStep in
/-- Whatever a forest holds, the builder has a course in it if the derivation that is followed is
finite and its dots lie within the rules. The course and the number of tokens decide what becomes
of a tree. The tree is that of the derivation that is followed, and the terminals of the derivation
have all tokens, in their order and each at its place. Tokens are left over if the course has fewer
terminals. They do not suffice if all of them are taken and the next step is another terminal. No
derivation is found at the first cell without a child, if the builder comes as far. -/
theorem tree_outcomes {f : Forest} {w : WidenedGrammar} {tokens : List Token} :
    (f.IsFinite w ⟨w.acceptItem, tokens.length⟩ →
      ∃ steps, f.Course w w.acceptItem 2 tokens.length steps) ∧
    ∀ steps, f.Course w w.acceptItem 2 tokens.length steps →
      ((∃ t, f.tree w tokens = .ok t) ↔ IsWhole steps ∧ takes steps = tokens.length) ∧
      (∀ t, f.tree w tokens = .ok t → ∃ d,
        f.FollowsCell w ⟨w.acceptItem, tokens.length⟩ tokens.reverse d [] ∧
          d.leaves = leavesOf tokens ∧ t = d.tree) ∧
      (∀ r, f.tree w tokens = .error (.leftoverTokens r) ↔
        IsWhole steps ∧ takes steps + r = tokens.length ∧ 0 < r) ∧
      (∀ i, f.tree w tokens = .error (.tokensExhausted i) ↔ ∃ before after,
        steps = before ++ take i :: after ∧ IsWhole before ∧ takes before = tokens.length) ∧
      (∀ i k, f.tree w tokens = .error (.missingDerivation i k) ↔ ∃ before after,
        steps = before ++ miss ⟨i, k⟩ :: after ∧ IsWhole before ∧ takes before ≤ tokens.length) ∧
      ∀ i, f.tree w tokens ≠ .error (.circular i) := by
  refine ⟨fun hfinite => hfinite.exists_course, fun steps h => ?_⟩
  simp only [← faultOf_eq_tokensExhausted_iff, ← faultOf_eq_missingDerivation_iff]
  cases hfault : faultOf steps tokens.length with
  | some fault =>
    have hnot : ¬ (IsWhole steps ∧ takes steps ≤ tokens.length) := by
      rw [← faultOf_eq_none_iff, hfault]
      nofun
    have hleftover (r : Nat) : fault ≠ .leftoverTokens r := fun h =>
      faultOf_ne_leftoverTokens (hfault.trans (congrArg some h))
    have hcircular (i : Item) : fault ≠ .circular i := fun h =>
      faultOf_ne_circular (hfault.trans (congrArg some h))
    rw [h.tree_eq_error hfault]
    refine ⟨⟨nofun, fun ⟨hwhole, hall⟩ => absurd ⟨hwhole, hall.le⟩ hnot⟩, nofun, fun r => ?_,
      fun i => by simp, fun i k => by simp, fun i h => hcircular i (Except.error.inj h)⟩
    refine ⟨fun heq => absurd (Except.error.inj heq) (hleftover r), fun ⟨hwhole, hall, _⟩ => ?_⟩
    exact absurd ⟨hwhole, by omega⟩ hnot
  | none =>
    obtain ⟨hwhole, hle⟩ := faultOf_eq_none_iff.mp hfault
    obtain ⟨d, hd, heq⟩ := h.exists_tree_eq hfault
    by_cases hall : takes steps = tokens.length
    · have hrest : tokens.reverse.drop (takes steps) = [] :=
        List.drop_eq_nil_of_le (by rw [List.length_reverse, hall])
      rw [hrest] at hd
      rw [heq, if_pos hall]
      exact ⟨⟨fun _ => ⟨hwhole, hall⟩, fun _ => ⟨_, rfl⟩⟩,
        fun t ht => ⟨d, hd, hd.leaves_eq, (Except.ok.inj ht).symm⟩,
        fun r => ⟨nofun, fun ⟨_, hr, hpos⟩ => by omega⟩, by simp, by simp, by simp⟩
    · rw [heq, if_neg hall]
      refine ⟨⟨nofun, fun h => absurd h.2 hall⟩, nofun, fun r => ?_, by simp, by simp, by simp⟩
      rw [Except.error.injEq, TreeFault.leftoverTokens.injEq]
      exact ⟨fun hr => ⟨hwhole, by omega, by omega⟩, fun ⟨_, hr, _⟩ => by omega⟩

/-- A sentence is an adverb phrase, and this is an adverb. -/
def Grammar.adverbs : Grammar where
  entry := ⟨.sent, [.nonterminal .advp], .sentence⟩
  others := [⟨.advp, [.terminal .adv], .advp⟩]
  recovery := .advp
  distinct := by decide
  start_unused := by decide
  entry_unique := by decide
  entry_ends := rfl
  faultless := by decide

/-- Two cells that do not fit together: the sentence ends at column 2, and its only phrase ends at
column 1. -/
def Forest.skipping : Forest :=
  (Forest.blank.record ⟨⟨⟨2⟩, 1, 0⟩, 2⟩ ⟨⟨⟨0⟩, 1, 0⟩, 2⟩).record ⟨⟨⟨0⟩, 1, 0⟩, 2⟩
    ⟨⟨⟨1⟩, 1, 0⟩, 1⟩

open BuilderStep in
/-- The builder comes back from the phrase at column 0, but a token is left over. -/
theorem tree_outcomes_skipping :
    Forest.skipping.IsFinite Grammar.adverbs.unwidened ⟨⟨⟨2⟩, 2, 0⟩, 3⟩ ∧
    (∃ steps, Forest.skipping.Course Grammar.adverbs.unwidened ⟨⟨2⟩, 2, 0⟩ 2 3 steps) ∧
    Forest.skipping.Course Grammar.adverbs.unwidened ⟨⟨2⟩, 2, 0⟩ 2 3
      [take ⟨⟨2⟩, 2, 0⟩, down ⟨⟨⟨0⟩, 1, 0⟩, 2⟩, down ⟨⟨⟨1⟩, 1, 0⟩, 1⟩, take ⟨⟨1⟩, 1, 0⟩] ∧
    Forest.skipping.tree Grammar.adverbs.unwidened
      [⟨.adv, some "bara", none⟩, ⟨.adv, some "nu", none⟩, .endMarker] =
        .error (.leftoverTokens 1) := by
  have hphrase : Forest.skipping.Course Grammar.adverbs.unwidened ⟨⟨1⟩, 1, 0⟩ 1 1
      [take ⟨⟨1⟩, 1, 0⟩] := .terminal (t := .adv) rfl .start
  have hsentence : Forest.skipping.Course Grammar.adverbs.unwidened ⟨⟨0⟩, 1, 0⟩ 1 2
      [down ⟨⟨⟨1⟩, 1, 0⟩, 1⟩, take ⟨⟨1⟩, 1, 0⟩] :=
    .nonterminal (n := .advp) rfl rfl rfl hphrase (isWhole_take.mpr isWhole_nil) .start
  have hstart : Forest.skipping.Course Grammar.adverbs.unwidened ⟨⟨2⟩, 2, 0⟩ 1 2
      [down ⟨⟨⟨0⟩, 1, 0⟩, 2⟩, down ⟨⟨⟨1⟩, 1, 0⟩, 1⟩, take ⟨⟨1⟩, 1, 0⟩] :=
    .nonterminal (n := .sent) rfl rfl rfl hsentence
      (isWhole_down.mpr (isWhole_take.mpr isWhole_nil)) .start
  have hcourse : Forest.skipping.Course Grammar.adverbs.unwidened ⟨⟨2⟩, 2, 0⟩ 2 3
      [take ⟨⟨2⟩, 2, 0⟩, down ⟨⟨⟨0⟩, 1, 0⟩, 2⟩, down ⟨⟨⟨1⟩, 1, 0⟩, 1⟩, take ⟨⟨1⟩, 1, 0⟩] :=
    .terminal (t := .eof) rfl hstart
  have hfinite : Forest.skipping.IsFinite Grammar.adverbs.unwidened ⟨⟨⟨2⟩, 2, 0⟩, 3⟩ :=
    Forest.Course.isFinite hcourse (by simp) rfl
  obtain ⟨hexists, houtcomes⟩ := @tree_outcomes Forest.skipping Grammar.adverbs.unwidened
    [⟨.adv, some "bara", none⟩, ⟨.adv, some "nu", none⟩, .endMarker]
  obtain ⟨-, -, hleftover, -⟩ := houtcomes _ hcourse
  exact ⟨hfinite, hexists hfinite, hcourse, (hleftover 1).mpr ⟨by simp, rfl, by decide⟩⟩

end NounPhrase
