import Mathlib.Data.List.MinMax
import NounPhrase.Proofs.Forest.Children

/-!
# The choice among derivations

Among several derivations the first of those with the highest priority is taken. So what is found
later only counts if it is strictly better than all before, and a child that is recorded in a forest
changes the choice in no cell but its own, and there only if its priority is higher.

## Main definitions

* `WidenedGrammar.IsFirstBest`: the first candidate of highest priority, with its place.
* `Forest.best?`: the chosen child of a cell.
* `Forest.recordAll`: the forest after several children have been recorded.

## Main results

* `WidenedGrammar.resolve_eq_argmax`: the choice is the first maximum of the priority.
* `WidenedGrammar.resolve_eq_some_iff`: the candidate that is chosen.
* `Forest.best?_record`: the chosen children after a child has been recorded.
* `resolve_stable`: the choice is a stable maximum.
-/

namespace NounPhrase

namespace WidenedGrammar

variable {w : WidenedGrammar} {candidates more : List Cell} {c : Cell} {i : Nat}

/-- The choice is the first maximum of the priority. -/
theorem resolve_eq_argmax (w : WidenedGrammar) (candidates : List Cell) :
    w.resolve candidates = candidates.argmax w.priority := by
  have hbetter : w.better = List.argAux fun c b => w.priority b < w.priority c := by
    funext best c
    cases best <;> rfl
  rw [resolve, hbetter, List.argmax]

/-- Candidate number `i` is `c`; none has a higher priority, and those before it have lower ones. -/
structure IsFirstBest (w : WidenedGrammar) (candidates : List Cell) (i : Nat) (c : Cell) :
    Prop where
  getElem? : candidates[i]? = some c
  le : ∀ b ∈ candidates, w.priority b ≤ w.priority c
  lt : ∀ j < i, ∀ b, candidates[j]? = some b → w.priority b < w.priority c

/-- There is at most one such place, and so at most one such candidate. -/
theorem IsFirstBest.unique {j : Nat} {b : Cell} (h : w.IsFirstBest candidates i c)
    (h' : w.IsFirstBest candidates j b) : i = j ∧ c = b := by
  rcases Nat.lt_trichotomy i j with hlt | rfl | hlt
  · have hle := h.le b (List.mem_of_getElem? h'.getElem?)
    exact absurd (h'.lt i hlt c h.getElem?) (Nat.not_lt.mpr hle)
  · exact ⟨rfl, Option.some.inj (h.getElem?.symm.trans h'.getElem?)⟩
  · have hle := h'.le c (List.mem_of_getElem? h.getElem?)
    exact absurd (h.lt j hlt b h'.getElem?) (Nat.not_lt.mpr hle)

@[simp] theorem resolve_eq_none_iff_eq_nil : w.resolve candidates = none ↔ candidates = [] := by
  rw [resolve_eq_argmax, List.argmax_eq_none]

/-- What is chosen is the first best candidate. -/
theorem exists_isFirstBest (h : w.resolve candidates = some c) :
    ∃ i, w.IsFirstBest candidates i c := by
  rw [resolve_eq_argmax] at h
  obtain ⟨hmem, hle, hfirst⟩ := List.argmax_eq_some_iff.mp h
  refine ⟨candidates.idxOf c, List.getElem?_idxOf hmem, hle, fun j hj b hb => ?_⟩
  by_contra hnot
  have hmem_take : b ∈ candidates.take (j + 1) :=
    List.mem_of_getElem? (by rw [List.getElem?_take_of_lt (Nat.lt_succ_self j), hb])
  have hbmem : b ∈ candidates := List.mem_of_getElem? hb
  have hlt := (List.mem_take_iff_idxOf_lt hbmem).mp hmem_take
  have hc := hfirst b hbmem (Nat.not_lt.mp hnot)
  omega

theorem resolve_eq_some_iff :
    w.resolve candidates = some c ↔ ∃ i, w.IsFirstBest candidates i c := by
  refine ⟨exists_isFirstBest, fun ⟨i, hc⟩ => ?_⟩
  cases hchosen : w.resolve candidates with
  | none =>
    rw [resolve_eq_none_iff_eq_nil.mp hchosen] at hc
    exact absurd hc.getElem? (by simp)
  | some b =>
    obtain ⟨j, hb⟩ := exists_isFirstBest hchosen
    rw [(hc.unique hb).2]

/-- The best of several derivations is one of them. -/
theorem exists_resolve_eq_some (h : candidates ≠ []) :
    ∃ c ∈ candidates, w.resolve candidates = some c := by
  obtain ⟨c, hc⟩ := Option.ne_none_iff_exists'.mp (mt resolve_eq_none_iff_eq_nil.mp h)
  rw [resolve_eq_argmax] at hc ⊢
  exact ⟨c, List.argmax_mem hc, hc⟩

/-! ### Further candidates -/

theorem resolve_concat (candidates : List Cell) (c : Cell) :
    w.resolve (candidates ++ [c]) = w.better (w.resolve candidates) c := by
  rw [resolve, List.foldl_append]
  rfl

/-- The choice stays, or it becomes strictly better. -/
theorem better_cases (w : WidenedGrammar) (b c : Cell) :
    w.better (some b) c = some b ∧ w.priority c ≤ w.priority b ∨
      w.better (some b) c = some c ∧ w.priority b < w.priority c := by
  rw [better]
  split
  · next h => exact .inr ⟨rfl, h⟩
  · next h => exact .inl ⟨rfl, Nat.not_lt.mp h⟩

/-- Candidates that are not strictly better do not change the choice. -/
theorem resolve_append (h : w.resolve candidates = some c)
    (hmore : ∀ b ∈ more, w.priority b ≤ w.priority c) :
    w.resolve (candidates ++ more) = some c := by
  obtain ⟨i, hc⟩ := resolve_eq_some_iff.mp h
  have hi : i < candidates.length := (List.getElem?_eq_some_iff.mp hc.getElem?).1
  refine resolve_eq_some_iff.mpr ⟨i, ?_, ?_, fun j hj b hb => ?_⟩
  · rw [List.getElem?_append_left hi, hc.getElem?]
  · exact List.forall_mem_append.mpr ⟨hc.le, hmore⟩
  · rw [List.getElem?_append_left (hj.trans hi)] at hb
    exact hc.lt j hj b hb

/-- A candidate that has been there before does not change the choice. -/
theorem better_resolve_of_mem (h : c ∈ candidates) :
    w.better (w.resolve candidates) c = w.resolve candidates := by
  cases hchosen : w.resolve candidates with
  | none => simp_all
  | some b =>
    obtain ⟨i, hb⟩ := exists_isFirstBest hchosen
    rw [better, if_neg (Nat.not_lt.mpr (hb.le c h))]

end WidenedGrammar

/-! ### Recording -/

namespace Forest

variable {f : Forest} {w : WidenedGrammar} {key c : Cell}

/-- The chosen child of a cell. -/
def best? (f : Forest) (w : WidenedGrammar) (key : Cell) : Option Cell :=
  (f.get? key).bind w.resolve

/-- The forest after the children have been recorded, each in its cell. -/
def recordAll (f : Forest) (found : List (Cell × Cell)) : Forest :=
  found.foldl (fun f (key, child) => f.record key child) f

theorem best?_eq_resolve (f : Forest) (w : WidenedGrammar) (key : Cell) :
    f.best? w key = w.resolve (f.childrenOf key) := by
  rw [best?, childrenOf]
  cases f.get? key <;> rfl

/-- A child that is recorded is one more candidate in its cell. -/
theorem best?_record (f : Forest) (w : WidenedGrammar) (key child key' : Cell) :
    (f.record key child).best? w key' =
      if key' = key then w.better (f.best? w key) child else f.best? w key' := by
  rw [best?_eq_resolve, childrenOf_record, best?_eq_resolve, best?_eq_resolve]
  split
  · split
    · next hmem => exact (WidenedGrammar.better_resolve_of_mem hmem).symm
    · exact WidenedGrammar.resolve_concat _ _
  · rfl

/-- Recording one child keeps the choice in a cell or makes it strictly better. -/
theorem best?_record_cases (h : f.best? w key = some c) (key' child : Cell) :
    ∃ c', (f.record key' child).best? w key = some c' ∧
      (c' = c ∨ w.priority c < w.priority c') := by
  rw [best?_record]
  split
  · next hkey =>
    rw [← hkey, h]
    rcases w.better_cases c child with ⟨hbetter, -⟩ | ⟨hbetter, hlt⟩
    · exact ⟨c, hbetter, .inl rfl⟩
    · exact ⟨child, hbetter, .inr hlt⟩
  · exact ⟨c, h, .inl rfl⟩

/-- So do any number of children. -/
theorem best?_recordAll_cases (h : f.best? w key = some c) (found : List (Cell × Cell)) :
    ∃ c', (f.recordAll found).best? w key = some c' ∧
      (c' = c ∨ w.priority c < w.priority c') := by
  induction found generalizing f c with
  | nil => exact ⟨c, h, .inl rfl⟩
  | cons entry found ih =>
    obtain ⟨c₁, h₁, hstep⟩ := best?_record_cases h entry.1 entry.2
    obtain ⟨c', h', hrun⟩ := ih h₁
    refine ⟨c', h', ?_⟩
    rcases hstep with rfl | hlt
    · exact hrun
    · rcases hrun with rfl | hlt'
      · exact .inr hlt
      · exact .inr (hlt.trans hlt')

end Forest

/-- Nothing is chosen if and only if there are no candidates. Otherwise there is one place with a
candidate of highest priority that has only candidates of lower priority before it, and the
candidate at this place is chosen. Candidates that are not strictly better may be added at the end
without changing the choice. A child that is recorded becomes the choice in its cell if its priority
is higher than that of the choice there, or if there is none; else, and in all other cells, the
choice stays. So after any number of children have been recorded, the choice in a cell is the same
or has a strictly higher priority. -/
theorem resolve_stable (w : WidenedGrammar) :
    (∀ candidates,
      (w.resolve candidates = none ↔ candidates = []) ∧
      (candidates ≠ [] → ∃! place : Nat × Cell, w.IsFirstBest candidates place.1 place.2) ∧
      ∀ c, (w.resolve candidates = some c ↔ ∃ i, w.IsFirstBest candidates i c) ∧
        ∀ more, w.resolve candidates = some c → (∀ b ∈ more, w.priority b ≤ w.priority c) →
          w.resolve (candidates ++ more) = some c) ∧
    ∀ f : Forest,
      (∀ key child key', (f.record key child).best? w key' =
        if key' = key ∧ ∀ c ∈ f.best? w key, w.priority c < w.priority child then some child
        else f.best? w key') ∧
      ∀ key c found, f.best? w key = some c → ∃ c', (f.recordAll found).best? w key = some c' ∧
        (c' = c ∨ w.priority c < w.priority c') := by
  refine ⟨fun candidates => ⟨WidenedGrammar.resolve_eq_none_iff_eq_nil, fun hne => ?_, fun c =>
    ⟨WidenedGrammar.resolve_eq_some_iff, fun more => WidenedGrammar.resolve_append⟩⟩,
    fun f => ⟨fun key child key' => ?_, fun key c found h => Forest.best?_recordAll_cases h found⟩⟩
  · obtain ⟨c, -, hc⟩ := WidenedGrammar.exists_resolve_eq_some (w := w) hne
    obtain ⟨i, hi⟩ := WidenedGrammar.exists_isFirstBest hc
    refine ⟨(i, c), hi, fun place hplace => ?_⟩
    obtain ⟨hplace, hcell⟩ := hplace.unique hi
    exact Prod.ext hplace hcell
  · rw [Forest.best?_record]
    by_cases hkey : key' = key
    · subst hkey
      cases hbest : f.best? w key' with
      | none => simp [WidenedGrammar.better]
      | some c => simp [WidenedGrammar.better]
    · rw [if_neg hkey, if_neg fun h => hkey h.1]

/-- A verb phrase is a verb of one of three kinds, and the last two of these rank equally. -/
def Grammar.verbs : Grammar where
  entry := ⟨.sent, [.nonterminal .vc], .sentence⟩
  others := [⟨.vc, [.terminal .finVerb], .word⟩, ⟨.vc, [.terminal .infVerb], .phraseAdvp⟩,
    ⟨.vc, [.terminal .supVerb], .phraseVc⟩]
  recovery := .vc
  distinct := by decide
  start_unused := by decide
  entry_unique := by decide
  entry_ends := rfl
  faultless := by decide

/-- The first of the two derivations that rank equally is chosen, and it stays when the other two
are found again. -/
theorem resolve_stable_verbs :
    let w := Grammar.verbs.unwidened
    let verb (n : Nat) : Cell := ⟨⟨⟨n⟩, 1, 0⟩, 1⟩
    w.resolve [verb 1, verb 3, verb 2] = some (verb 3) ∧
      w.IsFirstBest [verb 1, verb 3, verb 2] 1 (verb 3) ∧
      w.resolve ([verb 1, verb 3, verb 2] ++ [verb 2, verb 1]) = some (verb 3) ∧
      ((Forest.blank.record (verb 0) (verb 1)).record (verb 0) (verb 3)).best? w (verb 0) =
        some (verb 3) := by
  intro w verb
  obtain ⟨hchoice, hrecord⟩ := resolve_stable w
  have hfirst : w.IsFirstBest [verb 1, verb 3, verb 2] 1 (verb 3) :=
    ⟨rfl, by decide, by decide⟩
  have hresolve := ((hchoice _).2.2 _).1.mpr ⟨1, hfirst⟩
  refine ⟨hresolve, hfirst, ((hchoice _).2.2 _).2 _ hresolve (by decide), ?_⟩
  rw [(hrecord _).1, (hrecord _).1]
  decide

end NounPhrase
