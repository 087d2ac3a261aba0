import NounPhrase.Terminal

/-!
# First sets

The first set of a phrase category holds the terminals that its expansions can begin with, and
the mark that one of them can begin with nothing at all.

## Main definitions

* `FirstSet`: a set of terminals in the order of declaration, and the mark.
* `FirstSet.union`, `FirstSet.missing`: the union of two sets, and the number of members that a
  set does not have.
* `FirstSet.absorb`: a union, and whether anything of it is new.
* `FirstSet.admits`: whether a phrase with this first set can stand before a terminal.
* `FirstSet.text`: the printed form.

## Main results

* `FirstSet.mem_union`: membership in a union.
* `FirstSet.missing_union_le`, `FirstSet.missing_absorb_lt`: a union misses no more than its parts,
  and less if anything is new.
-/

namespace NounPhrase

/-- The terminals that a phrase can begin with, and whether it can begin with nothing. -/
structure FirstSet where
  terminals : List Terminal
  empty : Bool
  /-- The terminals stand in the order of declaration, each of them once. -/
  ordered : Terminal.all.filter terminals.contains = terminals
  deriving DecidableEq, Repr

namespace FirstSet

/-- The set of the terminals with the property `p`, in the order of declaration. -/
def ofPred (p : Terminal → Bool) (empty : Bool) : FirstSet where
  terminals := Terminal.all.filter p
  empty
  ordered := List.filter_congr fun t ht => by simp [ht]

/-- Everything in either set. -/
def union (s u : FirstSet) : FirstSet :=
  ofPred (fun t => s.terminals.contains t || u.terminals.contains t) (s.empty || u.empty)

/-- Everything in either set, and whether the first set does not have all of it: there are more
terminals, or the mark is new. -/
def absorb (s u : FirstSet) : FirstSet × Bool :=
  let both := s.union u
  (both, both.terminals.length != s.terminals.length || u.empty && !s.empty)

/-- The number of members that the set does not have, the mark counted as one. -/
def missing (s : FirstSet) : Nat :=
  Terminal.all.length - s.terminals.length + if s.empty then 0 else 1

/-- A phrase can stand before `t` if it can begin with `t`, or with nothing. -/
def admits (s : FirstSet) (t : Terminal) : Bool := s.empty || s.terminals.contains t

/-- The members in braces, separated by commas, with the mark at the end. -/
def text (s : FirstSet) : String :=
  let members := s.terminals.map Terminal.name ++ if s.empty then ["<empty>"] else []
  "\x7b" ++ ",".intercalate (members.map (" " ++ ·)) ++ " \x7d"

@[simp] theorem mem_ofPred {p : Terminal → Bool} {empty : Bool} {t : Terminal} :
    t ∈ (ofPred p empty).terminals ↔ p t := by
  simp [ofPred, Terminal.mem_all]

@[simp] theorem mem_union {s u : FirstSet} {t : Terminal} :
    t ∈ (s.union u).terminals ↔ t ∈ s.terminals ∨ t ∈ u.terminals := by
  simp [union]

@[simp] theorem empty_union (s u : FirstSet) : (s.union u).empty = (s.empty || u.empty) := rfl

@[simp] theorem absorb_fst (s u : FirstSet) : (s.absorb u).1 = s.union u := rfl

theorem length_terminals_le_union (s u : FirstSet) :
    s.terminals.length ≤ (s.union u).terminals.length := by
  have h : Terminal.all.countP s.terminals.contains ≤ Terminal.all.countP
      (fun t => s.terminals.contains t || u.terminals.contains t) :=
    List.countP_mono_left fun t _ ht => by simp_all
  rwa [List.countP_eq_length_filter, List.countP_eq_length_filter, s.ordered] at h

theorem length_terminals_le (s : FirstSet) : s.terminals.length ≤ Terminal.all.length := by
  rw [← s.ordered]
  exact List.length_filter_le _ _

theorem missing_union_le (s u : FirstSet) : (s.union u).missing ≤ s.missing := by
  refine Nat.add_le_add (Nat.sub_le_sub_left (s.length_terminals_le_union u) _) ?_
  rw [empty_union]
  cases s.empty <;> cases u.empty <;> decide

/-- If anything is new in a union, it misses less. -/
theorem missing_absorb_lt {s u : FirstSet} (h : (s.absorb u).2) :
    (s.union u).missing < s.missing := by
  have hlength := s.length_terminals_le_union u
  have hall := (s.union u).length_terminals_le
  rw [absorb, Bool.or_eq_true, bne_iff_ne, Bool.and_eq_true, Bool.not_eq_true'] at h
  rw [missing, missing, empty_union]
  rcases h with h | ⟨hu, hs⟩
  · have : (if (s.empty || u.empty) = true then 0 else 1) ≤ if s.empty = true then 0 else 1 := by
      cases s.empty <;> cases u.empty <;> decide
    omega
  · rw [hu, hs]
    simp only [Bool.or_true, if_true, Bool.false_eq_true, if_false]
    omega

end FirstSet

end NounPhrase
