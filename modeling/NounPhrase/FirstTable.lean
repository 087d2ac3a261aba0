import NounPhrase.FirstSet
import NounPhrase.Rule.Basic

/-!
# First sets of a rule table

A rule contributes to the first set of its left-hand side by its first symbol only: a terminal is
a member, an empty right-hand side gives the mark of emptiness, and a nonterminal hands on its
whole first set, mark included. A terminal behind a prefix that can be empty is thus admitted by
the mark and not by name.

## Main definitions

* `FirstTable`: the first set of every left-hand side, and which of them hand on to which.
* `FirstTable.direct`: the table of what the rules contribute without handing on.
* `FirstTable.handOn`, `FirstTable.propagate`: handing on from one nonterminal to another, and a
  pass over all such pairs.
* `FirstTable.saturate`, `FirstTable.ofRules`: passes until no set grows.
* `FirstTable.get?`, `FirstTable.admits`: the first set of a nonterminal, and its admission test.

## Main results

* `FirstTable.room_propagate_lt`: a pass that makes a set larger leaves less room.

## Implementation notes

A pass works on the table as the pairs before have left it, so how much it hands on depends on the
order of the pairs. Whether to go on is told from the sizes of the sets.
-/

namespace NounPhrase

/-- The left-hand side of a rule and the nonterminal that the rule begins with. There is nothing to
hand on from a nonterminal to itself. -/
def Rule.corner? (r : Rule) : Option (Nonterminal × Nonterminal) :=
  match r.rhs.head? with
  | some (.nonterminal n) => if r.lhs = n then none else some (r.lhs, n)
  | _ => none

/-- The first sets of a rule table. -/
structure FirstTable where
  /-- The first set of every left-hand side, in the order of declaration. -/
  sets : List (Nonterminal × FirstSet)
  /-- The left-hand side of every rule that begins with another nonterminal, with that nonterminal,
  each pair once. -/
  corners : List (Nonterminal × Nonterminal)
  deriving DecidableEq, Repr

namespace FirstTable

/-- The first set of a nonterminal; only left-hand sides have one. -/
def get? (table : FirstTable) (n : Nonterminal) : Option FirstSet := table.sets.lookup n

/-- Whether the nonterminal can begin with `t`, or with nothing. -/
def admits (table : FirstTable) (n : Nonterminal) (t : Terminal) : Bool :=
  (table.get? n).any (·.admits t)

/-- What the rules of `n` contribute by a terminal in front or an empty right-hand side. -/
def directSet (rules : List Rule) (n : Nonterminal) : FirstSet :=
  let heads := rules.filterMap fun r => if r.lhs = n then some r.rhs.head? else none
  .ofPred (fun t => heads.contains (some (.terminal t))) (heads.contains none)

/-- The table before anything is handed on. -/
def direct (rules : List Rule) : FirstTable where
  sets := (Nonterminal.all.filter fun n => rules.any (·.lhs == n)).map fun n =>
    (n, directSet rules n)
  corners := (rules.filterMap Rule.corner?).eraseDups

/-- Hands the first set of the second nonterminal on to the first one, and says whether anything of
it was new there. A nonterminal without a first set has nothing to hand on. -/
def handOn (table : FirstTable) (corner : Nonterminal × Nonterminal) : FirstTable × Bool :=
  match table.get? corner.2 with
  | none => (table, false)
  | some u =>
    ({ table with
        sets := table.sets.map fun e => if e.1 = corner.1 then (e.1, (e.2.absorb u).1) else e },
      table.sets.any fun e => e.1 = corner.1 && (e.2.absorb u).2)

/-- Hands on along the pairs, one after the other, and says whether a set has grown. -/
def handOnAll (table : FirstTable) : List (Nonterminal × Nonterminal) → FirstTable × Bool
  | [] => (table, false)
  | corner :: corners =>
    let first := table.handOn corner
    let rest := first.1.handOnAll corners
    (rest.1, first.2 || rest.2)

theorem handOnAll_cons (table : FirstTable) (corner : Nonterminal × Nonterminal)
    (corners : List (Nonterminal × Nonterminal)) :
    table.handOnAll (corner :: corners) = (((table.handOn corner).1.handOnAll corners).1,
      (table.handOn corner).2 || ((table.handOn corner).1.handOnAll corners).2) :=
  rfl

/-- A pass over all pairs, and whether it has made a set larger. -/
def propagate (table : FirstTable) : FirstTable × Bool := table.handOnAll table.corners

/-- Whether one more pass makes a set larger. -/
def Grows (table : FirstTable) : Prop := table.propagate.2

instance (table : FirstTable) : Decidable table.Grows :=
  inferInstanceAs (Decidable (_ = true))

/-- The number of members that the sets do not have. -/
def room (table : FirstTable) : Nat := table.sets.foldr (fun e room => e.2.missing + room) 0

/-- Handing on never leaves more room, and it leaves less if anything of it is new. -/
theorem room_handOn (table : FirstTable) (corner : Nonterminal × Nonterminal) :
    (table.handOn corner).1.room ≤ table.room ∧
      ((table.handOn corner).2 → (table.handOn corner).1.room < table.room) := by
  rw [handOn]
  split
  · exact ⟨Nat.le_refl _, nofun⟩
  · next u _ =>
    simp only [room]
    induction table.sets with
    | nil => exact ⟨Nat.le_refl _, nofun⟩
    | cons e sets ih =>
      obtain ⟨hle, hlt⟩ := ih
      simp only [List.map_cons, List.foldr_cons, List.any_cons, Bool.or_eq_true]
      split
      · have he := e.2.missing_union_le u
        refine ⟨Nat.add_le_add he hle, fun h => ?_⟩
        rcases h with h | h
        · exact Nat.add_lt_add_of_lt_of_le (FirstSet.missing_absorb_lt (by simp_all)) hle
        · exact Nat.add_lt_add_of_le_of_lt he (hlt h)
      · next hne =>
        refine ⟨Nat.add_le_add_left hle _, fun h => Nat.add_lt_add_left (hlt ?_) _⟩
        simpa [hne] using h

theorem room_handOnAll (table : FirstTable) (corners : List (Nonterminal × Nonterminal)) :
    (table.handOnAll corners).1.room ≤ table.room ∧
      ((table.handOnAll corners).2 → (table.handOnAll corners).1.room < table.room) := by
  induction corners generalizing table with
  | nil => exact ⟨Nat.le_refl _, nofun⟩
  | cons corner corners ih =>
    obtain ⟨hle, hlt⟩ := table.room_handOn corner
    obtain ⟨hle', hlt'⟩ := ih (table.handOn corner).1
    rw [handOnAll_cons]
    refine ⟨Nat.le_trans hle' hle, fun h => ?_⟩
    rcases Bool.or_eq_true_iff.mp h with h | h
    · exact Nat.lt_of_le_of_lt hle' (hlt h)
    · exact Nat.lt_of_lt_of_le (hlt' h) hle

/-- A pass that makes a set larger leaves less room. -/
theorem room_propagate_lt {table : FirstTable} (h : table.Grows) :
    table.propagate.1.room < table.room :=
  (table.room_handOnAll table.corners).2 h

/-- Passes over all pairs, until one of them makes no set larger. -/
def saturate (table : FirstTable) : FirstTable :=
  if table.Grows then table.propagate.1.saturate else table.propagate.1
termination_by table.room
decreasing_by exact room_propagate_lt ‹_›

/-- The first sets of a rule table. -/
def ofRules (rules : List Rule) : FirstTable := (direct rules).saturate

end FirstTable

end NounPhrase
