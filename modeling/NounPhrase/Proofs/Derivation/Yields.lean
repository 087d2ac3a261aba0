import NounPhrase.Symbol

/-!
# Derivations of terminal strings

A set of rules is given as a relation between a nonterminal and a right-hand side. A string of
symbols yields a string of terminals if every terminal in it stands for itself and every
nonterminal is replaced by a right-hand side that yields its share of the string. A derivation
is thus a sequence of trees of rule applications, read from left to right.

The relation is stated for any set of rules, since recovery makes several of them: the rules of a
grammar at one width of the sentence rule, and those with sentence rules of several widths.

## Main definitions

* `Yields`: a string of symbols yields a string of terminals.
* `IsStep`: a nonterminal has a rule in which another one stands between symbols that can vanish.

## Main results

* `yields_append_iff`: the yield of a concatenation is a concatenation of yields.
* `Yields.mono`: more rules yield more.
* `Yields.vanishing_induction`: induction over a derivation of nothing.
-/

namespace NounPhrase

variable {R S : Nonterminal → List Symbol → Prop}

/-- The string of symbols yields the string of terminals, by the rules `R`. -/
inductive Yields (R : Nonterminal → List Symbol → Prop) : List Symbol → List Terminal → Prop
  | nil : Yields R [] []
  | terminal {t : Terminal} {α : List Symbol} {v : List Terminal} (h : Yields R α v) :
      Yields R (.terminal t :: α) (t :: v)
  | nonterminal {n : Nonterminal} {α β : List Symbol} {u v : List Terminal} (hr : R n β)
      (hβ : Yields R β u) (hα : Yields R α v) : Yields R (.nonterminal n :: α) (u ++ v)

namespace Yields

theorem append {α β : List Symbol} {u v : List Terminal} (hα : Yields R α u)
    (hβ : Yields R β v) : Yields R (α ++ β) (u ++ v) := by
  induction hα with
  | nil => exact hβ
  | terminal _ ih => exact .terminal ih
  | nonterminal hr hγ _ _ ih =>
    rw [List.append_assoc]
    exact .nonterminal hr hγ ih

/-- A rule applied by itself. -/
theorem single {n : Nonterminal} {β : List Symbol} {u : List Terminal} (hr : R n β)
    (hβ : Yields R β u) : Yields R [.nonterminal n] u := by
  simpa using nonterminal hr hβ nil

theorem mono (h : ∀ n β, R n β → S n β) {α : List Symbol} {v : List Terminal}
    (hα : Yields R α v) : Yields S α v := by
  induction hα with
  | nil => exact nil
  | terminal _ ih => exact terminal ih
  | nonterminal hr _ _ ihβ ihα => exact nonterminal (h _ _ hr) ihβ ihα

/-- Induction over a derivation of nothing, in which there are no terminals. -/
@[elab_as_elim]
theorem vanishing_induction {motive : (α : List Symbol) → Yields R α [] → Prop}
    (nil : motive [] .nil)
    (nonterminal : ∀ {n : Nonterminal} {α β : List Symbol} (hr : R n β) (hβ : Yields R β [])
      (hα : Yields R α []), motive β hβ → motive α hα →
        motive (.nonterminal n :: α) (.nonterminal hr hβ hα))
    {α : List Symbol} (h : Yields R α []) : motive α h := by
  suffices ∀ v, Yields R α v → (hv : v = []) → motive α (hv ▸ h) from this [] h rfl
  intro v h' hv
  induction h' with
  | nil => exact nil
  | terminal => cases hv
  | nonterminal hr hβ hα ihβ ihα =>
    obtain ⟨rfl, rfl⟩ := List.append_eq_nil_iff.mp hv
    exact nonterminal hr hβ hα (ihβ hβ rfl) (ihα hα rfl)

end Yields

@[simp] theorem yields_nil_iff {v : List Terminal} : Yields R [] v ↔ v = [] :=
  ⟨fun h => by cases h; rfl, fun h => h ▸ .nil⟩

theorem yields_terminal_cons_iff {t : Terminal} {α : List Symbol} {v : List Terminal} :
    Yields R (.terminal t :: α) v ↔ ∃ u, v = t :: u ∧ Yields R α u := by
  constructor
  · intro h
    cases h with
    | terminal h => exact ⟨_, rfl, h⟩
  · rintro ⟨u, rfl, h⟩
    exact .terminal h

theorem yields_nonterminal_cons_iff {n : Nonterminal} {α : List Symbol} {v : List Terminal} :
    Yields R (.nonterminal n :: α) v ↔
      ∃ β u w, v = u ++ w ∧ R n β ∧ Yields R β u ∧ Yields R α w := by
  constructor
  · intro h
    cases h with
    | nonterminal hr hβ hα => exact ⟨_, _, _, rfl, hr, hβ, hα⟩
  · rintro ⟨β, u, w, rfl, hr, hβ, hα⟩
    exact .nonterminal hr hβ hα

theorem yields_nonterminal_iff {n : Nonterminal} {v : List Terminal} :
    Yields R [.nonterminal n] v ↔ ∃ β, R n β ∧ Yields R β v := by
  rw [yields_nonterminal_cons_iff]
  constructor
  · rintro ⟨β, u, w, rfl, hr, hβ, hw⟩
    obtain rfl := yields_nil_iff.1 hw
    exact ⟨β, hr, by simpa using hβ⟩
  · rintro ⟨β, hr, hβ⟩
    exact ⟨β, v, [], (List.append_nil v).symm, hr, hβ, .nil⟩

/-- The yield of a concatenation is a concatenation of yields. -/
theorem yields_append_iff {α β : List Symbol} {v : List Terminal} :
    Yields R (α ++ β) v ↔ ∃ u w, v = u ++ w ∧ Yields R α u ∧ Yields R β w := by
  refine ⟨fun h => ?_, fun ⟨u, w, hv, hα, hβ⟩ => hv ▸ hα.append hβ⟩
  induction α generalizing v with
  | nil => exact ⟨[], v, rfl, .nil, h⟩
  | cons s α ih =>
    cases s with
    | terminal t =>
      obtain ⟨v', rfl, h'⟩ := yields_terminal_cons_iff.1 h
      obtain ⟨u, w, rfl, hα, hβ⟩ := ih h'
      exact ⟨t :: u, w, rfl, .terminal hα, hβ⟩
    | nonterminal n =>
      obtain ⟨γ, x, v', rfl, hr, hγ, h'⟩ := yields_nonterminal_cons_iff.1 h
      obtain ⟨u, w, rfl, hα, hβ⟩ := ih h'
      exact ⟨x ++ u, w, (List.append_assoc x u w).symm, .nonterminal hr hγ hα, hβ⟩

/-- A concatenation vanishes if both of its parts do. -/
theorem yields_append_nil_iff {α β : List Symbol} :
    Yields R (α ++ β) [] ↔ Yields R α [] ∧ Yields R β [] := by
  rw [yields_append_iff]
  constructor
  · rintro ⟨u, w, h, hα, hβ⟩
    obtain ⟨rfl, rfl⟩ := List.append_eq_nil_iff.1 h.symm
    exact ⟨hα, hβ⟩
  · rintro ⟨hα, hβ⟩
    exact ⟨[], [], rfl, hα, hβ⟩

/-- A terminal at the end stands for itself. -/
theorem yields_append_terminal_iff {α : List Symbol} {v : List Terminal} {t : Terminal} :
    Yields R (α ++ [.terminal t]) (v ++ [t]) ↔ Yields R α v := by
  refine ⟨fun h => ?_, fun h => h.append (.terminal .nil)⟩
  obtain ⟨u, x, hv, hα, hx⟩ := yields_append_iff.1 h
  obtain ⟨y, rfl, hy⟩ := yields_terminal_cons_iff.1 hx
  obtain rfl := yields_nil_iff.1 hy
  rwa [List.append_cancel_right hv]

/-- The nonterminal `n` has a rule in which `m` stands between symbols that can vanish, so that
`n` derives `m` alone by this rule. -/
def IsStep (R : Nonterminal → List Symbol → Prop) (n m : Nonterminal) : Prop :=
  ∃ α β, R n (α ++ .nonterminal m :: β) ∧ Yields R α [] ∧ Yields R β []

end NounPhrase
