import NounPhrase.Text.Blank

/-!
# Regular expressions of rule notation

The reader of rule notation looks for four regular expressions. Each is known by the text it is
written as and by what it takes from the front of a text. A search goes through the text to the
first place where the expression matches, and this may be far behind the front.

An alternative is tried only where those before it fail, and a repetition takes as much as it can.
In the expressions here nothing follows an alternative or a repetition, so neither is ever taken
back.

## Main definitions

* `Regex`: a regular expression that matches no empty text.
* `Regex.Match`, `Regex.find`: a match in a text, and the leftmost one.
* `Regex.layout`, `Regex.name`, `Regex.arrow`, `Regex.doubleArrow`: the expressions of the reader.

## Main results

* `Regex.find_of_front_eq_none`: a search that fails at the front finds nothing there.
-/

namespace NounPhrase

/-- Whether a character can stand in a name. -/
def Text.isNameChar (c : Char) : Bool := c.isAlphanum || c == '_'

/-- A regular expression that matches no empty text. -/
structure Regex where
  /-- How the expression is written. -/
  text : String
  /-- The match at the front of a text, and the text behind it. -/
  front : List Char → Option (List Char × List Char)
  front_sound : ∀ {cs taken rest}, front cs = some (taken, rest) → taken ≠ [] ∧ taken ++ rest = cs

namespace Regex

variable {re : Regex} {cs taken rest : List Char}

/-- A match takes at least one character. -/
theorem length_lt_of_front (h : re.front cs = some (taken, rest)) : rest.length < cs.length := by
  obtain ⟨hne, rfl⟩ := re.front_sound h
  have := List.length_pos_iff.mpr hne
  rw [List.length_append]
  omega

/-! ### Searching -/

/-- A match in a text, with the text in front of it and the text behind it. -/
structure Match where
  before : List Char
  taken : List Char
  rest : List Char

/-- The leftmost match in a text. -/
def find (re : Regex) (cs : List Char) : Option Match :=
  match re.front cs with
  | some (taken, rest) => some ⟨[], taken, rest⟩
  | none =>
    match cs with
    | [] => none
    | c :: cs => (re.find cs).map fun m => { m with before := c :: m.before }

theorem find_of_front_eq_some (h : re.front cs = some (taken, rest)) :
    re.find cs = some ⟨[], taken, rest⟩ := by
  unfold find
  rw [h]

/-- A search that fails at the front finds nothing there. -/
theorem find_of_front_eq_none (h : re.front cs = none) : ∀ m ∈ re.find cs, m.before ≠ [] := by
  intro m hm
  unfold find at hm
  rw [h] at hm
  cases cs with
  | nil => cases hm
  | cons c cs =>
    obtain ⟨m', -, rfl⟩ := Option.map_eq_some_iff.mp hm
    exact List.cons_ne_nil _ _

/-! ### Expressions -/

/-- A run of characters of a class. -/
def run (text : String) (p : Char → Bool) : Regex where
  text := text
  front cs := if cs.takeWhile p = [] then none else some (cs.takeWhile p, cs.dropWhile p)
  front_sound := by
    intro cs taken rest h
    split at h
    · cases h
    · next hne =>
      obtain ⟨rfl, rfl⟩ := Prod.mk.inj (Option.some.inj h)
      exact ⟨hne, List.takeWhile_append_dropWhile⟩

theorem front_run_eq_some_iff {text : String} {p : Char → Bool} :
    (run text p).front cs = some (taken, rest) ↔
      cs.takeWhile p ≠ [] ∧ cs.takeWhile p = taken ∧ cs.dropWhile p = rest := by
  simp [run]

theorem front_run_eq_none_iff {text : String} {p : Char → Bool} :
    (run text p).front cs = none ↔ cs.takeWhile p = [] := by
  simp [run]

/-- The characters `s`, one after the other. -/
def literal (s : List Char) (hs : s ≠ []) : Regex where
  text := String.ofList s
  front cs := if s.isPrefixOf cs then some (s, cs.drop s.length) else none
  front_sound := by
    intro cs taken rest h
    split at h
    · next hpre =>
      obtain ⟨rfl, rfl⟩ := Prod.mk.inj (Option.some.inj h)
      exact ⟨hs, List.prefix_iff_eq_append.mp (List.isPrefixOf_iff_prefix.mp hpre)⟩
    · cases h

theorem front_literal_eq_some_iff {s : List Char} {hs : s ≠ []} :
    (literal s hs).front cs = some (taken, rest) ↔ s = taken ∧ s ++ rest = cs := by
  constructor
  · intro h
    obtain ⟨-, rfl, -⟩ : s <+: cs ∧ s = taken ∧ cs.drop s.length = rest := by
      simpa [literal] using h
    exact ⟨rfl, ((literal s hs).front_sound h).2⟩
  · rintro ⟨rfl, rfl⟩
    simp [literal]

theorem front_literal_eq_none_iff {s : List Char} {hs : s ≠ []} :
    (literal s hs).front cs = none ↔ ¬ s <+: cs := by
  simp [literal]

/-- A match of `re` and a run of characters of a class behind it, which may be empty. -/
def andRun (re : Regex) (text : String) (p : Char → Bool) : Regex where
  text := re.text ++ text
  front cs := (re.front cs).map fun (taken, rest) => (taken ++ rest.takeWhile p, rest.dropWhile p)
  front_sound := by
    intro cs taken rest h
    obtain ⟨⟨taken', rest'⟩, hfront, heq⟩ := Option.map_eq_some_iff.mp h
    obtain ⟨rfl, rfl⟩ := Prod.mk.inj heq
    obtain ⟨hne, rfl⟩ := re.front_sound hfront
    refine ⟨List.append_ne_nil_of_left_ne_nil hne _, ?_⟩
    rw [List.append_assoc, List.takeWhile_append_dropWhile]

/-- A match of the first expression, or else of the second. -/
def either (re re' : Regex) : Regex where
  text := re.text ++ "|" ++ re'.text
  front cs := (re.front cs).or (re'.front cs)
  front_sound := by
    intro cs taken rest h
    rcases Option.or_eq_some_iff.mp h with h | ⟨-, h⟩
    · exact re.front_sound h
    · exact re'.front_sound h

/-- What `re` takes from the front of a text, one match behind the other, and the text behind it. -/
def takeAll (re : Regex) (cs : List Char) : List Char × List Char :=
  match _h : re.front cs with
  | none => ([], cs)
  | some (taken, rest) => (re.takeAll rest).map (taken ++ ·) id
termination_by cs.length
decreasing_by all_goals exact length_lt_of_front _h

theorem takeAll_of_front_eq_none (h : re.front cs = none) : re.takeAll cs = ([], cs) := by
  rw [takeAll]
  split
  · rfl
  · next h' => cases h.symm.trans h'

theorem takeAll_of_front_eq_some (h : re.front cs = some (taken, rest)) :
    re.takeAll cs = (re.takeAll rest).map (taken ++ ·) id := by
  rw [takeAll]
  split
  · next h' => cases h.symm.trans h'
  · next h' =>
    obtain ⟨rfl, rfl⟩ := Prod.mk.inj (Option.some.inj (h.symm.trans h'))
    rfl

theorem takeAll_append (re : Regex) (cs : List Char) :
    (re.takeAll cs).1 ++ (re.takeAll cs).2 = cs := by
  fun_induction re.takeAll cs with
  | case1 cs h => rfl
  | case2 cs taken rest h ih =>
    rw [Prod.map_fst, Prod.map_snd, id, List.append_assoc, ih, (re.front_sound h).2]

/-- One match of `re` or more, one behind the other. -/
def plus (re : Regex) : Regex where
  text := "(?:" ++ re.text ++ ")+"
  front cs := (re.front cs).map fun (taken, rest) => (re.takeAll rest).map (taken ++ ·) id
  front_sound := by
    intro cs taken rest h
    obtain ⟨⟨taken', rest'⟩, hfront, heq⟩ := Option.map_eq_some_iff.mp h
    obtain ⟨rfl, rfl⟩ := Prod.mk.inj heq
    obtain ⟨hne, rfl⟩ := re.front_sound hfront
    refine ⟨List.append_ne_nil_of_left_ne_nil hne _, ?_⟩
    rw [id, List.append_assoc, takeAll_append]

/-- A run of blanks. -/
def blanks : Regex := run "\\s+" Text.isBlank

/-- A comment, which runs to the end of its line. -/
def comment : Regex := andRun (literal ['/', '/'] (by decide)) "[^\\n]*" (· != '\n')

/-- Blanks and comments. -/
def layout : Regex := plus (either blanks comment)

/-- A name: letters, digits and underscores. -/
def name : Regex := run "[a-zA-Z0-9_]+" Text.isNameChar

/-- The arrow between the two sides of a rule. -/
def arrow : Regex := literal ['-', '>'] (by decide)

/-- The arrow before the action. -/
def doubleArrow : Regex := literal ['=', '>'] (by decide)

end Regex

end NounPhrase
