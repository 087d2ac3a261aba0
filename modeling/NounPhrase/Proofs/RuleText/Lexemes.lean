import NounPhrase.RuleText.Regex

/-!
# Lexemes of rule notation

A text in rule notation is a sequence of names, arrows, double arrows and semicolons. Blanks and
comments may stand before, between and after them; a comment begins with two slashes and runs to
the end of its line. A character that fits nowhere is a lexeme of its own, so that it is known
where it stands.

## Main definitions

* `Lexeme`: the lexemes.
* `Text.skipLayout`: a text without the blanks and comments in front.
* `PlacedLexeme`: a lexeme together with the text from it on.
* `PlacedLexeme.ofText`: the lexemes of a text.
-/

namespace NounPhrase

/-- The text without the blanks and comments in front; `comment` says that it begins inside a
comment. -/
def Text.skipLayout (comment : Bool) : List Char → List Char
  | [] => []
  | c :: cs =>
    if comment then skipLayout (c != '\n') cs
    else if isBlank c then skipLayout false cs
    else if c == '/' && cs.head? == some '/' then skipLayout true cs
    else c :: cs

theorem Text.length_skipLayout_le (comment : Bool) (cs : List Char) :
    (skipLayout comment cs).length ≤ cs.length := by
  induction cs generalizing comment with
  | nil => exact Nat.le_refl _
  | cons c cs ih =>
    unfold skipLayout
    repeat' split
    all_goals first | exact Nat.le_succ_of_le (ih _) | exact Nat.le_refl _

/-- The smallest units of rule notation. -/
inductive Lexeme
  /-- A run of letters, digits and underscores. -/
  | name (s : String)
  /-- The arrow between the two sides of a rule. -/
  | arrow
  /-- The arrow before the action. -/
  | doubleArrow
  | semicolon
  /-- A character that is part of no other lexeme. -/
  | stray (c : Char)
  deriving DecidableEq, Repr

namespace Lexeme

/-- The lexeme that begins with the character `c`, and the text behind it. -/
def first (c : Char) (cs : List Char) : Lexeme × List Char :=
  if Text.isNameChar c then
    (name (String.ofList (c :: cs.takeWhile Text.isNameChar)), cs.dropWhile Text.isNameChar)
  else
    match c, cs with
    | '-', '>' :: cs => (arrow, cs)
    | '=', '>' :: cs => (doubleArrow, cs)
    | ';', cs => (semicolon, cs)
    | c, cs => (stray c, cs)

theorem length_first_le (c : Char) (cs : List Char) : (first c cs).2.length ≤ cs.length := by
  unfold first
  split
  · exact (List.dropWhile_sublist _).length_le
  · split <;> simp

end Lexeme

/-- A lexeme and where it stands. -/
structure PlacedLexeme where
  lexeme : Lexeme
  /-- The text from the lexeme on. -/
  here : List Char

/-- The lexemes of a text. -/
def PlacedLexeme.ofText (cs : List Char) : List PlacedLexeme :=
  match _h : Text.skipLayout false cs with
  | [] => []
  | c :: rest => ⟨(Lexeme.first c rest).1, c :: rest⟩ :: ofText (Lexeme.first c rest).2
termination_by cs.length
decreasing_by
  have h₁ := Text.length_skipLayout_le false cs
  have h₂ := Lexeme.length_first_le c rest
  rw [_h, List.length_cons] at h₁
  omega

end NounPhrase
