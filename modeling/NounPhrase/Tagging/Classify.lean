import NounPhrase.Tagging.Table
import NounPhrase.Token

/-!
# Classifying items

An item is a word and a tag with a slash between them. The tag begins after the last slash, so a
word may hold slashes; an item without a slash is a tag alone. Items of a line are separated by
single blanks.

## Main definitions

* `splitTag`: the word and the tag of an item.
* `terminalOf`: the terminal of an item, by a rule for words if one applies and else by its tag.
* `classify`: the token of an item.
* `tokenize`: the tokens of a line.

## Main results

* `splitTag_eq_some`, `splitTag_eq_none`: the parts make up the item, and no tag holds a slash.
-/

namespace NounPhrase

/-- The text before the last slash, if there is a slash, and the text after it. -/
def splitTag : List Char → Option (List Char) × List Char
  | [] => (none, [])
  | c :: cs =>
    match splitTag cs with
    | (some word, tag) => (some (c :: word), tag)
    | (none, tag) => if c = '/' then (some [], tag) else (none, c :: tag)

theorem splitTag_eq_none {item tag : List Char} (h : splitTag item = (none, tag)) :
    tag = item ∧ '/' ∉ item := by
  induction item generalizing tag with
  | nil => simpa [splitTag, eq_comm] using h
  | cons c cs ih =>
    rw [splitTag] at h
    split at h
    · simp at h
    next he =>
    split at h
    · simp at h
    next hc =>
    obtain ⟨rfl, hn⟩ := ih he
    simp only [Prod.mk.injEq, true_and] at h
    exact ⟨h.symm, by simp [hn, Ne.symm hc]⟩

theorem splitTag_eq_some {item word tag : List Char} (h : splitTag item = (some word, tag)) :
    item = word ++ '/' :: tag ∧ '/' ∉ tag := by
  induction item generalizing word with
  | nil => simp [splitTag] at h
  | cons c cs ih =>
    rw [splitTag] at h
    split at h
    next w t he =>
      simp only [Prod.mk.injEq, Option.some.injEq] at h
      obtain ⟨rfl, rfl⟩ := h
      obtain ⟨rfl, hn⟩ := ih he
      exact ⟨rfl, hn⟩
    next t he =>
      split at h
      next hc =>
        simp only [Prod.mk.injEq, Option.some.injEq] at h
        obtain ⟨rfl, rfl⟩ := h
        obtain ⟨rfl, hn⟩ := splitTag_eq_none he
        exact ⟨by rw [hc]; rfl, hn⟩
      next => simp at h

/-- The terminal of an item with the given tag. Rules for words see the whole item and come
first. -/
def terminalOf (item tag : List Char) : Option Terminal :=
  match wordRules.find? (·.fits item) with
  | some rule => some rule.terminal
  | none => (tagRules.find? (·.tag.fits tag)).map TagRule.terminal

/-- The token of an item, if a rule applies to it. -/
def classify (item : String) : Option Token :=
  let (word, tag) := splitTag item.toList
  (terminalOf item.toList tag).map fun terminal =>
    ⟨terminal, word.map String.ofList, some (String.ofList tag)⟩

/-- The tokens of a line. Items to which no rule applies are dropped, and so are the empty items
between two blanks. -/
def tokenize (line : String) : List Token :=
  (line.toList.splitOn ' ').filterMap fun item => classify (String.ofList item)

end NounPhrase
