import Mathlib.Data.List.Chain
import NounPhrase.Text.Line

/-!
# Cutting into lines and joining again

A line feed always ends a line, so behind it a text is cut as if it began there. A text cannot be
told from its lines if its last line is empty, or if some line ends in a carriage return, for both
go lost with the line end. Any other text is its lines with line feeds between them, and if blanks
follow each of the line feeds, all lines but the first are indented.

## Main definitions

* `Text.IsLossless`: cutting the text into lines loses nothing.
* `Text.indent`: a text with all lines but the first further in.

## Main results

* `Text.lines_append_newline`: a text is cut on both sides of a line feed apart.
* `Text.IsLossless.intercalate_lines`, `Text.IsLossless.flatMap_lines`: the lines of a text that
  loses nothing, joined again.
-/

namespace NounPhrase.Text

variable {c : Char} {cs ds : List Char} {n : Nat}

/-! ### Cutting -/

@[simp] theorem lines_newline_cons (cs : List Char) : lines ('\n' :: cs) = [] :: lines cs := by
  rw [lines]

/-- A carriage return before a line feed is no part of a line. -/
theorem lines_return_cons (h : cs.head? = some '\n') : lines ('\r' :: cs) = lines cs := by
  obtain ⟨ds, rfl⟩ := List.head?_eq_some_iff.mp h
  rw [lines_newline_cons, lines]

/-- A character that is no part of a line end begins the first line. -/
theorem lines_cons (hc : c ≠ '\n') (hcs : c = '\r' → cs.head? ≠ some '\n') :
    lines (c :: cs) = (c :: (lines cs).headD []) :: (lines cs).tail := by
  rw [lines]
  · cases lines cs <;> rfl
  · exact hc
  · rintro ds rfl rfl
    exact hcs rfl rfl

@[simp] theorem lines_eq_nil_iff : lines cs = [] ↔ cs = [] := by
  induction cs with
  | nil => simp [lines]
  | cons c cs ih =>
    refine iff_of_false (fun h => ?_) (List.cons_ne_nil c cs)
    by_cases hc : c = '\n'
    · simp [hc] at h
    by_cases hcs : c = '\r' ∧ cs.head? = some '\n'
    · rw [hcs.1, lines_return_cons hcs.2, ih] at h
      simp [h] at hcs
    · rw [lines_cons hc (not_and.mp hcs)] at h
      simp at h

/-- Behind a line feed a text is cut as if it began there. -/
theorem lines_append_newline (cs ds : List Char) :
    lines (cs ++ '\n' :: ds) = lines (cs ++ ['\n']) ++ lines ds := by
  induction cs with
  | nil => rw [List.nil_append, lines_newline_cons]; rfl
  | cons c cs ih =>
    rw [List.cons_append, List.cons_append]
    have hhead : (cs ++ '\n' :: ds).head? = (cs ++ ['\n']).head? := by cases cs <;> rfl
    by_cases hc : c = '\n'
    · rw [hc, lines_newline_cons, lines_newline_cons, ih, List.cons_append]
    by_cases hcs : c = '\r' ∧ (cs ++ ['\n']).head? = some '\n'
    · rw [hcs.1, lines_return_cons hcs.2, lines_return_cons (hhead.trans hcs.2), ih]
    · rw [lines_cons hc (not_and.mp hcs), lines_cons hc (hhead ▸ not_and.mp hcs), ih]
      obtain ⟨first, rest, hfirst⟩ := List.exists_cons_of_ne_nil
        (mt lines_eq_nil_iff.mp (List.append_ne_nil_of_right_ne_nil cs (List.cons_ne_nil '\n' [])))
      rw [hfirst]
      rfl

/-! ### Texts that lose nothing -/

/-- Cutting the text into lines loses nothing: no carriage return stands before a line feed, and
the last character is no part of a line end. -/
structure IsLossless (cs : List Char) : Prop where
  isChain : cs.IsChain fun a b => a = '\r' → b ≠ '\n'
  getLast? : ∃ c, cs.getLast? = some c ∧ c ≠ '\r' ∧ c ≠ '\n'

namespace IsLossless

theorem ne_nil (h : IsLossless cs) : cs ≠ [] := by
  rintro rfl
  obtain ⟨c, hc, -⟩ := h.getLast?
  simp at hc

theorem singleton (hr : c ≠ '\r') (hn : c ≠ '\n') : IsLossless [c] :=
  ⟨.singleton c, c, rfl, hr, hn⟩

theorem append (h : IsLossless cs) (h' : IsLossless ds) : IsLossless (cs ++ ds) where
  isChain := by
    obtain ⟨c, hc, hr, -⟩ := h.getLast?
    refine List.isChain_append.mpr ⟨h.isChain, h'.isChain, fun x hx _ _ hret => ?_⟩
    rw [hc, Option.mem_some_iff] at hx
    exact absurd (hx.trans hret) hr
  getLast? := by
    obtain ⟨c, hc, hends⟩ := h'.getLast?
    exact ⟨c, by rw [List.getLast?_append, hc, Option.some_or], hends⟩

theorem cons (hc : c ≠ '\r') (h : IsLossless cs) : IsLossless (c :: cs) where
  isChain := List.isChain_cons.mpr ⟨fun _ _ hret => absurd hret hc, h.isChain⟩
  getLast? := by
    obtain ⟨d, hd, hends⟩ := h.getLast?
    exact ⟨d, by rw [List.getLast?_cons, hd]; rfl, hends⟩

theorem blanks_append (n : Nat) (h : IsLossless cs) :
    IsLossless (List.replicate n ' ' ++ cs) := by
  induction n with
  | zero => exact h
  | succ n ih => exact .cons (by decide) ih

theorem tail (h : IsLossless (c :: cs)) (hcs : cs ≠ []) : IsLossless cs where
  isChain := (List.isChain_cons.mp h.isChain).2
  getLast? := by
    obtain ⟨d, hd, hends⟩ := h.getLast?
    exact ⟨d, by rw [← List.getLast?_cons_of_ne_nil hcs, hd], hends⟩

end IsLossless

/-! ### Joining -/

/-- The text with `n` blanks behind each line feed. -/
def indent (n : Nat) (cs : List Char) : List Char :=
  cs.flatMap fun c => if c = '\n' then '\n' :: List.replicate n ' ' else [c]

@[simp] theorem indent_nil (n : Nat) : indent n [] = [] := rfl

@[simp] theorem indent_newline_cons (n : Nat) (cs : List Char) :
    indent n ('\n' :: cs) = '\n' :: List.replicate n ' ' ++ indent n cs := rfl

theorem indent_cons (hc : c ≠ '\n') (cs : List Char) : indent n (c :: cs) = c :: indent n cs := by
  rw [indent, List.flatMap_cons, if_neg hc]
  rfl

@[simp] theorem indent_append (n : Nat) (cs ds : List Char) :
    indent n (cs ++ ds) = indent n cs ++ indent n ds := List.flatMap_append

theorem indent_flatMap {α : Type} (n : Nat) (f : α → List Char) (xs : List α) :
    indent n (xs.flatMap f) = xs.flatMap fun x => indent n (f x) := List.flatMap_assoc

/-- A text of one line stays as it is. -/
theorem indent_eq_self (h : '\n' ∉ cs) : indent n cs = cs := by
  induction cs with
  | nil => rfl
  | cons c cs ih =>
    rw [List.mem_cons, not_or] at h
    rw [indent_cons (Ne.symm h.1), ih h.2]

/-- The lines of a text that loses nothing are the lines of the indented text without its blanks. -/
theorem IsLossless.intercalate_lines (h : IsLossless cs) (n : Nat) :
    List.intercalate ('\n' :: List.replicate n ' ') (lines cs) = indent n cs := by
  induction cs with
  | nil => exact absurd rfl h.ne_nil
  | cons c cs ih =>
    by_cases hcs : cs = []
    · subst hcs
      obtain ⟨d, hd, hr, hn⟩ := h.getLast?
      obtain rfl : c = d := by simpa using hd
      rw [lines_cons hn (fun hret => absurd hret hr), indent_cons hn]
      simp [lines]
    have hlines : lines cs ≠ [] := mt lines_eq_nil_iff.mp hcs
    have ih := ih (h.tail hcs)
    by_cases hc : c = '\n'
    · rw [hc, lines_newline_cons, List.intercalate_cons_of_ne_nil hlines, ih, indent_newline_cons,
        List.nil_append]
    · have hhead := (List.isChain_cons.mp h.isChain).1
      rw [lines_cons hc (fun hret hn => hhead '\n' hn hret rfl), indent_cons hc, ← ih]
      obtain ⟨first, rest, hfirst⟩ := List.exists_cons_of_ne_nil hlines
      rw [hfirst]
      cases rest <;> simp

/-- Texts that are each put behind a separator are joined by it behind one more. -/
theorem flatMap_append_eq_intercalate (sep : List Char) {ls : List (List Char)} (h : ls ≠ []) :
    ls.flatMap (sep ++ ·) = sep ++ sep.intercalate ls := by
  induction ls with
  | nil => exact absurd rfl h
  | cons l ls ih =>
    cases ls with
    | nil => simp
    | cons l' ls =>
      rw [List.flatMap_cons, ih (List.cons_ne_nil l' ls), List.intercalate_cons_cons]
      simp only [List.append_assoc]

/-- If each line is put behind a line feed and blanks, so is the whole text. -/
theorem IsLossless.flatMap_lines (h : IsLossless cs) (n : Nat) :
    (lines cs).flatMap ('\n' :: List.replicate n ' ' ++ ·) =
      '\n' :: List.replicate n ' ' ++ indent n cs := by
  rw [flatMap_append_eq_intercalate _ (mt lines_eq_nil_iff.mp h.ne_nil), h.intercalate_lines]

end NounPhrase.Text
