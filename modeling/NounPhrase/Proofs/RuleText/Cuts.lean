import Mathlib.Data.List.TakeWhile
import NounPhrase.Proofs.RuleText.Lexemes

/-!
# Cutting a text into lexemes

A text is cut into lexemes from left to right. A name is as long as it can be, blanks are skipped
one by one, and a comment is skipped to the end of its line. A text with a character that belongs
to no lexeme is not cut at all.

The lexemes of a text are found by skipping all layout at once and reading the lexeme behind it.
They are those that the text is cut into, if none of them is a stray character.

## Main definitions

* `Text.IsCutInto`: a text is cut into lexemes.

## Main results

* `Text.isCutInto_iff`: a text is cut into the lexemes that are found in it, if none is stray.
* `Text.IsCutInto.unique`: a text is cut in one way only.
-/

namespace NounPhrase

namespace Text

/-- The text is cut into the lexemes. Between them stand blanks and comments, and a comment ends
where its line or the text does. -/
inductive IsCutInto : List Char → List Lexeme → Prop
  | nil : IsCutInto [] []
  | blank {c : Char} {cs : List Char} {ls : List Lexeme} (hc : isBlank c) (h : IsCutInto cs ls) :
      IsCutInto (c :: cs) ls
  | comment {body cs : List Char} {ls : List Lexeme} (hbody : '\n' ∉ body)
      (hend : ∀ c ∈ cs.head?, c = '\n') (h : IsCutInto cs ls) :
      IsCutInto ('/' :: '/' :: body ++ cs) ls
  | name {s cs : List Char} {ls : List Lexeme} (hne : s ≠ []) (hs : ∀ c ∈ s, Text.isNameChar c)
      (hend : ∀ c ∈ cs.head?, ¬ Text.isNameChar c) (h : IsCutInto cs ls) :
      IsCutInto (s ++ cs) (.name (String.ofList s) :: ls)
  | arrow {cs : List Char} {ls : List Lexeme} (h : IsCutInto cs ls) :
      IsCutInto ('-' :: '>' :: cs) (.arrow :: ls)
  | doubleArrow {cs : List Char} {ls : List Lexeme} (h : IsCutInto cs ls) :
      IsCutInto ('=' :: '>' :: cs) (.doubleArrow :: ls)
  | semicolon {cs : List Char} {ls : List Lexeme} (h : IsCutInto cs ls) :
      IsCutInto (';' :: cs) (.semicolon :: ls)

variable {c : Char} {cs cs' rest : List Char} {ls ls' : List Lexeme}

/-! ### Skipping layout -/

theorem skipLayout_blank (hc : isBlank c) : skipLayout false (c :: cs) = skipLayout false cs := by
  simp [skipLayout, hc]

/-- What can begin a lexeme is not skipped. -/
theorem skipLayout_eq_self (hc : isBlank c = false) (hslash : c ≠ '/') :
    skipLayout false (c :: cs) = c :: cs := by
  simp [skipLayout, hc, hslash]

/-- A comment is skipped up to the end of its line. -/
theorem skipLayout_comment {body : List Char} (hbody : '\n' ∉ body)
    (hend : ∀ c ∈ cs.head?, c = '\n') : skipLayout true (body ++ cs) = skipLayout false cs := by
  induction body with
  | nil =>
    cases cs with
    | nil => rfl
    | cons c cs =>
      obtain rfl : c = '\n' := hend c rfl
      rfl
  | cons c body ih =>
    obtain ⟨hc, hbody⟩ := not_or.mp (mt List.mem_cons.mpr hbody)
    rw [List.cons_append, skipLayout, if_pos rfl, bne_iff_ne.mpr (Ne.symm hc)]
    exact ih hbody

/-- What is cut behind the layout is cut with it; a text that begins inside a comment is cut behind
the comment. -/
theorem isCutInto_of_skipLayout (comment : Bool) (h : IsCutInto (skipLayout comment cs) ls) :
    if comment then ∃ body rest, cs = body ++ rest ∧ '\n' ∉ body ∧ (∀ c ∈ rest.head?, c = '\n') ∧
      IsCutInto rest ls
    else IsCutInto cs ls := by
  induction cs generalizing comment with
  | nil =>
    cases comment
    · exact h
    · exact ⟨[], [], rfl, List.not_mem_nil, by simp, h⟩
  | cons c cs ih =>
    rw [skipLayout] at h
    cases comment with
    | true =>
      rw [if_pos rfl] at h
      rw [if_pos rfl]
      by_cases hc : c = '\n'
      · subst hc
        have hrest : IsCutInto cs ls := ih false h
        exact ⟨[], '\n' :: cs, rfl, List.not_mem_nil, by simp, .blank rfl hrest⟩
      · rw [bne_iff_ne.mpr hc] at h
        obtain ⟨body, rest, rfl, hbody, hend, hrest⟩ := ih true h
        have hbody' : '\n' ∉ c :: body := mt List.mem_cons.mp (not_or.mpr ⟨Ne.symm hc, hbody⟩)
        exact ⟨c :: body, rest, rfl, hbody', hend, hrest⟩
    | false =>
      rw [if_neg Bool.false_ne_true] at h ⊢
      split at h
      · next hc => exact .blank hc (ih false h)
      split at h
      · next hslash =>
        obtain ⟨rfl, hhead⟩ : c = '/' ∧ cs.head? = some '/' := by simpa using hslash
        obtain ⟨body, rest, rfl, hbody, hend, hrest⟩ := ih true h
        -- the second slash is the first character of what is skipped
        cases body with
        | nil => exact absurd (hend '/' hhead) (by decide)
        | cons c body =>
          obtain rfl : c = '/' := Option.some.inj hhead
          exact .comment (mt (List.mem_cons_of_mem _) hbody) hend hrest
      · exact h

end Text

/-! ### The lexemes of a text -/

/-- The characters of a name lie between the digit zero and the small letter z. -/
theorem Text.toNat_of_isNameChar {c : Char} (h : isNameChar c) :
    48 ≤ c.toNat ∧ c.toNat ≤ 122 := by
  rcases Bool.or_eq_true_iff.mp h with h | h
  · have hruns : (65 ≤ c.toNat ∧ c.toNat ≤ 90 ∨ 97 ≤ c.toNat ∧ c.toNat ≤ 122) ∨
        48 ≤ c.toNat ∧ c.toNat ≤ 57 := by
      refine (Bool.or_eq_true_iff.mp h).imp (fun h => (Bool.or_eq_true_iff.mp h).imp ?_ ?_) ?_
      · exact of_decide_eq_true
      · exact fun h => (Bool.and_eq_true_iff.mp h).imp of_decide_eq_true of_decide_eq_true
      · exact fun h => (Bool.and_eq_true_iff.mp h).imp of_decide_eq_true of_decide_eq_true
    omega
  · obtain rfl : c = '_' := by simpa using h
    decide

/-- A character of a name is neither blank nor a slash. -/
theorem Text.not_isBlank_of_isNameChar {c : Char} (h : isNameChar c) :
    isBlank c = false ∧ c ≠ '/' := by
  have hc := toNat_of_isNameChar h
  refine ⟨?_, ?_⟩
  · simp only [isBlank, Bool.or_eq_false_iff, Bool.and_eq_false_iff, decide_eq_false_iff_not,
      UInt32.le_iff_toNat_le, beq_eq_false_iff_ne, ← UInt32.toNat_inj.ne, Char.toNat_val,
      UInt32.reduceToNat]
    omega
  · rintro rfl
    exact absurd hc (by decide)

/-- A name is as long as it can be. -/
theorem Lexeme.first_name {c : Char} {s cs : List Char} (hs : ∀ x ∈ c :: s, Text.isNameChar x)
    (hend : ∀ x ∈ cs.head?, ¬ Text.isNameChar x) :
    first c (s ++ cs) = (name (String.ofList (c :: s)), cs) := by
  rw [List.forall_mem_cons] at hs
  have htake : cs.takeWhile Text.isNameChar = [] := by
    cases cs with
    | nil => rfl
    | cons x cs => exact List.takeWhile_cons_of_neg (hend x rfl)
  have hdrop : cs.dropWhile Text.isNameChar = cs := by
    cases cs with
    | nil => rfl
    | cons x cs => exact List.dropWhile_cons_of_neg (hend x rfl)
  unfold first
  rw [if_pos hs.1, List.takeWhile_append_of_pos hs.2, List.dropWhile_append_of_pos hs.2, htake,
    hdrop, List.append_nil]

namespace PlacedLexeme

variable {c : Char} {cs cs' rest : List Char}

theorem ofText_of_skipLayout_eq_nil (h : Text.skipLayout false cs = []) : ofText cs = [] := by
  rw [ofText]
  split
  · rfl
  · next h' => simp [h] at h'

theorem ofText_of_skipLayout_eq_cons (h : Text.skipLayout false cs = c :: rest) :
    ofText cs = ⟨(Lexeme.first c rest).1, c :: rest⟩ :: ofText (Lexeme.first c rest).2 := by
  rw [ofText]
  split
  · next h' => simp [h] at h'
  · next h' =>
    obtain ⟨rfl, rfl⟩ := List.cons.inj (h.symm.trans h')
    rfl

/-- The lexemes do not depend on the layout in front. -/
theorem ofText_congr (h : Text.skipLayout false cs = Text.skipLayout false cs') :
    ofText cs = ofText cs' := by
  cases hskip : Text.skipLayout false cs' with
  | nil => rw [ofText_of_skipLayout_eq_nil (h.trans hskip), ofText_of_skipLayout_eq_nil hskip]
  | cons c rest =>
    rw [ofText_of_skipLayout_eq_cons (h.trans hskip), ofText_of_skipLayout_eq_cons hskip]

/-- The lexemes of a text that begins with one. -/
theorem ofText_cons (hblank : Text.isBlank c = false) (hslash : c ≠ '/') :
    ofText (c :: cs) = ⟨(Lexeme.first c cs).1, c :: cs⟩ :: ofText (Lexeme.first c cs).2 :=
  ofText_of_skipLayout_eq_cons (Text.skipLayout_eq_self hblank hslash)

end PlacedLexeme

namespace Text

variable {c : Char} {cs rest : List Char} {ls ls' : List Lexeme}

/-- The first lexeme of a text is cut off, unless it is a stray character. -/
theorem isCutInto_first (h : IsCutInto (Lexeme.first c rest).2 ls)
    (hstray : ∀ x, (Lexeme.first c rest).1 ≠ .stray x) :
    IsCutInto (c :: rest) ((Lexeme.first c rest).1 :: ls) := by
  revert h hstray
  fun_cases Lexeme.first c rest with
  | case1 =>
    rename_i hc
    intro h _
    have hs : ∀ x ∈ c :: rest.takeWhile Text.isNameChar, Text.isNameChar x :=
      List.forall_mem_cons.mpr ⟨hc, fun x => List.mem_takeWhile_imp⟩
    have hend : ∀ x ∈ (rest.dropWhile Text.isNameChar).head?, ¬ Text.isNameChar x := by
      intro x hx
      have := List.head?_dropWhile_not Text.isNameChar rest
      rw [Option.mem_def.mp hx] at this
      simpa using this
    have := h.name (List.cons_ne_nil _ _) hs hend
    rwa [List.cons_append, List.takeWhile_append_dropWhile] at this
  | case2 => exact fun h _ => h.arrow
  | case3 => exact fun h _ => h.doubleArrow
  | case4 => exact fun h _ => h.semicolon
  | case5 => exact fun _ hstray => absurd rfl (hstray c)

/-- A text is cut into the lexemes that are found in it, if none of them is stray. -/
theorem isCutInto_ofText (hstray : ∀ l ∈ PlacedLexeme.ofText cs, ∀ c, l.lexeme ≠ .stray c) :
    IsCutInto cs ((PlacedLexeme.ofText cs).map PlacedLexeme.lexeme) := by
  induction cs using PlacedLexeme.ofText.induct with
  | case1 cs h =>
    rw [PlacedLexeme.ofText_of_skipLayout_eq_nil h]
    exact isCutInto_of_skipLayout false (h ▸ .nil)
  | case2 cs c rest h ih =>
    rw [PlacedLexeme.ofText_of_skipLayout_eq_cons h] at hstray ⊢
    rw [List.forall_mem_cons] at hstray
    rw [List.map_cons]
    exact isCutInto_of_skipLayout false (h ▸ isCutInto_first (ih hstray.2) hstray.1)

/-- The lexemes that a text is cut into are found in it, and none of them is stray. -/
theorem IsCutInto.map_ofText (h : IsCutInto cs ls) :
    (PlacedLexeme.ofText cs).map PlacedLexeme.lexeme = ls ∧ ∀ c, .stray c ∉ ls := by
  induction h with
  | nil => exact ⟨by rw [PlacedLexeme.ofText_of_skipLayout_eq_nil rfl]; rfl, by simp⟩
  | blank hc _ ih => rwa [PlacedLexeme.ofText_congr (skipLayout_blank hc)]
  | @comment body cs ls hbody hend _ ih =>
    have hbody' : '\n' ∉ '/' :: body := by simpa using hbody
    have hskip : skipLayout false ('/' :: '/' :: body ++ cs) = skipLayout false cs := by
      rw [← skipLayout_comment hbody' hend]
      rfl
    rwa [PlacedLexeme.ofText_congr hskip]
  | @name s cs ls hne hs hend _ ih =>
    obtain ⟨c, s, rfl⟩ := List.exists_cons_of_ne_nil hne
    have hc : Text.isNameChar c := hs c List.mem_cons_self
    obtain ⟨hblank, hslash⟩ := Text.not_isBlank_of_isNameChar hc
    rw [List.cons_append, PlacedLexeme.ofText_cons hblank hslash, Lexeme.first_name hs hend]
    exact ⟨congrArg _ ih.1, by simpa using ih.2⟩
  | arrow _ ih =>
    rw [PlacedLexeme.ofText_cons (by decide) (by decide)]
    exact ⟨congrArg _ ih.1, by simpa using ih.2⟩
  | doubleArrow _ ih =>
    rw [PlacedLexeme.ofText_cons (by decide) (by decide)]
    exact ⟨congrArg _ ih.1, by simpa using ih.2⟩
  | semicolon _ ih =>
    rw [PlacedLexeme.ofText_cons (by decide) (by decide)]
    exact ⟨congrArg _ ih.1, by simpa using ih.2⟩

/-- A text is cut into the lexemes that are found in it, provided that none of them is stray. -/
theorem isCutInto_iff :
    IsCutInto cs ls ↔
      (PlacedLexeme.ofText cs).map PlacedLexeme.lexeme = ls ∧ ∀ c, .stray c ∉ ls := by
  refine ⟨IsCutInto.map_ofText, ?_⟩
  rintro ⟨rfl, hstray⟩
  exact isCutInto_ofText fun l hl c hc => hstray c (hc ▸ List.mem_map_of_mem hl)

/-- A text is cut in one way only. -/
theorem IsCutInto.unique (h : IsCutInto cs ls) (h' : IsCutInto cs ls') : ls = ls' :=
  h.map_ofText.1.symm.trans h'.map_ofText.1

end Text

end NounPhrase
