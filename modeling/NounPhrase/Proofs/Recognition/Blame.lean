import NounPhrase.Proofs.Recognition.Ledger

/-!
# Why a token is dropped

An attempt gives up, and the last token is dropped, when two failures in a row blame the same word.
What is compared are the words and not their places, so that two different tokens count if they
have the same word, or if neither has one. Where all words are different, it is the same token.

## Main definitions

* `blamed`: the tokens that events blame.
* `SameWordTwice`: the last two of the tokens that are blamed have the same word.

## Main results

* `AttemptLog.restarts_eq_one_iff`: an attempt gives up if the same word is blamed twice, and only
  then.
* `dropped_for_two_tokens`: it does so for two different tokens, too.
* `dropped_iff_same_word`: the same for every attempt of a recognition.
-/

namespace NounPhrase

/-- The numbers of the tokens that the failures blame. -/
def blamed (es : List Event) : List Nat := (failures es).map (·.column - 1)

/-- The last two tokens that are blamed have the same word, or neither has one. -/
def SameWordTwice (tokens : List Token) (blamed : List Nat) : Prop :=
  ∃ before l b, blamed = before ++ [l, b] ∧ wordAt tokens l = wordAt tokens b

section SameWordTwice

variable {tokens : List Token} {a l b : Nat} {ks : List Nat}

theorem SameWordTwice.two_le_length (h : SameWordTwice tokens ks) : 2 ≤ ks.length := by
  obtain ⟨before, l, b, rfl, -⟩ := h
  rw [List.length_append]
  exact Nat.le_add_left 2 _

theorem sameWordTwice_pair :
    SameWordTwice tokens [l, b] ↔ wordAt tokens l = wordAt tokens b := by
  refine ⟨?_, fun h => ⟨[], l, b, rfl, h⟩⟩
  rintro ⟨before, l', b', h, hword⟩
  obtain ⟨-, h⟩ := List.append_inj' (show [] ++ [l, b] = _ from h) rfl
  simp only [List.cons.injEq, and_true] at h
  rw [h.1, h.2, hword]

/-- A token that is blamed before two others makes no difference. -/
theorem sameWordTwice_cons_cons_cons :
    SameWordTwice tokens (a :: l :: b :: ks) ↔ SameWordTwice tokens (l :: b :: ks) := by
  constructor
  · rintro ⟨before, l', b', h, hword⟩
    cases before with
    | nil => simp at h
    | cons a' before => exact ⟨before, l', b', (List.cons.inj h).2, hword⟩
  · rintro ⟨before, l', b', h, hword⟩
    exact ⟨a :: before, l', b', congrArg (a :: ·) h, hword⟩

theorem wordAt_take {n k : Nat} (h : k < n) : wordAt (tokens.take n) k = wordAt tokens k := by
  rw [wordAt, wordAt, List.getElem?_take_of_lt h]

/-- For tokens that are left it makes no difference that others have been dropped. -/
theorem sameWordTwice_take {n : Nat} (h : ∀ k ∈ ks, k < n) :
    SameWordTwice (tokens.take n) ks ↔ SameWordTwice tokens ks := by
  refine exists_congr fun before => exists_congr fun l => exists_congr fun b =>
    and_congr_right fun hks => ?_
  rw [wordAt_take (h l (by simp [hks])), wordAt_take (h b (by simp [hks]))]

end SameWordTwice

/-! ### Attempts -/

theorem blamed_append_of_built {es es' : List Event} (h : ∀ e ∈ es, e.isBuiltColumn) :
    blamed (es ++ es') = blamed es' := by
  rw [blamed, failures_append_of_built h, blamed]

namespace AttemptLog

variable {tokens : List Token} {entryLength entryLength' : Nat} {log : List Event}
  {isAccepted : Bool}

/-- Behind a failure an attempt gives up if the last two tokens blamed, this one included, have
the same word, and only then. -/
theorem restarts_eq_one_iff_cons {l : Nat}
    (h : AttemptLog tokens (some l) entryLength log entryLength' isAccepted) :
    restarts log = 1 ↔ SameWordTwice tokens (l :: blamed log) := by
  generalize hlast : some l = last at h
  induction h generalizing l with
  | accepted _ hbuilt =>
    rw [restarts_append_of_built hbuilt, blamed_append_of_built hbuilt]
    exact iff_of_false Nat.zero_ne_one fun h => Nat.not_succ_le_self 1 h.two_le_length
  | restarted hbuilt _ _ hword =>
    obtain rfl := Option.some.inj hlast
    rw [restarts_append_of_built hbuilt, blamed_append_of_built hbuilt]
    exact iff_of_true rfl (sameWordTwice_pair.mpr hword)
  | @widened _ _ b _ _ log _ hbuilt _ hlast' _ ih =>
    rw [restarts_append_of_built hbuilt, blamed_append_of_built hbuilt]
    show restarts log = 1 ↔ SameWordTwice tokens (l :: b :: blamed log)
    rw [ih rfl]
    cases hlog : blamed log with
    | nil =>
      -- the token is the second one that is blamed, and has another word than the first one
      refine iff_of_false (fun h => Nat.not_succ_le_self 1 h.two_le_length) ?_
      exact fun h => (hlast' l hlast.symm).2 (sameWordTwice_pair.mp h)
    | cons b' ks => exact sameWordTwice_cons_cons_cons.symm

/-- An attempt gives up if the last two tokens blamed have the same word, and only then. -/
theorem restarts_eq_one_iff
    (h : AttemptLog tokens none entryLength log entryLength' isAccepted) :
    restarts log = 1 ↔ SameWordTwice tokens (blamed log) := by
  generalize hlast : none = last at h
  cases h with
  | accepted _ hbuilt =>
    rw [restarts_append_of_built hbuilt, blamed_append_of_built hbuilt]
    exact iff_of_false Nat.zero_ne_one fun h => Nat.not_succ_le_zero 1 h.two_le_length
  | restarted => simp at hlast
  | widened hbuilt _ _ rest =>
    rw [restarts_append_of_built hbuilt, blamed_append_of_built hbuilt]
    exact rest.restarts_eq_one_iff_cons

/-- An attempt blames its tokens. -/
theorem lt_of_mem_blamed (h : AttemptLog tokens none entryLength log entryLength' isAccepted)
    {k : Nat} (hk : k ∈ blamed log) : k < tokens.length := by
  obtain ⟨f, hf, rfl⟩ := List.mem_map.mp hk
  have := h.isFailureRun.bounds f.column (List.mem_map_of_mem hf)
  omega

end AttemptLog

/-! ### Recognitions -/

/-- A token is dropped for two different tokens: three nouns without words, where a sentence is one
noun, are given up for a failure at column 2 and one at column 3. -/
theorem dropped_for_two_tokens :
    ¬ ∀ log ∈ attemptLogs
        (Grammar.nouns.recognize (List.replicate 3 ⟨.comNoun, none, none⟩)).events,
      restarts log = 1 →
        ∃ before column, (failures log).map Failure.column = before ++ [column, column] := by
  intro h
  have hlog : ∃ log ∈ attemptLogs
      (Grammar.nouns.recognize (List.replicate 3 ⟨.comNoun, none, none⟩)).events,
      restarts log = 1 ∧ (failures log).map Failure.column = [2, 3] := by
    decide +kernel
  obtain ⟨log, hmem, hrestarts, hcolumns⟩ := hlog
  obtain ⟨before, column, hsame⟩ := h log hmem hrestarts
  obtain ⟨-, htwo⟩ := List.append_inj' (show [] ++ [2, 3] = _ from hcolumns.symm.trans hsame) rfl
  simp at htwo
  omega

/-- Whatever the grammar and the tokens, an attempt gives up and the last token is dropped if the
last two failures of the attempt blame tokens with the same word, or without a word, and only then.
Two tokens with different words that are blamed in a row are no reason to drop a token. -/
theorem dropped_iff_same_word (g : Grammar) (tokens : List Token) {log : List Event}
    (h : log ∈ attemptLogs (g.recognize tokens).events) :
    restarts log = 1 ↔ SameWordTwice tokens (blamed log) := by
  obtain ⟨i, hlog⟩ := List.mem_iff_getElem?.mp h
  have hrecognition := recognitionLog_recognizeFrom g.admits g.unwidened tokens
  obtain ⟨_, _, _, hattempt⟩ := hrecognition.attemptLog_of_getElem? hlog
  rw [hattempt.restarts_eq_one_iff]
  refine sameWordTwice_take fun k hk => ?_
  exact Nat.lt_of_lt_of_le (hattempt.lt_of_mem_blamed hk) (List.length_take_le _ _)

/-- Of three nouns the last one is dropped because the last two are the same word. -/
theorem dropped_iff_same_word_nouns :
    ∃ log ∈ attemptLogs (Grammar.nouns.recognize [⟨.comNoun, some "by", none⟩,
        ⟨.comNoun, some "hus", none⟩, ⟨.comNoun, some "hus", none⟩]).events,
      restarts log = 1 ∧ SameWordTwice [⟨.comNoun, some "by", none⟩,
        ⟨.comNoun, some "hus", none⟩, ⟨.comNoun, some "hus", none⟩] (blamed log) := by
  have hlog : ∃ log ∈ attemptLogs (Grammar.nouns.recognize [⟨.comNoun, some "by", none⟩,
      ⟨.comNoun, some "hus", none⟩, ⟨.comNoun, some "hus", none⟩]).events, restarts log = 1 := by
    decide +kernel
  obtain ⟨log, hmem, hrestarts⟩ := hlog
  exact ⟨log, hmem, hrestarts, (dropped_iff_same_word _ _ hmem).mp hrestarts⟩

end NounPhrase
