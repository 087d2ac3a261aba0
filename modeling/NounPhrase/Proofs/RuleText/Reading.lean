import NounPhrase.Proofs.RuleText.Notation

/-!
# One pass and two

The reader of rule notation cuts its text while it reads, and skips layout wherever the next part
of a rule may stand behind some. It takes from the text what the next lexeme is, and it asks for
what the state of a reader of lexemes asks for. So it reads the text as if the text had been cut
into lexemes first.

## Main definitions

* `ReaderState.outcome`: the rules that lexemes lead to from a state, or the text of the fault.

## Main results

* `RuleText.skipLayout_eq`: layout is what stands between lexemes.
* `ReaderState.outcome_rule`: from the beginning of a rule a rule is read.
* `readRules_eq_readLexemes`: a text is read in one pass as in two.
* `readRules_eq_ok_iff`: a text is read as rules if and only if it is cut into the lexemes that
  write them.
* `reads_iff_written`: the reader accepts the notation exactly, whatever the layout.
-/

namespace NounPhrase

/-! ### Layout -/

namespace Text

variable {c : Char} {cs : List Char}

theorem skipLayout_dropWhile_isBlank (cs : List Char) :
    skipLayout false (cs.dropWhile isBlank) = skipLayout false cs := by
  induction cs with
  | nil => rfl
  | cons c cs ih =>
    by_cases hc : isBlank c
    · rw [List.dropWhile_cons_of_pos hc, ih, skipLayout_blank hc]
    · rw [List.dropWhile_cons_of_neg hc]

theorem skipLayout_dropWhile_newline (cs : List Char) :
    skipLayout false (cs.dropWhile (· != '\n')) = skipLayout true cs := by
  have hbody : '\n' ∉ cs.takeWhile (· != '\n') := fun h => by
    simpa using List.mem_takeWhile_imp h
  have hend : ∀ c ∈ (cs.dropWhile (· != '\n')).head?, c = '\n' := by
    intro c hc
    have := List.head?_dropWhile_not (· != '\n') cs
    rw [Option.mem_def.mp hc] at this
    simpa using this
  have := skipLayout_comment hbody hend
  rwa [List.takeWhile_append_dropWhile, eq_comm] at this

end Text

namespace Regex

variable {cs rest taken : List Char}

/-- Where neither blanks nor a comment are found at the front there is nothing to skip. -/
theorem skipLayout_of_front_eq_none (h : (either blanks comment).front cs = none) :
    Text.skipLayout false cs = cs := by
  obtain ⟨hblanks, hcomment⟩ := Option.or_eq_none_iff.mp h
  cases cs with
  | nil => rfl
  | cons c cs =>
    have hc : ¬ Text.isBlank c := by
      intro hc
      simpa [List.takeWhile_cons_of_pos hc] using front_run_eq_none_iff.mp hblanks
    have hslash : ¬ (c == '/' && cs.head? == some '/') := by
      intro hslash
      obtain ⟨rfl, hhead⟩ : c = '/' ∧ cs.head? = some '/' := by simpa using hslash
      obtain ⟨rest, rfl⟩ := List.head?_eq_some_iff.mp hhead
      rw [comment, andRun, Option.map_eq_none_iff] at hcomment
      exact front_literal_eq_none_iff.mp hcomment ⟨rest, rfl⟩
    rw [Text.skipLayout, if_neg Bool.false_ne_true, if_neg hc, if_neg hslash]

/-- Blanks and a comment that are found at the front are skipped. -/
theorem skipLayout_of_front_eq_some (h : (either blanks comment).front cs = some (taken, rest)) :
    Text.skipLayout false rest = Text.skipLayout false cs := by
  rcases Option.or_eq_some_iff.mp h with h | ⟨-, h⟩
  · obtain ⟨-, -, rfl⟩ := front_run_eq_some_iff.mp h
    exact Text.skipLayout_dropWhile_isBlank cs
  · obtain ⟨⟨slashes, behind⟩, hslashes, heq⟩ := Option.map_eq_some_iff.mp h
    obtain ⟨-, rfl⟩ := Prod.mk.inj heq
    obtain ⟨rfl, rfl⟩ := front_literal_eq_some_iff.mp hslashes
    exact Text.skipLayout_dropWhile_newline behind

end Regex

theorem RuleText.skipLayout_eq (cs : List Char) : skipLayout cs = Text.skipLayout false cs := by
  have hall : skipLayout cs = ((Regex.either .blanks .comment).takeAll cs).2 := by
    rw [skipLayout, optionalMatch_eq, Regex.layout, Regex.plus]
    cases h : (Regex.either .blanks .comment).front cs with
    | none => rw [Regex.takeAll_of_front_eq_none h]; simp only [h, Option.map_none]
    | some p => rw [Regex.takeAll_of_front_eq_some h]; simp only [h, Option.map_some]
  rw [hall]
  clear hall
  fun_induction Regex.takeAll (.either .blanks .comment) cs with
  | case1 cs h => exact (Regex.skipLayout_of_front_eq_none h).symm
  | case2 cs taken rest h ih => exact ih.trans (Regex.skipLayout_of_front_eq_some h)

/-! ### What stands at the front -/

namespace Lexeme

variable {c : Char} {cs rest : List Char}

theorem first_eq_arrow_iff : first c cs = (arrow, rest) ↔ c :: cs = '-' :: '>' :: rest := by
  constructor
  · fun_cases first c cs <;> simp
  · intro h
    obtain ⟨rfl, rfl⟩ := List.cons.inj h
    rfl

theorem first_eq_doubleArrow_iff :
    first c cs = (doubleArrow, rest) ↔ c :: cs = '=' :: '>' :: rest := by
  constructor
  · fun_cases first c cs <;> simp
  · intro h
    obtain ⟨rfl, rfl⟩ := List.cons.inj h
    rfl

theorem first_eq_semicolon_iff : first c cs = (semicolon, rest) ↔ c :: cs = ';' :: rest := by
  constructor
  · fun_cases first c cs <;> simp
  · intro h
    obtain ⟨rfl, rfl⟩ := List.cons.inj h
    rfl

end Lexeme

namespace RuleText

variable (c : Char) (cs : List Char)

/-- A name is read if it is the first lexeme. -/
theorem readName_cons :
    readName (c :: cs) = match Lexeme.first c cs with
      | (.name s, rest) => .ok (s, rest)
      | _ => .error (RuleTextFault.message.noName (c :: cs)) := by
  have hmissing (hc : ¬ Text.isNameChar c) :
      readName (c :: cs) = .error (RuleTextFault.message.noName (c :: cs)) := by
    have hfront : Regex.name.front (c :: cs) = none :=
      Regex.front_run_eq_none_iff.mpr (List.takeWhile_cons_of_neg hc)
    rw [readName, neededMatch, optionalMatch_eq, hfront]
    rfl
  fun_cases Lexeme.first c cs with
  | case1 =>
    rename_i hc
    have hfront : Regex.name.front (c :: cs) =
        some (c :: cs.takeWhile Text.isNameChar, cs.dropWhile Text.isNameChar) :=
      Regex.front_run_eq_some_iff.mpr (by simp [hc])
    rw [readName, neededMatch, optionalMatch_eq, hfront]
    rfl
  | _ => exact hmissing ‹_›

/-- A symbol is read if the first lexeme is the name of one. -/
theorem readSymbol_cons :
    readSymbol (c :: cs) = match Lexeme.first c cs with
      | (.name s, rest) => ((Symbol.ofName s).mapError UnknownName.message).map (·, rest)
      | _ => .error ("symbol: " ++ RuleTextFault.message.noName (c :: cs)) := by
  rw [readSymbol, readName_cons]
  cases Lexeme.first c cs with
  | mk l rest =>
    cases l with
    | name s =>
      simp only [bind, Except.bind, mapError_ok]
      cases Symbol.ofName s <;> rfl
    | _ => rfl

variable {c cs} in
/-- A literal is taken if the lexeme that it writes is the first one. -/
theorem optionalMatch_literal {l : Lexeme} {text : List Char} (htext : text ≠ [])
    (hl : ∀ rest, Lexeme.first c cs = (l, rest) ↔ c :: cs = text ++ rest) :
    optionalMatch (.literal text htext) (c :: cs) =
      if (Lexeme.first c cs).1 = l then (some text, (Lexeme.first c cs).2)
      else (none, c :: cs) := by
  rw [optionalMatch_eq]
  cases h : (Regex.literal text htext).front (c :: cs) with
  | some p =>
    obtain ⟨taken, rest⟩ := p
    obtain ⟨rfl, hrest⟩ := Regex.front_literal_eq_some_iff.mp h
    rw [(hl rest).mpr hrest.symm]
    exact (if_pos rfl).symm
  | none =>
    refine (if_neg fun hfirst => ?_).symm
    have hrest := (hl (Lexeme.first c cs).2).mp (Prod.ext hfirst rfl)
    exact Regex.front_literal_eq_none_iff.mp h ⟨_, hrest.symm⟩

/-- An arrow is taken if it is the first lexeme. -/
theorem neededMatch_arrow_cons :
    neededMatch .arrow (c :: cs) = match Lexeme.first c cs with
      | (.arrow, rest) => .ok (['-', '>'], rest)
      | _ => .error (noMatch "->" (c :: cs)) := by
  rw [neededMatch, Regex.arrow, optionalMatch_literal _ fun _ => Lexeme.first_eq_arrow_iff]
  cases Lexeme.first c cs with
  | mk l rest => cases l <;> rfl

/-- A double arrow is taken if it is the first lexeme. -/
theorem optionalMatch_doubleArrow_cons :
    optionalMatch .doubleArrow (c :: cs) = match Lexeme.first c cs with
      | (.doubleArrow, rest) => (some ['=', '>'], rest)
      | _ => (none, c :: cs) := by
  rw [Regex.doubleArrow, optionalMatch_literal _ fun _ => Lexeme.first_eq_doubleArrow_iff]
  cases Lexeme.first c cs with
  | mk l rest => cases l <;> rfl

/-- A semicolon is taken if it is the first lexeme. -/
theorem neededChar_semicolon_cons :
    neededChar ';' (c :: cs) = match Lexeme.first c cs with
      | (.semicolon, rest) => .ok (';', rest)
      | _ => .error (noMatch ";" (c :: cs)) := by
  rw [neededChar, optionalChar]
  by_cases hc : c = ';'
  · subst hc
    rfl
  · rw [if_neg hc]
    cases hl : Lexeme.first c cs with
    | mk l rest =>
      cases l with
      | semicolon => exact absurd (List.cons.inj (Lexeme.first_eq_semicolon_iff.mp hl)).1 hc
      | _ => rfl

variable {c cs} {n : Nonterminal} {symbols : List Symbol} {text : List Char}

/-- The step of the reader that reads one more symbol, without the proof that it goes forward. -/
theorem readRhs_eq (n : Nonterminal) (symbols : List Symbol) (text : List Char) :
    readRhs n symbols text = match optionalMatch .doubleArrow (skipLayout text) with
      | (some _, rest) => .ok (symbols, skipLayout rest)
      | (none, _) =>
        if (skipLayout text).head? = some ';' ∨ skipLayout text = [] then
          .error (RuleTextFault.actionOmitted n (skipLayout text)).message
        else
          (readSymbol (skipLayout text)).mapError ("rule production: " ++ ·) >>=
            fun (symbol, rest) => readRhs n (symbols ++ [symbol]) rest := by
  rw [readRhs]
  cases optionalMatch .doubleArrow (skipLayout text) with
  | mk taken rest =>
    cases taken with
    | some taken => rfl
    | none =>
      by_cases hend : (skipLayout text).head? = some ';' ∨ skipLayout text = []
      · exact (if_pos hend).trans (if_pos hend).symm
      · refine (if_neg hend).trans (.trans ?_ (if_neg hend).symm)
        split
        · next h => rw [h]; rfl
        · next h => rw [h]; rfl

theorem readRhs_of_skipLayout_eq_nil (h : Text.skipLayout false text = []) :
    readRhs n symbols text = .error (RuleTextFault.actionOmitted n []).message := by
  rw [readRhs_eq, skipLayout_eq, h]
  rfl

/-- Symbols are read up to the first lexeme that is not the name of one. -/
theorem readRhs_of_skipLayout_eq_cons (h : Text.skipLayout false text = c :: cs) :
    readRhs n symbols text = match Lexeme.first c cs with
      | (.name s, rest) =>
        match Symbol.ofName s with
        | .ok symbol => readRhs n (symbols ++ [symbol]) rest
        | .error e => .error (RuleTextFault.symbolUnknown e).message
      | (.doubleArrow, rest) => .ok (symbols, skipLayout rest)
      | (.semicolon, _) => .error (RuleTextFault.actionOmitted n (c :: cs)).message
      | _ => .error (RuleTextFault.symbolMissing (c :: cs)).message := by
  have hend (hne : (Lexeme.first c cs).1 ≠ .semicolon) :
      ¬ ((c :: cs).head? = some ';' ∨ c :: cs = []) := by
    rintro (hc | hc)
    · obtain rfl : c = ';' := Option.some.inj hc
      exact hne rfl
    · cases hc
  rw [readRhs_eq, skipLayout_eq, h, optionalMatch_doubleArrow_cons, readSymbol_cons]
  cases hl : Lexeme.first c cs with
  | mk l rest =>
    rw [hl] at hend
    cases l with
    | doubleArrow => rfl
    | semicolon =>
      obtain ⟨rfl, -⟩ := List.cons.inj (Lexeme.first_eq_semicolon_iff.mp hl)
      rfl
    | name s =>
      refine (if_neg (hend nofun)).trans ?_
      dsimp only
      cases Symbol.ofName s <;> rfl
    | _ => exact (if_neg (hend nofun)).trans rfl

end RuleText

/-! ### States of the reader of lexemes -/

namespace ReaderState

/-- The rules that the lexemes of a text lead to from a state, or the text of the fault. -/
def outcome (s : ReaderState) (cs : List Char) : Except String (List Rule) :=
  (s.readAll (PlacedLexeme.ofText cs)).mapError RuleTextFault.message

variable {s : ReaderState} {c : Char} {cs rest : List Char}

theorem outcome_of_skipLayout_eq_nil (h : Text.skipLayout false cs = []) :
    s.outcome cs = (s.finish.map fun _ => []).mapError RuleTextFault.message := by
  rw [outcome, PlacedLexeme.ofText_of_skipLayout_eq_nil h, readAll]

theorem outcome_of_skipLayout_eq_cons (h : Text.skipLayout false cs = c :: rest) :
    s.outcome cs = match s.read ⟨(Lexeme.first c rest).1, c :: rest⟩ with
      | .error e => .error e.message
      | .ok (s', none) => s'.outcome (Lexeme.first c rest).2
      | .ok (s', some r) => (s'.outcome (Lexeme.first c rest).2).map (r :: ·) := by
  rw [outcome, PlacedLexeme.ofText_of_skipLayout_eq_cons h, readAll]
  cases s.read ⟨(Lexeme.first c rest).1, c :: rest⟩ with
  | error e => rfl
  | ok p =>
    obtain ⟨s', r?⟩ := p
    cases r? <;> dsimp only <;> unfold outcome <;>
      cases readAll s' (PlacedLexeme.ofText (Lexeme.first c rest).2) <;> rfl

/-- What may come is a semicolon. -/
theorem outcome_semicolon (r : Rule) (cs : List Char) :
    (semicolon r).outcome cs =
      (RuleText.neededChar ';' (RuleText.skipLayout cs)).mapError ("rule end: " ++ ·) >>=
        fun (_, rest) => (lhs.outcome rest).map (r :: ·) := by
  rw [RuleText.skipLayout_eq]
  cases hskip : Text.skipLayout false cs with
  | nil =>
    rw [outcome_of_skipLayout_eq_nil hskip]
    rfl
  | cons c rest =>
    rw [outcome_of_skipLayout_eq_cons hskip, RuleText.neededChar_semicolon_cons]
    cases Lexeme.first c rest with
    | mk l rest => cases l <;> rfl

/-- What may come is the name of an action. -/
theorem outcome_action (n : Nonterminal) (symbols : List Symbol) (cs : List Char) :
    (action n symbols).outcome cs =
      (RuleText.readAction (RuleText.skipLayout cs)).mapError (("rule " ++ n.name ++ ": ") ++ ·) >>=
        fun (a, rest) => (semicolon ⟨n, symbols, a⟩).outcome rest := by
  rw [RuleText.skipLayout_eq]
  cases hskip : Text.skipLayout false cs with
  | nil =>
    rw [outcome_of_skipLayout_eq_nil hskip]
    rfl
  | cons c rest =>
    rw [outcome_of_skipLayout_eq_cons hskip, RuleText.readAction, RuleText.readName_cons]
    cases Lexeme.first c rest with
    | mk l rest =>
      cases l with
      | name s =>
        cases h : Action.ofName s with
        | error e =>
          simp only [read, h, bind, Except.bind, RuleText.mapError_ok, RuleText.mapError_error]
          rfl
        | ok a => simp only [read, h, bind, Except.bind, RuleText.mapError_ok]; rfl
      | _ => rfl

/-- What may come is a symbol or the double arrow, and behind that the name of an action. -/
theorem outcome_rhs (n : Nonterminal) (symbols : List Symbol) (cs : List Char) :
    (rhs n symbols).outcome cs =
      RuleText.readRhs n symbols cs >>= fun (symbols, rest) =>
        (RuleText.readAction rest).mapError (("rule " ++ n.name ++ ": ") ++ ·) >>=
          fun (a, rest) => (semicolon ⟨n, symbols, a⟩).outcome rest := by
  cases hskip : Text.skipLayout false cs with
  | nil =>
    rw [outcome_of_skipLayout_eq_nil hskip, RuleText.readRhs_of_skipLayout_eq_nil hskip]
    rfl
  | cons c rest =>
    rw [outcome_of_skipLayout_eq_cons hskip, RuleText.readRhs_of_skipLayout_eq_cons hskip]
    have hshorter : (Lexeme.first c rest).2.length < cs.length :=
      calc (Lexeme.first c rest).2.length
        _ ≤ rest.length := Lexeme.length_first_le c rest
        _ < (Text.skipLayout false cs).length := hskip ▸ Nat.lt_succ_self _
        _ ≤ cs.length := Text.length_skipLayout_le false cs
    cases hl : Lexeme.first c rest with
    | mk l rest' =>
      rw [hl] at hshorter
      cases l with
      | name s =>
        cases h : Symbol.ofName s with
        | error e => simp only [read, h]; rfl
        | ok symbol => simp only [read, h]; exact outcome_rhs n (symbols ++ [symbol]) rest'
      | doubleArrow => exact outcome_action n symbols rest'
      | _ => rfl
termination_by cs.length
decreasing_by exact hshorter

/-- What may come is an arrow. -/
theorem outcome_arrow (n : Nonterminal) (cs : List Char) :
    (arrow n).outcome cs =
      (RuleText.neededMatch .arrow (RuleText.skipLayout cs)).mapError ("rule arrow: " ++ ·) >>=
        fun (_, rest) => (rhs n []).outcome rest := by
  rw [RuleText.skipLayout_eq]
  cases hskip : Text.skipLayout false cs with
  | nil =>
    rw [outcome_of_skipLayout_eq_nil hskip]
    rfl
  | cons c rest =>
    rw [outcome_of_skipLayout_eq_cons hskip, RuleText.neededMatch_arrow_cons]
    cases Lexeme.first c rest with
    | mk l rest => cases l <;> rfl

/-- What may come is the name of a nonterminal, unless the text ends. -/
theorem outcome_lhs (cs : List Char) (hcs : RuleText.skipLayout cs ≠ []) :
    lhs.outcome cs =
      (RuleText.readLhs (RuleText.skipLayout cs)).mapError ("rule symbol: " ++ ·) >>=
        fun (n, rest) => (arrow n).outcome rest := by
  rw [RuleText.skipLayout_eq] at hcs ⊢
  obtain ⟨c, rest, hskip⟩ := List.exists_cons_of_ne_nil hcs
  rw [outcome_of_skipLayout_eq_cons hskip, hskip, RuleText.readLhs, RuleText.readSymbol_cons]
  cases Lexeme.first c rest with
  | mk l rest =>
    cases l with
    | name s =>
      cases h : Symbol.ofName s with
      | error e =>
        simp only [read, h, bind, Except.bind, RuleText.mapError_error]
        rfl
      | ok a => cases a <;> simp only [read, h, bind, Except.bind, RuleText.mapError_ok] <;> rfl
    | _ => rfl

/-- From the beginning of a rule a rule is read. -/
theorem outcome_rule (cs : List Char) (hcs : RuleText.skipLayout cs ≠ []) :
    lhs.outcome cs = RuleText.readRule (RuleText.skipLayout cs) >>= fun (r, rest) =>
      (lhs.outcome rest).map (r :: ·) := by
  rw [outcome_lhs cs hcs, RuleText.readRule]
  simp only [bind_assoc, pure_bind, outcome_arrow, outcome_rhs, outcome_semicolon]

end ReaderState

/-- Rules are read in one pass as in two. -/
theorem RuleText.readTable_eq (rules : List Rule) (cs : List Char) :
    readTable rules cs = (ReaderState.lhs.outcome cs).map fun rest => (rules ++ rest, []) := by
  fun_induction readTable rules cs with
  | case1 rules cs here h =>
    rw [h, ReaderState.outcome_of_skipLayout_eq_nil ((skipLayout_eq cs).symm.trans h)]
    exact congrArg (fun rules => Except.ok (rules, [])) (List.append_nil rules).symm
  | case2 rules cs here hne e h =>
    rw [ReaderState.outcome_rule cs hne, h]
    rfl
  | case3 rules cs here hne r rest h ih =>
    rw [ih, ReaderState.outcome_rule cs hne, h]
    show _ = Except.map _ (Except.map _ _)
    cases ReaderState.lhs.outcome rest with
    | error e => rfl
    | ok rest => exact congrArg (fun rules => Except.ok (rules, [])) (List.append_assoc ..)

/-- A text is read in one pass as in two: the same rules and nothing behind them, or the same text
of an error. -/
theorem readRules_eq_readLexemes (text : String) :
    readRules text = ((readLexemes text).mapError RuleTextFault.message).map (·, []) :=
  RuleText.readTable_eq [] text.toList

/-- A text is read as rules if and only if it is cut into the lexemes that write them, and then
nothing is left of it. -/
theorem readRules_eq_ok_iff {text : String} {rules : List Rule} {rest : List Char} :
    readRules text = .ok (rules, rest) ↔
      rest = [] ∧ Text.IsCutInto text.toList (rules.flatMap Rule.lexemes) := by
  rw [← readLexemes_eq_ok_iff, readRules_eq_readLexemes]
  cases readLexemes text <;> simp [Except.map, eq_comm, and_comm]

/-- A text is read in one pass as if it were cut into lexemes first, with the same rules or the same
text of an error. It is read as rules if and only if it is cut into lexemes that write these rules
one after the other, and then nothing is left of it. Two texts that are cut into the same lexemes
are read alike. -/
theorem reads_iff_written (text : String) :
    readRules text = ((readLexemes text).mapError RuleTextFault.message).map (·, []) ∧
    (∀ rules rest, readRules text = .ok (rules, rest) ↔
      rest = [] ∧ ∃ ls, Text.IsCutInto text.toList ls ∧ IsRuleTable ls rules) ∧
    ∀ text' ls, Text.IsCutInto text.toList ls → Text.IsCutInto text'.toList ls →
      (readRules text').toOption = (readRules text).toOption := by
  refine ⟨readRules_eq_readLexemes text, fun rules rest => ?_, fun text' ls hcut hcut' => ?_⟩
  · simp [readRules_eq_ok_iff, isRuleTable_iff]
  · have hread {text : String} (hcut : Text.IsCutInto text.toList ls) (p : List Rule × List Char) :
        (readRules text).toOption = some p ↔ p.2 = [] ∧ ls = p.1.flatMap Rule.lexemes := by
      have hok : (readRules text).toOption = some p ↔ readRules text = .ok (p.1, p.2) := by
        cases readRules text <;> simp [Except.toOption]
      rw [hok, readRules_eq_ok_iff]
      exact and_congr_right fun _ => ⟨hcut.unique, fun h => h ▸ hcut⟩
    exact Option.ext fun p => (hread hcut' p).trans (hread hcut p).symm

/-- A rule without any blanks, and the same rule over two lines with a comment between them. -/
theorem reads_iff_written_commented :
    Text.IsCutInto "SENT->NP=>sentence;".toList
      [.name "SENT", .arrow, .name "NP", .doubleArrow, .name "sentence", .semicolon] ∧
    Text.IsCutInto "SENT -> NP // a phrase\n => sentence ;".toList
      [.name "SENT", .arrow, .name "NP", .doubleArrow, .name "sentence", .semicolon] ∧
    readRules "SENT->NP=>sentence;" = .ok ([⟨.sent, [.nonterminal .np], .sentence⟩], []) ∧
    (readRules "SENT -> NP // a phrase\n => sentence ;").toOption =
      (readRules "SENT->NP=>sentence;").toOption := by
  have hclose : Text.IsCutInto "SENT->NP=>sentence;".toList
      [.name "SENT", .arrow, .name "NP", .doubleArrow, .name "sentence", .semicolon] :=
    Text.isCutInto_iff.mpr ⟨by decide +kernel, by simp⟩
  have hwide : Text.IsCutInto "SENT -> NP // a phrase\n => sentence ;".toList
      [.name "SENT", .arrow, .name "NP", .doubleArrow, .name "sentence", .semicolon] :=
    Text.isCutInto_iff.mpr ⟨by decide +kernel, by simp⟩
  have hread : readRules "SENT->NP=>sentence;" =
      .ok ([⟨.sent, [.nonterminal .np], .sentence⟩], []) :=
    ((reads_iff_written _).2.1 _ _).mpr ⟨rfl, _, hclose, isRuleTable_iff.mpr rfl⟩
  exact ⟨hclose, hwide, hread, (reads_iff_written _).2.2 _ _ hclose hwide⟩

end NounPhrase
