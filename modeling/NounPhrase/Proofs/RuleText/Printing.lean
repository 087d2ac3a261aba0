import NounPhrase.Grammar.Swedish
import NounPhrase.Proofs.RuleText.Reading

/-!
# Printed rules and grammars

A printed rule is cut into the lexemes that write it: names consist of letters, digits and
underscores, so a blank or a semicolon ends them. The head of a printed grammar consists of
comments, since no name and no first set has a line break in it. So what is printed is read back.

The rules of a grammar without the start rule have passed the checks of a rule table. Checked once
more they give the same grammar, which depends on them alone.

## Main definitions

* `Text.isName`: whether a text is a run of letters, digits and underscores.
* `Text.isLine`: whether a text has no line break.

## Main results

* `Rule.isCutInto_text`: a printed rule is cut into the lexemes that write it.
* `Grammar.isCutInto_text`: a printed grammar is cut into the lexemes of its rules.
* `Grammar.ofRules_dropLast_rules`: the rules of a grammar give the grammar.
* `reads_printed`: printed rules and grammars are read back.
-/

namespace NounPhrase

/-! ### Names and lines -/

namespace Text

/-- Whether the text is a run of letters, digits and underscores, and not empty. -/
def isName (s : String) : Bool := !s.toList.isEmpty && s.toList.all Text.isNameChar

/-- Whether the text has no line break. -/
def isLine (s : String) : Bool := !s.toList.contains '\n'

theorem isName_iff {s : String} :
    isName s ↔ s.toList ≠ [] ∧ ∀ c ∈ s.toList, Text.isNameChar c := by
  simp [isName]

theorem isLine_iff {s : String} : isLine s ↔ '\n' ∉ s.toList := by
  simp [isLine]

theorem isLine_of_isName {s : String} (h : isName s) : isLine s :=
  isLine_iff.mpr fun hc => absurd ((isName_iff.mp h).2 _ hc) (by decide)

theorem isLine_append {s u : String} (hs : isLine s) (hu : isLine u) : isLine (s ++ u) := by
  simp_all [isLine_iff]

theorem isLine_intercalate {sep : String} {ss : List String} (hsep : isLine sep)
    (hss : ∀ s ∈ ss, isLine s) : isLine (sep.intercalate ss) := by
  induction ss with
  | nil => rfl
  | cons s ss ih =>
    obtain ⟨hs, hss⟩ := List.forall_mem_cons.mp hss
    cases ss with
    | nil => rwa [String.intercalate_singleton]
    | cons u ss =>
      rw [String.intercalate_cons_cons]
      exact isLine_append (isLine_append hs hsep) (ih hss)

namespace IsCutInto

variable {cs : List Char} {ls : List Lexeme}

/-- A name is cut off before a character that ends it. -/
theorem isName {s : String} {c : Char} (hs : Text.isName s) (hc : ¬ Text.isNameChar c)
    (h : IsCutInto (c :: cs) ls) : IsCutInto (s.toList ++ c :: cs) (.name s :: ls) := by
  obtain ⟨hne, hs⟩ := isName_iff.mp hs
  have := h.name hne hs (by simpa using hc)
  rwa [String.ofList_toList] at this

/-- A comment on a line of its own is skipped. -/
theorem commentLine {s : String} (hs : isLine s) (h : IsCutInto cs ls) :
    IsCutInto (("//" ++ s ++ "\n").toList ++ cs) ls := by
  have := (h.blank (c := '\n') rfl).comment (isLine_iff.mp hs) (by simp)
  simpa [String.toList_append] using this

end IsCutInto

end Text

theorem Terminal.isName_name (t : Terminal) : Text.isName t.name := by
  cases t <;> decide

theorem Nonterminal.isName_name (n : Nonterminal) : Text.isName n.name := by
  cases n <;> decide

theorem Action.isName_name (a : Action) : Text.isName a.name := by
  cases a <;> decide

theorem Symbol.isName_text (a : Symbol) : Text.isName a.text := by
  cases a with
  | terminal t => exact t.isName_name
  | nonterminal n => exact n.isName_name

theorem FirstSet.isLine_text (s : FirstSet) : Text.isLine s.text := by
  have hmembers : ∀ m ∈ s.terminals.map Terminal.name ++ if s.empty then ["<empty>"] else [],
      Text.isLine m := by
    intro m hm
    rcases List.mem_append.mp hm with hm | hm
    · obtain ⟨t, -, rfl⟩ := List.mem_map.mp hm
      exact Text.isLine_of_isName t.isName_name
    · have : m = "<empty>" := by
        split at hm <;> simp_all
      subst this
      decide
  have hlist : ∀ m ∈ (s.terminals.map Terminal.name ++ if s.empty then ["<empty>"] else []).map
      (" " ++ ·), Text.isLine m := by
    rw [List.forall_mem_map]
    exact fun m hm => Text.isLine_append (by decide) (hmembers m hm)
  have hsep : Text.isLine "," := by decide
  have hinner := Text.isLine_intercalate hsep hlist
  exact Text.isLine_append (Text.isLine_append (by decide) hinner) (by decide)

/-! ### Printed rules -/

section
variable {cs : List Char} {ls : List Lexeme}

/-- Symbols behind blanks are cut off one after the other. -/
theorem Symbol.isCutInto_texts (symbols : List Symbol) (h : Text.IsCutInto (' ' :: cs) ls) :
    Text.IsCutInto ((symbols.flatMap fun a => ' ' :: a.text.toList) ++ ' ' :: cs)
      (symbols.map (.name ·.text) ++ ls) := by
  induction symbols with
  | nil => exact h
  | cons a symbols ih =>
    have hhead : ∃ rest, (symbols.flatMap fun a => ' ' :: a.text.toList) ++ ' ' :: cs =
        ' ' :: rest := by
      cases symbols <;> exact ⟨_, rfl⟩
    obtain ⟨rest, hrest⟩ := hhead
    rw [List.flatMap_cons, List.append_assoc, hrest]
    exact .blank rfl (.isName a.isName_text (by decide) (hrest ▸ ih))

/-- A printed rule with its semicolon is cut into the lexemes that write it. -/
theorem Rule.isCutInto_text (r : Rule) (h : Text.IsCutInto cs ls) :
    Text.IsCutInto ((r.text ++ ";\n").toList ++ cs) (r.lexemes ++ ls) := by
  have hend : Text.IsCutInto
      (' ' :: '=' :: '>' :: ' ' :: (r.action.name.toList ++ ';' :: '\n' :: cs))
      (.doubleArrow :: .name r.action.name :: .semicolon :: ls) :=
    .blank rfl (.doubleArrow (.blank rfl (.isName r.action.isName_name (by decide)
      (.semicolon (.blank rfl h)))))
  have := Text.IsCutInto.isName r.lhs.isName_name (by decide)
    (.blank (c := ' ') rfl (.arrow (Symbol.isCutInto_texts r.rhs hend)))
  simpa [Rule.text, Rule.lexemes, String.toList_join, List.flatMap_map] using this

theorem Rule.isCutInto_texts (rules : List Rule) :
    Text.IsCutInto (String.join (rules.map (·.text ++ ";\n"))).toList
      (rules.flatMap Rule.lexemes) := by
  induction rules with
  | nil => exact .nil
  | cons r rules ih =>
    rw [List.map_cons, String.join_cons, String.toList_append, List.flatMap_cons]
    exact r.isCutInto_text ih

end

/-! ### Printed grammars -/

/-- Rules of distinct shapes are all kept. -/
theorem splitRepeated_of_pairwise {kept rules : List Rule}
    (h : (kept ++ rules).Pairwise (¬ ·.SameShape ·)) :
    splitRepeated kept rules = (kept ++ rules, []) := by
  induction rules generalizing kept with
  | nil => rw [splitRepeated, List.append_nil]
  | cons r rules ih =>
    have hnew : ¬ ∃ k ∈ kept, k.SameShape r := by
      rintro ⟨k, hk, hshape⟩
      exact (List.pairwise_append.mp h).2.2 k hk r List.mem_cons_self hshape
    rw [List.append_cons] at h ⊢
    rw [splitRepeated, if_neg hnew, ih h]

theorem distinctShapes_of_pairwise {rules : List Rule} (h : rules.Pairwise (¬ ·.SameShape ·)) :
    distinctShapes rules = rules := by
  rw [distinctShapes, splitRepeated_of_pairwise (by rwa [List.nil_append]), List.nil_append]

namespace Grammar

/-- A printed grammar is cut into the lexemes of its rules. -/
theorem isCutInto_text (g : Grammar) :
    Text.IsCutInto g.text.toList (g.rules.flatMap Rule.lexemes) := by
  have hsets (sets : List (Nonterminal × FirstSet)) : Text.IsCutInto
      ((String.join (sets.map fun e =>
          "//** first " ++ e.1.name ++ ": " ++ e.2.text ++ "\n")).toList ++
        (String.join (g.rules.map (·.text ++ ";\n"))).toList) (g.rules.flatMap Rule.lexemes) := by
    induction sets with
    | nil => exact Rule.isCutInto_texts g.rules
    | cons e sets ih =>
      have hname : Text.isLine ("** first " ++ e.1.name) :=
        Text.isLine_append (by decide) (Text.isLine_of_isName e.1.isName_name)
      have hline : Text.isLine ("** first " ++ e.1.name ++ ": " ++ e.2.text) :=
        Text.isLine_append (Text.isLine_append hname (by decide)) e.2.isLine_text
      have := ih.commentLine hline
      simpa using this
  have hrecovery : Text.isLine ("** recovers with: " ++ g.recovery.name) :=
    Text.isLine_append (by decide) (Text.isLine_of_isName g.recovery.isName_name)
  have hsentence : Text.isLine ("** sentence: " ++ g.sentence.name) :=
    Text.isLine_append (by decide) (Text.isLine_of_isName g.sentence.isName_name)
  have := ((hsets g.first.sets).commentLine hrecovery).commentLine hsentence
  unfold text
  simpa using this

/-- The sentence rule and the other rules of a grammar pass the checks, and give the grammar. -/
theorem check_entry_others (g : Grammar) : check g.entry g.others g.distinct = .ok g := by
  obtain ⟨entry, others, recovery, arena, index, first, distinct, start_unused, entry_unique,
    entry_ends, faultless, rfl, rfl, rfl⟩ := g
  unfold check
  rw [dif_pos start_unused, dif_pos entry_unique]
  split
  · next recovery' hends =>
    obtain rfl : recovery = recovery' := by simpa using entry_ends.symm.trans hends
    split
    · rfl
    · next fault hfault =>
      rw [List.findSome?_eq_none_iff.mpr faultless] at hfault
      cases hfault
  · next hends => exact absurd entry_ends (hends recovery)

/-- The rules of a grammar without the start rule give the grammar. -/
theorem ofRules_dropLast_rules (g : Grammar) : ofRules g.rules.dropLast = .ok g := by
  have hdistinct : distinctShapes g.rules.dropLast = g.entry :: g.others := by
    rw [rules, augmented, List.dropLast_concat]
    exact distinctShapes_of_pairwise g.distinct
  unfold ofRules
  split
  · next h => cases hdistinct.symm.trans h
  · next entry others h =>
    obtain ⟨rfl, rfl⟩ := List.cons.inj (hdistinct.symm.trans h)
    exact g.check_entry_others

/-- The Swedish rules give the Swedish grammar. -/
theorem ofRules_swedish : ofRules Swedish.rules = .ok swedish := ofRules_dropLast_rules swedish

end Grammar

/-- Printed rules are read back, each with its semicolon and line break. A printed grammar is read
as its rules, and all but the start rule give the grammar once more. -/
theorem reads_printed :
    (∀ rules : List Rule,
      readRules (String.join (rules.map (·.text ++ ";\n"))) = .ok (rules, [])) ∧
    ∀ g : Grammar, readRules g.text = .ok (g.rules, []) ∧
      Grammar.ofRules g.rules.dropLast = .ok g :=
  ⟨fun rules => readRules_eq_ok_iff.mpr ⟨rfl, Rule.isCutInto_texts rules⟩, fun g =>
    ⟨readRules_eq_ok_iff.mpr ⟨rfl, g.isCutInto_text⟩, g.ofRules_dropLast_rules⟩⟩

end NounPhrase
