import Mathlib.Data.List.Forall2
import NounPhrase.Proofs.RuleText.Cuts
import NounPhrase.Proofs.RuleText.TwoPass

/-!
# The grammar of rule notation

A rule is written as its left-hand side, an arrow, the names of its symbols, a double arrow, the
name of its action and a semicolon, and a table is written as its rules one after the other. This
says which lexemes write a table, without saying how they are read.

Lexemes are read as a list of rules if and only if they write it.

## Main definitions

* `Symbol.IsNamed`: a name stands for a symbol.
* `Rule.IsWritten`, `IsRuleTable`: lexemes write a rule, or a list of rules.
* `Rule.lexemes`: the lexemes that write a rule.
* `ReaderState.Step`, `ReaderState.Steps`: which lexemes may come, and where they lead.
* `ReaderState.taken`: the lexemes that have been read of a rule.

## Main results

* `Rule.isWritten_iff`, `isRuleTable_iff`: a rule, or a list of rules, is written in one way only.
* `ReaderState.readAll_eq_ok_iff`: lexemes are read as rules if and only if they write them.
* `readLexemes_eq_ok_iff`: the same for texts that are cut into lexemes first.
-/

namespace NounPhrase

/-! ### Names -/

/-- Whether the text begins with a small letter. -/
def Text.beginsLower (s : String) : Bool := s.toList.head?.any Char.isLower

/-- The name stands for the symbol: a name that begins with a small letter for a terminal, any other
for a nonterminal. -/
inductive Symbol.IsNamed : Symbol → String → Prop
  | terminal {t : Terminal} (h : Text.beginsLower t.name) : IsNamed (.terminal t) t.name
  | nonterminal {n : Nonterminal} (h : ¬ Text.beginsLower n.name) : IsNamed (.nonterminal n) n.name

theorem Terminal.beginsLower_name (t : Terminal) : Text.beginsLower t.name := by
  cases t <;> decide

theorem Nonterminal.exists_name_eq_cons (n : Nonterminal) :
    ∃ c cs, n.name.toList = c :: cs ∧ c.isUpper := by
  cases n <;> exact ⟨_, _, rfl, by decide⟩

/-- A capital letter of ASCII is in no run of small letters. -/
theorem Text.isLowerCase_of_isUpper {c : Char} (h : c.isUpper) : isLowerCase c = false := by
  have hc : c.toNat ≤ 0x5A := (of_decide_eq_true h).2
  have hruns : ∀ run ∈ lowerCaseRuns, 0x61 ≤ run.1 := by decide +kernel
  refine List.any_eq_false.mpr fun run hrun => ?_
  have := hruns run hrun
  simp only [Bool.and_eq_true, decide_eq_true_eq, not_and]
  omega

/-- What is found by its name has it. -/
theorem eq_name_of_find? {α : Type} {name : α → String} {all : List α} {s : String} {a : α}
    (h : all.find? (name · == s) = some a) : s = name a :=
  (eq_of_beq (List.find?_some (p := (name · == s)) h)).symm

theorem Terminal.ofName_eq_ok_iff {s : String} {t : Terminal} : ofName s = .ok t ↔ s = t.name := by
  refine ⟨fun h => ?_, fun h => h ▸ ofName_name t⟩
  unfold ofName at h
  split at h
  · next hfind => exact Except.ok.inj h ▸ eq_name_of_find? hfind
  · simp at h

theorem Nonterminal.ofName_eq_ok_iff {s : String} {n : Nonterminal} :
    ofName s = .ok n ↔ s = n.name := by
  refine ⟨fun h => ?_, fun h => h ▸ ofName_name n⟩
  unfold ofName at h
  split at h
  · next hfind => exact Except.ok.inj h ▸ eq_name_of_find? hfind
  · simp at h

theorem Action.ofName_eq_ok_iff {s : String} {a : Action} : ofName s = .ok a ↔ s = a.name := by
  refine ⟨fun h => ?_, fun h => h ▸ ofName_name a⟩
  unfold ofName at h
  split at h
  · next hfind => exact Except.ok.inj h ▸ eq_name_of_find? hfind
  · simp at h

namespace Symbol

theorem isNamed_text (a : Symbol) : a.IsNamed a.text := by
  cases a with
  | terminal t => exact .terminal t.beginsLower_name
  | nonterminal n =>
    obtain ⟨c, cs, hname, hc⟩ := n.exists_name_eq_cons
    refine .nonterminal ?_
    rw [Text.beginsLower, hname, List.head?_cons, Option.any_some]
    intro hlower
    have hle : c.toNat ≤ 90 := (of_decide_eq_true hc).2
    have hge : 97 ≤ c.toNat := of_decide_eq_true (Bool.and_eq_true_iff.mp hlower).1
    omega

theorem isNamed_iff {a : Symbol} {s : String} : a.IsNamed s ↔ s = a.text := by
  refine ⟨fun h => ?_, fun h => h ▸ a.isNamed_text⟩
  cases h <;> rfl

theorem forall₂_isNamed_iff {symbols : List Symbol} {names : List String} :
    List.Forall₂ IsNamed symbols names ↔ names = symbols.map text := by
  constructor
  · intro h
    induction h with
    | nil => rfl
    | cons ha _ ih => rw [isNamed_iff.mp ha, ih, List.map_cons]
  · rintro rfl
    rw [List.forall₂_map_right_iff, List.forall₂_same]
    exact fun a _ => a.isNamed_text

theorem ofName_text (a : Symbol) : ofName a.text = .ok a := by
  cases a with
  | terminal t =>
    obtain ⟨c, hc, hlower⟩ := (Option.any_eq_true _ _).mp t.beginsLower_name
    obtain ⟨cs, hcs⟩ := List.head?_eq_some_iff.mp hc
    rw [text, ofName, hcs]
    simp [Text.isLowerCase_of_isLower hlower, Terminal.ofName_name, Except.map]
  | nonterminal n =>
    obtain ⟨c, cs, hname, hc⟩ := n.exists_name_eq_cons
    rw [text, ofName, hname]
    simp [Text.isLowerCase_of_isUpper hc, Nonterminal.ofName_name, Except.map]

theorem ofName_eq_ok_iff {s : String} {a : Symbol} : ofName s = .ok a ↔ s = a.text := by
  refine ⟨fun h => ?_, fun h => h ▸ a.ofName_text⟩
  have hmap {β : Type} {e : Except UnknownName β} {f : β → Symbol} (h : e.map f = .ok a) :
      ∃ b, e = .ok b ∧ f b = a := by
    cases e with
    | error e => simp [Except.map] at h
    | ok b => exact ⟨b, rfl, Except.ok.inj h⟩
  unfold ofName at h
  split at h
  · split at h
    · obtain ⟨t, ht, rfl⟩ := hmap h
      exact Terminal.ofName_eq_ok_iff.mp ht
    · obtain ⟨n, hn, rfl⟩ := hmap h
      exact Nonterminal.ofName_eq_ok_iff.mp hn
  · obtain ⟨n, hn, rfl⟩ := hmap h
    exact Nonterminal.ofName_eq_ok_iff.mp hn

end Symbol

/-! ### Written rules -/

/-- The lexemes write the rule. -/
inductive Rule.IsWritten : Rule → List Lexeme → Prop
  | mk {lhs : Nonterminal} {rhs : List Symbol} {action : Action} {name : String}
      {names : List String} (hlhs : (Symbol.nonterminal lhs).IsNamed name)
      (hrhs : List.Forall₂ Symbol.IsNamed rhs names) :
      IsWritten ⟨lhs, rhs, action⟩ (.name name :: .arrow :: names.map .name ++
        [.doubleArrow, .name action.name, .semicolon])

/-- The lexemes write the rules one after the other. -/
inductive IsRuleTable : List Lexeme → List Rule → Prop
  | nil : IsRuleTable [] []
  | cons {r : Rule} {rules : List Rule} {ls ls' : List Lexeme} (hr : r.IsWritten ls)
      (h : IsRuleTable ls' rules) : IsRuleTable (ls ++ ls') (r :: rules)

/-- The lexemes that write a rule. -/
def Rule.lexemes (r : Rule) : List Lexeme :=
  .name r.lhs.name :: .arrow :: r.rhs.map (.name ·.text) ++
    [.doubleArrow, .name r.action.name, .semicolon]

/-- A rule is written in one way only. -/
theorem Rule.isWritten_iff {r : Rule} {ls : List Lexeme} : r.IsWritten ls ↔ ls = r.lexemes := by
  constructor
  · rintro ⟨hlhs, hrhs⟩
    obtain rfl := Symbol.isNamed_iff.mp hlhs
    obtain rfl := Symbol.forall₂_isNamed_iff.mp hrhs
    simp [lexemes, Symbol.text]
  · rintro rfl
    have hnames : List.Forall₂ Symbol.IsNamed r.rhs (r.rhs.map Symbol.text) :=
      Symbol.forall₂_isNamed_iff.mpr rfl
    have : r.IsWritten _ := .mk (Symbol.isNamed_text (.nonterminal r.lhs)) hnames
    rwa [List.map_map] at this

/-- A list of rules is written in one way only. -/
theorem isRuleTable_iff {ls : List Lexeme} {rules : List Rule} :
    IsRuleTable ls rules ↔ ls = rules.flatMap Rule.lexemes := by
  constructor
  · intro h
    induction h with
    | nil => rfl
    | cons hr _ ih => rw [Rule.isWritten_iff.mp hr, ih, List.flatMap_cons]
  · rintro rfl
    induction rules with
    | nil => exact .nil
    | cons r rules ih => exact .cons (Rule.isWritten_iff.mpr rfl) ih

/-! ### Reading -/

namespace ReaderState

/-- A lexeme that may come in a state leads to the next state, and may end a rule. -/
inductive Step : ReaderState → Lexeme → ReaderState → Option Rule → Prop
  | lhs (n : Nonterminal) : Step .lhs (.name n.name) (.arrow n) none
  | arrow (n : Nonterminal) : Step (.arrow n) .arrow (.rhs n []) none
  | symbol (n : Nonterminal) (symbols : List Symbol) (a : Symbol) :
      Step (.rhs n symbols) (.name a.text) (.rhs n (symbols ++ [a])) none
  | doubleArrow (n : Nonterminal) (symbols : List Symbol) :
      Step (.rhs n symbols) .doubleArrow (.action n symbols) none
  | action (n : Nonterminal) (symbols : List Symbol) (a : Action) :
      Step (.action n symbols) (.name a.name) (.semicolon ⟨n, symbols, a⟩) none
  | semicolon (r : Rule) : Step (.semicolon r) .semicolon .lhs (some r)

/-- A lexeme is read if it may come, and not otherwise. -/
theorem read_eq_ok_iff {s s' : ReaderState} {l : PlacedLexeme} {r? : Option Rule} :
    s.read l = .ok (s', r?) ↔ s.Step l.lexeme s' r? := by
  obtain ⟨l, here⟩ := l
  constructor
  · intro h
    cases s with
    | lhs =>
      cases l with
      | name s =>
        simp only [read] at h
        cases hs : Symbol.ofName s with
        | error e => simp [hs] at h
        | ok a =>
          obtain rfl := Symbol.ofName_eq_ok_iff.mp hs
          cases a with
          | terminal t => simp [hs] at h
          | nonterminal n =>
            obtain ⟨rfl, rfl⟩ : arrow n = s' ∧ none = r? := by simpa [hs] using h
            exact .lhs n
      | _ => simp [read] at h
    | arrow n =>
      cases l with
      | arrow =>
        obtain ⟨rfl, rfl⟩ : rhs n [] = s' ∧ none = r? := by simpa [read] using h
        exact .arrow n
      | _ => simp [read] at h
    | rhs n symbols =>
      cases l with
      | name s =>
        simp only [read] at h
        cases hs : Symbol.ofName s with
        | error e => simp [hs] at h
        | ok a =>
          obtain rfl := Symbol.ofName_eq_ok_iff.mp hs
          obtain ⟨rfl, rfl⟩ : rhs n (symbols ++ [a]) = s' ∧ none = r? := by simpa [hs] using h
          exact .symbol n symbols a
      | doubleArrow =>
        obtain ⟨rfl, rfl⟩ : action n symbols = s' ∧ none = r? := by simpa [read] using h
        exact .doubleArrow n symbols
      | _ => simp [read] at h
    | action n symbols =>
      cases l with
      | name s =>
        simp only [read] at h
        cases hs : Action.ofName s with
        | error e => simp [hs] at h
        | ok a =>
          obtain rfl := Action.ofName_eq_ok_iff.mp hs
          obtain ⟨rfl, rfl⟩ : semicolon ⟨n, symbols, a⟩ = s' ∧ none = r? := by simpa [hs] using h
          exact .action n symbols a
      | _ => simp [read] at h
    | semicolon r =>
      cases l with
      | semicolon =>
        obtain ⟨rfl, rfl⟩ : lhs = s' ∧ some r = r? := by simpa [read] using h
        exact .semicolon r
      | _ => simp [read] at h
  · intro h
    cases h with
    | lhs n =>
      have := Symbol.ofName_text (.nonterminal n)
      rw [Symbol.text] at this
      simp [read, this]
    | symbol n symbols a => simp [read, Symbol.ofName_text]
    | action n symbols a => simp [read, Action.ofName_name]
    | _ => rfl

/-- The lexemes that have been read of a rule. -/
def taken : ReaderState → List Lexeme
  | lhs => []
  | arrow n => [.name n.name]
  | rhs n symbols => .name n.name :: .arrow :: symbols.map (.name ·.text)
  | action n symbols => .name n.name :: .arrow :: symbols.map (.name ·.text) ++ [.doubleArrow]
  | semicolon r => .name r.lhs.name :: .arrow :: r.rhs.map (.name ·.text) ++
      [.doubleArrow, .name r.action.name]

/-- A lexeme goes on with the rule, or ends it. -/
theorem Step.taken_append {s s' : ReaderState} {l : Lexeme} {r? : Option Rule}
    (h : s.Step l s' r?) : s.taken ++ [l] = r?.toList.flatMap Rule.lexemes ++ s'.taken := by
  cases h <;> simp [taken, Rule.lexemes]

/-- The lexemes lead from the first state to the second, and end the rules on the way. -/
inductive Steps : ReaderState → List Lexeme → ReaderState → List Rule → Prop
  | refl (s : ReaderState) : Steps s [] s []
  | cons {s s' s'' : ReaderState} {l : Lexeme} {ls : List Lexeme} {r? : Option Rule}
      {rules : List Rule} (h : s.Step l s' r?) (h' : Steps s' ls s'' rules) :
      Steps s (l :: ls) s'' (r?.toList ++ rules)

theorem Steps.taken_append {s s' : ReaderState} {ls : List Lexeme} {rules : List Rule}
    (h : s.Steps ls s' rules) : s.taken ++ ls = rules.flatMap Rule.lexemes ++ s'.taken := by
  induction h with
  | refl s => simp
  | cons h _ ih => rw [List.append_cons, h.taken_append, List.append_assoc, ih,
      List.flatMap_append, List.append_assoc]

/-- The symbols of a right-hand side are read one after the other. -/
theorem steps_symbols {n : Nonterminal} {before symbols : List Symbol} {ls : List Lexeme}
    {s : ReaderState} {rules : List Rule} (h : (rhs n (before ++ symbols)).Steps ls s rules) :
    (rhs n before).Steps (symbols.map (.name ·.text) ++ ls) s rules := by
  induction symbols generalizing before with
  | nil => rwa [List.append_nil] at h
  | cons a symbols ih =>
    rw [List.append_cons] at h
    exact .cons (.symbol n before a) (ih h)

/-- The lexemes of a rule are read as the rule. -/
theorem steps_rule (r : Rule) {ls : List Lexeme} {s : ReaderState} {rules : List Rule}
    (h : lhs.Steps ls s rules) : lhs.Steps (r.lexemes ++ ls) s (r :: rules) := by
  have hend : (rhs r.lhs r.rhs).Steps (.doubleArrow :: .name r.action.name :: .semicolon :: ls) s
      (r :: rules) :=
    .cons (.doubleArrow r.lhs r.rhs) (.cons (.action r.lhs r.rhs r.action) (.cons (.semicolon r) h))
  have hsymbols : (rhs r.lhs []).Steps _ s (r :: rules) := steps_symbols hend
  have := Steps.cons (.lhs r.lhs) (.cons (.arrow r.lhs) hsymbols)
  simpa [Rule.lexemes] using this

theorem steps_flatMap_lexemes (rules : List Rule) :
    lhs.Steps (rules.flatMap Rule.lexemes) lhs rules := by
  induction rules with
  | nil => exact .refl lhs
  | cons r rules ih => exact steps_rule r ih

/-- Lexemes are read as rules if and only if they lead back to the beginning of a rule. -/
theorem readAll_eq_ok_iff {s : ReaderState} {ls : List PlacedLexeme} {rules : List Rule} :
    s.readAll ls = .ok rules ↔ s.Steps (ls.map PlacedLexeme.lexeme) lhs rules := by
  induction ls generalizing s rules with
  | nil =>
    constructor
    · intro h
      cases s with
      | lhs =>
        obtain rfl : [] = rules := Except.ok.inj h
        exact .refl lhs
      | _ => simp [readAll, finish, Except.map] at h
    · intro h
      cases h
      rfl
  | cons l ls ih =>
    rw [readAll]
    constructor
    · intro h
      cases hread : s.read l with
      | error e => simp [hread] at h
      | ok p =>
        obtain ⟨s', r?⟩ := p
        rw [hread] at h
        cases hrest : s'.readAll ls with
        | error e => simp [hrest, Except.map] at h
        | ok rules' =>
          obtain rfl : r?.toList ++ rules' = rules := by simpa [hrest, Except.map] using h
          exact .cons (read_eq_ok_iff.mp hread) (ih.mp hrest)
    · intro h
      cases h with
      | cons hstep hrest => simp [read_eq_ok_iff.mpr hstep, ih.mpr hrest, Except.map]

/-- From the beginning of a rule, lexemes are read as the rules that they write. -/
theorem readAll_lhs_eq_ok_iff {ls : List PlacedLexeme} {rules : List Rule} :
    lhs.readAll ls = .ok rules ↔ ls.map PlacedLexeme.lexeme = rules.flatMap Rule.lexemes := by
  rw [readAll_eq_ok_iff]
  constructor
  · intro h
    simpa [taken] using h.taken_append
  · intro h
    rw [h]
    exact steps_flatMap_lexemes rules

end ReaderState

/-- A rule is written without stray characters. -/
theorem Rule.stray_notMem_lexemes (r : Rule) (c : Char) : .stray c ∉ r.lexemes := by
  simp [lexemes]

/-- A text is read in two passes as rules if and only if it is cut into the lexemes that write
them. -/
theorem readLexemes_eq_ok_iff {text : String} {rules : List Rule} :
    readLexemes text = .ok rules ↔ Text.IsCutInto text.toList (rules.flatMap Rule.lexemes) := by
  have hstray (c : Char) : .stray c ∉ rules.flatMap Rule.lexemes := by
    rw [List.mem_flatMap]
    rintro ⟨r, -, hc⟩
    exact r.stray_notMem_lexemes c hc
  rw [readLexemes, ReaderState.readAll_lhs_eq_ok_iff, Text.isCutInto_iff, and_iff_left hstray]

end NounPhrase
