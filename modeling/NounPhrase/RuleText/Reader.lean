import NounPhrase.Grammar.Basic
import NounPhrase.RuleText.Regex

/-!
# Reading rule notation

A rule is written as its left-hand side, an arrow, its symbols, a double arrow, its action and a
semicolon. The reader takes one of these after the other from the front of the text. Where it may
stand behind layout it skips the layout first. What it needs and does not find is an error, whose
text names the parts of the rule from the outside in.

## Main definitions

* `RuleText.optionalMatch`, `RuleText.neededMatch`: a regular expression at the front of a text.
* `RuleText.optionalChar`, `RuleText.neededChar`: a character at the front of a text.
* `RuleText.readName`, `RuleText.readSymbol`, `RuleText.readLhs`, `RuleText.readAction`,
  `RuleText.readRhs`: the parts of a rule.
* `RuleText.readRule`, `RuleText.readTable`: a rule, and rules up to the end of the text.
* `readRules`: the rules of a text.
* `Grammar.ofText`: the grammar of a text.
-/

namespace NounPhrase

/-- The first forty characters of a text, or as many as its first line has. -/
def Text.excerpt (cs : List Char) : String := String.ofList ((cs.takeWhile (· != '\n')).take 40)

namespace RuleText

/-! ### Expressions and characters at the front -/

/-- The text of the error that `what` does not stand at the front. -/
def noMatch (what : String) (here : List Char) : String :=
  "couldn't match " ++ what ++ " at " ++ Text.excerpt here

/-- Takes a match of the expression from the front of the text if there is one. -/
def optionalMatch (re : Regex) (cs : List Char) : Option (List Char) × List Char :=
  match re.find cs with
  | some m => if m.before ≠ [] then (none, cs) else (some m.taken, m.rest)
  | none => (none, cs)

/-- It makes no difference what the search finds behind the front. -/
theorem optionalMatch_eq (re : Regex) (cs : List Char) :
    optionalMatch re cs = match re.front cs with
      | some (taken, rest) => (some taken, rest)
      | none => (none, cs) := by
  unfold optionalMatch
  cases h : re.front cs with
  | some p => rw [Regex.find_of_front_eq_some h]; rfl
  | none =>
    have hbefore := Regex.find_of_front_eq_none h
    cases hfind : re.find cs with
    | none => rfl
    | some m => exact if_pos (hbefore m hfind)

/-- Takes a match of the expression from the front of the text. -/
def neededMatch (re : Regex) (cs : List Char) : Except String (List Char × List Char) :=
  match optionalMatch re cs with
  | (some taken, rest) => .ok (taken, rest)
  | (none, _) => .error (noMatch re.text cs)

/-- Takes the character from the front of the text if it stands there. -/
def optionalChar (c : Char) (cs : List Char) : Option Char × List Char :=
  match cs with
  | [] => (none, [])
  | x :: rest => if x = c then (some c, rest) else (none, x :: rest)

/-- Takes the character from the front of the text. -/
def neededChar (c : Char) (cs : List Char) : Except String (Char × List Char) :=
  match optionalChar c cs with
  | (some c, rest) => .ok (c, rest)
  | (none, _) => .error (noMatch c.toString cs)

/-- The text without the layout in front. -/
def skipLayout (cs : List Char) : List Char := (optionalMatch .layout cs).2

/-! ### The parts of a rule -/

/-- Reads a name. -/
def readName (cs : List Char) : Except String (String × List Char) := do
  let (name, rest) ← (neededMatch .name cs).mapError ("name: " ++ ·)
  return (String.ofList name, rest)

/-- Reads the name of a symbol. -/
def readSymbol (cs : List Char) : Except String (Symbol × List Char) := do
  let (name, rest) ← (readName cs).mapError ("symbol: " ++ ·)
  let symbol ← (Symbol.ofName name).mapError UnknownName.message
  return (symbol, rest)

/-- Reads the name of a symbol that is no terminal. -/
def readLhs (cs : List Char) : Except String (Nonterminal × List Char) := do
  let (symbol, rest) ← readSymbol cs
  match symbol with
  | .nonterminal n => return (n, rest)
  | .terminal t => throw ("expected symbol, got terminal " ++ t.name ++ ": " ++ Text.excerpt cs)

/-- Reads the name of an action. -/
def readAction (cs : List Char) : Except String (Action × List Char) := do
  let (name, rest) ← (readName cs).mapError ("action: " ++ ·)
  let action ← (Action.ofName name).mapError UnknownName.message
  return (action, rest)

/-! ### The reader goes forward -/

section
variable {ε ε' α β : Type} {cs rest : List Char}

theorem bind_eq_ok_iff {x : Except ε α} {f : α → Except ε β} {b : β} :
    x >>= f = .ok b ↔ ∃ a, x = .ok a ∧ f a = .ok b := by
  cases x <;> simp [bind, Except.bind]

@[simp] theorem mapError_error (f : ε → ε') (e : ε) :
    (.error e : Except ε α).mapError f = .error (f e) :=
  rfl

@[simp] theorem mapError_ok (f : ε → ε') (a : α) : (.ok a : Except ε α).mapError f = .ok a := rfl

theorem mapError_eq_ok_iff {x : Except ε α} {f : ε → ε'} {a : α} :
    x.mapError f = .ok a ↔ x = .ok a := by
  cases x <;> simp

theorem length_skipLayout_le (cs : List Char) : (skipLayout cs).length ≤ cs.length := by
  rw [skipLayout, optionalMatch_eq]
  cases h : Regex.layout.front cs with
  | none => exact Nat.le_refl _
  | some p => exact Nat.le_of_lt (Regex.length_lt_of_front h)

theorem length_lt_of_optionalMatch {re : Regex} {taken : List Char}
    (h : optionalMatch re cs = (some taken, rest)) : rest.length < cs.length := by
  rw [optionalMatch_eq] at h
  cases hfront : re.front cs with
  | none => simp [hfront] at h
  | some p =>
    obtain ⟨rfl, rfl⟩ : p.1 = taken ∧ p.2 = rest := by simpa [hfront] using h
    exact Regex.length_lt_of_front hfront

theorem length_lt_of_neededMatch {re : Regex} {taken : List Char}
    (h : neededMatch re cs = .ok (taken, rest)) : rest.length < cs.length := by
  unfold neededMatch at h
  split at h
  · next hmatch =>
    obtain ⟨rfl, rfl⟩ := Prod.mk.inj (Except.ok.inj h)
    exact length_lt_of_optionalMatch hmatch
  · cases h

theorem length_lt_of_neededChar {c x : Char} (h : neededChar c cs = .ok (x, rest)) :
    rest.length < cs.length := by
  cases cs with
  | nil => cases h
  | cons y cs =>
    unfold neededChar optionalChar at h
    by_cases hy : y = c
    · obtain ⟨-, rfl⟩ : c = x ∧ cs = rest := by simpa [hy] using h
      exact Nat.lt_succ_self _
    · simp [hy] at h

theorem length_lt_of_readName {name : String} (h : readName cs = .ok (name, rest)) :
    rest.length < cs.length := by
  obtain ⟨⟨taken, rest'⟩, hmatch, hrest⟩ := bind_eq_ok_iff.mp h
  obtain ⟨-, rfl⟩ := Prod.mk.inj (Except.ok.inj hrest)
  exact length_lt_of_neededMatch (mapError_eq_ok_iff.mp hmatch)

theorem length_lt_of_readSymbol {symbol : Symbol} (h : readSymbol cs = .ok (symbol, rest)) :
    rest.length < cs.length := by
  obtain ⟨⟨name, rest'⟩, hname, h⟩ := bind_eq_ok_iff.mp h
  obtain ⟨symbol', -, hrest⟩ := bind_eq_ok_iff.mp h
  obtain ⟨-, rfl⟩ := Prod.mk.inj (Except.ok.inj hrest)
  exact length_lt_of_readName (mapError_eq_ok_iff.mp hname)

theorem length_lt_of_readLhs {lhs : Nonterminal} (h : readLhs cs = .ok (lhs, rest)) :
    rest.length < cs.length := by
  obtain ⟨⟨symbol, rest'⟩, hsymbol, h⟩ := bind_eq_ok_iff.mp h
  cases symbol with
  | terminal t => cases h
  | nonterminal n =>
    obtain ⟨-, rfl⟩ := Prod.mk.inj (Except.ok.inj h)
    exact length_lt_of_readSymbol hsymbol

theorem length_lt_of_readAction {action : Action} (h : readAction cs = .ok (action, rest)) :
    rest.length < cs.length := by
  obtain ⟨⟨name, rest'⟩, hname, h⟩ := bind_eq_ok_iff.mp h
  obtain ⟨action', -, hrest⟩ := bind_eq_ok_iff.mp h
  obtain ⟨-, rfl⟩ := Prod.mk.inj (Except.ok.inj hrest)
  exact length_lt_of_readName (mapError_eq_ok_iff.mp hname)

end

/-! ### Rules -/

/-- Reads symbols up to the double arrow, and the layout behind it. The symbols read so far are
given, and so is the left-hand side, which the text of an error names. -/
def readRhs (lhs : Nonterminal) (symbols : List Symbol) (cs : List Char) :
    Except String (List Symbol × List Char) :=
  let here := skipLayout cs
  match optionalMatch .doubleArrow here with
  | (some _, rest) => .ok (symbols, skipLayout rest)
  | (none, _) =>
    if here.head? = some ';' ∨ here = [] then
      .error ("rule for " ++ lhs.name ++ " has no action: " ++ Text.excerpt here)
    else
      match _h : readSymbol here with
      | .error e => .error ("rule production: " ++ e)
      | .ok (symbol, rest) => readRhs lhs (symbols ++ [symbol]) rest
termination_by cs.length
decreasing_by exact Nat.lt_of_lt_of_le (length_lt_of_readSymbol _h) (length_skipLayout_le cs)

theorem length_lt_of_readRhs {lhs : Nonterminal} {before symbols : List Symbol}
    {cs rest : List Char} (h : readRhs lhs before cs = .ok (symbols, rest)) :
    rest.length < cs.length := by
  fun_induction readRhs lhs before cs with
  | case1 before cs here taken rest' hmatch =>
    obtain ⟨-, rfl⟩ := Prod.mk.inj (Except.ok.inj h)
    calc (skipLayout rest').length
      _ ≤ rest'.length := length_skipLayout_le rest'
      _ < here.length := length_lt_of_optionalMatch hmatch
      _ ≤ cs.length := length_skipLayout_le cs
  | case2 => cases h
  | case3 => cases h
  | case4 before cs here _ _ _ symbol rest' hsymbol ih =>
    calc rest.length
      _ < rest'.length := ih h
      _ < here.length := length_lt_of_readSymbol hsymbol
      _ ≤ cs.length := length_skipLayout_le cs

/-- Reads a rule with the semicolon that ends it. -/
def readRule (cs : List Char) : Except String (Rule × List Char) := do
  let (lhs, rest) ← (readLhs cs).mapError ("rule symbol: " ++ ·)
  let (_, rest) ← (neededMatch .arrow (skipLayout rest)).mapError ("rule arrow: " ++ ·)
  let (rhs, rest) ← readRhs lhs [] rest
  let (action, rest) ← (readAction rest).mapError (("rule " ++ lhs.name ++ ": ") ++ ·)
  let (_, rest) ← (neededChar ';' (skipLayout rest)).mapError ("rule end: " ++ ·)
  return (⟨lhs, rhs, action⟩, rest)

theorem length_lt_of_readRule {cs rest : List Char} {r : Rule} (h : readRule cs = .ok (r, rest)) :
    rest.length < cs.length := by
  obtain ⟨⟨lhs, rest₁⟩, hlhs, h⟩ := bind_eq_ok_iff.mp h
  obtain ⟨⟨_, rest₂⟩, harrow, h⟩ := bind_eq_ok_iff.mp h
  obtain ⟨⟨rhs, rest₃⟩, hrhs, h⟩ := bind_eq_ok_iff.mp h
  obtain ⟨⟨action, rest₄⟩, haction, h⟩ := bind_eq_ok_iff.mp h
  obtain ⟨⟨_, rest₅⟩, hend, h⟩ := bind_eq_ok_iff.mp h
  obtain ⟨-, rfl⟩ := Prod.mk.inj (Except.ok.inj h)
  calc rest₅.length
    _ < (skipLayout rest₄).length := length_lt_of_neededChar (mapError_eq_ok_iff.mp hend)
    _ ≤ rest₄.length := length_skipLayout_le rest₄
    _ < rest₃.length := length_lt_of_readAction (mapError_eq_ok_iff.mp haction)
    _ < rest₂.length := length_lt_of_readRhs hrhs
    _ < (skipLayout rest₁).length := length_lt_of_neededMatch (mapError_eq_ok_iff.mp harrow)
    _ ≤ rest₁.length := length_skipLayout_le rest₁
    _ < cs.length := length_lt_of_readLhs (mapError_eq_ok_iff.mp hlhs)

/-- Reads rules up to the end of the text. The rules read so far are given. -/
def readTable (rules : List Rule) (cs : List Char) : Except String (List Rule × List Char) :=
  let here := skipLayout cs
  if here = [] then .ok (rules, here)
  else
    match _h : readRule here with
    | .error e => .error e
    | .ok (rule, rest) => readTable (rules ++ [rule]) rest
termination_by cs.length
decreasing_by exact Nat.lt_of_lt_of_le (length_lt_of_readRule _h) (length_skipLayout_le cs)

end RuleText

/-- The rules of a text, and the text behind them. -/
def readRules (text : String) : Except String (List Rule × List Char) :=
  RuleText.readTable [] text.toList

/-- The reason why a text is no grammar. -/
inductive GrammarTextFault
  /-- It is no list of rules. The message says where and why. -/
  | reading (message : String)
  /-- Its rules are no grammar. -/
  | table (fault : GrammarFault)

/-- The grammar of a text in rule notation. The first rule is the sentence rule. -/
def Grammar.ofText (text : String) : Except GrammarTextFault Grammar :=
  match readRules text with
  | .error message => .error (.reading message)
  | .ok (rules, _) => (ofRules rules).mapError .table

end NounPhrase
