import NounPhrase.Grammar.Fault
import NounPhrase.FirstTable

/-!
# Grammars

A grammar is a rule table that has passed its checks, together with the rule
`START -> <sentence> eof` that closes the input. The first rule is the sentence rule. It is the
only rule for its nonterminal, and it ends in a nonterminal, the recovery symbol, of which
recovery can append further copies.

## Main definitions

* `RuleId`, `RuleIndex`: the number of a rule in its grammar, and the numbers by left-hand sides.
* `Grammar`: a rule table that has passed its checks.
* `Grammar.ofRules`: the checks, in the order in which faults are reported.
* `Grammar.rules`, `Grammar.rule?`, `Grammar.rulesFor`: all rules, the start rule last; the rule
  of a number; and the numbers of the rules for a nonterminal.
* `Grammar.admits`: whether a rule can be of use before a terminal.
* `Grammar.text`: the printed form.

## Main results

* `Grammar.defined`, `Grammar.arity`: every nonterminal on a right-hand side has a rule, and every
  action accepts the children that its rule gives it.
* `Grammar.rule?_eq`, `Grammar.rulesFor_eq`: the number of a rule is its place among all rules, and
  those of the rules for a nonterminal are listed in their order.
-/

namespace NounPhrase

/-- The number of a rule in its grammar. -/
structure RuleId where
  index : Nat
  deriving DecidableEq, Repr

/-- The number after a hash sign. -/
def RuleId.text (id : RuleId) : String := "#" ++ toString id.index

/-- The numbers of the rules by their left-hand sides. -/
abbrev RuleIndex := List (Nonterminal × List RuleId)

namespace RuleIndex

/-- The numbers listed for a nonterminal; there may be no list for it. -/
def numbersOf (index : RuleIndex) (n : Nonterminal) : List RuleId := (index.lookup n).getD []

/-- Puts a number at the end of those listed for a nonterminal. -/
def push (n : Nonterminal) (id : RuleId) : RuleIndex → RuleIndex
  | [] => [(n, [id])]
  | e :: index => if n = e.1 then (n, e.2 ++ [id]) :: index else e :: push n id index

/-- The rules entered one after the other, with their places in the list as their numbers. -/
def ofRules (rules : List Rule) : RuleIndex :=
  rules.zipIdx.foldl (fun index r => index.push r.1.lhs ⟨r.2⟩) []

theorem numbersOf_cons (e : Nonterminal × List RuleId) (index : RuleIndex) (m : Nonterminal) :
    numbersOf (e :: index) m = if m = e.1 then e.2 else numbersOf index m := by
  obtain ⟨n, ids⟩ := e
  rw [numbersOf, List.lookup_cons]
  by_cases h : m = n
  · simp [h]
  · rw [if_neg h, beq_false_of_ne h, numbersOf]

theorem numbersOf_push (index : RuleIndex) (n m : Nonterminal) (id : RuleId) :
    (index.push n id).numbersOf m =
      if m = n then index.numbersOf m ++ [id] else index.numbersOf m := by
  fun_induction push n id index with
  | case1 => rw [numbersOf_cons]; rfl
  | case2 e index => grind [numbersOf_cons]
  | case3 e index he ih => grind [numbersOf_cons]

/-- The numbers listed for a nonterminal are the places of its rules. -/
theorem numbersOf_ofRules (rules : List Rule) (n : Nonterminal) :
    (ofRules rules).numbersOf n = (rules.zipIdx.filter (·.1.lhs = n)).map (⟨·.2⟩) := by
  suffices h : ∀ (entries : List (Rule × Nat)) (index : RuleIndex),
      (entries.foldl (fun index r => index.push r.1.lhs ⟨r.2⟩) index).numbersOf n =
        index.numbersOf n ++ (entries.filter (·.1.lhs = n)).map (⟨·.2⟩) from h _ []
  intro entries
  induction entries with
  | nil => simp
  | cons e entries ih =>
    intro index
    rw [List.foldl_cons, ih, numbersOf_push, List.filter_cons]
    by_cases he : n = e.1.lhs
    · simp [he]
    · simp [he, Ne.symm he]

end RuleIndex

/-- The rule that closes the input after a sentence. -/
def Rule.start (sentence : Nonterminal) : Rule :=
  ⟨.start, [.nonterminal sentence, .terminal .eof], .start⟩

/-- The rules of a grammar: the sentence rule, the others, and the start rule. -/
def augmented (entry : Rule) (others : List Rule) : List Rule :=
  entry :: others ++ [.start entry.lhs]

/-- A rule table that has passed its checks. -/
structure Grammar where
  /-- The sentence rule. -/
  entry : Rule
  /-- The other rules in the order of declaration. -/
  others : List Rule
  /-- The last symbol of the sentence rule. -/
  recovery : Nonterminal
  /-- All rules, with the start rule at the end. -/
  arena : Array Rule := (augmented entry others).toArray
  /-- The numbers of all rules by their left-hand sides. -/
  index : RuleIndex := .ofRules (augmented entry others)
  /-- The first sets of all rules. -/
  first : FirstTable := .ofRules (augmented entry others)
  /-- No two rules have the same shape. -/
  distinct : (entry :: others).Pairwise (¬ ·.SameShape ·)
  /-- The reserved nonterminal is not used. -/
  start_unused : ∀ r ∈ entry :: others, r.mentions .start = false
  /-- The sentence rule is the only one for its nonterminal. -/
  entry_unique : ∀ r ∈ others, r.lhs ≠ entry.lhs
  /-- The sentence rule ends in the recovery symbol. -/
  entry_ends : entry.rhs.getLast? = some (.nonterminal recovery)
  /-- Every nonterminal on a right-hand side has a rule, and every action accepts the number of
  children that its rule gives it. -/
  faultless : ∀ r ∈ entry :: others, r.fault? (entry :: others) = none
  arena_eq : arena = (augmented entry others).toArray := by rfl
  index_eq : index = .ofRules (augmented entry others) := by rfl
  first_eq : first = .ofRules (augmented entry others) := by rfl

namespace Grammar

/-! ### Checking a rule table -/

/-- The grammar of a sentence rule and other rules without repeated shapes. -/
def check (entry : Rule) (others : List Rule)
    (distinct : (entry :: others).Pairwise (¬ ·.SameShape ·)) : Except GrammarFault Grammar :=
  if start_unused : ∀ r ∈ entry :: others, r.mentions .start = false then
    if entry_unique : ∀ r ∈ others, r.lhs ≠ entry.lhs then
      match entry_ends : entry.rhs.getLast? with
      | some (.nonterminal recovery) =>
        match faults : (entry :: others).findSome? (·.fault? (entry :: others)) with
        | none =>
          .ok { entry, others, recovery, distinct, start_unused, entry_unique, entry_ends
                faultless := List.findSome?_eq_none_iff.1 faults }
        | some fault => .error fault
      | _ => .error (.entryNotWidenable entry)
    else .error (.entryAlternatives entry.lhs ((entry :: others).countP (·.lhs == entry.lhs)))
  else .error (.reserved .start)

/-- The grammar of a list of rules whose first rule is the sentence rule. Of rules with the same
shape the first is kept. -/
def ofRules (rules : List Rule) : Except GrammarFault Grammar :=
  match h : distinctShapes rules with
  | [] => .error .empty
  | entry :: others => check entry others (h ▸ pairwise_distinctShapes rules)

/-- Every nonterminal on a right-hand side has a rule. -/
theorem defined (g : Grammar) {r : Rule} (hr : r ∈ g.entry :: g.others) {n : Nonterminal}
    (hn : .nonterminal n ∈ r.rhs) : ∃ s ∈ g.entry :: g.others, s.lhs = n :=
  (Rule.fault?_eq_none (g.faultless r hr)).1 n hn

/-- Every action accepts the number of children that its rule gives it. -/
theorem arity (g : Grammar) {r : Rule} (hr : r ∈ g.entry :: g.others) :
    r.action.accepts r.rhs.length :=
  (Rule.fault?_eq_none (g.faultless r hr)).2

/-! ### Rules -/

/-- All rules, with the start rule at the end. -/
def rules (g : Grammar) : List Rule := augmented g.entry g.others

/-- The nonterminal of the sentence rule. -/
def sentence (g : Grammar) : Nonterminal := g.entry.lhs

/-- The number of the sentence rule. -/
def entryId : RuleId := ⟨0⟩

/-- The number of the start rule. -/
def startId (g : Grammar) : RuleId := ⟨g.others.length + 1⟩

/-- The rule with the given number. -/
def rule? (g : Grammar) (id : RuleId) : Option Rule := g.arena[id.index]?

theorem rule?_eq (g : Grammar) (id : RuleId) : g.rule? id = g.rules[id.index]? := by
  simp [rule?, g.arena_eq, rules]

/-- The numbers of the rules for a nonterminal in the order of declaration. -/
def rulesFor (g : Grammar) (n : Nonterminal) : List RuleId := g.index.numbersOf n

theorem rulesFor_eq (g : Grammar) (n : Nonterminal) :
    g.rulesFor n = (g.rules.zipIdx.filter (·.1.lhs = n)).map (⟨·.2⟩) := by
  rw [rulesFor, g.index_eq, RuleIndex.numbersOf_ofRules, rules]

theorem mem_rulesFor {g : Grammar} {n : Nonterminal} {id : RuleId} :
    id ∈ g.rulesFor n ↔ ∃ r, g.rule? id = some r ∧ r.lhs = n := by
  rw [rulesFor_eq, rule?_eq]
  simp only [List.mem_map, List.mem_filter, decide_eq_true_eq]
  constructor
  · rintro ⟨⟨r, k⟩, ⟨hr, rfl⟩, rfl⟩
    exact ⟨r, List.mk_mem_zipIdx_iff_getElem?.1 hr, rfl⟩
  · rintro ⟨r, hr, rfl⟩
    exact ⟨(r, id.index), ⟨List.mk_mem_zipIdx_iff_getElem?.2 hr, rfl⟩, rfl⟩

/-- Whether a rule with right-hand side `rhs` can be of use where `lookahead` comes next, judged
by its first symbol. Before the end of the input every nonterminal is given the benefit of the
doubt. -/
def admits (g : Grammar) (lookahead : Terminal) (rhs : List Symbol) : Bool :=
  match rhs with
  | [] => true
  | .terminal t :: _ => t == lookahead
  | .nonterminal n :: _ => lookahead == .eof || g.first.admits n lookahead

/-! ### The printed form -/

/-- A head of comments with the sentence symbol, the recovery symbol and the first sets, then the
rules in rule notation, one to a line. -/
def text (g : Grammar) : String :=
  "//** sentence: " ++ g.sentence.name ++ "\n" ++
  "//** recovers with: " ++ g.recovery.name ++ "\n" ++
  String.join (g.first.sets.map fun e => "//** first " ++ e.1.name ++ ": " ++ e.2.text ++ "\n") ++
  String.join (g.rules.map (·.text ++ ";\n"))

end Grammar

end NounPhrase
