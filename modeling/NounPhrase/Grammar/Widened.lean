import NounPhrase.Item

/-!
# Widened grammars

A parse sees the grammar with a sentence rule of its own: every time it recovers, the sentence
rule takes one more recovery symbol at its end. All other rules stay as they are.

## Main definitions

* `WidenedGrammar`: a grammar and the number of symbols added to its sentence rule.
* `WidenedGrammar.rule?`, `WidenedGrammar.rhs`: the rule of a number and its right-hand side.
* `WidenedGrammar.next?`, `WidenedGrammar.completed?`: the symbol that an item waits for, and the
  nonterminal that it has found.
* `WidenedGrammar.widen`, `WidenedGrammar.entryLength`: one more symbol, and the number of symbols
  of the sentence rule.
* `WidenedGrammar.itemText`: an item written out.
-/

namespace NounPhrase

/-- A grammar whose sentence rule ends in `widenings` more recovery symbols. -/
structure WidenedGrammar where
  grammar : Grammar
  widenings : Nat

/-- The grammar as every parse begins with it. -/
def Grammar.unwidened (g : Grammar) : WidenedGrammar := ⟨g, 0⟩

namespace WidenedGrammar

/-- One more recovery symbol at the end of the sentence rule. -/
def widen (w : WidenedGrammar) : WidenedGrammar := { w with widenings := w.widenings + 1 }

/-- The sentence rule. -/
def entry (w : WidenedGrammar) : Rule :=
  { w.grammar.entry with
    rhs := w.grammar.entry.rhs ++ List.replicate w.widenings (.nonterminal w.grammar.recovery) }

/-- The number of symbols of the sentence rule. -/
def entryLength (w : WidenedGrammar) : Nat := w.entry.rhs.length

/-- The rule with the given number. -/
def rule? (w : WidenedGrammar) (id : RuleId) : Option Rule :=
  if id = Grammar.entryId then some w.entry else w.grammar.rule? id

/-- The right-hand side of a rule; a number without a rule has no symbols. -/
def rhs (w : WidenedGrammar) (id : RuleId) : List Symbol := (w.rule? id).elim [] Rule.rhs

/-- The symbol after the dot. -/
def next? (w : WidenedGrammar) (i : Item) : Option Symbol := (w.rhs i.rule)[i.dot]?

/-- The nonterminal that the item has found, if no symbol is left after its dot. -/
def completed? (w : WidenedGrammar) (i : Item) : Option Nonterminal :=
  if w.next? i = none then (w.rule? i.rule).map Rule.lhs else none

/-- The item with which every parse begins: the start rule before its first symbol. -/
def startItem (w : WidenedGrammar) : Item := .start w.grammar.startId 0

/-- The item with which a parse has found a sentence and the end of the input. -/
def acceptItem (w : WidenedGrammar) : Item := ⟨w.grammar.startId, 2, 0⟩

/-- A rule with a dot at the place of the item, and the origin in parentheses. -/
def itemText (w : WidenedGrammar) (i : Item) : String :=
  let symbols (ss : List Symbol) : String := String.join (ss.map (" " ++ ·.text))
  (w.rule? i.rule).elim "" (·.lhs.name) ++ " ->" ++ symbols ((w.rhs i.rule).take i.dot) ++ " •" ++
    symbols ((w.rhs i.rule).drop i.dot) ++ " (" ++ toString i.origin ++ ")"

@[simp] theorem entryLength_widen (w : WidenedGrammar) :
    w.widen.entryLength = w.entryLength + 1 := by
  simp [entryLength, entry, widen, Nat.add_assoc]

end WidenedGrammar

end NounPhrase
