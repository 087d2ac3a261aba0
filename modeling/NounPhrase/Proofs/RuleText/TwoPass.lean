import NounPhrase.Proofs.RuleText.Lexemes
import NounPhrase.RuleText.Reader

/-!
# Reading lexemes

A text can be read in two passes: first it is cut into lexemes, and then these are read one after
the other. What may come next depends only on the part of the rule that has been read. The first
lexeme that may not come is the fault of the text.

## Main definitions

* `RuleTextFault`, `RuleTextFault.message`: the faults and their texts.
* `ReaderState`: what comes next in a rule, with the part of the rule that has been read.
* `ReaderState.read`, `ReaderState.finish`: one lexeme, and the end of the text.
* `ReaderState.readAll`: a list of lexemes and the end of the text.
* `readLexemes`: the rules of a text, read in two passes.
-/

namespace NounPhrase

/-- The reason why a text is no list of rules, with the text at the place where it shows. -/
inductive RuleTextFault
  /-- A rule does not begin with a name. -/
  | lhsMissing (here : List Char)
  /-- A rule begins with a name that is unknown. -/
  | lhsUnknown (e : UnknownName)
  /-- A rule begins with a terminal. -/
  | lhsTerminal (t : Terminal) (here : List Char)
  /-- The left-hand side is not followed by an arrow. -/
  | arrowMissing (here : List Char)
  /-- What should be a symbol or a double arrow is neither. -/
  | symbolMissing (here : List Char)
  /-- A symbol on the right is unknown. -/
  | symbolUnknown (e : UnknownName)
  /-- The rule for `lhs` ends before its double arrow. -/
  | actionOmitted (lhs : Nonterminal) (here : List Char)
  /-- The double arrow of the rule for `lhs` is not followed by a name. -/
  | actionMissing (lhs : Nonterminal) (here : List Char)
  /-- The action of the rule for `lhs` is unknown. -/
  | actionUnknown (lhs : Nonterminal) (e : UnknownName)
  /-- The action is not followed by a semicolon. -/
  | semicolonMissing (here : List Char)
  deriving DecidableEq, Repr

/-- The text of a fault, from the part of the rule down to what was expected there. -/
def RuleTextFault.message : RuleTextFault → String
  | lhsMissing here => "rule symbol: " ++ ("symbol: " ++ noName here)
  | lhsUnknown e => "rule symbol: " ++ e.message
  | lhsTerminal t here => "rule symbol: " ++
      ("expected symbol, got terminal " ++ t.name ++ ": " ++ Text.excerpt here)
  | arrowMissing here => "rule arrow: " ++ RuleText.noMatch "->" here
  | symbolMissing here => "rule production: " ++ ("symbol: " ++ noName here)
  | symbolUnknown e => "rule production: " ++ e.message
  | actionOmitted lhs here => "rule for " ++ lhs.name ++ " has no action: " ++ Text.excerpt here
  | actionMissing lhs here => "rule " ++ lhs.name ++ ": " ++ ("action: " ++ noName here)
  | actionUnknown lhs e => "rule " ++ lhs.name ++ ": " ++ e.message
  | semicolonMissing here => "rule end: " ++ RuleText.noMatch ";" here
where
  noName (here : List Char) : String := "name: " ++ RuleText.noMatch "[a-zA-Z0-9_]+" here

/-- What comes next in a rule, with what has been read of it. -/
inductive ReaderState
  | lhs
  | arrow (lhs : Nonterminal)
  | rhs (lhs : Nonterminal) (symbols : List Symbol)
  | action (lhs : Nonterminal) (symbols : List Symbol)
  | semicolon (rule : Rule)

namespace ReaderState

/-- Reads one lexeme. Gives the next state, and the rule that ends with the lexeme. -/
def read (s : ReaderState) (l : PlacedLexeme) :
    Except RuleTextFault (ReaderState × Option Rule) :=
  match s, l.lexeme with
  | lhs, .name s =>
    match Symbol.ofName s with
    | .ok (.nonterminal n) => .ok (arrow n, none)
    | .ok (.terminal t) => .error (.lhsTerminal t l.here)
    | .error e => .error (.lhsUnknown e)
  | lhs, _ => .error (.lhsMissing l.here)
  | arrow n, .arrow => .ok (rhs n [], none)
  | arrow _, _ => .error (.arrowMissing l.here)
  | rhs n symbols, .name s =>
    match Symbol.ofName s with
    | .ok symbol => .ok (rhs n (symbols ++ [symbol]), none)
    | .error e => .error (.symbolUnknown e)
  | rhs n symbols, .doubleArrow => .ok (action n symbols, none)
  | rhs n _, .semicolon => .error (.actionOmitted n l.here)
  | rhs _ _, _ => .error (.symbolMissing l.here)
  | action n symbols, .name s =>
    match Action.ofName s with
    | .ok a => .ok (semicolon ⟨n, symbols, a⟩, none)
    | .error e => .error (.actionUnknown n e)
  | action n _, _ => .error (.actionMissing n l.here)
  | semicolon rule, .semicolon => .ok (lhs, some rule)
  | semicolon _, _ => .error (.semicolonMissing l.here)

/-- Reads the end of the text, which may come only between two rules. -/
def finish : ReaderState → Except RuleTextFault Unit
  | lhs => .ok ()
  | arrow _ => .error (.arrowMissing [])
  | rhs n _ => .error (.actionOmitted n [])
  | action n _ => .error (.actionMissing n [])
  | semicolon _ => .error (.semicolonMissing [])

/-- Reads a list of lexemes and then the end of the text. -/
def readAll (s : ReaderState) : List PlacedLexeme → Except RuleTextFault (List Rule)
  | [] => s.finish.map fun _ => []
  | l :: ls =>
    match s.read l with
    | .error e => .error e
    | .ok (s, rule?) => (readAll s ls).map (rule?.toList ++ ·)

end ReaderState

/-- The rules of a text, which is first cut into lexemes. -/
def readLexemes (text : String) : Except RuleTextFault (List Rule) :=
  ReaderState.lhs.readAll (PlacedLexeme.ofText text.toList)

end NounPhrase
