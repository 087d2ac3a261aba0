import NounPhrase.Chart.Layout
import NounPhrase.Chunker
import NounPhrase.Grammar.Swedish
import NounPhrase.Text.Line
import NounPhrase.Tree.Layout

/-!
# Running the command

The command reads tagged text from files or the standard input and prints its noun phrases, one to
a line. Asked for trees or charts it goes through the text segment by segment and prints them on
the way to the noun phrases.

The arguments are read by a general argument parser, which the command is given. The parser may end
the command itself, as it does where the arguments are not in order or ask for help.

## Main definitions

* `Settings`: what the arguments ask for.
* `Outcome`: the exit code and the output.
* `Settings.input?`: the text to work on.
* `Settings.explain`: the output for a segment with its tree and chart.
* `Settings.run`: the command with its arguments read.
* `runCommand`: the command.
-/

namespace NounPhrase

/-- What the arguments of the command ask for. -/
structure Settings where
  /-- The files to read, instead of the standard input. -/
  files : List String := []
  /-- The number of items that a segment may have, unless it is the usual one. -/
  limit : Option Nat := none
  /-- Whether to print trees. -/
  tree : Bool := false
  /-- Whether to print charts. -/
  chart : Bool := false
  deriving DecidableEq, Repr

/-- What the command leaves behind. -/
structure Outcome where
  exitCode : Nat
  stdout : String
  deriving DecidableEq, Repr

/-- The lines of an output. -/
def unlines (lines : List String) : String := String.join (lines.map (· ++ "\n"))

namespace Settings

/-- The chunker that the settings ask for. -/
def chunker (s : Settings) : Chunker :=
  match s.limit with
  | none => { grammar := .swedish }
  | some n => { grammar := .swedish, maxTokens := n }

/-- The text to work on: the files one after the other, each closed by a line feed, or the standard
input if there are none. It is missing if one of the files is. -/
def input? (s : Settings) (stdin : String) (contents : String → Option String) : Option String :=
  match s.files with
  | [] => some stdin
  | files => (files.mapM contents).map unlines

/-- The output for a segment, and whether it has a tree if it was recognized. -/
def explain (s : Settings) (segment : String) : String × Bool :=
  match tokenize segment with
  | [] => ("", true)
  | tokens =>
    match (s.chunker.grammar.recognize tokens).derivation with
    | none => ("no parse for: " ++ segment ++ "\n\n", true)
    | some d =>
      let chart := if s.chart then "chart:\n" ++ d.chart.text d.grammar ++ "\n" else ""
      match d.tree with
      | .error _ => (chart, false)
      | .ok tree =>
        (chart ++ (if s.tree then tree.text ++ "\n\n" else "") ++ unlines tree.nounPhrases, true)

/-- The output for a list of segments, up to the first that was recognized and has no tree. -/
def explainAll (s : Settings) : List String → Outcome
  | [] => ⟨0, ""⟩
  | segment :: segments =>
    match s.explain segment with
    | (text, false) => ⟨1, text⟩
    | (text, true) => let rest := explainAll s segments; { rest with stdout := text ++ rest.stdout }

/-- The outcome for a text. -/
def outcome (s : Settings) (input : String) : Outcome :=
  let lines := Text.linesOf input
  if s.tree || s.chart then
    s.explainAll ((lines.filter (!Text.isBlankLine ·)).flatMap s.chunker.segments)
  else ⟨0, unlines (s.chunker.nounPhrases lines)⟩

/-- The command with its arguments read, where `contents` gives the contents of the files that can
be read. A file that cannot be read ends it with code 1, before anything is printed. -/
def run (s : Settings) (stdin : String) (contents : String → Option String) : Outcome :=
  match s.input? stdin contents with
  | none => ⟨1, ""⟩
  | some input => s.outcome input

end Settings

/-- The command with the given arguments, standard input and files. The arguments are read by
`parse`, which gives an outcome of its own where it ends the command. -/
def runCommand (parse : List String → Except Outcome Settings) (args : List String)
    (stdin : String) (contents : String → Option String) : Outcome :=
  match parse args with
  | .error outcome => outcome
  | .ok s => s.run stdin contents

end NounPhrase
