import NounPhrase.Recognition
import NounPhrase.Segment
import NounPhrase.Tagging.Classify
import NounPhrase.Text.Blank

/-!
# Chunking text

A chunker finds the noun phrases of tagged text, a sentence to a line. A line is cut into
segments, every segment is tagged and parsed by itself, and the noun phrases are read off the
trees. A segment without a tree has no noun phrases, whatever the reason.

## Main definitions

* `Chunker`: a grammar and the number of items that a segment may have.
* `Chunker.parseSegment`: the tree of a segment.
* `SegmentFault`: a recognized segment without a tree.
* `Chunker.nounPhrases`: the noun phrases of a list of lines.
-/

namespace NounPhrase

/-- A recognized segment without a tree. -/
structure SegmentFault where
  segment : String
  /-- The grammar with the sentence rule that accepted. -/
  grammar : WidenedGrammar
  fault : TreeFault

namespace SegmentFault

/-- What is reported of such a segment. -/
def message (_ : SegmentFault) : String := "couldn't build a tree"

/-- The text of the fault. -/
def faultText (e : SegmentFault) : String := e.fault.message e.grammar

end SegmentFault

/-- A grammar, and how many items are parsed at a time. -/
structure Chunker where
  grammar : Grammar
  maxTokens : Nat := 20

namespace Chunker

/-- The pieces in which a line is parsed. -/
def segments (c : Chunker) (line : String) : List String := NounPhrase.segments line c.maxTokens

/-- The tree of a segment. There is none if the segment has no tokens, or if all of them had to be
dropped. -/
def parseSegment (c : Chunker) (segment : String) : Except SegmentFault (Option Tree) :=
  match tokenize segment with
  | [] => .ok none
  | tokens =>
    match (c.grammar.recognize tokens).derivation with
    | none => .ok none
    | some d =>
      match d.tree with
      | .ok tree => .ok (some tree)
      | .error fault => .error ⟨segment, d.grammar, fault⟩

/-- The noun phrases of a segment. -/
def segmentNounPhrases (c : Chunker) (segment : String) : List String :=
  match c.parseSegment segment with
  | .ok (some tree) => tree.nounPhrases
  | _ => []

/-- The noun phrases of the lines in order. Blank lines hold none. -/
def nounPhrases (c : Chunker) (lines : List String) : List String :=
  (lines.filter (!Text.isBlankLine ·)).flatMap fun line =>
    (c.segments line).flatMap c.segmentNounPhrases

end Chunker

end NounPhrase
