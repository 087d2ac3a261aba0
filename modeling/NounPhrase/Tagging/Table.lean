import NounPhrase.Tagging.Pattern
import NounPhrase.Terminal

/-!
# The tables of the tagger

Most items are classified by their tag. A handful of Swedish words have terminals of their own,
however general their tags are; the rules for them look at the word and the tag together.

## Main definitions

* `TagRule`, `tagRules`: a pattern of tags and its terminal, and all of them in the order in which
  they are tried.
* `WordRule`, `wordRules`: a list of words with a pattern for their tags, and all of them in the
  order in which they are tried.
-/

namespace NounPhrase

/-- Items with a tag of the given pattern have the terminal. -/
structure TagRule where
  tag : Pattern
  terminal : Terminal
  deriving Repr

/-- The rules for tags in the order in which they are tried. -/
def tagRules : List TagRule := [
  ⟨slots "D......", .det⟩,
  ⟨slots "NC..G@.S", .nGen⟩,
  ⟨slots "NP00G@0S", .propNGen⟩,
  ⟨slots "R...", .adv⟩,
  ⟨slots "CC.", .konj⟩,
  ⟨slots "CSS", .subj⟩,
  ⟨slots "SP.", .prep⟩,
  ⟨slots "A...S...", .adjSing⟩,
  ⟨slots "A...P...", .adjPlur⟩,
  ⟨slots "A...0...", .adjSingPlur⟩,
  ⟨slots "M......", .num⟩,
  ⟨slots "P" ++ oneOf "FEHI" ++ slots "......", .pron⟩,
  ⟨slots "PS......", .possPron⟩,
  ⟨slots "NC...@.C", .compNoun⟩,
  ⟨slots "V@000C", .compNoun⟩,
  ⟨slots "NP000@0C", .propCompNoun⟩,
  ⟨slots "NP00N@.S", .propNoun⟩,
  ⟨slots "NC.." ++ oneOf "N0" ++ slots "@." ++ oneOf "SA", .comNoun⟩,
  ⟨slots "CIS", .inf⟩,
  ⟨slots "V@N...", .infVerb⟩,
  ⟨slots "QS", .part⟩,
  ⟨slots "V@I" ++ oneOf "IP" ++ slots "..", .finVerb⟩,
  ⟨slots "V@IU..", .supVerb⟩,
  ⟨slots "V@M...", .impVerb⟩,
  ⟨slots "V@000A", .impVerb⟩,
  ⟨slots "V@S...", .conjVerb⟩,
  ⟨slots "FI", .delMin⟩,
  ⟨slots "FE", .delMaj⟩,
  ⟨slots "FP", .delParen⟩,
  ⟨slots "I", .interj⟩,
  ⟨slots "XF", .uO⟩]

/-- Items of certain words with a tag of the given pattern have the terminal. -/
structure WordRule where
  /-- The characters that may begin a word, with what may come after each of them. -/
  words : List (String × List String)
  tag : Pattern
  terminal : Terminal
  deriving Repr

/-- The words with a sentence adverb among their readings; each may begin with a capital. -/
def sentenceAdverbs : List (String × List String) := [
  ("aA", ["ldrig", "lltid", "lltså"]),
  ("bB", ["ara"]),
  ("dD", ["it", "ock", "ärför"]),
  ("fF", ["aktiskt"]),
  ("gG", ["enast", "ivetvis"]),
  ("hH", ["eller", "it", "ittills", "ur"]),
  ("iI", ["från", "nte"]),
  ("jJ", ["u"]),
  ("kK", ["anske"]),
  ("nN", ["aturligtvis", "u", "og", "ämligen", "är", "ödvändigtvis"]),
  ("oO", ["ckså", "fta"]),
  ("pP", ["lötsligt"]),
  ("sS", ["äkert"]),
  ("uU", ["pp"]),
  ("vV", ["ad", "arför", "isserligen"]),
  ("äÄ", ["ndå", "ven"])]

/-- The rules for words in the order in which they are tried. -/
def wordRules : List WordRule := [
  ⟨sentenceAdverbs, slots "R...", .sentAdv⟩,
  ⟨[("HhDd", ["är"])], slots "RG0S", .hereThere⟩,
  ⟨[("Mm", ["ellan"])], slots "SPS", .prepMellan⟩]

namespace WordRule

/-- The patterns of whole items: a word, a slash and a tag. -/
def patterns (r : WordRule) : List Pattern :=
  r.words.flatMap fun (initials, rests) =>
    rests.map fun rest => oneOf initials ++ rest.toList.map .exactly ++ .exactly '/' :: r.tag

/-- Whether the rule applies to an item. -/
def fits (r : WordRule) (item : List Char) : Bool := r.patterns.any (·.fits item)

end WordRule

end NounPhrase
