import NounPhrase.Main
import NounPhrase.RuleText.Reader
import NounPhrase.Session.Indexed
import NounPhrase.Proofs.Grammar.Arity
import NounPhrase.Proofs.Grammar.Construction
import NounPhrase.Proofs.Derivation.ContextFree
import NounPhrase.Proofs.Derivation.Acyclic
import NounPhrase.Proofs.Derivation.Productive
import NounPhrase.Proofs.Derivation.RuleTrees
import NounPhrase.Proofs.Derivation.Flattening
import NounPhrase.Proofs.FirstTable.Viable
import NounPhrase.Proofs.FirstTable.Idle
import NounPhrase.Proofs.FirstTable.Least
import NounPhrase.Proofs.Tree.Spans
import NounPhrase.Proofs.Tree.Constituents
import NounPhrase.Proofs.Tree.Lists
import NounPhrase.Proofs.Tree.Coverage
import NounPhrase.Proofs.Tree.Printing
import NounPhrase.Proofs.Chart.Saturation
import NounPhrase.Proofs.Chart.Soundness
import NounPhrase.Proofs.Chart.LeastColumn
import NounPhrase.Proofs.Chart.Links
import NounPhrase.Proofs.Chart.Pruning
import NounPhrase.Proofs.Chart.Rollback
import NounPhrase.Proofs.Forest.Choice
import NounPhrase.Proofs.Forest.Descent
import NounPhrase.Proofs.Forest.Building
import NounPhrase.Proofs.Forest.Following
import NounPhrase.Proofs.Forest.Course
import NounPhrase.Proofs.Forest.Renaming
import NounPhrase.Proofs.Recognition.Exactness
import NounPhrase.Proofs.Recognition.Moments
import NounPhrase.Proofs.Recognition.Consistency
import NounPhrase.Proofs.Recognition.Soundness
import NounPhrase.Proofs.Recognition.Trees
import NounPhrase.Proofs.Recognition.Leaves
import NounPhrase.Proofs.Recognition.Phrases
import NounPhrase.Proofs.Recognition.Pruning
import NounPhrase.Proofs.Recognition.Ledger
import NounPhrase.Proofs.Recognition.Blame
import NounPhrase.Proofs.Recognition.ViablePrefix
import NounPhrase.Proofs.Recognition.Progress
import NounPhrase.Proofs.Recognition.Renaming
import NounPhrase.Proofs.CommandLine.Modes
import NounPhrase.Proofs.CommandLine.Files
import NounPhrase.Proofs.RuleText.Printing
import NounPhrase.Proofs.Segment.Runs
import NounPhrase.Proofs.Tagging.Words
import NounPhrase.Proofs.Tagging.Tags
import NounPhrase.Proofs.Text.Lines
import NounPhrase.Proofs.Session.Representation
