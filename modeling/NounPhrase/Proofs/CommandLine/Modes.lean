import NounPhrase.CommandLine.Run
import NounPhrase.Proofs.Derivation.Acyclic
import NounPhrase.Proofs.Recognition.Trees

/-!
# With and without trees and charts

Asked for trees or charts, the command goes through the text by itself, and otherwise it leaves the
text to the chunker. The two ways find the same segments and the same noun phrases. They differ
where a segment is recognized and its tree cannot be built: there the one ends the command and the
other one goes on. This never happens, since no nonterminal of the grammar of Swedish derives
itself.

## Main definitions

* `Chunker.taggedSegments`: the segments of a text that have tokens.
* `Settings.plain`: the settings without trees and charts.
* `Settings.phraseLines`: the noun phrases of a segment as lines.
* `Settings.block`: what is printed for a segment on the way to the noun phrases.

## Main results

* `Settings.explain_eq`: a segment with tokens is explained by its block.
* `Settings.outcome_eq`, `Settings.outcome_plain`: the outcome with trees or charts, and without.
* `modes_agree`: the outcomes of the command for a text.
-/

namespace NounPhrase

namespace Chunker

/-- The segments of a text that have a token, without those of blank lines. -/
def taggedSegments (c : Chunker) (input : String) : List String :=
  (((Text.linesOf input).filter (!Text.isBlankLine ·)).flatMap c.segments).filter (tokenize · ≠ [])

variable {c : Chunker} {segment : String}

/-- A segment that is not recognized has no tree. -/
theorem parseSegment_of_eq_none
    (h : (c.grammar.recognize (tokenize segment)).derivation = none) :
    c.parseSegment segment = .ok none := by
  rw [parseSegment]
  split
  · rfl
  · rw [h]

/-- The tree of a segment is that of its derivation. -/
theorem parseSegment_of_eq_some {d : Derivation} {tree : Tree}
    (h : (c.grammar.recognize (tokenize segment)).derivation = some d)
    (htree : d.tree = .ok tree) : c.parseSegment segment = .ok (some tree) := by
  rw [parseSegment]
  split
  · next hnil =>
    rw [hnil, Grammar.recognize, recognizeFrom, dif_pos rfl] at h
    simp at h
  · simp only [h, htree]

end Chunker

namespace Settings

variable {s : Settings} {segment : String}

/-- The settings without trees and charts. -/
def plain (s : Settings) : Settings := { s with tree := false, chart := false }

/-- The noun phrases of a segment, one to a line. -/
def phraseLines (s : Settings) (segment : String) : String :=
  unlines (s.chunker.segmentNounPhrases segment)

/-- The chart of a segment, if it is recognized. -/
def chartBlock (s : Settings) (segment : String) : String :=
  (s.chunker.grammar.recognize (tokenize segment)).derivation.elim "" fun d =>
    "chart:\n" ++ d.chart.text d.grammar ++ "\n"

/-- The chart and the tree of a segment, as far as they are asked for, and its noun phrases. A
segment without a tree is reported. -/
def block (s : Settings) (segment : String) : String :=
  match s.chunker.parseSegment segment with
  | .ok (some tree) => (if s.chart then s.chartBlock segment else "") ++
      (if s.tree then tree.text ++ "\n\n" else "") ++ s.phraseLines segment
  | _ => "no parse for: " ++ segment ++ "\n\n"

/-! ### Segments -/

@[simp] theorem grammar_chunker (s : Settings) : s.chunker.grammar = .swedish := by
  rw [chunker]
  split <;> rfl

/-- A segment that is recognized has a tree. -/
theorem exists_tree {d : Derivation}
    (h : (s.chunker.grammar.recognize (tokenize segment)).derivation = some d) :
    ∃ tree, d.tree = .ok tree := by
  rw [grammar_chunker] at h
  exact (exists_tree_of_recognize isAcyclic_swedish h).1

/-- A segment with tokens that is not recognized is reported. -/
theorem explain_of_eq_none (h : tokenize segment ≠ [])
    (hd : (s.chunker.grammar.recognize (tokenize segment)).derivation = none) :
    s.explain segment = ("no parse for: " ++ segment ++ "\n\n", true) := by
  rw [explain]
  split
  · next hnil => exact absurd hnil h
  · rw [hd]

/-- A segment with a tree is explained by its chart and its tree, and its noun phrases. -/
theorem explain_of_eq_some (h : tokenize segment ≠ []) {d : Derivation} {tree : Tree}
    (hd : (s.chunker.grammar.recognize (tokenize segment)).derivation = some d)
    (htree : d.tree = .ok tree) :
    s.explain segment = ((if s.chart then s.chartBlock segment else "") ++
      (if s.tree then tree.text ++ "\n\n" else "") ++ unlines tree.nounPhrases, true) := by
  have hchart : s.chartBlock segment = "chart:\n" ++ d.chart.text d.grammar ++ "\n" := by
    rw [chartBlock, hd]
    rfl
  rw [explain, hchart]
  split
  · next hnil => exact absurd hnil h
  · simp only [hd, htree]

/-- A segment with tokens is explained by its block, and the command goes on. -/
theorem explain_eq (h : tokenize segment ≠ []) : s.explain segment = (s.block segment, true) := by
  cases hd : (s.chunker.grammar.recognize (tokenize segment)).derivation with
  | none => rw [explain_of_eq_none h hd, block, Chunker.parseSegment_of_eq_none hd]
  | some d =>
    obtain ⟨tree, htree⟩ := exists_tree hd
    have hparse := Chunker.parseSegment_of_eq_some hd htree
    rw [explain_of_eq_some h hd htree, block, hparse, phraseLines, Chunker.segmentNounPhrases,
      hparse]

/-- A segment without tokens is passed over. -/
theorem explain_of_eq_nil (h : tokenize segment = []) : s.explain segment = ("", true) := by
  rw [explain, h]

/-- A segment without tokens has no noun phrases. -/
theorem phraseLines_of_eq_nil (h : tokenize segment = []) : s.phraseLines segment = "" := by
  rw [phraseLines, Chunker.segmentNounPhrases, Chunker.parseSegment, h]
  rfl

/-! ### Texts -/

/-- The segments with tokens are explained by their blocks, and the command succeeds. -/
theorem explainAll_eq (s : Settings) (segments : List String) :
    s.explainAll segments =
      ⟨0, String.join ((segments.filter (tokenize · ≠ [])).map s.block)⟩ := by
  induction segments with
  | nil => rfl
  | cons segment segments ih =>
    by_cases h : tokenize segment = []
    · rw [explainAll, explain_of_eq_nil h, ih]
      simp [h]
    · rw [explainAll, explain_eq h, ih]
      simp [h]

theorem join_flatMap {α : Type} (f : α → List String) (xs : List α) :
    String.join (xs.flatMap f) = String.join (xs.map fun x => String.join (f x)) := by
  induction xs with
  | nil => rfl
  | cons x xs ih => rw [List.flatMap_cons, String.join_append, ih, List.map_cons, String.join_cons]

theorem unlines_flatMap {α : Type} (f : α → List String) (xs : List α) :
    unlines (xs.flatMap f) = String.join (xs.map fun x => unlines (f x)) := by
  rw [unlines, List.map_flatMap, join_flatMap]
  rfl

/-- Of the noun phrases of a list of segments it is enough to take those of the segments with
tokens. -/
theorem join_phraseLines_filter (s : Settings) (segments : List String) :
    String.join ((segments.filter (tokenize · ≠ [])).map s.phraseLines) =
      String.join (segments.map s.phraseLines) := by
  induction segments with
  | nil => rfl
  | cons segment segments ih =>
    by_cases h : tokenize segment = []
    · rw [List.filter_cons_of_neg (by simpa using h), ih, List.map_cons, String.join_cons,
        phraseLines_of_eq_nil h, String.empty_append]
    · rw [List.filter_cons_of_pos (by simpa using h), List.map_cons, List.map_cons,
        String.join_cons, String.join_cons, ih]

/-- The outcome with trees or charts: the blocks of the segments. -/
theorem outcome_eq (h : s.tree || s.chart) (input : String) :
    s.outcome input =
      ⟨0, String.join ((s.chunker.taggedSegments input).map s.block)⟩ := by
  rw [outcome, if_pos h, explainAll_eq]
  rfl

/-- The outcome without trees and charts: the noun phrases of the segments. -/
theorem outcome_plain (s : Settings) (input : String) :
    s.plain.outcome input =
      ⟨0, String.join ((s.chunker.taggedSegments input).map s.phraseLines)⟩ := by
  have hnone : ¬ (s.plain.tree || s.plain.chart) = true := Bool.false_ne_true
  have hphrases : s.plain.chunker.nounPhrases (Text.linesOf input) =
      (((Text.linesOf input).filter (!Text.isBlankLine ·)).flatMap s.chunker.segments).flatMap
        s.chunker.segmentNounPhrases := List.flatMap_assoc.symm
  rw [outcome, if_neg hnone, hphrases, unlines_flatMap, Chunker.taggedSegments,
    join_phraseLines_filter]
  rfl

end Settings

/-- Let the command be given the same text twice, with the same limit: once asked for trees or
charts or both, and once for neither. It succeeds both times. Without trees and charts it prints the
noun phrases of every segment that has tokens, in order. With them it prints the block of every such
segment: that there is no parse, if there is no tree for the noun phrases to come from, and else the
chart and the tree, as far as they are asked for, and then the same noun phrases. -/
theorem modes_agree {parse : List String → Except Outcome Settings} {s : Settings}
    {args plainArgs : List String} {stdin input : String} {contents : String → Option String}
    (hargs : parse args = .ok s) (hplain : parse plainArgs = .ok s.plain)
    (hmode : s.tree || s.chart) (hinput : s.input? stdin contents = some input) :
    runCommand parse args stdin contents =
        ⟨0, String.join ((s.chunker.taggedSegments input).map s.block)⟩ ∧
      runCommand parse plainArgs stdin contents =
        ⟨0, String.join ((s.chunker.taggedSegments input).map s.phraseLines)⟩ := by
  have hinput' : s.plain.input? stdin contents = some input := hinput
  constructor
  · simp only [runCommand, hargs, Settings.run, hinput]
    exact s.outcome_eq hmode input
  · simp only [runCommand, hplain, Settings.run, hinput']
    exact s.outcome_plain input

/-- Trees and charts of a text of two lines, the first of which is blank, in pieces of at most one
item. -/
theorem modes_agree_two_items :
    let parse (args : List String) : Except Outcome Settings :=
      if args = ["-tc", "-m", "1"] then .ok ⟨[], some 1, true, true⟩
      else if args = ["--max-tokens=1"] then .ok ⟨[], some 1, false, false⟩
      else .error ⟨2, ""⟩
    ∃ s : Settings, parse ["-tc", "-m", "1"] = .ok s ∧ parse ["--max-tokens=1"] = .ok s.plain ∧
      (s.tree || s.chart) = true ∧
      s.input? "\nen/DI@US@S bil/NCUSN@IS\n" (fun _ => none) =
        some "\nen/DI@US@S bil/NCUSN@IS\n" ∧
      s.chunker.taggedSegments "\nen/DI@US@S bil/NCUSN@IS\n" =
        ["en/DI@US@S", "bil/NCUSN@IS"] ∧
      runCommand parse ["-tc", "-m", "1"] "\nen/DI@US@S bil/NCUSN@IS\n" (fun _ => none) =
        ⟨0, s.block "en/DI@US@S" ++ s.block "bil/NCUSN@IS"⟩ ∧
      runCommand parse ["--max-tokens=1"] "\nen/DI@US@S bil/NCUSN@IS\n" (fun _ => none) =
        ⟨0, s.phraseLines "en/DI@US@S" ++ s.phraseLines "bil/NCUSN@IS"⟩ := by
  intro parse
  let s : Settings := ⟨[], some 1, true, true⟩
  have hargs : parse ["-tc", "-m", "1"] = .ok s := rfl
  have hplain : parse ["--max-tokens=1"] = .ok s.plain := rfl
  have hsegments : s.chunker.taggedSegments "\nen/DI@US@S bil/NCUSN@IS\n" =
      ["en/DI@US@S", "bil/NCUSN@IS"] := by decide +kernel
  have h := @modes_agree parse s _ _ "\nen/DI@US@S bil/NCUSN@IS\n" "\nen/DI@US@S bil/NCUSN@IS\n"
    (fun _ => none) hargs hplain rfl rfl
  rw [hsegments] at h
  refine ⟨s, hargs, hplain, rfl, rfl, hsegments, ?_⟩
  simpa using h

end NounPhrase
