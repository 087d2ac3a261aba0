import NounPhrase.Proofs.CommandLine.Modes
import NounPhrase.Proofs.Text.Lines

/-!
# Several files

The files of a command make up one text, in which each of them is closed by a line feed. A line feed
always ends a line, so the one that closes a file keeps it apart from the next, whether the file
ends in a line feed of its own, in a carriage return or in neither, and whether it is empty or not.
The lines of the text are therefore the lines of the files, one file after the other, and so are its
segments and its noun phrases. What is printed for a segment does not depend on the others, and so
the output for several files is what is printed for each of them alone.

All files are read before anything is printed. If one of them cannot be read there is no output.

## Main definitions

* `Settings.withFiles`: the settings with other files.
* `Settings.report`: what is printed for a segment with tokens.

## Main results

* `linesOf_unlines`: the lines of texts that are closed by line feeds.
* `Settings.outcome_unlines`: the outcome for such texts.
* `files_apart`: the command with several files.
-/

namespace NounPhrase

namespace Settings

/-- The settings with the given files in place of their own. -/
def withFiles (s : Settings) (files : List String) : Settings := { s with files := files }

end Settings

/-! ### Texts one behind the other -/

/-- Texts that are closed by line feeds are cut into lines one by one. -/
theorem linesOf_unlines (texts : List String) :
    Text.linesOf (unlines texts) = texts.flatMap fun t => Text.linesOf (t ++ "\n") := by
  induction texts with
  | nil => rfl
  | cons t texts ih =>
    have hcons : (unlines (t :: texts)).toList = t.toList ++ '\n' :: (unlines texts).toList := by
      simp [unlines]
    have hclosed : (t ++ "\n").toList = t.toList ++ ['\n'] := String.toList_append
    rw [List.flatMap_cons, ← ih, Text.linesOf, hcons, Text.lines_append_newline, List.map_append,
      Text.linesOf, hclosed, Text.linesOf]

namespace Chunker

theorem taggedSegments_unlines (c : Chunker) (texts : List String) :
    c.taggedSegments (unlines texts) = texts.flatMap fun t => c.taggedSegments (t ++ "\n") := by
  simp only [taggedSegments, linesOf_unlines, List.filter_flatMap, List.flatMap_assoc]

theorem nounPhrases_unlines (c : Chunker) (texts : List String) :
    c.nounPhrases (Text.linesOf (unlines texts)) =
      texts.flatMap fun t => c.nounPhrases (Text.linesOf (t ++ "\n")) := by
  rw [nounPhrases, linesOf_unlines, List.filter_flatMap, List.flatMap_assoc]
  rfl

end Chunker

namespace Settings

/-- What is printed for a segment with tokens. -/
def report (s : Settings) : String → String :=
  if s.tree || s.chart then s.block else s.phraseLines

/-- The outcome for a text: what is printed for its segments. -/
theorem outcome_eq_report (s : Settings) (input : String) :
    s.outcome input = ⟨0, String.join ((s.chunker.taggedSegments input).map s.report)⟩ := by
  rw [report]
  split
  · next h => exact s.outcome_eq h input
  · next h =>
    have hplain : s.plain = s := by
      obtain ⟨files, limit, tree, chart⟩ := s
      simp_all [plain]
    exact hplain ▸ s.outcome_plain input

/-- The outcome for a text does not depend on the files. -/
theorem outcome_withFiles (s : Settings) (files : List String) (input : String) :
    (s.withFiles files).outcome input = s.outcome input := by
  rw [outcome_eq_report, outcome_eq_report]
  rfl

/-- The outcome for several texts is made up of the outcomes for each of them. -/
theorem outcome_unlines (s : Settings) (texts : List String) :
    s.outcome (unlines texts) =
      ⟨0, String.join (texts.map fun t => (s.outcome (t ++ "\n")).stdout)⟩ := by
  rw [outcome_eq_report, Chunker.taggedSegments_unlines, List.map_flatMap, join_flatMap]
  simp only [outcome_eq_report]

end Settings

/-! ### The command -/

section

variable {files : List String} {contents : String → Option String}

theorem mapM_eq_some_map {text : String → String} (h : ∀ f ∈ files, contents f = some (text f)) :
    files.mapM contents = some (files.map text) := by
  induction files with
  | nil => rfl
  | cons f files ih =>
    obtain ⟨hf, hfiles⟩ := List.forall_mem_cons.mp h
    rw [List.mapM_cons, hf, ih hfiles]
    rfl

theorem mapM_eq_none {f : String} (hf : f ∈ files) (h : contents f = none) :
    files.mapM contents = none := by
  induction files with
  | nil => simp at hf
  | cons f' files ih =>
    rw [List.mapM_cons]
    rcases List.mem_cons.mp hf with rfl | hf
    · rw [h]
      rfl
    · rw [ih hf]
      cases contents f' <;> rfl

/-- The text to work on, if all files can be read. -/
theorem Settings.input?_eq_some {s : Settings} {stdin : String} {text : String → String}
    (hstdin : s.files = [] → stdin = "") (h : ∀ f ∈ s.files, contents f = some (text f)) :
    s.input? stdin contents = some (unlines (s.files.map text)) := by
  rw [input?]
  split
  · next hnil => rw [hnil, hstdin hnil]; rfl
  · rw [mapM_eq_some_map h, Option.map_some]

/-- There is no text to work on if a file cannot be read. -/
theorem Settings.input?_eq_none {s : Settings} {f : String} (hf : f ∈ s.files)
    (h : contents f = none) (stdin : String) : s.input? stdin contents = none := by
  rw [input?]
  split
  · next hnil => rw [hnil] at hf; simp at hf
  · rw [mapM_eq_none hf h, Option.map_none]

/-- A command that can read all its files works on them, and on each of them alone. -/
theorem Settings.run_eq_outcome {s : Settings} {stdin : String} {text : String → String}
    (hstdin : s.files = [] → stdin = "") (h : ∀ f ∈ s.files, contents f = some (text f)) :
    s.run stdin contents = s.outcome (unlines (s.files.map text)) ∧
      ∀ f ∈ s.files, (s.withFiles [f]).run stdin contents = s.outcome (text f ++ "\n") := by
  refine ⟨by simp only [run, input?_eq_some hstdin h], fun f hf => ?_⟩
  have hone : (s.withFiles [f]).input? stdin contents = some (unlines [text f]) :=
    input?_eq_some (fun hnil => absurd hnil (List.cons_ne_nil f []))
      (List.forall_mem_singleton.mpr (h f hf))
  have hclosed : unlines [text f] = text f ++ "\n" := by simp [unlines]
  simp only [run, hone, hclosed, outcome_withFiles]

end

/-- Let a command be given files. If all of them can be read, the command succeeds, and so does each
file alone, and its output is the output for each file alone, in their order; `alone f` may be any
arguments that ask for the same with the file `f` alone. The lines of the text that it works on, its
segments with tokens and its noun phrases are those of the files, each closed by a line feed, in
their order. If some file cannot be read, wherever it stands, the command ends with code 1 and
without output. A command without files reads the standard input, and of nothing there is nothing
printed. -/
theorem files_apart {parse : List String → Except Outcome Settings} {s : Settings}
    {args : List String} {stdin : String} {contents : String → Option String}
    (hargs : parse args = .ok s) (hstdin : s.files = [] → stdin = "") :
    (∀ text : String → String, (∀ f ∈ s.files, contents f = some (text f)) →
      runCommand parse args stdin contents =
          ⟨0, String.join (s.files.map fun f => ((s.withFiles [f]).run stdin contents).stdout)⟩ ∧
        (∀ f ∈ s.files, ((s.withFiles [f]).run stdin contents).exitCode = 0) ∧
        (∀ alone : String → List String,
          (∀ f ∈ s.files, parse (alone f) = .ok (s.withFiles [f])) →
          runCommand parse args stdin contents = ⟨0, String.join
              (s.files.map fun f => (runCommand parse (alone f) stdin contents).stdout)⟩ ∧
            ∀ f ∈ s.files, (runCommand parse (alone f) stdin contents).exitCode = 0) ∧
        ∃ input, s.input? stdin contents = some input ∧
          Text.linesOf input = s.files.flatMap (fun f => Text.linesOf (text f ++ "\n")) ∧
          s.chunker.taggedSegments input =
            s.files.flatMap (fun f => s.chunker.taggedSegments (text f ++ "\n")) ∧
          s.chunker.nounPhrases (Text.linesOf input) =
            s.files.flatMap fun f => s.chunker.nounPhrases (Text.linesOf (text f ++ "\n"))) ∧
      ((∃ f ∈ s.files, contents f = none) → runCommand parse args stdin contents = ⟨1, ""⟩) := by
  refine ⟨fun text hread => ?_, ?_⟩
  · obtain ⟨hrun, hone⟩ := Settings.run_eq_outcome hstdin hread
    have hall : runCommand parse args stdin contents =
        ⟨0, String.join (s.files.map fun f => ((s.withFiles [f]).run stdin contents).stdout)⟩ := by
      simp only [runCommand, hargs, hrun, Settings.outcome_unlines, List.map_map]
      congr 2
      exact List.map_congr_left fun f hf => (congrArg Outcome.stdout (hone f hf)).symm
    have hcode : ∀ f ∈ s.files, ((s.withFiles [f]).run stdin contents).exitCode = 0 := by
      intro f hf
      rw [hone f hf, Settings.outcome_eq_report]
    refine ⟨hall, hcode, fun alone halone => ?_, _, s.input?_eq_some hstdin hread, ?_, ?_, ?_⟩
    · have hsame : ∀ f ∈ s.files,
          runCommand parse (alone f) stdin contents = (s.withFiles [f]).run stdin contents :=
        fun f hf => by rw [runCommand, halone f hf]
      refine ⟨hall.trans ?_, fun f hf => hsame f hf ▸ hcode f hf⟩
      congr 2
      exact List.map_congr_left fun f hf => (congrArg Outcome.stdout (hsame f hf)).symm
    · rw [linesOf_unlines, List.flatMap_map]
    · rw [Chunker.taggedSegments_unlines, List.flatMap_map]
    · rw [Chunker.nounPhrases_unlines, List.flatMap_map]
  · rintro ⟨f, hf, hnone⟩
    simp only [runCommand, hargs, Settings.run, Settings.input?_eq_none hf hnone]

/-- Three files, of which the first ends without a line feed, the second ends in a carriage return
and the third is empty, and the same files of which the last cannot be read. -/
theorem files_apart_three :
    let parse (args : List String) : Except Outcome Settings :=
      if args = ["-tm1", "a", "b", "--", "c"] then .ok ⟨["a", "b", "c"], some 1, true, false⟩
      else if args.take 3 = ["-t", "-m", "1"] then .ok ⟨args.drop 3, some 1, true, false⟩
      else .error ⟨2, ""⟩
    let texts (f : String) :=
      List.lookup f [("a", "en/DI@US@S bil/NCUSN@IS"), ("b", "hus/NCNSN@IS\r"), ("c", "")]
    let alone (f : String) := ["-t", "-m", "1", f]
    ∃ s, parse ["-tm1", "a", "b", "--", "c"] = .ok s ∧ s.files = ["a", "b", "c"] ∧
      s.chunker.taggedSegments "en/DI@US@S bil/NCUSN@IS\nhus/NCNSN@IS\r\n\n" =
        ["en/DI@US@S", "bil/NCUSN@IS", "hus/NCNSN@IS"] ∧
      runCommand parse ["-tm1", "a", "b", "--", "c"] "" texts =
        ⟨0, (runCommand parse (alone "a") "" texts).stdout ++
          (runCommand parse (alone "b") "" texts).stdout ++
          (runCommand parse (alone "c") "" texts).stdout⟩ ∧
      runCommand parse ["-tm1", "a", "b", "--", "c"] "" (fun f => if f = "c" then none else texts f)
        = ⟨1, ""⟩ := by
  intro parse texts alone
  let s : Settings := ⟨["a", "b", "c"], some 1, true, false⟩
  have hargs : parse ["-tm1", "a", "b", "--", "c"] = .ok s := rfl
  have halone : ∀ f ∈ s.files, parse (alone f) = .ok (s.withFiles [f]) := fun f _ => rfl
  have hread : ∀ f ∈ s.files, texts f = some ((texts f).getD "") := by decide +kernel
  have hrun := ((files_apart hargs (fun _ => rfl)).1 _ hread).2.2.1 alone halone
  refine ⟨s, hargs, rfl, by decide +kernel, ?_,
    (files_apart hargs (fun _ => rfl)).2 ⟨"c", by decide, rfl⟩⟩
  rw [hrun.1]
  simp [s, String.append_assoc]

end NounPhrase
