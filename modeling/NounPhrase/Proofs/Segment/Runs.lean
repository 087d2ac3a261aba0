import NounPhrase.Segment
import NounPhrase.Tagging.Classify

/-!
# Segments as runs of items

A line is a list of items with blanks between them. Its segments are the runs of so many items one
after the other, written out as lines again: cutting a line at every so many blanks, character by
character, comes to the same as cutting the list of its items. A last run that is nothing but one
empty item, which is what stands behind a blank at the end of a line, makes no segment, unless it is
the whole line. An empty item has no token, so that no token is lost.

## Main definitions

* `itemsOf`, `lineOf`: the items of a line, and the line of a list of items.
* `runsOf`: the runs of a list.
* `segmentRuns`: the runs of items that make a segment.

## Main results

* `cutAt_eq`: cutting a text is cutting the list of its items.
* `segments_eq_map`: the segments are the lines of the runs.
* `segments_lossless`: segments are short enough, and neither a part of the line nor a token is
  lost.
-/

namespace NounPhrase

/-! ### Items -/

/-- The items of a line: what stands between its blanks. -/
def itemsOf (line : String) : List (List Char) := line.toList.splitOn ' '

/-- The items with single blanks between them. -/
def joined (items : List (List Char)) : List Char := [' '].intercalate items

/-- The line of a list of items. -/
def lineOf (items : List (List Char)) : String := String.ofList (joined items)

@[simp] theorem joined_singleton (item : List Char) : joined [item] = item :=
  List.intercalate_singleton

theorem joined_cons {items : List (List Char)} (h : items ≠ []) (item : List Char) :
    joined (item :: items) = item ++ ' ' :: joined items := by
  rw [joined, List.intercalate_cons_of_ne_nil h, List.append_assoc]
  rfl

theorem joined_append {items items' : List (List Char)} (h : items ≠ []) (h' : items' ≠ []) :
    joined (items ++ items') = joined items ++ ' ' :: joined items' := by
  induction items with
  | nil => exact absurd rfl h
  | cons item items ih =>
    by_cases hitems : items = []
    · subst hitems
      rw [List.singleton_append, joined_cons h', joined_singleton]
    · rw [List.cons_append, joined_cons (by simp [hitems]), joined_cons hitems, ih hitems,
        List.append_assoc, List.cons_append]

/-- Joining what has been joined is joining all of it. -/
theorem joined_map_joined {runs : List (List (List Char))} (h : ∀ run ∈ runs, run ≠ []) :
    joined (runs.map joined) = joined runs.flatten := by
  induction runs with
  | nil => rfl
  | cons run runs ih =>
    have ih := ih fun run' hrun' => h run' (List.mem_cons_of_mem _ hrun')
    have hrun : run ≠ [] := h run List.mem_cons_self
    cases runs with
    | nil => simp
    | cons run' runs =>
      have hflatten : (run' :: runs).flatten ≠ [] := by
        simp [h run' (List.mem_cons_of_mem _ List.mem_cons_self)]
      rw [List.map_cons, joined_cons (by simp), ih, ← joined_append hrun hflatten]
      rfl

theorem notMem_of_mem_splitOn {cs item : List Char} (h : item ∈ cs.splitOn ' ') : ' ' ∉ item := by
  induction cs generalizing item with
  | nil => simp_all
  | cons c cs ih =>
    rw [List.splitOn_cons_eq_if_modifyHead] at h
    split at h
    · rcases List.mem_cons.mp h with rfl | h
      · simp
      · exact ih h
    · next hc =>
      obtain ⟨first, rest, hsplit⟩ := List.exists_cons_of_ne_nil (List.splitOn_ne_nil ' ' cs)
      rw [hsplit] at h ih
      rcases List.mem_cons.mp h with rfl | h
      · rw [List.mem_cons, not_or]
        exact ⟨fun hblank => hc (beq_iff_eq.mpr hblank.symm), ih List.mem_cons_self⟩
      · exact ih (List.mem_cons_of_mem _ h)

/-- The items of the line of some items are these items. -/
theorem itemsOf_lineOf {items : List (List Char)} (h : items ≠ [])
    (hitems : ∀ item ∈ items, ' ' ∉ item) : itemsOf (lineOf items) = items := by
  rw [itemsOf, lineOf, String.toList_ofList]
  exact List.splitOn_intercalate ' ' hitems h

theorem lineOf_itemsOf (line : String) : lineOf (itemsOf line) = line := by
  rw [lineOf, joined, itemsOf, List.intercalate_splitOn, String.ofList_toList]

/-! ### Runs -/

section Runs

variable {α : Type}

/-- The members of a list in runs of `limit`, of which the last may be shorter. -/
def runsOf (limit : Nat) : List α → List (List α)
  | [] => []
  | a :: as => (a :: as.take (limit - 1)) :: runsOf limit (as.drop (limit - 1))
termination_by as => as.length
decreasing_by
  rw [List.length_drop, List.length_cons]
  omega

variable {limit : Nat} {as : List α}

@[simp] theorem runsOf_nil (limit : Nat) : runsOf limit ([] : List α) = [] := by rw [runsOf]

theorem runsOf_eq_cons (hlimit : 0 < limit) (h : as ≠ []) :
    runsOf limit as = as.take limit :: runsOf limit (as.drop limit) := by
  obtain ⟨n, rfl⟩ := Nat.exists_eq_succ_of_ne_zero (Nat.ne_of_gt hlimit)
  cases as with
  | nil => exact absurd rfl h
  | cons a as => rw [runsOf, List.take_succ_cons, List.drop_succ_cons, Nat.succ_sub_one]

theorem flatten_runsOf (limit : Nat) (as : List α) : (runsOf limit as).flatten = as := by
  fun_induction runsOf limit as with
  | case1 => rfl
  | case2 a as ih => rw [List.flatten_cons, ih, List.cons_append, List.take_append_drop]

theorem ne_nil_of_mem_runsOf {run : List α} (h : run ∈ runsOf limit as) : run ≠ [] := by
  fun_induction runsOf limit as with
  | case1 => simp at h
  | case2 a as ih =>
    rcases List.mem_cons.mp h with rfl | h
    · exact List.cons_ne_nil _ _
    · exact ih h

theorem length_le_of_mem_runsOf (hlimit : 0 < limit) {run : List α} (h : run ∈ runsOf limit as) :
    run.length ≤ limit := by
  fun_induction runsOf limit as with
  | case1 => simp at h
  | case2 a as ih =>
    rcases List.mem_cons.mp h with rfl | h
    · rw [List.length_cons, List.length_take]
      omega
    · exact ih h

theorem runsOf_of_length_le (h : as ≠ []) (hlength : as.length ≤ limit) :
    runsOf limit as = [as] := by
  have hlimit : 0 < limit := Nat.lt_of_lt_of_le (List.length_pos_iff.mpr h) hlength
  rw [runsOf_eq_cons hlimit h, List.take_of_length_le hlength, List.drop_of_length_le hlength,
    runsOf_nil]

end Runs

/-! ### Cutting a text -/

/-- The runs without a last one that is a single empty item. -/
def dropBlank (runs : List (List (List Char))) : List (List (List Char)) :=
  if runs.getLast? = some [[]] then runs.dropLast else runs

theorem dropBlank_singleton (run : List (List Char)) :
    dropBlank [run] = if run = [[]] then [] else [run] := by
  simp [dropBlank]

theorem dropBlank_cons {runs : List (List (List Char))} (h : runs ≠ []) (run : List (List Char)) :
    dropBlank (run :: runs) = run :: dropBlank runs := by
  obtain ⟨run', runs, rfl⟩ := List.exists_cons_of_ne_nil h
  simp only [dropBlank, List.getLast?_cons_cons, List.dropLast_cons_cons]
  split <;> rfl

/-- A character in front of a text is one in front of its first piece, whether it belongs to the
first item or is a blank behind a new one. -/
theorem cons_map_joined_dropBlank {run run' : List (List Char)} {c : Char}
    (h : joined run' = c :: joined run) (runs : List (List (List Char))) :
    (match (dropBlank (run :: runs)).map joined with
      | [] => [[c]]
      | piece :: pieces => (c :: piece) :: pieces) = (dropBlank (run' :: runs)).map joined := by
  have hrun' : run' ≠ [[]] := by
    rintro rfl
    simp at h
  by_cases hruns : runs = []
  · subst hruns
    rw [dropBlank_singleton, dropBlank_singleton, if_neg hrun']
    by_cases hrun : run = [[]]
    · subst hrun
      simp [h]
    · simp [hrun, h]
  · simp [dropBlank_cons hruns, h]

/-- Cutting a text at every so many blanks is cutting the list of its items. Some blanks may have
gone by since the last cut, so that there is less room in the first run. -/
theorem cutAt_eq {limit count room : Nat} (hroom : 0 < room) (hcount : count + room = limit)
    (cs : List Char) :
    cutAt limit count cs = (dropBlank ((cs.splitOn ' ').take room ::
      runsOf limit ((cs.splitOn ' ').drop room))).map joined := by
  induction cs generalizing count room with
  | nil =>
    obtain ⟨n, rfl⟩ := Nat.exists_eq_succ_of_ne_zero (Nat.ne_of_gt hroom)
    simp [cutAt, dropBlank]
  | cons c cs ih =>
    have hsplit := List.splitOn_ne_nil ' ' cs
    rw [cutAt, List.splitOn_cons_eq_if_modifyHead]
    by_cases hc : c = ' '
    · subst hc
      obtain ⟨n, rfl⟩ := Nat.exists_eq_succ_of_ne_zero (Nat.ne_of_gt hroom)
      by_cases hlimit : count + 1 = limit
      · -- the first run is full
        obtain rfl : n = 0 := by omega
        have hpos : 0 < limit := by omega
        have hruns := runsOf_eq_cons hpos hsplit
        have hcut := ih hpos (Nat.zero_add limit)
        rw [← hruns] at hcut
        simp [hlimit, hcut, dropBlank_cons (hruns ▸ List.cons_ne_nil _ _)]
      · have hcut := ih (by omega) (show count + 1 + n = limit by omega)
        have htake : (cs.splitOn ' ').take n ≠ [] := by
          simp [hsplit]
          omega
        simp only [hlimit, and_false, if_false, if_true, beq_self_eq_true, hcut,
          List.take_succ_cons, List.drop_succ_cons]
        exact cons_map_joined_dropBlank (joined_cons htake []) _
    · have hcut := ih hroom hcount
      obtain ⟨item, items, hitems⟩ := List.exists_cons_of_ne_nil hsplit
      obtain ⟨n, rfl⟩ := Nat.exists_eq_succ_of_ne_zero (Nat.ne_of_gt hroom)
      rw [hitems] at hcut ⊢
      simp only [hc, false_and, if_false, hcut, beq_iff_eq, List.modifyHead_cons,
        List.take_succ_cons, List.drop_succ_cons]
      exact cons_map_joined_dropBlank List.intercalate_cons_cons_left _

/-! ### Segments -/

/-- The runs of so many items that make a segment: all but a last one that is a single empty item,
unless it is the only one. -/
def segmentRuns (limit : Nat) (items : List (List Char)) : List (List (List Char)) :=
  if (runsOf limit items).getLast? = some [[]] ∧ (runsOf limit items).length ≠ 1 then
    (runsOf limit items).dropLast
  else runsOf limit items

section Segments

variable {limit : Nat} {items run : List (List Char)}

/-- Every run makes a segment, but for an empty item that may stand behind those that do. -/
theorem segmentRuns_cases (limit : Nat) (items : List (List Char)) :
    segmentRuns limit items = runsOf limit items ∨
      segmentRuns limit items ≠ [] ∧ segmentRuns limit items ++ [[[]]] = runsOf limit items := by
  rw [segmentRuns]
  split
  · next h =>
    obtain ⟨hlast, hlength⟩ := h
    obtain ⟨runs, hruns⟩ := List.getLast?_eq_some_iff.mp hlast
    rw [hruns] at hlength ⊢
    rw [List.dropLast_concat]
    refine .inr ⟨?_, rfl⟩
    rintro rfl
    exact hlength rfl
  · exact .inl rfl

theorem mem_runsOf_of_mem_segmentRuns (h : run ∈ segmentRuns limit items) :
    run ∈ runsOf limit items := by
  rcases segmentRuns_cases limit items with hruns | ⟨-, hruns⟩
  · exact hruns ▸ h
  · exact hruns ▸ List.mem_append_left _ h

/-- The items of all segments are the items of the line, but for an empty one at the end. -/
theorem flatten_segmentRuns (limit : Nat) (items : List (List Char)) :
    (segmentRuns limit items).flatten = items ∨
      (segmentRuns limit items).flatten ≠ [] ∧
        (segmentRuns limit items).flatten ++ [[]] = items := by
  rcases segmentRuns_cases limit items with hruns | ⟨hne, hruns⟩
  · rw [hruns]
    exact .inl (flatten_runsOf limit items)
  · refine .inr ⟨?_, ?_⟩
    · obtain ⟨run, runs, hcons⟩ := List.exists_cons_of_ne_nil hne
      have hrun : run ∈ segmentRuns limit items := hcons ▸ List.mem_cons_self
      simp [hcons, ne_nil_of_mem_runsOf (mem_runsOf_of_mem_segmentRuns hrun)]
    · have hflatten := flatten_runsOf limit items
      rwa [← hruns, List.flatten_append] at hflatten

theorem segmentRuns_of_length_le (h : items ≠ []) (hlength : items.length ≤ limit) :
    segmentRuns limit items = [items] := by
  simp [segmentRuns, runsOf_of_length_le h hlength]

theorem itemsOf_ne_nil (line : String) : itemsOf line ≠ [] := List.splitOn_ne_nil _ _

/-- The segments of a line are the lines of the runs of its items. -/
theorem segments_eq_map (line : String) (limit : Nat) :
    segments line limit = (segmentRuns (max limit 1) (itemsOf line)).map lineOf := by
  have hlimit : 0 < max limit 1 := by omega
  have hcut := cutAt_eq hlimit (Nat.zero_add _) line.toList
  rw [← itemsOf, ← runsOf_eq_cons hlimit (itemsOf_ne_nil line)] at hcut
  rw [segments, hcut, segmentRuns, dropBlank]
  have hne : runsOf (max limit 1) (itemsOf line) ≠ [] := by
    rw [runsOf_eq_cons hlimit (itemsOf_ne_nil line)]
    exact List.cons_ne_nil _ _
  generalize runsOf (max limit 1) (itemsOf line) = runs at hne
  by_cases hlast : runs.getLast? = some [[]]
  · obtain ⟨init, rfl⟩ := List.getLast?_eq_some_iff.mp hlast
    cases init with
    | nil => simp [lineOf, joined]
    | cons run init =>
      rw [if_pos hlast, if_pos ⟨hlast, by simp⟩, List.dropLast_concat]
      simp [lineOf, Function.comp_def]
  · obtain ⟨run, runs, rfl⟩ := List.exists_cons_of_ne_nil hne
    simp [hlast, lineOf, Function.comp_def]

/-- The line of a run that makes a segment has the items of the run. -/
theorem itemsOf_lineOf_of_mem {line : String} (h : run ∈ segmentRuns limit (itemsOf line)) :
    itemsOf (lineOf run) = run := by
  have hrun := mem_runsOf_of_mem_segmentRuns h
  refine itemsOf_lineOf (ne_nil_of_mem_runsOf hrun) fun item hitem => ?_
  have hmem : item ∈ itemsOf line := by
    rw [← flatten_runsOf limit (itemsOf line)]
    exact List.mem_flatten.mpr ⟨run, hrun, hitem⟩
  exact notMem_of_mem_splitOn hmem

/-- The tokens of a list of items. -/
def tokensOf (items : List (List Char)) : List Token :=
  items.filterMap fun item => classify (String.ofList item)

theorem tokensOf_append_blank (items : List (List Char)) :
    tokensOf (items ++ [[]]) = tokensOf items := by
  have hblank : classify (String.ofList []) = none := by decide
  simp [tokensOf, hblank]

/-- The segments of a line have together the tokens of the line. -/
theorem flatMap_tokenize_segments (line : String) (limit : Nat) :
    (segments line limit).flatMap tokenize = tokenize line := by
  have hrun : ∀ run ∈ segmentRuns (max limit 1) (itemsOf line),
      tokenize (lineOf run) = tokensOf run := fun run hrun =>
    congrArg tokensOf (itemsOf_lineOf_of_mem hrun)
  calc (segments line limit).flatMap tokenize
      = (segmentRuns (max limit 1) (itemsOf line)).flatMap tokensOf := by
        rw [segments_eq_map, List.flatMap_map, List.flatMap_def, List.map_congr_left hrun,
          List.flatMap_def]
    _ = tokensOf (segmentRuns (max limit 1) (itemsOf line)).flatten := by
        rw [tokensOf, List.filterMap_flatten, List.flatMap_def]
        rfl
    _ = tokensOf (itemsOf line) := by
        rcases flatten_segmentRuns (max limit 1) (itemsOf line) with h | ⟨-, h⟩
        · rw [h]
        · rw [← tokensOf_append_blank, h]

/-- The segments with blanks between them are the line, up to a blank at its end. -/
theorem intercalate_segments (line : String) (limit : Nat) :
    " ".intercalate (segments line limit) = line ∨
      " ".intercalate (segments line limit) ++ " " = line := by
  have hjoin : " ".intercalate (segments line limit) =
      lineOf (segmentRuns (max limit 1) (itemsOf line)).flatten := by
    apply String.toList_injective
    have hruns : ∀ run ∈ segmentRuns (max limit 1) (itemsOf line), run ≠ [] := fun run hrun =>
      ne_nil_of_mem_runsOf (mem_runsOf_of_mem_segmentRuns hrun)
    rw [lineOf, String.toList_ofList, ← joined_map_joined hruns, segments_eq_map]
    simp [joined, lineOf, Function.comp_def]
    rfl
  rw [hjoin]
  rcases flatten_segmentRuns (max limit 1) (itemsOf line) with h | ⟨hne, h⟩
  · rw [h]
    exact .inl (lineOf_itemsOf line)
  · have hline := lineOf_itemsOf line
    rw [← h, lineOf, joined_append hne (List.cons_ne_nil _ _), joined_singleton,
      String.ofList_append] at hline
    exact .inr hline

end Segments

/-- The segments of a line are the lines of the runs of its items, without a last run that is a
single empty item. No segment has more items than the limit allows; a line that has no more is its
only segment; with blanks between them the segments are the line again, up to a blank at its end;
and their tokens are the tokens of the line. -/
theorem segments_lossless (line : String) (limit : Nat) :
    segments line limit = (segmentRuns (max limit 1) (itemsOf line)).map lineOf ∧
      (∀ segment ∈ segments line limit, (itemsOf segment).length ≤ max limit 1) ∧
      ((itemsOf line).length ≤ max limit 1 → segments line limit = [line]) ∧
      (" ".intercalate (segments line limit) = line ∨
        " ".intercalate (segments line limit) ++ " " = line) ∧
      (segments line limit).flatMap tokenize = tokenize line := by
  refine ⟨segments_eq_map line limit, fun segment hsegment => ?_, fun hlength => ?_,
    intercalate_segments line limit, flatMap_tokenize_segments line limit⟩
  · rw [segments_eq_map] at hsegment
    obtain ⟨run, hrun, rfl⟩ := List.mem_map.mp hsegment
    rw [itemsOf_lineOf_of_mem hrun]
    exact length_le_of_mem_runsOf (by omega) (mem_runsOf_of_mem_segmentRuns hrun)
  · rw [segments_eq_map, segmentRuns_of_length_le (itemsOf_ne_nil line) hlength, List.map_singleton,
      lineOf_itemsOf]

/-- A cut at the last blank leaves an empty item, which is no segment; with a smaller limit the item
belongs to the last run. A line that is short enough is left as it is, blanks included. -/
theorem segments_lossless_trailing_blank :
    segments "en bil kom " 3 = ["en bil kom"] ∧ segments "en bil kom " 2 = ["en bil", "kom "] ∧
      "kom " ∈ segments "en bil kom " 2 ∧ (itemsOf "kom ").length ≤ max 2 1 ∧
      (itemsOf " kom ").length ≤ max 3 1 ∧ segments " kom " 3 = [" kom "] := by
  have hmem : "kom " ∈ segments "en bil kom " 2 := by decide +kernel
  have hshort : (itemsOf " kom ").length ≤ max 3 1 := by decide +kernel
  exact ⟨by decide +kernel, by decide +kernel, hmem,
    (segments_lossless "en bil kom " 2).2.1 "kom " hmem, hshort,
    (segments_lossless " kom " 3).2.2.1 hshort⟩

end NounPhrase
