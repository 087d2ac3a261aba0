import Mathlib.Data.List.Infix
import Mathlib.Data.List.Perm.Subperm
import NounPhrase.Proofs.Recognition.Moments

/-!
# The ledger of a recognition

The events of a recognition are cut into the logs of its attempts: a log ends where the attempt
accepts its tokens or gives up. In a log the columns of the failures go up from one to the next,
and only the failure with which an attempt gives up may be at the column of the one before it.
Every failure makes the sentence rule longer by one symbol, and every attempt that gives up costs
the last token, so that the tokens and the sentence rule at the end can be read off the events.

## Main definitions

* `Failure`, `failures`: the failures that events report.
* `attemptLogs`: the events, attempt by attempt.
* `AttemptLog`, `RecognitionLog`: what an attempt and a recognition report.
* `IsFailureRun`: columns at which an attempt can fail.
* `Recognition.Balances`: the events account for the tokens and the sentence rule at the end.

## Main results

* `attemptLog_attempt`, `recognitionLog_recognizeFrom`: attempts and recognitions report so.
* `AttemptLog.isFailureRun`: failures of an attempt are at columns of its tokens, and go up.
* `column_ne_nil_of_after`: no column is empty before the one that is about to be built.
* `recognize_balances`: a recognition ends, fails where there is a token, and balances.
-/

namespace NounPhrase

/-! ### Events and failures -/

/-- A failure: the column that stayed empty, or the one behind the last token, and the number of
symbols of the sentence rule once it has been widened. -/
structure Failure where
  column : Nat
  entryLength : Nat

namespace Event

/-- The failure that is reported. -/
def failure? : Event → Option Failure
  | widened column entryLength => some ⟨column, entryLength⟩
  | restarted column entryLength => some ⟨column, entryLength⟩
  | _ => none

/-- Whether a token is dropped. -/
def isRestart : Event → Bool
  | restarted .. => true
  | _ => false

/-- Whether a column was built. -/
def isBuiltColumn : Event → Bool
  | builtColumn .. => true
  | _ => false

end Event

/-- The failures that the events report, in order. -/
def failures (es : List Event) : List Failure := es.filterMap Event.failure?

/-- How many tokens the events report as dropped. -/
def restarts (es : List Event) : Nat := es.countP Event.isRestart

/-- The events of every attempt. An attempt ends with the event that drops a token, or with the
last event; that all tokens are used up is no event of an attempt. -/
def attemptLogs : List Event → List (List Event)
  | [] => []
  | .restarted column entryLength :: es => [.restarted column entryLength] :: attemptLogs es
  | .exhausted _ :: es => attemptLogs es
  | e :: es => (e :: (attemptLogs es).headD []) :: (attemptLogs es).tail

section Failures

variable {e : Event} {es es' : List Event} {f : Failure}

theorem failures_cons_of_some (h : e.failure? = some f) :
    failures (e :: es) = f :: failures es :=
  List.filterMap_cons_some h

theorem failures_append (es es' : List Event) :
    failures (es ++ es') = failures es ++ failures es' :=
  List.filterMap_append

theorem restarts_append (es es' : List Event) :
    restarts (es ++ es') = restarts es + restarts es' :=
  List.countP_append

/-- That a column was built is no failure. -/
theorem failures_append_of_built (h : ∀ e ∈ es, e.isBuiltColumn) :
    failures (es ++ es') = failures es' := by
  have hnil : failures es = [] := List.filterMap_eq_nil_iff.mpr fun e he => by
    cases e with
    | builtColumn => rfl
    | _ => exact absurd (h _ he) Bool.false_ne_true
  rw [failures_append, hnil, List.nil_append]

/-- That a column was built drops no token. -/
theorem restarts_append_of_built (h : ∀ e ∈ es, e.isBuiltColumn) :
    restarts (es ++ es') = restarts es' := by
  have hzero : restarts es = 0 := List.countP_eq_zero.mpr fun e he => by
    cases e with
    | builtColumn => exact Bool.false_ne_true
    | _ => exact absurd (h _ he) Bool.false_ne_true
  rw [restarts_append, hzero, Nat.zero_add]

/-- An event that neither drops a token nor comes when all are used up belongs to the log that
follows. -/
theorem attemptLogs_cons {log : List Event} {logs : List (List Event)}
    (he : ∀ column entryLength, e ≠ .restarted column entryLength)
    (he' : ∀ entryLength, e ≠ .exhausted entryLength) (hlogs : attemptLogs es = log :: logs) :
    attemptLogs (e :: es) = (e :: log) :: logs := by
  rw [attemptLogs, hlogs]
  · rfl
  · exact he
  · exact he'

/-- What an attempt reports before its last event belongs to its log. -/
theorem attemptLogs_append_of_built {log : List Event} {logs : List (List Event)}
    (h : ∀ e ∈ es, e.isBuiltColumn) (hlogs : attemptLogs es' = log :: logs) :
    attemptLogs (es ++ es') = (es ++ log) :: logs := by
  induction es with
  | nil => exact hlogs
  | cons e es ih =>
    rw [List.forall_mem_cons] at h
    cases e with
    | builtColumn => exact attemptLogs_cons nofun nofun (ih h.2)
    | _ => exact absurd h.1 Bool.false_ne_true

end Failures

/-! ### What attempts and recognitions report -/

/-- What an attempt reports that begins behind the failure which blamed token `last`, with so many
symbols in the sentence rule, and how many symbols the sentence rule has at the end: it accepts, or
blames the same word again and gives up, or blames another word further on and goes on. -/
inductive AttemptLog (tokens : List Token) : Option Nat → Nat → List Event → Nat → Bool → Prop
  | accepted {last : Option Nat} {entryLength : Nat} {built : List Event} (ambiguities : Nat)
      (hbuilt : ∀ e ∈ built, e.isBuiltColumn) :
      AttemptLog tokens last entryLength
        (built ++ [.accepted tokens.length entryLength ambiguities]) entryLength true
  | restarted {entryLength l b : Nat} {built : List Event}
      (hbuilt : ∀ e ∈ built, e.isBuiltColumn) (hlt : b < tokens.length) (hle : l ≤ b)
      (hword : wordAt tokens l = wordAt tokens b) :
      AttemptLog tokens (some l) entryLength (built ++ [.restarted (b + 1) (entryLength + 1)])
        (entryLength + 1) false
  | widened {last : Option Nat} {entryLength b entryLength' : Nat} {built log : List Event}
      {isAccepted : Bool} (hbuilt : ∀ e ∈ built, e.isBuiltColumn) (hlt : b < tokens.length)
      (hlast : ∀ l, last = some l → l ≤ b ∧ wordAt tokens l ≠ wordAt tokens b)
      (rest : AttemptLog tokens (some b) (entryLength + 1) log entryLength' isAccepted) :
      AttemptLog tokens last entryLength (built ++ .widened (b + 1) (entryLength + 1) :: log)
        entryLength' isAccepted

/-- What a recognition of tokens reports that begins with so many symbols in the sentence rule, and
what it comes to: an attempt after the other, each without the last token of the one before. -/
inductive RecognitionLog : List Token → Nat → List Event → Option Derivation → Prop
  | exhausted (entryLength : Nat) : RecognitionLog [] entryLength [.exhausted entryLength] none
  | accepted {entryLength : Nat} {es : List Event} {d : Derivation} (hne : d.tokens ≠ [])
      (h : AttemptLog d.tokens none entryLength es d.grammar.entryLength true) :
      RecognitionLog d.tokens entryLength es (some d)
  | restarted {tokens : List Token} {entryLength entryLength' : Nat} {es es' : List Event}
      {d : Option Derivation} (hne : tokens ≠ [])
      (h : AttemptLog tokens none entryLength es entryLength' false)
      (rest : RecognitionLog tokens.dropLast entryLength' es' d) :
      RecognitionLog tokens entryLength (es ++ es') d

/-- A pass reports nothing but columns. -/
theorem isBuiltColumn_of_mem_pass {w : WidenedGrammar} {admits : Terminal → List Symbol → Bool}
    {k : Nat} {s : ParseState} {rest : List Token} :
    ∀ e ∈ (pass w admits k s rest).events, e.isBuiltColumn := by
  induction rest generalizing k s with
  | nil => simp [pass, Event.isBuiltColumn]
  | cons token rest ih =>
    rw [pass]
    split
    · simp [Event.isBuiltColumn]
    · exact List.forall_mem_cons.mpr ⟨rfl, ih⟩

/-- An attempt reports what attempts report. -/
theorem attemptLog_attempt (admits : Terminal → List Symbol → Bool) {tokens : List Token}
    (hne : tokens ≠ []) (last : Option (Fin tokens.length)) (w : WidenedGrammar)
    (s : ParseState) :
    AttemptLog tokens (last.map Fin.val) w.entryLength (attempt admits tokens hne last w s).1
      (attempt admits tokens hne last w s).2.1.entryLength
      (attempt admits tokens hne last w s).2.2.isSome := by
  fun_induction attempt admits tokens hne last w s with
  | case1 last w s k p => exact .accepted _ isBuiltColumn_of_mem_pass
  | case2 last w s k p b =>
    rename_i hb hw
    cases last with
    | none => simp at hw
    | some l =>
      simp only [Option.map_some, WidenedGrammar.entryLength_widen]
      exact .restarted isBuiltColumn_of_mem_pass hb.2 hb.1 (Option.some.inj hw)
  | case3 last w s k p b =>
    rename_i hb hw r ih
    rw [WidenedGrammar.entryLength_widen] at ih
    simp only [WidenedGrammar.entryLength_widen]
    refine .widened isBuiltColumn_of_mem_pass hb.2 (fun l hl => ?_) ih
    obtain ⟨l, rfl, rfl⟩ := Option.map_eq_some_iff.mp hl
    exact ⟨hb.1, fun hword => hw (congrArg some hword)⟩

/-- A recognition reports what recognitions report. -/
theorem recognitionLog_recognizeFrom (admits : Terminal → List Symbol → Bool) (w : WidenedGrammar)
    (tokens : List Token) :
    RecognitionLog tokens w.entryLength (recognizeFrom admits w tokens).events
      (recognizeFrom admits w tokens).derivation := by
  have hattempt {tokens : List Token} (hne : tokens ≠ []) {w w' : WidenedGrammar}
      {es : List Event} {o : Option ParseState}
      (he : attempt admits tokens hne none w (.initial w) = (es, w', o)) :
      AttemptLog tokens none w.entryLength es w'.entryLength o.isSome := by
    have h := attemptLog_attempt admits hne none w (.initial w)
    rw [he] at h
    exact h
  fun_induction recognizeFrom admits w tokens with
  | case1 w => exact .exhausted _
  | case2 w tokens hne events w' s he =>
    exact .accepted (d := ⟨w', s.chart, s.forest, tokens⟩) hne (hattempt hne he)
  | case3 w tokens hne events w' he r ih => exact .restarted hne (hattempt hne he) ih

/-! ### The log of an attempt -/

/-- Columns at which an attempt on `n` tokens can fail, in order: there is a token before each of
them, and each lies behind the one before it, but that the last one may be the same again. -/
structure IsFailureRun (n : Nat) (columns : List Nat) : Prop where
  bounds : ∀ f ∈ columns, 1 ≤ f ∧ f ≤ n
  le : columns.Pairwise (· ≤ ·)
  lt : columns.dropLast.Pairwise (· < ·)

namespace IsFailureRun

variable {n a b : Nat} {columns : List Nat}

theorem cons (h : IsFailureRun n (b :: columns)) (ha : 1 ≤ a) (hab : a < b) :
    IsFailureRun n (a :: b :: columns) := by
  have hbounds := h.bounds b List.mem_cons_self
  have hmin : ∀ f ∈ b :: columns, b ≤ f := fun f hf => by
    rcases List.mem_cons.mp hf with rfl | hf
    · exact Nat.le_refl _
    · exact List.rel_of_pairwise_cons h.le hf
  refine ⟨List.forall_mem_cons.mpr ⟨⟨ha, by omega⟩, h.bounds⟩,
    List.pairwise_cons.mpr ⟨fun f hf => ?_, h.le⟩, ?_⟩
  · have := hmin f hf
    omega
  · rw [List.dropLast_cons_of_ne_nil (List.cons_ne_nil _ _)]
    refine List.pairwise_cons.mpr ⟨fun f hf => ?_, h.lt⟩
    have := hmin f (List.mem_of_mem_dropLast hf)
    omega

/-- There are at most as many failures as tokens, and one more. -/
theorem length_le (h : IsFailureRun n columns) : columns.length ≤ n + 1 := by
  have hsub : columns.dropLast ⊆ List.range' 1 n := fun f hf => by
    have := h.bounds f (List.mem_of_mem_dropLast hf)
    exact List.mem_range'_1.mpr (by omega)
  have hle := (List.subperm_of_subset (h.lt.imp Nat.ne_of_lt) hsub).length_le
  rw [List.length_dropLast, List.length_range'] at hle
  omega

end IsFailureRun

namespace AttemptLog

variable {tokens : List Token} {last : Option Nat} {entryLength entryLength' : Nat}
  {log : List Event} {isAccepted : Bool}

/-- Behind a failure an attempt fails at columns further on, or once more at the same column. -/
theorem isFailureRun_cons {l : Nat}
    (h : AttemptLog tokens (some l) entryLength log entryLength' isAccepted)
    (hl : l < tokens.length) :
    IsFailureRun tokens.length ((l + 1) :: (failures log).map Failure.column) := by
  generalize hlast : some l = last at h
  induction h generalizing l with
  | accepted _ hbuilt =>
    rw [failures_append_of_built hbuilt]
    exact ⟨List.forall_mem_singleton.mpr ⟨Nat.succ_pos l, hl⟩, List.pairwise_singleton _ _, .nil⟩
  | restarted hbuilt hlt hle =>
    obtain rfl := Option.some.inj hlast
    rw [failures_append_of_built hbuilt]
    exact ⟨List.forall_mem_cons.mpr ⟨⟨Nat.succ_pos l, hl⟩,
        List.forall_mem_singleton.mpr ⟨Nat.succ_pos _, hlt⟩⟩,
      List.pairwise_pair.mpr (Nat.succ_le_succ hle), List.pairwise_singleton _ _⟩
  | widened hbuilt hlt hlast' _ ih =>
    obtain ⟨hle, hword⟩ := hlast' l hlast.symm
    -- the word of the token blamed last is another one, so the token is another one
    have hlb := Nat.lt_of_le_of_ne hle fun h => hword (congrArg (wordAt tokens) h)
    rw [failures_append_of_built hbuilt, failures_cons_of_some rfl]
    exact (ih hlt rfl).cons (Nat.succ_pos _) (Nat.succ_lt_succ hlb)

/-- The failures of an attempt are at columns behind its tokens, and go up, but that the last one
may be at the column of the one before it. -/
theorem isFailureRun (h : AttemptLog tokens none entryLength log entryLength' isAccepted) :
    IsFailureRun tokens.length ((failures log).map Failure.column) := by
  generalize hlast : none = last at h
  cases h with
  | accepted _ hbuilt =>
    rw [failures_append_of_built hbuilt]
    exact ⟨nofun, .nil, .nil⟩
  | restarted => simp at hlast
  | widened hbuilt hlt _ rest =>
    rw [failures_append_of_built hbuilt, failures_cons_of_some rfl]
    exact rest.isFailureRun_cons hlt

/-- Every failure makes the sentence rule longer by one symbol. -/
theorem entryLength_eq (h : AttemptLog tokens last entryLength log entryLength' isAccepted) :
    (failures log).map Failure.entryLength =
        List.range' (entryLength + 1) (failures log).length ∧
      entryLength' = entryLength + (failures log).length := by
  induction h with
  | accepted _ hbuilt =>
    rw [failures_append_of_built hbuilt]
    exact ⟨rfl, rfl⟩
  | restarted hbuilt =>
    rw [failures_append_of_built hbuilt]
    exact ⟨rfl, rfl⟩
  | widened hbuilt _ _ _ ih =>
    rw [failures_append_of_built hbuilt, failures_cons_of_some rfl, List.map_cons, ih.1, ih.2,
      List.length_cons]
    exact ⟨List.range'_succ.symm, by omega⟩

/-- An attempt drops a token if it does not accept. -/
theorem restarts_eq (h : AttemptLog tokens last entryLength log entryLength' isAccepted) :
    restarts log = if isAccepted then 0 else 1 := by
  induction h with
  | accepted _ hbuilt =>
    rw [restarts_append_of_built hbuilt]
    rfl
  | restarted hbuilt =>
    rw [restarts_append_of_built hbuilt]
    rfl
  | widened hbuilt _ _ _ ih =>
    rw [restarts_append_of_built hbuilt]
    exact ih

/-- The log of an attempt that gives up is cut off from what follows. -/
theorem attemptLogs_append
    (h : AttemptLog tokens last entryLength log entryLength' isAccepted)
    (hgives : isAccepted = false) (es : List Event) :
    attemptLogs (log ++ es) = log :: attemptLogs es := by
  induction h with
  | accepted => simp at hgives
  | restarted hbuilt =>
    rw [List.append_assoc]
    exact attemptLogs_append_of_built hbuilt rfl
  | widened hbuilt _ _ _ ih =>
    rw [List.append_assoc]
    exact attemptLogs_append_of_built hbuilt (attemptLogs_cons nofun nofun (ih hgives))

/-- The log of an attempt that accepts is one log. -/
theorem attemptLogs_eq (h : AttemptLog tokens last entryLength log entryLength' isAccepted)
    (haccepts : isAccepted = true) : attemptLogs log = [log] := by
  induction h with
  | accepted _ hbuilt => exact attemptLogs_append_of_built hbuilt rfl
  | restarted => simp at haccepts
  | widened hbuilt _ _ _ ih =>
    exact attemptLogs_append_of_built hbuilt (attemptLogs_cons nofun nofun (ih haccepts))

end AttemptLog

/-! ### The log of a recognition -/

namespace RecognitionLog

variable {tokens : List Token} {entryLength : Nat} {es : List Event} {d : Option Derivation}

/-- Dropping the last token and then `i` more is dropping `i + 1`. -/
theorem take_dropLast (tokens : List Token) (i : Nat) :
    tokens.dropLast.take (tokens.dropLast.length - i) = tokens.take (tokens.length - (i + 1)) := by
  rw [List.length_dropLast, List.dropLast_eq_take, List.take_take]
  congr 1
  omega

/-- There are no more attempts than tokens. -/
theorem length_attemptLogs_le (h : RecognitionLog tokens entryLength es d) :
    (attemptLogs es).length ≤ tokens.length := by
  induction h with
  | exhausted => exact Nat.le_refl 0
  | accepted hne h =>
    rw [h.attemptLogs_eq rfl]
    exact List.length_pos_iff.mpr hne
  | restarted hne h _ ih =>
    have := List.length_pos_iff.mpr hne
    rw [List.length_dropLast] at ih
    rw [h.attemptLogs_append rfl, List.length_cons]
    omega

/-- The attempts are on fewer and fewer tokens. -/
theorem attemptLog_of_getElem? (h : RecognitionLog tokens entryLength es d) {i : Nat}
    {log : List Event} (hlog : (attemptLogs es)[i]? = some log) :
    ∃ entryLength entryLength' isAccepted, AttemptLog (tokens.take (tokens.length - i)) none
      entryLength log entryLength' isAccepted := by
  induction h generalizing i with
  | exhausted => simp [attemptLogs] at hlog
  | accepted hne h =>
    rw [h.attemptLogs_eq rfl, List.getElem?_singleton] at hlog
    split at hlog
    · next hi =>
      obtain rfl := Option.some.inj hlog
      rw [hi, Nat.sub_zero, List.take_length]
      exact ⟨_, _, _, h⟩
    · simp at hlog
  | restarted hne h _ ih =>
    rw [h.attemptLogs_append rfl] at hlog
    cases i with
    | zero =>
      obtain rfl := Option.some.inj hlog
      rw [Nat.sub_zero, List.take_length]
      exact ⟨_, _, _, h⟩
    | succ i =>
      rw [← take_dropLast]
      exact ih hlog

/-- The numbers of symbols of the sentence rule after the failures, one after the other. -/
theorem map_entryLength_failures (h : RecognitionLog tokens entryLength es d) :
    (failures es).map Failure.entryLength =
      List.range' (entryLength + 1) (failures es).length := by
  induction h with
  | exhausted => rfl
  | accepted _ h => exact h.entryLength_eq.1
  | restarted _ h _ ih =>
    obtain ⟨hlengths, rfl⟩ := h.entryLength_eq
    rw [failures_append, List.map_append, hlengths, ih, List.length_append, ← List.range'_append_1]
    congr 2
    omega

/-- The sentence rule at the end has a symbol more for every failure. -/
theorem entryLength_eq (h : RecognitionLog tokens entryLength es d) :
    (∀ d', d = some d' → d'.grammar.entryLength = entryLength + (failures es).length) ∧
      (d = none → es.getLast? = some (.exhausted (entryLength + (failures es).length))) := by
  induction h with
  | exhausted => simp [failures, Event.failure?]
  | accepted _ h =>
    refine ⟨fun d' hd => ?_, nofun⟩
    obtain rfl := Option.some.inj hd
    exact h.entryLength_eq.2
  | restarted _ h _ ih =>
    rw [h.entryLength_eq.2] at ih
    rw [failures_append, List.length_append, ← Nat.add_assoc]
    refine ⟨ih.1, fun hd => ?_⟩
    rw [List.getLast?_append, ih.2 hd, Option.some_or]

/-- The tokens at the end are those that were not dropped. -/
theorem tokens_eq (h : RecognitionLog tokens entryLength es d) {d' : Derivation}
    (hd : d = some d') : d'.tokens = tokens.take (tokens.length - restarts es) := by
  induction h with
  | exhausted => simp at hd
  | accepted _ h =>
    obtain rfl := Option.some.inj hd
    rw [h.restarts_eq, if_pos rfl, Nat.sub_zero, List.take_length]
  | restarted _ h _ ih =>
    rw [ih hd, take_dropLast, restarts_append, h.restarts_eq, if_neg Bool.false_ne_true,
      Nat.add_comm]

/-- Every token is dropped if there is no derivation, and only then. -/
theorem restarts_eq_iff (h : RecognitionLog tokens entryLength es d) :
    restarts es ≤ tokens.length ∧ (d = none ↔ restarts es = tokens.length) := by
  induction h with
  | exhausted => exact ⟨Nat.le_refl 0, iff_of_true rfl rfl⟩
  | accepted hne h =>
    have := List.length_pos_iff.mpr hne
    rw [h.restarts_eq, if_pos rfl]
    exact ⟨Nat.zero_le _, iff_of_false nofun (by omega)⟩
  | restarted hne h _ ih =>
    have := List.length_pos_iff.mpr hne
    rw [List.length_dropLast] at ih
    rw [restarts_append, h.restarts_eq, if_neg Bool.false_ne_true, ih.2]
    omega

end RecognitionLog

/-! ### Failures at their moments -/

/-- The events that the progress has reported. -/
def Progress.events : Progress → List Event
  | moment es _ => es
  | finish es _ => es

theorem Progress.events_log (o : Progress) (es : List Event) :
    (o.log es).events = es ++ o.events := by
  cases o <;> rfl

namespace Moment

variable {m : Moment} {b : Nat} {es : List Event}

/-- To recover from a failure is one failure, whether a token is dropped or not. -/
theorem failures_recover (m : Moment) (b : Nat) :
    failures (m.recover b).events = [⟨b + 1, m.grammar.widen.entryLength⟩] := by
  rw [recover]
  split
  · rw [Progress.events_log, failures_append, attempted]
    split <;> rfl
  · rfl

/-- A failure is at the column behind the token that is to blame. -/
theorem exists_blames_of_mem_failures {f : Failure} (hf : f ∈ failures m.step.events) :
    ∃ b, m.Blames b ∧ f.column = b + 1 := by
  have hrecover {b : Nat} (hf : f ∈ failures (m.build.recover b).events) : f.column = b + 1 := by
    rw [failures_recover, List.mem_singleton] at hf
    rw [hf]
  rw [step, Progress.events_log, failures_append, List.mem_append] at hf
  rcases hf with hf | hf
  · simp [failures, Event.failure?] at hf
  split at hf
  · next hlt =>
    split at hf
    · exact ⟨_, .inl ⟨rfl, hlt⟩, hrecover hf⟩
    · simp [Progress.events, failures] at hf
  · next hle =>
    split at hf
    · simp [conclude, Progress.events, failures, Event.failure?] at hf
    · exact ⟨_, .inr ⟨rfl, Nat.le_of_not_lt hle⟩, hrecover hf⟩

/-- Building empties no column. -/
theorem column_build_ne_nil {k : Nat} (h : m.state.chart.column k ≠ []) :
    m.build.state.chart.column k ≠ [] := fun hnil =>
  have hprefix := (ParseState.extends_build m.grammar _ m.lookahead m.column m.state).column k
  h (List.prefix_nil.mp (hnil ▸ hprefix))

end Moment

section After

variable {g : Grammar} {tokens : List Token} {n : Nat} {es : List Event} {m : Moment}

/-- No column is empty up to the one that is about to be built. -/
theorem column_ne_nil_of_after (h : g.after tokens n = .moment es m) :
    ∀ k ≤ m.column, m.state.chart.column k ≠ [] := by
  have hstart (w : WidenedGrammar) (ts : List Token) :
      ∀ k ≤ (Moment.start w ts).column, (Moment.start w ts).state.chart.column k ≠ [] := by
    rintro k hk
    obtain rfl := Nat.le_zero.mp hk
    exact List.ne_nil_of_mem (ParseState.mem_column_initial.mpr ⟨rfl, rfl⟩)
  induction n generalizing es m with
  | zero =>
    obtain ⟨-, rfl⟩ := Moment.attempted_eq_moment h
    exact hstart _ _
  | succ n ih =>
    obtain ⟨es₁, m₁, es₂, hn, hstep⟩ := exists_step_of_after_succ h
    have hbuilt : ∀ k ≤ m₁.column, m₁.build.state.chart.column k ≠ [] := fun k hk =>
      Moment.column_build_ne_nil (ih hn k hk)
    rcases Moment.step_cases hstep with ⟨rfl, -, hne⟩ | ⟨b, hb, -, -, rfl⟩ | ⟨-, rfl⟩
    · intro k hk
      rcases Nat.lt_or_eq_of_le hk with hk | rfl
      · exact hbuilt k (Nat.lt_succ_iff.mp hk)
      · exact hne
    · intro k hk
      have hk : k ≤ b := hk
      have := (isOf_of_after hn).lt_of_blames hb
      rw [Moment.recovered, ParseState.rollback, Chart.column_truncate,
        if_pos (Nat.lt_succ_of_le hk)]
      exact hbuilt k (by omega)
    · exact hstart _ _

/-- If the column behind a token has no items, then the failure is at the column of the moment. -/
theorem Moment.eq_column_of_blames (h : g.after tokens n = .moment es m) {b : Nat}
    (hb : m.Blames b) (hnil : m.build.state.chart.column (b + 1) = []) : b = m.column := by
  rcases hb with ⟨hb, -⟩ | ⟨hb, hle⟩
  · exact hb
  · have hpos := List.length_pos_iff.mpr (isOf_of_after h).ne_nil
    have hb : b + 1 = m.column := by omega
    exact absurd hnil (column_build_ne_nil (column_ne_nil_of_after h (b + 1) (Nat.le_of_eq hb)))

/-- A recognition fails only where there is a token before the column and the column before it has
items. -/
theorem bounds_of_mem_failures (h : g.after tokens n = .moment es m) {f : Failure}
    (hf : f ∈ failures m.step.events) :
    1 ≤ f.column ∧ f.column ≤ m.tokens.length ∧
      m.build.state.chart.column (f.column - 1) ≠ [] := by
  obtain ⟨b, hb, hcolumn⟩ := Moment.exists_blames_of_mem_failures hf
  have hlt := (isOf_of_after h).lt_of_blames hb
  rw [hcolumn, Nat.add_sub_cancel]
  exact ⟨Nat.succ_pos b, hlt.2, Moment.column_build_ne_nil (column_ne_nil_of_after h b hlt.1)⟩

end After

/-! ### Balance -/

/-- The events account for what a recognition of tokens comes to that begins with so many symbols
in the sentence rule. -/
structure Recognition.Balances (r : Recognition) (entryLength : Nat) (tokens : List Token) :
    Prop where
  /-- There are no more attempts than tokens. -/
  length_attempts_le : (attemptLogs r.events).length ≤ tokens.length
  /-- The first attempt is on all tokens, and every other one on one token less than the one before
  it. The columns of its failures go up. -/
  isFailureRun : ∀ i log, (attemptLogs r.events)[i]? = some log →
    IsFailureRun (tokens.length - i) ((failures log).map Failure.column)
  length_failures_le : ∀ i log, (attemptLogs r.events)[i]? = some log →
    (failures log).length ≤ tokens.length - i + 1
  /-- Every failure makes the sentence rule longer by one symbol. -/
  lengths_eq : (failures r.events).map Failure.entryLength =
    List.range' (entryLength + 1) (failures r.events).length
  entryLength_eq : ∀ d, r.derivation = some d →
    d.grammar.entryLength = entryLength + (failures r.events).length
  exhausted_eq : r.derivation = none →
    r.events.getLast? = some (.exhausted (entryLength + (failures r.events).length))
  /-- Every attempt that gives up drops the last token. -/
  tokens_eq : ∀ d, r.derivation = some d →
    d.tokens = tokens.take (tokens.length - restarts r.events)
  restarts_le : restarts r.events ≤ tokens.length
  none_iff : r.derivation = none ↔ restarts r.events = tokens.length

theorem RecognitionLog.balances {tokens : List Token} {entryLength : Nat} {r : Recognition}
    (h : RecognitionLog tokens entryLength r.events r.derivation) :
    r.Balances entryLength tokens := by
  have hrun (i : Nat) (log : List Event) (hlog : (attemptLogs r.events)[i]? = some log) :
      IsFailureRun (tokens.length - i) ((failures log).map Failure.column) := by
    obtain ⟨_, _, _, hattempt⟩ := h.attemptLog_of_getElem? hlog
    have hrun := hattempt.isFailureRun
    rwa [List.length_take, Nat.min_eq_left (Nat.sub_le _ _)] at hrun
  exact {
    length_attempts_le := h.length_attemptLogs_le
    isFailureRun := hrun
    length_failures_le := fun i log hlog => by
      have := (hrun i log hlog).length_le
      rwa [List.length_map] at this
    lengths_eq := h.map_entryLength_failures
    entryLength_eq := h.entryLength_eq.1
    exhausted_eq := h.entryLength_eq.2
    tokens_eq := fun _ => h.tokens_eq
    restarts_le := h.restarts_eq_iff.1
    none_iff := h.restarts_eq_iff.2 }

/-- Whatever the grammar and the tokens, a recognition comes to an end. Whenever it fails, there is
a token before the column at which it fails, and the column before that one has items. What it
reports accounts for the tokens and for the sentence rule at the end: in each attempt the columns
of the failures go up, every failure makes the sentence rule longer by one symbol, and every
attempt that gives up drops the last token, until the tokens are accepted or none is left. -/
theorem recognize_balances (g : Grammar) (tokens : List Token) :
    (∃ n, g.after tokens n =
        .finish (g.recognize tokens).events (g.recognize tokens).derivation) ∧
      (∀ n es m, g.after tokens n = .moment es m → ∀ f ∈ failures m.step.events,
        1 ≤ f.column ∧ f.column ≤ m.tokens.length ∧
          m.build.state.chart.column (f.column - 1) ≠ []) ∧
      (g.recognize tokens).Balances g.entry.rhs.length tokens := by
  have hlength : g.unwidened.entryLength = g.entry.rhs.length := by
    simp [WidenedGrammar.entryLength, WidenedGrammar.entry, Grammar.unwidened]
  have hlog := recognitionLog_recognizeFrom g.admits g.unwidened tokens
  rw [hlength] at hlog
  exact ⟨exists_after_eq_finish g tokens, fun _ _ _ h _ => bounds_of_mem_failures h, hlog.balances⟩

end NounPhrase
