import NounPhrase.Chart.Closure
import NounPhrase.Event
import NounPhrase.Forest.Tree

/-!
# Recognition with recovery

A pass builds the columns of a sentence from left to right. It fails at the first column that
stays empty, or at the end if no item accepts, and blames the token before that column, or the
last token. An attempt answers a failure by widening the sentence rule and taking up the pass
again at the blamed token, with everything behind it forgotten. If a failure blames the same word
as the one before it, the attempt gives up: the last token is dropped, and the sentence rule, wider
again by one, goes into an attempt on the tokens that are left.

## Main definitions

* `Pass`, `pass`: the outcome of a pass, and passes.
* `attempt`: passes over the same tokens with wider and wider sentence rules.
* `Derivation`, `Derivation.tree`: an accepted sentence and its tree.
* `recognizeFrom`, `Grammar.recognize`: attempts on fewer and fewer tokens.
* `Grammar.parse`: the tree of a list of tokens.

## Main results

* `pass_blamed`: a pass blames one of the tokens that it went over.
-/

namespace NounPhrase

/-- The outcome of a pass. -/
structure Pass where
  /-- The columns that were built. -/
  events : List Event
  /-- The chart and the forest at the end. -/
  state : ParseState
  /-- The number of the token that is to blame, if the pass failed. -/
  blamed : Option Nat

/-- Builds the columns from `k` on, where `rest` are the tokens that come next. -/
def pass (w : WidenedGrammar) (admits : Terminal → List Symbol → Bool) (k : Nat)
    (s : ParseState) : List Token → Pass
  | [] =>
    let s := s.build w admits .eof k
    ⟨[.builtColumn k (s.chart.column k).length .eof], s,
      if s.chart.has (k + 1) w.acceptItem then none else some (k - 1)⟩
  | token :: rest =>
    let s := s.build w admits token.terminal k
    let event := .builtColumn k (s.chart.column k).length token.terminal
    if s.chart.column (k + 1) = [] then ⟨[event], s, some k⟩
    else
      let p := pass w admits (k + 1) s rest
      { p with events := event :: p.events }

theorem pass_blamed {w : WidenedGrammar} {admits : Terminal → List Symbol → Bool} {k b : Nat}
    {s : ParseState} {rest : List Token} (hr : rest ≠ [])
    (h : (pass w admits k s rest).blamed = some b) : k ≤ b ∧ b < k + rest.length := by
  induction rest generalizing k s with
  | nil => exact absurd rfl hr
  | cons token rest ih =>
    rw [pass] at h
    split at h
    · obtain rfl := Option.some.inj h
      simp
    · cases rest with
      | nil =>
        rw [pass] at h
        split at h
        · simp at h
        · obtain rfl := Option.some.inj h
          simp
      | cons token' rest =>
        obtain ⟨h₁, h₂⟩ := ih (List.cons_ne_nil _ _) h
        rw [List.length_cons]
        omega

/-- A chart that holds the start rule before its first symbol. -/
def ParseState.initial (w : WidenedGrammar) : ParseState :=
  { ParseState.blank with chart := Chart.blank.add 0 w.startItem }

theorem ParseState.mem_column_initial {w : WidenedGrammar} {j : Nat} {i : Item} :
    i ∈ (initial w).chart.column j ↔ j = 0 ∧ i = w.startItem := by
  have hblank : Chart.blank.column j = [] := by cases j <;> rfl
  rw [initial, Chart.column_add, hblank]
  split
  · next hj => simp [hj, Column.insert, Chart.blank, Chart.column]
  · next hj => simp [hj]

/-- The word of a token of the list, if there is such a token and it has one. -/
def wordAt (tokens : List Token) (k : Nat) : Option String := tokens[k]?.bind Token.word

/-- Goes over the tokens from the one blamed last, and widens the sentence rule and goes over them
again as long as there is a new word to blame. Gives the events, the sentence rule at the end, and
the chart and forest if the tokens were accepted. -/
def attempt (admits : Terminal → List Symbol → Bool) (tokens : List Token) (hne : tokens ≠ [])
    (last : Option (Fin tokens.length)) (w : WidenedGrammar) (s : ParseState) :
    List Event × WidenedGrammar × Option ParseState :=
  let k := last.elim 0 Fin.val
  let p := pass w admits k s (tokens.drop k)
  match h : p.blamed with
  | none => (p.events ++ [.accepted tokens.length w.entryLength p.state.forest.ambiguities], w,
      some p.state)
  | some b =>
    have hb : k ≤ b ∧ b < tokens.length := by
      have hk : k < tokens.length := by
        cases last with
        | none => exact List.length_pos_iff.2 hne
        | some l => exact l.isLt
      have := pass_blamed (by simpa [List.drop_eq_nil_iff] using hk) h
      rw [List.length_drop] at this
      omega
    if hw : last.map (wordAt tokens ·) = some (wordAt tokens b) then
      (p.events ++ [.restarted (b + 1) w.widen.entryLength], w.widen, none)
    else
      let r := attempt admits tokens hne (some ⟨b, hb.2⟩) w.widen (p.state.rollback (b + 1))
      (p.events ++ .widened (b + 1) w.widen.entryLength :: r.1, r.2)
termination_by tokens.length - last.elim 0 (·.val + 1)
decreasing_by
  cases last with
  | none =>
    simp only [Option.elim]
    omega
  | some l =>
    have hl : l.val ≠ b := fun e => hw (by simp [e])
    have : l.val ≤ b := hb.1
    simp only [Option.elim]
    omega

/-- An accepted sentence. -/
structure Derivation where
  /-- The grammar with the sentence rule that accepted. -/
  grammar : WidenedGrammar
  chart : Chart
  forest : Forest
  /-- The tokens that were accepted; recovery may have dropped some from the end. -/
  tokens : List Token

/-- The tree of highest priority. -/
def Derivation.tree (d : Derivation) : Except TreeFault Tree :=
  d.forest.tree d.grammar (d.tokens ++ [.endMarker])

/-- What comes of a list of tokens. -/
structure Recognition where
  events : List Event
  derivation : Option Derivation

/-- Attempts the tokens, and without the last one whenever an attempt gives up. -/
def recognizeFrom (admits : Terminal → List Symbol → Bool) (w : WidenedGrammar)
    (tokens : List Token) : Recognition :=
  if hne : tokens = [] then ⟨[.exhausted w.entryLength], none⟩
  else
    match attempt admits tokens hne none w (.initial w) with
    | (events, w', some s) => ⟨events, some ⟨w', s.chart, s.forest, tokens⟩⟩
    | (events, w', none) =>
      let r := recognizeFrom admits w' tokens.dropLast
      { r with events := events ++ r.events }
termination_by tokens.length
decreasing_by
  have := List.length_pos_iff.2 hne
  rw [List.length_dropLast]
  omega

/-- Recognizes a list of tokens, beginning with the sentence rule as it was declared. -/
def Grammar.recognize (g : Grammar) (tokens : List Token) : Recognition :=
  recognizeFrom g.admits g.unwidened tokens

/-- The tree of highest priority of a list of tokens. There is none if every token had to be
dropped. -/
def Grammar.parse (g : Grammar) (tokens : List Token) : Except TreeFault (Option Tree) :=
  match (g.recognize tokens).derivation with
  | none => .ok none
  | some d => d.tree.map some

end NounPhrase
