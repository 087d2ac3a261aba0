import NounPhrase.Proofs.Chart.Growth
import NounPhrase.Proofs.Derivation.Yields
import NounPhrase.Proofs.Grammar.Widths
import NounPhrase.Token

/-!
# The items of a chart are sound

An item in column `k` says that the symbols before its dot yield the input between its origin and
place `k`. This is true of every item of a column that has been built, if it was true of the items
that were there before: a completed item yields its stretch of the input by its rule, and the item
that advances over it puts this stretch behind its own.

## Main definitions

* `inputTerminals`: the input of a list of tokens.
* `between`: a stretch of the input.
* `ParseState.IsSound`: the items of the chart say what is true.

## Main results

* `between_append_between`: two stretches that meet are one.
* `ParseState.IsSound.build`: building a column preserves soundness.
-/

namespace NounPhrase

/-! ### The input -/

/-- The terminals of the tokens, and the one that closes the input. -/
def inputTerminals (tokens : List Token) : List Terminal :=
  (tokens ++ [Token.endMarker]).map Token.terminal

theorem inputTerminals_eq (tokens : List Token) :
    inputTerminals tokens = tokens.map Token.terminal ++ [.eof] := by
  rw [inputTerminals, List.map_append]
  rfl

@[simp] theorem length_inputTerminals (tokens : List Token) :
    (inputTerminals tokens).length = tokens.length + 1 := by
  simp [inputTerminals]

/-- The terminals from place `i` up to place `k`. -/
def between (input : List Terminal) (i k : Nat) : List Terminal := (input.drop i).take (k - i)

section Between

variable {input : List Terminal} {i j k : Nat}

@[simp] theorem between_self (input : List Terminal) (k : Nat) : between input k k = [] := by
  simp [between]

/-- Two stretches that meet are one. -/
theorem between_append_between (hij : i ≤ j) (hjk : j ≤ k) :
    between input i j ++ between input j k = between input i k := by
  have hdrop : input.drop j = (input.drop i).drop (j - i) := by
    rw [List.drop_drop, Nat.add_sub_cancel' hij]
  rw [between, between, between, hdrop, ← List.take_add]
  congr 1
  omega

theorem between_succ {t : Terminal} (hik : i ≤ k) (ht : input[k]? = some t) :
    between input i (k + 1) = between input i k ++ [t] := by
  rw [between, between, Nat.succ_sub hik, List.take_add_one, List.getElem?_drop,
    Nat.add_sub_cancel' hik, ht]
  rfl

/-- What the input goes on with behind a stretch of it. -/
theorem drop_add_length {u x : List Terminal} (h : input.drop k = u ++ x) :
    input.drop (k + u.length) = x := by
  rw [← List.drop_drop, h, List.drop_left]

theorem between_zero_length (input : List Terminal) : between input 0 input.length = input := by
  simp [between]

end Between

/-! ### Sound items -/

namespace ParseState

variable {R : Nonterminal → List Symbol → Prop} {w : WidenedGrammar} {input : List Terminal}
  {s : ParseState}

/-- Every item begins at its column or before it, and the symbols before its dot yield the input
from there to its column, by the rules `R`. -/
def IsSound (R : Nonterminal → List Symbol → Prop) (w : WidenedGrammar) (input : List Terminal)
    (s : ParseState) : Prop :=
  ∀ k, ∀ i ∈ s.chart.column k, i.origin ≤ k ∧
    Yields R ((w.rhs i.rule).take i.dot) (between input i.origin k)

/-- A completed item yields its stretch of the input by its nonterminal. -/
theorem IsSound.yields_completed (h : s.IsSound R w input) (hR : ∀ n β, w.IsRule n β → R n β)
    {k : Nat} {c : Item} {n : Nonterminal} (hc : c ∈ s.chart.column k)
    (hcomplete : w.completed? c = some n) :
    Yields R [.nonterminal n] (between input c.origin k) := by
  obtain ⟨hdot, r, hr, rfl⟩ := WidenedGrammar.completed?_eq_some.mp hcomplete
  have hyields := (h k c hc).2
  rw [List.take_of_length_le hdot] at hyields
  exact .single (hR _ _ (WidenedGrammar.isRule_of_rule? hr)) hyields

/-- An allowed move preserves soundness. -/
theorem IsSound.apply {admits : Terminal → List Symbol → Bool} {lookahead : Terminal} {k : Nat}
    {m : Move} (hR : ∀ n β, w.IsRule n β → R n β) (hk : input[k]? = some lookahead)
    (h : s.IsSound R w input) (hm : w.Allows admits lookahead k s.chart m) :
    (s.apply k m).IsSound R w input := by
  intro j i hi
  cases m with
  | advance p c =>
    obtain ⟨hc, hp, n, hcomplete, hnext⟩ := hm
    rcases Chart.mem_column_add.mp hi with hi | ⟨rfl, rfl⟩
    · exact h j i hi
    obtain ⟨hporigin, hpyields⟩ := h _ p hp
    have hcorigin := (h _ c hc).1
    refine ⟨Nat.le_trans hporigin hcorigin, ?_⟩
    rw [WidenedGrammar.take_advance hnext, Item.origin_advance,
      ← between_append_between hporigin hcorigin]
    exact hpyields.append (h.yields_completed hR hc hcomplete)
  | start id =>
    rcases Chart.mem_column_add.mp hi with hi | ⟨rfl, rfl⟩
    · exact h j i hi
    · exact ⟨Nat.le_refl _, by simp [Item.start]⟩
  | scan p =>
    obtain ⟨hp, hnext⟩ := hm
    rcases Chart.mem_column_add.mp hi with hi | ⟨rfl, rfl⟩
    · exact h j i hi
    obtain ⟨hporigin, hpyields⟩ := h _ p hp
    refine ⟨Nat.le_succ_of_le hporigin, ?_⟩
    rw [WidenedGrammar.take_advance hnext, Item.origin_advance, between_succ hporigin hk]
    exact hpyields.append (.terminal .nil)

/-- Building a column preserves soundness. -/
theorem IsSound.build {admits : Terminal → List Symbol → Bool} {lookahead : Terminal} {k : Nat}
    (hR : ∀ n β, w.IsRule n β → R n β) (hk : input[k]? = some lookahead)
    (h : s.IsSound R w input) : (s.build w admits lookahead k).IsSound R w input :=
  build_induction (fun _ _ hs hm => hs.apply hR hk hm) fun j i hi =>
    h j i (by rwa [column_opened] at hi)

end ParseState

end NounPhrase
