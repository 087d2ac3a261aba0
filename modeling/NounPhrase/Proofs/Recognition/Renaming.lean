import Mathlib.Logic.Equiv.Basic
import NounPhrase.Proofs.Forest.Renaming
import NounPhrase.Proofs.Recognition.Pruning

/-!
# Recognition of renamed tokens

Recognition looks at the terminals of the tokens, and when a pass has failed, at whether the word to
blame is the word blamed last. Both are the same for renamed tokens. So every pass builds the same
chart and forest and blames the token at the same place, and recovery widens, drops and restarts the
same; in the end the same number of tokens is accepted, by the same derivation.

## Main results

* `pass_congr`: a pass looks at the terminals only.
* `Renaming.wordAt_tokens_inj`: the words that are equal stay so, and no others become equal.
* `Renaming.attempt_tokens`, `Renaming.recognizeFrom_tokens`: attempts and recognitions are the same
  for renamed tokens.
* `recognize_renamed`: the derivation and the tree of renamed tokens.
-/

namespace NounPhrase

/-- A pass looks at the terminals of the tokens only. -/
theorem pass_congr {w : WidenedGrammar} {admits : Terminal → List Symbol → Bool} (k : Nat)
    (s : ParseState) {rest rest' : List Token}
    (h : rest.map Token.terminal = rest'.map Token.terminal) :
    pass w admits k s rest = pass w admits k s rest' := by
  induction rest generalizing rest' k s with
  | nil => rw [List.map_eq_nil_iff.mp h.symm]
  | cons token rest ih =>
    obtain ⟨token', rest', rfl, hterminal, hrest⟩ := List.map_eq_cons_iff.mp h.symm
    rw [pass, pass, hterminal, ih _ _ hrest.symm]

namespace Renaming

variable (r : Renaming) {tokens : List Token}

theorem wordAt_tokens {k : Nat} (hk : k < tokens.length) :
    wordAt (r.tokens tokens) k = r.word (wordAt tokens k) := by
  rw [wordAt, wordAt, getElem?_tokens, List.getElem?_eq_getElem hk]
  rfl

/-- The words that are equal stay so, and no others become equal. -/
theorem wordAt_tokens_inj {j k : Nat} (hj : j < tokens.length) (hk : k < tokens.length) :
    wordAt (r.tokens tokens) j = wordAt (r.tokens tokens) k ↔
      wordAt tokens j = wordAt tokens k := by
  rw [r.wordAt_tokens hj, r.wordAt_tokens hk, r.word_injective.eq_iff]

theorem pass_tokens {w : WidenedGrammar} {admits : Terminal → List Symbol → Bool} (k : Nat)
    (s : ParseState) : pass w admits k s ((r.tokens tokens).drop k) =
      pass w admits k s (tokens.drop k) :=
  pass_congr k s (by rw [List.map_drop, List.map_drop, map_terminal_tokens])

section Attempt

variable {last : Option (Fin tokens.length)} {last' : Option (Fin (r.tokens tokens).length)}

/-- The word to blame is the word blamed last, or it is not, alike. -/
theorem map_wordAt_tokens_eq_some_iff (hlast : last'.map Fin.val = last.map Fin.val) {b : Nat}
    (hb : b < tokens.length) :
    last'.map (wordAt (r.tokens tokens) ·) = some (wordAt (r.tokens tokens) b) ↔
      last.map (wordAt tokens ·) = some (wordAt tokens b) := by
  cases last with
  | none =>
    obtain rfl := Option.map_eq_none_iff.mp hlast
    exact iff_of_false (by simp) (by simp)
  | some l =>
    obtain ⟨l', rfl, hl⟩ := Option.map_eq_some_iff.mp hlast
    show some (wordAt (r.tokens tokens) l') = some (wordAt (r.tokens tokens) b) ↔
      some (wordAt tokens l) = some (wordAt tokens b)
    rw [Option.some_inj, Option.some_inj, hl]
    exact r.wordAt_tokens_inj l.isLt hb

/-- An attempt on the renamed tokens, taken up again at the same place, comes to the same. -/
theorem attempt_tokens {admits : Terminal → List Symbol → Bool} {hne : tokens ≠ []}
    {hne' : r.tokens tokens ≠ []} (hlast : last'.map Fin.val = last.map Fin.val)
    (w : WidenedGrammar) (s : ParseState) :
    attempt admits (r.tokens tokens) hne' last' w s = attempt admits tokens hne last w s := by
  have hpass (last : Option (Fin tokens.length)) (last' : Option (Fin (r.tokens tokens).length))
      (hlast : last'.map Fin.val = last.map Fin.val) (w : WidenedGrammar) (s : ParseState) :
      pass w admits (last'.elim 0 Fin.val) s ((r.tokens tokens).drop (last'.elim 0 Fin.val)) =
        pass w admits (last.elim 0 Fin.val) s (tokens.drop (last.elim 0 Fin.val)) := by
    have hk : last'.elim 0 Fin.val = last.elim 0 Fin.val := by
      have h := congrArg (Option.elim · 0 id) hlast
      simpa only [Option.elim_map, Function.id_comp] using h
    rw [r.pass_tokens, hk]
  fun_induction NounPhrase.attempt admits tokens hne last w s generalizing last' with
  | case1 last w s k p =>
    rename_i hblamed
    rw [attempt_of_accepted (hpass last last' hlast w s) hblamed, length_tokens]
  | case2 last w s k p b =>
    rename_i hblamed hb hw
    rw [attempt_of_restarted (hpass last last' hlast w s) hblamed
      ((r.map_wordAt_tokens_eq_some_iff hlast hb.2).mpr hw)]
  | case3 last w s k p b =>
    rename_i hblamed hb hw r' ih
    have hb' : b < (r.tokens tokens).length := (r.length_tokens tokens).symm ▸ hb.2
    rw [attempt_of_widened (hpass last last' hlast w s) hblamed hb'
      (mt (r.map_wordAt_tokens_eq_some_iff hlast hb.2).mp hw), ih rfl]

end Attempt

/-- A recognition of the renamed tokens reports the same, and accepts the same tokens by the same
derivation. -/
theorem recognizeFrom_tokens (admits : Terminal → List Symbol → Bool) (w : WidenedGrammar)
    (tokens : List Token) :
    (recognizeFrom admits w (r.tokens tokens)).events = (recognizeFrom admits w tokens).events ∧
      (recognizeFrom admits w (r.tokens tokens)).derivation =
        (recognizeFrom admits w tokens).derivation.map r.derivation := by
  fun_induction recognizeFrom admits w tokens with
  | case1 w =>
    rw [show r.tokens [] = [] from rfl, recognizeFrom, dif_pos rfl]
    exact ⟨rfl, rfl⟩
  | case2 w tokens hne events w' s he =>
    have hne' : r.tokens tokens ≠ [] := mt r.tokens_eq_nil_iff.mp hne
    rw [recognizeFrom_of_accepted hne' ((r.attempt_tokens rfl w _).trans he)]
    exact ⟨rfl, rfl⟩
  | case3 w tokens hne events w' he r' ih =>
    have hne' : r.tokens tokens ≠ [] := mt r.tokens_eq_nil_iff.mp hne
    rw [recognizeFrom_of_restarted hne' ((r.attempt_tokens rfl w _).trans he), dropLast_tokens]
    exact ⟨congrArg (events ++ ·) ih.1, ih.2⟩

end Renaming

/-- Whatever the grammar, the tokens and the renaming, the renamed tokens are recognized with the
same reports. If there is a derivation, it has the same sentence rule, chart and forest, and it
accepts as many tokens. Its tree is the same up to the renamed leaves, and where a tree is missing,
the fault is the same. -/
theorem recognize_renamed (g : Grammar) (r : Renaming) (tokens : List Token) :
    (g.recognize (r.tokens tokens)).events = (g.recognize tokens).events ∧
      (g.recognize (r.tokens tokens)).derivation =
        (g.recognize tokens).derivation.map r.derivation ∧
      ∀ d, (r.derivation d).tree = d.tree.map r.tree := by
  obtain ⟨hevents, hderivation⟩ := r.recognizeFrom_tokens g.admits g.unwidened tokens
  exact ⟨hevents, hderivation, r.tree_derivation⟩

/-- A word and the absent word are exchanged, and there are tags now. The second and the third of
three nouns are blamed in a row, and the sentence is found after two widenings as before. -/
theorem recognize_renamed_swap :
    let r : Renaming :=
      ⟨Equiv.swap (some "by") none, (Equiv.swap _ _).injective, fun _ => some "NCUSN@IS"⟩
    let tokens : List Token :=
      [⟨.comNoun, some "hus", none⟩, ⟨.comNoun, some "by", none⟩, ⟨.comNoun, none, none⟩]
    let renamed : List Token := [⟨.comNoun, some "hus", some "NCUSN@IS"⟩,
      ⟨.comNoun, none, some "NCUSN@IS"⟩, ⟨.comNoun, some "by", some "NCUSN@IS"⟩]
    r.tokens tokens = renamed ∧
      (Grammar.nouns.recognize renamed).events =
        [.builtColumn 0 3 .comNoun, .builtColumn 1 3 .comNoun, .widened 2 2,
          .builtColumn 1 4 .comNoun, .builtColumn 2 3 .comNoun, .widened 3 3,
          .builtColumn 2 4 .comNoun, .builtColumn 3 3 .eof, .accepted 3 3 0] ∧
      ∃ d t, (Grammar.nouns.recognize tokens).derivation = some d ∧ d.tree = .ok t ∧
        (Grammar.nouns.recognize renamed).derivation = some { d with tokens := renamed } ∧
        ({ d with tokens := renamed } : Derivation).tree = .ok (r.tree t) := by
  intro r tokens renamed
  have htokens : r.tokens tokens = renamed := by decide +kernel
  have htree : (Grammar.nouns.recognize tokens).derivation.any fun d =>
      d.tokens = tokens ∧ d.tree.toOption.isSome := by decide +kernel
  obtain ⟨d, hd, h⟩ := (Option.any_eq_true _ _).mp htree
  obtain ⟨hsame, hsome⟩ := of_decide_eq_true h
  obtain ⟨t, ht⟩ : ∃ t, d.tree = .ok t := by
    cases hresult : d.tree with
    | error fault => rw [hresult] at hsome; cases hsome
    | ok t => exact ⟨t, rfl⟩
  obtain ⟨hevents, hderivation, hmap⟩ := recognize_renamed Grammar.nouns r tokens
  have hrenamed : r.derivation d = { d with tokens := renamed } := by
    rw [Renaming.derivation, hsame, htokens]
  rw [htokens, hd, Option.map_some, hrenamed] at hderivation
  refine ⟨htokens, ?_, d, t, hd, ht, hderivation, ?_⟩
  · rw [← htokens, hevents]
    decide +kernel
  · rw [← hrenamed, hmap d, ht]
    rfl

/-- A renaming must not make words equal: the second and the third of three nouns are blamed in a
row, and if they have the same word, a token is dropped. -/
example : (Grammar.nouns.recognize [⟨.comNoun, some "hus", none⟩, ⟨.comNoun, some "by", none⟩,
      ⟨.comNoun, some "gata", none⟩]).events ≠
    (Grammar.nouns.recognize [⟨.comNoun, some "hus", none⟩, ⟨.comNoun, some "by", none⟩,
      ⟨.comNoun, some "by", none⟩]).events := by
  decide +kernel

end NounPhrase
