import NounPhrase.Proofs.Forest.Descent

/-!
# Building a tree

The builder of a tree comes to a cell with the tokens before the right end of the cell, and leaves
it with those before its left end. So the number of tokens left is the number of the column all the
way, and no token is missing in the end or left over. It finds a child wherever it looks for one. At
most it could go down too deep; it does not, since there are not more cells below a cell than
children in the forest.

## Main definitions

* `LeavesAt`: how the builder leaves a cell.
* `Forest.Visits`: the places that the builder comes by.

## Main results

* `leavesAt_descend`: the builder leaves a complete cell at its left end.
* `Forest.exists_tree_eq_ok`: the tree of an accepted sentence.
* `Forest.Visits.length_eq`: everywhere the number of tokens left is the number of the column.
-/

namespace NounPhrase

/-- The builder has come back with the tokens before column `k`, or it has been too deep down, which
cannot be if `enough` holds. -/
def LeavesAt {α : Type} (tokens : List Token) (enough : Prop) (k : Nat) :
    Except TreeFault (α × List Token) → Prop
  | .ok (_, rest) => rest = (tokens.take k).reverse
  | .error fault => ¬ enough ∧ ∃ i, fault = .circular i

theorem LeavesAt.mono {α : Type} {tokens : List Token} {enough enough' : Prop} {k : Nat}
    {r : Except TreeFault (α × List Token)} (h : LeavesAt tokens enough k r)
    (himp : enough' → enough) : LeavesAt tokens enough' k r := by
  cases r with
  | ok r => exact h
  | error fault => exact ⟨fun he => h.1 (himp he), h.2⟩

namespace Forest

variable {f : Forest} {w : WidenedGrammar}
  {descend : Cell → List Token → Except TreeFault (Tree × List Token)} {rhs : List Symbol}
  {item : Item} {d k : Nat} {found : List Tree}

theorem children_terminal {t : Terminal} (h : rhs[d]? = some (.terminal t)) (token : Token)
    (rest : List Token) :
    f.children w descend rhs item (d + 1) k (token :: rest) found =
      f.children w descend rhs item d (k - 1) rest
        (.leaf ⟨token, ⟨rest.length, rest.length + 1⟩⟩ :: found) := by
  rw [children.eq_def]
  simp only [h]

theorem children_terminal_nil {t : Terminal} (h : rhs[d]? = some (.terminal t)) :
    f.children w descend rhs item (d + 1) k [] found = .error (.tokensExhausted item) := by
  rw [children.eq_def]
  simp only [h]

/-- From a dot that does not follow a terminal the builder goes down to the best child. -/
theorem children_of_ne_terminal (h : ∀ t, rhs[d]? ≠ some (.terminal t)) (rest : List Token) :
    f.children w descend rhs item (d + 1) k rest found =
      (match (f.get? ⟨{ item with dot := d + 1 }, k⟩).bind w.resolve with
      | none => .error (.missingDerivation { item with dot := d + 1 } k)
      | some c => do
        let (tree, rest) ← descend c rest
        f.children w descend rhs item d c.item.origin rest (tree :: found)) :=
  children.eq_4 _ _ _ _ _ _ _ _ _ (fun t _ _ ht _ => h t ht) fun t ht _ => h t ht

theorem children_nonterminal_of_eq_none {n : Nonterminal} (h : rhs[d]? = some (.nonterminal n))
    (hc : (f.get? ⟨{ item with dot := d + 1 }, k⟩).bind w.resolve = none) (rest : List Token) :
    f.children w descend rhs item (d + 1) k rest found =
      .error (.missingDerivation { item with dot := d + 1 } k) := by
  rw [children_of_ne_terminal (by simp [h]), hc]

theorem children_nonterminal {n : Nonterminal} (h : rhs[d]? = some (.nonterminal n)) {c : Cell}
    (hc : (f.get? ⟨{ item with dot := d + 1 }, k⟩).bind w.resolve = some c) (rest : List Token) :
    f.children w descend rhs item (d + 1) k rest found = (do
      let (tree, rest) ← descend c rest
      f.children w descend rhs item d c.item.origin rest (tree :: found)) := by
  rw [children_of_ne_terminal (by simp [h]), hc]

end Forest

section Building

variable {w : WidenedGrammar} {tokens : List Token} {builds : Nat → List Nat} {s : ParseState}

/-- The symbols from a terminal on yield one terminal more. -/
theorem Yields.drop_terminal {R : Nonterminal → List Symbol → Prop} {input : List Terminal}
    {α : List Symbol} {d j k : Nat} {t : Terminal} (hget : α[d]? = some (.terminal t))
    (ht : input[j]? = some t) (hjk : j + 1 ≤ k)
    (h : Yields R (α.drop (d + 1)) (between input (j + 1) k)) :
    Yields R (α.drop d) (between input j k) := by
  obtain ⟨hlt, hget⟩ := List.getElem?_eq_some_iff.mp hget
  rw [List.drop_eq_getElem_cons hlt, hget, ← between_append_between (Nat.le_succ j) hjk,
    between_succ (Nat.le_refl j) ht, between_self]
  exact .terminal h

/-- The symbols from a nonterminal on yield what it yields in front. -/
theorem Yields.drop_nonterminal {R : Nonterminal → List Symbol → Prop} {input : List Terminal}
    {α β : List Symbol} {d i j k : Nat} {n : Nonterminal} (hget : α[d]? = some (.nonterminal n))
    (hij : i ≤ j) (hjk : j ≤ k) (hr : R n β) (hβ : Yields R β (between input i j))
    (h : Yields R (α.drop (d + 1)) (between input j k)) :
    Yields R (α.drop d) (between input i k) := by
  obtain ⟨hlt, hget⟩ := List.getElem?_eq_some_iff.mp hget
  rw [List.drop_eq_getElem_cons hlt, hget, ← between_append_between hij hjk]
  exact .nonterminal hr hβ h

/-- The last token before the next column. -/
theorem reverse_take_succ {k : Nat} {t : Terminal}
    (ht : (tokens.map Token.terminal)[k]? = some t) :
    ∃ token, (tokens.take (k + 1)).reverse = token :: (tokens.take k).reverse := by
  rw [List.getElem?_map, Option.map_eq_some_iff] at ht
  obtain ⟨token, htoken, -⟩ := ht
  exact ⟨token, by rw [List.take_add_one, htoken]; simp⟩

/-- Going through a complete cell, the builder leaves it at its left end, if it leaves every child
on the way at the left end of the child. -/
theorem leavesAt_children (hl : s.IsLinked w (tokens.map Token.terminal) builds)
    (hs : s.IsSound w.IsNestedRule w (tokens.map Token.terminal)) {cell : Cell}
    (hcell : ∃ n, cell.IsComplete w s n) {enough : Prop}
    {descend : Cell → List Token → Except TreeFault (Tree × List Token)}
    (hdescend : ∀ child, s.Descends w (tokens.map Token.terminal) cell child →
      LeavesAt tokens enough child.item.origin
        (descend child (tokens.take child.column).reverse))
    {d k : Nat} (hd : d ≤ cell.item.dot) (hk : k ≤ cell.column)
    (hmem : { cell.item with dot := d } ∈ s.chart.column k)
    (hrest : Yields w.IsNestedRule (((w.rhs cell.item.rule).take cell.item.dot).drop d)
      (between (tokens.map Token.terminal) k cell.column)) (found : List Tree) :
    LeavesAt tokens enough cell.item.origin (s.forest.children w descend (w.rhs cell.item.rule)
      cell.item d k (tokens.take k).reverse found) := by
  induction d generalizing k found with
  | zero =>
    have horigin := (hl.items _ _ hmem).origin_eq rfl
    rw [Forest.children, LeavesAt, horigin]
  | succ d ih =>
    set p : Item := { cell.item with dot := d }
    have hitem : s.IsJustified w (tokens.map Token.terminal) k p.advance := hl.items _ _ hmem
    have hlt : d < ((w.rhs cell.item.rule).take cell.item.dot).length := by
      obtain ⟨n, hn⟩ := hcell
      have := (hl.items _ _ hn.mem_column).dot_le
      rw [List.length_take]
      omega
    have hget := List.getElem?_eq_getElem hlt
    generalize ((w.rhs cell.item.rule).take cell.item.dot)[d] = a at hget
    have hnext : (w.rhs cell.item.rule)[d]? = some a := by
      rw [← hget, List.getElem?_take_of_lt hd]
    cases a with
    | terminal t =>
      obtain ⟨j, rfl, ht, hpmem⟩ := hitem.scanned p t rfl hnext
      obtain ⟨token, htokens⟩ := reverse_take_succ ht
      rw [htokens, Forest.children_terminal hnext]
      exact ih (Nat.le_of_succ_le hd) (Nat.le_of_succ_le hk) hpmem
        (.drop_terminal hget ht hk hrest) _
    | nonterminal n =>
      obtain ⟨c, hc, hfound⟩ := hl.exists_best_child (p := p) hmem hnext
      obtain ⟨hcomplete, hcolumn, hpmem, horigin⟩ := hl.child (p := p) hnext hc
      have hcell' := hdescend c ⟨hcell, d, k, hd, hk, hc, hrest⟩
      have hchild := (hs _ _ hcomplete.mem_column).2
      rw [hcolumn] at hcell' hchild
      rw [Forest.children_nonterminal hnext
        (show (s.forest.get? ⟨{ cell.item with dot := d + 1 }, k⟩).bind _ = _ from hfound)]
      cases hresult : descend c (tokens.take k).reverse with
      | error fault =>
        rw [hresult] at hcell'
        exact hcell'
      | ok r =>
        obtain ⟨tree, rest⟩ := r
        rw [hresult] at hcell'
        obtain rfl : rest = (tokens.take c.item.origin).reverse := hcell'
        exact ih (Nat.le_of_succ_le hd) (Nat.le_trans horigin hk) hpmem
          (.drop_nonterminal hget horigin hk hcomplete.isNestedRule hchild hrest) _

/-- The builder leaves a complete cell at its left end, unless it may go down less than there are
cells below. -/
theorem leavesAt_descend (hacyclic : w.grammar.unwidened.IsAcyclic)
    (hl : s.IsLinked w (tokens.map Token.terminal) builds)
    (hs : s.IsSound w.IsNestedRule w (tokens.map Token.terminal)) (depth : Nat) {cell : Cell}
    {n : Nonterminal} (hcell : cell.IsComplete w s n) :
    LeavesAt tokens (s.below w (tokens.map Token.terminal) cell < depth) cell.item.origin
      (s.forest.descend w depth cell (tokens.take cell.column).reverse) := by
  induction depth generalizing cell n with
  | zero => exact ⟨Nat.not_lt_zero _, cell.item, rfl⟩
  | succ depth ih =>
    obtain ⟨r, hr, -⟩ := Option.map_eq_some_iff.mp hcell.lhs_eq
    have hchild (child : Cell) (h : s.Descends w (tokens.map Token.terminal) cell child) :
        LeavesAt tokens (s.below w (tokens.map Token.terminal) cell < depth + 1)
          child.item.origin
          (s.forest.descend w depth child (tokens.take child.column).reverse) := by
      obtain ⟨m, hm, -⟩ := h.isStep hl hs hcell
      have hbelow := ParseState.below_lt hacyclic hl hs h
      exact (ih hm).mono fun he => by omega
    have hrest : Yields w.IsNestedRule
        (((w.rhs cell.item.rule).take cell.item.dot).drop cell.item.dot)
        (between (tokens.map Token.terminal) cell.column cell.column) := by
      rw [List.drop_eq_nil_of_le (List.length_take_le _ _), between_self]
      exact .nil
    have hchildren := leavesAt_children hl hs ⟨n, hcell⟩ hchild (Nat.le_refl _) (Nat.le_refl _)
      hcell.mem_column hrest []
    rw [WidenedGrammar.rhs_eq_of_rule? hr] at hchildren
    rw [Forest.descend, hr]
    simp only
    cases hresult : s.forest.children w (fun c ts => s.forest.descend w depth c ts) r.rhs cell.item
        cell.item.dot cell.column (tokens.take cell.column).reverse [] with
    | error fault =>
      rw [hresult] at hchildren
      exact hchildren
    | ok result =>
      rw [hresult] at hchildren
      exact hchildren

/-- The accepting item behind the last token is complete. -/
theorem isComplete_acceptItem (h : w.acceptItem ∈ s.chart.column tokens.length) :
    (⟨w.acceptItem, tokens.length⟩ : Cell).IsComplete w s .start := by
  refine ⟨h, by rw [WidenedGrammar.acceptItem, WidenedGrammar.rule?_startId]; rfl, ?_⟩
  rw [WidenedGrammar.acceptItem, WidenedGrammar.rhs_startId]
  exact (WidenedGrammar.isRule_of_mem_others (r := .start w.grammar.sentence)
    (by simp)).isNestedRule

/-- The forest of an accepted sentence has a tree. -/
theorem Forest.exists_tree_eq_ok (hacyclic : w.grammar.unwidened.IsAcyclic)
    (hl : s.IsLinked w (tokens.map Token.terminal) builds)
    (hs : s.IsSound w.IsNestedRule w (tokens.map Token.terminal))
    (h : w.acceptItem ∈ s.chart.column tokens.length) :
    ∃ t, s.forest.tree w tokens = .ok t := by
  have hdescend := leavesAt_descend hacyclic hl hs ((s.forest.childCount + 1) * (tokens.length + 1))
    (isComplete_acceptItem h)
  have hbelow : s.below w (tokens.map Token.terminal) ⟨w.acceptItem, tokens.length⟩ <
      (s.forest.childCount + 1) * (tokens.length + 1) :=
    (Nat.lt_succ_of_le (ParseState.below_le _)).trans_le
      (Nat.le_mul_of_pos_right _ (Nat.succ_pos _))
  rw [List.take_length] at hdescend
  rw [tree]
  cases hresult : s.forest.descend w ((s.forest.childCount + 1) * (tokens.length + 1))
      ⟨w.acceptItem, tokens.length⟩ tokens.reverse with
  | error fault =>
    rw [hresult] at hdescend
    exact absurd hbelow hdescend.1
  | ok result =>
    obtain ⟨t, rest⟩ := result
    rw [hresult] at hdescend
    obtain rfl : rest = [] := hdescend
    exact ⟨t, rfl⟩

end Building

/-! ### The places of the builder -/

/-- The builder comes by the item at the column with the tokens in hand, the last one first. It
begins with the accepting item behind the last token. It goes back over a terminal with one token
less, and at a nonterminal it first goes down to the best child, and when it has come back from
there it goes on at the left end of the child. -/
inductive Forest.Visits (f : Forest) (w : WidenedGrammar) (tokens : List Token) :
    Item → Nat → List Token → Prop
  | root : Visits f w tokens w.acceptItem tokens.length tokens.reverse
  | terminal {p : Item} {k : Nat} {token : Token} {rest : List Token} {t : Terminal}
      (h : Visits f w tokens p.advance k (token :: rest))
      (hnext : w.next? p = some (.terminal t)) : Visits f w tokens p (k - 1) rest
  | down {p : Item} {k : Nat} {rest : List Token} {n : Nonterminal} {c : Cell}
      (h : Visits f w tokens p.advance k rest) (hnext : w.next? p = some (.nonterminal n))
      (hc : (f.get? ⟨p.advance, k⟩).bind w.resolve = some c) :
      Visits f w tokens c.item c.column rest
  | back {p : Item} {k : Nat} {rest rest' : List Token} {n : Nonterminal} {c : Cell} {depth : Nat}
      {t : Tree} (h : Visits f w tokens p.advance k rest)
      (hnext : w.next? p = some (.nonterminal n))
      (hc : (f.get? ⟨p.advance, k⟩).bind w.resolve = some c)
      (ht : f.descend w depth c rest = .ok (t, rest')) : Visits f w tokens p c.item.origin rest'

namespace Forest.Visits

variable {w : WidenedGrammar} {tokens : List Token} {builds : Nat → List Nat} {s : ParseState}

/-- Wherever the builder comes by, it has the tokens before the column in hand. -/
theorem eq_reverse_take (hacyclic : w.grammar.unwidened.IsAcyclic)
    (hl : s.IsLinked w (tokens.map Token.terminal) builds)
    (hs : s.IsSound w.IsNestedRule w (tokens.map Token.terminal))
    (haccept : w.acceptItem ∈ s.chart.column tokens.length) {i : Item} {k : Nat}
    {rest : List Token} (h : s.forest.Visits w tokens i k rest) :
    i ∈ s.chart.column k ∧ k ≤ tokens.length ∧ rest = (tokens.take k).reverse := by
  induction h with
  | root => exact ⟨haccept, Nat.le_refl _, by rw [List.take_length]⟩
  | @terminal p k token rest t _ hnext ih =>
    obtain ⟨hp, hk, hrest⟩ := ih
    obtain ⟨j, rfl, ht, hmem⟩ := (hl.items _ _ hp).scanned p t rfl hnext
    obtain ⟨token', htokens⟩ := reverse_take_succ ht
    rw [htokens] at hrest
    exact ⟨hmem, Nat.le_of_succ_le hk, (List.cons.inj hrest).2⟩
  | down _ hnext hc ih =>
    obtain ⟨hp, hk, hrest⟩ := ih
    obtain ⟨hcomplete, rfl, -, -⟩ := hl.child hnext (Forest.mem_childrenOf_of_resolve hc)
    exact ⟨hcomplete.mem_column, hk, hrest⟩
  | @back p k rest rest' n c depth t _ hnext hc ht ih =>
    obtain ⟨hp, hk, rfl⟩ := ih
    obtain ⟨hcomplete, rfl, hmem, horigin⟩ := hl.child hnext (Forest.mem_childrenOf_of_resolve hc)
    have hleaves := leavesAt_descend hacyclic hl hs depth hcomplete
    rw [ht] at hleaves
    exact ⟨hmem, Nat.le_trans horigin hk, hleaves⟩

/-- Wherever the builder comes by, the number of tokens left is the number of the column. -/
theorem length_eq (hacyclic : w.grammar.unwidened.IsAcyclic)
    (hl : s.IsLinked w (tokens.map Token.terminal) builds)
    (hs : s.IsSound w.IsNestedRule w (tokens.map Token.terminal))
    (haccept : w.acceptItem ∈ s.chart.column tokens.length) {i : Item} {k : Nat}
    {rest : List Token} (h : s.forest.Visits w tokens i k rest) : rest.length = k := by
  obtain ⟨-, hk, rfl⟩ := h.eq_reverse_take hacyclic hl hs haccept
  rw [List.length_reverse, List.length_take, Nat.min_eq_left hk]

end Forest.Visits

end NounPhrase
