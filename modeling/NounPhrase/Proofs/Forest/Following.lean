import NounPhrase.Proofs.Derivation.RuleTrees
import NounPhrase.Proofs.Forest.Building

/-!
# The derivation that the builder follows

Going down from a cell to its best children, the builder of a tree follows a derivation, and the
tree that it builds is the one that the actions of the rules make of it. In a chart that agrees
with its forest this is a derivation by the rules of the grammar: a rule that is followed has been
completed at some width of the sentence rule, and each of its parts begins where the one before it
ends.

## Main definitions

* `Forest.Follows`: the derivation that the builder follows through an item.
* `Forest.HasDots`: no child has its dot behind the end of its rule.
* `RuleTree.closed`: a derivation of a sentence with the end marker behind it.

## Main results

* `Forest.exists_follows_of_descend`: what is built is the tree of the derivation that is followed.
* `Forest.Follows.unique`: the builder has no choice.
* `ParseState.IsLinked.isDerivation`: what is followed is a derivation.
* `ParseState.IsLinked.exists_derivation`: the tree of an accepted sentence is that of a derivation.
-/

namespace NounPhrase

namespace Forest

/-- The builder comes to the item at the column with the tokens in hand, the last one first, follows
the parts for the symbols before the dot, and is left with the rest. It takes a token for a
terminal, and for a nonterminal it goes down to the best child. -/
inductive Follows (f : Forest) (w : WidenedGrammar) :
    Item → Nat → List Token → List RuleTree → List Token → Prop
  | start {i : Item} {k : Nat} {rest : List Token} (hdot : i.dot = 0) : Follows f w i k rest [] rest
  | terminal {p : Item} {k : Nat} {t : Terminal} {token : Token} {rest rest' : List Token}
      {parts : List RuleTree} (hnext : w.next? p = some (.terminal t))
      (h : Follows f w p (k - 1) rest parts rest') :
      Follows f w p.advance k (token :: rest)
        (parts ++ [.token ⟨token, ⟨rest.length, rest.length + 1⟩⟩]) rest'
  | nonterminal {p : Item} {k : Nat} {n : Nonterminal} {c : Cell} {r : Rule}
      {rest rest' rest'' : List Token} {parts parts' : List RuleTree}
      (hnext : w.next? p = some (.nonterminal n))
      (hc : (f.get? ⟨p.advance, k⟩).bind w.resolve = some c) (hr : w.rule? c.item.rule = some r)
      (hparts : Follows f w c.item c.column rest parts' rest')
      (h : Follows f w p c.item.origin rest' parts rest'') :
      Follows f w p.advance k rest
        (parts ++ [.rule (r.upTo c.item.dot) ⟨c.item.origin, c.column⟩ parts']) rest''

/-- No best child has its dot behind the end of its rule. -/
def HasDots (f : Forest) (w : WidenedGrammar) : Prop :=
  ∀ key c, (f.get? key).bind w.resolve = some c → c.item.dot ≤ (w.rhs c.item.rule).length

variable {f : Forest} {w : WidenedGrammar} {tokens rest : List Token}

/-- The derivation of a cell that the builder follows. -/
def FollowsCell (f : Forest) (w : WidenedGrammar) (c : Cell) (tokens : List Token) (d : RuleTree)
    (rest : List Token) : Prop :=
  ∃ r parts, w.rule? c.item.rule = some r ∧ f.Follows w c.item c.column tokens parts rest ∧
    d = .rule (r.upTo c.item.dot) ⟨c.item.origin, c.column⟩ parts

/-- Going through an item, the builder follows the parts before the dot, if it follows a derivation
wherever it goes down. -/
theorem exists_follows_of_children
    {descend : Cell → List Token → Except TreeFault (Tree × List Token)}
    (hdescend : ∀ key c, (f.get? key).bind w.resolve = some c → ∀ tokens t rest,
      descend c tokens = .ok (t, rest) → ∃ d, f.FollowsCell w c tokens d rest ∧ t = d.tree)
    {item : Item} {d k : Nat} (hd : d ≤ (w.rhs item.rule).length) {found trees : List Tree}
    (h : f.children w descend (w.rhs item.rule) item d k tokens found = .ok (trees, rest)) :
    ∃ parts, f.Follows w { item with dot := d } k tokens parts rest ∧
      trees = parts.map RuleTree.tree ++ found := by
  induction d generalizing k tokens found with
  | zero =>
    obtain ⟨rfl, rfl⟩ := Prod.mk.inj (Except.ok.inj h)
    exact ⟨[], .start rfl, rfl⟩
  | succ d ih =>
    set p : Item := { item with dot := d }
    have hnext : (w.rhs item.rule)[d]? = some (w.rhs item.rule)[d] := List.getElem?_eq_getElem hd
    generalize (w.rhs item.rule)[d] = a at hnext
    cases a with
    | terminal t =>
      cases tokens with
      | nil => simp [children_terminal_nil hnext] at h
      | cons token tokens =>
        rw [children_terminal hnext] at h
        obtain ⟨parts, hparts, rfl⟩ := ih (Nat.le_of_succ_le hd) h
        refine ⟨_, .terminal (p := p) hnext hparts, ?_⟩
        rw [List.map_append, List.append_assoc, List.map_singleton, RuleTree.tree_token]
        rfl
    | nonterminal n =>
      cases hc : (f.get? ⟨{ item with dot := d + 1 }, k⟩).bind w.resolve with
      | none => simp [children_nonterminal_of_eq_none hnext hc] at h
      | some c =>
        rw [children_nonterminal hnext hc] at h
        cases hchild : descend c tokens with
        | error fault => simp [hchild, bind, Except.bind] at h
        | ok result =>
          obtain ⟨t, tokens'⟩ := result
          rw [hchild] at h
          obtain ⟨parts, hparts, rfl⟩ := ih (Nat.le_of_succ_le hd) h
          obtain ⟨_, ⟨r, parts', hr, hparts', rfl⟩, rfl⟩ := hdescend _ c hc _ _ _ hchild
          refine ⟨_, .nonterminal (p := p) hnext hc hr hparts' hparts, ?_⟩
          rw [List.map_append, List.append_assoc, List.map_singleton]
          rfl

/-- Where the builder succeeds it has built the tree of the derivation that it followed. -/
theorem exists_follows_of_descend (hdots : f.HasDots w) (depth : Nat) {c : Cell} {t : Tree}
    (hdot : c.item.dot ≤ (w.rhs c.item.rule).length)
    (h : f.descend w depth c tokens = .ok (t, rest)) :
    ∃ d, f.FollowsCell w c tokens d rest ∧ t = d.tree := by
  induction depth generalizing c tokens t rest with
  | zero => simp [descend] at h
  | succ depth ih =>
    rw [descend] at h
    cases hr : w.rule? c.item.rule with
    | none => simp [hr] at h
    | some r =>
      rw [hr] at h
      cases hresult : f.children w (fun c ts => f.descend w depth c ts) r.rhs c.item c.item.dot
          c.column tokens [] with
      | error fault => simp [hresult, bind, Except.bind] at h
      | ok result =>
        obtain ⟨trees, rest'⟩ := result
        simp only [hresult, bind, Except.bind, pure, Except.pure] at h
        obtain ⟨rfl, rfl⟩ := Prod.mk.inj (Except.ok.inj h)
        rw [← WidenedGrammar.rhs_eq_of_rule? hr] at hresult
        obtain ⟨parts, hparts, rfl⟩ := exists_follows_of_children
          (fun key c hc _ _ _ h => ih (hdots key c hc) h) hdot hresult
        refine ⟨_, ⟨r, parts, hr, hparts, rfl⟩, ?_⟩
        rw [List.append_nil, RuleTree.tree_rule]
        rfl

theorem exists_descend_of_tree_eq_ok {t : Tree} (h : f.tree w tokens = .ok t) :
    ∃ depth, f.descend w depth ⟨w.acceptItem, tokens.length⟩ tokens.reverse = .ok (t, []) := by
  rw [tree] at h
  split at h
  · simp at h
  · next hresult =>
    rw [Except.ok.inj h] at hresult
    exact ⟨_, hresult⟩
  · simp at h

namespace Follows

variable {p : Item} {k : Nat} {parts : List RuleTree}

/-- Before its first symbol the builder is done with an item. -/
theorem of_dot_eq_zero {i : Item} (h : f.Follows w i k tokens parts rest) (hdot : i.dot = 0) :
    parts = [] ∧ tokens = rest := by
  cases h with
  | start => exact ⟨rfl, rfl⟩
  | terminal => simp at hdot
  | nonterminal => simp at hdot

theorem of_terminal {t : Terminal} (h : f.Follows w p.advance k tokens parts rest)
    (hnext : w.next? p = some (.terminal t)) :
    ∃ token tokens' parts', tokens = token :: tokens' ∧
      parts = parts' ++ [.token ⟨token, ⟨tokens'.length, tokens'.length + 1⟩⟩] ∧
      f.Follows w p (k - 1) tokens' parts' rest := by
  generalize hi : p.advance = i at h
  cases h with
  | start hdot => simp [← hi] at hdot
  | terminal _ h =>
    obtain rfl := Item.advance_injective hi
    exact ⟨_, _, _, rfl, rfl, h⟩
  | nonterminal hnext' =>
    obtain rfl := Item.advance_injective hi
    simp [hnext] at hnext'

theorem of_nonterminal {n : Nonterminal} (h : f.Follows w p.advance k tokens parts rest)
    (hnext : w.next? p = some (.nonterminal n)) :
    ∃ c d rest' parts', (f.get? ⟨p.advance, k⟩).bind w.resolve = some c ∧
      f.FollowsCell w c tokens d rest' ∧ parts = parts' ++ [d] ∧
      f.Follows w p c.item.origin rest' parts' rest := by
  generalize hi : p.advance = i at h
  cases h with
  | start hdot => simp [← hi] at hdot
  | terminal hnext' =>
    obtain rfl := Item.advance_injective hi
    simp [hnext] at hnext'
  | nonterminal _ hc hr hparts h =>
    obtain rfl := Item.advance_injective hi
    exact ⟨_, _, _, _, hc, ⟨_, _, hr, hparts, rfl⟩, rfl, h⟩

end Follows

/-- From the accepting item the builder goes back over the end marker and down to the sentence. -/
theorem FollowsCell.of_acceptItem {k : Nat} {d : RuleTree}
    (h : f.FollowsCell w ⟨w.acceptItem, k + 1⟩ tokens d rest) :
    ∃ token tokens' c d', tokens = token :: tokens' ∧
      (f.get? ⟨w.startItem.advance, k⟩).bind w.resolve = some c ∧
      f.FollowsCell w c tokens' d' rest ∧
      d = .rule (.start w.grammar.sentence) ⟨0, k + 1⟩
        [d', .token ⟨token, ⟨tokens'.length, tokens'.length + 1⟩⟩] := by
  obtain ⟨r, parts, hr, hparts, rfl⟩ := h
  obtain rfl : .start w.grammar.sentence = r := by
    rw [WidenedGrammar.acceptItem, WidenedGrammar.rule?_startId] at hr
    exact Option.some.inj hr
  obtain ⟨token, tokens', parts, rfl, rfl, hbefore⟩ :=
    Follows.of_terminal (p := w.startItem.advance) hparts w.next?_advance_startItem
  obtain ⟨c, d', _, parts, hc, hd', rfl, hstart⟩ := hbefore.of_nonterminal w.next?_startItem
  obtain ⟨rfl, rfl⟩ := hstart.of_dot_eq_zero rfl
  exact ⟨token, tokens', c, d', rfl, hc, hd', rfl⟩

/-- The builder has no choice. -/
theorem Follows.unique {i : Item} {k : Nat} {parts parts' : List RuleTree} {rest' : List Token}
    (h : f.Follows w i k tokens parts rest) (h' : f.Follows w i k tokens parts' rest') :
    parts = parts' ∧ rest = rest' := by
  induction h generalizing parts' rest' with
  | start hdot =>
    obtain ⟨rfl, rfl⟩ := h'.of_dot_eq_zero hdot
    exact ⟨rfl, rfl⟩
  | terminal hnext _ ih =>
    obtain ⟨_, _, _, htokens, rfl, hbefore⟩ := h'.of_terminal hnext
    obtain ⟨rfl, rfl⟩ := List.cons.inj htokens
    obtain ⟨rfl, rfl⟩ := ih hbefore
    exact ⟨rfl, rfl⟩
  | nonterminal hnext hc hr _ _ ih ih' =>
    obtain ⟨c, _, _, _, hc', ⟨_, _, hr', hparts', rfl⟩, rfl, hbefore⟩ := h'.of_nonterminal hnext
    obtain rfl := Option.some.inj (hc.symm.trans hc')
    obtain rfl := Option.some.inj (hr.symm.trans hr')
    obtain ⟨rfl, rfl⟩ := ih hparts'
    obtain ⟨rfl, rfl⟩ := ih' hbefore
    exact ⟨rfl, rfl⟩

theorem FollowsCell.unique {c : Cell} {d d' : RuleTree} {rest' : List Token}
    (h : f.FollowsCell w c tokens d rest) (h' : f.FollowsCell w c tokens d' rest') :
    d = d' ∧ rest = rest' := by
  obtain ⟨r, _, hr, hparts, rfl⟩ := h
  obtain ⟨_, _, hr', hparts', rfl⟩ := h'
  obtain rfl := Option.some.inj (hr.symm.trans hr')
  obtain ⟨rfl, rfl⟩ := hparts.unique hparts'
  exact ⟨rfl, rfl⟩

end Forest

/-- A derivation of a sentence by the sentence rule, closed by the end marker behind its `n`
tokens. -/
def RuleTree.closed (w : WidenedGrammar) (n : Nat) (parts : List RuleTree) : RuleTree :=
  .rule (.start w.grammar.sentence) ⟨0, n + 1⟩
    [.rule w.entry ⟨0, n⟩ parts, .token ⟨.endMarker, ⟨n, n + 1⟩⟩]

/-- The tree of the sentence is passed on. -/
@[simp] theorem RuleTree.tree_closed (w : WidenedGrammar) (n : Nat) (parts : List RuleTree) :
    (closed w n parts).tree = (RuleTree.rule w.entry ⟨0, n⟩ parts).tree := by
  rw [closed, tree_rule]
  rfl

/-! ### In a chart that agrees with its forest -/

namespace ParseState.IsLinked

variable {w : WidenedGrammar} {tokens : List Token} {builds : Nat → List Nat} {s : ParseState}

theorem hasDots (hl : s.IsLinked w (tokens.map Token.terminal) builds) : s.forest.HasDots w := by
  intro key c hc
  obtain ⟨_, _, _, _, _, _, hmem, -⟩ := hl.children key c (Forest.mem_childrenOf_of_resolve hc)
  exact (hl.items _ _ hmem).dot_le

/-- What the builder follows through an item of the chart is a derivation of the symbols before the
dot, from the origin of the item up to the column. -/
theorem isDerivation (hl : s.IsLinked w (tokens.map Token.terminal) builds) {i : Item} {k : Nat}
    {parts : List RuleTree} {rest : List Token} (hi : i ∈ s.chart.column k)
    (h : s.forest.Follows w i k (tokens.take k).reverse parts rest) :
    IsDerivation w.IsNested tokens ((w.rhs i.rule).take i.dot) parts i.origin k ∧
      rest = (tokens.take i.origin).reverse := by
  generalize htokens : (tokens.take k).reverse = tokens' at h
  induction h with
  | @start i k _ hdot =>
    rw [hdot, (hl.items _ _ hi).origin_eq hdot]
    exact ⟨.nil k, htokens.symm⟩
  | @terminal p k t token _ _ _ hnext _ ih =>
    obtain ⟨j, rfl, ht, hp⟩ := (hl.items _ _ hi).scanned p t rfl hnext
    rw [List.getElem?_map, Option.map_eq_some_iff] at ht
    obtain ⟨token', htoken, rfl⟩ := ht
    rw [List.take_add_one, htoken, Option.toList_some, List.reverse_append,
      List.reverse_singleton, List.singleton_append] at htokens
    obtain ⟨rfl, rfl⟩ := List.cons.inj htokens
    obtain ⟨hparts, hrest⟩ := ih hp rfl
    have hlength : (tokens.take j).reverse.length = j := by
      rw [List.length_reverse, List.length_take]
      exact Nat.min_eq_left (Nat.le_of_lt (List.getElem?_eq_some_iff.mp htoken).1)
    rw [WidenedGrammar.take_advance hnext, hlength]
    exact ⟨hparts.terminal htoken, hrest⟩
  | @nonterminal p k n c r _ _ _ _ _ hnext hc hr _ _ ih ih' =>
    obtain ⟨q, m, hkey, hnext', -, hcolumn, hcmem, hpmem, v, -, hcomplete⟩ :=
      hl.children _ c (Forest.mem_childrenOf_of_resolve hc)
    obtain rfl := Item.advance_injective (i := p) hkey
    obtain rfl : n = m := by simpa [hnext] using hnext'
    obtain rfl : c.column = k := hcolumn
    obtain ⟨hparts', hrest'⟩ := ih hcmem htokens
    obtain ⟨hparts, hrest⟩ := ih' hpmem hrest'.symm
    obtain ⟨rfl, hnested⟩ := WidenedGrammar.isNested_upTo hcomplete (hl.items _ _ hcmem).dot_le hr
      fun hn => WidenedGrammar.next?_ne_start p (hn ▸ hnext)
    rw [WidenedGrammar.rhs_eq_of_rule? hr] at hparts'
    rw [WidenedGrammar.take_advance hnext]
    exact ⟨hparts.nonterminal hnested hparts', hrest⟩

/-- The tree of an accepted sentence is the tree of a derivation by the sentence rule, which the
builder follows from the end marker to the first token, if nothing but the sentence at the present
width of its rule has let the start item advance. -/
theorem exists_derivation (hl : s.IsLinked w (inputTerminals tokens) builds)
    (hsentence : ∀ c ∈ s.forest.childrenOf ⟨w.startItem.advance, tokens.length⟩,
      c = ⟨⟨Grammar.entryId, w.entryLength, 0⟩, tokens.length⟩ ∧
        c.item ∈ s.chart.column tokens.length)
    (haccept : w.acceptItem ∈ s.chart.column (tokens.length + 1)) {t : Tree}
    (ht : s.forest.tree w (tokens ++ [.endMarker]) = .ok t) :
    ∃ parts, s.forest.FollowsCell w ⟨w.acceptItem, tokens.length + 1⟩
        (tokens ++ [Token.endMarker]).reverse (.closed w tokens.length parts) [] ∧
      IsDerivation w.IsNested tokens w.entry.rhs parts 0 tokens.length ∧
      t = (RuleTree.closed w tokens.length parts).tree := by
  obtain ⟨depth, hdescend⟩ := Forest.exists_descend_of_tree_eq_ok ht
  rw [List.length_append, List.length_singleton] at hdescend
  obtain ⟨_, hcell, rfl⟩ :=
    Forest.exists_follows_of_descend hl.hasDots depth (hl.items _ _ haccept).dot_le hdescend
  obtain ⟨_, _, c, _, hrest, hc, ⟨r, parts, hr, hparts, rfl⟩, rfl⟩ := hcell.of_acceptItem
  rw [List.reverse_append, List.reverse_singleton, List.singleton_append] at hrest
  obtain ⟨rfl, rfl⟩ := List.cons.inj hrest
  obtain ⟨rfl, hmem⟩ := hsentence c (Forest.mem_childrenOf_of_resolve hc)
  obtain rfl : w.entry = r := Option.some.inj (w.rule?_entryId.symm.trans hr)
  have hentry : w.entry.upTo w.entryLength = w.entry := by
    rw [Rule.upTo, WidenedGrammar.entryLength, List.take_length]
  rw [hentry, List.length_reverse] at hcell ⊢
  have htake : (tokens ++ [Token.endMarker]).take tokens.length = tokens := List.take_left
  obtain ⟨hderivation, -⟩ := hl.isDerivation hmem
    (show s.forest.Follows w _ _ ((tokens ++ [Token.endMarker]).take _).reverse parts [] by
      rw [htake]
      exact hparts)
  replace hderivation := hderivation.take (Nat.le_refl _)
  rw [htake, WidenedGrammar.rhs_entryId, WidenedGrammar.entryLength, List.take_length]
    at hderivation
  exact ⟨parts, hcell, hderivation, rfl⟩

end ParseState.IsLinked

end NounPhrase
