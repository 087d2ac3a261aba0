import Mathlib.Logic.Function.Basic
import NounPhrase.Proofs.Forest.Building
import NounPhrase.Recognition

/-!
# Trees of renamed tokens

A renaming gives every token another word, equal words to equal words only, and any tag at all; the
terminal stays. The tree that is read off a forest takes the tokens up as they come and looks at
none of them, so that of renamed tokens there is the same tree with the leaves renamed, or the same
fault.

The words and tags of a leaf are renamed by the place of the leaf. The end marker is not renamed:
it is a token of the start rule alone, and the start rule passes on the sentence only.

## Main definitions

* `Renaming`, `Renaming.tokens`: new words and tags, and the tokens that have them.
* `Tree.mapLeaves`, `Renaming.tree`: a tree with other leaves, and with renamed ones.
* `Renaming.derivation`: the derivation of the renamed tokens.

## Main results

* `Action.mapLeaves_apply`: an action builds the same tree of children with other leaves.
* `Renaming.descend_reversed`: the builder makes the same tree of renamed tokens.
* `Renaming.tree_derivation`: the tree of the renamed tokens.
-/

namespace NounPhrase

/-! ### Renamed tokens -/

/-- New words and tags for tokens. An absent word counts as a word, and different words stay
different; a tag depends on nothing but the place of its token. -/
structure Renaming where
  word : Option String → Option String
  word_injective : Function.Injective word
  tag : Nat → Option String

namespace Renaming

variable (r : Renaming)

/-- The token at place `k` with its new word and tag. -/
def token (k : Nat) (t : Token) : Token := ⟨t.terminal, r.word t.word, r.tag k⟩

/-- The tokens of a sentence with their new words and tags. -/
def tokens (ts : List Token) : List Token := ts.mapIdx r.token

@[simp] theorem length_tokens (ts : List Token) : (r.tokens ts).length = ts.length :=
  List.length_mapIdx

theorem getElem?_tokens (ts : List Token) (k : Nat) :
    (r.tokens ts)[k]? = ts[k]?.map (r.token k) :=
  List.getElem?_mapIdx

/-- The terminals stay. -/
@[simp] theorem map_terminal_tokens (ts : List Token) :
    (r.tokens ts).map Token.terminal = ts.map Token.terminal := by
  refine List.ext_getElem? fun k => ?_
  rw [List.getElem?_map, List.getElem?_map, getElem?_tokens, Option.map_map]
  rfl

@[simp] theorem tokens_eq_nil_iff {ts : List Token} : r.tokens ts = [] ↔ ts = [] :=
  List.mapIdx_eq_nil_iff

theorem dropLast_tokens (ts : List Token) : (r.tokens ts).dropLast = r.tokens ts.dropLast := by
  refine List.ext_getElem? fun k => ?_
  rw [List.getElem?_dropLast, getElem?_tokens, getElem?_tokens, List.getElem?_dropLast,
    length_tokens]
  split <;> rfl

/-! ### Tokens that come in reverse -/

/-- The renamed tokens, where those that are left come in reverse. -/
def reversed (rest : List Token) : List Token := (r.tokens rest.reverse).reverse

@[simp] theorem reversed_nil : r.reversed [] = [] := rfl

@[simp] theorem reversed_cons (t : Token) (rest : List Token) :
    r.reversed (t :: rest) = r.token rest.length t :: r.reversed rest := by
  rw [reversed, List.reverse_cons, tokens, List.mapIdx_concat, List.reverse_concat,
    List.length_reverse, reversed, tokens]

@[simp] theorem length_reversed (rest : List Token) : (r.reversed rest).length = rest.length := by
  rw [reversed, List.length_reverse, length_tokens, List.length_reverse]

theorem reversed_reverse (ts : List Token) : r.reversed ts.reverse = (r.tokens ts).reverse := by
  rw [reversed, List.reverse_reverse]

end Renaming

/-! ### Trees with other leaves -/

namespace Tree

mutual

/-- The tree with every leaf replaced. -/
def mapLeaves (φ : Spanned Token → Spanned Token) : Tree → Tree
  | leaf token => leaf (φ token)
  | branch label children => branch label (mapLeavesOfList φ children)

/-- The trees of a list with every leaf replaced. -/
def mapLeavesOfList (φ : Spanned Token → Spanned Token) : List Tree → List Tree
  | [] => []
  | t :: ts => t.mapLeaves φ :: mapLeavesOfList φ ts

end

variable (φ : Spanned Token → Spanned Token)

theorem mapLeavesOfList_eq_map (ts : List Tree) : mapLeavesOfList φ ts = ts.map (mapLeaves φ) := by
  induction ts with
  | nil => rfl
  | cons t ts ih => rw [mapLeavesOfList, ih, List.map_cons]

@[simp] theorem mapLeaves_leaf (token : Spanned Token) :
    (leaf token).mapLeaves φ = leaf (φ token) := by
  rw [mapLeaves]

@[simp] theorem mapLeaves_branch (label : Spanned Label) (children : List Tree) :
    (branch label children).mapLeaves φ = branch label (children.map (mapLeaves φ)) := by
  rw [mapLeaves, mapLeavesOfList_eq_map]

end Tree

theorem Placement.map_mapLeaves_place (φ : Spanned Token → Spanned Token) (p : Placement)
    (t : Tree) : (p.place t).map (Tree.mapLeaves φ) = p.place (t.mapLeaves φ) := by
  cases p with
  | keep => rfl
  | spread => cases t <;> simp [place]

/-- An action looks at no leaf: of children with other leaves it builds the same tree with other
leaves. -/
theorem Action.mapLeaves_apply (φ : Spanned Token → Spanned Token) (a : Action) (span : Span)
    (children : List Tree) :
    (a.apply span children).mapLeaves φ = a.apply span (children.map (Tree.mapLeaves φ)) := by
  rw [apply, apply]
  cases a.assembly with
  | pass => cases children <;> simp
  | sentence => exact Tree.mapLeaves_branch ..
  | node label plan =>
    simp only [Tree.mapLeaves_branch, List.map_flatten, List.map_zipWith, List.zipWith_map_right,
      Placement.map_mapLeaves_place]

/-! ### The builder -/

/-- From the accepting item the builder goes back over the end marker, and what it makes is the tree
of the sentence. -/
theorem Forest.descend_acceptItem (f : Forest) (w : WidenedGrammar) (depth k : Nat) (token : Token)
    (rest : List Token) :
    f.descend w (depth + 1) ⟨w.acceptItem, k + 1⟩ (token :: rest) =
      match (f.get? ⟨w.startItem.advance, k⟩).bind w.resolve with
      | none => .error (.missingDerivation w.startItem.advance k)
      | some c => f.descend w depth c rest := by
  have hrule : w.rule? w.acceptItem.rule = some (.start w.grammar.sentence) := w.rule?_startId
  rw [descend, hrule]
  simp only
  rw [WidenedGrammar.acceptItem, children_terminal (t := .eof) rfl,
    children_of_ne_terminal (by simp [Rule.start])]
  -- what stands before the end marker is the start item behind the sentence
  have hkey : (⟨⟨w.grammar.startId, 0 + 1, 0⟩, k + 1 - 1⟩ : Cell) = ⟨w.startItem.advance, k⟩ := rfl
  rw [hkey]
  cases (f.get? ⟨w.startItem.advance, k⟩).bind w.resolve with
  | none => rfl
  | some c =>
    simp only
    cases f.descend w depth c rest with
    | error fault => rfl
    | ok result => rfl

namespace Renaming

variable (r : Renaming)

/-- The tree with renamed leaves. -/
def tree (t : Tree) : Tree := t.mapLeaves fun x => ⟨r.token x.span.start x.value, x.span⟩

@[simp] theorem tree_leaf (t : Token) (k : Nat) :
    r.tree (.leaf ⟨t, ⟨k, k + 1⟩⟩) = .leaf ⟨r.token k t, ⟨k, k + 1⟩⟩ :=
  Tree.mapLeaves_leaf ..

theorem tree_apply (a : Action) (span : Span) (children : List Tree) :
    r.tree (a.apply span children) = a.apply span (children.map r.tree) :=
  Action.mapLeaves_apply ..

variable {f : Forest} {w : WidenedGrammar}

/-- Going through a rule, the builder finds the same trees with renamed leaves, if it does so in
every child. -/
theorem children_reversed {descend : Cell → List Token → Except TreeFault (Tree × List Token)}
    (hdescend : ∀ c rest, descend c (r.reversed rest) =
      (descend c rest).map (Prod.map r.tree r.reversed))
    (rhs : List Symbol) (item : Item) (dot k : Nat) (rest : List Token) (found : List Tree) :
    f.children w descend rhs item dot k (r.reversed rest) (found.map r.tree) =
      (f.children w descend rhs item dot k rest found).map
        (Prod.map (List.map r.tree) r.reversed) := by
  induction dot generalizing k rest found with
  | zero => rfl
  | succ dot ih =>
    by_cases hterminal : ∃ t, rhs[dot]? = some (.terminal t)
    · obtain ⟨t, ht⟩ := hterminal
      cases rest with
      | nil =>
        rw [reversed_nil, Forest.children_terminal_nil ht, Forest.children_terminal_nil ht]
        rfl
      | cons token rest =>
        rw [reversed_cons, Forest.children_terminal ht, Forest.children_terminal ht,
          length_reversed, ← ih, List.map_cons, tree_leaf]
    · have hne : ∀ t, rhs[dot]? ≠ some (.terminal t) := not_exists.mp hterminal
      rw [Forest.children_of_ne_terminal hne, Forest.children_of_ne_terminal hne]
      cases (f.get? ⟨{ item with dot := dot + 1 }, k⟩).bind w.resolve with
      | none => rfl
      | some c =>
        simp only [hdescend]
        cases descend c rest with
        | error fault => rfl
        | ok result => exact ih c.item.origin result.2 (result.1 :: found)

/-- The builder makes the same tree of renamed tokens, whatever the cell. -/
theorem descend_reversed (depth : Nat) (c : Cell) (rest : List Token) :
    f.descend w depth c (r.reversed rest) =
      (f.descend w depth c rest).map (Prod.map r.tree r.reversed) := by
  induction depth generalizing c rest with
  | zero => rfl
  | succ depth ih =>
    rw [Forest.descend, Forest.descend]
    cases w.rule? c.item.rule with
    | none => rfl
    | some rule =>
      have hchildren := r.children_reversed (f := f) (w := w) ih rule.rhs c.item c.item.dot
        c.column rest []
      rw [List.map_nil] at hchildren
      simp only [hchildren]
      cases f.children w (fun c ts => f.descend w depth c ts) rule.rhs c.item c.item.dot c.column
          rest [] with
      | error fault => rfl
      | ok result =>
        simp only [Except.map, bind, Except.bind, pure, Except.pure, Prod.map, tree_apply]

/-- The derivation of the renamed tokens. The grammar, the chart and the forest stay. -/
def derivation (d : Derivation) : Derivation := { d with tokens := r.tokens d.tokens }

/-- The tree of the renamed tokens is the tree with renamed leaves, and where there is no tree, the
fault is the same. -/
theorem tree_derivation (d : Derivation) : (r.derivation d).tree = d.tree.map r.tree := by
  obtain ⟨w, chart, f, ts⟩ := d
  show f.tree w (r.tokens ts ++ [.endMarker]) = (f.tree w (ts ++ [.endMarker])).map r.tree
  obtain ⟨depth, hdepth⟩ : ∃ depth, (f.childCount + 1) * (ts.length + 1 + 1) = depth + 1 :=
    Nat.exists_eq_add_one.mpr (Nat.mul_pos (Nat.succ_pos _) (Nat.succ_pos _))
  simp only [Forest.tree, List.length_append, List.length_singleton, List.reverse_concat,
    length_tokens, hdepth, ← reversed_reverse, Forest.descend_acceptItem]
  cases (f.get? ⟨w.startItem.advance, ts.length⟩).bind w.resolve with
  | none => rfl
  | some c =>
    simp only [descend_reversed]
    cases f.descend w depth c ts.reverse with
    | error fault => rfl
    | ok result =>
      obtain ⟨t, rest⟩ := result
      cases rest with
      | nil => rfl
      | cons token rest => simp [Except.map]

end Renaming

end NounPhrase
