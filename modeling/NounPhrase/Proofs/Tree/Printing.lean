import NounPhrase.Proofs.RuleText.Printing
import NounPhrase.Proofs.Text.Lines
import NounPhrase.Proofs.Tree.Lists
import NounPhrase.Tree.Layout

/-!
# Printing a tree in one pass

The printed form of a tree is made from the bottom up: the children of a branch are printed, cut
into lines again, and put two blanks further in. A printer that knows how deep it is can write the
blanks at once. An only child adds nothing to the depth, as it stands on the line of its branch.

What is printed ends in a parenthesis, a bracket or a letter of a name, and a carriage return in a
word is never the last character before a line feed. So a tree whose words and tags are free of line
feeds loses nothing when it is cut into lines, and the two printers agree.

## Main definitions

* `Tree.layoutAt`: the printed form at a depth, made in one pass.
* `Text.IsWholeLine`: a line that stays whole if further lines follow it.
* `Token.IsOneLine`: neither the word nor the tag of a token has a line feed.

## Main results

* `Tree.layoutAt_add`: what is printed deeper is what is printed here, further in.
* `Tree.isLossless_layoutAt`: what is printed loses nothing when it is cut into lines.
* `Tree.layout_eq_layoutAt`: the two printers agree.
* `text_eq_layoutAt`: the text of a tree, and the lines of the trees in it.
-/

namespace NounPhrase

/-! ### The printer -/

namespace Tree

mutual

/-- The printed form of a tree on a line that stands `depth` levels further in. -/
def layoutAt (depth : Nat) : Tree → List Char
  | leaf token => (token.text Token.text).toList
  | branch label [t] =>
    '(' :: (label.text Label.text).toList ++ ' ' :: '(' :: t.layoutAt depth ++ [')', ')']
  | branch label ts =>
    '(' :: (label.text Label.text).toList ++ layoutAtBelow (depth + 1) ts ++ [')']

/-- The printed forms of trees on lines of their own, behind two blanks for every level. -/
def layoutAtBelow (depth : Nat) : List Tree → List Char
  | [] => []
  | t :: ts =>
    '\n' :: List.replicate (2 * depth) ' ' ++ t.layoutAt depth ++ layoutAtBelow depth ts

end

variable {depth : Nat} {label : Spanned Label} {ts : List Tree}

theorem layoutAtBelow_eq_flatMap (depth : Nat) (ts : List Tree) :
    layoutAtBelow depth ts =
      ts.flatMap fun t => '\n' :: List.replicate (2 * depth) ' ' ++ t.layoutAt depth := by
  induction ts with
  | nil => rfl
  | cons t ts ih => rw [layoutAtBelow, ih, List.flatMap_cons]

@[simp] theorem layoutAt_leaf (depth : Nat) (token : Spanned Token) :
    (leaf token).layoutAt depth = (token.text Token.text).toList := by
  rw [layoutAt]

@[simp] theorem layoutAt_only (depth : Nat) (label : Spanned Label) (t : Tree) :
    (branch label [t]).layoutAt depth =
      '(' :: (label.text Label.text).toList ++ ' ' :: '(' :: t.layoutAt depth ++ [')', ')'] := by
  rw [layoutAt]

theorem layoutAt_branch (depth : Nat) (h : ∀ t, ts ≠ [t]) :
    (branch label ts).layoutAt depth =
      '(' :: (label.text Label.text).toList ++
        (ts.flatMap fun t => '\n' :: List.replicate (2 * (depth + 1)) ' ' ++
          t.layoutAt (depth + 1)) ++ [')'] := by
  rw [layoutAt, layoutAtBelow_eq_flatMap]
  exact h

theorem layoutBelow_eq_flatMap (ts : List Tree) :
    layoutBelow ts =
      ts.flatMap fun t => (Text.lines t.layout).flatMap ('\n' :: ' ' :: ' ' :: ·) := by
  induction ts with
  | nil => rfl
  | cons t ts ih => rw [layoutBelow, ih, List.flatMap_cons]

/-- A property of trees holds of a branch if it holds of its children. -/
@[elab_as_elim]
theorem induction_children {P : Tree → Prop} (leaf : ∀ token, P (leaf token))
    (branch : ∀ label ts, (∀ t ∈ ts, P t) → P (branch label ts)) : ∀ t, P t
  | .leaf token => leaf token
  | .branch label ts => branch label ts fun t _ => induction_children leaf branch t

end Tree

/-! ### Texts of one line -/

namespace Text

/-- The text is a line, and it stays whole if further lines follow it. -/
structure IsWholeLine (s : String) : Prop where
  isLine : Text.isLine s
  isLossless : IsLossless s.toList

/-- What stands before a whole line on the same line makes it longer. -/
theorem IsWholeLine.append_left {s u : String} (hu : IsWholeLine u) (hs : Text.isLine s) :
    IsWholeLine (s ++ u) where
  isLine := isLine_append hs hu.isLine
  isLossless := by
    have hline := isLine_iff.mp (isLine_append hs hu.isLine)
    obtain ⟨c, hc, hends⟩ := hu.isLossless.getLast?
    refine ⟨?_, c, by rw [String.toList_append, List.getLast?_append, hc, Option.some_or], hends⟩
    exact List.Pairwise.isChain (List.pairwise_of_forall_mem_list fun _ _ b hb _ => fun hn =>
      hline (hn ▸ hb))

theorem isWholeLine_of_isName {s : String} (h : isName s) : IsWholeLine s where
  isLine := isLine_of_isName h
  isLossless := by
    obtain ⟨hne, hname⟩ := isName_iff.mp h
    have hends : ∀ c ∈ s.toList, c ≠ '\r' ∧ c ≠ '\n' := fun c hc =>
      ⟨fun hret => absurd (hret ▸ hname c hc) (by decide),
        fun hn => absurd (hn ▸ hname c hc) (by decide)⟩
    refine ⟨List.Pairwise.isChain (List.pairwise_of_forall_mem_list fun _ ha _ _ hret => ?_),
      s.toList.getLast hne, List.getLast?_eq_some_getLast hne, hends _ (List.getLast_mem hne)⟩
    exact absurd hret (hends _ ha).1

theorem isLine_toString (n : Nat) : isLine (toString n) := by
  rw [isLine_iff, Nat.toString_eq_ofList_toDigits, String.toList_ofList]
  intro h
  exact absurd (Nat.isDigit_of_mem_toDigits (by decide) (by decide) h) (by decide)

end Text

open Text

theorem Span.isLine_text (s : Span) : isLine s.text :=
  isLine_append (isLine_append (isLine_toString s.start) (by decide)) (isLine_toString s.stop)

theorem Spanned.isWholeLine_text {α : Type} {render : α → String} {x : Spanned α}
    (h : IsWholeLine (render x.value)) : IsWholeLine (x.text render) :=
  h.append_left (isLine_append x.span.isLine_text (by decide))

theorem Label.isName_text (l : Label) : isName l.text := by
  cases l with
  | list => decide
  | category n => exact n.isName_name

theorem Label.isWholeLine_text (label : Spanned Label) : IsWholeLine (label.text Label.text) :=
  Spanned.isWholeLine_text (isWholeLine_of_isName label.value.isName_text)

/-- Neither the word nor the tag has a line feed. -/
structure Token.IsOneLine (t : Token) : Prop where
  word : ∀ w ∈ t.word, isLine w
  tag : ∀ g ∈ t.tag, isLine g

namespace Token.IsOneLine

/-- The text of a token without a line feed ends in a bracket or in the name of its terminal. -/
theorem isWholeLine_text {t : Token} (h : t.IsOneLine) : IsWholeLine t.text := by
  have hname : isLine t.terminal.name := isLine_of_isName t.terminal.isName_name
  have hclose : IsWholeLine "]" := ⟨by decide, .singleton (by decide) (by decide)⟩
  obtain ⟨terminal, word, tag⟩ := t
  cases word with
  | none =>
    cases tag with
    | none => exact isWholeLine_of_isName terminal.isName_name
    | some tag =>
      have htag : isLine tag := h.tag tag rfl
      exact hclose.append_left (isLine_append (isLine_append htag (by decide)) hname)
  | some word =>
    have hword : isLine word := h.word word rfl
    cases tag with
    | none => exact hclose.append_left (isLine_append (isLine_append hword (by decide)) hname)
    | some tag =>
      have htag : isLine tag := h.tag tag rfl
      have hitem : isLine (word ++ "/" ++ tag) :=
        isLine_append (isLine_append hword (by decide)) htag
      exact hclose.append_left (isLine_append (isLine_append hitem (by decide)) hname)

/-- So does a leaf, behind its span. -/
theorem isWholeLine_leaf {x : Spanned Token} (h : x.value.IsOneLine) :
    IsWholeLine (x.text Token.text) :=
  Spanned.isWholeLine_text h.isWholeLine_text

end Token.IsOneLine

/-! ### The two printers -/

namespace Tree

variable {t : Tree} {depth : Nat}

theorem forall_mem_leaves_of_branch {P : Spanned Token → Prop} {label : Spanned Label}
    {ts : List Tree} (h : ∀ x ∈ (branch label ts).leaves, P x) : ∀ t ∈ ts, ∀ x ∈ t.leaves, P x :=
  fun t ht x hx => h x (by rw [leaves_branch]; exact List.mem_flatMap_of_mem ht hx)

/-- Texts that lose nothing may stand one below the other behind blanks. -/
theorem isLossless_flatMap_append {α : Type} {f : α → List Char} {xs : List α} {cs : List Char}
    (n : Nat) (hxs : ∀ x ∈ xs, IsLossless (f x)) (hcs : IsLossless cs) :
    IsLossless ((xs.flatMap fun x => '\n' :: List.replicate n ' ' ++ f x) ++ cs) := by
  induction xs with
  | nil => exact hcs
  | cons x xs ih =>
    obtain ⟨hx, hxs⟩ := List.forall_mem_cons.mp hxs
    rw [List.flatMap_cons, List.append_assoc]
    exact .append (.cons (by decide) (hx.blanks_append n)) (ih hxs)

/-- What is printed of a tree whose tokens have no line feed loses nothing when it is cut into
lines. -/
theorem isLossless_layoutAt (h : ∀ x ∈ t.leaves, x.value.IsOneLine) (depth : Nat) :
    IsLossless (t.layoutAt depth) := by
  induction t using induction_children generalizing depth with
  | leaf token =>
    rw [layoutAt_leaf]
    exact (h token (by simp)).isWholeLine_leaf.isLossless
  | branch label ts ih =>
    have hopen : IsLossless ('(' :: (label.text Label.text).toList) :=
      .cons (by decide) (Label.isWholeLine_text label).isLossless
    have hclose : IsLossless [')'] := .singleton (by decide) (by decide)
    have hchildren : ∀ t ∈ ts, ∀ depth, IsLossless (t.layoutAt depth) :=
      fun t ht => ih t ht (forall_mem_leaves_of_branch h t ht)
    by_cases honly : ∃ t, ts = [t]
    · obtain ⟨t, rfl⟩ := honly
      rw [layoutAt_only]
      have ht : IsLossless (' ' :: '(' :: t.layoutAt depth) :=
        .cons (by decide) (.cons (by decide) (hchildren t List.mem_cons_self depth))
      exact (hopen.append ht).append (.cons (by decide) hclose)
    · rw [layoutAt_branch depth (not_exists.mp honly), List.append_assoc]
      exact hopen.append (isLossless_flatMap_append _ (fun t ht => hchildren t ht _) hclose)

/-- What is printed `n` levels deeper has `2 * n` more blanks behind each line feed. -/
theorem layoutAt_add (h : ∀ x ∈ t.leaves, x.value.IsOneLine) (depth n : Nat) :
    t.layoutAt (depth + n) = indent (2 * n) (t.layoutAt depth) := by
  induction t using induction_children generalizing depth with
  | leaf token =>
    rw [layoutAt_leaf, layoutAt_leaf, indent_eq_self]
    exact isLine_iff.mp (h token (by simp)).isWholeLine_leaf.isLine
  | branch label ts ih =>
    have hlabel : indent (2 * n) ('(' :: (label.text Label.text).toList) =
        '(' :: (label.text Label.text).toList := by
      rw [indent_cons (by decide),
        indent_eq_self (isLine_iff.mp (Label.isWholeLine_text label).isLine)]
    have hchildren : ∀ t ∈ ts, ∀ depth, t.layoutAt (depth + n) =
        indent (2 * n) (t.layoutAt depth) :=
      fun t ht => ih t ht (forall_mem_leaves_of_branch h t ht)
    by_cases honly : ∃ t, ts = [t]
    · obtain ⟨t, rfl⟩ := honly
      rw [layoutAt_only, layoutAt_only, indent_append, indent_append, hlabel,
        hchildren t List.mem_cons_self]
      rfl
    · have hrows : ∀ t ∈ ts, indent (2 * n) ('\n' :: List.replicate (2 * (depth + 1)) ' ' ++
          t.layoutAt (depth + 1)) = '\n' :: List.replicate (2 * (depth + n + 1)) ' ' ++
            t.layoutAt (depth + n + 1) := fun t ht => by
        have hdeeper : 2 * (depth + n + 1) = 2 * n + 2 * (depth + 1) := by omega
        rw [Nat.add_right_comm depth n 1, hchildren t ht, Nat.add_right_comm depth 1 n, hdeeper,
          indent_append, indent_newline_cons, List.replicate_add, indent_eq_self (by simp),
          List.cons_append]
      rw [layoutAt_branch _ (not_exists.mp honly), layoutAt_branch _ (not_exists.mp honly),
        indent_append, indent_append, hlabel, indent_flatMap, List.flatMap_congr hrows]
      rfl

/-- The two printers agree. -/
theorem layout_eq_layoutAt (h : ∀ x ∈ t.leaves, x.value.IsOneLine) : t.layout = t.layoutAt 0 := by
  induction t using induction_children with
  | leaf token => rw [layout, layoutAt_leaf]
  | branch label ts ih =>
    have hchildren : ∀ t ∈ ts, t.layout = t.layoutAt 0 :=
      fun t ht => ih t ht (forall_mem_leaves_of_branch h t ht)
    by_cases honly : ∃ t, ts = [t]
    · obtain ⟨t, rfl⟩ := honly
      rw [layout, layoutAt_only, hchildren t List.mem_cons_self]
    · have hrows : ∀ t ∈ ts, (Text.lines t.layout).flatMap ('\n' :: ' ' :: ' ' :: ·) =
          '\n' :: List.replicate (2 * (0 + 1)) ' ' ++ t.layoutAt (0 + 1) := fun t ht => by
        have ht' := forall_mem_leaves_of_branch h t ht
        rw [hchildren t ht, layoutAt_add ht']
        exact (isLossless_layoutAt ht' 0).flatMap_lines 2
      rw [layout, layoutAt_branch 0 (not_exists.mp honly), layoutBelow_eq_flatMap,
        List.flatMap_congr hrows]
      exact not_exists.mp honly

/-- The leaves of a tree in a tree are leaves of that tree. -/
theorem mem_leaves_of_mem_subtrees {s : Tree} (hs : s ∈ t.subtrees) {x : Spanned Token}
    (hx : x ∈ s.leaves) : x ∈ t.leaves := by
  induction t using induction_children with
  | leaf token =>
    rw [subtrees_leaf, List.mem_singleton] at hs
    exact hs ▸ hx
  | branch label ts ih =>
    rw [subtrees_branch, List.mem_append, List.mem_flatMap, List.mem_singleton] at hs
    rcases hs with ⟨t, ht, hs⟩ | rfl
    · rw [leaves_branch]
      exact List.mem_flatMap_of_mem ht (ih t ht hs)
    · exact hx

end Tree

/-- Let no word and no tag in a tree have a line feed. Then its text is what the printer makes in
one pass. What this printer makes at any depth of a tree in it are the lines of the printed form of
that tree, all of them and in order, with a line feed and two blanks for every level in between. -/
theorem text_eq_layoutAt {t : Tree} (h : ∀ x ∈ t.leaves, x.value.IsOneLine) :
    t.text = String.ofList (t.layoutAt 0) ∧
      ∀ s ∈ t.subtrees, ∀ depth, s.layoutAt depth =
        List.intercalate ('\n' :: List.replicate (2 * depth) ' ') (lines s.layout) := by
  refine ⟨congrArg String.ofList (Tree.layout_eq_layoutAt h), fun s hs depth => ?_⟩
  have hs : ∀ x ∈ s.leaves, x.value.IsOneLine := fun x hx =>
    h x (Tree.mem_leaves_of_mem_subtrees hs hx)
  have hdepth := Tree.layoutAt_add hs 0 depth
  rw [Nat.zero_add] at hdepth
  rw [hdepth, Tree.layout_eq_layoutAt hs, (Tree.isLossless_layoutAt hs 0).intercalate_lines]

/-- A phrase of three words, two of which end in a carriage return, with a branch of two words as
the only child of another one. -/
def Tree.wrapped : Tree :=
  .branch ⟨.category .pp, ⟨0, 3⟩⟩ [
    .leaf ⟨⟨.prep, some "med\r", some "SPS"⟩, ⟨0, 1⟩⟩,
    .branch ⟨.category .np, ⟨1, 3⟩⟩ [
      .branch ⟨.list, ⟨1, 3⟩⟩ [
        .leaf ⟨⟨.det, some "en", none⟩, ⟨1, 2⟩⟩,
        .leaf ⟨⟨.comNoun, some "bil\r", some "NCUSN@IS"⟩, ⟨2, 3⟩⟩]]]

theorem text_eq_layoutAt_wrapped :
    (∀ x ∈ Tree.wrapped.leaves, x.value.IsOneLine) ∧
      Tree.wrapped.text = String.ofList (Tree.wrapped.layoutAt 0) ∧
      Tree.wrapped.text = "(0..3: PP\n  0..1: med\r/SPS [prep]\n  (1..3: NP ((1..3: list\n" ++
        "    1..2: en [det]\n    2..3: bil\r/NCUSN@IS [com_noun]))))" := by
  have hleaves : ∀ x ∈ Tree.wrapped.leaves, x.value.IsOneLine := by
    intro x hx
    constructor
    all_goals revert x; decide +kernel
  exact ⟨hleaves, (text_eq_layoutAt hleaves).1, by decide +kernel⟩

end NounPhrase
