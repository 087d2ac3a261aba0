import NounPhrase.Forest.Tree

/-!
# The children of a cell

A forest is read through the list of children of a cell, which is empty for a cell that the forest
does not have. Recording a child appends it to the children of its cell, unless it is one of them
already, and dropping the columns from some column on leaves the children of all other cells.

## Main definitions

* `Forest.childrenOf`: the children of a cell.

## Main results

* `Forest.childrenOf_record`, `Forest.childrenOf_purgeFrom`: the children after an operation.
* `Forest.get?_record_of_ne`, `Forest.get?_purgeFrom`: the entries that an operation leaves.
* `Forest.get?_eq_some_childrenOf`: a cell with children has an entry.
* `Forest.toList_eq_of_get?_eq`: a forest is known from its entries.
* `Forest.length_flatMap_toList`: the number of children of all cells together.
-/

namespace NounPhrase

instance : Std.TransCmp Cell.compare :=
  inferInstanceAs (Std.TransCmp (compareLex _ (compareLex _ (compareLex _ _))))

instance : Std.LawfulEqCmp Cell.compare where
  eq_of_compare {a b} h := by
    simp only [Cell.compare, compareLex_eq_eq, compareOn, Nat.compare_eq_eq] at h
    obtain ⟨hcolumn, hrule, hdot, horigin⟩ := h
    obtain ⟨⟨⟨ra⟩, da, oa⟩, ka⟩ := a
    obtain ⟨⟨⟨rb⟩, db, ob⟩, kb⟩ := b
    simp_all

namespace Forest

variable {f : Forest}

/-- The children of a cell in the order in which they were found; none if the forest does not have
the cell. -/
def childrenOf (f : Forest) (key : Cell) : List Cell := (f.get? key).getD []

@[simp] theorem childrenOf_blank (key : Cell) : blank.childrenOf key = [] := by
  simp [childrenOf, get?, blank]

theorem childrenOf_record (f : Forest) (key child key' : Cell) :
    (f.record key child).childrenOf key' =
      if key' = key then
        if child ∈ f.childrenOf key then f.childrenOf key else f.childrenOf key ++ [child]
      else f.childrenOf key' := by
  have heq : Cell.compare key key' = .eq ↔ key' = key := by
    rw [Std.LawfulEqCmp.compare_eq_iff_eq, eq_comm]
  rw [childrenOf, get?, record, Std.TreeMap.getElem?_alter]
  simp only [heq]
  split
  · cases hget : f.get? key with
    | none =>
      have hnone : f.childrenOf key = [] := by rw [childrenOf, hget]; rfl
      rw [get?] at hget
      simp [hget, hnone]
    | some children =>
      have hsome : f.childrenOf key = children := by rw [childrenOf, hget]; rfl
      rw [get?] at hget
      simp [hget, hsome]
  · rfl

theorem get?_record_of_ne {key child key' : Cell} (h : key' ≠ key) :
    (f.record key child).get? key' = f.get? key' := by
  have hne : Cell.compare key key' ≠ .eq := by
    rw [Ne, Std.LawfulEqCmp.compare_eq_iff_eq]
    exact Ne.symm h
  simp [get?, record, Std.TreeMap.getElem?_alter, hne]

theorem mem_childrenOf_record {key child key' c : Cell} :
    c ∈ (f.record key child).childrenOf key' ↔
      c ∈ f.childrenOf key' ∨ key' = key ∧ c = child := by
  rw [childrenOf_record]
  by_cases h : key' = key
  · subst h
    by_cases hc : child ∈ f.childrenOf key'
    · simp only [if_pos, hc, true_and]
      exact ⟨.inl, fun h => h.elim id fun h => h ▸ hc⟩
    · simp [hc]
  · simp [h]

/-- Recording a child leaves the children that are there, in their order. -/
theorem childrenOf_isPrefix_record (f : Forest) (key child key' : Cell) :
    f.childrenOf key' <+: (f.record key child).childrenOf key' := by
  rw [childrenOf_record]
  split
  · next h =>
    subst h
    split
    · exact List.prefix_refl _
    · exact List.prefix_append ..
  · exact List.prefix_refl _

theorem nodup_childrenOf_record {key child key' : Cell} (h : (f.childrenOf key').Nodup) :
    ((f.record key child).childrenOf key').Nodup := by
  rw [childrenOf_record]
  split
  · next hk =>
    subst hk
    split
    · exact h
    · next hc =>
      refine List.nodup_append.mpr ⟨h, by simp, fun a ha b hb hab => ?_⟩
      obtain rfl := List.mem_singleton.mp hb
      exact hc (hab ▸ ha)
  · exact h

theorem get?_purgeFrom (f : Forest) (k : Nat) (key : Cell) :
    (f.purgeFrom k).get? key = if key.column < k then f.get? key else none := by
  simp only [get?, purgeFrom, Std.TreeMap.getElem?_filter']
  cases f.cells[key]? with
  | none => simp
  | some children => by_cases h : key.column < k <;> simp [h, Option.filter]

theorem childrenOf_purgeFrom (f : Forest) (k : Nat) (key : Cell) :
    (f.purgeFrom k).childrenOf key = if key.column < k then f.childrenOf key else [] := by
  rw [childrenOf, get?_purgeFrom]
  split <;> rfl

/-- A cell with children has an entry. -/
theorem get?_eq_some_childrenOf {key : Cell} (h : f.childrenOf key ≠ []) :
    f.get? key = some (f.childrenOf key) := by
  unfold childrenOf at h ⊢
  cases hget : f.get? key with
  | none => simp [hget] at h
  | some children => rfl

theorem mem_toList {key : Cell} {children : List Cell} :
    (key, children) ∈ f.toList ↔ f.get? key = some children :=
  Std.TreeMap.mem_toList_iff_getElem?_eq_some

/-! ### The number of children -/

theorem mem_flatMap_of_mem_childrenOf {key c : Cell} (h : c ∈ f.childrenOf key) :
    c ∈ f.toList.flatMap Prod.snd := by
  have hget := get?_eq_some_childrenOf (List.ne_nil_of_mem h)
  refine List.mem_flatMap.mpr ⟨(key, f.childrenOf key), ?_, h⟩
  exact mem_toList.mpr hget

theorem length_flatMap_toList (f : Forest) :
    (f.toList.flatMap Prod.snd).length = f.childCount := by
  rw [childCount]
  induction f.toList with
  | nil => rfl
  | cons e l ih => rw [List.flatMap_cons, List.length_append, ih, List.foldr_cons]

/-! ### Forests with the same cells -/

section Equiv

variable {f' : Forest} (h : f.cells.Equiv f'.cells)
include h

theorem get?_eq_of_equiv (key : Cell) : f.get? key = f'.get? key := h.getElem?_eq

theorem toList_eq_of_equiv : f.toList = f'.toList := h.toList_eq

omit h in
/-- Forests with the same entries list the same cells. -/
theorem toList_eq_of_get?_eq (h : ∀ key, f.get? key = f'.get? key) : f.toList = f'.toList :=
  toList_eq_of_equiv (.of_forall_constGet?_eq h)

theorem ambiguities_eq_of_equiv : f.ambiguities = f'.ambiguities := by
  rw [ambiguities, toList_eq_of_equiv h, ambiguities]

theorem children_eq_of_equiv (w : WidenedGrammar)
    (descend : Cell → List Token → Except TreeFault (Tree × List Token)) (rhs : List Symbol)
    (item : Item) (dot column : Nat) (tokens : List Token) (found : List Tree) :
    f.children w descend rhs item dot column tokens found =
      f'.children w descend rhs item dot column tokens found := by
  induction dot generalizing column tokens found with
  | zero => rfl
  | succ dot ih => simp only [children, get?_eq_of_equiv h, ih]

theorem descend_eq_of_equiv (w : WidenedGrammar) (depth : Nat) (cell : Cell)
    (tokens : List Token) : f.descend w depth cell tokens = f'.descend w depth cell tokens := by
  induction depth generalizing cell tokens with
  | zero => rfl
  | succ depth ih =>
    simp only [descend, children_eq_of_equiv h, ih]

/-- Forests with the same cells have the same tree. -/
theorem tree_eq_of_equiv (w : WidenedGrammar) (tokens : List Token) :
    f.tree w tokens = f'.tree w tokens := by
  rw [tree, tree, childCount, childCount, toList_eq_of_equiv h, descend_eq_of_equiv h]

end Equiv

end Forest

end NounPhrase
