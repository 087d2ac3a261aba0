import Mathlib.Data.Finset.Card
import NounPhrase.Proofs.Forest.Children

/-!
# The entries of a forest

An entry of a forest is made with its first child, and it goes when its column is dropped. So no
entry is without children, and no child is in an entry twice, as `Forest.record` looks for it first.

The cells that have an entry are a finite set. Its size is the size of the forest, and the cells in
it with two or more children are the ambiguities.

## Main definitions

* `Forest.IsTidy`: every entry has a child and no child twice.
* `Forest.support`: the cells that have an entry.

## Main results

* `Forest.IsTidy.record`, `Forest.IsTidy.purgeFrom`: the operations keep a forest tidy.
* `Forest.IsTidy.exists_get?_of_isPrefix`: an entry of a tidy forest is in every forest whose
  children begin with those of the tidy one.
* `Forest.card_support`, `Forest.ambiguities_eq_card`: what the counts of a forest count.
-/

namespace NounPhrase

namespace Forest

variable {f f' : Forest} {key : Cell} {children : List Cell}

theorem childrenOf_of_get? (h : f.get? key = some children) : f.childrenOf key = children := by
  rw [childrenOf, h, Option.getD_some]

theorem get?_of_get?_purgeFrom {k : Nat} (hget : (f.purgeFrom k).get? key = some children) :
    f.get? key = some children := by
  rw [get?_purgeFrom] at hget
  split at hget
  · exact hget
  · cases hget

/-! ### Tidy forests -/

/-- Every entry has a child and no child twice. -/
structure IsTidy (f : Forest) : Prop where
  ne_nil : ∀ key children, f.get? key = some children → children ≠ []
  nodup : ∀ key children, f.get? key = some children → children.Nodup

theorem isTidy_blank : blank.IsTidy where
  ne_nil key children h := by simp [get?, blank] at h
  nodup key children h := by simp [get?, blank] at h

namespace IsTidy

theorem nodup_childrenOf (h : f.IsTidy) (key : Cell) : (f.childrenOf key).Nodup := by
  rw [childrenOf]
  cases hget : f.get? key with
  | none => exact List.nodup_nil
  | some children => exact h.nodup key children hget

/-- The entry in which a child is recorded has that child. -/
theorem record (h : f.IsTidy) (key child : Cell) : (f.record key child).IsTidy where
  ne_nil key' children hget := by
    by_cases hkey : key' = key
    · rw [← childrenOf_of_get? hget]
      exact List.ne_nil_of_mem (mem_childrenOf_record.mpr (.inr ⟨hkey, rfl⟩))
    · rw [get?_record_of_ne hkey] at hget
      exact h.ne_nil key' children hget
  nodup key' children hget := by
    rw [← childrenOf_of_get? hget]
    exact nodup_childrenOf_record (h.nodup_childrenOf key')

theorem purgeFrom (h : f.IsTidy) (k : Nat) : (f.purgeFrom k).IsTidy where
  ne_nil key children hget := h.ne_nil key children (get?_of_get?_purgeFrom hget)
  nodup key children hget := h.nodup key children (get?_of_get?_purgeFrom hget)

/-- An entry stays, with its children as the first ones, if the children of its cell do. -/
theorem exists_get?_of_isPrefix (h : f.IsTidy) (hget : f.get? key = some children)
    (hfirst : f.childrenOf key <+: f'.childrenOf key) :
    ∃ children', f'.get? key = some children' ∧ children <+: children' := by
  rw [childrenOf_of_get? hget] at hfirst
  have hne : f'.childrenOf key ≠ [] := fun hnil =>
    h.ne_nil key children hget (List.prefix_nil.mp (hnil ▸ hfirst))
  exact ⟨_, get?_eq_some_childrenOf hne, hfirst⟩

end IsTidy

/-! ### Counting the entries -/

/-- The cells that have an entry. -/
def support (f : Forest) : Finset Cell := (f.toList.map Prod.fst).toFinset

theorem nodup_map_fst_toList (f : Forest) : (f.toList.map Prod.fst).Nodup := by
  rw [toList, Std.TreeMap.map_fst_toList_eq_keys]
  exact Std.TreeMap.nodup_keys

theorem mem_support : key ∈ f.support ↔ ∃ children, f.get? key = some children := by
  simp [support, mem_toList]

theorem card_support (f : Forest) : f.support.card = f.size := by
  rw [support, List.toFinset_card_of_nodup f.nodup_map_fst_toList, List.length_map]
  exact Std.TreeMap.length_toList

/-- The ambiguities are the cells with at least two children. -/
theorem ambiguities_eq_card (f : Forest) :
    f.ambiguities = (f.support.filter fun key => 2 ≤ (f.childrenOf key).length).card := by
  have hfilter : (f.support.filter fun key => 2 ≤ (f.childrenOf key).length) =
      ((f.toList.map Prod.fst).filter fun key => 2 ≤ (f.childrenOf key).length).toFinset := by
    ext key
    simp [support]
  rw [hfilter, List.toFinset_card_of_nodup (f.nodup_map_fst_toList.filter _),
    ← List.countP_eq_length_filter, List.countP_map, ambiguities]
  refine List.countP_congr fun e he => ?_
  rw [Function.comp_apply, childrenOf_of_get? (mem_toList.mp he)]
  rfl

theorem ambiguities_le_size (f : Forest) : f.ambiguities ≤ f.size := by
  rw [ambiguities_eq_card, ← card_support]
  exact Finset.card_filter_le ..

end Forest

end NounPhrase
