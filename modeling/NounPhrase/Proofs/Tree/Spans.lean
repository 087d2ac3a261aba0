import NounPhrase.Action.Assembly

/-!
# The leaves below a branch

In a tree that keeps all tokens the leaves below a branch are the tokens of the span of the branch,
in their order. An action that has a place for every child keeps all leaves: what is passed on is
the only child, and a child that is spread gives its own children instead, so that it is only the
branch itself that is lost.

## Main definitions

* `leavesOf`, `leavesBetween`: tokens as leaves.
* `Tree.IsSpanned`: every branch of the tree has the tokens of its span as leaves.
* `Assembly.Fits`: an assembly has a place for every child.

## Main results

* `Action.flatMap_place`: what is kept of every child is kept by a plan.
* `Action.leaves_apply`: an action that fits keeps all leaves.
* `Action.isSpanned_apply`: it makes a tree that keeps all tokens of such trees.
-/

namespace NounPhrase

/-! ### Tokens as leaves -/

/-- The tokens as leaves, each at its place. -/
def leavesOf (tokens : List Token) : List (Spanned Token) :=
  tokens.mapIdx fun k token => ⟨token, ⟨k, k + 1⟩⟩

/-- The tokens from number `a` up to number `b` as leaves. -/
def leavesBetween (tokens : List Token) (a b : Nat) : List (Spanned Token) :=
  ((leavesOf tokens).drop a).take (b - a)

section LeavesBetween

variable {tokens : List Token} {a b k : Nat}

@[simp] theorem length_leavesOf (tokens : List Token) :
    (leavesOf tokens).length = tokens.length := by
  rw [leavesOf, List.length_mapIdx]

@[simp] theorem leavesBetween_self (tokens : List Token) (a : Nat) :
    leavesBetween tokens a a = [] := by
  rw [leavesBetween, Nat.sub_self, List.take_zero]

theorem leavesBetween_zero_length (tokens : List Token) :
    leavesBetween tokens 0 tokens.length = leavesOf tokens := by
  rw [leavesBetween, List.drop_zero, Nat.sub_zero, ← length_leavesOf, List.take_length]

theorem leavesBetween_append (hak : a ≤ k) (hkb : k ≤ b) :
    leavesBetween tokens a k ++ leavesBetween tokens k b = leavesBetween tokens a b := by
  have hdrop : (leavesOf tokens).drop k = ((leavesOf tokens).drop a).drop (k - a) := by
    rw [List.drop_drop, Nat.add_sub_cancel' hak]
  rw [leavesBetween, leavesBetween, leavesBetween, hdrop, ← List.take_add]
  congr 1
  omega

theorem leavesBetween_succ {token : Token} (h : tokens[k]? = some token) :
    leavesBetween tokens k (k + 1) = [⟨token, ⟨k, k + 1⟩⟩] := by
  have hget : (leavesOf tokens)[k]? = some ⟨token, ⟨k, k + 1⟩⟩ := by
    rw [leavesOf, List.getElem?_mapIdx, h]
    rfl
  rw [leavesBetween, Nat.add_sub_cancel_left, List.take_one, List.head?_drop, hget]
  rfl

end LeavesBetween

/-- Every branch of the tree has the tokens of its span as leaves. -/
inductive Tree.IsSpanned (tokens : List Token) : Tree → Prop
  | leaf (token : Spanned Token) : IsSpanned tokens (leaf token)
  | branch {label : Label} {a b : Nat} {children : List Tree} (hab : a ≤ b)
      (hb : b ≤ tokens.length)
      (hleaves : (branch ⟨label, ⟨a, b⟩⟩ children).leaves = leavesBetween tokens a b)
      (hchildren : ∀ t ∈ children, t.IsSpanned tokens) :
      IsSpanned tokens (branch ⟨label, ⟨a, b⟩⟩ children)

/-! ### Actions -/

namespace Placement

/-- A child keeps its leaves wherever it is placed. -/
theorem flatMap_leaves_place (p : Placement) (t : Tree) :
    (p.place t).flatMap Tree.leaves = t.leaves := by
  cases p with
  | keep => exact List.flatMap_singleton ..
  | spread =>
    cases t with
    | leaf => exact List.flatMap_singleton ..
    | branch label children => exact (Tree.leaves_branch label children).symm

theorem isSpanned_of_mem_place {p : Placement} {t x : Tree} {tokens : List Token}
    (ht : t.IsSpanned tokens) (hx : x ∈ p.place t) : x.IsSpanned tokens := by
  cases p with
  | keep => exact List.mem_singleton.mp hx ▸ ht
  | spread =>
    cases ht with
    | leaf token => exact List.mem_singleton.mp hx ▸ .leaf token
    | branch _ _ _ hchildren => exact hchildren x hx

end Placement

/-- The assembly has a place for each of `n` children, and for no more. -/
def Assembly.Fits (a : Assembly) (n : Nat) : Prop :=
  match a with
  | .pass => n = 1
  | .sentence => True
  | .node _ plan => plan.length = n

namespace Action

variable {a : Action} {children : List Tree}

/-- What is listed of each child, and can be listed as well of the trees that are placed for it, is
listed of all children by a plan that has a place for each of them. -/
theorem flatMap_place {α : Type} {f : Tree → List α} {plan : List Placement}
    (h : plan.length = children.length)
    (hplace : ∀ x ∈ plan.zip children, (x.1.place x.2).flatMap f = f x.2) :
    (List.zipWith Placement.place plan children).flatten.flatMap f = children.flatMap f := by
  induction plan generalizing children with
  | nil => rw [List.length_eq_zero_iff.mp h.symm]; rfl
  | cons p plan ih =>
    cases children with
    | nil => simp at h
    | cons t children =>
      rw [List.zip_cons_cons, List.forall_mem_cons] at hplace
      rw [List.zipWith_cons_cons, List.flatten_cons, List.flatMap_append, hplace.1,
        ih (Nat.succ.inj h) hplace.2, List.flatMap_cons]

/-- An action that has a place for every child keeps all leaves. -/
theorem leaves_apply (h : a.assembly.Fits children.length) (span : Span) :
    (a.apply span children).leaves = children.flatMap Tree.leaves := by
  rw [apply]
  cases ha : a.assembly with
  | pass =>
    rw [ha] at h
    obtain ⟨t, rfl⟩ := List.length_eq_one_iff.mp h
    exact (List.flatMap_singleton ..).symm
  | sentence => exact Tree.leaves_branch ..
  | node label plan =>
    rw [ha] at h
    exact (Tree.leaves_branch ..).trans (flatMap_place h fun x _ => x.1.flatMap_leaves_place x.2)

/-- An action that has a place for every child makes a tree that keeps all tokens of such trees. -/
theorem isSpanned_apply {tokens : List Token} {i k : Nat}
    (h : a.assembly.Fits children.length) (hik : i ≤ k) (hk : k ≤ tokens.length)
    (hleaves : children.flatMap Tree.leaves = leavesBetween tokens i k)
    (hchildren : ∀ t ∈ children, t.IsSpanned tokens) :
    (a.apply ⟨i, k⟩ children).IsSpanned tokens := by
  rw [← leaves_apply h ⟨i, k⟩] at hleaves
  unfold apply at hleaves ⊢
  cases ha : a.assembly with
  | pass =>
    rw [ha] at h
    obtain ⟨t, rfl⟩ := List.length_eq_one_iff.mp h
    exact hchildren t List.mem_cons_self
  | sentence =>
    rw [ha] at hleaves
    exact .branch hik hk hleaves hchildren
  | node label plan =>
    rw [ha] at hleaves
    refine .branch hik hk hleaves fun x hx => ?_
    obtain ⟨ts, hts, hx⟩ := List.mem_flatten.mp hx
    rw [← List.map_uncurry_zip_eq_zipWith] at hts
    obtain ⟨⟨p, t⟩, hpt, rfl⟩ := List.mem_map.mp hts
    exact Placement.isSpanned_of_mem_place (hchildren t (List.of_mem_zip hpt).2) hx

end Action

end NounPhrase
