import Sem3.SearchTree.Spec
import Mathlib.Data.List.Induction

/-!
# Proofs: insertion and traversal

`inorder_list` gives the left-root-right traversal of every tree: what is accumulated, reversed, and
the traversals of the trees that are still to be visited make up the result. On the traversal,
`insert` is the insertion into a sorted list.
-/

namespace Sem3.SearchTree

open BinaryTree Comparator

variable {α : Type*} {cmp : α → α → ℤ} {t : BinaryTree α} {v : α}

/-- What is accumulated, reversed, and the traversals of what is left. -/
theorem inorderListTr_eq (t : BinaryTree α) (a : List α) (rl : List (BinaryTree α)) :
    inorderListTr t a rl = (inorder t ++ rl.flatMap inorder).reverse ++ a := by
  induction t, a, rl using inorderListTr.induct with
  | case1 a => simp [inorderListTr, inorder]
  | case2 a t ts ih => rw [inorderListTr, ih]; simp [inorder]
  | case3 a rl v r ih => rw [inorderListTr, ih]; simp [inorder]
  | case4 a rl v r lv ll lr ih => rw [inorderListTr, ih]; simp [inorder]

theorem inorderList_eq_inorder (t : BinaryTree α) : inorderList t = inorder t := by
  rw [inorderList, inorderListTr_eq]
  simp

/-! ## Insertion -/

/-- On the traversal `insert` is the insertion into a sorted list. -/
theorem inorder_insert (h : IsTotalPreorder cmp) (ht : Increasing cmp (inorder t)) :
    inorder (insert v cmp t) = insertSorted cmp v (inorder t) := by
  induction t with
  | nil => rfl
  | node nv l r ihl ihr =>
    obtain ⟨hl, hr, -⟩ := List.pairwise_append.1 ht
    have hr := (List.pairwise_cons.1 hr).2
    have hnode : ∀ l r, inorder (node nv l r) = inorder l ++ nv :: inorder r := fun _ _ => rfl
    unfold insert
    split_ifs with hlt hgt
    · rw [hnode, hnode, ihl hl, insertSorted_append_of_lt hlt]
    · rw [hnode, hnode, ihr hr, insertSorted_append_of_gt h ht hgt]
    · have heq : cmp v nv = 0 := by omega
      rw [hnode, insertSorted_append_of_eq h ht heq]

theorem increasing_insert (h : IsTotalPreorder cmp) (ht : Increasing cmp (inorder t)) :
    Increasing cmp (inorder (insert v cmp t)) := by
  rw [inorder_insert h ht]
  exact ht.insertSorted h

theorem insertAll_append_singleton (vs : List α) (v : α) :
    insertAll cmp (vs ++ [v]) = insert v cmp (insertAll cmp vs) := by
  rw [insertAll, List.foldl_append]
  rfl

theorem increasing_insertAll (h : IsTotalPreorder cmp) (vs : List α) :
    Increasing cmp (inorder (insertAll cmp vs)) := by
  induction vs using List.reverseRecOn with
  | nil => exact List.Pairwise.nil
  | append_singleton vs v ih =>
    rw [insertAll_append_singleton]
    exact increasing_insert h ih

theorem mem_of_mem_insertAll (h : IsTotalPreorder cmp) (vs : List α) {x : α}
    (hx : x ∈ inorder (insertAll cmp vs)) : x ∈ vs := by
  induction vs using List.reverseRecOn with
  | nil => exact hx
  | append_singleton vs v ih =>
    rw [insertAll_append_singleton, inorder_insert h (increasing_insertAll h vs)] at hx
    rw [List.mem_append, List.mem_singleton]
    exact (mem_insertSorted hx).elim .inr fun hx => .inl (ih hx)

/-- Of each class the tree has the value that was inserted first. -/
theorem filter_insertAll (h : IsTotalPreorder cmp) (vs : List α) (w : α) :
    (inorder (insertAll cmp vs)).filter (fun x => cmp x w = 0) =
      (vs.find? fun x => cmp x w = 0).toList := by
  induction vs using List.reverseRecOn with
  | nil => rfl
  | append_singleton vs v ih =>
    have hinc := increasing_insertAll h vs
    rw [insertAll_append_singleton, inorder_insert h hinc, filter_insertSorted h hinc, ih,
      List.find?_append]
    cases hfind : vs.find? fun x => cmp x w = 0 with
    | none =>
      by_cases hvw : cmp v w = 0
      · simp [hvw]
      · simp [hvw]
    | some x => simp

/-- The values of a tree that was filled by `insert` are listed in increasing order, and are the
first one of each class that was inserted. For every tree, `inorder_list` is the left-root-right
traversal. -/
theorem inorderList_insertAll :
    (∀ cmp : α → α → ℤ, IsTotalPreorder cmp → ∀ vs : List α,
      Increasing cmp (inorderList (insertAll cmp vs)) ∧
        (∀ x ∈ inorderList (insertAll cmp vs), x ∈ vs) ∧
        ∀ v ∈ vs, ∃ x, vs.find? (fun x => cmp x v = 0) = some x ∧
          (inorderList (insertAll cmp vs)).filter (fun x => cmp x v = 0) = [x]) ∧
      ∀ t : BinaryTree α, inorderList t = inorder t := by
  refine ⟨fun cmp h vs => ?_, inorderList_eq_inorder⟩
  rw [inorderList_eq_inorder]
  refine ⟨increasing_insertAll h vs, fun x => mem_of_mem_insertAll h vs, fun v hv => ?_⟩
  have hsome : (vs.find? fun x => cmp x v = 0).isSome :=
    List.find?_isSome.2 ⟨v, hv, by simpa using h.refl v⟩
  obtain ⟨x, hx⟩ := Option.isSome_iff_exists.1 hsome
  exact ⟨x, hx, by rw [filter_insertAll h, hx]; rfl⟩

/-- Numbers that are compared by their last digit: of `23` and `3` the tree has the first one. -/
theorem inorderList_insertAll_last_digit :
    let cmp : ℤ → ℤ → ℤ := fun x y => x % 10 - y % 10
    IsTotalPreorder cmp ∧ ∃ x, [23, 11, 3].find? (fun x => cmp x 3 = 0) = some x ∧
      (inorderList (insertAll cmp [23, 11, 3])).filter (fun x => cmp x 3 = 0) = [x] := by
  intro cmp
  have hcmp : IsTotalPreorder cmp := ⟨fun x y => by simp only [cmp]; omega,
    fun x y z => by simp only [cmp]; omega⟩
  exact ⟨hcmp, (inorderList_insertAll.1 cmp hcmp [23, 11, 3]).2.2 3 (by decide)⟩

end Sem3.SearchTree
