import Mathlib.Data.Tree.Basic
import Mathlib.Algebra.Order.Group.Int
import Mathlib.Algebra.Order.Ring.Nat

/-!
# Search trees with a comparator (`exercise08`)

`insert` puts a value into a binary tree, `inorder_list` lists the values of a tree with a stack of
trees that are still to be visited and an accumulator.
-/

namespace Sem3.SearchTree

open BinaryTree

variable {α : Type*}

/-- A value that is in the tree already is left out. -/
def insert (v : α) (compare : α → α → ℤ) (t : BinaryTree α) : BinaryTree α :=
  match t with
  | nil => node v nil nil
  | node nv l r =>
    if compare v nv < 0 then node nv (insert v compare l) r
    else if compare v nv > 0 then node nv l (insert v compare r)
    else node nv l r

/-- Goes down with every call of `inorderListTr`. -/
def weight : BinaryTree α → ℕ
  | nil => 1
  | node _ nil r => weight r + 1
  | node _ (node lv ll lr) r => weight (node lv ll lr) + weight r + 2

/-- The recursion of `inorder_list`: `a` has the values so far, the last one first, and `rl` the
trees that are still to be visited. -/
def inorderListTr (t : BinaryTree α) (a : List α) (rl : List (BinaryTree α)) : List α :=
  match t with
  | nil =>
    match rl with
    | [] => a
    | t :: ts => inorderListTr t a ts
  | node v nil r => inorderListTr r (v :: a) rl
  | node v (node lv ll lr) r => inorderListTr (node lv ll lr) a (node v nil r :: rl)
termination_by weight t + (rl.map weight).sum
decreasing_by
  all_goals simp only [weight, List.map_cons, List.sum_cons]
  all_goals omega

/-- `inorder_list`: the values from left to right. -/
def inorderList (t : BinaryTree α) : List α := (inorderListTr t [] []).reverse

/-- The values inserted in their order into the empty tree. -/
def insertAll (compare : α → α → ℤ) (vs : List α) : BinaryTree α :=
  vs.foldl (fun t v => insert v compare t) nil

end Sem3.SearchTree
