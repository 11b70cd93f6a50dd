import Sem3.LazyTree.Ltree
import Mathlib.Data.List.Lex

/-!
# The first node of a tree

A breadth-first search should find the node of the least depth, and the leftmost one of this depth.
-/

namespace Sem3.LazyTree

variable {α : Type*}

/-- The subtree rooted at the node `w`. -/
def Ltree.at (t : Ltree α) (w : List Bool) : Ltree α := ⟨fun u => t.label (w ++ u)⟩

/-- `w` is first by depth, and leftmost within its depth, among the nodes that satisfy `P`. -/
def IsFirst (P : List Bool → Prop) (w : List Bool) : Prop :=
  P w ∧ ∀ u, P u → w.length < u.length ∨ w.length = u.length ∧ w ≤ u

end Sem3.LazyTree
