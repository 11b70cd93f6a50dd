import Sem3.SearchTree.Tree
import Sem3.Util.Comparator

/-!
# The traversal of a search tree

The traversal that `inorder_list` should give.
-/

namespace Sem3.SearchTree

open BinaryTree

variable {α : Type*}

/-- The left-root-right traversal. -/
def inorder : BinaryTree α → List α
  | nil => []
  | node v l r => inorder l ++ v :: inorder r

end Sem3.SearchTree
