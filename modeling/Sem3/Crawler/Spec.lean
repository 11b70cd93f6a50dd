import Sem3.Crawler.Crawl

/-!
# A zipper

What the commands of the crawler do to a tree with a focus: the path from the focus to the root is
kept beside the subtree in focus, and a stack of subtrees.
-/

namespace Sem3.Crawler

open BinaryTree

variable {α : Type*}

/-- A node that the path goes through, with the subtree that it does not go into. -/
inductive Crumb (α : Type*) where
  | left (v : α) (tr : BinaryTree α)
  | right (v : α) (tl : BinaryTree α)

/-- The tree at a crumb, with `t` where the path goes. -/
def Crumb.plug : Crumb α → BinaryTree α → BinaryTree α
  | .left v tr, t => node v t tr
  | .right v tl, t => node v tl t

/-- A place in a tree: the tree at the place, the way back to the root, and the trees that are
pushed. -/
structure Zipper (α : Type*) where
  focus : BinaryTree α
  /-- The nearest node first. -/
  path : List (Crumb α)
  stack : List (BinaryTree α)

namespace Zipper

/-- The zipper behind a command, if the command can be taken: a move down needs a node, `up` a node
above, and `pop` a tree on the stack. -/
def run (z : Zipper α) : Command α → Option (Zipper α)
  | .left =>
    match z.focus with
    | node v tl tr => some { z with focus := tl, path := .left v tr :: z.path }
    | nil => none
  | .right =>
    match z.focus with
    | node v tl tr => some { z with focus := tr, path := .right v tl :: z.path }
    | nil => none
  | .up =>
    match z.path with
    | c :: path => some { z with focus := c.plug z.focus, path }
    | [] => none
  | .new n => some { z with focus := node n nil nil }
  | .delete => some { z with focus := nil }
  | .push => some { z with stack := z.focus :: z.stack }
  | .pop =>
    match z.stack with
    | t :: stack => some { z with focus := t, stack }
    | [] => none

/-- The whole tree. -/
def rebuild (z : Zipper α) : BinaryTree α := z.path.foldl (fun t c => c.plug t) z.focus

/-- The zipper at the root of a tree, with an empty stack. -/
def ofTree (t : BinaryTree α) : Zipper α := ⟨t, [], []⟩

end Zipper

end Sem3.Crawler
