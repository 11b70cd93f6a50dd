import Sem3.Util.Loop

/-!
# Infinite lazy trees (`exercise08`)

A node of an `ltree` has a value and two functions that give its subtrees when they are called. Every
node has both, so a tree is given by the values of its nodes; a node is named by the way to it from
the root, with `false` for the left subtree and `true` for the right one.
-/

namespace Sem3.LazyTree

open Loop

variable {α : Type*}

/-- An infinite tree: the value of every node. -/
@[ext]
structure Ltree (α : Type*) where
  label : List Bool → α

namespace Ltree

/-- The three parts of `LNode (v, l, r)`; `left` and `right` are what `l ()` and `r ()` give. -/
def value (t : Ltree α) : α := t.label []

/-- The left subtree. -/
def left (t : Ltree α) : Ltree α := ⟨fun w => t.label (false :: w)⟩

/-- The right subtree. -/
def right (t : Ltree α) : Ltree α := ⟨fun w => t.label (true :: w)⟩

/-- The constructor `LNode`. -/
def lnode (v : α) (l r : Unit → Ltree α) : Ltree α where
  label
    | [] => v
    | false :: w => (l ()).label w
    | true :: w => (r ()).label w

@[simp]
theorem value_lnode (v : α) (l r : Unit → Ltree α) : (lnode v l r).value = v := rfl

@[simp]
theorem left_lnode (v : α) (l r : Unit → Ltree α) : (lnode v l r).left = l () := rfl

@[simp]
theorem right_lnode (v : α) (l r : Unit → Ltree α) : (lnode v l r).right = r () := rfl

end Ltree

/-- One call of `impl` in `find`. -/
def impl (p : α → Bool) (tl : List (Ltree α)) : Pass (List (Ltree α)) (Ltree α) :=
  match tl.filter fun x => p x.value with
  | [] => .again (tl.map fun x => [x.left, x.right]).flatten
  | x :: _ => .leave x

/-- `find` with a bound on the number of calls of `impl`. -/
def find (bound : ℕ) (p : α → Bool) (t : Ltree α) : Option (Ltree α) := iterate (impl p) bound [t]

end Sem3.LazyTree
