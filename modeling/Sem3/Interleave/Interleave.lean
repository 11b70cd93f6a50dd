import Sem3.Util.Loop

/-!
# Interleaving lists (`exercise05`, `exercise08`)

`interleave3` takes one element of each of three lists in turn. The first version takes the three
lists apart together and goes on with two of them when one runs out. The second one is
tail-recursive: it takes an element of the first list only, and rotates the lists.
-/

namespace Sem3.Interleave

open Loop

variable {α : Type*}

namespace Exercise05

/-- One element of each list in turn, and then the rest of the longer one. -/
def interleave : List α → List α → List α
  | [], ml2 => ml2
  | ml1, [] => ml1
  | x :: xs, y :: ys => x :: y :: interleave xs ys

/-- One element of each list in turn. When one of the lists ends, the other two go on. -/
def interleave3 : List α → List α → List α → List α
  | [], ml2, ml3 => interleave ml2 ml3
  | ml1, [], ml3 => interleave ml1 ml3
  | ml1, ml2, [] => interleave ml1 ml2
  | x :: xs, y :: ys, z :: zs => x :: y :: z :: interleave3 xs ys zs

end Exercise05

namespace Exercise08

/-- The arguments of `interleave3_tr`. -/
structure Args (α : Type*) where
  a : List α
  l1 : List α
  l2 : List α
  l3 : List α

/-- One call of `interleave3_tr`. -/
def interleave3Tr (c : Args α) : Pass (Args α) (List α) :=
  match c.l1, c.l2, c.l3 with
  | [], [], [] => .leave c.a
  | [], l2, l3 => .again ⟨c.a, l2, l3, c.l1⟩
  | x :: xs, l2, l3 => .again ⟨x :: c.a, l2, l3, xs⟩

/-- `interleave3` with a bound on the number of calls of `interleave3_tr`. -/
def interleave3 (bound : ℕ) (l1 l2 l3 : List α) : Option (List α) :=
  (iterate interleave3Tr bound ⟨[], l1, l2, l3⟩).map List.reverse

end Exercise08

end Sem3.Interleave
