import Sem3.Util.Comparator
import Mathlib.Order.Defs.LinearOrder

/-!
# Rings of sets (`exercise10`)

The module types `Ring` and `FiniteRing`, and the functor `SetRing`, whose values are lists of
elements of a finite ring. `=`, `<` and `compare` of the language are the equality, the linear order
and its comparator on the type of the elements; the comparator of the ring is another one.
-/

namespace Sem3.Rings

open Comparator

/-- The module type `Ring`. -/
structure Ring (t : Type*) where
  zero : t
  one : t
  compare : t → t → ℤ
  toString : t → String
  add : t → t → t
  mul : t → t → t

/-- The module type `FiniteRing`: a ring with the list of its elements. -/
structure FiniteRing (t : Type*) extends Ring t where
  elems : List t

/-- The ring of the truth values. -/
def BoolRing : FiniteRing Bool where
  zero := false
  one := true
  compare := ofOrder
  toString b := if b then "true" else "false"
  add a b := a || b
  mul a b := a && b
  elems := [true, false]

variable {α : Type*}

/-- `join`: the strings with a separator between those that are not the last one. -/
def join (l : List String) (s : String) : String :=
  l.foldr (fun x r => if r = "" then x else x ++ s ++ r) ""

variable [LinearOrder α]

/-- `imp` of `SetRing.compare`. -/
def lexCompare : List α → List α → ℤ
  | [], [] => 0
  | [], _ => -1
  | _, [] => 1
  | s1f :: s1r, s2f :: s2r =>
    if s1f < s2f then -1 else if s1f > s2f then 1 else lexCompare s1r s2r

/-- The function that `SetRing.add` folds with. -/
def addStep (a : List α) (x : α) : List α :=
  match a with
  | [] => x :: a
  | af :: _ => if af = x then a else x :: a

/-- `imp` of `SetRing.mul`. -/
def doubles : List α → List α
  | [] => []
  | [_] => []
  | [a, b] => if a = b then [a] else []
  | a :: b :: c :: r => if a = b ∧ a ≠ c then a :: doubles (c :: r) else doubles (b :: c :: r)

/-- The functor `SetRing`: the sets of elements of a finite ring, with union and intersection. -/
def SetRing (X : FiniteRing α) : Ring (List α) where
  zero := []
  one := X.elems
  compare s1 s2 := lexCompare (sort ofOrder s1) (sort ofOrder s2)
  toString s := "\x7b" ++ join (s.map X.toString) ", " ++ "\x7d"
  add s1 s2 := ((sort X.compare (s1 ++ s2)).foldl addStep []).reverse
  mul s1 s2 := doubles (sort X.compare (s1 ++ s2))

end Sem3.Rings
