import Sem3.Rings.SetRing
import Sem3.Util.Bounded
import Sem3.Util.Int63
import Sem3.Util.Ocaml

/-!
# Dense matrices (`exercise10`)

The functor `DenseMatrix`, whose values are lists of rows. `from_rows` returns its argument, and
`transpose`, `add`, `mul` and `to_string` are only begun in the source. The language does not say
which argument of a constructor is evaluated first; `leftFirst` says it. The traversal need not end,
and has a bound on the depth of its calls.
-/

namespace Sem3.Rings

open Ocaml (Exn)

/-- The ring of the machine integers. -/
def IntRing : Ring Int63 where
  zero := 0
  one := 1
  compare := Comparator.ofOrder
  toString n := toString n.val
  add := (· + ·)
  mul := (· * ·)

namespace DenseMatrix

variable {α : Type}

/-- `x :: xs`. -/
def cons (leftFirst : Bool) (x : Bounded Exn α) (xs : Bounded Exn (List α)) :
    Bounded Exn (List α) :=
  if leftFirst then do
    let a ← x
    let l ← xs
    pure (a :: l)
  else do
    let l ← xs
    let a ← x
    pure (a :: l)

/-- `rt` of `traverse`: a row, from column `x` on. -/
def rt (leftFirst : Bool) (f : ℤ → ℤ → Except Exn α) (cn : ℤ) :
    ℕ → ℤ → ℤ → Bounded Exn (List α)
  | 0, _, _ => Bounded.tooDeep
  | fuel + 1, x, y =>
    if x = cn then pure []
    else cons leftFirst (some (f (x + 1) (y + 1))) (rt leftFirst f cn fuel (x + 1) y)

/-- `ct` of `traverse`: the rows, from row `y` on. -/
def ct (leftFirst : Bool) (f : ℤ → ℤ → Except Exn α) (rn cn : ℤ) :
    ℕ → ℤ → Bounded Exn (List (List α))
  | 0, _ => Bounded.tooDeep
  | fuel + 1, y =>
    if y = rn then pure []
    else cons leftFirst (rt leftFirst f cn fuel 0 y) (ct leftFirst f rn cn fuel (y + 1))

/-- `traverse f rn cn`: `rn` rows of `cn` elements. `f` is given the column and the row, counted
from 1. -/
def traverse (leftFirst : Bool) (fuel : ℕ) (f : ℤ → ℤ → Except Exn α) (rn cn : ℤ) :
    Bounded Exn (List (List α)) :=
  ct leftFirst f rn cn fuel 0

/-- A matrix of zeros. -/
def create (X : Ring α) (leftFirst : Bool) (fuel : ℕ) (m n : ℤ) : Bounded Exn (List (List α)) :=
  traverse leftFirst fuel (fun _ _ => .ok X.zero) m n

/-- Ones in the diagonal, and zeros elsewhere. -/
def identity (X : Ring α) (leftFirst : Bool) (fuel : ℕ) (n : ℤ) : Bounded Exn (List (List α)) :=
  traverse leftFirst fuel (fun x y => .ok (if x = y then X.one else X.zero)) n n

/-- The element in the row `rn` and the column `cn`, counted from 0. -/
def get (rn cn : ℤ) (m : List (List α)) : Except Exn α := do
  let row ← Ocaml.nth m rn
  Ocaml.nth row cn

/-- The number of rows. -/
def rows (m : List (List α)) : ℤ := m.length

/-- The length of the first row. -/
def cols : List (List α) → ℤ
  | [] => 0
  | c :: _ => c.length

/-- The matrix is built again by `traverse`, with `v` in the place of one element. -/
def set (leftFirst : Bool) (fuel : ℕ) (rn cn : ℤ) (v : α) (m : List (List α)) :
    Bounded Exn (List (List α)) :=
  traverse leftFirst fuel (fun x y => if x = cn ∧ y = rn then .ok v else get y x m)
    (rows m - 1) (cols m - 1)

end DenseMatrix

end Sem3.Rings
