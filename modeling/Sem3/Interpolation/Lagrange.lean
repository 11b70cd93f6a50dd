import Mathlib.Algebra.Field.Defs

/-!
# Lagrange interpolation (`exercise08`, 8.6)

The arithmetic is that of a field in place of floats. The positions of the points are floats as well
in the source, counted from `0.0` on and compared for equality; they have a type `κ` of their own, so
that the field may be any.
-/

namespace Sem3.Interpolation

variable {κ K : Type*} [AddMonoidWithOne κ] [DecidableEq κ] [Field K]

/-- The product over the points at positions `k`, `k + 1`, …, without the one at position `j`. -/
def lj (x xj : K) (j : κ) : List (K × K) → κ → K
  | [], _ => 1
  | (xk, _) :: pr, k =>
    if j = k then lj x xj j pr (k + 1) else (x - xk) / (xj - xk) * lj x xj j pr (k + 1)

/-- The sum over the points of `lj`, times the value at the point; `n` counts the points. -/
def lag (p : List (K × K)) : List (K × K) → κ → K → K
  | [], _, _ => 0
  | (xn, yn) :: prr, n, x => yn * lj x xn n p 0 + lag p prr (n + 1) x

variable (κ) in
/-- The interpolation polynomial of the points `p`, as a function. -/
def lagrange (p : List (K × K)) : K → K := fun x => lag p p (0 : κ) x

end Sem3.Interpolation
