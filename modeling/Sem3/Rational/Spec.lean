import Sem3.Rational.Rational
import Mathlib.Data.Rat.Cast.Defs
import Mathlib.Data.Int.GCD

/-!
# What an expression stands for

The rational number that an expression has for its value, and the fractions for a number.
-/

namespace Sem3.Rational

/-- The value of an expression. -/
def value : Expr → ℚ
  | .const r => r.1 / r.2
  | .unOp .neg e => -value e
  | .binOp .add e₁ e₂ => value e₁ + value e₂
  | .binOp .sub e₁ e₂ => value e₁ - value e₂
  | .binOp .mul e₁ e₂ => value e₁ * value e₂
  | .binOp .div e₁ e₂ => value e₁ / value e₂

/-- Constants have a denominator other than zero, and nothing is divided by zero. -/
def Defined : Expr → Prop
  | .const r => r.2 ≠ 0
  | .unOp _ e => Defined e
  | .binOp op e₁ e₂ => Defined e₁ ∧ Defined e₂ ∧ (op = .div → value e₂ ≠ 0)

/-- A fraction for `q`. -/
structure Represents (r : Rat) (q : ℚ) : Prop where
  denom_ne_zero : r.2 ≠ 0
  div_eq : (r.1 / r.2 : ℚ) = q

/-- Numerator and denominator have no common divisor. -/
def IsReduced (r : Rat) : Prop := Int.gcd r.1 r.2 = 1

/-- An addition or a subtraction. -/
def Reduces : Expr → Prop
  | .binOp .add _ _ => True
  | .binOp .sub _ _ => True
  | _ => False

end Sem3.Rational
