import Sem3.Util.Bounded
import Sem3.Util.Loop
import Sem3.Util.Ocaml
import Mathlib.Algebra.Order.Group.Unbundled.Int

/-!
# Rational expressions (`exercise06`, 6.7)

Fractions are pairs of integers without a bound. `sfy` reduces a fraction, which is done after
additions and subtractions only.
-/

namespace Sem3.Rational

open Loop
open Ocaml (Exn)

/-- The unary operations. -/
inductive UnaryOp where
  | neg
deriving DecidableEq

/-- The binary operations. -/
inductive BinaryOp where
  | add
  | sub
  | mul
  | div
deriving DecidableEq

/-- Numerator and denominator. -/
abbrev Rat := ℤ × ℤ

/-- The expressions. -/
inductive Expr where
  | const (r : Rat)
  | unOp (op : UnaryOp) (e : Expr)
  | binOp (op : BinaryOp) (e₁ e₂ : Expr)
deriving DecidableEq

/-- One call of `gcd`. -/
def gcd : ℤ × ℤ → Pass (ℤ × ℤ) ℤ
  | (m, n) =>
    if n = 0 then .leave m
    else if m = 0 then .leave n
    else if m > n then .again (m.tmod n, n) else .again (m, n.tmod m)

/-- `sfy` with a bound on the number of calls of `gcd`. -/
def sfy (bound : ℕ) (r : Rat) : Bounded Exn Rat :=
  match iterate gcd bound (|r.1|, |r.2|) with
  | none => Bounded.tooDeep
  | some cd => if cd = 0 then throw .divisionByZero else pure (r.1.tdiv cd, r.2.tdiv cd)

/-- The operation on two fractions; a sum and a difference are reduced by `sfy`. -/
def BinaryOp.apply (bound : ℕ) : BinaryOp → Rat → Rat → Bounded Exn Rat
  | add, (n₁, d₁), (n₂, d₂) => sfy bound (n₁ * d₂ + n₂ * d₁, d₁ * d₂)
  | sub, (n₁, d₁), (n₂, d₂) => sfy bound (n₁ * d₂ - n₂ * d₁, d₁ * d₂)
  | mul, (n₁, d₁), (n₂, d₂) => pure (n₁ * n₂, d₁ * d₂)
  | div, (n₁, d₁), (n₂, d₂) => pure (n₁ * d₂, n₂ * d₁)

/-- The language leaves open which of two operands is evaluated first. -/
def evalExpr (leftFirst : Bool) (bound : ℕ) : Expr → Bounded Exn Rat
  | .const r => pure r
  | .unOp .neg e => do
    let (n, d) ← evalExpr leftFirst bound e
    pure (-n, d)
  | .binOp op e₁ e₂ => do
    let (r₁, r₂) ← Bounded.pair leftFirst (evalExpr leftFirst bound e₁) (evalExpr leftFirst bound e₂)
    op.apply bound r₁ r₂

end Sem3.Rational
