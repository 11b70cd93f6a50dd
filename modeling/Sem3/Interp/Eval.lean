import Sem3.Util.Bounded
import Sem3.Util.Int63
import Sem3.Util.Ocaml

/-!
# An interpreter (`exercise07`, 7.5)

Expressions over fractions, with variables and functions. A function value keeps the state in which
it was made. `evalExpr` has a bound on the depth of its calls.
-/

namespace Sem3.Interp

open Ocaml (Exn)

/-- Numerator and denominator. -/
abbrev Rat := Int63 × Int63

/-- The binary operations. -/
inductive BinaryOp where
  | add
  | sub
  | mul
  | div
deriving DecidableEq

/-- The unary operations. -/
inductive UnaryOp where
  | neg
deriving DecidableEq

/-- The expressions. -/
inductive Expr where
  | const (c : Rat)
  | unOp (op : UnaryOp) (e : Expr)
  | binOp (op : BinaryOp) (e₁ e₂ : Expr)
  | var (v : String)
  | func (a : String) (b : Expr)
  | bind (x : String) (e b : Expr)
  | app (f a : Expr)
  | ite (c t e : Expr)
deriving DecidableEq

/-- A number, or a function with the state that it was defined in. -/
inductive Value where
  | rat (r : Rat)
  | fn (arg : String) (stt : String → Option Value) (body : Expr)

/-- The values of the variables, `none` for a name without one. -/
abbrev State := String → Option Value

/-- `let t f=if f=x then Some vox else s f` -/
def State.bind (s : State) (x : String) (vox : Value) : State := fun f => if f = x then some vox else s f

/-- The operation on two fractions, which are not reduced. -/
def BinaryOp.apply : BinaryOp → Rat → Rat → Rat
  | add, (n₁, d₁), (n₂, d₂) => (n₁ * d₂ + n₂ * d₁, d₁ * d₂)
  | sub, (n₁, d₁), (n₂, d₂) => (n₁ * d₂ - n₂ * d₁, d₁ * d₂)
  | mul, (n₁, d₁), (n₂, d₂) => (n₁ * n₂, d₁ * d₂)
  | div, (n₁, d₁), (n₂, d₂) => (n₁ * d₂, d₁ * n₂)

/-- `eval_expr`. The language leaves open which of two operands is evaluated first. -/
def evalExpr (leftFirst : Bool) : ℕ → State → Expr → Bounded Exn Value
  | 0, _, _ => Bounded.tooDeep
  | k + 1, s, e =>
    match e with
    | .const c => pure (.rat c)
    | .unOp .neg e => do
      match ← evalExpr leftFirst k s e with
      | .rat (n, d) => pure (.rat (-n, d))
      | _ => throw (.failure "invalid type")
    | .binOp op e₁ e₂ => do
      match ← Bounded.pair leftFirst (evalExpr leftFirst k s e₁) (evalExpr leftFirst k s e₂) with
      | (.rat r₁, .rat r₂) => pure (.rat (op.apply r₁ r₂))
      | _ => throw (.failure "invalid type")
    | .var v =>
      match s v with
      | some t => pure t
      | none => throw (.failure "unbound variable")
    | .ite c t e => do
      match ← evalExpr leftFirst k s c with
      | .rat (n, _) => if n ≠ 0 then evalExpr leftFirst k s t else evalExpr leftFirst k s e
      | .fn .. => throw (.failure "expected rat in condition")
    | .bind x e b => do
      let vox ← evalExpr leftFirst k s e
      evalExpr leftFirst k (s.bind x vox) b
    | .func a b => pure (.fn a s b)
    | .app f a => do
      match ← evalExpr leftFirst k s f with
      | .fn arg _ expr => evalExpr leftFirst k s (.bind arg a expr)
      | .rat _ => throw (.failure "invalid type")

/-- `a75_ex6` -/
example : evalExpr true 9 (fun _ => none)
    (.bind "f" (.func "x" (.binOp .mul (.var "x") (.var "x")))
      (.app (.var "f") (.binOp .sub (.const (1, 2)) (.const (1, 4))))) =
    some (.ok (.rat (4, 64))) := rfl

end Sem3.Interp
