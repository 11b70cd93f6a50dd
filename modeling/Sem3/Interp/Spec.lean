import Sem3.Interp.Eval
import Mathlib.Logic.Relation

/-!
# The meaning of expressions

Evaluation call by value, as rules. What differs between lexical and dynamic scope is the state that
the body of a function is evaluated in, so the rules have it as a parameter.
-/

namespace Sem3.Interp

open Ocaml (Exn)

/-- The negation of a number; a function has none. -/
def Value.neg : Value → Option Value
  | .rat (n, d) => some (.rat (-n, d))
  | .fn .. => none

/-- The operation on two values, which are numbers. -/
def BinaryOp.value (op : BinaryOp) : Value → Value → Option Value
  | .rat r₁, .rat r₂ => some (.rat (op.apply r₁ r₂))
  | _, _ => none

/-- The operand that is evaluated first, and the one that is evaluated behind it. -/
def firstOperand (leftFirst : Bool) (e₁ e₂ : Expr) : Expr := if leftFirst then e₁ else e₂

/-- The operand that is evaluated last. -/
def secondOperand (leftFirst : Bool) (e₁ e₂ : Expr) : Expr := if leftFirst then e₂ else e₁

/-- The expression has the value, or evaluation fails (`none`). At an application `scope s s'` is the
state for the body, where `s` is the state of the application and `s'` the one that the function
keeps. -/
inductive Evaluates (leftFirst : Bool) (scope : State → State → State) :
    State → Expr → Option Value → Prop
  | const {s : State} {c : Rat} : Evaluates leftFirst scope s (.const c) (some (.rat c))
  | var {s : State} {v : String} : Evaluates leftFirst scope s (.var v) (s v)
  | func {s : State} {x : String} {b : Expr} :
      Evaluates leftFirst scope s (.func x b) (some (.fn x s b))
  | unOp {s : State} {e : Expr} {o : Option Value} (h : Evaluates leftFirst scope s e o) :
      Evaluates leftFirst scope s (.unOp .neg e) (o.bind Value.neg)
  | binOpFirst {s : State} {op : BinaryOp} {e₁ e₂ : Expr}
      (h : Evaluates leftFirst scope s (firstOperand leftFirst e₁ e₂) none) :
      Evaluates leftFirst scope s (.binOp op e₁ e₂) none
  | binOpSecond {s : State} {op : BinaryOp} {e₁ e₂ : Expr} {v : Value}
      (h : Evaluates leftFirst scope s (firstOperand leftFirst e₁ e₂) (some v))
      (h' : Evaluates leftFirst scope s (secondOperand leftFirst e₁ e₂) none) :
      Evaluates leftFirst scope s (.binOp op e₁ e₂) none
  | binOp {s : State} {op : BinaryOp} {e₁ e₂ : Expr} {v₁ v₂ : Value}
      (h₁ : Evaluates leftFirst scope s e₁ (some v₁))
      (h₂ : Evaluates leftFirst scope s e₂ (some v₂)) :
      Evaluates leftFirst scope s (.binOp op e₁ e₂) (op.value v₁ v₂)
  | iteCond {s : State} {c t e : Expr} {o : Option Value} (h : Evaluates leftFirst scope s c o)
      (ho : ∀ r, o ≠ some (.rat r)) : Evaluates leftFirst scope s (.ite c t e) none
  | ite {s : State} {c t e : Expr} {r : Rat} {o : Option Value}
      (h : Evaluates leftFirst scope s c (some (.rat r)))
      (h' : Evaluates leftFirst scope s (if r.1 ≠ 0 then t else e) o) :
      Evaluates leftFirst scope s (.ite c t e) o
  | bindFirst {s : State} {x : String} {e b : Expr} (h : Evaluates leftFirst scope s e none) :
      Evaluates leftFirst scope s (.bind x e b) none
  | bind {s : State} {x : String} {e b : Expr} {v : Value} {o : Option Value}
      (h : Evaluates leftFirst scope s e (some v))
      (h' : Evaluates leftFirst scope (s.bind x v) b o) :
      Evaluates leftFirst scope s (.bind x e b) o
  | appFn {s : State} {f a : Expr} {o : Option Value} (h : Evaluates leftFirst scope s f o)
      (ho : ∀ x s' b, o ≠ some (.fn x s' b)) : Evaluates leftFirst scope s (.app f a) none
  | appArg {s s' : State} {f a b : Expr} {x : String}
      (h : Evaluates leftFirst scope s f (some (.fn x s' b)))
      (h' : Evaluates leftFirst scope s a none) : Evaluates leftFirst scope s (.app f a) none
  | app {s s' : State} {f a b : Expr} {x : String} {v : Value} {o : Option Value}
      (h : Evaluates leftFirst scope s f (some (.fn x s' b)))
      (ha : Evaluates leftFirst scope s a (some v))
      (hb : Evaluates leftFirst scope ((scope s s').bind x v) b o) :
      Evaluates leftFirst scope s (.app f a) o

/-- Lexical scope: a body is evaluated in the state that the function keeps. -/
abbrev Lexical (leftFirst : Bool) : State → Expr → Option Value → Prop :=
  Evaluates leftFirst fun _ s' => s'

/-- Dynamic scope: a body is evaluated in the state of the application. -/
abbrev Dynamic (leftFirst : Bool) : State → Expr → Option Value → Prop :=
  Evaluates leftFirst fun s _ => s

variable (leftFirst : Bool)

/-! ## What `evalExpr` does -/

/-- The evaluation ends with the value `v`. -/
def Returns (s : State) (e : Expr) (v : Value) : Prop :=
  ∃ n, evalExpr leftFirst n s e = some (.ok v)

/-- The evaluation ends with an exception. -/
def Fails (s : State) (e : Expr) : Prop := ∃ n y, evalExpr leftFirst n s e = some (.error y)

/-- The evaluation ends, in one way or the other. -/
def Ends (s : State) (e : Expr) : Prop := ∃ n o, evalExpr leftFirst n s e = some o

/-- `evalExpr` agrees with lexical scope: the values that it returns are the right ones, and it fails
when it should. -/
structure Agrees (s : State) (e : Expr) : Prop where
  value : ∀ v, Returns leftFirst s e v → Lexical leftFirst s e (some v)
  failure : Fails leftFirst s e ↔ Lexical leftFirst s e none

/-- The calls that `evalExpr` makes. -/
inductive Calls : State × Expr → State × Expr → Prop
  | unOp {s : State} {op : UnaryOp} {e : Expr} : Calls (s, .unOp op e) (s, e)
  | binOpFirst {s : State} {op : BinaryOp} {e₁ e₂ : Expr} :
      Calls (s, .binOp op e₁ e₂) (s, firstOperand leftFirst e₁ e₂)
  | binOpSecond {s : State} {op : BinaryOp} {e₁ e₂ : Expr} {v : Value}
      (h : Returns leftFirst s (firstOperand leftFirst e₁ e₂) v) :
      Calls (s, .binOp op e₁ e₂) (s, secondOperand leftFirst e₁ e₂)
  | iteCond {s : State} {c t e : Expr} : Calls (s, .ite c t e) (s, c)
  | ite {s : State} {c t e : Expr} {r : Rat} (h : Returns leftFirst s c (.rat r)) :
      Calls (s, .ite c t e) (s, if r.1 ≠ 0 then t else e)
  | bindFirst {s : State} {x : String} {e b : Expr} : Calls (s, .bind x e b) (s, e)
  | bind {s : State} {x : String} {e b : Expr} {v : Value} (h : Returns leftFirst s e v) :
      Calls (s, .bind x e b) (s.bind x v, b)
  | appFn {s : State} {f a : Expr} : Calls (s, .app f a) (s, f)
  | app {s s' : State} {f a b : Expr} {x : String} (h : Returns leftFirst s f (.fn x s' b)) :
      Calls (s, .app f a) (s, .bind x a b)

/-- The second call is made in the course of the first one. -/
def Reached : State × Expr → State × Expr → Prop := Relation.ReflTransGen (Calls leftFirst)

/-! ## When the scope makes no difference -/

/-- At an application, the body of the function means the same in the state of the application and
in the one that the function keeps. -/
def Harmless (s : State) : Expr → Prop
  | .app f a => ∀ x (s' : State) b v, Returns leftFirst s f (.fn x s' b) → Returns leftFirst s a v →
      ∀ o, Lexical leftFirst (s.bind x v) b o ↔ Lexical leftFirst (s'.bind x v) b o
  | _ => True

/-- The states are the same wherever the expression looks: at its free variables, and everywhere if
it makes a function, which keeps the state. -/
def SameFor : Expr → State → State → Prop
  | .const _, _, _ => True
  | .unOp _ e, s, s' => SameFor e s s'
  | .binOp _ e₁ e₂, s, s' => SameFor e₁ s s' ∧ SameFor e₂ s s'
  | .var v, s, s' => s v = s' v
  | .func _ _, s, s' => s = s'
  | .bind x e b, s, s' => SameFor e s s' ∧ ∀ v, SameFor b (s.bind x v) (s'.bind x v)
  | .app f a, s, s' => SameFor f s s' ∧ SameFor a s s'
  | .ite c t e, s, s' => SameFor c s s' ∧ SameFor t s s' ∧ SameFor e s s'

/-- At an application, the state of the application and the one that the function keeps are the same
wherever the body looks. -/
def SameStates (s : State) : Expr → Prop
  | .app f a => ∀ x (s' : State) b v, Returns leftFirst s f (.fn x s' b) → Returns leftFirst s a v →
      SameFor b (s.bind x v) (s'.bind x v)
  | _ => True

end Sem3.Interp
