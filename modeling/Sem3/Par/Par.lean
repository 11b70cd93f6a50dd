import Sem3.Util.Rendezvous
import Sem3.Util.Ocaml

/-!
# Parallel maps (`exercise13`, 13.4)

The calling thread makes a channel for each element, then a thread for each element, and then
receives the results in the order of the list. Each thread computes one result and sends it.
`par_unary` and `par_binary` differ in how the elements are taken from the lists.
-/

namespace Sem3.Par

open Ocaml (Exn)
open Rendezvous (Action Config)

universe u

/-- What is left to do in the calling thread, and in the others. -/
inductive Local (γ δ : Type*) where
  /-- Take the elements, and make a channel for each of them. -/
  | prepare (todo : List (Except Exn γ)) (done : List (γ × ℕ))
  /-- Make a thread for each element. -/
  | create (todo : List (γ × ℕ)) (done : List ℕ)
  /-- Receive the results. -/
  | collect (todo : List ℕ) (done : List δ)
  | returned (r : List δ)
  | raised (e : Exn)
  | worker (v : γ) (ch : ℕ)
  | sending (ch : ℕ) (y : δ)
  | ended

variable {γ δ : Type*}

/-- What a thread does next. -/
def act (f : γ → δ) : Local γ δ → Action (Local γ δ) δ Empty
  | .prepare [] done => .tau (.create done [])
  | .prepare (.ok v :: todo) done => .fresh fun ch => .prepare todo (done ++ [(v, ch)])
  | .prepare (.error e :: _) _ => .tau (.raised e)
  | .create [] done => .tau (.collect done [])
  | .create ((v, ch) :: todo) done => .fork (.worker v ch) (.create todo (done ++ [ch]))
  | .collect [] done => .tau (.returned done)
  | .collect (ch :: todo) done => .recv ch fun y => .collect todo (done ++ [y])
  | .returned _ => .halt
  | .raised _ => .halt
  | .worker v ch => .tau (.sending ch (f v))
  | .sending ch y => .send ch y .ended
  | .ended => .halt

/-- The calling thread, with the elements that it takes. -/
def start (todo : List (Except Exn γ)) : Config (Local γ δ) := ⟨[.prepare todo []], 0⟩

/-- The call of `par_unary` on the list `a`. -/
def parUnary {α β : Type*} (a : List α) : Config (Local α β) := start (a.map .ok)

/-- The list of pairs is made with `List.init` and `List.nth`. -/
def parBinary {α β : Type u} {δ : Type*} (a : List α) (b : List β) : Config (Local (α × β) δ) :=
  start ((List.range a.length).map fun n : ℕ => do
    let vb ← Ocaml.nth b n
    let va ← Ocaml.nth a n
    pure (va, vb))

end Sem3.Par
