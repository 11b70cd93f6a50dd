import Sem3.MsgArray.Array

/-!
# A client with its own arrays (`exercise13`, 13.5)

One client makes any number of arrays and calls them in any order. It is the first thread; `make`
makes a channel and creates the server of the array. The server and the client of an array do what
they do in the model of a single array, with the channel of the array in the place of `arr`, which is
no channel here.
-/

namespace Sem3.MsgArray

open Ocaml (Exn)
open Rendezvous (Action Config)

variable {α : Type*}

/-- One more array, or a call on the `k`-th one, counted from 0. -/
inductive Call (α : Type*) where
  | make (s : ℤ) (v : α)
  | on (k : ℕ) (op : Op α)

/-- Where a thread stands: the server of an array, or the client. -/
inductive Thread (α : Type*) where
  /-- The server of the array with the channel `a`. -/
  | server (a : ℕ) (s : Local α)
  /-- The client between two calls: the channels of its arrays, and what the last call returned. The
  array that `make` returns is the last one. -/
  | ready (arrays : List ℕ) (last : Option (Outcome α))
  | makeNew (arrays : List ℕ) (s : ℤ) (v : α)
  | makeCreate (arrays : List ℕ) (s : ℤ) (v : α) (a : ℕ)
  /-- The client in the middle of a call on the array with the channel `a`. -/
  | calling (arrays : List ℕ) (a : ℕ) (s : Local α)
  /-- The client has ended with an exception of `List.init`. -/
  | died (e : Exn)

/-- The channel `a` in the place of `arr`. -/
def relocate (a ch : ℕ) : ℕ := if ch = arr then a else ch

/-- What the server or the client of the array with the channel `a` does next. -/
def actOn (a : ℕ) (thread : Local α → Thread α) (s : Local α) :
    Action (Thread α) (Msg α) (Call α) :=
  match act s with
  | .tau s => .tau (thread s)
  | .fresh k => .fresh fun ch => thread (k ch)
  | .fork child s => .fork (thread child) (thread s)
  | .send ch m s => .send (relocate a ch) m (thread s)
  | .recv ch k => .recv (relocate a ch) fun m => thread (k m)
  | .input _ => .halt
  | .halt => .halt

/-- The client in the middle of a call, or when the call has returned. -/
def Thread.ofCall (arrays : List ℕ) (a : ℕ) : Local α → Thread α
  | .idle out => .ready arrays out
  | s => .calling arrays a s

/-- The client does nothing if it has no array with the number of the call. -/
def Thread.act : Thread α → Action (Thread α) (Msg α) (Call α)
  | .server a s => actOn a (.server a) s
  | .ready arrays _ => .input fun
    | .make s v => .makeNew arrays s v
    | .on k op =>
      match arrays[k]? with
      | some a => .calling arrays a (call op)
      | none => .ready arrays none
  | .makeNew arrays s v => .fresh (.makeCreate arrays s v)
  | .makeCreate arrays s v a =>
    match Ocaml.init s fun _ => .ok v with
    | .ok l => .fork (.server a (.serve l)) (.ready (arrays ++ [a]) none)
    | .error e => .tau (.died e)
  | .calling arrays a s => actOn a (.ofCall arrays a) s
  | .died _ => .halt

/-- A client that has made no array yet. -/
def newSession : Config (Thread α) := ⟨[.ready [] none], arr + 1⟩

end Sem3.MsgArray
