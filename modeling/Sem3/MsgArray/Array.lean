import Sem3.Util.Rendezvous
import Sem3.Util.Ocaml

/-!
# Arrays by messages (`exercise13`, 13.5)

A server thread keeps the elements in a list and answers requests that arrive on the channel of the
array. The other threads are clients: each call of `size`, `get`, `set`, `resize` or `destroy` makes
one or two exchanges with the server, and makes a channel for each answer. Which call a client makes
next is an input.
-/

namespace Sem3.MsgArray

open Ocaml (Exn)
open Rendezvous (Action Config)

variable {α : Type*}

/-- The requests to the server, with the channel for the answer. -/
inductive Req (α : Type*) where
  | get (ch : ℕ) (i : ℤ)
  | set (i : ℤ) (v : α)
  | resize (i : ℤ) (v : α)
  | size (ch : ℕ)
  | exit

/-- What is sent on the channels. -/
inductive Msg (α : Type*) where
  | req (r : Req α)
  | elem (v : α)
  | len (n : ℤ)

/-- The calls of a client. -/
inductive Op (α : Type*) where
  | size
  | get (i : ℤ)
  | set (i : ℤ) (v : α)
  | resize (i : ℤ) (v : α)
  | destroy

/-- What a call returns, or that it raises `OutOfBounds`. -/
inductive Outcome (α : Type*) where
  | elem (v : α)
  | len (n : ℤ)
  | unit
  | outOfBounds

/-- Where a thread stands: the server with its list, or a client in one of its calls. -/
inductive Local (α : Type*) where
  /-- The server waits for a request. -/
  | serve (l : List α)
  /-- The server answers. -/
  | reply (ch : ℕ) (m : Msg α) (l : List α)
  | exited
  /-- The server thread has ended with an exception. -/
  | died (e : Exn)
  /-- A client between two calls. -/
  | idle (last : Option (Outcome α))
  /-- A client asks for the size, which is what it wants or what it checks an index against. -/
  | sizeNew (op : Op α)
  | sizeSend (op : Op α) (ch : ℕ)
  | sizeReceive (op : Op α) (ch : ℕ)
  | getNew (i : ℤ)
  | getSend (i : ℤ) (ch : ℕ)
  | getReceive (i : ℤ) (ch : ℕ)
  | setSend (i : ℤ) (v : α)
  | resizeSend (i : ℤ) (v : α)
  | destroySend

/-- The channel of the array. -/
def arr : ℕ := 0

/-- The server goes on with a list, unless it raised an exception. -/
def Local.ofResult : Except Exn (List α) → Local α
  | .ok l => .serve l
  | .error e => .died e

/-- `serve l`, when it has received a request. -/
def serve (l : List α) : Req α → Local α
  | .get ch i =>
    match Ocaml.nth l i with
    | .ok v => .reply ch (.elem v) l
    | .error e => .died e
  | .set i v =>
    .ofResult (Ocaml.init l.length fun n => if n = i then .ok v else Ocaml.nth l n)
  | .resize i v =>
    .ofResult (Ocaml.init i fun n => if n ≥ l.length then .ok v else Ocaml.nth l n)
  | .size ch => .reply ch (.len l.length) l
  | .exit => .exited

/-- How a call begins. -/
def call : Op α → Local α
  | .resize i v => .resizeSend i v
  | .destroy => .destroySend
  | op => .sizeNew op

/-- How a call goes on when the size has been received. -/
def withSize (n : ℤ) : Op α → Local α
  | .get i => if i ≥ n then .idle (some .outOfBounds) else .getNew i
  | .set i v => if i ≥ n then .idle (some .outOfBounds) else .setSend i v
  | _ => .idle (some (.len n))

/-- A channel has messages of one kind only, so that the last cases of the three functions that
receive are never used. -/
def act : Local α → Action (Local α) (Msg α) (Op α)
  | .serve l => .recv arr fun
    | .req r => serve l r
    | _ => .serve l
  | .reply ch m l => .send ch m (.serve l)
  | .exited => .halt
  | .died _ => .halt
  | .idle _ => .input call
  | .sizeNew op => .fresh (.sizeSend op)
  | .sizeSend op ch => .send arr (.req (.size ch)) (.sizeReceive op ch)
  | .sizeReceive op ch => .recv ch fun
    | .len n => withSize n op
    | _ => .sizeReceive op ch
  | .getNew i => .fresh (.getSend i)
  | .getSend i ch => .send arr (.req (.get ch i)) (.getReceive i ch)
  | .getReceive i ch => .recv ch fun
    | .elem v => .idle (some (.elem v))
    | _ => .getReceive i ch
  | .setSend i v => .send arr (.req (.set i v)) (.idle (some .unit))
  | .resizeSend i v => .send arr (.req (.resize i v)) (.idle (some .unit))
  | .destroySend => .send arr (.req .exit) (.idle (some .unit))

/-- A server with these elements, and clients that have not made a call yet. -/
def start (l : List α) (clients : ℕ) : Config (Local α) :=
  ⟨.serve l :: List.replicate clients (.idle none), arr + 1⟩

/-- `make s v`, and the clients that the array is given to. -/
def make (s : ℤ) (v : α) (clients : ℕ) : Except Exn (Config (Local α)) :=
  (Ocaml.init s fun _ => .ok v).map fun l => start l clients

end Sem3.MsgArray
