import Sem3.MsgArray.Session

/-!
# Robust arrays and plain arrays

No call of a client ends the server, and every call ends. For a client with its own arrays, the calls
return what they return on plain arrays.
-/

namespace Sem3.MsgArray

open Rendezvous (Config Label step)

variable {α : Type*}

/-- The label is a step of the threads, and no new call. -/
def Internal (l : Label (Op α)) : Prop := ∀ i op, l ≠ .input i op

/-- No array is destroyed, or resized to a negative length. -/
def Op.Allowed : Op α → Prop
  | .resize i _ => 0 ≤ i
  | .destroy => False
  | _ => True

/-- A new call is an allowed one. -/
def Allowed : Label (Op α) → Prop
  | .input _ op => op.Allowed
  | _ => True

/-- A client is in the middle of a call. -/
def Local.Busy : Local α → Prop
  | .serve _ => False
  | .reply _ _ _ => False
  | .exited => False
  | .died _ => False
  | .idle _ => False
  | _ => True

/-- The server has not ended with an exception, and if no new calls are made, all calls come to an
end: the threads can go on as long as there is a call, and they cannot go on forever. -/
structure Robust (c : Config (Local α)) : Prop where
  alive : ∀ e, c.threads[0]? ≠ some (.died e)
  progress : ∀ (i : ℕ) (s : Local α), c.threads[i]? = some s → s.Busy →
    ∃ l c', Internal l ∧ step act c l = some c'
  finishes : ∃ n, ∀ steps c', Run (step act) c steps c' → (∀ x ∈ steps, Internal x.2) →
    steps.length ≤ n

/-- If a client sends a request for an element to the server, the index is one of the list that the
server has then. -/
def InRange (c : Config (Local α)) : Label (Op α) → Prop
  | .comm i j => ∀ n ch l, c.threads[i]? = some (.getSend n ch) → c.threads[j]? = some (.serve l) →
      0 ≤ n ∧ n < l.length
  | _ => True

/-! ## Plain arrays -/

/-- A call on a plain array: the elements behind it, and what it returns. -/
def plain (l : List α) : Op α → List α × Outcome α
  | .size => (l, .len l.length)
  | .get i =>
    match l[i.toNat]? with
    | some v => (l, .elem v)
    | none => (l, .outOfBounds)
  | .set i v => if i < l.length then (l.set i.toNat v, .unit) else (l, .outOfBounds)
  | .resize n v => (l.take n.toNat ++ List.replicate (n.toNat - l.length) v, .unit)
  | .destroy => (l, .unit)

/-- The plain arrays of the client behind a call, and what the call returns, unless it is `make`. -/
def plainCall (arrays : List (List α)) : Call α → List (List α) × Option (Outcome α)
  | .make s v => (arrays ++ [List.replicate s.toNat v], none)
  | .on k op =>
    match arrays[k]? with
    | some l => (arrays.set k (plain l op).1, some (plain l op).2)
    | none => (arrays, none)

/-- The calls on plain arrays, one after the other: the arrays behind them, and what the last call
returned. -/
def plainRun (calls : List (Call α)) : List (List α) × Option (Outcome α) :=
  calls.foldl (fun s call => plainCall s.1 call) ([], none)

/-- The calls of the client in a run. -/
def calls {σ : Type*} (steps : List (σ × Label (Call α))) : List (Call α) :=
  steps.filterMap fun x =>
    match x.2 with
    | .input _ call => some call
    | _ => none

/-- No index and no length is negative, and the array is not destroyed. -/
def Op.Plain : Op α → Prop
  | .size => True
  | .get i => 0 ≤ i
  | .set i _ => 0 ≤ i
  | .resize n _ => 0 ≤ n
  | .destroy => False

/-- A new array has no negative length, and any other call is a plain one. -/
def Call.Plain : Call α → Prop
  | .make s _ => 0 ≤ s
  | .on _ op => op.Plain

/-- Between two calls, the last one has returned what it returns on plain arrays, and the servers have
the elements of the plain arrays. In the middle of a call the threads can go on, and they cannot go on
forever. -/
structure AnswersAs (s : List (List α) × Option (Outcome α)) (c : Config (Thread α)) : Prop where
  answer : ∀ arrays last, c.threads[0]? = some (.ready arrays last) →
    last = s.2 ∧ c.threads.tail = List.zipWith (fun a l => .server a (.serve l)) arrays s.1 ∧
      arrays.length = s.1.length
  progress : (∀ arrays last, c.threads[0]? ≠ some (.ready arrays last)) →
    ∃ t c', (∀ i call, t ≠ .input i call) ∧ step Thread.act c t = some c'
  finishes : ∃ n, ∀ steps c', Run (step Thread.act) c steps c' →
    (∀ x ∈ steps, ∀ i call, x.2 ≠ .input i call) → steps.length ≤ n

end Sem3.MsgArray
