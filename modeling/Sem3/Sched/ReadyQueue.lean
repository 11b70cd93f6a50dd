import Sem3.LinkedList.List
import Sem3.Sched.Threadsched

/-!
# The ready list as a linked list (`list.c`, `threadsched.c`)

The three algorithms on the heap structure that `list.c` keeps, where a node is named by its address.
`ready` is a list from `list_init` and never `NULL`. As for the other list functions, `none` stands
for a pointer that must not be dereferenced, or a loop that makes more than `fuel` passes.
-/

namespace Sem3.Sched.ReadyQueue

open LinkedList (Store Malloc listAppend listRemove)
open Loop

/-- One pass of the loop of `list_getMax`: `next` and `highest`. -/
def listGetMaxStep (ctx : ℕ → Threadcontext) (cmp : Threadcontext → Threadcontext → ℤ)
    (s : Store ℕ) : Option ℕ × Option ℕ → Pass (Option ℕ × Option ℕ) (Option (Option ℕ))
  | (none, highest) => .leave (some highest)
  | (some next, highest) =>
    match s.cells next, highest.bind s.cells with
    | some c, some c' =>
      .again (c.next, if cmp (ctx c.data) (ctx c'.data) > 0 then some next else highest)
    | _, _ => .leave none

/-- `list_getMax`: the first one of the greatest nodes. -/
def listGetMax (fuel : ℕ) (ctx : ℕ → Threadcontext) (cmp : Threadcontext → Threadcontext → ℤ)
    (s : Store ℕ) : Option (Option ℕ) :=
  (iterate (listGetMaxStep ctx cmp s) fuel (s.first, s.first)).join

/-- An active thread that is not finished goes to the end of the list. -/
def appendActive (ctx : ℕ → Threadcontext) (malloc : Malloc ℕ) (s : Store ℕ) :
    Option ℕ → Option (Store ℕ)
  | none => some s
  | some active =>
    if (ctx active).target > 0 then (listAppend s active malloc).map Prod.fst else some s

/-- What the three algorithms have in common: the list behind it, and the thread they return. -/
def reschedule (fuel : ℕ) (choose : Store ℕ → Option (Option ℕ)) (ctx : ℕ → Threadcontext)
    (malloc : Malloc ℕ) (ready : Store ℕ) (active : Option ℕ) : Option (Store ℕ × Option ℕ) := do
  let ready ← appendActive ctx malloc ready active
  if ready.first = none then some (ready, none)
  else
    let activeElem ← choose ready
    let c ← activeElem.bind ready.cells
    let (ready, _) ← listRemove fuel ready activeElem
    some (ready, some c.data)

/-- `rr` takes the first node. -/
def rr (fuel : ℕ) (ctx : ℕ → Threadcontext) :
    Malloc ℕ → Store ℕ → Option ℕ → Option (Store ℕ × Option ℕ) :=
  reschedule fuel (fun ready => some ready.first) ctx

/-- `prr` takes the first node with the best priority. -/
def prr (fuel : ℕ) (ctx : ℕ → Threadcontext) :
    Malloc ℕ → Store ℕ → Option ℕ → Option (Store ℕ × Option ℕ) :=
  reschedule fuel (listGetMax fuel ctx cmpPrio) ctx

/-- `srtn` takes the first node with the least work left. -/
def srtn (fuel : ℕ) (ctx : ℕ → Threadcontext) :
    Malloc ℕ → Store ℕ → Option ℕ → Option (Store ℕ × Option ℕ) :=
  reschedule fuel (listGetMax fuel ctx cmpTarget) ctx

/-- The function of the algorithm. -/
def run : Algo → ℕ → (ℕ → Threadcontext) → Malloc ℕ → Store ℕ → Option ℕ →
    Option (Store ℕ × Option ℕ)
  | .rr => ReadyQueue.rr
  | .prr => ReadyQueue.prr
  | .srtn => ReadyQueue.srtn

end Sem3.Sched.ReadyQueue
