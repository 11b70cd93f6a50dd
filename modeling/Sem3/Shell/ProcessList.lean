import Sem3.LinkedList.List
import Sem3.Shell.Main

/-!
# The children as a linked list (`list.c`, `mysh.c`)

What the shell does with `prcs`, and the first shell with `processList`, on the heap structure that
`list.c` keeps. The payload of an element is the number in the `process` that it points to. As for the
other list functions, `none` stands for a pointer that must not be dereferenced, or a loop that makes
more than `fuel` passes.
-/

namespace Sem3.Shell.ProcessList

open LinkedList (Store Malloc listAppend listFind listRemove)

/-- `cmppid`. -/
def cmppid (p1 p2 : ℤ) : ℤ := p1 - p2

/-- The element that `list_find` gives for a number that `wait` returned is taken out. The data of the
element is freed before, so that `NULL` is dereferenced if there is none. -/
def reap (fuel : ℕ) (prcs : Store ℤ) (p : ℤ) : Option (Store ℤ) := do
  match ← listFind fuel prcs p cmppid with
  | none => none
  | some le => (listRemove fuel prcs (some le)).map Prod.fst

/-- What a shell does with the list. -/
inductive Call where
  /-- The parent behind `fork`. -/
  | append (p : ℤ)
  /-- The parent behind `wait`. -/
  | reap (p : ℤ)

/-- A call on the nodes. -/
def Call.onNodes (fuel : ℕ) (malloc : Malloc ℤ) (prcs : Store ℤ) : Call → Option (Store ℤ)
  | .append p => (listAppend prcs p malloc).map Prod.fst
  | .reap p => ProcessList.reap fuel prcs p

/-- A call on the sequence of the numbers. -/
def Call.onSequence (prcs : List ℤ) : Call → Option (List ℤ)
  | .append p => some (prcs ++ [p])
  | .reap p => Shell.reap prcs p

/-- The call that a step of the shell makes. -/
def ofAct : Act → Option Call
  | .fork p _ => some (.append p)
  | .wait p => some (.reap p)
  | _ => none

end Sem3.Shell.ProcessList
