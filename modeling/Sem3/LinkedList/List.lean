import Sem3.Util.Chain
import Sem3.Util.Loop

/-!
# The singly linked list (`list.c`)

The list that the shell, the scheduler and the server are built on, as the shell's copy has it: a
`list_t` with a `first`, a `last` and a `size` field over a heap of `struct list_elem`. The copies
of the other exercise sheets drop or keep the `size` field and are otherwise the same code.

Pointers are `Option ℕ` with `none` for `NULL`, and the `int` `size` is unbounded. A function
returns `none` where it would dereference a pointer that is `NULL` or freed, or where a loop is
still running after `fuel` passes.
-/

namespace Sem3.LinkedList

open Chain Loop

variable {α : Type*}

/-- The heap of `struct list_elem`s together with the fields of one `list_t`. -/
structure Store (α : Type*) where
  cells : Heap α
  first : Option ℕ
  last : Option ℕ
  size : ℤ

/-- `malloc(sizeof(struct list_elem))`: given the heap, `NULL` or a block that is not in use. -/
structure Malloc (α : Type*) where
  pick : Heap α → Option ℕ
  fresh : ∀ h n, pick h = some n → h n = none

/-- A `malloc` with `k` blocks that hands out the first free one. -/
def Malloc.firstFree (k : ℕ) : Malloc α where
  pick h := (List.range k).find? fun n => (h n).isNone
  fresh h n hn := by simpa using List.find?_some hn

/-- The block `n` is given back. -/
def free (h : Heap α) (n : ℕ) : Heap α := Function.update h n none

/-- `le->next = q`, on an element of the heap. -/
def setNext (h : Heap α) (le : ℕ) (q : Option ℕ) : Option (Heap α) :=
  (h le).map fun c => Function.update h le (some { c with next := q })

/-- `list_init`: a fresh `list_t`; the elements of an older one stay allocated. -/
def listInit (s : Store α) : Store α := { s with first := none, last := none, size := 0 }

/-- `list_insert`: a new element in front of the first one, unless there is no memory for it. The
second part is the return value. -/
def listInsert (s : Store α) (data : α) (malloc : Malloc α) : Store α × Option ℕ :=
  match malloc.pick s.cells with
  | none => (s, none)
  | some le =>
    ({ cells := Function.update s.cells le (some ⟨s.first, data⟩)
       first := some le
       last := if s.last = none then some le else s.last
       size := s.size + 1 }, some le)

/-- `list_append`: a new element behind the last one. -/
def listAppend (s : Store α) (data : α) (malloc : Malloc α) : Option (Store α × Option ℕ) :=
  match malloc.pick s.cells with
  | none => some (s, none)
  | some le =>
    let cells := Function.update s.cells le (some ⟨none, data⟩)
    let first := if s.first = none then some le else s.first
    match s.last with
    | none => some ({ cells, first, last := some le, size := s.size + 1 }, some le)
    | some l =>
      (setNext cells l (some le)).map fun cells' =>
        ({ cells := cells', first, last := some le, size := s.size + 1 }, some le)

/-- One pass of the search loop of `list_remove`, at the element `le`: the store and the return
value when the loop is left. -/
def listRemoveStep (s : Store α) (elem : Option ℕ) (le : ℕ) :
    Pass ℕ (Option (Store α × ℤ)) :=
  match s.cells le with
  | none => .leave none
  | some c =>
    match c.next with
    | none => .leave (some (s, -1))
    | some nel =>
      if some nel = elem then
        if some nel = s.last then
          .leave <| (setNext s.cells le none).map fun cells =>
            ({ s with cells := free cells nel, last := some le, size := s.size - 1 }, 0)
        else
          .leave <| (s.cells nel).bind fun c' =>
            (setNext s.cells le c'.next).map fun cells =>
              ({ s with cells := free cells nel, size := s.size - 1 }, 0)
      else .again nel

/-- `list_remove`: the first element is taken out at once, and any other one is searched for from
its predecessor on. -/
def listRemove (fuel : ℕ) (s : Store α) (elem : Option ℕ) : Option (Store α × ℤ) :=
  match s.first with
  | none => some (s, -1)
  | some f =>
    if elem = some f then
      (s.cells f).map fun c =>
        ({ cells := free s.cells f
           first := c.next
           last := if elem = s.last then none else s.last
           size := s.size - 1 }, 0)
    else (iterate (listRemoveStep s elem) fuel f).join

/-- One pass of the loop of `list_find`, at the element `le`. -/
def listFindStep (s : Store α) (data : α) (cmpElem : α → α → ℤ) :
    Option ℕ → Pass (Option ℕ) (Option (Option ℕ))
  | none => .leave (some none)
  | some le =>
    match s.cells le with
    | none => .leave none
    | some c => if cmpElem c.data data = 0 then .leave (some (some le)) else .again c.next

/-- `list_find`: the first element that `cmpElem` takes for the data, or `NULL`. -/
def listFind (fuel : ℕ) (s : Store α) (data : α) (cmpElem : α → α → ℤ) : Option (Option ℕ) :=
  (iterate (listFindStep s data cmpElem) fuel s.first).join

/-- One pass of the loop of `list_finit`: the first element is removed. -/
def listFinitStep (fuel : ℕ) (s : Store α) : Pass (Store α) (Option (Store α)) :=
  match s.first with
  | none => .leave (some s)
  | some f =>
    match listRemove fuel s (some f) with
    | none => .leave none
    | some (s', _) => .again s'

/-- `list_finit`: the elements are removed, from the first one on. -/
def listFinit (fuel : ℕ) (s : Store α) : Option (Store α) :=
  (iterate (listFinitStep fuel) fuel s).join.map fun s' => { s' with size := 0 }

/-- The result of `list_to_array`: the number of slots passed to `malloc` and the stores
`array[i] = v` made to them, in order. A stored `none` is `NULL`. -/
structure Arr (α : Type*) where
  capacity : ℤ
  stores : List (ℕ × Option α)

/-- One pass of the loop of `list_to_array`: the state is `nel`, `i` and the stores so far. -/
def listToArrayStep (s : Store α) :
    Option ℕ × ℕ × List (ℕ × Option α) →
      Pass (Option ℕ × ℕ × List (ℕ × Option α)) (Option (List (ℕ × Option α)))
  | (none, i, stores) => .leave (some (stores ++ [(i, none)]))
  | (some nel, i, stores) =>
    match s.cells nel with
    | none => .leave none
    | some c => .again (c.next, i + 1, stores ++ [(i, some c.data)])

/-- `list_to_array`: the array has one place more than there are elements. -/
def listToArray (fuel : ℕ) (s : Store α) : Option (Arr α) :=
  (iterate (listToArrayStep s) fuel (s.first, 0, [])).join.map fun stores =>
    { capacity := s.size + 1, stores }

/-! ## Calls -/

/-- A call of one of the list functions, with the `malloc` it runs under. -/
inductive Op (α : Type*) where
  | init
  | insert (data : α) (malloc : Malloc α)
  | append (data : α) (malloc : Malloc α)
  | remove (elem : Option ℕ)
  | find (data : α) (cmpElem : α → α → ℤ)
  | finit
  | toArray

/-- What a call returns: nothing of interest, a pointer to an element, the status of `list_remove`,
or the array built by `list_to_array`. -/
inductive Ret (α : Type*) where
  | unit
  | elem (le : Option ℕ)
  | status (r : ℤ)
  | array (arr : Arr α)

/-- One operation: the structure behind it and what it returns. -/
def exec (fuel : ℕ) (s : Store α) : Op α → Option (Store α × Ret α)
  | .init => some (listInit s, .unit)
  | .insert data malloc =>
    let (s', le) := listInsert s data malloc
    some (s', .elem le)
  | .append data malloc => (listAppend s data malloc).map fun (s', le) => (s', .elem le)
  | .remove elem => (listRemove fuel s elem).map fun (s', r) => (s', .status r)
  | .find data cmpElem => (listFind fuel s data cmpElem).map fun le => (s, .elem le)
  | .finit => (listFinit fuel s).map fun s' => (s', .unit)
  | .toArray => (listToArray fuel s).map fun arr => (s, .array arr)

/-- The operations of the list, one after the other. -/
def run (fuel : ℕ) : Store α → List (Op α) → Option (Store α)
  | s, [] => some s
  | s, op :: ops => (exec fuel s op).bind fun (s', _) => run fuel s' ops

/-- The state right after the first `list_init`. -/
def Store.empty : Store α := { cells := fun _ => none, first := none, last := none, size := 0 }

end Sem3.LinkedList
