import Sem3.LinkedList.List
import Sem3.Memory.Memory

/-!
# The block list on the heap (`memory.c`, `list.c`)

The functions of `memory.c` as they run on the nodes of `list.c`, whose payloads are the addresses of
the blocks. `Memory` has the same functions on the sequence of the blocks.

This copy of `list.c` is the code of `LinkedList` with `list_put` and `list_nth`, and without a
`size` field: nothing reads the count that `Store` keeps. A function returns `none` where it
dereferences a pointer that is `NULL` or freed, or where a loop is still running after `fuel` passes.
`block` is the address that `malloc` returns for a `struct memblock`.
-/

namespace Sem3.Memory.Nodes

open Chain Loop LinkedList

/-! ## `list.c` -/

/-- One pass of the loop of `list_put`, at the node `temp`: the store and the return value when the
loop is left. -/
def listPutStep (s : Store ℕ) (current data : ℕ) (malloc : Malloc ℕ) :
    Option ℕ → Pass (Option ℕ) (Option (Store ℕ × Option ℕ))
  | none => .leave (some (s, none))
  | some temp =>
    match s.cells temp, s.cells current with
    | some c, some d =>
      if c.data = d.data then
        match c.next with
        | none => .leave (listAppend s data malloc)
        | some next =>
          .leave <| (malloc.pick s.cells).bind fun elem =>
            (setNext (Function.update s.cells elem (some ⟨some next, data⟩)) temp (some elem)).map
              fun cells => ({ s with cells, size := s.size + 1 }, some elem)
      else .again c.next
    | _, _ => .leave none

/-- `list_put`: a new element behind the first one with the data of `current`. -/
def listPut (fuel : ℕ) (s : Store ℕ) (current data : ℕ) (malloc : Malloc ℕ) :
    Option (Store ℕ × Option ℕ) :=
  (iterate (listPutStep s current data malloc) fuel s.first).join

/-- One pass of the loop of `list_nth`, with its counter `i`. -/
def listNthStep (s : Store ℕ) (index : ℕ) :
    Option ℕ × ℕ → Pass (Option ℕ × ℕ) (Option (Option ℕ))
  | (none, _) => .leave (some none)
  | (some elem, i) =>
    if i < index then
      match s.cells elem with
      | none => .leave none
      | some c => .again (c.next, i + 1)
    else .leave (some (some elem))

/-- `list_nth`: the element with the number `index`, counted from 1. -/
def listNth (fuel : ℕ) (s : Store ℕ) (index : ℕ) : Option (Option ℕ) :=
  (iterate (listNthStep s index) fuel (s.first, 1)).join

/-! ## `memory.c` -/

/-- The global variables of `memory.c` that are read, over the heap: `list` points to its nodes, and
their payloads are the addresses of the blocks. -/
structure State where
  blocksize : UInt32
  size : UInt32
  strategy : MemAlgo
  list : Store ℕ
  blocks : ℕ → Option Memblock

/-- The node at `le`, and the block `le->data`. -/
def State.elem (c : State) (le : ℕ) : Option (Cell ℕ × Memblock) :=
  (c.list.cells le).bind fun cell => (c.blocks cell.data).map (cell, ·)

/-- `*data = b`. -/
def State.write (c : State) (data : ℕ) (b : Memblock) : State :=
  { c with blocks := Function.update c.blocks data (some b) }

/-- A pass of a loop that looks for the first node whose block meets `p`. -/
def searchStep (c : State) (p : Memblock → Prop) [DecidablePred p] :
    Option ℕ → Pass (Option ℕ) (Option (Option ℕ))
  | none => .leave (some none)
  | some le =>
    match c.elem le with
    | none => .leave none
    | some (cell, b) => if p b then .leave (some (some le)) else .again cell.next

/-- A loop over the list that stops at the first block with the property. -/
def search (fuel : ℕ) (c : State) (p : Memblock → Prop) [DecidablePred p] : Option (Option ℕ) :=
  (iterate (searchStep c p) fuel c.list.first).join

/-- `list_find` with `cmp`, which compares the addresses. -/
def listFind (fuel : ℕ) (c : State) (addr : ℕ) : Option (Option ℕ) :=
  search fuel c fun b => b.addr = addr

/-- `add_memblock_front`, with the memory `block` for the block. -/
def addMemblockFront (c : State) (size : UInt32) (arena block : ℕ) (malloc : Malloc ℕ) : State :=
  { c.write block { status := .free_, addr := arena, size, inUse := 0 } with
    list := (listInsert c.list block malloc).1 }

/-- `mem_init`, on a new list. -/
def memInit (size blocksize : UInt32) (strategy : MemAlgo) (arena block : ℕ) (malloc : Malloc ℕ) :
    State :=
  addMemblockFront { blocksize, size, strategy, list := .empty, blocks := fun _ => none } size arena
    block malloc

/-- `add_memblock` on the node `current`. -/
def addMemblock (fuel : ℕ) (c : State) (size : UInt32) (current : Option ℕ) (block : ℕ)
    (malloc : Malloc ℕ) : Option State := do
  let current ← current
  let (cell, b) ← c.elem current
  let inUse := size
  let used : Int32 := (inUse / c.blocksize * c.blocksize).toInt32
  let usedSize : Int32 := (size / c.blocksize * c.blocksize).toInt32
  let usedSize := if usedSize.toUInt32 < size then (usedSize.toUInt32 + c.blocksize).toInt32
    else usedSize
  let used := if used.toUInt32 < inUse then (used.toUInt32 + c.blocksize).toInt32 else used
  let remain : Int32 := (b.size - used.toUInt32).toInt32
  let b' := { b with status := .used, inUse, size := usedSize.toUInt32 }
  let c' := c.write cell.data b'
  if 0 < remain then
    let remaining := { status := .free_, addr := b.addr + b'.size.toNat, size := remain.toUInt32,
                       inUse := 0 }
    let (list, _) ← listPut fuel c'.list current block malloc
    some { c'.write block remaining with list }
  else some c'

/-- The first-fit loop of `mem_alloc`, which calls `add_memblock` at the first node that fits. -/
def firstFit (fuel : ℕ) (c : State) (size : UInt32) (blocks : Int32) (block : ℕ)
    (malloc : Malloc ℕ) : Option State := do
  let found ← search fuel c fun b =>
    b.status = .free_ ∧ b.size ≥ blocks.toUInt32 ∧ b.inUse ≤ blocks.toUInt32
  match found with
  | none => some c
  | some temp => addMemblock fuel c size (some temp) block malloc

/-- One pass of the worst-fit loop of `mem_alloc`: the state is `temp`, `blend` and `worst_elem`. -/
def worstFitStep (c : State) (size : UInt32) (blocks : Int32) :
    Option ℕ × Int32 × Option ℕ → Pass (Option ℕ × Int32 × Option ℕ) (Option (Option ℕ))
  | (none, _, worstElem) => .leave (some worstElem)
  | (some temp, blend, worstElem) =>
    match c.elem temp with
    | none => .leave none
    | some (cell, b) =>
      if b.status = .free_ ∧ b.size ≥ blocks.toUInt32 ∧ b.size - size > blend.toUInt32 then
        .again (cell.next, (b.size - size).toInt32, some temp)
      else .again (cell.next, blend, worstElem)

/-- The loop for the strategy `WORST`. -/
def worstFit (fuel : ℕ) (c : State) (size : UInt32) (blocks : Int32) : Option (Option ℕ) :=
  (iterate (worstFitStep c size blocks) fuel (c.list.first, 0, none)).join

/-- `mem_alloc`. -/
def memAlloc (fuel : ℕ) (c : State) (size : UInt32) (arena block : ℕ) (malloc : Malloc ℕ) :
    Option State :=
  if size = 0 ∨ size > c.size then some c
  else if c.list.first = none then some (addMemblockFront c size arena block malloc)
  else
    let blocks := blocksFor c.blocksize size
    match c.strategy with
    | .none | .first => firstFit fuel c size blocks block malloc
    | .worst => do
      let worstElem ← worstFit fuel c size blocks
      addMemblock fuel c size worstElem block malloc

/-- The body of the merge loop of `mem_free`. -/
def mergeBody (fuel : ℕ) (c : State) : Option ℕ → ℕ → Option State
  | none, _ => some c
  | some second, first => do
    let (cell, f) ← c.elem first
    let (_, s) ← c.elem second
    if mergeable c.blocksize s f then
      let (list, _) ← listRemove fuel c.list (some second)
      some { c.write cell.data { f with size := (f.size + s.size).toInt32.toUInt32 } with list }
    else some c

/-- One pass of the merge loop of `mem_free`: the state is the heap, `second` and `first`. -/
def mergeStep (fuel : ℕ) :
    State × Option ℕ × Option ℕ → Pass (State × Option ℕ × Option ℕ) (Option State)
  | (c, _, none) => .leave (some c)
  | (c, second, some first) =>
    match mergeBody fuel c second first with
    | none => .leave none
    | some c' =>
      match c'.list.cells first with
      | none => .leave none
      | some cell => .again (c', some first, cell.next)

/-- `mem_free`. -/
def memFree (fuel : ℕ) (c : State) (addr : ℕ) : Option State := do
  match ← listFind fuel c addr with
  | none => some c
  | some elem =>
    let (cell, b) ← c.elem elem
    let c' := c.write cell.data { b with inUse := 0, status := .free_ }
    (iterate (mergeStep fuel) fuel (c', none, c'.list.first)).join

/-- `mem_remove`. -/
def memRemove (fuel : ℕ) (c : State) (index : UInt32) : Option State := do
  match ← listNth fuel c.list index.toNat with
  | none => some c
  | some elem =>
    let (_, b) ← c.elem elem
    memFree fuel c b.addr

/-! ## Calls -/

/-- A call, with the block and the node that `malloc` would return to it. -/
structure Call where
  op : Op
  block : ℕ
  malloc : Malloc ℕ

/-- One call, with the memory that it is given. -/
def exec (fuel : ℕ) (c : State) (call : Call) : Option State :=
  match call.op with
  | .alloc size arena => memAlloc fuel c size arena call.block call.malloc
  | .remove index => memRemove fuel c index

/-- The calls of the list, one after the other. -/
def run (fuel : ℕ) : State → List Call → Option State
  | c, [] => some c
  | c, call :: calls => (exec fuel c call).bind fun c' => run fuel c' calls

end Sem3.Memory.Nodes
