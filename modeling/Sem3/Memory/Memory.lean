import Mathlib.Data.List.Basic
import Mathlib.Data.Nat.Notation

/-!
# The block allocator (`memory.c`)

The memory arena is a list of blocks in address order. `mem_alloc` splits a free block, `mem_remove`
frees the block at a position of the list and merges free neighbours. The list is the sequence that
`list.c` keeps; a node of it is named by its place in the list, and `Nodes` has the nodes themselves.
`unsigned int` is `UInt32`, `int` is `Int32`, with the conversions between them as in C, and addresses
are natural numbers.

A function returns `none` where it dereferences `NULL`. `malloc` is taken to succeed.
-/

namespace Sem3.Memory

/-- The two kinds of blocks. -/
inductive Status where
  | free_
  | used
deriving DecidableEq, Repr

/-- `struct memblock`. -/
structure Memblock where
  status : Status
  addr : ℕ
  size : UInt32
  inUse : UInt32
deriving DecidableEq, Repr

/-- `enum mem_algo`. -/
inductive MemAlgo where
  | none
  | first
  | worst
deriving DecidableEq, Repr

/-- The global variables of `memory.c` that are read. -/
structure Mem where
  blocksize : UInt32
  size : UInt32
  strategy : MemAlgo
  list : List Memblock
deriving DecidableEq, Repr

/-- `add_memblock_front`, where `malloc` places the arena at `arena`. -/
def addMemblockFront (m : Mem) (size : UInt32) (arena : ℕ) : Mem :=
  { m with list := { status := .free_, addr := arena, size, inUse := 0 } :: m.list }

/-- `mem_init`: a list with one free block. -/
def memInit (size blocksize : UInt32) (strategy : MemAlgo) (arena : ℕ) : Mem :=
  addMemblockFront { blocksize, size, strategy, list := [] } size arena

/-- `add_memblock` on the node `current`: the nodes that stand in its place afterwards. -/
def addMemblock (blocksize size : UInt32) (current : Memblock) : List Memblock :=
  let inUse := size
  let used : Int32 := (inUse / blocksize * blocksize).toInt32
  let usedSize : Int32 := (size / blocksize * blocksize).toInt32
  let usedSize := if usedSize.toUInt32 < size then (usedSize.toUInt32 + blocksize).toInt32 else usedSize
  let used := if used.toUInt32 < inUse then (used.toUInt32 + blocksize).toInt32 else used
  let remain : Int32 := (current.size - used.toUInt32).toInt32
  let current' := { current with status := .used, inUse, size := usedSize.toUInt32 }
  if 0 < remain then
    [current', { status := .free_, addr := current.addr + current'.size.toNat,
                 size := remain.toUInt32, inUse := 0 }]
  else [current']

/-- The request rounded up to whole blocks, as `mem_alloc` computes it. -/
def blocksFor (blocksize size : UInt32) : Int32 :=
  let blocks : Int32 := (size / blocksize * blocksize).toInt32
  if (blocks = 0 ∧ size % blocksize > 0) ∨ blocks.toUInt32 < size then
    (blocks.toUInt32 + blocksize).toInt32
  else blocks

/-- The first-fit loop of `mem_alloc`: the list after the call of `add_memblock` at the first node
that fits, or the unchanged list. -/
def firstFit (blocksize size : UInt32) (blocks : Int32) : List Memblock → List Memblock
  | [] => []
  | temp :: rest =>
    if temp.status = .free_ ∧ temp.size ≥ blocks.toUInt32 ∧ temp.inUse ≤ blocks.toUInt32 then
      addMemblock blocksize size temp ++ rest
    else temp :: firstFit blocksize size blocks rest

/-- The worst-fit loop of `mem_alloc` from the node at position `i` on: the position of
`worst_elem`, `none` for `NULL`. -/
def worstFit (size : UInt32) (blocks : Int32) :
    List Memblock → ℕ → Int32 → Option ℕ → Option ℕ
  | [], _, _, worstElem => worstElem
  | temp :: rest, i, blend, worstElem =>
    if temp.status = .free_ ∧ temp.size ≥ blocks.toUInt32 ∧ temp.size - size > blend.toUInt32 then
      worstFit size blocks rest (i + 1) (temp.size - size).toInt32 (some i)
    else worstFit size blocks rest (i + 1) blend worstElem

/-- `mem_alloc`; `arena` is used only when the list is empty. -/
def memAlloc (m : Mem) (size : UInt32) (arena : ℕ) : Option Mem :=
  if size = 0 ∨ size > m.size then some m
  else if m.list = [] then some (addMemblockFront m size arena)
  else
    let blocks := blocksFor m.blocksize size
    match m.strategy with
    | .none | .first => some { m with list := firstFit m.blocksize size blocks m.list }
    | .worst => do
      let i ← worstFit size blocks m.list 0 0 none
      let current ← m.list[i]?
      some { m with
        list := m.list.take i ++ addMemblock m.blocksize size current ++ m.list.drop (i + 1) }

/-- The loop of `list_nth`, with its counter `i`. -/
def listNth (index : ℕ) : ℕ → List Memblock → Option Memblock
  | _, [] => none
  | i, elem :: rest => if i < index then listNth index (i + 1) rest else some elem

/-- The first half of `mem_free`: the list with the first node at `addr` marked free, `none` if there
is no such node. -/
def markFree (addr : ℕ) : List Memblock → Option (List Memblock)
  | [] => none
  | elem :: rest =>
    if elem.addr = addr then some ({ elem with inUse := 0, status := .free_ } :: rest)
    else (markFree addr rest).map (elem :: ·)

/-- The condition of the merge in `mem_free`. -/
def mergeable (blocksize : UInt32) (second first : Memblock) : Prop :=
  first.status = .free_ ∧ second.status = .free_ ∧
    (first.size + second.size).toInt32.toUInt32 % blocksize = 0

instance (blocksize : UInt32) (second first : Memblock) :
    Decidable (mergeable blocksize second first) :=
  inferInstanceAs (Decidable (_ ∧ _))

/-- The merge loop of `mem_free`: `second` is the node before the nodes that are still to visit. -/
def mergeFree (blocksize : UInt32) : Memblock → List Memblock → List Memblock
  | second, [] => [second]
  | second, first :: rest =>
    if mergeable blocksize second first then
      mergeFree blocksize { first with size := (first.size + second.size).toInt32.toUInt32 } rest
    else second :: mergeFree blocksize first rest

/-- `mem_free`: the first block at the address is made free, and adjacent free blocks are merged. -/
def memFree (m : Mem) (addr : ℕ) : Mem :=
  match markFree addr m.list with
  | none => m
  | some [] => m
  | some (first :: rest) => { m with list := mergeFree m.blocksize first rest }

/-- `mem_remove`: the block with the number `index` is freed through its address. -/
def memRemove (m : Mem) (index : UInt32) : Mem :=
  match listNth index.toNat 1 m.list with
  | none => m
  | some elem => memFree m elem.addr

/-! ## Calls -/

/-- The calls that the program makes behind `mem_init`. -/
inductive Op where
  | alloc (size : UInt32) (arena : ℕ)
  | remove (index : UInt32)
deriving DecidableEq, Repr

/-- One call; `none` if it dereferences `NULL`. -/
def exec (m : Mem) : Op → Option Mem
  | .alloc size arena => memAlloc m size arena
  | .remove index => some (memRemove m index)

/-- A sequence of calls, `none` if one of them dereferences `NULL`. -/
def run : Mem → List Op → Option Mem
  | m, [] => some m
  | m, op :: ops => (exec m op).bind fun m' => run m' ops

end Sem3.Memory
