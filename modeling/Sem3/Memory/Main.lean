import Sem3.Memory.Memory

/-!
# The command line of the allocator (`mem.c`)

The options are handled in the order in which `getopt` returns them, each with the value of `atoi` on
its argument. The block list is the global variable `list` of `memory.c`, which is `NULL` until
`mem_init` is called; `mem.c` calls it at the first `-a`.

The program stops at the first `Fault`. The functions of `memory.c` appear here with their divisions
by `BLOCKSIZE`, and are otherwise those of the block allocator.
-/

namespace Sem3.Memory

/-- What stops the program. -/
inductive Fault where
  /-- A list operation while `list` is `NULL`. -/
  | nullList
  /-- A division or a remainder by `BLOCKSIZE`, which is 0. -/
  | divByZero
  /-- `add_memblock` on the element `NULL`. -/
  | nullElem
deriving DecidableEq, Repr

/-- An evaluation of `… / BLOCKSIZE` or `… % BLOCKSIZE`. -/
def divides (blocksize : UInt32) : Except Fault Unit :=
  if blocksize = 0 then throw .divByZero else pure ()

/-- `mem_alloc`. The `else` branch begins with a division, and `BLOCKSIZE` stays as it is, so the
later ones of that call do not fail. -/
def memAllocChecked (m : Mem) (size : UInt32) (arena : ℕ) : Except Fault Mem :=
  if size = 0 ∨ size > m.size then pure m
  else if m.list = [] then pure (addMemblockFront m size arena)
  else do
    divides m.blocksize
    match memAlloc m size arena with
    | none => throw .nullElem
    | some m' => pure m'

/-- The merge loop of `mem_free`: the remainder is taken if both blocks are free. -/
def mergeFreeChecked (blocksize : UInt32) :
    Memblock → List Memblock → Except Fault (List Memblock)
  | second, [] => pure [second]
  | second, first :: rest => do
    if first.status = .free_ ∧ second.status = .free_ then
      divides blocksize
    if mergeable blocksize second first then
      mergeFreeChecked blocksize
        { first with size := (first.size + second.size).toInt32.toUInt32 } rest
    else
      let merged ← mergeFreeChecked blocksize first rest
      return second :: merged

/-- `mem_free`, with the remainders of the merge loop. -/
def memFreeChecked (m : Mem) (addr : ℕ) : Except Fault Mem :=
  match markFree addr m.list with
  | none => pure m
  | some [] => pure m
  | some (first :: rest) => do
    let merged ← mergeFreeChecked m.blocksize first rest
    return { m with list := merged }

/-- `mem_remove`. -/
def memRemoveChecked (m : Mem) (index : UInt32) : Except Fault Mem :=
  match listNth index.toNat 1 m.list with
  | none => pure m
  | some elem => memFreeChecked m elem.addr

/-! ## `main` -/

/-- An option with the value of its argument. `arena` is the address that `malloc` returns if the
option leads to a call of `mem_init`. -/
inductive Opt where
  | m (memorySize : Int32)
  | b (blocksize : Int32)
  | one
  | w
  | a (size : Int32) (arena : ℕ)
  | f (index : Int32)
deriving DecidableEq, Repr

/-- The variables of `main`, and the globals of `memory.c` once `mem_init` has set them. -/
structure Vars where
  memorySize : UInt32 := 1048576
  blocksize : UInt32 := 4096
  strategy : MemAlgo := .none
  init : Bool := false
  globals : Option Mem := none
deriving DecidableEq, Repr

/-- One option of the command line. The first `-a` calls `mem_init`. -/
def handle (v : Vars) : Opt → Except Fault Vars
  | .m memorySize => pure { v with memorySize := memorySize.toUInt32 }
  | .b blocksize => pure { v with blocksize := blocksize.toUInt32 }
  | .one => pure { v with strategy := .first }
  | .w => pure { v with strategy := .worst }
  | .a size arena =>
    let v :=
      if v.init then v
      else { v with globals := some (memInit v.memorySize v.blocksize v.strategy arena), init := true }
    match v.globals with
    | none => throw .nullList
    | some m => do
      let m ← memAllocChecked m size.toUInt32 arena
      return { v with globals := some m }
  | .f index =>
    match v.globals with
    | none => throw .nullList
    | some m => do
      let m ← memRemoveChecked m index.toUInt32
      return { v with globals := some m }

/-- The options are handled in their order, until one of them ends the program. -/
def main (opts : List Opt) : Except Fault Vars := opts.foldlM handle {}

end Sem3.Memory
