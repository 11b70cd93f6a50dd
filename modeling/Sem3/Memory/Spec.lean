import Sem3.Memory.Memory
import Sem3.Util.Tiling
import Mathlib.Logic.Relation

/-!
# The arena

What the allocator keeps the block list for: the blocks lie next to each other in the arena, which
is handed out in multiples of the block size.
-/

namespace Sem3.Memory

/-- `n` rounded up to a multiple of `blocksize`. -/
def roundUp (blocksize n : ℕ) : ℕ :=
  if n / blocksize * blocksize < n then n / blocksize * blocksize + blocksize
  else n / blocksize * blocksize

/-- The number of bytes of a block. -/
def Memblock.len (b : Memblock) : ℕ := b.size.toNat

@[simp] theorem Memblock.len_mk (status : Status) (addr : ℕ) (size inUse : UInt32) :
    (Memblock.mk status addr size inUse).len = size.toNat := rfl

/-- The layout of the arena at `base`: the first block starts at `base` and every other one where
its predecessor ends, no two overlap, and none reaches past the end. -/
structure Layout (base : ℕ) (m : Mem) : Prop where
  tiles : ∃ hi, Tiling.Tiles Memblock.addr Memblock.len base m.list hi
  disjoint : m.list.Pairwise fun a b => a.addr + a.len ≤ b.addr
  bounded : ∀ b ∈ m.list, b.addr + b.len ≤ base + m.size.toNat

/-- What holds in every state that is reached without dereferencing `NULL`. -/
structure Inv (m : Mem) : Prop where
  blocksize_pos : 0 < m.blocksize.toNat
  bound : m.size.toNat + m.blocksize.toNat < 2 ^ 31
  total : (m.list.map Memblock.len).sum = m.size.toNat
  ne_nil : m.list ≠ []
  pos : 2 ≤ m.list.length → ∀ b ∈ m.list, 0 < b.len

/-- The call merges blocks: it frees a block, and after that two adjacent blocks meet the condition
of the merge. -/
def Merges (m : Mem) : Op → Prop
  | .alloc _ _ => False
  | .remove index => ∃ elem pre second first post,
      listNth index.toNat 1 m.list = some elem ∧
      markFree elem.addr m.list = some (pre ++ second :: first :: post) ∧
      mergeable m.blocksize second first

/-- The books of the allocator: the blocks make up the arena, a free block is not in use, and a used
one is as large as its request rounded up. Only the last block may have an odd size. -/
structure Accounting (size blocksize : ℕ) (l : List Memblock) : Prop where
  total : (l.map Memblock.len).sum = size
  free : ∀ b ∈ l, b.status = .free_ → b.inUse = 0 ∧ 1 ≤ b.len
  used : ∀ b ∈ l, b.status = .used →
    1 ≤ b.inUse.toNat ∧ b.len = roundUp blocksize b.inUse.toNat
  multiple : ∀ b ∈ l.dropLast, blocksize ∣ b.len

/-- No two adjacent blocks are both free. -/
def Coalesced (l : List Memblock) : Prop :=
  l.IsChain fun a b => ¬ (a.status = .free_ ∧ b.status = .free_)

/-- The call frees one of the last two blocks next to the other one, which is free, and together
they are not a multiple of the block size. -/
def Strands (m : Mem) : Op → Prop
  | .alloc _ _ => False
  | .remove index => ∃ elem pre a b,
      listNth index.toNat 1 m.list = some elem ∧ m.list = pre ++ [a, b] ∧
      (∀ c ∈ pre, c.addr ≠ elem.addr) ∧
      (a.addr = elem.addr ∧ b.status = .free_ ∨
        a.addr ≠ elem.addr ∧ b.addr = elem.addr ∧ a.status = .free_) ∧
      ¬ m.blocksize.toNat ∣ a.len + b.len

/-- The block can serve a request of `size` bytes. -/
def Memblock.Fits (blocksize size : ℕ) (b : Memblock) : Prop :=
  b.status = .free_ ∧ roundUp blocksize size ≤ b.len

/-- What a request of `size` bytes leaves in the place of the block that serves it: the bytes that are
taken and, if that is not all of them, the rest. -/
def Memblock.carve (blocksize size : ℕ) (b : Memblock) : List Memblock :=
  let taken := roundUp blocksize size
  { status := .used, addr := b.addr, size := .ofNat taken, inUse := .ofNat size } ::
    if taken < b.len then
      [{ status := .free_, addr := b.addr + taken, size := .ofNat (b.len - taken), inUse := 0 }]
    else []

/-- A request that the arena can serve: it asks for at least one byte and at most all of them, and
some block is large enough. -/
def Servable (size blocksize : ℕ) (l : List Memblock) (request : ℕ) : Prop :=
  1 ≤ request ∧ request ≤ size ∧ ∃ b ∈ l, b.Fits blocksize request

/-- The list after the request was served by the first block that is large enough. -/
def ServedFirst (blocksize request : ℕ) (l l' : List Memblock) : Prop :=
  ∃ pre b post, l = pre ++ b :: post ∧ b.Fits blocksize request ∧
    (∀ c ∈ pre, ¬ c.Fits blocksize request) ∧ l' = pre ++ b.carve blocksize request ++ post

/-- The list after the request was served by the first of the largest free blocks. -/
def ServedLargest (blocksize request : ℕ) (l l' : List Memblock) : Prop :=
  ∃ pre b post, l = pre ++ b :: post ∧ b.Fits blocksize request ∧
    (∀ c ∈ pre, c.status = .free_ → c.len < b.len) ∧
    (∀ c ∈ post, c.status = .free_ → c.len ≤ b.len) ∧
    l' = pre ++ b.carve blocksize request ++ post

/-- A call of `mem_alloc` in the state `m` that dereferences no `NULL` pointer: a servable request is
served as `Served` says, and any other one leaves the list as it is. -/
def Answers (Served : ℕ → ℕ → List Memblock → List Memblock → Prop) (m : Mem) (request : ℕ)
    (result : Option Mem) : Prop :=
  ∃ m', result = some m' ∧
    (Servable m.size.toNat m.blocksize.toNat m.list request →
      ∃ l, Served m.blocksize.toNat request m.list l ∧ m' = { m with list := l }) ∧
    (¬ Servable m.size.toNat m.blocksize.toNat m.list request → m' = m)

/-- The block as a free block. -/
def Memblock.freed (b : Memblock) : Memblock := { b with inUse := 0, status := .free_ }

/-- Two free neighbours become one free block. -/
inductive MergeStep : List Memblock → List Memblock → Prop
  | merge (pre post : List Memblock) (a b c : Memblock) (ha : a.status = .free_)
      (hb : b.status = .free_) (hc : c.status = .free_) (hlen : c.len = a.len + b.len)
      (haddr : c.addr = a.addr ∨ c.addr = b.addr) (hinUse : c.inUse = 0) :
      MergeStep (pre ++ a :: b :: post) (pre ++ c :: post)

/-- A call that frees the block at position `index` of `l`, counted from 1, and does nothing else but
merge free neighbours. There is nothing to free at the other positions. -/
def FreesAt (index : ℕ) (l l' : List Memblock) : Prop :=
  (∀ pre b post, l = pre ++ b :: post → index = pre.length + 1 →
    Relation.ReflTransGen MergeStep (pre ++ b.freed :: post) l') ∧
  (index = 0 ∨ l.length < index → l' = l)

/-- If the search by address comes out at an earlier block than the one at position `index` of `l`,
both are free already. Position 0 stands for the first block. -/
def FoundByAddr (index : ℕ) (l : List Memblock) : Prop :=
  (index = 0 → ∀ b, l.head? = some b → b.status = .free_) ∧
  ∀ pre b post, l = pre ++ b :: post → index = pre.length + 1 →
    ∀ x, pre.find? (fun c => c.addr = b.addr) = some x → x.status = .free_ ∧ b.status = .free_

end Sem3.Memory
