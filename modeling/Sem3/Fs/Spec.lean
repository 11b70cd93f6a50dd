import Sem3.Fs.Fs
import Mathlib.Algebra.BigOperators.Group.List.Basic
import Mathlib.Data.List.Forall2

/-!
# Files and directories

The numbers that the block map of an inode stands for, the records of a block and where they start,
and the inode that a name has in a directory.
-/

namespace Sem3.Fs

open Bytes (Memory readByte readShort readInt overlay)

/-! ## The blocks of a file -/

/-- The number of blocks of the `j`-th leaf node. -/
def extentLength (m : Memory) (j : ℕ) : ℤ := readShort m (INODE_FILE_BLOCKS + 12 + 12 * j + 4)

/-- The number of the `k`-th block of the `j`-th leaf node. -/
def extentBlock (m : Memory) (j k : ℕ) : ℤ :=
  Int.bmod (readInt m (INODE_FILE_BLOCKS + 12 + 12 * j + 8) + k) (2 ^ 32)

/-- The blocks of the entry `j`: as many numbers in a row as its length says. -/
def extent (m : Memory) (j : ℕ) : List ℤ :=
  (List.range (extentLength m j).toNat).map (extentBlock m j)

/-- The number of leaf nodes. -/
def entries (m : Memory) : ℤ := readShort m (INODE_FILE_BLOCKS + EXTENT_ENTRIES)

/-- The ranges of all leaf nodes, one behind the other. -/
def extents (m : Memory) : List ℤ := (List.range (entries m).toNat).flatMap (extent m)

/-- The number of blocks of all leaf nodes. -/
def blockCount (m : Memory) : ℕ :=
  ((List.range (entries m).toNat).map fun j => (extentLength m j).toNat).sum

/-- The `i`-th direct block. -/
def directBlock (m : Memory) (i : ℕ) : ℤ := readInt m (INODE_FILE_BLOCKS + 4 * i)

/-- The number of blocks that hold a file of this size. -/
def blocksNeeded (size bs : ℕ) : ℕ := (size + bs - 1) / bs

/-- The first direct blocks, as many as the file needs and there is room for, come to the beginning
of the array. -/
def Covers (m : Memory) (size bs c : ℕ) (blocks : List ℤ) : Prop :=
  getDataBlocks bs m blocks c =
    some ((size : ℤ), (List.range (min c (blocksNeeded size bs))).map (directBlock m) ++
      blocks.drop (min c (blocksNeeded size bs)), ((min c (blocksNeeded size bs) : ℕ) : ℤ))

/-! ## The scan of a block -/

/-- Where the `k`-th record starts. -/
def offset (m : Memory) : ℕ → ℤ
  | 0 => 0
  | k + 1 => offset m k + readShort m ((offset m k).toNat + DIR_REC_LEN)

/-- The `k`-th record starts inside the bytes read. -/
def Inside (m : Memory) (len k : ℕ) : Prop := 0 ≤ offset m k ∧ offset m k < len

/-- While the records start in front of the end, none of them starts in front of the buffer, and none
where an earlier one starts. -/
def Forward (m : Memory) (len : ℕ) : Prop :=
  ∀ k, (∀ j < k, offset m j < len) → 0 ≤ offset m k ∧ ∀ j < k, offset m j ≠ offset m k

/-- What the buffer holds, and how many bytes were read, in the scan of each block. -/
def scans (disk : ℤ → Option (List UInt8)) : List ℤ → Memory → List (Memory × ℕ)
  | [], _ => []
  | b :: blocks, buffer =>
    match disk b with
    | none => []
    | some bytes => (overlay bytes buffer, bytes.length) :: scans disk blocks (overlay bytes buffer)

/-! ## Directories -/

/-- A record in a memory of its own. -/
def recordMemory (r : List UInt8) : Memory := overlay r fun _ => 0

/-- The inode number of a record. -/
def inodeOf (r : List UInt8) : ℤ := readInt (recordMemory r) 0

/-- The name in a record. -/
def nameOf (r : List UInt8) : List UInt8 := fileName (recordMemory r) 0

/-- The record says how long it is, and its name has room in it. -/
structure WellFormed (r : List UInt8) : Prop where
  recLen : readShort (recordMemory r) DIR_REC_LEN = r.length
  nameLen : readByte (recordMemory r) DIR_NAME_LEN + 8 ≤ r.length

/-- The blocks are made of these records. -/
def Directory (disk : ℤ → Option (List UInt8)) (blocks : List ℤ)
    (recs : List (List (List UInt8))) : Prop :=
  List.Forall₂ (fun b rs => disk b = some rs.flatten ∧ ∀ r ∈ rs, WellFormed r) blocks recs

/-- The record is live and has the name. -/
def Found (target r : List UInt8) : Prop := inodeOf r ≠ 0 ∧ nameOf r = target

instance (target : List UInt8) : DecidablePred (Found target) :=
  fun r => inferInstanceAs (Decidable (inodeOf r ≠ 0 ∧ nameOf r = target))

/-- The inode of the live record with the name, or zero. -/
def liveInode (target : List UInt8) (rs : List (List UInt8)) : ℤ :=
  match rs.find? fun r => Found target r with
  | some r => inodeOf r
  | none => 0

/-- `search_dir` returns the inode of the live record, wherever it lies. -/
def FindsLive (disk : ℤ → Option (List UInt8)) (target : List UInt8) (blocks : List ℤ)
    (buffer : Memory) (rs : List (List UInt8)) : Prop :=
  ∃ fuel, searchDir disk target fuel blocks buffer 0 = some (some (liveInode target rs))

end Sem3.Fs
