import Sem3.Util.Bytes
import Sem3.Util.Loop

/-!
# Reading a file system (`blatt11/fs.c`)

`get_data_blocks` finds the numbers of the blocks of a file in its inode, and `search_dir` looks for
a name in the blocks of a directory. What they print is left out. A block of the disk has a number
and is a list of bytes, or cannot be read.
-/

namespace Sem3.Fs

open Bytes (Memory readByte readShort readInt readLE readString overlay)
open Loop (Pass)

/-! ## Inode offsets -/

/-- Where the size of the file stands in an inode. -/
def INODE_FILE_SIZE : ℕ := 0x04

/-- Where the flags stand in an inode. -/
def INODE_FLAGS : ℕ := 0x20

/-- Where the block numbers, or the extents, start in an inode. -/
def INODE_FILE_BLOCKS : ℕ := 0x28

/-- Where the number of entries stands in the header of the extents. -/
def EXTENT_ENTRIES : ℕ := 0x02

/-! ## Directory entries -/

/-- Where the length of the record stands in a directory entry. -/
def DIR_REC_LEN : ℕ := 0x04

/-- Where the length of the name stands in a directory entry. -/
def DIR_NAME_LEN : ℕ := 0x06

/-- Where the name starts in a directory entry. -/
def DIR_FILE_NAME : ℕ := 0x08

/-! ## The blocks of a file -/

/-- `blocks [i] = b`; `none` if it is outside of the array. -/
def store (blocks : List ℤ) (i : ℕ) (b : ℤ) : Option (List ℤ) :=
  if i < blocks.length then some (blocks.set i b) else none

/-- `for (; k < n && i < *nblocks; k++) blocks [i++] = f k`, which gives the last `i` and the array. -/
def fillLoop (f : ℕ → ℤ) (n nblocks : ℤ) (k i : ℕ) (blocks : List ℤ) : Option (ℕ × List ℤ) :=
  if _h : k < n ∧ i < nblocks then do
    let blocks ← store blocks i (f k)
    fillLoop f n nblocks (k + 1) (i + 1) blocks
  else some (i, blocks)
termination_by (n - k).toNat

/-- The loop over the direct blocks, which counts with `i` alone. -/
def directLoop (s : Memory) (bound nblocks : ℤ) (blocks : List ℤ) : Option (ℕ × List ℤ) :=
  fillLoop (fun i => readInt s (INODE_FILE_BLOCKS + 4 * i)) bound nblocks 0 0 blocks

/-- The loop over the `n` blocks of the extent at `s`. The sum of ints wraps around. -/
def extentLoop (m : Memory) (s : ℕ) (nblocks : ℤ) (i : ℕ) (blocks : List ℤ) :
    Option (ℕ × List ℤ) :=
  fillLoop (fun k => Int.bmod (readInt m (s + 8) + k) (2 ^ 32)) (readShort m (s + 4)) nblocks 0 i
    blocks

/-- The loop over the leaf nodes from `j` on, which is at `s`. -/
def leafLoop (m : Memory) (entries nblocks : ℤ) (j s i : ℕ) (blocks : List ℤ) :
    Option (ℕ × List ℤ) :=
  if _h : j < entries ∧ i < nblocks then do
    let (i, blocks) ← extentLoop m s nblocks i blocks
    leafLoop m entries nblocks (j + 1) (s + 12) i blocks
  else some (i, blocks)
termination_by (entries - j).toNat

/-- `get_data_blocks` with the block size: the file size, the array `blocks`, and `*nblocks`, which
is its capacity before. -/
def getDataBlocks (blockSize : ℤ) (buffer : Memory) (blocks : List ℤ) (nblocks : ℤ) :
    Option (ℤ × List ℤ × ℤ) := do
  let fileSize := readInt buffer INODE_FILE_SIZE
  if readLE buffer INODE_FLAGS 4 &&& 0x80000 = 0 then
    if blockSize = 0 then none
    else
      let (i, blocks) ← directLoop buffer (fileSize.tdiv blockSize) nblocks blocks
      some (fileSize, blocks, i)
  else
    let s := INODE_FILE_BLOCKS
    let (i, blocks) ← leafLoop buffer (readShort buffer (s + EXTENT_ENTRIES)) nblocks 0 (s + 12) 0
      blocks
    some (fileSize, blocks, i)

/-! ## Directories -/

/-- `fn`, the name of the record at `s`. -/
def fileName (m : Memory) (s : ℕ) : List UInt8 :=
  readString m (s + DIR_FILE_NAME) (readByte m (s + DIR_NAME_LEN))

/-- One pass of the loop over the records of a block of `len` bytes. The state is the offset of `s`
in the buffer, and `inode`. The loop leaves with `inode`, or with `none` if a record starts in front
of the buffer. -/
def scan (m : Memory) (len : ℕ) (target : List UInt8) (x : ℤ × ℤ) : Pass (ℤ × ℤ) (Option ℤ) :=
  if x.1 < len then
    if x.1 < 0 then .leave none
    else
      let s := x.1.toNat
      let inode := if fileName m s = target then readInt m s else x.2
      .again (x.1 + readShort m (s + DIR_REC_LEN), inode)
  else .leave (some x.2)

/-- `search_dir`: the loop over the blocks, where each loop over the records makes at most `fuel`
passes. A block is read over the bytes of the block before it. The result is `none` if `fuel` is too
small, and `some none` if a record starts in front of the buffer. -/
def searchDir (disk : ℤ → Option (List UInt8)) (target : List UInt8) (fuel : ℕ) :
    List ℤ → Memory → ℤ → Option (Option ℤ)
  | [], _, inode => some (some inode)
  | b :: blocks, buffer, inode =>
    match disk b with
    | none => some (some (-1))
    | some bytes =>
      match Loop.iterate (scan (overlay bytes buffer) bytes.length target) fuel (0, inode) with
      | none => none
      | some none => some none
      | some (some inode) => searchDir disk target fuel blocks (overlay bytes buffer) inode

end Sem3.Fs
