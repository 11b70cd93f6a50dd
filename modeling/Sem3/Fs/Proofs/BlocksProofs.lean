import Sem3.Fs.Spec
import Mathlib.Data.List.Range

/-!
# Proofs: the blocks of a file

Each loop writes a list of numbers over the array, from the index on that it starts with, and cuts
the list off at the capacity. The loop over the leaf nodes writes what its inner loops write one
behind the other.
-/

namespace Sem3.Fs

open Bytes (Memory readShort readInt readLE)

variable {blocks xs ys : List ℤ} {m : Memory} {f : ℕ → ℤ} {b blockSize n : ℤ} {c i j k s e : ℕ}

/-! ## Writing a list -/

/-- The array with the elements of the list from index `i` on. -/
def write (blocks : List ℤ) : ℕ → List ℤ → List ℤ
  | _, [] => blocks
  | i, b :: xs => write (blocks.set i b) (i + 1) xs

/-- Two sequences are written one behind the other. -/
theorem write_append :
    write blocks i (xs ++ ys) = write (write blocks i xs) (i + xs.length) ys := by
  induction xs generalizing blocks i with
  | nil => rfl
  | cons b xs ih =>
    rw [List.cons_append, write, ih, write, List.length_cons, Nat.add_assoc, Nat.add_comm 1]

/-- An array that the list fits into. -/
theorem write_eq (h : i + xs.length ≤ blocks.length) :
    write blocks i xs = blocks.take i ++ xs ++ blocks.drop (i + xs.length) := by
  induction xs generalizing blocks i with
  | nil => simp [write]
  | cons b xs ih =>
    rw [List.length_cons] at h
    have hi : i < blocks.length := by omega
    have htake : (blocks.set i b).take (i + 1) = blocks.take i ++ [b] := by
      rw [List.take_succ_eq_append_getElem (by rwa [List.length_set]), List.getElem_set_self,
        List.take_set_of_le le_rfl]
    rw [write, ih (by rw [List.length_set]; omega), htake, List.drop_set_of_lt (by omega),
      List.append_assoc, List.append_assoc, List.append_assoc, List.length_cons, Nat.add_assoc,
      Nat.add_comm 1]
    rfl

theorem length_write : (write blocks i xs).length = blocks.length := by
  induction xs generalizing blocks i with
  | nil => rfl
  | cons b xs ih => rw [write, ih, List.length_set]

/-! ## Loops -/

/-- The loop writes the numbers that are left, as far as there is room for them. -/
theorem fillLoop_eq (hc : c ≤ blocks.length) (hi : i ≤ c) {n k : ℕ} (hk : k ≤ n) :
    fillLoop f n c k i blocks =
      some (i + min (n - k) (c - i),
        write blocks i (((List.range' k (n - k)).map f).take (c - i))) := by
  induction hd : n - k generalizing k i blocks with
  | zero =>
    rw [fillLoop, dif_neg (by omega), Nat.zero_min, Nat.add_zero, List.range'_zero, List.map_nil,
      List.take_nil, write]
  | succ d ih =>
    by_cases hroom : i < c
    · have hc' : c ≤ (blocks.set i (f k)).length := by rwa [List.length_set]
      have hrest := ih (k := k + 1) (i := i + 1) hc' (by omega) (by omega) (by omega)
      rw [fillLoop, dif_pos (by omega), store, if_pos (by omega)]
      refine hrest.trans ?_
      rw [List.range'_succ, List.map_cons, show c - i = c - (i + 1) + 1 by omega,
        List.take_succ_cons, write, Nat.succ_min_succ]
      simp only [Nat.add_assoc, Nat.add_comm 1]
    · rw [fillLoop, dif_neg (by omega), show c - i = 0 by omega, List.take_zero, write,
        Nat.min_zero, Nat.add_zero]

/-! ## Extents -/

theorem length_extent (m : Memory) (j : ℕ) : (extent m j).length = (extentLength m j).toNat := by
  rw [extent, List.length_map, List.length_range]

/-- The loop writes the blocks of the extent as far as there is room for them. -/
theorem extentLoop_eq (hc : c ≤ blocks.length) (hi : i ≤ c) (hn : 0 ≤ extentLength m j) :
    extentLoop m (INODE_FILE_BLOCKS + 12 + 12 * j) c i blocks =
      some (i + min (extent m j).length (c - i), write blocks i ((extent m j).take (c - i))) := by
  have hloop := fillLoop_eq (f := extentBlock m j) hc hi (Nat.zero_le (extentLength m j).toNat)
  rw [Int.toNat_of_nonneg hn, Nat.sub_zero, ← List.range_eq_range'] at hloop
  rw [length_extent]
  exact hloop

theorem room_left (a i c : ℕ) : c - (i + min a (c - i)) = c - i - a := by
  omega

/-- Two extents that are cut off in turn are cut off together. -/
theorem min_add_min_sub (a b r : ℕ) : min a r + min b (r - a) = min (a + b) r := by
  omega

/-- The loop writes the numbers of the extents that are left, as far as there is room for them. -/
theorem leafLoop_eq (hc : c ≤ blocks.length) (hi : i ≤ c) (hn : ∀ j < e, 0 ≤ extentLength m j)
    (hj : j ≤ e) :
    leafLoop m e c j (INODE_FILE_BLOCKS + 12 + 12 * j) i blocks =
      some (i + min ((List.range' j (e - j)).flatMap (extent m)).length (c - i),
        write blocks i (((List.range' j (e - j)).flatMap (extent m)).take (c - i))) := by
  induction hd : e - j generalizing j i blocks with
  | zero =>
    rw [leafLoop, dif_neg (by omega), List.range'_zero, List.flatMap_nil, List.length_nil,
      Nat.zero_min, Nat.add_zero, List.take_nil, write]
  | succ d ih =>
    by_cases hroom : i < c
    · have hextent := extentLoop_eq (j := j) hc hi (hn j (by omega))
      have hc' : c ≤ (write blocks i ((extent m j).take (c - i))).length := by rwa [length_write]
      have hrest := ih (j := j + 1) (i := i + min (extent m j).length (c - i)) hc' (by omega)
        (by omega) (by omega)
      rw [show INODE_FILE_BLOCKS + 12 + 12 * (j + 1) = INODE_FILE_BLOCKS + 12 + 12 * j + 12 by
        omega] at hrest
      rw [leafLoop, dif_pos (by omega), hextent]
      refine hrest.trans ?_
      rw [List.range'_succ, List.flatMap_cons, List.length_append, List.take_append, write_append,
        List.length_take, room_left, Nat.min_comm (c - i), Nat.add_assoc, min_add_min_sub]
    · rw [leafLoop, dif_neg (by omega), show c - i = 0 by omega, List.take_zero, write,
        Nat.min_zero, Nat.add_zero]

/-- The lengths of the extents add up to the number of blocks. -/
theorem length_extents (m : Memory) : (extents m).length = blockCount m := by
  rw [extents, List.length_flatMap, blockCount]
  simp only [length_extent]

/-- The first numbers of the extents, as many as there is room for, come to the beginning of the
array, and nothing is stored behind them. -/
theorem getDataBlocks_extents (blockSize : ℤ) (hflag : readLE m INODE_FLAGS 4 &&& 0x80000 ≠ 0)
    (he : 0 ≤ entries m) (hn : ∀ j : ℕ, j < entries m → 0 ≤ extentLength m j)
    (hc : c ≤ blocks.length) :
    getDataBlocks blockSize m blocks c =
      some (readInt m INODE_FILE_SIZE,
        (extents m).take (min c (blockCount m)) ++ blocks.drop (min c (blockCount m)),
        ((min c (blockCount m) : ℕ) : ℤ)) := by
  have hloop : leafLoop m (entries m) c 0 (INODE_FILE_BLOCKS + 12) 0 blocks =
      some (min (extents m).length c, write blocks 0 ((extents m).take c)) := by
    have hleaf := leafLoop_eq (e := (entries m).toNat) (j := 0) hc (Nat.zero_le c)
      (fun j hj => hn j (by omega)) (Nat.zero_le _)
    rw [Int.toNat_of_nonneg he, Nat.sub_zero, Nat.sub_zero, ← List.range_eq_range', Nat.zero_add,
      Nat.mul_zero, Nat.add_zero] at hleaf
    exact hleaf
  rw [← length_extents]
  have htake : (extents m).take (min c (extents m).length) = (extents m).take c := by
    rw [← List.take_take, List.take_length]
  have hwrite : write blocks 0 ((extents m).take c) =
      (extents m).take c ++ blocks.drop (min c (extents m).length) := by
    rw [write_eq (by rw [List.length_take]; omega), List.take_zero, List.nil_append, Nat.zero_add,
      List.length_take]
  have hresult : getDataBlocks blockSize m blocks c =
      (leafLoop m (entries m) c 0 (INODE_FILE_BLOCKS + 12) 0 blocks).bind fun x =>
        some (readInt m INODE_FILE_SIZE, x.2, (x.1 : ℤ)) := by
    rw [getDataBlocks, if_neg hflag]
    rfl
  rw [hresult, hloop, Option.bind_some, hwrite, htake, Nat.min_comm]

/-- An inode with two extents, of the blocks 5 and 6 and of the blocks 9, 10 and 11. -/
def twoExtents : Memory := fun p =>
  if p = 34 then 8
  else if p = 42 then 2
  else if p = 56 then 2
  else if p = 60 then 5
  else if p = 68 then 3
  else if p = 72 then 9
  else 0

/-- The capacity ends inside the second extent, and the element behind it is left as it was. -/
theorem getDataBlocks_twoExtents :
    getDataBlocks 4096 twoExtents [0, 0, 0, 0, 1] 4 = some (0, [5, 6, 9, 10, 1], 4) := by
  have hentries : entries twoExtents = 2 := by decide
  have hroom : 4 ≤ ([0, 0, 0, 0, 1] : List ℤ).length := by decide
  refine (getDataBlocks_extents (m := twoExtents) 4096 (by decide) (by decide) (fun j hj => ?_)
    hroom).trans (by decide)
  obtain rfl | rfl : j = 0 ∨ j = 1 := by omega
  · decide
  · decide

/-! ## Direct blocks -/

/-- The loop counts whole blocks. -/
theorem getDataBlocks_direct {size bs : ℕ} (hflag : readLE m INODE_FLAGS 4 &&& 0x80000 = 0)
    (hsize : readInt m INODE_FILE_SIZE = size) (hbs : 0 < bs) (hc : c ≤ blocks.length) :
    getDataBlocks bs m blocks c =
      some ((size : ℤ), (List.range (min c (size / bs))).map (directBlock m) ++
        blocks.drop (min c (size / bs)), ((min c (size / bs) : ℕ) : ℤ)) := by
  have hloop := fillLoop_eq (f := directBlock m) hc (Nat.zero_le c) (Nat.zero_le (size / bs))
  rw [Nat.sub_zero, Nat.sub_zero, ← List.range_eq_range', Nat.zero_add, ← List.map_take,
    List.take_range, Nat.min_comm,
    write_eq (by rw [List.length_map, List.length_range]; omega), List.take_zero, List.nil_append,
    Nat.zero_add, List.length_map, List.length_range] at hloop
  have hresult : getDataBlocks bs m blocks c =
      (fillLoop (directBlock m) ((size / bs : ℕ) : ℤ) c 0 0 blocks).bind fun x =>
        some ((size : ℤ), x.2, (x.1 : ℤ)) := by
    rw [getDataBlocks, if_pos hflag, if_neg (by omega), hsize, ← Int.ofNat_tdiv]
    rfl
  rw [hresult, hloop, Option.bind_some]

/-- A size that is a multiple of the block size needs no further block. -/
theorem blocksNeeded_of_dvd {size bs : ℕ} (hbs : 0 < bs) (h : bs ∣ size) :
    blocksNeeded size bs = size / bs := by
  obtain ⟨k, rfl⟩ := h
  rw [blocksNeeded, Nat.mul_div_cancel_left k hbs, Nat.add_sub_assoc hbs, Nat.mul_add_div hbs,
    Nat.div_eq_of_lt (by omega), Nat.add_zero]

theorem blocksNeeded_of_not_dvd {size bs : ℕ} (hbs : 0 < bs) (h : ¬ bs ∣ size) :
    blocksNeeded size bs = size / bs + 1 := by
  have hmod : size % bs ≠ 0 := fun h0 => h (Nat.dvd_of_mod_eq_zero h0)
  have hsplit := Nat.div_add_mod size bs
  have hlt := Nat.mod_lt size hbs
  have hlast : (size % bs + bs - 1) / bs = 1 :=
    Nat.div_eq_of_lt_le (by omega) (by omega)
  rw [blocksNeeded, show size + bs - 1 = bs * (size / bs) + (size % bs + bs - 1) by omega,
    Nat.mul_add_div hbs, hlast]

/-- The last block is left out if it is not full, unless there is no room for it. -/
theorem covers_iff {size bs : ℕ} (hflag : readLE m INODE_FLAGS 4 &&& 0x80000 = 0)
    (hsize : readInt m INODE_FILE_SIZE = size) (hbs : 0 < bs) (hc : c ≤ blocks.length) :
    Covers m size bs c blocks ↔ bs ∣ size ∨ c ≤ size / bs := by
  rw [Covers, getDataBlocks_direct hflag hsize hbs hc]
  constructor
  · intro h
    by_contra hcond
    rw [not_or, not_le] at hcond
    have hcount := (Prod.mk.inj (Prod.mk.inj (Option.some.inj h)).2).2
    rw [blocksNeeded_of_not_dvd hbs hcond.1] at hcount
    omega
  · intro h
    have hcount : min c (blocksNeeded size bs) = min c (size / bs) := by
      rcases h with hdvd | hle
      · rw [blocksNeeded_of_dvd hbs hdvd]
      · by_cases hdvd : bs ∣ size
        · rw [blocksNeeded_of_dvd hbs hdvd]
        · rw [blocksNeeded_of_not_dvd hbs hdvd]
          omega
    rw [hcount]

/-- An inode of a file of one byte, in block 7. -/
def oneByte : Memory := fun p => if p = 4 then 1 else if p = 40 then 7 else 0

/-- A file of one byte, of which no block is read. -/
theorem covers_iff_oneByte :
    Covers oneByte 1 4096 12 (List.replicate 12 0) ↔ 4096 ∣ 1 ∨ 12 ≤ 1 / 4096 :=
  covers_iff (by decide) (by decide) (by decide) le_rfl

/-- The block of the file is left out. -/
theorem not_covers_oneByte :
    getDataBlocks 4096 oneByte (List.replicate 12 0) 12 = some (1, List.replicate 12 0, 0) ∧
      ¬ ∀ (m : Memory) (size bs c : ℕ) (blocks : List ℤ), readLE m INODE_FLAGS 4 &&& 0x80000 = 0 →
        readInt m INODE_FILE_SIZE = size → 0 < bs → blocksNeeded size bs ≤ 12 →
          c ≤ blocks.length → Covers m size bs c blocks := by
  have hsize : readInt oneByte INODE_FILE_SIZE = (1 : ℕ) := by decide
  have hbs : 0 < 4096 := by decide
  have hroom : 12 ≤ (List.replicate 12 (0 : ℤ)).length := le_rfl
  have hresult := getDataBlocks_direct (m := oneByte) (by decide) hsize hbs hroom
  refine ⟨hresult, fun h => ?_⟩
  have hcovers := h oneByte 1 4096 12 (List.replicate 12 0) (by decide) (by decide) (by decide)
    (by decide) le_rfl
  have hcount := (Prod.mk.inj (Prod.mk.inj (Option.some.inj (hresult.symm.trans hcovers))).2).2
  exact absurd hcount (by decide)

end Sem3.Fs
