import Sem3.Memory.Spec
import Mathlib.Tactic.Ring

/-!
# Proofs: the size arithmetic of the allocator

With `SIZE + BLOCKSIZE < 2 ^ 31` none of the conversions between `int` and `unsigned int` changes a
value, so the sizes that `mem_alloc` and `add_memblock` compute are those of `roundUp`.
-/

namespace Sem3.Memory

theorem le_roundUp (blocksize n : ℕ) (h : 0 < blocksize) : n ≤ roundUp blocksize n := by
  have hdiv := Nat.div_add_mod' n blocksize
  have hmod := Nat.mod_lt n h
  unfold roundUp
  split_ifs <;> omega

theorem toNat_div_mul (x y : UInt32) : (x / y * y).toNat = x.toNat / y.toNat * y.toNat := by
  have hle := Nat.div_mul_le_self x.toNat y.toNat
  have hx := x.toNat_lt
  rw [UInt32.toNat_mul, UInt32.toNat_div, Nat.mod_eq_of_lt (by omega)]

theorem toNat_add_of_lt {x y : UInt32} (h : x.toNat + y.toNat < 2 ^ 32) :
    (x + y).toNat = x.toNat + y.toNat := by
  rw [UInt32.toNat_add, Nat.mod_eq_of_lt h]

theorem toNat_sub_of_le {x y : UInt32} (h : y.toNat ≤ x.toNat) :
    (x - y).toNat = x.toNat - y.toNat :=
  UInt32.toNat_sub_of_le x y (UInt32.le_iff_toNat_le.2 h)

theorem toNat_pos_iff (x : UInt32) : 0 < x.toNat ↔ x ≠ 0 := by
  rw [Nat.pos_iff_ne_zero, ne_eq, ne_eq, ← UInt32.toNat_inj, UInt32.toNat_zero]

/-- Below `2 ^ 31` an `unsigned int` keeps its value as an `int`. -/
theorem toInt32_pos_iff {x : UInt32} (h : x.toNat < 2 ^ 31) : 0 < x.toInt32 ↔ x ≠ 0 := by
  have hx : x.toInt32.toInt = x.toNat := by
    show x.toBitVec.toInt = x.toNat
    rw [BitVec.toInt_eq_toNat_of_lt]
    · rfl
    · have : x.toBitVec.toNat = x.toNat := rfl
      omega
  rw [Int32.lt_iff_toInt_lt, hx, Int32.toInt_zero, ← toNat_pos_iff]
  omega

/-- The rounding in `mem_alloc` and `add_memblock`, on `unsigned int`. -/
def rounded (blocksize size : UInt32) : UInt32 :=
  if size / blocksize * blocksize < size then size / blocksize * blocksize + blocksize
  else size / blocksize * blocksize

/-- The rounding of the program is rounding up, as long as it does not overflow. -/
theorem rounded_toNat (blocksize size : UInt32) (h : size.toNat + blocksize.toNat < 2 ^ 32) :
    (rounded blocksize size).toNat = roundUp blocksize.toNat size.toNat := by
  have hle := Nat.div_mul_le_self size.toNat blocksize.toNat
  unfold rounded roundUp
  simp only [UInt32.lt_iff_toNat_lt, toNat_div_mul]
  split_ifs with hlt
  · rw [toNat_add_of_lt (by rw [toNat_div_mul]; omega), toNat_div_mul]
  · exact toNat_div_mul ..

theorem blocksFor_eq (blocksize size : UInt32) :
    (blocksFor blocksize size).toUInt32 = rounded blocksize size := by
  have hzero : (size / blocksize * blocksize).toInt32 = 0 ∧ size % blocksize > 0 →
      size / blocksize * blocksize < size := by
    intro ⟨h0, hmod⟩
    have hb : size / blocksize * blocksize = 0 := congrArg Int32.toUInt32 h0
    rw [hb, UInt32.lt_iff_toNat_lt, UInt32.toNat_zero]
    rw [gt_iff_lt, UInt32.lt_iff_toNat_lt, UInt32.toNat_zero, UInt32.toNat_mod] at hmod
    exact lt_of_lt_of_le hmod (Nat.mod_le ..)
  have hcond : ((size / blocksize * blocksize).toInt32 = 0 ∧ size % blocksize > 0) ∨
      size / blocksize * blocksize < size ↔ size / blocksize * blocksize < size :=
    ⟨fun h => h.elim hzero id, Or.inr⟩
  unfold blocksFor rounded
  simp only [UInt32.toUInt32_toInt32, hcond]
  split_ifs <;> rfl

/-- `add_memblock` splits the block if it is larger than the rounded request. -/
theorem addMemblock_eq (blocksize size : UInt32) (current : Memblock) :
    addMemblock blocksize size current =
      { current with status := .used, inUse := size, size := rounded blocksize size } ::
      if 0 < (current.size - rounded blocksize size).toInt32 then
        [{ status := .free_, addr := current.addr + (rounded blocksize size).toNat,
           size := current.size - rounded blocksize size, inUse := 0 }]
      else [] := by
  have hite : ∀ c : Prop, ∀ _ : Decidable c, ∀ x y : UInt32,
      (if c then x.toInt32 else y.toInt32).toUInt32 = if c then x else y := by
    intro c _ x y
    split_ifs <;> rfl
  unfold addMemblock rounded
  simp only [UInt32.toUInt32_toInt32, hite]
  split_ifs <;> rfl

/-- The nodes that `add_memblock` leaves in the place of a block that is large enough. -/
theorem addMemblock_spec {blocksize size : UInt32} {current : Memblock}
    (hsize : size.toNat + blocksize.toNat < 2 ^ 31) (hlt : current.len < 2 ^ 31)
    (hfit : roundUp blocksize.toNat size.toNat ≤ current.len) :
    ∃ taken left : UInt32, taken.toNat = roundUp blocksize.toNat size.toNat ∧
      taken.toNat + left.toNat = current.len ∧
      addMemblock blocksize size current =
        { status := .used, addr := current.addr, size := taken, inUse := size } ::
        if left = 0 then [] else
          [{ status := .free_, addr := current.addr + taken.toNat, size := left, inUse := 0 }] := by
  have htaken := rounded_toNat blocksize size (by omega)
  have hlen : current.len = current.size.toNat := rfl
  have hleft : (current.size - rounded blocksize size).toNat =
      current.len - (rounded blocksize size).toNat :=
    toNat_sub_of_le (by rw [htaken]; exact hfit)
  refine ⟨rounded blocksize size, current.size - rounded blocksize size, htaken, by omega, ?_⟩
  have hpos := toInt32_pos_iff (x := current.size - rounded blocksize size) (by omega)
  rw [addMemblock_eq]
  simp only [hpos, ne_eq, ite_not]

end Sem3.Memory
