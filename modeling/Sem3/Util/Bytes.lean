import Mathlib.Algebra.Order.Group.Int
import Mathlib.Algebra.Order.Ring.Nat

/-!
# Bytes in memory

A piece of memory is a function from offsets to bytes. Numbers of several bytes are stored with the
least byte first, and signed ones in two's complement. A list of bytes can be written over the
beginning of a memory (`overlay`); what is read behind a piece of it is read from the rest
(`overlay_append`).
-/

namespace Bytes

/-- The bytes by their addresses. -/
abbrev Memory := ℕ → UInt8

variable {m m' : Memory} {l l' : List UInt8} {p n : ℕ}

/-- The unsigned number of `n` bytes at `p`. -/
def readLE (m : Memory) (p : ℕ) : ℕ → ℕ
  | 0 => 0
  | n + 1 => (m p).toNat + 256 * readLE m (p + 1) n

/-- An unsigned char. -/
def readByte (m : Memory) (p : ℕ) : ℕ := (m p).toNat

/-- A short. -/
def readShort (m : Memory) (p : ℕ) : ℤ := Int.bmod (readLE m p 2) (2 ^ 16)

/-- An int. -/
def readInt (m : Memory) (p : ℕ) : ℤ := Int.bmod (readLE m p 4) (2 ^ 32)

/-- The bytes at `p`, at most `n` of them, up to the first zero byte. -/
def readString (m : Memory) (p n : ℕ) : List UInt8 :=
  ((List.range n).map fun k => m (p + k)).takeWhile (· ≠ 0)

/-- The bytes of the list at the beginning of the memory. -/
def overlay (l : List UInt8) (m : Memory) : Memory := fun p => l.getD p (m p)

/-! ## What a number depends on -/

theorem readLE_congr {q : ℕ} (h : ∀ k < n, m (p + k) = m' (q + k)) :
    readLE m p n = readLE m' q n := by
  induction n generalizing p q with
  | zero => rfl
  | succ n ih =>
    have hhead := h 0 (Nat.succ_pos n)
    have htail : readLE m (p + 1) n = readLE m' (q + 1) n := by
      refine ih fun k hk => ?_
      rw [Nat.add_right_comm, Nat.add_right_comm q]
      exact h (k + 1) (Nat.succ_lt_succ hk)
    rw [readLE, readLE, htail, show m p = m' q from hhead]

theorem readShort_congr {q : ℕ} (h : ∀ k < 2, m (p + k) = m' (q + k)) :
    readShort m p = readShort m' q :=
  congrArg (fun n : ℕ => Int.bmod n (2 ^ 16)) (readLE_congr h)

theorem readInt_congr {q : ℕ} (h : ∀ k < 4, m (p + k) = m' (q + k)) :
    readInt m p = readInt m' q :=
  congrArg (fun n : ℕ => Int.bmod n (2 ^ 32)) (readLE_congr h)

theorem readString_congr {q : ℕ} (h : ∀ k < n, m (p + k) = m' (q + k)) :
    readString m p n = readString m' q n := by
  rw [readString, readString, List.map_congr_left fun k hk => h k (List.mem_range.1 hk)]

/-! ## Overlays -/

theorem overlay_of_lt (h : p < l.length) : overlay l m p = l[p] := by
  rw [overlay, List.getD_eq_getElem?_getD, List.getElem?_eq_getElem h, Option.getD_some]

/-- Behind the first part of a list of bytes stands the second one. -/
theorem overlay_append (h : p < l'.length) : overlay (l ++ l') m (l.length + p) = l'[p] := by
  rw [overlay_of_lt (by rw [List.length_append]; omega), List.getElem_append_right (by omega)]
  simp

end Bytes
