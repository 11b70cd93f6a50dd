import Sem3.Fs.Spec
import Mathlib.Data.Fintype.Pigeonhole

/-!
# Proofs: the end of a directory scan

Where the next record of a block starts depends on the block alone, so that the scan of a block is a
sequence of offsets. It ends with a record that starts behind the bytes read, or in front of the
buffer, or it comes back to a record and goes on forever.
-/

namespace Sem3.Fs

open Bytes (Memory readShort overlay)
open Loop (iterate)

variable {m buffer : Memory} {len fuel j k n : ℕ} {inode r : ℤ} {target : List UInt8}
  {disk : ℤ → Option (List UInt8)} {blocks : List ℤ}

/-! ## Offsets -/

/-- At a record inside of the block the scan goes on to the next one. -/
theorem scan_of_inside (target : List UInt8) (inode : ℤ) (h : Inside m len k) :
    ∃ inode', scan m len target (offset m k, inode) = .again (offset m (k + 1), inode') := by
  rw [scan, if_pos h.2, if_neg (not_lt.2 h.1)]
  exact ⟨_, rfl⟩

theorem scan_of_behind (h : len ≤ offset m k) :
    scan m len target (offset m k, inode) = .leave (some inode) := by
  rw [scan, if_neg (not_lt.2 h)]

/-- In front of the block the scan reads outside of the buffer. -/
theorem scan_of_front (h : offset m k < 0) :
    scan m len target (offset m k, inode) = .leave none := by
  rw [scan, if_pos (by show offset m k < len; omega), if_pos h]

/-- The scan leaves from a record on if a later one starts behind the bytes read, and the records up
to that one start inside. -/
theorem iterate_scan (target : List UInt8) (hin : ∀ j, k ≤ j → j < k + n → Inside m len j)
    (hend : len ≤ offset m (k + n)) (inode : ℤ) :
    ∃ r, iterate (scan m len target) (n + 1) (offset m k, inode) = some (some r) := by
  induction n generalizing k inode with
  | zero => exact ⟨inode, Loop.iterate_succ_leave (scan_of_behind hend) 0⟩
  | succ n ih =>
    obtain ⟨inode', hagain⟩ := scan_of_inside target inode (hin k le_rfl (by omega))
    rw [Loop.iterate_succ_again hagain]
    refine ih (fun j hj hlt => hin j (by omega) (by omega)) ?_ inode'
    rwa [Nat.add_right_comm]

/-- A scan that ends has only been inside of the block before. -/
theorem exists_of_iterate_scan
    (h : iterate (scan m len target) fuel (offset m k, inode) = some (some r)) :
    ∃ n, k ≤ n ∧ (∀ j, k ≤ j → j < n → Inside m len j) ∧ len ≤ offset m n := by
  induction fuel generalizing k inode with
  | zero => cases h
  | succ fuel ih =>
    by_cases hlt : offset m k < len
    · by_cases hneg : offset m k < 0
      · rw [Loop.iterate_succ_leave (scan_of_front hneg)] at h
        cases h
      · have hin : Inside m len k := ⟨not_lt.1 hneg, hlt⟩
        obtain ⟨inode', hagain⟩ := scan_of_inside target inode hin
        rw [Loop.iterate_succ_again hagain] at h
        obtain ⟨n, hn, hall, hend⟩ := ih h
        refine ⟨n, by omega, fun j hj hlt => ?_, hend⟩
        rcases hj.eq_or_lt with rfl | hj
        · exact hin
        · exact hall j hj hlt
    · exact ⟨k, le_rfl, fun j hj hlt => by omega, not_lt.1 hlt⟩

/-- From equal offsets the scan goes on in the same way. -/
theorem offset_add_eq (h : offset m j = offset m k) (n : ℕ) :
    offset m (j + n) = offset m (k + n) := by
  induction n with
  | zero => exact h
  | succ n ih =>
    rw [← Nat.add_assoc, ← Nat.add_assoc, offset, offset, ih]

/-- While the records lead forward and none starts behind the bytes read, they start inside. -/
theorem Forward.inside (h : Forward m len)
    (hnot : ¬ ∃ n, (∀ j < n, Inside m len j) ∧ len ≤ offset m n) (k : ℕ) : Inside m len k := by
  induction k using Nat.strongRecOn with
  | ind k ih =>
    refine ⟨(h k fun j hj => (ih j hj).2).1, ?_⟩
    by_contra hge
    exact hnot ⟨k, ih, not_lt.1 hge⟩

/-- If all records start inside the bytes read, the scan comes back to one. -/
theorem exists_offset_eq (h : ∀ k, Inside m len k) : ∃ j k, j < k ∧ offset m j = offset m k := by
  have hlt : ∀ k, (offset m k).toNat < len := fun k => (Int.toNat_lt (h k).1).2 (h k).2
  obtain ⟨j, k, hne, heq⟩ :=
    Finite.exists_ne_map_eq_of_infinite fun k => (⟨(offset m k).toNat, hlt k⟩ : Fin len)
  have hsame : offset m j = offset m k := by
    have hj := (h j).1
    have hk := (h k).1
    have := Fin.mk.inj heq
    omega
  rcases hne.lt_or_gt with hlt | hgt
  · exact ⟨j, k, hlt, hsame⟩
  · exact ⟨k, j, hgt, hsame.symm⟩

/-- Records that lead out of the block lead forward. -/
theorem forward_of_end (hin : ∀ j < n, Inside m len j) (hend : len ≤ offset m n) :
    Forward m len := by
  intro k hk
  have hkn : k ≤ n := by
    by_contra hlt
    exact absurd (hk n (not_le.1 hlt)) (not_lt.2 hend)
  refine ⟨?_, fun j hj heq => ?_⟩
  · rcases hkn.eq_or_lt with rfl | hlt
    · exact (Int.natCast_nonneg len).trans hend
    · exact (hin k hlt).1
  · -- the scan comes to the end at an earlier record already
    have hsame := offset_add_eq heq (n - k)
    rw [Nat.add_sub_cancel' hkn] at hsame
    have hlt := (hin (j + (n - k)) (by omega)).2
    omega

/-- The records lead forward if and only if some of them lead out of the block. -/
theorem forward_iff : Forward m len ↔ ∃ n, (∀ j < n, Inside m len j) ∧ len ≤ offset m n := by
  constructor
  · intro h
    by_contra hnot
    have hin := h.inside hnot
    obtain ⟨j, k, hjk, heq⟩ := exists_offset_eq hin
    exact (h k fun i _ => (hin i).2).2 j hjk heq
  · rintro ⟨n, hin, hend⟩
    exact forward_of_end hin hend

/-- Records of positive lengths lead forward. -/
theorem forward_of_pos
    (h : ∀ k, offset m k < len → 0 < readShort m ((offset m k).toNat + DIR_REC_LEN)) :
    Forward m len := by
  intro k hk
  have hmono : ∀ i, i ≤ k → 0 ≤ offset m i ∧ ∀ j < i, offset m j < offset m i := by
    intro i
    induction i with
    | zero => exact fun _ => ⟨le_rfl, fun j hj => absurd hj (Nat.not_lt_zero j)⟩
    | succ i ih =>
      intro hi
      obtain ⟨hnonneg, hbelow⟩ := ih (by omega)
      have hstep : offset m i < offset m (i + 1) :=
        Int.lt_add_of_pos_right (offset m i) (h i (hk i (by omega)))
      refine ⟨hnonneg.trans hstep.le, fun j hj => ?_⟩
      rcases (Nat.lt_succ_iff.1 hj).eq_or_lt with rfl | hlt
      · exact hstep
      · exact (hbelow j hlt).trans hstep
  obtain ⟨hnonneg, hbelow⟩ := hmono k le_rfl
  exact ⟨hnonneg, fun j hj => (hbelow j hj).ne⟩

/-- The scan of a block ends and only looks at records inside exactly if the records lead forward. -/
theorem scan_ends_iff (target : List UInt8) (inode : ℤ) :
    (∃ fuel r, iterate (scan m len target) fuel (0, inode) = some (some r)) ↔ Forward m len := by
  rw [forward_iff]
  constructor
  · rintro ⟨fuel, r, h⟩
    obtain ⟨n, -, hin, hend⟩ := exists_of_iterate_scan (k := 0) h
    exact ⟨n, fun j hj => hin j (Nat.zero_le j) hj, hend⟩
  · rintro ⟨n, hin, hend⟩
    obtain ⟨r, hr⟩ := iterate_scan (k := 0) (n := n) target (fun j _ hj => hin j (by omega))
      (by rwa [Nat.zero_add]) inode
    exact ⟨n + 1, r, hr⟩

/-! ## All blocks -/

theorem searchDir_mono {fuel' : ℕ} (hle : fuel ≤ fuel')
    (h : searchDir disk target fuel blocks buffer inode = some (some r)) :
    searchDir disk target fuel' blocks buffer inode = some (some r) := by
  induction blocks generalizing buffer inode with
  | nil => exact h
  | cons b blocks ih =>
    rw [searchDir] at h ⊢
    cases hb : disk b with
    | none =>
      rw [hb] at h
      exact h
    | some bytes =>
      simp only [hb] at h ⊢
      split at h
      · cases h
      · cases h
      · next inode' hscan =>
        rw [Loop.iterate_mono hle hscan]
        exact ih h

/-- All records that the search comes to start inside the bytes read, and the search ends, exactly if
the records of each block that is read lead forward. -/
theorem searchDir_ends_iff (disk : ℤ → Option (List UInt8)) (target : List UInt8)
    (blocks : List ℤ) (buffer : Memory) (inode : ℤ) :
    (∃ fuel r, searchDir disk target fuel blocks buffer inode = some (some r)) ↔
      ∀ x ∈ scans disk blocks buffer, Forward x.1 x.2 := by
  induction blocks generalizing buffer inode with
  | nil => exact ⟨fun _ => by rintro x ⟨⟩, fun _ => ⟨0, inode, rfl⟩⟩
  | cons b blocks ih =>
    simp only [searchDir, scans]
    cases hb : disk b with
    | none => exact ⟨fun _ => by rintro x ⟨⟩, fun _ => ⟨0, -1, rfl⟩⟩
    | some bytes =>
      simp only [List.forall_mem_cons]
      constructor
      · rintro ⟨fuel, r, h⟩
        split at h
        · cases h
        · cases h
        · next inode' hscan =>
          exact ⟨(scan_ends_iff target inode).1 ⟨fuel, inode', hscan⟩, (ih _ _).1 ⟨fuel, r, h⟩⟩
      · rintro ⟨hfirst, hrest⟩
        obtain ⟨fuel, inode', hscan⟩ := (scan_ends_iff target inode).2 hfirst
        obtain ⟨fuel', r, h⟩ := (ih _ inode').2 hrest
        refine ⟨max fuel fuel', r, ?_⟩
        rw [Loop.iterate_mono (le_max_left fuel fuel') hscan]
        exact searchDir_mono (le_max_right fuel fuel') h

/-- A block of zero bytes: its first record has the length zero. -/
theorem not_searchDir_ends :
    ¬ ∀ (disk : ℤ → Option (List UInt8)) (target : List UInt8) (blocks : List ℤ) (buffer : Memory),
      ∃ fuel r, searchDir disk target fuel blocks buffer 0 = some (some r) := by
  intro h
  obtain ⟨fuel, r, hsearch⟩ := h (fun _ => some (List.replicate 12 0)) [101, 116, 99] [7] fun _ => 0
  simp only [searchDir] at hsearch
  split at hsearch
  · cases hsearch
  · cases hsearch
  · next inode hscan =>
    have hforward := (scan_ends_iff _ 0).1 ⟨fuel, inode, hscan⟩
    refine (hforward 1 fun j hj => ?_).2 0 Nat.zero_lt_one (by decide)
    obtain rfl : j = 0 := by omega
    decide

end Sem3.Fs
