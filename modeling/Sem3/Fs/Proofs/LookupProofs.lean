import Sem3.Fs.Proofs.ScanProofs
import Mathlib.Data.List.Basic

/-!
# Proofs: the result of a directory search

In a directory whose blocks are made of well-formed records, `search_dir` takes the inode of the last
record with the name. A deleted record has the inode zero, and hides the live one if it lies behind.
-/

namespace Sem3.Fs

open Bytes (Memory readByte readShort readInt overlay)
open Loop (iterate)

variable {m buffer : Memory} {fuel : ℕ} {inode i : ℤ} {target : List UInt8}
  {disk : ℤ → Option (List UInt8)} {blocks : List ℤ} {pre post r : List UInt8}
  {rs xs ys : List (List UInt8)} {recs : List (List (List UInt8))}

/-! ## Records -/

/-- What one record does to `inode`. -/
def found (target : List UInt8) (inode : ℤ) (r : List UInt8) : ℤ :=
  if nameOf r = target then inodeOf r else inode

/-! ## The scan of a block -/

/-- The buffer has the bytes of a record where the record stands. -/
theorem overlay_record {p : ℕ} (hp : p < r.length) :
    overlay (pre ++ (r ++ post)) buffer (pre.length + p) = recordMemory r p := by
  rw [Bytes.overlay_append (by rw [List.length_append]; omega), List.getElem_append_left hp,
    recordMemory, Bytes.overlay_of_lt hp]

/-- At the beginning of a record the scan reads the fields of the record. -/
theorem scan_record (hr : WellFormed r) (pre post : List UInt8) (buffer : Memory)
    (target : List UInt8) (inode : ℤ) :
    scan (overlay (pre ++ (r ++ post)) buffer) (pre ++ (r ++ post)).length target
        ((pre.length : ℕ), inode) =
      .again (((pre ++ r).length : ℕ), found target inode r) := by
  have hlen : 8 ≤ r.length := (Nat.le_add_left 8 _).trans hr.nameLen
  have hbyte : ∀ {q n : ℕ}, q + n ≤ r.length → ∀ k < n,
      overlay (pre ++ (r ++ post)) buffer (pre.length + q + k) = recordMemory r (q + k) := by
    intro q n hq k hk
    rw [Nat.add_assoc]
    exact overlay_record (by omega)
  have hshort : readShort (overlay (pre ++ (r ++ post)) buffer) (pre.length + DIR_REC_LEN) =
      r.length := by
    rw [← hr.recLen]
    exact Bytes.readShort_congr (hbyte (by show 4 + 2 ≤ _; omega))
  have hint : readInt (overlay (pre ++ (r ++ post)) buffer) pre.length = inodeOf r :=
    Bytes.readInt_congr (hbyte (q := 0) (by omega))
  have hname : fileName (overlay (pre ++ (r ++ post)) buffer) pre.length = nameOf r := by
    have hlength : readByte (overlay (pre ++ (r ++ post)) buffer) (pre.length + DIR_NAME_LEN) =
        readByte (recordMemory r) DIR_NAME_LEN :=
      congrArg UInt8.toNat (overlay_record (by show 6 < _; omega))
    rw [fileName, hlength, nameOf, fileName, Nat.zero_add, Nat.zero_add]
    exact Bytes.readString_congr (hbyte (by
      have := hr.nameLen
      show 8 + _ ≤ _
      omega))
  rw [scan, if_pos (by simp only [List.length_append]; omega), if_neg (by simp)]
  simp only [Int.toNat_natCast, hshort, hint, hname, found, List.length_append, Int.natCast_add]

/-- The scan of a block goes through its records in their order. -/
theorem iterate_scan_records (hrs : ∀ r ∈ rs, WellFormed r) (pre : List UInt8) (inode : ℤ)
    (hfuel : rs.length < fuel) :
    iterate (scan (overlay (pre ++ rs.flatten) buffer) (pre ++ rs.flatten).length target) fuel
        ((pre.length : ℕ), inode) =
      some (some (rs.foldl (found target) inode)) := by
  induction rs generalizing pre inode fuel with
  | nil =>
    obtain _ | fuel := fuel
    · exact absurd hfuel (Nat.not_lt_zero _)
    · refine Loop.iterate_succ_leave ?_ fuel
      rw [scan, if_neg (by simp)]
      rfl
  | cons r rs ih =>
    obtain _ | fuel := fuel
    · exact absurd hfuel (Nat.not_lt_zero _)
    · have hstep := scan_record (hrs r List.mem_cons_self) pre rs.flatten buffer target inode
      have hrest := ih (fun r' hr' => hrs r' (List.mem_cons_of_mem r hr')) (pre ++ r)
        (found target inode r) (Nat.lt_of_succ_lt_succ hfuel)
      rw [List.append_assoc] at hrest
      rw [List.flatten_cons, Loop.iterate_succ_again hstep, hrest]
      rfl

/-! ## The search -/

/-- The search goes through the records of all blocks. -/
theorem searchDir_eq (hdir : Directory disk blocks recs) (buffer : Memory) (inode : ℤ)
    (hfuel : recs.flatten.length < fuel) :
    searchDir disk target fuel blocks buffer inode =
      some (some (recs.flatten.foldl (found target) inode)) := by
  induction hdir generalizing buffer inode with
  | nil => rfl
  | @cons b rs blocks recs hb hdir ih =>
    rw [List.flatten_cons, List.length_append] at hfuel
    have hscan : iterate (scan (overlay rs.flatten buffer) rs.flatten.length target) fuel
        (0, inode) = some (some (rs.foldl (found target) inode)) :=
      iterate_scan_records hb.2 [] inode (by omega)
    rw [searchDir, hb.1, List.flatten_cons, List.foldl_append]
    simp only [hscan]
    exact ih _ _ (by omega)

/-! ## The result -/

/-- Records with the name, if there are any, and all of them deleted, make `inode` zero. -/
theorem foldl_found_of_deleted (hrs : ∀ r ∈ rs, nameOf r = target → inodeOf r = 0) (i : ℤ) :
    rs.foldl (found target) i = if ∃ r ∈ rs, nameOf r = target then 0 else i := by
  induction rs generalizing i with
  | nil => simp
  | cons r rs ih =>
    have hrest := ih (fun r' hr' => hrs r' (List.mem_cons_of_mem r hr')) (found target i r)
    rw [List.foldl_cons, hrest]
    by_cases hr : nameOf r = target
    · simp [found, hr, hrs r List.mem_cons_self hr]
    · simp [found, hr]

/-- The search is right if and only if the fold over the records finds the live one. -/
theorem findsLive_iff_foldl (hdir : Directory disk blocks recs) :
    FindsLive disk target blocks buffer recs.flatten ↔
      recs.flatten.foldl (found target) 0 = liveInode target recs.flatten := by
  constructor
  · rintro ⟨fuel, h⟩
    have hlarge := searchDir_mono (Nat.le_max_left fuel (recs.flatten.length + 1)) h
    rw [searchDir_eq hdir buffer 0 (by omega)] at hlarge
    exact Option.some.inj (Option.some.inj hlarge)
  · intro h
    exact ⟨_, (searchDir_eq hdir buffer 0 (Nat.lt_succ_self _)).trans (by rw [h])⟩

/-- Around the only live record with the name, all others with it are deleted. -/
theorem deleted_of_unique (honly : ((xs ++ r :: ys).filter fun r => Found target r).length ≤ 1)
    (hr : Found target r) :
    (∀ d ∈ xs, ¬ Found target d) ∧ ∀ d ∈ ys, ¬ Found target d := by
  rw [List.filter_append, List.filter_cons_of_pos (by simpa using hr), List.length_append,
    List.length_cons] at honly
  have hxs : (xs.filter fun r => Found target r) = [] := List.length_eq_zero_iff.1 (by omega)
  have hys : (ys.filter fun r => Found target r) = [] := List.length_eq_zero_iff.1 (by omega)
  rw [List.filter_eq_nil_iff] at hxs hys
  exact ⟨fun d hd => by simpa using hxs d hd, fun d hd => by simpa using hys d hd⟩

/-- A record with the name that the search does not take is a deleted one. -/
theorem eq_zero_of_not_found (hr : ¬ Found target r) (hname : nameOf r = target) :
    inodeOf r = 0 := by
  by_contra hne
  exact hr ⟨hne, hname⟩

/-- With a live record, the search gives its inode, or zero if the name comes again. -/
theorem foldl_found_of_live (hxs : ∀ d ∈ xs, ¬ Found target d) (hys : ∀ d ∈ ys, ¬ Found target d)
    (hr : Found target r) :
    (xs ++ r :: ys).foldl (found target) 0 =
        (if ∃ d ∈ ys, nameOf d = target then 0 else inodeOf r) ∧
      liveInode target (xs ++ r :: ys) = inodeOf r := by
  constructor
  · rw [List.foldl_append, List.foldl_cons, foldl_found_of_deleted fun d hd =>
      eq_zero_of_not_found (hys d hd), found, if_pos hr.2]
  · have hfind : (xs ++ r :: ys).find? (fun r => Found target r) = some r := by
      rw [List.find?_append, List.find?_eq_none.2 (by simpa using hxs), Option.none_or,
        List.find?_cons_of_pos (by simpa using hr)]
    rw [liveInode, hfind]

/-- The live record is found exactly if no deleted record with its name lies behind it. -/
theorem findsLive_iff (hdir : Directory disk blocks recs) (target : List UInt8) (buffer : Memory)
    (honly : (recs.flatten.filter fun r => Found target r).length ≤ 1) :
    FindsLive disk target blocks buffer recs.flatten ↔
      ∀ xs r ys, recs.flatten = xs ++ r :: ys → Found target r →
        ∀ d ∈ ys, nameOf d = target → inodeOf d ≠ 0 := by
  rw [findsLive_iff_foldl hdir]
  generalize recs.flatten = rs at honly
  constructor
  · rintro h xs r ys rfl hr d hd hname
    obtain ⟨hxs, hys⟩ := deleted_of_unique honly hr
    obtain ⟨hfold, hlive⟩ := foldl_found_of_live hxs hys hr
    rw [hfold, hlive, if_pos ⟨d, hd, hname⟩] at h
    exact absurd h.symm hr.1
  · intro h
    by_cases hfound : ∃ r ∈ rs, Found target r
    · obtain ⟨r, hmem, hr⟩ := hfound
      obtain ⟨xs, ys, rfl⟩ := List.append_of_mem hmem
      obtain ⟨hxs, hys⟩ := deleted_of_unique honly hr
      obtain ⟨hfold, hlive⟩ := foldl_found_of_live hxs hys hr
      rw [hfold, hlive, if_neg]
      rintro ⟨d, hd, hname⟩
      exact hys d hd ⟨h xs r ys rfl hr d hd hname, hname⟩
    · have hdeleted : ∀ r ∈ rs, ¬ Found target r := fun r hr hfound' => hfound ⟨r, hr, hfound'⟩
      rw [foldl_found_of_deleted fun r hr => eq_zero_of_not_found (hdeleted r hr), ite_self,
        liveInode, List.find?_eq_none.2 (by simpa using hdeleted)]

/-! ## The name `etc` -/

/-- The name `etc`. -/
def etc : List UInt8 := [101, 116, 99]

/-- A record of 12 bytes with the name. -/
def etcRecord (inode : UInt8) : List UInt8 := [inode, 0, 0, 0, 12, 0, 3, 2, 101, 116, 99, 0]

/-- A directory of one block with a live and a deleted record. -/
theorem directory_etc {i j : UInt8} (hi : WellFormed (etcRecord i)) (hj : WellFormed (etcRecord j)) :
    Directory (fun _ => some (etcRecord i ++ etcRecord j)) [7] [[etcRecord i, etcRecord j]] := by
  refine .cons ⟨by simp, ?_⟩ .nil
  intro r hr
  rcases List.mem_pair.1 hr with rfl | rfl
  · exact hi
  · exact hj

theorem wellFormed_live : WellFormed (etcRecord 12) := ⟨by decide, by decide⟩

theorem wellFormed_deleted : WellFormed (etcRecord 0) := ⟨by decide, by decide⟩

/-- A directory with a deleted record in front of a live one. -/
theorem findsLive_iff_etc :
    FindsLive (fun _ => some (etcRecord 0 ++ etcRecord 12)) etc [7] (fun _ => 0)
        [etcRecord 0, etcRecord 12] ↔
      ∀ xs r ys, [etcRecord 0, etcRecord 12] = xs ++ r :: ys → Found etc r →
        ∀ d ∈ ys, nameOf d = etc → inodeOf d ≠ 0 :=
  findsLive_iff (directory_etc wellFormed_deleted wellFormed_live) etc _ (by decide)

/-- The deleted record lies behind the live one. -/
theorem not_findsLive_etc :
    searchDir (fun _ => some (etcRecord 12 ++ etcRecord 0)) etc 3 [7] (fun _ => 0) 0 =
        some (some 0) ∧
      ¬ ∀ (disk : ℤ → Option (List UInt8)) (blocks : List ℤ) (recs : List (List (List UInt8)))
        (target : List UInt8) (buffer : Memory), Directory disk blocks recs →
          (recs.flatten.filter fun r => Found target r).length ≤ 1 →
            FindsLive disk target blocks buffer recs.flatten := by
  have hdir := directory_etc wellFormed_live wellFormed_deleted
  refine ⟨(searchDir_eq hdir _ 0 (by decide)).trans (by decide), fun h => ?_⟩
  have hfinds := h _ _ _ etc (fun _ => 0) hdir (by decide)
  rw [findsLive_iff_foldl hdir] at hfinds
  exact absurd hfinds (by decide)

end Sem3.Fs
