import Sem3.LtSeq.Spec
import Mathlib.Data.List.Infix
import Mathlib.Data.List.TakeDrop

/-!
# Proofs: the longest sequence that occurs twice

`matched` is the greatest lower bound in the order of prefixes. A sequence that occurs at `i` and
again at `j` is a prefix of both parts into which the suffix at `i` is cut at `j - i`, so it is at
most as long as what `matched` finds there.
-/

namespace Sem3.LtSeq

variable {α : Type*} {l x y z : List α}

/-- A sequence occurs where a suffix begins with it. -/
theorem occursAt_iff {s : List α} {i : ℕ} : OccursAt s l i ↔ i ≤ l.length ∧ s <+: l.drop i := by
  constructor
  · rintro ⟨u, v, rfl, rfl⟩
    refine ⟨by simp, v, ?_⟩
    rw [List.append_assoc, List.drop_left]
  · rintro ⟨hi, v, hv⟩
    refine ⟨l.take i, v, ?_, by simpa using hi⟩
    rw [List.append_assoc, hv, List.take_append_drop]

/-! ## The functions on lists -/

theorem take_eq (l : List α) (n : ℕ) : take l n = l.take n := by
  induction l generalizing n with
  | nil => simp [take]
  | cons x xs ih =>
    cases n with
    | zero => simp [take]
    | succ n =>
      have hn : ¬ ((n + 1 : ℕ) : ℤ) ≤ 0 := by omega
      have hpred : ((n + 1 : ℕ) : ℤ) - 1 = n := by omega
      rw [take, if_neg hn, hpred, ih, List.take_succ_cons]

theorem drop_eq (l : List α) (n : ℕ) : drop l n = l.drop n := by
  induction l generalizing n with
  | nil => simp [drop]
  | cons x xs ih =>
    cases n with
    | zero =>
      have hzero : drop xs 0 = xs := ih 0
      simp [drop, hzero]
    | succ n =>
      have hn : ¬ ((n + 1 : ℕ) : ℤ) ≤ 0 := by omega
      have hpred : ((n + 1 : ℕ) : ℤ) - 1 = n := by omega
      rw [drop, if_neg hn, hpred, ih, List.drop_succ_cons]

/-- `suffices` gives the suffixes, the empty one included. -/
theorem suffixes_eq (l : List α) : suffixes l = l.tails := by
  induction l with
  | nil => rfl
  | cons x xs ih => rw [suffixes, ih, List.tails_cons]

section Matched

variable [DecidableEq α]

theorem matched_prefix (x y : List α) : matched x y <+: x ∧ matched x y <+: y := by
  induction x generalizing y with
  | nil => simp [matched]
  | cons a x ih =>
    cases y with
    | nil => simp [matched]
    | cons b y =>
      obtain ⟨hx, hy⟩ := ih y
      rw [matched]
      split_ifs with hab
      · exact ⟨List.cons_prefix_cons.2 ⟨rfl, hx⟩, List.cons_prefix_cons.2 ⟨hab, hy⟩⟩
      · exact ⟨List.nil_prefix, List.nil_prefix⟩

theorem prefix_matched (hx : z <+: x) (hy : z <+: y) : z <+: matched x y := by
  induction z generalizing x y with
  | nil => exact List.nil_prefix
  | cons c z ih =>
    obtain ⟨x', rfl⟩ := hx
    obtain ⟨y', rfl⟩ := hy
    rw [List.cons_append, List.cons_append, matched, if_pos rfl]
    exact List.cons_prefix_cons.2 ⟨rfl, ih (List.prefix_append z x') (List.prefix_append z y')⟩

/-- What a list has in common with its own suffix at `k`, no longer than `k`. -/
def matchAt (l : List α) (k : ℕ) : List α := matched (l.take k) (l.drop k)

/-- With one call for each position from `n` on, `suffixmatches` ends. -/
theorem suffixmatches_eq (l : List α) {bound n k : ℕ} (hn : n + k = l.length) (hbound : k < bound) :
    suffixmatches bound l n = some ((List.range' n (k + 1)).map (matchAt l)) := by
  induction k generalizing n bound with
  | zero =>
    obtain ⟨bound, rfl⟩ : ∃ b, bound = b + 1 := ⟨bound - 1, by omega⟩
    rw [suffixmatches, take_eq, drop_eq, if_pos (by omega)]
    rfl
  | succ k ih =>
    obtain ⟨bound, rfl⟩ : ∃ b, bound = b + 1 := ⟨bound - 1, by omega⟩
    have hrest : suffixmatches bound l ((n : ℤ) + 1) = _ := ih (n := n + 1) (by omega) (by omega)
    rw [suffixmatches, take_eq, drop_eq, if_neg (by omega), hrest, List.range'_succ, List.map_cons]
    rfl

end Matched

/-! ## The longest of a list -/

/-- A longer list comes first. -/
theorem longer_le_zero_iff : longer x y ≤ 0 ↔ y.length ≤ x.length := by
  simp only [longer]
  split_ifs <;> omega

/-- `longestsub` takes a list of the greatest length. -/
theorem longestsub_spec {ls : List (List α)} (hne : ls ≠ []) :
    longestsub ls ∈ ls ∧ ∀ s ∈ ls, s.length ≤ (longestsub ls).length := by
  have htotal : ∀ x y : List α, longer x y ≤ 0 ∨ longer y x ≤ 0 := by
    intro x y
    rw [longer_le_zero_iff, longer_le_zero_iff]
    exact Nat.le_total _ _
  have htrans : ∀ x y z : List α, longer x y ≤ 0 → longer y z ≤ 0 → longer x z ≤ 0 := by
    intro x y z
    simp only [longer_le_zero_iff]
    omega
  unfold longestsub
  split
  · rename_i hnil
    have hperm := Comparator.sort_perm longer ls
    rw [hnil] at hperm
    exact absurd hperm.symm.eq_nil hne
  · rename_i x xs hcons
    obtain ⟨hmem, hle⟩ := Comparator.head_sort htotal htrans hcons
    exact ⟨hmem, fun s hs => longer_le_zero_iff.1 (hle s hs)⟩

theorem length_le_longestsub {ls : List (List α)} {s : List α} (hs : s ∈ ls) :
    s.length ≤ (longestsub ls).length :=
  (longestsub_spec (List.ne_nil_of_mem hs)).2 s hs

/-! ## The result -/

variable [DecidableEq α]

/-- What `lt_seq` takes from one suffix. -/
def longestMatch (l : List α) : List α := longestsub ((List.range' 0 (l.length + 1)).map (matchAt l))

/-- The longest match is the one at some place. -/
theorem exists_longestMatch (l : List α) : ∃ k, longestMatch l = matchAt l k := by
  have hne : (List.range' 0 (l.length + 1)).map (matchAt l) ≠ [] := by simp
  obtain ⟨k, -, hk⟩ := List.mem_map.1 (longestsub_spec hne).1
  exact ⟨k, hk.symm⟩

theorem length_matchAt_le {k : ℕ} (hk : k ≤ l.length) :
    (matchAt l k).length ≤ (longestMatch l).length := by
  refine length_le_longestsub (List.mem_map_of_mem ?_)
  rw [List.mem_range'_1]
  omega

/-- The bound is not reached, and `lt_seq` takes the longest of the matches of all suffixes. -/
theorem ltSeq_eq (l : List α) {bound : ℕ} (hbound : l.length < bound) :
    ltSeq bound l = some (longestsub (l.tails.map longestMatch)) := by
  have hsub : ∀ t ∈ l.tails, (suffixmatches bound t 0).map longestsub = some (longestMatch t) := by
    intro t ht
    have hle := ((List.mem_tails _ _).1 ht).length_le
    rw [← Int.natCast_zero, suffixmatches_eq t (Nat.zero_add _) (by omega)]
    rfl
  have hmap : ∀ ts : List (List α), (∀ t ∈ ts, t ∈ l.tails) →
      ts.mapM (fun t => (suffixmatches bound t 0).map longestsub) =
        some (ts.map longestMatch) := by
    intro ts
    induction ts with
    | nil => exact fun _ => rfl
    | cons t ts ih =>
      intro hts
      rw [List.mapM_cons, hsub t (hts t List.mem_cons_self),
        ih fun s hs => hts s (List.mem_cons_of_mem t hs)]
      rfl
  rw [ltSeq, suffixes_eq, hmap _ fun _ ht => ht]
  rfl

/-- What the beginning of a suffix has in common with a later part occurs at both places. -/
theorem occursTwice_matchAt {t : List α} (ht : t <:+ l) {k : ℕ} (hne : matchAt t k ≠ []) :
    OccursTwice (matchAt t k) l := by
  obtain ⟨u, rfl⟩ := ht
  obtain ⟨hleft, hright⟩ : matchAt t k <+: t.take k ∧ matchAt t k <+: t.drop k :=
    matched_prefix _ _
  have hpos := List.length_pos_iff.2 hne
  have hk := hleft.length_le
  have hlen := hright.length_le
  rw [List.length_take] at hk
  rw [List.length_drop] at hlen
  refine ⟨u.length, u.length + k, by omega, by omega, ?_, ?_⟩
  · rw [occursAt_iff, List.drop_left]
    exact ⟨by simp, hleft.trans (List.take_prefix k t)⟩
  · rw [occursAt_iff, ← List.drop_drop, List.drop_left]
    exact ⟨by rw [List.length_append]; omega, hright⟩

/-- A sequence that occurs twice is a prefix of what is found between its two places. -/
theorem exists_length_le_matchAt {s : List α} (h : OccursTwice s l) :
    ∃ t, t <:+ l ∧ ∃ k ≤ t.length, s.length ≤ (matchAt t k).length := by
  obtain ⟨i, j, hij, hlen, hi, hj⟩ := h
  rw [occursAt_iff] at hi hj
  refine ⟨l.drop i, List.drop_suffix i l, j - i, by rw [List.length_drop]; omega, ?_⟩
  refine (prefix_matched ?_ ?_).length_le
  · exact List.prefix_take_iff.2 ⟨hi.2, by omega⟩
  · rw [List.drop_drop, Nat.add_sub_cancel' hij.le]
    exact hj.2

/-- `lt_seq` ends with a sequence that occurs twice, or an empty one, and none that occurs twice is
longer. -/
theorem exists_ltSeq (l : List α) : ∃ n r, (∀ bound, n ≤ bound → ltSeq bound l = some r) ∧
    (r = [] ∨ OccursTwice r l) ∧ ∀ s, OccursTwice s l → s.length ≤ r.length := by
  refine ⟨l.length + 1, _, fun bound hbound => ltSeq_eq l hbound, ?_, fun s hs => ?_⟩
  · have hself : longestMatch l ∈ l.tails.map longestMatch :=
      List.mem_map_of_mem ((List.mem_tails _ _).2 List.suffix_rfl)
    obtain ⟨t, ht, hr⟩ := List.mem_map.1 (longestsub_spec (List.ne_nil_of_mem hself)).1
    obtain ⟨k, hk⟩ := exists_longestMatch t
    rw [← hr, hk, or_iff_not_imp_left]
    exact occursTwice_matchAt ((List.mem_tails _ _).1 ht)
  · obtain ⟨t, ht, k, hk, hle⟩ := exists_length_le_matchAt hs
    calc s.length ≤ (matchAt t k).length := hle
      _ ≤ (longestMatch t).length := length_matchAt_le hk
      _ ≤ (longestsub (l.tails.map longestMatch)).length :=
        length_le_longestsub (List.mem_map_of_mem ((List.mem_tails _ _).2 ht))

end Sem3.LtSeq
