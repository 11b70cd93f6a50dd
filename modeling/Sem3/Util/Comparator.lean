import Mathlib.Data.List.Basic
import Mathlib.Data.List.Nodup
import Mathlib.Data.List.Sort
import Mathlib.Algebra.Order.Group.Int

/-!
# Comparators

A comparator answers with a negative number, zero or a positive number if its first argument is
less than, equal to or greater than the second one. `IsTotalPreorder` says that the answers come
from a total preorder, `IsTotalOrder` that only equal values compare as equal.

The rules say how the three answers combine, that a list is sorted by a comparator, and what
inserting into a sorted list without duplicates does (`insertSorted`).
-/

namespace Comparator

variable {α : Type*} {cmp : α → α → ℤ} {v w x y z : α} {l r : List α}

/-- The comparator orders any two elements, with ties. -/
structure IsTotalPreorder (cmp : α → α → ℤ) : Prop where
  lt_iff_gt : ∀ x y, cmp x y < 0 ↔ 0 < cmp y x
  trans : ∀ x y z, cmp x y ≤ 0 → cmp y z ≤ 0 → cmp x z ≤ 0

/-- The comparator orders any two elements, and there are no ties. -/
structure IsTotalOrder (cmp : α → α → ℤ) : Prop extends IsTotalPreorder cmp where
  eq_iff : ∀ x y, cmp x y = 0 ↔ x = y

namespace IsTotalPreorder

variable (h : IsTotalPreorder cmp)
include h

theorem total (x y : α) : cmp x y ≤ 0 ∨ cmp y x ≤ 0 := by
  have := h.lt_iff_gt y x
  omega

theorem refl (x : α) : cmp x x = 0 := by
  have := h.lt_iff_gt x x
  omega

theorem eq_comm (x y : α) : cmp x y = 0 ↔ cmp y x = 0 := by
  have := h.lt_iff_gt x y
  have := h.lt_iff_gt y x
  omega

theorem eq_trans (hxy : cmp x y = 0) (hyz : cmp y z = 0) : cmp x z = 0 := by
  have hyx := (h.eq_comm x y).1 hxy
  have hzy := (h.eq_comm y z).1 hyz
  have hxz := h.trans x y z hxy.le hyz.le
  have hzx := h.trans z y x hzy.le hyx.le
  have := h.lt_iff_gt x z
  omega

theorem lt_of_lt_of_le (hxy : cmp x y < 0) (hyz : cmp y z ≤ 0) : cmp x z < 0 := by
  have hxz := h.trans x y z hxy.le hyz
  refine lt_of_le_of_ne hxz fun heq => ?_
  have hyx := h.trans y z x hyz ((h.eq_comm x z).1 heq).le
  have := (h.lt_iff_gt x y).1 hxy
  omega

theorem lt_of_le_of_lt (hxy : cmp x y ≤ 0) (hyz : cmp y z < 0) : cmp x z < 0 := by
  have hxz := h.trans x y z hxy hyz.le
  refine lt_of_le_of_ne hxz fun heq => ?_
  have hzy := h.trans z x y ((h.eq_comm x z).1 heq).le hxy
  have := (h.lt_iff_gt y z).1 hyz
  omega

theorem lt_trans (hxy : cmp x y < 0) (hyz : cmp y z < 0) : cmp x z < 0 :=
  h.lt_of_lt_of_le hxy hyz.le

/-- Values that compare as equal belong to the same class. -/
theorem eq_congr (hxy : cmp x y = 0) (w : α) : cmp x w = 0 ↔ cmp y w = 0 :=
  ⟨h.eq_trans ((h.eq_comm x y).1 hxy), h.eq_trans hxy⟩

end IsTotalPreorder

theorem IsTotalOrder.antisymm (h : IsTotalOrder cmp) (hxy : cmp x y ≤ 0) (hyx : cmp y x ≤ 0) :
    x = y := by
  have := h.lt_iff_gt x y
  exact (h.eq_iff x y).1 (by omega)

theorem IsTotalOrder.lt_of_le_of_ne (h : IsTotalOrder cmp) (hxy : cmp x y ≤ 0) (hne : x ≠ y) :
    cmp x y < 0 :=
  hxy.lt_of_ne (mt (h.eq_iff x y).1 hne)

/-- The comparator of a linear order. -/
def ofOrder [LinearOrder α] (x y : α) : ℤ := if x < y then -1 else if x > y then 1 else 0

theorem ofOrder_isTotalOrder [LinearOrder α] : IsTotalOrder (ofOrder (α := α)) := by
  have hle : ∀ x y : α, ofOrder x y ≤ 0 ↔ x ≤ y := by
    intro x y
    rcases lt_trichotomy x y with h | rfl | h
    · simp [ofOrder, h, h.le]
    · simp [ofOrder]
    · simp [ofOrder, h, h.not_gt]
  refine ⟨⟨fun x y => ?_, fun x y z hxy hyz => ?_⟩, fun x y => ?_⟩
  · rcases lt_trichotomy x y with h | rfl | h
    · simp [ofOrder, h, h.not_gt]
    · simp [ofOrder]
    · simp [ofOrder, h, h.not_gt]
  · rw [hle] at *
    exact hxy.trans hyz
  · rcases lt_trichotomy x y with h | rfl | h
    · simp [ofOrder, h, h.ne]
    · simp [ofOrder]
    · simp [ofOrder, h, h.not_gt, h.ne']

/-! ## Sorting -/

/-- The list sorted by a comparator, which keeps the order of values that compare as equal. -/
def sort (cmp : α → α → ℤ) (l : List α) : List α := l.insertionSort fun x y => cmp x y ≤ 0

theorem sort_perm (cmp : α → α → ℤ) (l : List α) : (sort cmp l).Perm l :=
  List.perm_insertionSort _ l

/-- The list is sorted if `cmp x y ≤ 0` is a total preorder, whatever else the comparator says. -/
theorem sort_pairwise (htotal : ∀ x y, cmp x y ≤ 0 ∨ cmp y x ≤ 0)
    (htrans : ∀ x y z, cmp x y ≤ 0 → cmp y z ≤ 0 → cmp x z ≤ 0) (l : List α) :
    (sort cmp l).Pairwise fun x y => cmp x y ≤ 0 := by
  have : Std.Total fun x y => cmp x y ≤ 0 := ⟨htotal⟩
  have : IsTrans α fun x y => cmp x y ≤ 0 := ⟨htrans⟩
  exact List.pairwise_insertionSort _ l

/-- The head of a sorted list comes from the list, and no value stands before it. -/
theorem head_sort (htotal : ∀ x y, cmp x y ≤ 0 ∨ cmp y x ≤ 0)
    (htrans : ∀ x y z, cmp x y ≤ 0 → cmp y z ≤ 0 → cmp x z ≤ 0) (h : sort cmp l = x :: r) :
    x ∈ l ∧ ∀ y ∈ l, cmp x y ≤ 0 := by
  have hmem : ∀ y, y ∈ l ↔ y ∈ x :: r := fun y => by rw [← h, (sort_perm cmp l).mem_iff]
  have hsorted := sort_pairwise htotal htrans l
  rw [h, List.pairwise_cons] at hsorted
  refine ⟨(hmem x).2 List.mem_cons_self, fun y hy => ?_⟩
  rcases List.mem_cons.1 ((hmem y).1 hy) with rfl | hy
  · exact (htotal y y).elim id id
  · exact hsorted.1 y hy

/-- Two lists are sorted to the same if and only if they have the same elements. -/
theorem sort_eq_iff (h : IsTotalOrder cmp) (l r : List α) : sort cmp l = sort cmp r ↔ l.Perm r := by
  constructor
  · intro heq
    have hl := sort_perm cmp l
    rw [heq] at hl
    exact hl.symm.trans (sort_perm cmp r)
  · intro hperm
    have hsort := (sort_perm cmp l).trans (hperm.trans (sort_perm cmp r).symm)
    exact hsort.eq_of_pairwise (fun x y _ _ hxy hyx => h.antisymm hxy hyx)
      (sort_pairwise h.total h.trans l) (sort_pairwise h.total h.trans r)

/-! ## Sorted lists without duplicates -/

/-- No value of the list is equal to or greater than a later one. -/
def Increasing (cmp : α → α → ℤ) (l : List α) : Prop := l.Pairwise fun x y => cmp x y < 0

theorem Increasing.nodup (h : IsTotalPreorder cmp) (hl : Increasing cmp l) : l.Nodup := by
  refine hl.imp fun hxy heq => ?_
  rw [heq, h.refl] at hxy
  exact absurd hxy (lt_irrefl 0)

/-- Insert a value in its place, unless there is one that compares as equal. -/
def insertSorted (cmp : α → α → ℤ) (v : α) : List α → List α
  | [] => [v]
  | x :: l =>
    if cmp v x < 0 then v :: x :: l
    else if cmp v x > 0 then x :: insertSorted cmp v l
    else x :: l

theorem insertSorted_of_lt (hv : cmp v x < 0) : insertSorted cmp v (x :: l) = v :: x :: l := by
  rw [insertSorted, if_pos hv]

theorem insertSorted_of_gt (hv : 0 < cmp v x) :
    insertSorted cmp v (x :: l) = x :: insertSorted cmp v l := by
  rw [insertSorted, if_neg (by omega), if_pos hv]

theorem insertSorted_of_eq (hv : cmp v x = 0) : insertSorted cmp v (x :: l) = x :: l := by
  rw [insertSorted, if_neg (by omega), if_neg (by omega)]

theorem mem_insertSorted (hx : x ∈ insertSorted cmp v l) : x = v ∨ x ∈ l := by
  induction l with
  | nil => exact .inl (List.mem_singleton.1 hx)
  | cons y l ih =>
    unfold insertSorted at hx
    split_ifs at hx
    · exact List.mem_cons.1 hx
    · rcases List.mem_cons.1 hx with rfl | hx
      · exact .inr List.mem_cons_self
      · exact (ih hx).imp_right (List.mem_cons_of_mem y)
    · exact .inr hx

/-- What stands in front of a value greater than `v` is all that the insertion looks at. -/
theorem insertSorted_append_of_lt (hv : cmp v x < 0) (l r : List α) :
    insertSorted cmp v (l ++ x :: r) = insertSorted cmp v l ++ x :: r := by
  induction l with
  | nil => exact insertSorted_of_lt hv
  | cons y l ih =>
    rw [List.cons_append]
    rcases lt_trichotomy (cmp v y) 0 with hy | hy | hy
    · rw [insertSorted_of_lt hy, insertSorted_of_lt hy]
      rfl
    · rw [insertSorted_of_eq hy, insertSorted_of_eq hy]
      rfl
    · rw [insertSorted_of_gt hy, insertSorted_of_gt hy, ih]
      rfl

section

variable (h : IsTotalPreorder cmp)
include h

theorem Increasing.insertSorted (hl : Increasing cmp l) :
    Increasing cmp (Comparator.insertSorted cmp v l) := by
  induction l with
  | nil => exact List.pairwise_singleton _ _
  | cons x l ih =>
    obtain ⟨hx, hl'⟩ := List.pairwise_cons.1 hl
    rcases lt_trichotomy (cmp v x) 0 with hv | hv | hv
    · rw [insertSorted_of_lt hv]
      refine List.pairwise_cons.2 ⟨?_, hl⟩
      intro y hy
      rcases List.mem_cons.1 hy with rfl | hy
      · exact hv
      · exact h.lt_trans hv (hx y hy)
    · rwa [insertSorted_of_eq hv]
    · rw [insertSorted_of_gt hv]
      refine List.pairwise_cons.2 ⟨?_, ih hl'⟩
      intro y hy
      rcases mem_insertSorted hy with rfl | hy
      · exact (h.lt_iff_gt x y).2 hv
      · exact hx y hy

/-- What stands in front of a value less than `v`, and this value, stay in front. -/
theorem insertSorted_append_of_gt (hl : Increasing cmp (l ++ x :: r)) (hv : 0 < cmp v x) :
    insertSorted cmp v (l ++ x :: r) = l ++ x :: insertSorted cmp v r := by
  induction l with
  | nil => exact insertSorted_of_gt hv
  | cons y l ih =>
    rw [List.cons_append] at hl ⊢
    obtain ⟨hy, hl'⟩ := List.pairwise_cons.1 hl
    have hyx : cmp y x < 0 := hy x (by simp)
    have hyv : cmp y v < 0 := h.lt_trans hyx ((h.lt_iff_gt x v).2 hv)
    rw [insertSorted_of_gt ((h.lt_iff_gt y v).1 hyv), ih hl']
    rfl

/-- An element that is there already is not inserted. -/
theorem insertSorted_append_of_eq (hl : Increasing cmp (l ++ x :: r)) (hv : cmp v x = 0) :
    insertSorted cmp v (l ++ x :: r) = l ++ x :: r := by
  induction l with
  | nil => exact insertSorted_of_eq hv
  | cons y l ih =>
    rw [List.cons_append] at hl ⊢
    obtain ⟨hy, hl'⟩ := List.pairwise_cons.1 hl
    have hyv : cmp y v < 0 := h.lt_of_lt_of_le (hy x (by simp)) ((h.eq_comm v x).1 hv).le
    rw [insertSorted_of_gt ((h.lt_iff_gt y v).1 hyv), ih hl']

/-- The class of `w` gets the new value if it was empty. -/
theorem filter_insertSorted (hl : Increasing cmp l) (w : α) :
    (insertSorted cmp v l).filter (fun y => cmp y w = 0) =
      if l.filter (fun y => cmp y w = 0) = [] ∧ cmp v w = 0 then [v]
      else l.filter fun y => cmp y w = 0 := by
  induction l with
  | nil =>
    by_cases hvw : cmp v w = 0
    · simp [insertSorted, hvw]
    · simp [insertSorted, hvw]
  | cons x l ih =>
    obtain ⟨hx, hl'⟩ := List.pairwise_cons.1 hl
    rcases lt_trichotomy (cmp v x) 0 with hv | hv | hv
    · rw [insertSorted_of_lt hv]
      by_cases hvw : cmp v w = 0
      · have hnil : (x :: l).filter (fun y => cmp y w = 0) = [] := by
          rw [List.filter_eq_nil_iff]
          intro y hy
          have hvy : cmp v y < 0 := by
            rcases List.mem_cons.1 hy with rfl | hy
            · exact hv
            · exact h.lt_trans hv (hx y hy)
          have hwy := h.lt_of_le_of_lt ((h.eq_comm v w).1 hvw).le hvy
          have := (h.lt_iff_gt w y).1 hwy
          simp only [decide_eq_true_eq]
          omega
        rw [if_pos ⟨hnil, hvw⟩, List.filter_cons_of_pos (by simpa using hvw), hnil]
      · rw [if_neg fun h => hvw h.2, List.filter_cons_of_neg (by simpa using hvw)]
    · rw [insertSorted_of_eq hv, if_neg]
      rintro ⟨hnil, hvw⟩
      have hxw := (h.eq_congr hv w).1 hvw
      rw [List.filter_cons_of_pos (by simpa using hxw)] at hnil
      cases hnil
    · rw [insertSorted_of_gt hv]
      by_cases hxw : cmp x w = 0
      · have hvw : cmp v w ≠ 0 := by
          intro hvw
          have := h.eq_trans hvw ((h.eq_comm x w).1 hxw)
          omega
        rw [List.filter_cons_of_pos (by simpa using hxw), ih hl', if_neg fun h => hvw h.2,
          if_neg fun h => hvw h.2, List.filter_cons_of_pos (by simpa using hxw)]
      · rw [List.filter_cons_of_neg (by simpa using hxw), ih hl',
          List.filter_cons_of_neg (by simpa using hxw)]

end

end Comparator
