import Sem3.Rings.Spec
import Mathlib.Tactic.Tauto

/-!
# Proofs: rings of sets

The sorted concatenation of two sets has every element at most twice. `add` keeps one of each, `mul`
one of those that are there twice. So they are the union and the intersection, and `compare` gives
zero for lists that are the same set.
-/

namespace Sem3.Rings

open Comparator

variable {α : Type*} [LinearOrder α] {cmp : α → α → ℤ} {l s t : List α} {x : α} {X : FiniteRing α}

/-! ## Equality -/

/-- Only equal lists compare as equal. -/
theorem lexCompare_eq_zero_iff (s t : List α) : lexCompare s t = 0 ↔ s = t := by
  induction s generalizing t with
  | nil => cases t <;> simp [lexCompare]
  | cons a s ih =>
    cases t with
    | nil => simp [lexCompare]
    | cons b t =>
      rcases lt_trichotomy a b with h | rfl | h
      · simp [lexCompare, h, h.ne]
      · simp [lexCompare, ih]
      · simp [lexCompare, h, h.not_gt, h.ne']

/-- Sets compare as equal if they have the same elements. -/
theorem compare_eq_zero_iff (X : FiniteRing α) (hs : s.Nodup) (ht : t.Nodup) :
    (SetRing X).compare s t = 0 ↔ ∀ x, x ∈ s ↔ x ∈ t := by
  show lexCompare _ _ = 0 ↔ _
  rw [lexCompare_eq_zero_iff, sort_eq_iff ofOrder_isTotalOrder, List.perm_ext_iff_of_nodup hs ht]

/-! ## Union -/

/-- The elements so far, the greatest one first, and what is still to come. -/
structure Sweep (cmp : α → α → ℤ) (a l : List α) : Prop where
  decreasing : a.Pairwise fun x y => cmp y x < 0
  le : ∀ x ∈ a, ∀ y ∈ l, cmp x y ≤ 0
  sorted : l.Pairwise fun x y => cmp x y ≤ 0

theorem addStep_cons (af : α) (ar : List α) :
    addStep (af :: ar) x = if af = x then af :: ar else x :: af :: ar := rfl

theorem Sweep.addStep (h : IsTotalOrder cmp) {a : List α} (hs : Sweep cmp a (x :: l)) :
    Sweep cmp (addStep a x) l := by
  obtain ⟨hx, hl⟩ := List.pairwise_cons.1 hs.sorted
  have hle : ∀ y ∈ a, ∀ z ∈ l, cmp y z ≤ 0 := fun y hy z hz =>
    hs.le y hy z (List.mem_cons_of_mem x hz)
  have hcons : ∀ b : List α, (∀ y ∈ b, ∀ z ∈ l, cmp y z ≤ 0) →
      ∀ y ∈ x :: b, ∀ z ∈ l, cmp y z ≤ 0 := fun b hb => List.forall_mem_cons.2 ⟨hx, hb⟩
  cases a with
  | nil => exact ⟨List.pairwise_singleton _ _, hcons [] hle, hl⟩
  | cons af ar =>
    rw [addStep_cons]
    split_ifs with heq
    · exact ⟨hs.decreasing, hle, hl⟩
    · have hlt : cmp af x < 0 :=
        h.lt_of_le_of_ne (hs.le af List.mem_cons_self x List.mem_cons_self) heq
      refine ⟨List.pairwise_cons.2 ⟨?_, hs.decreasing⟩, hcons _ hle, hl⟩
      intro y hy
      rcases List.mem_cons.1 hy with rfl | hy
      · exact hlt
      · exact h.lt_trans ((List.pairwise_cons.1 hs.decreasing).1 y hy) hlt

theorem mem_addStep {a : List α} {y : α} : y ∈ addStep a x ↔ y ∈ a ∨ y = x := by
  cases a with
  | nil => simp [addStep]
  | cons af ar =>
    rw [addStep_cons]
    split_ifs with heq
    · rw [List.mem_cons, ← heq]
      grind
    · rw [List.mem_cons, or_comm]

/-- The union is sorted and has the elements of both sets. -/
theorem foldl_addStep (h : IsTotalOrder cmp) {a : List α} (hs : Sweep cmp a l) :
    (l.foldl addStep a).Pairwise (fun x y => cmp y x < 0) ∧
      ∀ y, y ∈ l.foldl addStep a ↔ y ∈ a ∨ y ∈ l := by
  induction l generalizing a with
  | nil => exact ⟨hs.decreasing, by simp⟩
  | cons x l ih =>
    obtain ⟨hpair, hmem⟩ := ih (hs.addStep h)
    refine ⟨hpair, fun y => ?_⟩
    rw [List.foldl_cons, hmem, mem_addStep, List.mem_cons, or_assoc]

omit [LinearOrder α] in
theorem sweep_sort (h : IsTotalPreorder cmp) (l : List α) : Sweep cmp [] (sort cmp l) :=
  ⟨List.Pairwise.nil, fun _ hx => absurd hx List.not_mem_nil,
    sort_pairwise h.total h.trans l⟩

theorem increasing_add (h : IsTotalOrder X.compare) (s t : List α) :
    Increasing X.compare ((SetRing X).add s t) :=
  List.pairwise_reverse.2 (foldl_addStep h (sweep_sort h.toIsTotalPreorder (s ++ t))).1

theorem mem_add (h : IsTotalOrder X.compare) (s t : List α) :
    x ∈ (SetRing X).add s t ↔ x ∈ s ∨ x ∈ t := by
  show x ∈ List.reverse _ ↔ _
  rw [List.mem_reverse, (foldl_addStep h (sweep_sort h.toIsTotalPreorder (s ++ t))).2,
    (sort_perm X.compare (s ++ t)).mem_iff, List.mem_append]
  simp

/-! ## Intersection -/

/-- `d` has the elements that are in `l` twice. -/
structure Doubled (cmp : α → α → ℤ) (l d : List α) : Prop where
  increasing : Increasing cmp d
  mem_iff : ∀ x, x ∈ d ↔ l.count x = 2

variable {a : α} {d : List α}

theorem Doubled.nil : Doubled cmp [] ([] : List α) := ⟨List.Pairwise.nil, by simp⟩

theorem Doubled.skip (hd : Doubled cmp l d) (ha : a ∉ l) : Doubled cmp (a :: l) d := by
  refine ⟨hd.increasing, fun x => ?_⟩
  rw [hd.mem_iff]
  by_cases hx : a = x
  · subst hx
    rw [List.count_cons_self, List.count_eq_zero.2 ha]
    simp
  · rw [List.count_cons_of_ne hx]

theorem Doubled.pair (h : IsTotalOrder cmp) (hd : Doubled cmp l d) (ha : a ∉ l)
    (hle : ∀ x ∈ l, cmp a x ≤ 0) : Doubled cmp (a :: a :: l) (a :: d) := by
  refine ⟨List.pairwise_cons.2 ⟨fun x hx => ?_, hd.increasing⟩, fun x => ?_⟩
  · have hxl : x ∈ l := List.count_pos_iff.1 (by rw [(hd.mem_iff x).1 hx]; omega)
    refine h.lt_of_le_of_ne (hle x hxl) ?_
    rintro rfl
    exact ha hxl
  · rw [List.mem_cons, hd.mem_iff]
    by_cases hx : a = x
    · subst hx
      rw [List.count_cons_self, List.count_cons_self, List.count_eq_zero.2 ha]
      simp
    · rw [List.count_cons_of_ne hx, List.count_cons_of_ne hx]
      simp [Ne.symm hx]

/-- From a sorted list that has no element more than twice, `doubles` takes those that are in it
twice. -/
theorem doubled_doubles (h : IsTotalOrder cmp) (hl : l.Pairwise fun x y => cmp x y ≤ 0)
    (hcount : ∀ x, l.count x ≤ 2) : Doubled cmp l (doubles l) := by
  induction l using doubles.induct with
  | case1 => exact .nil
  | case2 a => exact Doubled.nil.skip List.not_mem_nil
  | case3 a =>
    have hdoubles : doubles [a, a] = [a] := if_pos rfl
    rw [hdoubles]
    exact Doubled.nil.pair h List.not_mem_nil (by simp)
  | case4 a b hab =>
    have hdoubles : doubles [a, b] = [] := if_neg hab
    rw [hdoubles]
    exact (Doubled.nil.skip List.not_mem_nil).skip (by simpa using hab)
  | case5 a b c r hab ih =>
    have hdoubles : doubles (a :: b :: c :: r) = a :: doubles (c :: r) := if_pos hab
    obtain ⟨rfl, -⟩ := hab
    obtain ⟨ha, hl'⟩ := List.pairwise_cons.1 hl
    have htail : ∀ x, (c :: r).count x ≤ 2 := fun x =>
      (List.count_le_count_cons.trans List.count_le_count_cons).trans (hcount x)
    have hnot : a ∉ c :: r := by
      intro hmem
      have hpos := List.count_pos_iff.2 hmem
      have hle := hcount a
      rw [List.count_cons_self, List.count_cons_self] at hle
      omega
    rw [hdoubles]
    exact (ih (List.pairwise_cons.1 hl').2 htail).pair h hnot fun x hx =>
      ha x (List.mem_cons_of_mem a hx)
  | case6 a b c r hab ih =>
    have hdoubles : doubles (a :: b :: c :: r) = doubles (b :: c :: r) := if_neg hab
    obtain ⟨ha, hl'⟩ := List.pairwise_cons.1 hl
    have hne : a ≠ b := by
      rintro rfl
      have hac : a = c := by
        by_contra hac
        exact hab ⟨rfl, hac⟩
      subst hac
      have hle := hcount a
      simp only [List.count_cons_self] at hle
      omega
    -- what is equal to `a` stands next to it
    have hnot : a ∉ b :: c :: r := by
      intro hmem
      rcases List.mem_cons.1 hmem with hb | hr
      · exact hne hb
      · exact hne (h.antisymm (ha b List.mem_cons_self) ((List.pairwise_cons.1 hl').1 a hr))
    rw [hdoubles]
    exact (ih hl' fun x => List.count_le_count_cons.trans (hcount x)).skip hnot

/-- The intersection has the elements that stand twice. -/
theorem doubled_mul (h : IsTotalOrder X.compare) (hs : s.Nodup) (ht : t.Nodup) :
    Doubled X.compare (s ++ t) ((SetRing X).mul s t) := by
  have hperm := sort_perm X.compare (s ++ t)
  have hcount : ∀ x, (sort X.compare (s ++ t)).count x ≤ 2 := by
    intro x
    have hsx := List.nodup_iff_count_le_one.1 hs x
    have htx := List.nodup_iff_count_le_one.1 ht x
    rw [hperm.count_eq, List.count_append]
    omega
  obtain ⟨hinc, hmem⟩ := doubled_doubles h (sort_pairwise h.total h.trans (s ++ t)) hcount
  exact ⟨hinc, fun x => by rw [← hperm.count_eq]; exact hmem x⟩

/-- The intersection has the elements that are in both sets. -/
theorem mem_mul (h : IsTotalOrder X.compare) (hs : s.Nodup) (ht : t.Nodup) :
    x ∈ (SetRing X).mul s t ↔ x ∈ s ∧ x ∈ t := by
  rw [(doubled_mul h hs ht).mem_iff, List.count_append, hs.count, ht.count]
  by_cases hxs : x ∈ s <;> by_cases hxt : x ∈ t <;> simp [hxs, hxt]

/-! ## The laws -/

theorem isCommSemiring (h : IsTotalOrder X.compare) (hnodup : X.elems.Nodup)
    (hall : ∀ x, x ∈ X.elems) : (SetRing X).IsCommSemiring List.Nodup := by
  have hzero : (SetRing X).zero.Nodup := List.nodup_nil
  have hone : (SetRing X).one.Nodup := hnodup
  have hnil : ∀ x, x ∉ (SetRing X).zero := fun x => List.not_mem_nil
  have hmone : ∀ x, x ∈ (SetRing X).one := hall
  have hadd : ∀ s t : List α, ((SetRing X).add s t).Nodup := fun s t =>
    (increasing_add h s t).nodup h.toIsTotalPreorder
  have hmul : ∀ s t : List α, s.Nodup → t.Nodup → ((SetRing X).mul s t).Nodup := fun s t hs ht =>
    (doubled_mul h hs ht).increasing.nodup h.toIsTotalPreorder
  refine
    { zero_mem := hzero
      one_mem := hone
      add_mem := fun s t _ _ => hadd s t
      mul_mem := hmul
      add_assoc := ?_
      add_comm := ?_
      mul_assoc := ?_
      mul_comm := ?_
      mul_add := ?_
      add_mul := ?_
      add_zero := ?_
      mul_zero := ?_
      mul_one := ?_ }
  · intro s t u hs ht hu
    rw [compare_eq_zero_iff X (hadd _ _) (hadd _ _)]
    intro x
    simp only [mem_add h, or_assoc]
  · intro s t hs ht
    rw [compare_eq_zero_iff X (hadd _ _) (hadd _ _)]
    intro x
    simp only [mem_add h, or_comm]
  · intro s t u hs ht hu
    have hst := hmul s t hs ht
    have htu := hmul t u ht hu
    rw [compare_eq_zero_iff X (hmul _ _ hst hu) (hmul _ _ hs htu)]
    intro x
    rw [mem_mul h hst hu, mem_mul h hs ht, mem_mul h hs htu, mem_mul h ht hu, and_assoc]
  · intro s t hs ht
    rw [compare_eq_zero_iff X (hmul _ _ hs ht) (hmul _ _ ht hs)]
    intro x
    rw [mem_mul h hs ht, mem_mul h ht hs, and_comm]
  · intro s t u hs ht hu
    rw [compare_eq_zero_iff X (hmul _ _ hs (hadd t u)) (hadd _ _)]
    intro x
    rw [mem_mul h hs (hadd t u), mem_add h, mem_add h, mem_mul h hs ht, mem_mul h hs hu, and_or_left]
  · intro s t u hs ht hu
    rw [compare_eq_zero_iff X (hmul _ _ (hadd s t) hu) (hadd _ _)]
    intro x
    rw [mem_mul h (hadd s t) hu, mem_add h, mem_add h, mem_mul h hs hu, mem_mul h ht hu,
      or_and_right]
  · intro s hs
    constructor
    all_goals
      rw [compare_eq_zero_iff X (hadd _ _) hs]
      intro x
      simp only [mem_add h, hnil, or_false, false_or]
  · intro s hs
    rw [compare_eq_zero_iff X (hmul _ _ hs hzero) hzero, compare_eq_zero_iff X (hmul _ _ hzero hs) hzero]
    constructor
    · intro x
      rw [mem_mul h hs hzero]
      exact and_iff_right_of_imp fun hx => absurd hx (hnil x)
    · intro x
      rw [mem_mul h hzero hs]
      exact and_iff_left_of_imp fun hx => absurd hx (hnil x)
  · intro s hs
    rw [compare_eq_zero_iff X (hmul _ _ hs hone) hs, compare_eq_zero_iff X (hmul _ _ hone hs) hs]
    constructor
    · intro x
      rw [mem_mul h hs hone, and_iff_left (hmone x)]
    · intro x
      rw [mem_mul h hone hs, and_iff_right (hmone x)]

/-- For a finite ring with a total order on its elements, all of which `elems` lists once, `add` and
`mul` of duplicate-free lists are the union and the intersection, sorted and without duplicates, and
they make the duplicate-free lists a commutative semiring. -/
theorem setRing_isCommSemiring (X : FiniteRing α) (h : IsTotalOrder X.compare)
    (hnodup : X.elems.Nodup) (hall : ∀ x, x ∈ X.elems) :
    (∀ s t : List α, s.Nodup → t.Nodup →
      (Increasing X.compare ((SetRing X).add s t) ∧
        ∀ x, x ∈ (SetRing X).add s t ↔ x ∈ s ∨ x ∈ t) ∧
      Increasing X.compare ((SetRing X).mul s t) ∧
        ∀ x, x ∈ (SetRing X).mul s t ↔ x ∈ s ∧ x ∈ t) ∧
      (SetRing X).IsCommSemiring List.Nodup := by
  refine ⟨fun s t hs ht => ⟨⟨increasing_add h s t, fun x => mem_add h s t⟩, ?_⟩,
    isCommSemiring h hnodup hall⟩
  exact ⟨(doubled_mul h hs ht).increasing, fun x => mem_mul h hs ht⟩

/-- The sets of truth values. -/
theorem setRing_isCommSemiring_boolRing :
    (∀ x, x ∈ (SetRing BoolRing).mul [true, false] [false] ↔ x ∈ [true, false] ∧ x ∈ [false]) ∧
      (SetRing BoolRing).IsCommSemiring List.Nodup := by
  obtain ⟨hsets, hlaws⟩ := setRing_isCommSemiring BoolRing ofOrder_isTotalOrder (by decide) (by decide)
  exact ⟨(hsets [true, false] [false] (by decide) (by decide)).2.2, hlaws⟩

end Sem3.Rings
