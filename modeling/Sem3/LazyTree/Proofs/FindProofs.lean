import Sem3.LazyTree.Spec

/-!
# Proofs: `find` is a breadth-first search

The nodes at one depth are named by the words of one length, from left to right in lexicographic
order. Each call of `impl` has the subtrees at one depth in this order, and none of the nodes above
satisfies the predicate.
-/

namespace Sem3.LazyTree

open Loop

variable {α : Type*} {p : α → Bool} {t : Ltree α} {n : ℕ} {u w : List Bool}

@[simp]
theorem value_at (t : Ltree α) (w : List Bool) : (t.at w).value = t.label w := by
  simp [Ltree.at, Ltree.value]

/-! ## Words -/

/-- The words of length `n` in lexicographic order. -/
def words : ℕ → List (List Bool)
  | 0 => [[]]
  | n + 1 => (words n).map (false :: ·) ++ (words n).map (true :: ·)

/-- The ways to the nodes of a level have its length. -/
theorem mem_words : w ∈ words n ↔ w.length = n := by
  induction n generalizing w with
  | zero => simp [words]
  | succ n ih =>
    match w with
    | [] => simp [words]
    | false :: w => simp [words, ih]
    | true :: w => simp [words, ih]

theorem pairwise_words (n : ℕ) : (words n).Pairwise (· < ·) := by
  induction n with
  | zero => simp [words]
  | succ n ih =>
    rw [words, List.pairwise_append]
    refine ⟨?_, ?_, ?_⟩
    · rw [List.pairwise_map]
      exact ih.imp fun h => List.cons_lt_cons_iff.2 (.inr ⟨rfl, h⟩)
    · rw [List.pairwise_map]
      exact ih.imp fun h => List.cons_lt_cons_iff.2 (.inr ⟨rfl, h⟩)
    · intro x hx y hy
      obtain ⟨x, -, rfl⟩ := List.mem_map.1 hx
      obtain ⟨y, -, rfl⟩ := List.mem_map.1 hy
      exact List.cons_lt_cons_iff.2 (.inl Bool.false_lt_true)

/-! ## Levels -/

/-- The subtrees at depth `n` from left to right. -/
def level (t : Ltree α) (n : ℕ) : List (Ltree α) := (words n).map t.at

/-- A level of a tree consists of the levels of its subtrees. -/
theorem level_succ (t : Ltree α) (n : ℕ) :
    level t (n + 1) = level t.left n ++ level t.right n := by
  simp only [level, words, List.map_append, List.map_map]
  rfl

/-- The subtrees of the trees of one level make up the next one. -/
theorem flatten_level (t : Ltree α) (n : ℕ) :
    ((level t n).map fun x => [x.left, x.right]).flatten = level t (n + 1) := by
  induction n generalizing t with
  | zero => rfl
  | succ n ih =>
    rw [level_succ t n, List.map_append, List.flatten_append, ih, ih, ← level_succ]

/-! ## One call -/

/-- If no node of a level has the property, the search goes on with the next level. -/
theorem impl_again {tl : List (Ltree α)} (h : impl p (level t n) = .again tl) :
    tl = level t (n + 1) ∧ ∀ u, u.length = n → ¬ p (t.label u) := by
  unfold impl at h
  split at h <;> cases h
  rename_i hnil
  refine ⟨flatten_level t n, fun u hu => ?_⟩
  have hnone := List.filter_eq_nil_iff.1 hnil (t.at u)
    (List.mem_map_of_mem (mem_words.2 hu))
  rwa [value_at] at hnone

/-- If a node of a level has the property, the search ends with the leftmost one. -/
theorem impl_leave {r : Ltree α} (h : impl p (level t n) = .leave r) :
    ∃ w, w.length = n ∧ p (t.label w) ∧ r = t.at w ∧
      ∀ u, u.length = n → p (t.label u) → w ≤ u := by
  unfold impl at h
  split at h <;> cases h
  rename_i rest hcons
  obtain ⟨before, after, hsplit, hbefore, hr, -⟩ := List.filter_eq_cons_iff.1 hcons
  obtain ⟨ws, ws', hwords, rfl, hws'⟩ := List.map_eq_append_iff.1 hsplit
  obtain ⟨w, after', rfl, rfl, rfl⟩ := List.map_eq_cons_iff.1 hws'
  have hmem : ∀ u, u.length = n ↔ u ∈ ws ++ w :: after' := by
    intro u
    rw [← hwords, mem_words]
  rw [value_at] at hr
  refine ⟨w, (hmem w).2 (by simp), hr, rfl, fun u hu hp => ?_⟩
  rcases List.mem_append.1 ((hmem u).1 hu) with hu | hu
  · have hfalse := hbefore _ (List.mem_map_of_mem hu)
    rw [value_at] at hfalse
    exact absurd hp hfalse
  · rcases List.mem_cons.1 hu with rfl | hu
    · exact le_refl _
    · have hsorted := pairwise_words n
      rw [hwords, List.pairwise_append, List.pairwise_cons] at hsorted
      exact le_of_lt (hsorted.2.1.1 u hu)

/-! ## The search -/

/-- Each call of `impl` has the subtrees of one level, and no node above it satisfies the
predicate. -/
theorem visits_level {tl : List (Ltree α)} (h : Visits (impl p) [t] tl) :
    ∃ n, tl = level t n ∧ ∀ u, u.length < n → ¬ p (t.label u) := by
  refine h.invariant (I := fun tl => ∃ n, tl = level t n ∧ ∀ u, u.length < n → ¬ p (t.label u))
    ⟨0, rfl, fun _ hu => absurd hu (Nat.not_lt_zero _)⟩ ?_
  rintro _ tl' ⟨n, rfl, hnone⟩ hagain
  obtain ⟨rfl, hlevel⟩ := impl_again hagain
  refine ⟨n + 1, rfl, fun u hu => ?_⟩
  rcases Nat.lt_or_eq_of_le (Nat.lt_succ_iff.1 hu) with hu | hu
  · exact hnone u hu
  · exact hlevel u hu

/-- The search ends with the first node that has the property. -/
theorem returns_impl {r : Ltree α} (h : Returns (impl p) [t] r) :
    ∃ w, IsFirst (fun u => p (t.label u) = true) w ∧ r = t.at w := by
  obtain ⟨tl, hvisits, hleave⟩ := h.exists_visits
  obtain ⟨n, rfl, hnone⟩ := visits_level hvisits
  obtain ⟨w, rfl, hw, rfl, hfirst⟩ := impl_leave hleave
  refine ⟨w, ⟨hw, fun u hu => ?_⟩, rfl⟩
  rcases Nat.lt_trichotomy w.length u.length with hlt | heq | hgt
  · exact .inl hlt
  · exact .inr ⟨heq, hfirst u heq.symm hu⟩
  · exact absurd hu (hnone u hgt)

/-- From every level above a node that satisfies the predicate, the search ends. -/
theorem exists_returns_level (hw : p (t.label w)) {k : ℕ} (h : n + k = w.length) :
    ∃ r, Returns (impl p) (level t n) r := by
  induction k generalizing n with
  | zero =>
    cases hpass : impl p (level t n) with
    | again tl => exact absurd hw ((impl_again hpass).2 w (by omega))
    | leave r => exact ⟨r, (returns_of_leave hpass).2 rfl⟩
  | succ k ih =>
    cases hpass : impl p (level t n) with
    | again tl =>
      obtain ⟨rfl, -⟩ := impl_again hpass
      obtain ⟨r, hr⟩ := ih (n := n + 1) (by omega)
      exact ⟨r, (returns_of_again hpass).2 hr⟩
    | leave r => exact ⟨r, (returns_of_leave hpass).2 rfl⟩

/-- The search ends if and only if some node satisfies the predicate, and then with the subtree at
the first such node. -/
theorem find_breadth_first (p : α → Bool) (t : Ltree α) :
    ((∃ bound r, find bound p t = some r) ↔ ∃ w, p (t.label w) = true) ∧
      ∀ bound r, find bound p t = some r →
        ∃ w, IsFirst (fun u => p (t.label u) = true) w ∧ r = t.at w := by
  refine ⟨⟨?_, ?_⟩, fun bound r h => returns_impl ⟨bound, h⟩⟩
  · rintro ⟨bound, r, h⟩
    obtain ⟨w, hw, -⟩ := returns_impl ⟨bound, h⟩
    exact ⟨w, hw.1⟩
  · rintro ⟨w, hw⟩
    obtain ⟨r, n, hn⟩ := exists_returns_level (n := 0) hw (Nat.zero_add _)
    exact ⟨n, r, hn⟩

end Sem3.LazyTree
