import Sem3.Util.Loop
import Mathlib.Logic.Function.Basic
import Mathlib.Data.List.Basic
import Mathlib.Data.List.Nodup

/-!
# Singly linked chains on a heap

A heap maps node addresses to cells, each with a payload and a `next` pointer. `Seg h p xs q` says
that following `next` from `p` visits exactly the nodes of `xs`, in order and with these payloads,
and arrives at `q`; a chain that ends is the segment with `q = none`.

The rules: segments compose (`seg_append`), do not depend on cells they do not visit (`Seg.congr`),
their last cell can be redirected (`Seg.relink`), and a node can be put in (`Seg.link`) or taken out
(`Seg.unlink`) behind another one. A loop walks along a segment (`Seg.iterate`).
-/

namespace Chain

open Loop

/-- A heap cell: the pointer to the next cell, `none` for the null pointer, and the payload. -/
structure Cell (α : Type*) where
  next : Option ℕ
  data : α

/-- A heap: the cells that are allocated. -/
abbrev Heap (α : Type*) := ℕ → Option (Cell α)

variable {α : Type*} {h h' : Heap α} {p q r : Option ℕ} {n : ℕ} {d : α} {xs ys : List (ℕ × α)}

/-- The addresses of a list of nodes. -/
abbrev nodes (xs : List (ℕ × α)) : List ℕ := xs.map Prod.fst

/-- Following `next` from `p` visits exactly the nodes `xs` and arrives at `q`. -/
def Seg (h : Heap α) : Option ℕ → List (ℕ × α) → Option ℕ → Prop
  | p, [], q => p = q
  | p, x :: xs, q => p = some x.1 ∧ ∃ next, h x.1 = some ⟨next, x.2⟩ ∧ Seg h next xs q

@[simp] theorem seg_nil : Seg h p [] q ↔ p = q := Iff.rfl

@[simp] theorem seg_cons {x : ℕ × α} :
    Seg h p (x :: xs) q ↔ p = some x.1 ∧ ∃ next, h x.1 = some ⟨next, x.2⟩ ∧ Seg h next xs q :=
  Iff.rfl

theorem seg_append :
    Seg h p (xs ++ ys) q ↔ ∃ r, Seg h p xs r ∧ Seg h r ys q := by
  induction xs generalizing p with
  | nil => simp
  | cons x xs ih =>
    simp only [List.cons_append, seg_cons, ih]
    constructor
    · rintro ⟨hp, next, hx, r, h1, h2⟩
      exact ⟨r, ⟨hp, next, hx, h1⟩, h2⟩
    · rintro ⟨r, ⟨hp, next, hx, h1⟩, h2⟩
      exact ⟨hp, next, hx, r, h1, h2⟩

theorem Seg.congr (hs : Seg h p xs q) (heq : ∀ n ∈ nodes xs, h' n = h n) : Seg h' p xs q := by
  induction xs generalizing p with
  | nil => exact hs
  | cons x xs ih =>
    obtain ⟨hp, next, hx, hs⟩ := hs
    refine ⟨hp, next, ?_, ih hs fun n hn => heq n (List.mem_cons_of_mem _ hn)⟩
    rw [heq x.1 (List.mem_cons_self ..), hx]

theorem Seg.update (hs : Seg h p xs q) (hn : n ∉ nodes xs) (c : Option (Cell α)) :
    Seg (Function.update h n c) p xs q := by
  refine hs.congr fun m hm => Function.update_of_ne ?_ _ _
  rintro rfl
  exact hn hm

/-- The last cell of a segment can be made to point elsewhere. -/
theorem Seg.relink (hs : Seg h p (xs ++ [(n, d)]) q) (hn : n ∉ nodes xs) (r : Option ℕ) :
    Seg (Function.update h n (some ⟨r, d⟩)) p (xs ++ [(n, d)]) r := by
  obtain ⟨m, h1, h2, -⟩ := seg_append.1 hs
  exact seg_append.2 ⟨m, h1.update hn _, h2, r, by simp, rfl⟩

/-- Unlinking the node `n` behind `l`: `l` takes over the `next` pointer of `n`, and `n` may be
freed. -/
theorem Seg.unlink {nx : Option ℕ} {a : ℕ} {c e : α}
    (hs : Seg h p (xs ++ (a, c) :: (n, e) :: ys) q) (hnd : (nodes (xs ++ (a, c) :: (n, e) :: ys)).Nodup)
    (hn : h n = some ⟨nx, e⟩) :
    Seg (Function.update (Function.update h a (some ⟨nx, c⟩)) n none) p (xs ++ (a, c) :: ys) q := by
  obtain ⟨r, h1, hr, next, ha, hnext, next', hn', h2⟩ := seg_append.1 hs
  have hnx : next' = nx := by
    rw [hn] at hn'
    exact (Cell.mk.inj (Option.some.inj hn')).1.symm
  subst hnx
  simp only [nodes, List.map_append, List.map_cons, List.nodup_append, List.nodup_cons,
    List.mem_cons, not_or] at hnd
  obtain ⟨-, ⟨⟨han, hays⟩, hnys, -⟩, hdisj⟩ := hnd
  have hax : a ∉ nodes xs := fun hm => hdisj a hm a (Or.inl rfl) rfl
  have hnx : n ∉ nodes xs := fun hm => hdisj n hm n (Or.inr (Or.inl rfl)) rfl
  refine seg_append.2 ⟨r, (h1.update hax _).update hnx _, hr, next', ?_,
    (h2.update hays _).update hnys _⟩
  rw [Function.update_of_ne han, Function.update_self]

/-- Linking the new node `e` in behind `n`: it takes over the `next` pointer of `n`. -/
theorem Seg.link {nx : Option ℕ} {e : ℕ} (hs : Seg h p (xs ++ (n, d) :: ys) q)
    (hnd : (nodes (xs ++ (n, d) :: ys)).Nodup) (he : e ∉ nodes (xs ++ (n, d) :: ys))
    (hn : h n = some ⟨nx, d⟩) (c : α) :
    Seg (Function.update (Function.update h e (some ⟨nx, c⟩)) n (some ⟨some e, d⟩)) p
      (xs ++ (n, d) :: (e, c) :: ys) q := by
  obtain ⟨r, h1, hr, next, hn', h2⟩ := seg_append.1 hs
  have hnx : next = nx := by
    rw [hn] at hn'
    exact (Cell.mk.inj (Option.some.inj hn')).1.symm
  subst hnx
  simp only [nodes, List.map_append, List.map_cons, List.nodup_append, List.nodup_cons] at hnd
  simp only [nodes, List.map_append, List.map_cons, List.mem_append, List.mem_cons, not_or] at he
  obtain ⟨hex, hen, hey⟩ := he
  have hnx : n ∉ nodes xs := fun hm => hnd.2.2 n hm n List.mem_cons_self rfl
  refine seg_append.2 ⟨r, (h1.update hex _).update hnx _, hr, some e, Function.update_self ..,
    rfl, next, ?_, (h2.update hey _).update hnd.2.1.1 _⟩
  rw [Function.update_of_ne hen, Function.update_self]

theorem Seg.isSome_of_mem (hs : Seg h p xs q) (hn : n ∈ nodes xs) : (h n).isSome := by
  induction xs generalizing p with
  | nil => exact absurd hn (List.not_mem_nil)
  | cons x xs ih =>
    obtain ⟨hp, next, hx, hs⟩ := hs
    rcases List.mem_cons.1 hn with rfl | hn
    · rw [hx]; rfl
    · exact ih hs hn

/-- The nodes from a pointer to `NULL` are given by the heap. -/
theorem Seg.unique (hs : Seg h p xs none) (hs' : Seg h p ys none) : xs = ys := by
  induction xs generalizing p ys with
  | nil =>
    cases ys with
    | nil => rfl
    | cons y ys => exact absurd (hs.symm.trans hs'.1) (by simp)
  | cons x xs ih =>
    cases ys with
    | nil => exact absurd (hs'.symm.trans hs.1) (by simp)
    | cons y ys =>
      obtain ⟨hp, next, hx, hs⟩ := hs
      obtain ⟨hp', next', hy, hs'⟩ := hs'
      have h1 : x.1 = y.1 := Option.some.inj (hp.symm.trans hp')
      rw [← h1, hx] at hy
      obtain ⟨rfl, h2⟩ := Cell.mk.inj (Option.some.inj hy)
      rw [ih hs hs', Prod.ext h1 h2]

/-- Only the empty list is `NULL`. -/
theorem Seg.eq_none_iff (hs : Seg h p xs none) : p = none ↔ xs = [] := by
  cases xs with
  | nil => simpa using hs
  | cons x xs => simp [hs.1]

/-- A loop that goes on at the next node of each node of a segment arrives behind it. -/
theorem Seg.iterate {ρ : Type*} {step : Option ℕ → Pass (Option ℕ) ρ} (hs : Seg h p xs q)
    (hstep : ∀ x ∈ xs, ∀ next, h x.1 = some ⟨next, x.2⟩ → step (some x.1) = .again next) (k : ℕ) :
    iterate step (xs.length + k) p = iterate step k q := by
  induction xs generalizing p with
  | nil => rw [seg_nil.1 hs, List.length_nil, Nat.zero_add]
  | cons x xs ih =>
    obtain ⟨rfl, next, hx, hs⟩ := hs
    rw [List.length_cons, Nat.succ_add, iterate_succ_again (hstep x List.mem_cons_self next hx)]
    exact ih hs fun y hy => hstep y (List.mem_cons_of_mem _ hy)

end Chain
