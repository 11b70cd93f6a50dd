import Sem3.Interleave.Interleave

/-!
# Proofs: the two versions of `interleave3`

The plain version can be rotated as well: `interleave3_cons` takes one element, `interleave3_nil`
skips an empty list. So one call of `interleave3_tr` leaves the reversed result unchanged, and it
takes an element or comes nearer to the next list that has one.
-/

namespace Sem3.Interleave

open Loop

variable {α : Type*}

namespace Exercise05

@[simp]
theorem interleave_nil_left (l : List α) : interleave [] l = l := by
  simp [interleave]

@[simp]
theorem interleave_nil_right (l : List α) : interleave l [] = l := by
  cases l <;> simp [interleave]

theorem interleave_cons (x : α) (xs l : List α) : interleave (x :: xs) l = x :: interleave l xs := by
  induction xs generalizing x l with
  | nil => cases l <;> simp [interleave]
  | cons x' xs ih =>
    cases l with
    | nil => simp [interleave]
    | cons y ys => rw [interleave, ih, interleave]

@[simp]
theorem interleave3_nil_left (l2 l3 : List α) : interleave3 [] l2 l3 = interleave l2 l3 := by
  simp [interleave3]

@[simp]
theorem interleave3_nil_mid (l1 l3 : List α) : interleave3 l1 [] l3 = interleave l1 l3 := by
  cases l1 <;> simp [interleave3]

@[simp]
theorem interleave3_nil_right (l1 l2 : List α) : interleave3 l1 l2 [] = interleave l1 l2 := by
  cases l1 <;> cases l2 <;> simp [interleave3]

theorem interleave3_nil (l2 l3 : List α) : interleave3 [] l2 l3 = interleave3 l2 l3 [] := by
  rw [interleave3_nil_left, interleave3_nil_right]

theorem interleave3_cons (x : α) (xs l2 l3 : List α) :
    interleave3 (x :: xs) l2 l3 = x :: interleave3 l2 l3 xs := by
  induction l2 generalizing x xs l3 with
  | nil => rw [interleave3_nil_mid, interleave3_nil_left, interleave_cons]
  | cons y ys ih =>
    cases l3 with
    | nil => rw [interleave3_nil_right, interleave3_nil_mid, interleave_cons]
    | cons z zs =>
      cases xs with
      | nil => simp [interleave3, interleave_cons]
      | cons x' xs => rw [interleave3, ih, interleave3]

end Exercise05

namespace Exercise08

open Exercise05

/-- The number of calls before the next one that takes an element. -/
def skips (c : Args α) : ℕ :=
  match c.l1, c.l2, c.l3 with
  | [], [], _ :: _ => 2
  | [], _ :: _, _ => 1
  | _, _, _ => 0

/-- Goes down with every call: a list is skipped at most twice before an element is taken. -/
def remaining (c : Args α) : ℕ := 3 * (c.l1.length + c.l2.length + c.l3.length) + skips c

/-- No more than two lists are skipped before an element is taken. -/
theorem skips_le_two (c : Args α) : skips c ≤ 2 := by
  unfold skips
  split <;> omega

/-- What `interleave3_tr` returns: the rest in reverse order, in front of what is accumulated. -/
def result (c : Args α) : List α := (Exercise05.interleave3 c.l1 c.l2 c.l3).reverse ++ c.a

theorem interleave3Tr_leave {c : Args α} {r : List α} (h : interleave3Tr c = .leave r) :
    r = result c := by
  obtain ⟨a, l1, l2, l3⟩ := c
  unfold interleave3Tr at h
  split at h <;> cases h
  rename_i hl1 hl2 hl3
  simp only at hl1 hl2 hl3
  simp [result, hl1, hl2, hl3]

/-- Every other call gets on, and keeps the result. -/
theorem interleave3Tr_again {c c' : Args α} (h : interleave3Tr c = .again c') :
    remaining c' < remaining c ∧ result c' = result c := by
  obtain ⟨a, l1, l2, l3⟩ := c
  cases l1 with
  | nil =>
    cases l2 with
    | nil =>
      cases l3 with
      | nil => cases h
      | cons z zs =>
        cases h
        simp [remaining, skips, result]
    | cons y ys =>
      cases h
      refine ⟨?_, by rw [result, result, interleave3_nil]⟩
      simp only [remaining, skips, List.length_nil]
      omega
  | cons x xs =>
    cases h
    have hskips := skips_le_two ⟨x :: a, l2, l3, xs⟩
    refine ⟨?_, by simp [result, interleave3_cons]⟩
    simp only [remaining, List.length_cons]
    omega

/-- Enough calls give what the version of `exercise05` gives. -/
theorem interleave3_eq_some {n : ℕ} {l1 l2 l3 : List α} (hn : remaining ⟨[], l1, l2, l3⟩ < n) :
    interleave3 n l1 l2 l3 = some (Exercise05.interleave3 l1 l2 l3) := by
  have h : iterate interleave3Tr n ⟨[], l1, l2, l3⟩ = some (result ⟨[], l1, l2, l3⟩) :=
    iterate_eq remaining (I := fun _ => True) trivial
      (fun _ _ _ h => ⟨trivial, interleave3Tr_again h⟩) (fun _ _ _ h => interleave3Tr_leave h) hn
  simp [interleave3, h, result]

/-- The tail-recursive version ends and agrees with the plain one. -/
theorem exists_interleave3 (l1 l2 l3 : List α) :
    ∃ n, ∀ bound, n ≤ bound →
      interleave3 bound l1 l2 l3 = some (Exercise05.interleave3 l1 l2 l3) :=
  ⟨remaining ⟨[], l1, l2, l3⟩ + 1, fun _ hn => interleave3_eq_some hn⟩

end Exercise08

end Sem3.Interleave
