import Mathlib.Data.List.Basic
import Mathlib.Data.List.Perm.Basic

/-!
# Arrays with free entries

An array of a fixed length in which one value marks the free entries. `put` takes the first free
entry and leaves the array alone if there is none; `clear` frees the first entry that holds a value.
What the array holds is the list of its entries that are in `used`.
-/

namespace Slots

variable {α : Type*} [DecidableEq α] {free x : α} {l : List α} {used : α → Prop} [DecidablePred used]

/-- The first free entry becomes `x`. -/
def put (free x : α) (l : List α) : List α := l.replace free x

/-- The first entry that holds `x` becomes free. -/
def clear (free x : α) (l : List α) : List α := l.replace x free

/-- What the array holds. -/
def held (used : α → Prop) [DecidablePred used] (l : List α) : List α := l.filter used

theorem put_cons (a : α) :
    put free x (a :: l) = if a = free then x :: l else a :: put free x l := by
  unfold put
  split_ifs with h
  · rw [h, List.replace_cons_self]
  · have hne : (free == a) = false := by simpa using Ne.symm h
    simp only [List.replace_cons, hne]

theorem clear_cons (a : α) :
    clear free x (a :: l) = if a = x then free :: l else a :: clear free x l := put_cons a

theorem cons_replace_perm {a b : α} (h : a ∈ l) : (a :: l.replace a b).Perm (b :: l) := by
  induction l with
  | nil => exact absurd h List.not_mem_nil
  | cons c l ih =>
    by_cases hca : c = a
    · subst hca
      rw [List.replace_cons_self]
      exact List.Perm.swap b c l
    · have hmem : a ∈ l := (List.mem_cons.1 h).resolve_left (Ne.symm hca)
      have hne : (a == c) = false := by simpa using Ne.symm hca
      simp only [List.replace_cons, hne]
      exact (List.Perm.swap c a _).trans (((ih hmem).cons c).trans (List.Perm.swap b c l))

/-- A used value that is put takes the place of a free entry. -/
theorem held_put (hfree : ¬ used free) (hx : used x) (h : free ∈ l) :
    (held used (put free x l)).Perm (x :: held used l) := by
  have hperm := (cons_replace_perm (b := x) h).filter (fun a => decide (used a))
  simpa [held, put, hfree, hx] using hperm

theorem count_put (hx : x ≠ free) (h : free ∈ l) :
    (put free x l).count free + 1 = l.count free := by
  have hcount := (cons_replace_perm (b := x) h).count_eq free
  simpa [put, hx] using hcount

theorem put_of_full (h : free ∉ l) : put free x l = l := List.replace_of_not_mem h

/-- A used value that is cleared is no longer held, once. -/
theorem held_clear (hfree : ¬ used free) (hx : used x) :
    (held used (clear free x l)).Perm ((held used l).erase x) := by
  by_cases h : x ∈ l
  · have hperm := (cons_replace_perm (b := free) h).filter (fun a => decide (used a))
    have hcons : (x :: held used (clear free x l)).Perm (held used l) := by
      simpa [held, clear, hfree, hx] using hperm
    exact List.cons_perm_iff_perm_erase.1 hcons |>.2
  · have hheld : x ∉ held used l := fun hmem => h (List.mem_of_mem_filter hmem)
    rw [clear, List.replace_of_not_mem h, List.erase_of_not_mem hheld]

end Slots
