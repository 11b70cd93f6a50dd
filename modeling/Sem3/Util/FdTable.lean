import Mathlib.Data.List.Basic
import Mathlib.Data.Nat.Notation
import Mathlib.Order.Nat

/-!
# Descriptor tables

The open file descriptors of a process: a table from small numbers to open descriptions. `close`
frees a number, and a new descriptor gets the lowest number that is free. The description itself is
a parameter.
-/

/-- A table of descriptors; a number past the end of the list is free. -/
structure FdTable (δ : Type*) where
  entries : List (Option δ)

namespace FdTable

variable {δ : Type*} {T : FdTable δ} {d : δ} {fd fd' : ℕ}

/-- The description that a number refers to, `none` if the number is free. -/
def get (T : FdTable δ) (fd : ℕ) : Option δ := T.entries[fd]?.join

/-- `close(fd)`. -/
def close (T : FdTable δ) (fd : ℕ) : FdTable δ := ⟨T.entries.set fd none⟩

/-- The lowest free number. -/
def lowest (T : FdTable δ) : ℕ := T.entries.findIdx Option.isNone

/-- Give the lowest free number to a new descriptor. -/
def assign (T : FdTable δ) (d : δ) : FdTable δ :=
  if T.lowest < T.entries.length then ⟨T.entries.set T.lowest (some d)⟩
  else ⟨T.entries ++ [some d]⟩

/-- A second descriptor for what `fd` refers to; nothing happens if `fd` is free. -/
def dup (T : FdTable δ) (fd : ℕ) : FdTable δ :=
  match T.get fd with
  | none => T
  | some d => T.assign d

@[simp] theorem get_close_self (T : FdTable δ) (fd : ℕ) : (T.close fd).get fd = none := by
  simp only [get, close, List.getElem?_set_self']
  cases T.entries[fd]? <;> rfl

@[simp] theorem get_close_of_ne (T : FdTable δ) (h : fd' ≠ fd) :
    (T.close fd).get fd' = T.get fd' := by
  simp only [get, close, List.getElem?_set_ne (Ne.symm h)]

/-- There is a free number behind the table at the latest. -/
theorem lowest_le_length (T : FdTable δ) : T.lowest ≤ T.entries.length := List.findIdx_le_length

theorem get_lowest (T : FdTable δ) : T.get T.lowest = none := by
  by_cases h : T.lowest < T.entries.length
  · have hnone := List.findIdx_getElem (p := Option.isNone) (w := h)
    rw [get, List.getElem?_eq_getElem h, Option.join_some]
    exact Option.isNone_iff_eq_none.1 hnone
  · rw [get, List.getElem?_eq_none (not_lt.1 h)]
    rfl

theorem get_of_lt_lowest (h : fd < T.lowest) : T.get fd ≠ none := by
  have hlt : fd < T.entries.length := lt_of_lt_of_le h T.lowest_le_length
  have hsome := List.not_of_lt_findIdx h
  rw [get, List.getElem?_eq_getElem hlt, Option.join_some]
  intro hnone
  rw [hnone] at hsome
  exact absurd hsome (by simp)

/-- A free number is not below the lowest free one. -/
theorem lowest_le (h : T.get fd = none) : T.lowest ≤ fd := by
  by_contra hlt
  exact get_of_lt_lowest (not_le.1 hlt) h

/-- The lowest free number is the first one behind open ones. -/
theorem lowest_eq (h : T.get fd = none) (hopen : ∀ fd' < fd, T.get fd' ≠ none) : T.lowest = fd := by
  apply le_antisymm (lowest_le h)
  by_contra hlt
  exact hopen _ (not_le.1 hlt) T.get_lowest

@[simp] theorem get_assign_lowest (T : FdTable δ) (d : δ) :
    (T.assign d).get T.lowest = some d := by
  unfold assign
  by_cases h : T.lowest < T.entries.length
  · rw [if_pos h]
    simp [get, h]
  · have heq : T.lowest = T.entries.length := le_antisymm T.lowest_le_length (not_lt.1 h)
    rw [if_neg h]
    simp [get, heq]

@[simp] theorem get_assign_of_ne (h : fd ≠ T.lowest) : (T.assign d).get fd = T.get fd := by
  unfold assign
  by_cases hlt : T.lowest < T.entries.length
  · rw [if_pos hlt]
    simp [get, List.getElem?_set_ne (Ne.symm h)]
  · have heq : T.lowest = T.entries.length := le_antisymm T.lowest_le_length (not_lt.1 hlt)
    rw [heq] at h
    rw [if_neg hlt]
    rcases lt_or_gt_of_ne h with hfd | hfd
    · simp [get, List.getElem?_append_left hfd]
    · simp only [get]
      rw [List.getElem?_eq_none (by simp; omega), List.getElem?_eq_none (by omega)]

theorem dup_of_free (h : T.get fd = none) : T.dup fd = T := by
  rw [dup, h]

theorem dup_of_open (h : T.get fd = some d) : T.dup fd = T.assign d := by
  rw [dup, h]

end FdTable
