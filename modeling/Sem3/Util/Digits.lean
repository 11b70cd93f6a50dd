import Mathlib.Algebra.Group.Nat.Defs

/-!
# Reading numerals

`Nat.toDigits` writes a number in a base up to 16, and `List.leftpad` fills it up with zeros; `read`
is the way back. What `read` accepts consists of digits (`isSome_value_of_read`).
-/

namespace Digits

/-- The value of a digit. -/
def value (c : Char) : Option ℕ :=
  if '0' ≤ c ∧ c ≤ '9' then some (c.toNat - '0'.toNat)
  else if 'a' ≤ c ∧ c ≤ 'f' then some (c.toNat - 'a'.toNat + 10)
  else none

/-- One more digit behind a numeral with the value `v`. -/
def push (b v : ℕ) (c : Char) : Option ℕ := (value c).map (b * v + ·)

/-- The number that a numeral in base `b` stands for. -/
def read (b : ℕ) (l : List Char) : Option ℕ := if l = [] then none else l.foldlM (push b) 0

/-- The numeral of `n`, filled up to `w` digits. -/
def padded (b w n : ℕ) : List Char := (Nat.toDigits b n).leftpad w '0'

variable {b w n v : ℕ} {l : List Char}

theorem value_digitChar {d : ℕ} (h : d < 16) : value d.digitChar = some d := by
  have all : ∀ d < 16, value (Nat.digitChar d) = some d := by decide
  exact all d h

theorem push_digitChar (b v : ℕ) {d : ℕ} (h : d < 16) :
    push b v d.digitChar = some (b * v + d) := by
  rw [push, value_digitChar h, Option.map_some]

/-- Reading the digits of a number gives the number. -/
theorem foldlM_toDigits (hb : 1 < b) (hb' : b ≤ 16) (n : ℕ) :
    (Nat.toDigits b n).foldlM (push b) 0 = some n := by
  induction n using Nat.strongRecOn with
  | ind n ih =>
    rw [Nat.toDigits_eq_if hb]
    split
    case isTrue h => simp [push_digitChar b 0 (Nat.lt_of_lt_of_le h hb')]
    case isFalse h =>
      have hmod : n % b < 16 := Nat.lt_of_lt_of_le (Nat.mod_lt n (by omega)) hb'
      rw [List.foldlM_append, ih (n / b) (Nat.div_lt_self (by omega) hb)]
      simp [push_digitChar b _ hmod, Nat.div_add_mod]

/-- Zeros in front do not matter. -/
theorem foldlM_zeros (b k : ℕ) (l : List Char) :
    (List.replicate k '0' ++ l).foldlM (push b) 0 = l.foldlM (push b) 0 := by
  have h0 : push b 0 '0' = some 0 := push_digitChar b 0 (d := 0) (by omega)
  induction k with
  | zero => rfl
  | succ k ih =>
    rw [List.replicate_succ, List.cons_append, List.foldlM_cons, h0]
    exact ih

theorem read_padded (hb : 1 < b) (hb' : b ≤ 16) (w n : ℕ) : read b (padded b w n) = some n := by
  have hne : padded b w n ≠ [] := by simp [padded, List.leftpad]
  rw [read, if_neg hne, padded, List.leftpad, foldlM_zeros, foldlM_toDigits hb hb']

/-- A number that is not too large has the width. -/
theorem length_padded (hb : 1 < b) (hw : 0 < w) (hn : n < b ^ w) : (padded b w n).length = w := by
  have hle := (Nat.length_toDigits_le_iff hb hw).2 hn
  rw [padded, List.length_leftpad]
  exact Nat.max_eq_left hle

/-- A numeral has digits only. -/
theorem isSome_value_of_foldlM {u : ℕ} (h : l.foldlM (push b) u = some v) {c : Char} (hc : c ∈ l) :
    (value c).isSome := by
  induction l generalizing u with
  | nil => cases hc
  | cons a l ih =>
    rw [List.foldlM_cons, Option.bind_eq_bind, Option.bind_eq_some_iff] at h
    obtain ⟨u', ha, hl⟩ := h
    rcases List.mem_cons.1 hc with rfl | hc
    · rw [push, Option.map_eq_some_iff] at ha
      obtain ⟨d, hd, -⟩ := ha
      rw [hd]
      rfl
    · exact ih hl hc

theorem isSome_value_of_read (h : read b l = some v) {c : Char} (hc : c ∈ l) :
    (value c).isSome := by
  rw [read, if_neg (List.ne_nil_of_mem hc)] at h
  exact isSome_value_of_foldlM h hc

end Digits
