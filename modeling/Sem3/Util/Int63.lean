import Mathlib.Order.Basic
import Mathlib.Algebra.Order.Group.Int
import Mathlib.Tactic.NormNum

/-!
# Machine integers of 63 bits

Integers from `-2^62` to `2^62 - 1`, on which addition, subtraction, multiplication and negation wrap
around, and division rounds towards zero.
-/

/-- The machine integers of 63 bits. -/
structure Int63 where
  val : ℤ
  lower : -2 ^ 62 ≤ val
  upper : val < 2 ^ 62
deriving DecidableEq

namespace Int63

variable {a b : Int63} {z : ℤ}

@[ext] theorem ext (h : a.val = b.val) : a = b := by
  cases a
  cases b
  cases h
  rfl

/-- The integer that is congruent to `z` modulo `2^63`. -/
def ofInt (z : ℤ) : Int63 where
  val := z.bmod (2 ^ 63)
  lower := by
    have := Int.le_bmod (x := z) (m := 2 ^ 63) (by norm_num)
    norm_num at *
    exact this
  upper := by
    have := Int.bmod_lt (x := z) (m := 2 ^ 63) (by norm_num)
    norm_num at *
    exact this

instance (n : ℕ) : OfNat Int63 n := ⟨ofInt n⟩
instance : Add Int63 := ⟨fun a b => ofInt (a.val + b.val)⟩
instance : Sub Int63 := ⟨fun a b => ofInt (a.val - b.val)⟩
instance : Mul Int63 := ⟨fun a b => ofInt (a.val * b.val)⟩
instance : Neg Int63 := ⟨fun a => ofInt (-a.val)⟩
instance : Div Int63 := ⟨fun a b => ofInt (a.val.tdiv b.val)⟩

instance : LinearOrder Int63 := LinearOrder.lift' val fun _ _ => ext

theorem lt_iff : a < b ↔ a.val < b.val := Iff.rfl

theorem val_ofInt (h : -2 ^ 62 ≤ z) (h' : z < 2 ^ 62) : (ofInt z).val = z := by
  show z.bmod (2 ^ 63) = z
  apply Int.bmod_eq_of_le <;> omega

/-- A sum that is too large comes out negative. -/
theorem val_add_of_overflow (h : 2 ^ 62 ≤ a.val + b.val) : (a + b).val = a.val + b.val - 2 ^ 63 := by
  have ha := a.upper
  have hb := b.upper
  have hval : (ofInt (a.val + b.val - 2 ^ 63)).val = a.val + b.val - 2 ^ 63 :=
    val_ofInt (by omega) (by omega)
  rw [← hval]
  show (a.val + b.val).bmod (2 ^ 63) = (a.val + b.val - 2 ^ 63).bmod (2 ^ 63)
  exact (Int.sub_bmod_right (a.val + b.val) (2 ^ 63)).symm

theorem val_add (h : -2 ^ 62 ≤ a.val + b.val) (h' : a.val + b.val < 2 ^ 62) :
    (a + b).val = a.val + b.val := val_ofInt h h'

/-- Half of a number, rounded towards zero. -/
theorem val_half (a : Int63) :
    (a / 2).val = if 0 ≤ a.val then a.val / 2 else -(-a.val / 2) := by
  have ha := a.lower
  have hb := a.upper
  have htdiv : a.val.tdiv 2 = if 0 ≤ a.val then a.val / 2 else -(-a.val / 2) := by
    split_ifs with h
    · exact Int.tdiv_eq_ediv_of_nonneg h
    · rw [← Int.tdiv_eq_ediv_of_nonneg (by omega), Int.neg_tdiv, neg_neg]
  rw [← htdiv]
  exact val_ofInt (z := a.val.tdiv 2) (by split_ifs at htdiv <;> omega)
    (by split_ifs at htdiv <;> omega)

end Int63
