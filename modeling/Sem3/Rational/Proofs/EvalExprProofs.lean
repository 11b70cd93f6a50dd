import Sem3.Rational.Spec
import Mathlib.Tactic.FieldSimp
import Mathlib.Tactic.Ring

/-!
# Proofs: the evaluation of rational expressions is exact

Each operation gives a fraction for the value that it should have. `gcd` gives the greatest common
divisor of two numbers that are not negative, so that `sfy` keeps the value and leaves a fraction in
lowest terms.
-/

namespace Sem3.Rational

open Loop

variable {leftFirst : Bool} {bound : ℕ} {e e₁ e₂ : Expr} {r r₁ r₂ : Rat} {q q₁ q₂ : ℚ}

/-! ## Greatest common divisors -/

/-- A call of `gcd` gets on, and keeps the greatest common divisor. -/
theorem gcd_again {s s' : ℤ × ℤ} (hs : 0 ≤ s.1 ∧ 0 ≤ s.2) (h : gcd s = .again s') :
    (0 ≤ s'.1 ∧ 0 ≤ s'.2) ∧ s'.1.natAbs + s'.2.natAbs < s.1.natAbs + s.2.natAbs ∧
      (Int.gcd s'.1 s'.2 : ℤ) = Int.gcd s.1 s.2 := by
  obtain ⟨m, n⟩ := s
  obtain ⟨hm, hn⟩ := hs
  simp only at hm hn
  rw [gcd] at h
  split_ifs at h with hn0 hm0 hgt <;> cases h
  · have hnonneg := Int.tmod_nonneg n hm
    have hlt := Int.tmod_lt_of_pos m (by omega : 0 < n)
    refine ⟨⟨hnonneg, hn⟩, by simp only; omega, ?_⟩
    simp only [Int.tmod_def, Int.gcd_sub_mul_left_left]
  · have hnonneg := Int.tmod_nonneg m hn
    have hlt := Int.tmod_lt_of_pos n (by omega : 0 < m)
    refine ⟨⟨hm, hnonneg⟩, by simp only; omega, ?_⟩
    simp only [Int.tmod_def, Int.gcd_sub_mul_left_right]

theorem gcd_leave {s : ℤ × ℤ} {g : ℤ} (hs : 0 ≤ s.1 ∧ 0 ≤ s.2) (h : gcd s = .leave g) :
    g = Int.gcd s.1 s.2 := by
  obtain ⟨m, n⟩ := s
  obtain ⟨hm, hn⟩ := hs
  simp only at hm hn
  rw [gcd] at h
  split_ifs at h with hn0 hm0 <;> cases h
  · simp [hn0, abs_of_nonneg hm]
  · simp [hm0, abs_of_nonneg hn]

/-- `gcd` ends with the greatest common divisor. -/
theorem iterate_gcd {m n : ℤ} (hbound : m.natAbs + n.natAbs < bound) :
    iterate gcd bound (|m|, |n|) = some (Int.gcd m n : ℤ) := by
  have h : iterate gcd bound (|m|, |n|) = some (Int.gcd |m| |n| : ℤ) :=
    iterate_eq (f := fun s : ℤ × ℤ => (Int.gcd s.1 s.2 : ℤ)) (fun s => s.1.natAbs + s.2.natAbs)
      (I := fun s => 0 ≤ s.1 ∧ 0 ≤ s.2) ⟨abs_nonneg m, abs_nonneg n⟩ (fun _ _ => gcd_again)
      (fun _ _ => gcd_leave) (by simpa only [Int.natAbs_abs] using hbound)
  rw [h, Int.gcd_eq_natAbs_gcd_natAbs, Int.natAbs_abs, Int.natAbs_abs]
  rfl

/-- With enough calls of `gcd`, reducing a fraction raises nothing, keeps its value and leaves it in
lowest terms. -/
theorem exists_sfy (h : Represents r q) :
    ∃ r', (∀ bound, r.1.natAbs + r.2.natAbs < bound → sfy bound r = pure r') ∧
      Represents r' q ∧ IsReduced r' := by
  obtain ⟨n, d⟩ := r
  obtain ⟨hd, hq⟩ := h
  simp only at hd hq
  have hpos : 0 < Int.gcd n d := Int.gcd_pos_of_ne_zero_right n hd
  obtain ⟨n', d', hcoprime, hn, hd'⟩ := Int.exists_gcd_one hpos
  have hne : (Int.gcd n d : ℤ) ≠ 0 := by omega
  refine ⟨(n', d'), fun bound hbound => ?_, ⟨?_, ?_⟩, hcoprime⟩
  · have hndiv : n.tdiv (Int.gcd n d) = n' := by
      nth_rewrite 1 [hn]
      exact Int.mul_tdiv_cancel n' hne
    have hddiv : d.tdiv (Int.gcd n d) = d' := by
      nth_rewrite 1 [hd']
      exact Int.mul_tdiv_cancel d' hne
    simp only [sfy, iterate_gcd hbound, if_neg hne, hndiv, hddiv]
  · rintro rfl
    exact hd (by rw [hd', zero_mul])
  · have hne' : ((Int.gcd n d : ℕ) : ℚ) ≠ 0 := by exact_mod_cast hne
    have hn' : (n : ℚ) = n' * (Int.gcd n d : ℕ) := by exact_mod_cast hn
    have hd'' : (d : ℚ) = d' * (Int.gcd n d : ℕ) := by exact_mod_cast hd'
    calc (n' / d' : ℚ) = n' * (Int.gcd n d : ℕ) / (d' * (Int.gcd n d : ℕ)) :=
          (mul_div_mul_right _ _ hne').symm
      _ = n / d := by rw [← hn', ← hd'']
      _ = q := hq

/-! ## The operations -/

theorem Represents.neg (h : Represents r q) : Represents (-r.1, r.2) (-q) where
  denom_ne_zero := h.denom_ne_zero
  div_eq := by
    rw [← h.div_eq]
    push_cast
    ring

section Binary

variable (h₁ : Represents r₁ q₁) (h₂ : Represents r₂ q₂)

include h₁ h₂

theorem Represents.add : Represents (r₁.1 * r₂.2 + r₂.1 * r₁.2, r₁.2 * r₂.2) (q₁ + q₂) where
  denom_ne_zero := mul_ne_zero h₁.denom_ne_zero h₂.denom_ne_zero
  div_eq := by
    have hd₁ : (r₁.2 : ℚ) ≠ 0 := Int.cast_ne_zero.2 h₁.denom_ne_zero
    have hd₂ : (r₂.2 : ℚ) ≠ 0 := Int.cast_ne_zero.2 h₂.denom_ne_zero
    rw [← h₁.div_eq, ← h₂.div_eq]
    push_cast
    field_simp

theorem Represents.sub : Represents (r₁.1 * r₂.2 - r₂.1 * r₁.2, r₁.2 * r₂.2) (q₁ - q₂) where
  denom_ne_zero := mul_ne_zero h₁.denom_ne_zero h₂.denom_ne_zero
  div_eq := by
    have hd₁ : (r₁.2 : ℚ) ≠ 0 := Int.cast_ne_zero.2 h₁.denom_ne_zero
    have hd₂ : (r₂.2 : ℚ) ≠ 0 := Int.cast_ne_zero.2 h₂.denom_ne_zero
    rw [← h₁.div_eq, ← h₂.div_eq]
    push_cast
    field_simp

theorem Represents.mul : Represents (r₁.1 * r₂.1, r₁.2 * r₂.2) (q₁ * q₂) where
  denom_ne_zero := mul_ne_zero h₁.denom_ne_zero h₂.denom_ne_zero
  div_eq := by
    rw [← h₁.div_eq, ← h₂.div_eq]
    push_cast
    ring

theorem Represents.div (hne : q₂ ≠ 0) : Represents (r₁.1 * r₂.2, r₂.1 * r₁.2) (q₁ / q₂) where
  denom_ne_zero := by
    refine mul_ne_zero ?_ h₁.denom_ne_zero
    intro hzero
    rw [← h₂.div_eq, hzero] at hne
    simp at hne
  div_eq := by
    rw [← h₁.div_eq, ← h₂.div_eq, div_div_div_eq]
    push_cast
    ring

end Binary

/-! ## Evaluation -/

/-- With a sufficient bound, `e` is evaluated to `r`. -/
def Evaluates (leftFirst : Bool) (e : Expr) (r : Rat) : Prop :=
  ∃ n, ∀ bound, n ≤ bound → evalExpr leftFirst bound e = pure r

/-- An operation whose operands are evaluated is evaluated. -/
theorem Evaluates.binOp {op : BinaryOp} (h₁ : Evaluates leftFirst e₁ r₁)
    (h₂ : Evaluates leftFirst e₂ r₂) {n : ℕ}
    (hop : ∀ bound, n ≤ bound → op.apply bound r₁ r₂ = pure r) :
    Evaluates leftFirst (.binOp op e₁ e₂) r := by
  obtain ⟨n₁, h₁⟩ := h₁
  obtain ⟨n₂, h₂⟩ := h₂
  refine ⟨max n (max n₁ n₂), fun bound hbound => ?_⟩
  have hpair : Bounded.pair leftFirst (evalExpr leftFirst bound e₁)
      (evalExpr leftFirst bound e₂) = some (.ok (r₁, r₂)) :=
    Bounded.pair_eq_ok_iff.2 ⟨h₁ bound (by omega), h₂ bound (by omega)⟩
  rw [evalExpr, Bounded.bind_ok hpair]
  exact hop bound (by omega)

/-- An operation that reduces its result. -/
theorem Evaluates.exists_reduced (h₁ : Evaluates leftFirst e₁ r₁)
    (h₂ : Evaluates leftFirst e₂ r₂) (op : BinaryOp) (hop : ∀ bound, op.apply bound r₁ r₂ = sfy bound r)
    (h : Represents r q) : ∃ r', Evaluates leftFirst (.binOp op e₁ e₂) r' ∧
      Represents r' q ∧ IsReduced r' := by
  obtain ⟨r', hr', hq, hreduced⟩ := exists_sfy h
  refine ⟨r', h₁.binOp h₂ (n := r.1.natAbs + r.2.natAbs + 1) fun bound hbound => ?_, hq, hreduced⟩
  rw [hop]
  exact hr' bound hbound

/-- A defined expression is evaluated to a fraction for its value, in lowest terms behind an addition
or a subtraction. -/
theorem exists_evaluates (leftFirst : Bool) (h : Defined e) :
    ∃ r, Evaluates leftFirst e r ∧ Represents r (value e) ∧ (Reduces e → IsReduced r) := by
  induction e with
  | const r => exact ⟨r, ⟨0, fun _ _ => rfl⟩, ⟨h, rfl⟩, False.elim⟩
  | unOp op e ih =>
    cases op
    obtain ⟨r, ⟨n, hr⟩, hq, -⟩ := ih h
    refine ⟨(-r.1, r.2), ⟨n, fun bound hbound => ?_⟩, hq.neg, False.elim⟩
    rw [evalExpr, hr bound hbound]
    rfl
  | binOp op e₁ e₂ ih₁ ih₂ =>
    obtain ⟨hd₁, hd₂, hdiv⟩ := h
    obtain ⟨r₁, hr₁, hq₁, -⟩ := ih₁ hd₁
    obtain ⟨r₂, hr₂, hq₂, -⟩ := ih₂ hd₂
    cases op with
    | add =>
      obtain ⟨r, hr, hq, hreduced⟩ := hr₁.exists_reduced hr₂ .add (fun _ => rfl) (hq₁.add hq₂)
      exact ⟨r, hr, hq, fun _ => hreduced⟩
    | sub =>
      obtain ⟨r, hr, hq, hreduced⟩ := hr₁.exists_reduced hr₂ .sub (fun _ => rfl) (hq₁.sub hq₂)
      exact ⟨r, hr, hq, fun _ => hreduced⟩
    | mul => exact ⟨_, hr₁.binOp hr₂ (n := 0) fun _ _ => rfl, hq₁.mul hq₂, False.elim⟩
    | div => exact ⟨_, hr₁.binOp hr₂ (n := 0) fun _ _ => rfl, hq₁.div hq₂ (hdiv rfl), False.elim⟩

/-- `eval_expr` raises nothing on a defined expression, and its result is exact. -/
theorem evalExpr_exact (leftFirst : Bool) (e : Expr) (h : Defined e) :
    ∃ n num den, (∀ bound, n ≤ bound → evalExpr leftFirst bound e = some (.ok (num, den))) ∧
      den ≠ 0 ∧ (num / den : ℚ) = value e ∧ (Reduces e → Int.gcd num den = 1) := by
  obtain ⟨r, ⟨n, hr⟩, hq, hreduced⟩ := exists_evaluates leftFirst h
  exact ⟨n, r.1, r.2, hr, hq.denom_ne_zero, hq.div_eq, hreduced⟩

/-- `1/4 - 1/8`. -/
theorem evalExpr_exact_sub : ∃ n num den,
    (∀ bound, n ≤ bound →
      evalExpr true bound (.binOp .sub (.const (1, 4)) (.const (1, 8))) = some (.ok (num, den))) ∧
    den ≠ 0 ∧ (num / den : ℚ) = value (.binOp .sub (.const (1, 4)) (.const (1, 8))) ∧
    (Reduces (.binOp .sub (.const (1, 4)) (.const (1, 8))) → Int.gcd num den = 1) :=
  evalExpr_exact true _ ⟨by simp [Defined], by simp [Defined], fun h => nomatch h⟩

end Sem3.Rational
