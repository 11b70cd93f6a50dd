import Sem3.Interpolation.Lagrange
import Mathlib.Algebra.BigOperators.Fin
import Mathlib.LinearAlgebra.Lagrange

/-!
# Proofs: Lagrange interpolation

The two recursions are a product and a sum over the positions of the points, and together the
interpolation polynomial at `x`. It is the only polynomial of its degree through the points.
-/

namespace Sem3.Interpolation

variable {κ K : Type*} [AddMonoidWithOne κ] [CharZero κ] [DecidableEq κ] [Field K]

/-! ## The recursions as a product and a sum -/

/-- The points count from `k` on; the one at position `j` is left out. -/
theorem lj_eq (x xj : K) (j : ℕ) (pr : List (K × K)) (k : ℕ) :
    lj x xj (j : κ) pr (k : κ) =
      ∏ i : Fin pr.length, if j = k + i then 1 else (x - pr[i].1) / (xj - pr[i].1) := by
  induction pr generalizing k with
  | nil => simp [lj]
  | cons q pr ih =>
    obtain ⟨xk, yk⟩ := q
    have hrest : lj x xj (j : κ) pr ((k : κ) + 1) =
        ∏ i : Fin pr.length, if j = k + 1 + i then 1 else (x - pr[i].1) / (xj - pr[i].1) := by
      have hnext := ih (k + 1)
      rwa [Nat.cast_add, Nat.cast_one] at hnext
    refine Eq.trans ?_ (Fin.prod_univ_succ (n := pr.length) _).symm
    calc lj x xj (j : κ) ((xk, yk) :: pr) (k : κ)
        = (if j = k then 1 else (x - xk) / (xj - xk)) * lj x xj (j : κ) pr ((k : κ) + 1) := by
          simp only [lj, Nat.cast_inj]
          split_ifs <;> simp
      _ = _ := by
          rw [hrest]
          refine congrArg₂ (· * ·) rfl (Finset.prod_congr rfl fun i _ => ?_)
          simp only [Fin.val_succ, Nat.add_assoc, Nat.add_comm 1, Fin.getElem_fin,
            List.getElem_cons_succ]

omit [CharZero κ] in
theorem lag_eq (p pr : List (K × K)) (n : ℕ) (x : K) :
    lag p pr (n : κ) x =
      ∑ i : Fin pr.length, pr[i].2 * lj x pr[i].1 ((n + i : ℕ) : κ) p 0 := by
  induction pr generalizing n with
  | nil => simp [lag]
  | cons q pr ih =>
    obtain ⟨xn, yn⟩ := q
    have hrest := ih (n + 1)
    rw [Nat.cast_add, Nat.cast_one] at hrest
    refine Eq.trans ?_ (Fin.sum_univ_succ (n := pr.length) _).symm
    simp only [lag, hrest, Fin.val_zero, Nat.add_zero, Fin.val_succ, Nat.add_right_comm n _ 1,
      ← Nat.add_assoc, Fin.getElem_fin, List.getElem_cons_zero, List.getElem_cons_succ]

/-! ## The interpolation polynomial -/

/-- The product for the point at position `j` is the basis polynomial of that point. -/
theorem lj_eq_basis (p : List (K × K)) (j : Fin p.length) (x : K) :
    lj x p[j].1 ((j : ℕ) : κ) p 0 =
      (Lagrange.basis Finset.univ (fun i : Fin p.length => p[i].1) j).eval x := by
  have hprod := lj_eq (κ := κ) x p[j].1 j p 0
  rw [Nat.cast_zero] at hprod
  rw [hprod, Lagrange.basis, Polynomial.eval_prod, ← Finset.mul_prod_erase _ _ (Finset.mem_univ j)]
  rw [if_pos (by simp), one_mul]
  refine Finset.prod_congr rfl fun i hi => ?_
  have hne : (j : ℕ) ≠ 0 + i := by
    have := Finset.ne_of_mem_erase hi
    rw [Nat.zero_add]
    exact fun h => this (Fin.ext h.symm)
  rw [if_neg hne, Lagrange.basisDivisor]
  simp [div_eq_inv_mul]

/-- The sum is the interpolation polynomial of Mathlib. -/
theorem lagrange_eq_interpolate (p : List (K × K)) (x : K) :
    lagrange κ p x =
      (Lagrange.interpolate Finset.univ (fun i : Fin p.length => p[i].1)
        fun i => p[i].2).eval x := by
  have hsum := lag_eq (κ := κ) p p 0 x
  rw [Nat.cast_zero] at hsum
  rw [lagrange, hsum, Lagrange.interpolate_apply, Polynomial.eval_finsetSum]
  refine Finset.sum_congr rfl fun j _ => ?_
  rw [Nat.zero_add, lj_eq_basis, Polynomial.eval_mul, Polynomial.eval_C]

/-- On points of a polynomial of a lower degree than their number, the result is that polynomial. -/
theorem lagrange_eq_eval (P : Polynomial K) (points : List (K × K))
    (hdistinct : (points.map Prod.fst).Nodup) (hpoints : ∀ q ∈ points, q.2 = P.eval q.1)
    (hdegree : P.degree < points.length) (z : K) : lagrange κ points z = P.eval z := by
  have hinj : Set.InjOn (fun i : Fin points.length => points[i].1)
      (Finset.univ : Finset (Fin points.length)) := by
    intro i _ j _ h
    have hget := List.nodup_iff_injective_getElem.mp hdistinct
    have := @hget ⟨i, by simp⟩ ⟨j, by simp⟩ (by simpa using h)
    exact Fin.ext (by simpa using this)
  have hP : P = Lagrange.interpolate Finset.univ (fun i : Fin points.length => points[i].1)
      fun i => points[i].2 :=
    Lagrange.eq_interpolate_of_eval_eq _ hinj (by simpa using hdegree) fun i _ =>
      (hpoints _ (List.getElem_mem _)).symm
  rw [lagrange_eq_interpolate]
  exact congrArg (Polynomial.eval z) hP.symm

open Polynomial in
/-- A line through two points. -/
theorem lagrange_line :
    lagrange ℚ [(0, 1), (1, 3)] 5 = (C 2 * X + C 1 : Polynomial ℚ).eval 5 :=
  lagrange_eq_eval (C 2 * X + C 1) [(0, 1), (1, 3)] (by decide)
    (by
      intro q hq
      rcases List.mem_pair.mp hq with rfl | rfl
      · simp
      · norm_num)
    degree_linear_lt 5

end Sem3.Interpolation
