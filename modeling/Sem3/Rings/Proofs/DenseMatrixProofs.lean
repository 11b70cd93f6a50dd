import Sem3.Rings.Spec
import Mathlib.Data.List.Basic

/-!
# Proofs: dense matrices

`traverse` calls its function with numbers that count from 1 on, and `set` gives it bounds that are
one too small. So `set` leaves out the first row and the first column (`set_eq`).
-/

namespace Sem3.Rings.DenseMatrix

open Ocaml (Exn)

variable {α : Type} {leftFirst : Bool} {fuel r c i j : ℕ} {f : ℤ → ℤ → Except Exn α} {rn cn x y : ℤ}
  {m m' : List (List α)} {l row : List α} {v a : α}

/-! ## Traversals -/

theorem cons_ok {x : Bounded Exn α} {xs : Bounded Exn (List α)} (hx : x = some (.ok a))
    (hxs : xs = some (.ok l)) : cons leftFirst x xs = some (.ok (a :: l)) := by
  subst hx hxs
  cases leftFirst <;> rfl

/-- The row whose elements the function gives. -/
theorem rt_eq (hcn : x + l.length = cn) (hfuel : l.length < fuel)
    (hf : ∀ (k : ℕ) (hk : k < l.length), f (x + k + 1) (y + 1) = .ok l[k]) :
    rt leftFirst f cn fuel x y = some (.ok l) := by
  induction l generalizing x fuel with
  | nil =>
    obtain _ | fuel := fuel
    · exact absurd hfuel (Nat.not_lt_zero _)
    · rw [List.length_nil, Nat.cast_zero, add_zero] at hcn
      rw [rt, if_pos hcn]
      rfl
  | cons a l ih =>
    obtain _ | fuel := fuel
    · exact absurd hfuel (Nat.not_lt_zero _)
    · rw [List.length_cons] at hcn hfuel
      push_cast at hcn
      rw [rt, if_neg (by omega)]
      refine cons_ok (congrArg some ?_) (ih (by omega) (by omega) fun k hk => ?_)
      · simpa using hf 0 (Nat.zero_lt_succ _)
      · have hnext := hf (k + 1) (by simpa using hk)
        rw [List.getElem_cons_succ] at hnext
        rw [← hnext]
        congr 1
        push_cast
        omega

/-- The rows whose elements the function gives. -/
theorem ct_eq (hrn : y + m.length = rn) (hcn : ∀ row ∈ m, row.length = c)
    (hfuel : m.length + c < fuel)
    (hf : ∀ (j : ℕ) (hj : j < m.length) (k : ℕ) (hk : k < m[j].length),
      f (k + 1) (y + j + 1) = .ok m[j][k]) :
    ct leftFirst f rn c fuel y = some (.ok m) := by
  induction m generalizing y fuel with
  | nil =>
    obtain _ | fuel := fuel
    · exact absurd hfuel (Nat.not_lt_zero _)
    · rw [List.length_nil, Nat.cast_zero, add_zero] at hrn
      rw [ct, if_pos hrn]
      rfl
  | cons row m ih =>
    obtain _ | fuel := fuel
    · exact absurd hfuel (Nat.not_lt_zero _)
    · have hrow := hcn row List.mem_cons_self
      rw [List.length_cons] at hrn hfuel
      push_cast at hrn
      rw [ct, if_neg (by omega)]
      refine cons_ok (rt_eq (by omega) (by omega) fun k hk => ?_)
        (ih (by omega) (fun row' hrow' => hcn row' (List.mem_cons_of_mem row hrow')) (by omega)
          fun j hj k hk => ?_)
      · simpa using hf 0 (Nat.zero_lt_succ _) k hk
      · have hnext := hf (j + 1) (by simpa using hj) k hk
        simp only [List.getElem_cons_succ] at hnext
        rw [← hnext]
        congr 1
        push_cast
        omega

/-- A new matrix has the zero of the ring everywhere. -/
theorem create_eq (X : Ring α) (leftFirst : Bool) (hfuel : r + c < fuel) :
    create X leftFirst fuel r c = some (.ok (List.replicate r (List.replicate c X.zero))) := by
  refine ct_eq (by simp) ?_ (by simpa using hfuel) fun j hj k hk => ?_
  · intro row hrow
    rw [List.eq_of_mem_replicate hrow, List.length_replicate]
  · simp

theorem cons_mono {x x' : Bounded Exn α} {xs xs' : Bounded Exn (List α)} {o : Except Exn (List α)}
    (hx : ∀ o, x = some o → x' = some o) (hxs : ∀ o, xs = some o → xs' = some o)
    (h : cons leftFirst x xs = some o) : cons leftFirst x' xs' = some o := by
  cases leftFirst
  · exact Bounded.bind_mono hxs (fun _ _ => Bounded.bind_mono hx fun _ _ ho => ho) h
  · exact Bounded.bind_mono hx (fun _ _ => Bounded.bind_mono hxs fun _ _ ho => ho) h

/-- A row that ends with a bound ends in the same way with the next one. -/
theorem rt_succ {o : Except Exn (List α)} (h : rt leftFirst f cn fuel x y = some o) :
    rt leftFirst f cn (fuel + 1) x y = some o := by
  induction fuel generalizing x o with
  | zero => cases h
  | succ fuel ih =>
    rw [rt] at h ⊢
    split_ifs at h ⊢
    · exact h
    · exact cons_mono (fun _ ho => ho) (fun _ ho => ih ho) h

/-- A traversal that ends with a bound ends in the same way with the next one. -/
theorem ct_succ {o : Except Exn (List (List α))} (h : ct leftFirst f rn cn fuel y = some o) :
    ct leftFirst f rn cn (fuel + 1) y = some o := by
  induction fuel generalizing y o with
  | zero => cases h
  | succ fuel ih =>
    rw [ct] at h ⊢
    split_ifs at h ⊢
    · exact h
    · exact cons_mono (fun _ ho => rt_succ ho) (fun _ ho => ih ho) h

theorem ct_mono {n : ℕ} {o : Except Exn (List (List α))} (hle : fuel ≤ n)
    (h : ct leftFirst f rn cn fuel y = some o) : ct leftFirst f rn cn n y = some o := by
  induction hle with
  | refl => exact h
  | step _ ih => exact ct_succ ih

/-- The result of `set` does not depend on the bound. -/
theorem set_unique {n : ℕ} {o o' : Except Exn (List (List α))}
    (h : set leftFirst fuel x y v m = some o) (h' : set leftFirst n x y v m = some o') : o = o' := by
  rcases le_total fuel n with hle | hle
  · exact Option.some.inj ((ct_mono hle h).symm.trans h')
  · exact Option.some.inj (h.symm.trans (ct_mono hle h'))

/-! ## Updates -/

theorem get_eq (hi : i < m.length) (hj : j < m[i].length) : get i j m = .ok m[i][j] := by
  rw [get, Ocaml.nth_of_lt hi]
  exact Ocaml.nth_of_lt hj

/-- `set` returns the update without its first row and its first column. -/
theorem set_eq (leftFirst : Bool) (hm : Rectangular r c m) (hi : i < r) (hj : j < c) (v : α)
    (hfuel : r + c < fuel) : set leftFirst fuel i j v m =
      some (.ok (((m.modify i fun row => row.set j v).tail).map List.tail)) := by
  obtain ⟨rfl, hc⟩ := hm
  have hcols : cols m = c := by
    cases m with
    | nil => exact absurd hi (Nat.not_lt_zero i)
    | cons row m => exact congrArg Nat.cast (hc row List.mem_cons_self)
  have hc' : ∀ row ∈ m.modify i fun row => row.set j v, row.length = c := by
    intro row hrow
    obtain ⟨k, hk, rfl⟩ := List.mem_iff_getElem.1 hrow
    rw [List.length_modify] at hk
    rw [List.getElem_modify]
    split_ifs
    · rw [List.length_set]
      exact hc _ (List.getElem_mem _)
    · exact hc _ (List.getElem_mem _)
  rw [set, hcols, show (c : ℤ) - 1 = (c - 1 : ℕ) by omega, traverse]
  refine ct_eq ?_ ?_ ?_ fun j' hj' k hk => ?_
  · rw [List.length_map, List.length_tail, List.length_modify, rows]
    omega
  · intro row hrow
    obtain ⟨row', hrow', rfl⟩ := List.mem_map.1 hrow
    rw [List.length_tail, hc' row' (List.mem_of_mem_tail hrow')]
  · rw [List.length_map, List.length_tail, List.length_modify]
    omega
  · simp only [List.length_map, List.length_tail, List.length_modify] at hj'
    simp only [List.getElem_map, List.getElem_tail, List.getElem_modify] at hk ⊢
    have hrow : m[j' + 1].length = c := hc _ (List.getElem_mem _)
    have hk' : k + 1 < m[j' + 1].length := by
      rw [List.length_tail, apply_ite List.length, List.length_set, ite_self] at hk
      omega
    rw [show (0 : ℤ) + j' + 1 = (j' + 1 : ℕ) by omega, show (k : ℤ) + 1 = (k + 1 : ℕ) by omega,
      get_eq (by omega) hk']
    simp only [Nat.cast_inj]
    by_cases hi' : i = j' + 1
    · subst hi'
      simp only [and_true, if_true, List.getElem_set, eq_comm (a := j)]
      split_ifs <;> rfl
    · simp only [hi', Ne.symm hi', and_false, if_false]

/-- An element that `get` finds lies inside of the matrix. -/
theorem lt_of_get (hm : Rectangular r c m) (h : get i j m = .ok v) : i < r ∧ j < c := by
  obtain ⟨rfl, hc⟩ := hm
  have hi : i < m.length := by
    cases hrow : Ocaml.nth m i with
    | ok row =>
      have := (Ocaml.exists_nth_iff.1 ⟨row, hrow⟩).2
      omega
    | error e =>
      rw [get, hrow] at h
      cases h
  rw [get, Ocaml.nth_of_lt hi] at h
  have hrow : Ocaml.nth m[i] j = .ok v := h
  have hj := (Ocaml.exists_nth_iff.1 ⟨v, hrow⟩).2
  have hlen := hc m[i] (List.getElem_mem hi)
  omega

/-- The law does not hold for any matrix. -/
theorem not_updateLaw (leftFirst : Bool) (hm : Rectangular r c m) (i j : ℕ) (v : α) :
    ¬ UpdateLaw leftFirst r c i j v m := by
  rintro ⟨fuel, m', hset, hupdates⟩
  obtain ⟨hi, hj⟩ := lt_of_get hupdates.shape hupdates.new
  have heq := set_eq leftFirst hm hi hj v (Nat.lt_succ_self (r + c))
  obtain rfl := Except.ok.inj (set_unique hset heq)
  have hlen := hupdates.shape.1
  rw [List.length_map, List.length_tail, List.length_modify, hm.1] at hlen
  omega

/-- The identity of size 2, at the place of the test. -/
theorem not_updateLaw_two : ¬ UpdateLaw false 2 2 1 0 7 [[(1 : Int63), 0], [0, 1]] :=
  not_updateLaw false ⟨rfl, by simp⟩ 1 0 7

/-- The matrix of the test, which expects `[[1;0];[7;1]]`. -/
theorem not_updateLaw_identity :
    identity IntRing false 5 2 = some (.ok [[1, 0], [0, 1]]) ∧
      set false 3 1 0 7 [[(1 : Int63), 0], [0, 1]] = some (.ok [[1]]) ∧
        ¬ ∀ (m : List (List Int63)) (r c i j : ℕ) (v : Int63), Rectangular r c m → 1 ≤ r → 1 ≤ c →
          i < r → j < c → UpdateLaw false r c i j v m := by
  have hset : set false 3 1 0 7 [[(1 : Int63), 0], [0, 1]] = some (.ok [[1]]) := rfl
  refine ⟨rfl, hset, fun h => ?_⟩
  obtain ⟨fuel, m', hset', hupdates⟩ := h [[1, 0], [0, 1]] 2 2 1 0 7 ⟨rfl, by simp⟩ (by omega)
    (by omega) (by omega) (by omega)
  obtain rfl := Except.ok.inj (set_unique hset hset')
  exact absurd hupdates.shape.1 (by decide)

end Sem3.Rings.DenseMatrix
