import Sem3.Knapsack.Spec
import Mathlib.Data.List.Sublists

/-!
# Proofs: the choice of presents

The value that `m` returns is never negative, so a sum that overflows, and comes out negative, is
never chosen: the value is that of the presents whose names are returned. It is the best one as long
as no sum overflows.
-/

namespace Sem3.Knapsack

variable {ν : Type*} {pres ps c c' : List (Present ν)} {p : Present ν} {w wi : Int63} {s : List ν}

/-! ## Packings -/

@[simp]
theorem totalValue_cons (p : Present ν) (c : List (Present ν)) :
    totalValue (p :: c) = p.2.1.val + totalValue c := List.sum_cons

@[simp]
theorem totalWeight_cons (p : Present ν) (c : List (Present ν)) :
    totalWeight (p :: c) = p.2.2.val + totalWeight c := List.sum_cons

theorem Weighted.tail (h : Weighted (p :: ps)) : Weighted ps := fun q hq =>
  h q (List.mem_cons_of_mem p hq)

theorem Weighted.totalWeight_nonneg (h : Weighted c) : 0 ≤ totalWeight c := by
  induction c with
  | nil => exact le_refl 0
  | cons p c ih =>
    have hp := h p List.mem_cons_self
    have hc := ih h.tail
    rw [totalWeight_cons]
    omega

/-- What is left of the weight does not overflow. -/
theorem val_sub (hwi : 0 ≤ wi.val) (h : wi.val ≤ w.val) : (w - wi).val = w.val - wi.val := by
  have hupper := w.upper
  exact Int63.val_ofInt (by omega) (by omega)

/-- A sum that overflows is negative, so that it does not reach a value that is not. -/
theorem val_add_of_not_gt {f a v : Int63} (hf : 0 ≤ f.val) (ha : 0 ≤ a.val) (h : ¬ f > a + v) :
    (a + v).val = a.val + v.val ∧ 0 ≤ a.val + v.val := by
  have hle : f.val ≤ (a + v).val := not_lt.1 (Int63.lt_iff.not.1 h)
  have hv := v.lower
  have hv' := v.upper
  have ha' := a.upper
  by_cases hover : 2 ^ 62 ≤ a.val + v.val
  · rw [Int63.val_add_of_overflow hover] at hle
    omega
  · have hsum : (a + v).val = a.val + v.val := Int63.val_add (by omega) (by omega)
    omega

theorem packable_nil (hw : 0 ≤ w.val) : Packable pres w [] := ⟨List.nil_sublist pres, hw⟩

theorem Packable.skip (h : Packable ps w c) : Packable (p :: ps) w c :=
  ⟨h.1.trans (List.sublist_cons_self p ps), h.2⟩

theorem Packable.take (hp : 0 ≤ p.2.2.val) (hle : p.2.2.val ≤ w.val)
    (h : Packable ps (w - p.2.2) c) : Packable (p :: ps) w (p :: c) := by
  have hweight := h.2
  rw [val_sub hp hle] at hweight
  refine ⟨h.1.cons_cons p, ?_⟩
  rw [totalWeight_cons]
  omega

/-- A packing leaves out the first present, or it takes it and packs the rest of the capacity. -/
theorem Packable.cases (hps : Weighted (p :: ps)) (h : Packable (p :: ps) w c) :
    Packable ps w c ∨
      p.2.2.val ≤ w.val ∧ ∃ c', c = p :: c' ∧ Packable ps (w - p.2.2) c' := by
  obtain ⟨hsub, hweight⟩ := h
  cases hsub with
  | cons _ hsub => exact .inl ⟨hsub, hweight⟩
  | @cons_cons c' _ _ hsub =>
    have hp := hps p List.mem_cons_self
    have hc' : 0 ≤ totalWeight c' :=
      Weighted.totalWeight_nonneg fun q hq => hps q (List.mem_cons_of_mem p (hsub.subset hq))
    rw [totalWeight_cons] at hweight
    refine .inr ⟨by omega, c', rfl, hsub, ?_⟩
    rw [val_sub hp (by omega)]
    omega

theorem Fits.skip (h : Fits (p :: ps) w) : Fits ps w := fun c hc => h c hc.skip

/-- A packing beside the first present, and without it. -/
theorem Fits.take (hp : 0 ≤ p.2.2.val) (hle : p.2.2.val ≤ w.val) (h : Fits (p :: ps) w) :
    ∀ c, Packable ps (w - p.2.2) c → totalValue c < 2 ^ 62 ∧ p.2.1.val + totalValue c < 2 ^ 62 := by
  intro c hc
  refine ⟨h c (Packable.skip ⟨hc.1, ?_⟩), ?_⟩
  · have hweight := hc.2
    rw [val_sub hp hle] at hweight
    omega
  · rw [← totalValue_cons]
    exact h _ (hc.take hp hle)

/-! ## What `m` returns -/

/-- The value returned is that of a packing, whose names stand before those of `s`. -/
theorem exists_packing (hps : Weighted ps) (hw : 0 ≤ w.val) (s : List ν) :
    ∃ c, Packable ps w c ∧ (m ps w s).2.Perm (c.map Prod.fst ++ s) ∧
      (m ps w s).1.val = totalValue c ∧ 0 ≤ totalValue c := by
  induction ps generalizing w s with
  | nil => exact ⟨[], packable_nil hw, List.Perm.refl s, rfl, le_refl 0⟩
  | cons p ps ih =>
    obtain ⟨ni, vi, wi⟩ := p
    obtain ⟨f, hf, hfnames, hfval, hfpos⟩ := ih hps.tail hw s
    have hwi : 0 ≤ wi.val := hps _ List.mem_cons_self
    rw [m]
    split_ifs with hgt
    · exact ⟨f, hf.skip, hfnames, hfval, hfpos⟩
    · have hle : wi.val ≤ w.val := not_lt.1 (Int63.lt_iff.not.1 hgt)
      obtain ⟨a, ha, hanames, haval, hapos⟩ :=
        ih (w := w - wi) hps.tail (by rw [val_sub hwi hle]; omega) (ni :: s)
      simp only
      split_ifs with hbetter
      · exact ⟨f, hf.skip, hfnames, hfval, hfpos⟩
      · rw [← hfval] at hfpos
        rw [← haval] at hapos
        obtain ⟨hsum, hpos⟩ := val_add_of_not_gt hfpos hapos hbetter
        refine ⟨(ni, vi, wi) :: a, ha.take hwi hle, hanames.trans List.perm_middle, ?_, ?_⟩
        · rw [hsum, haval, totalValue_cons, add_comm]
        · rw [totalValue_cons, ← haval, add_comm]
          exact hpos

/-- If no sum overflows, no packing has a greater value. -/
theorem totalValue_le_m (hps : Weighted ps) (hw : 0 ≤ w.val) (hfits : Fits ps w) (s : List ν)
    (hc : Packable ps w c) : totalValue c ≤ (m ps w s).1.val := by
  induction ps generalizing w s c with
  | nil =>
    obtain rfl := List.sublist_nil.1 hc.1
    exact le_refl 0
  | cons p ps ih =>
    obtain ⟨ni, vi, wi⟩ := p
    have hwi : 0 ≤ wi.val := hps _ List.mem_cons_self
    have hskip : ∀ c, Packable ps w c → totalValue c ≤ (m ps w s).1.val := fun c hc =>
      ih hps.tail hw hfits.skip s hc
    rw [m]
    split_ifs with hgt
    · rcases hc.cases hps with hc | ⟨hle, -⟩
      · exact hskip c hc
      · exact absurd hle (not_le.2 (Int63.lt_iff.1 hgt))
    · have hle : wi.val ≤ w.val := not_lt.1 (Int63.lt_iff.not.1 hgt)
      have hrest : 0 ≤ (w - wi).val := by
        rw [val_sub hwi hle]
        omega
      have hsmall := hfits.take hwi hle
      have htake : ∀ c, Packable ps (w - wi) c → totalValue c ≤ (m ps (w - wi) (ni :: s)).1.val :=
        fun c hc => ih hps.tail hrest (fun c hc => (hsmall c hc).1) (ni :: s) hc
      obtain ⟨a, ha, -, haval, hapos⟩ := exists_packing hps.tail hrest (ni :: s)
      have hsum : ((m ps (w - wi) (ni :: s)).1 + vi).val =
          (m ps (w - wi) (ni :: s)).1.val + vi.val := by
        have hvi := vi.lower
        have hlt : vi.val + totalValue a < 2 ^ 62 := (hsmall a ha).2
        rw [← haval] at hapos hlt
        exact Int63.val_add (by omega) (by omega)
      simp only
      rcases hc.cases hps with hc | ⟨-, c', rfl, hc'⟩
      · have hcle := hskip c hc
        split_ifs with hbetter
        · exact hcle
        · exact hcle.trans (not_lt.1 (Int63.lt_iff.not.1 hbetter))
      · have hcle := htake c' hc'
        rw [totalValue_cons, add_comm]
        split_ifs with hbetter
        · rw [gt_iff_lt, Int63.lt_iff, hsum] at hbetter
          simp only
          omega
        · simp only [hsum]
          omega

/-! ## The choice -/

/-- If no sum overflows, the packing is the best one. -/
theorem optimal_of_fits (hpres : Weighted pres) (hw : 0 ≤ w.val) (hfits : Fits pres w) :
    Optimal pres w (knapsack pres w) := by
  obtain ⟨c, hc, hnames, hval, -⟩ := exists_packing hpres hw []
  rw [List.append_nil] at hnames
  refine ⟨c, hc, hnames, fun c' hc' => ?_⟩
  rw [← hval]
  exact totalValue_le_m hpres hw hfits [] hc'

/-- The names determine the values. -/
theorem Priced.exists_value (h : Priced pres) : ∃ value : ν → ℤ, ∀ p ∈ pres, p.2.1.val = value p.1 := by
  classical
  refine ⟨fun n => if hn : ∃ p ∈ pres, p.1 = n then (Classical.choose hn).2.1.val else 0, ?_⟩
  intro p hp
  have hn : ∃ q ∈ pres, q.1 = p.1 := ⟨p, hp, rfl⟩
  obtain ⟨hq, heq⟩ := Classical.choose_spec hn
  simp only [dif_pos hn, h p hp _ hq heq.symm]

/-- Packings with the same names have the same value. -/
theorem Priced.totalValue_eq_of_perm (h : Priced pres) (hc : c.Sublist pres) (hc' : c'.Sublist pres)
    (hperm : (c.map Prod.fst).Perm (c'.map Prod.fst)) : totalValue c = totalValue c' := by
  obtain ⟨value, hvalue⟩ := h.exists_value
  have hnames : ∀ {c : List (Present ν)}, c.Sublist pres →
      totalValue c = ((c.map Prod.fst).map value).sum := by
    intro c hc
    rw [totalValue, List.map_map]
    exact congrArg List.sum (List.map_congr_left fun p hp => hvalue p (hc.subset hp))
  rw [hnames hc, hnames hc']
  exact (hperm.map value).sum_eq

/-- If a name has one value and the packing is the best one, no sum overflows. -/
theorem fits_of_optimal (hpres : Weighted pres) (hw : 0 ≤ w.val) (hpriced : Priced pres)
    (h : Optimal pres w (knapsack pres w)) : Fits pres w := by
  obtain ⟨c, hc, hnames, hbest⟩ := h
  obtain ⟨d, hd, hdnames, hdval, -⟩ := exists_packing hpres hw []
  rw [List.append_nil] at hdnames
  have hcd := hpriced.totalValue_eq_of_perm hc.1 hd.1 (hnames.symm.trans hdnames)
  intro c' hc'
  calc totalValue c' ≤ totalValue c := hbest c' hc'
    _ = (m pres w []).1.val := by rw [hcd, hdval]
    _ < 2 ^ 62 := (m pres w []).1.upper

/-- `knapsack` chooses an optimal packing if no packing has a value above the greatest integer, and
only then if presents of one name have one value. -/
theorem knapsack_optimal (pres : List (Present ν)) (w : Int63) (hpres : Weighted pres)
    (hw : 0 ≤ w.val) : (Fits pres w → Optimal pres w (knapsack pres w)) ∧
      (Priced pres → (Optimal pres w (knapsack pres w) ↔ Fits pres w)) :=
  ⟨optimal_of_fits hpres hw, fun hpriced =>
    ⟨fits_of_optimal hpres hw hpriced, optimal_of_fits hpres hw⟩⟩

/-- The presents of a test. -/
def testPresents : List (Present Char) := [('a', 100, 10), ('b', 81, 9), ('c', 81, 9)]

/-- The presents of the test. -/
theorem knapsack_optimal_test : knapsack testPresents 18 = ['c', 'b'] ∧
    Optimal testPresents 18 (knapsack testPresents 18) :=
  have hfits : ∀ c ∈ testPresents.sublists', totalValue c < 2 ^ 62 := by decide
  ⟨by decide, (knapsack_optimal testPresents 18 (by decide) (by decide)).1 fun c hc =>
    hfits c (List.mem_sublists'.2 hc.1)⟩

/-- The second value is 1 and the first one `max_int`, which is lost with their sum. -/
def hugePresents : List (Present Char) := [('a', ⟨2 ^ 62 - 1, by decide, by decide⟩, 0), ('b', 1, 0)]

/-- Two presents whose values overflow together. -/
theorem not_optimal_hugePresents :
    knapsack hugePresents 0 = ['b'] ∧ ¬ Optimal hugePresents 0 (knapsack hugePresents 0) := by
  refine ⟨by decide, fun h => ?_⟩
  have hfits := fits_of_optimal (by decide) (by decide) (by decide) h
  exact absurd (hfits hugePresents ⟨List.Sublist.refl _, by decide⟩) (by decide)

end Sem3.Knapsack
