import Mathlib.Logic.Relation
import Mathlib.Order.WellFounded
import Mathlib.Data.Nat.Notation

/-!
# Loops as step functions

A loop is given by a function `step` on the state at the head of one pass: the loop either goes
round again with a new state or leaves with a result. `iterate` runs a loop for at most `n` passes,
`Returns` is the run without a bound, and `Visits` relates the states seen at the head of the loop;
`Passes` numbers them.

The rules below are the ones a loop is reasoned with: one pass at a time (`returns_of_again`,
`returns_of_leave`), an invariant of all visited states (`Visits.invariant`), termination by a
well-founded order (`exists_returns`), a value that is kept until the loop leaves with it
(`iterate_eq`), divergence by an invariant that never leaves (`not_returns`), a simulation between
two loops (`iterate_map`, and `iterate_map_of` under an invariant), and a resource that every pass
uses (`guard_leaves_iff`).
-/

namespace Loop

/-- The outcome of one pass through a loop: go round again, or leave with a result. -/
inductive Pass (σ ρ : Type*) where
  | again (s : σ)
  | leave (r : ρ)

/-- A pass on other states, with another result. -/
def Pass.map {σ τ ρ π : Type*} (f : σ → τ) (g : ρ → π) : Pass σ ρ → Pass τ π
  | .again s => .again (f s)
  | .leave r => .leave (g r)

variable {σ τ ρ π : Type*} {step : σ → Pass σ ρ} {s s' : σ} {r r' : ρ}

/-- Run the loop for at most `n` passes; `none` if it has not left by then. -/
def iterate (step : σ → Pass σ ρ) : ℕ → σ → Option ρ
  | 0, _ => none
  | n + 1, s =>
    match step s with
    | .again s' => iterate step n s'
    | .leave r => some r

/-- The loop started in `s` leaves with result `r` after finitely many passes. -/
def Returns (step : σ → Pass σ ρ) (s : σ) (r : ρ) : Prop := ∃ n, iterate step n s = some r

/-- `s'` is the state at the head of some pass of the loop started in `s`. -/
def Visits (step : σ → Pass σ ρ) : σ → σ → Prop :=
  Relation.ReflTransGen fun a b => step a = .again b

/-- `s 0` to `s n` are the states before, between and behind `n` passes that go round again. -/
def Passes (step : σ → Pass σ ρ) (s : ℕ → σ) (n : ℕ) : Prop :=
  ∀ k < n, step (s k) = .again (s (k + 1))

/-! ## One pass at a time -/

theorem iterate_succ_again (h : step s = .again s') (n : ℕ) :
    iterate step (n + 1) s = iterate step n s' := by
  simp only [iterate, h]

theorem iterate_succ_leave (h : step s = .leave r) (n : ℕ) :
    iterate step (n + 1) s = some r := by
  simp only [iterate, h]

/-- A pass that goes on does not change the result. -/
theorem returns_of_again (h : step s = .again s') : Returns step s r ↔ Returns step s' r := by
  constructor
  · rintro ⟨n, hn⟩
    cases n with
    | zero => exact absurd hn (by simp [iterate])
    | succ n => exact ⟨n, by rw [← iterate_succ_again h]; exact hn⟩
  · rintro ⟨n, hn⟩
    exact ⟨n + 1, by rw [iterate_succ_again h]; exact hn⟩

theorem returns_of_leave (h : step s = .leave r') : Returns step s r ↔ r = r' := by
  constructor
  · rintro ⟨n, hn⟩
    cases n with
    | zero => exact absurd hn (by simp [iterate])
    | succ n =>
      rw [iterate_succ_leave h] at hn
      exact (Option.some.inj hn).symm
  · rintro rfl
    exact ⟨1, iterate_succ_leave h 0⟩

/-- With a greater bound the result is the same. -/
theorem iterate_mono {n m : ℕ} (hnm : n ≤ m) :
    ∀ {s : σ}, iterate step n s = some r → iterate step m s = some r := by
  induction n generalizing m with
  | zero => intro s hn; exact absurd hn (by simp [iterate])
  | succ n ih =>
    intro s hn
    obtain ⟨k, rfl⟩ : ∃ k, m = k + 1 := ⟨m - 1, by omega⟩
    cases hs : step s with
    | again s' =>
      rw [iterate_succ_again hs] at hn ⊢
      exact ih (by omega) hn
    | leave r' =>
      rw [iterate_succ_leave hs] at hn ⊢
      exact hn

/-! ## Invariants -/

/-- What every pass keeps holds at the head of every pass. -/
theorem Visits.invariant {I : σ → Prop} (h : Visits step s s') (h0 : I s)
    (hstep : ∀ a b, I a → step a = .again b → I b) : I s' := by
  induction h with
  | refl => exact h0
  | tail _ hab ih => exact hstep _ _ ih hab

/-- A loop that ends has a last pass. -/
theorem Returns.exists_visits (h : Returns step s r) :
    ∃ a, Visits step s a ∧ step a = .leave r := by
  obtain ⟨n, hn⟩ := h
  induction n generalizing s with
  | zero => exact absurd hn (by simp [iterate])
  | succ n ih =>
    cases hs : step s with
    | again s' =>
      rw [iterate_succ_again hs] at hn
      obtain ⟨a, ha, hl⟩ := ih hn
      exact ⟨a, Relation.ReflTransGen.head hs ha, hl⟩
    | leave r' =>
      rw [iterate_succ_leave hs] at hn
      exact ⟨s, .refl, by rw [hs, Option.some.inj hn]⟩

/-- The loop leaves with the same result from each state that it visits. -/
theorem Visits.returns_iff (h : Visits step s s') : Returns step s r ↔ Returns step s' r := by
  induction h with
  | refl => exact Iff.rfl
  | tail _ hab ih => exact ih.trans (returns_of_again hab)

/-- A loop that can only go round again as long as an invariant holds never leaves. -/
theorem not_returns {I : σ → Prop} (h0 : I s)
    (hstep : ∀ a, I a → ∃ b, step a = .again b ∧ I b) : ¬ Returns step s r := by
  intro h
  obtain ⟨a, ha, hl⟩ := h.exists_visits
  have hI : I a := ha.invariant h0 fun a b hab hb => by
    obtain ⟨b', hb', hI⟩ := hstep a hab
    rw [hb] at hb'
    cases hb'
    exact hI
  obtain ⟨b, hb, -⟩ := hstep a hI
  rw [hl] at hb
  cases hb

theorem Passes.visits {s : ℕ → σ} {n k : ℕ} (h : Passes step s n) (hk : k ≤ n) :
    Visits step (s 0) (s k) := by
  induction k with
  | zero => exact .refl
  | succ k ih => exact (ih (by omega)).tail (h k (by omega))

/-! ## Termination -/

/-- If every pass goes down in a well-founded order, the loop leaves. -/
theorem exists_returns {α : Type*} {lt : α → α → Prop} (hwf : WellFounded lt) (μ : σ → α)
    {I : σ → Prop} (h0 : I s)
    (hstep : ∀ a b, I a → step a = .again b → I b ∧ lt (μ b) (μ a)) :
    ∃ r, Returns step s r := by
  have key : ∀ x s, μ s = x → I s → ∃ r, Returns step s r := by
    intro x
    induction x using hwf.induction with
    | _ x ih =>
      rintro s rfl hI
      cases hs : step s with
      | again s' =>
        obtain ⟨hI', hlt⟩ := hstep s s' hI hs
        obtain ⟨r, hr⟩ := ih (μ s') hlt s' rfl hI'
        exact ⟨r, (returns_of_again hs).2 hr⟩
      | leave r => exact ⟨r, (returns_of_leave hs).2 rfl⟩
  exact key (μ s) s rfl h0

/-- With a natural-number measure, one pass more than the measure is enough. -/
theorem exists_iterate (μ : σ → ℕ) {I : σ → Prop} (h0 : I s)
    (hstep : ∀ a b, I a → step a = .again b → I b ∧ μ b < μ a) {n : ℕ} (hn : μ s < n) :
    ∃ r, iterate step n s = some r := by
  induction n generalizing s with
  | zero => exact absurd hn (Nat.not_lt_zero _)
  | succ n ih =>
    cases hs : step s with
    | again s' =>
      obtain ⟨hI, hlt⟩ := hstep s s' h0 hs
      rw [iterate_succ_again hs]
      exact ih hI (by omega)
    | leave r => exact ⟨r, iterate_succ_leave hs n⟩

/-- A value that no pass changes, and that is the result of a pass that leaves, is the result of the
loop. -/
theorem iterate_eq {f : σ → ρ} (μ : σ → ℕ) {I : σ → Prop} (h0 : I s)
    (hstep : ∀ a b, I a → step a = .again b → I b ∧ μ b < μ a ∧ f b = f a)
    (hleave : ∀ a r, I a → step a = .leave r → r = f a) {n : ℕ} (hn : μ s < n) :
    iterate step n s = some (f s) := by
  induction n generalizing s with
  | zero => exact absurd hn (Nat.not_lt_zero _)
  | succ n ih =>
    cases hs : step s with
    | again s' =>
      obtain ⟨hI, hlt, hf⟩ := hstep s s' h0 hs
      rw [iterate_succ_again hs, ih hI (by omega), hf]
    | leave r => rw [iterate_succ_leave hs, hleave s r h0 hs]

/-! ## Simulation -/

section Simulation

variable {step' : τ → Pass τ π} {f : σ → τ} {g : ρ → π} {I : σ → Prop}

/-- If `f` carries every pass of one loop to a pass of another while an invariant holds, it carries
its runs. -/
theorem iterate_map_of (h : ∀ s, I s → step' (f s) = (step s).map f g)
    (hI : ∀ a b, I a → step a = .again b → I b) (n : ℕ) {s : σ} (h0 : I s) :
    iterate step' n (f s) = (iterate step n s).map g := by
  induction n generalizing s with
  | zero => rfl
  | succ n ih =>
    cases hs : step s with
    | again s' =>
      have h' : step' (f s) = .again (f s') := by rw [h s h0, hs]; rfl
      rw [iterate_succ_again h', iterate_succ_again hs, ih (hI s s' h0 hs)]
    | leave r =>
      have h' : step' (f s) = .leave (g r) := by rw [h s h0, hs]; rfl
      rw [iterate_succ_leave h', iterate_succ_leave hs]
      rfl

/-- A simulation of the passes is one of the loop. -/
theorem iterate_map (f : σ → τ) (g : ρ → π) (h : ∀ s, step' (f s) = (step s).map f g) (n : ℕ)
    (s : σ) : iterate step' n (f s) = (iterate step n s).map g :=
  iterate_map_of (I := fun _ => True) (fun s _ => h s) (fun _ _ _ _ => trivial) n trivial

/-- The states of the second loop are the images of states that the first one visits. -/
theorem Visits.exists_of_map (h : ∀ s, I s → step' (f s) = (step s).map f g)
    (hI : ∀ a b, I a → step a = .again b → I b) (h0 : I s) {t : τ} (ht : Visits step' (f s) t) :
    ∃ a, Visits step s a ∧ I a ∧ f a = t := by
  induction ht with
  | refl => exact ⟨s, .refl, h0, rfl⟩
  | tail _ hstep ih =>
    obtain ⟨a, ha, hIa, rfl⟩ := ih
    rw [h a hIa] at hstep
    cases hs : step a with
    | again b =>
      rw [hs] at hstep
      exact ⟨b, ha.tail hs, hI a b hIa hs, Pass.again.inj hstep⟩
    | leave r =>
      rw [hs] at hstep
      cases hstep

end Simulation

/-! ## Loops with a resource -/

section Guard

variable {κ : Type*} {use : σ → κ → Option κ}

/-- The loop of `step` where every pass uses a resource first; it leaves with `none` if a pass cannot
have what it needs. -/
def guard (step : σ → Pass σ ρ) (use : σ → κ → Option κ) (x : σ × κ) :
    Pass (σ × κ) (Option ρ) :=
  match use x.1 x.2 with
  | none => .leave none
  | some k => (step x.1).map (·, k) some

/-- If `P` says at every pass that the pass can have what it needs and that `P` holds behind it, the
loop has all that it needs if and only if `P` holds at the beginning. -/
theorem guard_leaves_iff (μ : σ → ℕ) {I P : σ × κ → Prop} {x : σ × κ} (h0 : I x)
    (hagain : ∀ x s', I x → step x.1 = .again s' →
      (P x ↔ ∃ k, use x.1 x.2 = some k ∧ P (s', k)) ∧
        ∀ k, use x.1 x.2 = some k → I (s', k) ∧ μ s' < μ x.1)
    (hleave : ∀ x r, I x → step x.1 = .leave r → (P x ↔ ∃ k, use x.1 x.2 = some k))
    {n : ℕ} (hn : μ x.1 < n) :
    (∃ r, iterate (guard step use) n x = some (some r)) ↔ P x := by
  induction n generalizing x with
  | zero => exact absurd hn (Nat.not_lt_zero _)
  | succ n ih =>
    cases hu : use x.1 x.2 with
    | none =>
      have hg : guard step use x = .leave none := by simp only [guard, hu]
      refine iff_of_false ?_ fun hP => ?_
      · rintro ⟨r, hr⟩
        rw [iterate_succ_leave hg] at hr
        cases hr
      · cases hs : step x.1 with
        | again s' => simp [(hagain x s' h0 hs).1, hu] at hP
        | leave r => simp [hleave x r h0 hs, hu] at hP
    | some k =>
      cases hs : step x.1 with
      | again s' =>
        have hg : guard step use x = .again (s', k) := by simp only [guard, hu, hs, Pass.map]
        obtain ⟨hP, hI⟩ := hagain x s' h0 hs
        obtain ⟨hI', hlt⟩ := hI k hu
        rw [iterate_succ_again hg, ih hI' (by simp only; omega), hP, hu]
        simp
      | leave r =>
        have hg : guard step use x = .leave (some r) := by simp only [guard, hu, hs, Pass.map]
        rw [iterate_succ_leave hg, hleave x r h0 hs, hu]
        simp

end Guard

end Loop
