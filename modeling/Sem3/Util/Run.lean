import Mathlib.Data.List.Induction
import Mathlib.Order.WellFounded

/-!
# Runs of a partial step function

A system is given by `step : σ → α → Option σ`: the next state after the environment has answered
with `a`, or `none` if the system stops. A run is recorded as the list of its steps, each with the
state that it starts from.

The rules are the induction over a run (`always`, and `invariant` under a condition on its steps),
and the comparison of a property of all states with a condition on all steps (`forall_iff`, and
`forall_observed_iff` for a property that is only seen in some states). If some of the moves go down
in a well-founded order, they lead to a state from which none of them is possible
(`exists_terminal`). A step may itself be a loop over a list that stops at the first `none`; such a
loop is a `foldlM`, and `foldlM_invariant` is its induction. `logged` adds a log of what happens to a
step.
-/

/-- The steps taken since `s₀`, and the state reached. -/
inductive Run {σ α : Type*} (step : σ → α → Option σ) (s₀ : σ) : List (σ × α) → σ → Prop
  | init : Run step s₀ [] s₀
  | snoc {steps : List (σ × α)} {s s' : σ} {a : α} (h : Run step s₀ steps s)
      (hstep : step s a = some s') : Run step s₀ (steps ++ [(s, a)]) s'

namespace Run

variable {σ α : Type*} {step : σ → α → Option σ} {s₀ s s' : σ} {steps : List (σ × α)} {l : List α}

theorem forall_mem_snoc {p : σ × α → Prop} {x : σ × α} :
    (∀ y ∈ steps ++ [x], p y) ↔ (∀ y ∈ steps, p y) ∧ p x := by
  simp only [List.mem_append, List.mem_singleton, or_imp, forall_and, forall_eq]

/-- What the steps that meet `C` preserve holds in every state of a run of such steps. -/
theorem invariant {I : σ → Prop} {C : σ → α → Prop} (h : Run step s₀ steps s) (h0 : I s₀)
    (hstep : ∀ s a s', I s → C s a → step s a = some s' → I s')
    (hC : ∀ x ∈ steps, C x.1 x.2) : I s := by
  induction h with
  | init => exact h0
  | snoc _ hs ih =>
    obtain ⟨hC, hlast⟩ := forall_mem_snoc.1 hC
    exact hstep _ _ _ (ih hC) hlast hs

/-- What every step preserves holds in every state of a run. -/
theorem always {I : σ → Prop} (h : Run step s₀ steps s) (h0 : I s₀)
    (hstep : ∀ s a s', I s → step s a = some s' → I s') : I s := by
  refine h.invariant (C := fun _ _ => True) h0 ?_ fun _ _ => trivial
  exact fun s a s' hI _ hs => hstep s a s' hI hs

/-- If every step that meets `C` goes down, a run of such steps has no more steps than it can go
down. -/
theorem length_add_le {C : σ → α → Prop} (μ : σ → ℕ) (h : Run step s₀ steps s)
    (hstep : ∀ s a s', C s a → step s a = some s' → μ s' < μ s) (hC : ∀ x ∈ steps, C x.1 x.2) :
    steps.length + μ s ≤ μ s₀ := by
  induction h with
  | init => simp
  | @snoc steps s s' a h hs ih =>
    obtain ⟨hC, hlast⟩ := forall_mem_snoc.1 hC
    have hle := ih hC
    have hlt := hstep s a s' hlast hs
    rw [List.length_append, List.length_singleton]
    omega

/-- If a good state is followed by a good one exactly when the step meets `C`, then all states of a
run are good exactly when all its steps meet `C`. -/
theorem forall_iff {I G : σ → Prop} {C : σ → α → Prop} (h : Run step s₀ steps s) (h0 : I s₀)
    (hgood : G s₀) (hI : ∀ s a s', I s → step s a = some s' → I s')
    (hstep : ∀ s a s', I s → G s → step s a = some s' → (G s' ↔ C s a)) :
    (∀ x ∈ steps, G x.1) ∧ G s ↔ ∀ x ∈ steps, C x.1 x.2 := by
  induction h with
  | init => simp [hgood]
  | @snoc steps s s' a h hs ih =>
    have hinv : I s := h.always h0 hI
    rw [forall_mem_snoc, forall_mem_snoc, ih]
    constructor
    · rintro ⟨hC, hg⟩
      exact ⟨hC, (hstep s a s' hinv (ih.2 hC).2 hs).1 hg⟩
    · rintro ⟨hC, hlast⟩
      exact ⟨hC, (hstep s a s' hinv (ih.2 hC).2 hs).2 hlast⟩

/-- If the steps that meet `C` lead from good states to good ones, and the others to states that do
not look good, then all states of a run look good exactly when all its steps meet `C`. Only runs
whose steps meet `D` are looked at. -/
theorem forall_observed_iff_of {G P : σ → Prop} {C D : σ → α → Prop} (h : Run step s₀ steps s)
    (hD : ∀ x ∈ steps, D x.1 x.2) (h0 : G s₀) (hP : ∀ s, G s → P s)
    (hgood : ∀ s a s', G s → D s a → C s a → step s a = some s' → G s')
    (hbad : ∀ s a s', G s → D s a → ¬ C s a → step s a = some s' → ¬ P s') :
    (∀ x ∈ steps, P x.1) ∧ P s ↔ ∀ x ∈ steps, C x.1 x.2 := by
  have hinv : ∀ {steps s}, Run step s₀ steps s → (∀ x ∈ steps, D x.1 x.2) →
      (∀ x ∈ steps, C x.1 x.2) → G s := fun h hD hC =>
    h.invariant (C := fun s a => D s a ∧ C s a) h0 (fun s a s' hG hDC => hgood s a s' hG hDC.1 hDC.2)
      fun x hx => ⟨hD x hx, hC x hx⟩
  induction h with
  | init => simp [hP s₀ h0]
  | @snoc steps s s' a h hs ih =>
    obtain ⟨hD, hDlast⟩ := forall_mem_snoc.1 hD
    rw [forall_mem_snoc, forall_mem_snoc]
    constructor
    · rintro ⟨hall, hP'⟩
      have hC := (ih hD).1 hall
      refine ⟨hC, ?_⟩
      by_contra hlast
      exact hbad s a s' (hinv h hD hC) hDlast hlast hs hP'
    · rintro ⟨hC, hlast⟩
      exact ⟨(ih hD).2 hC, hP s' (hgood s a s' (hinv h hD hC) hDlast hlast hs)⟩

/-- `forall_observed_iff_of` without an assumption on the steps. -/
theorem forall_observed_iff {G P : σ → Prop} {C : σ → α → Prop} (h : Run step s₀ steps s)
    (h0 : G s₀) (hP : ∀ s, G s → P s)
    (hgood : ∀ s a s', G s → C s a → step s a = some s' → G s')
    (hbad : ∀ s a s', G s → ¬ C s a → step s a = some s' → ¬ P s') :
    (∀ x ∈ steps, P x.1) ∧ P s ↔ ∀ x ∈ steps, C x.1 x.2 :=
  h.forall_observed_iff_of (D := fun _ _ => True) (fun _ _ => trivial) h0 hP
    (fun s a s' hG _ => hgood s a s' hG) fun s a s' hG _ => hbad s a s' hG

/-- If the moves `E` go down in a well-founded order, they lead to a state in which none of them is
possible. -/
theorem exists_terminal {β : Type*} {lt : β → β → Prop} (hwf : WellFounded lt) (μ : σ → β)
    {I : σ → Prop} {E : α → Prop} (h : Run step s₀ steps s) (hI : I s)
    (hstep : ∀ s a s', I s → E a → step s a = some s' → I s' ∧ lt (μ s') (μ s)) :
    ∃ steps' s', Run step s₀ steps' s' ∧ I s' ∧ ∀ a, E a → step s' a = none := by
  have key : ∀ x s steps, μ s = x → Run step s₀ steps s → I s →
      ∃ steps' s', Run step s₀ steps' s' ∧ I s' ∧ ∀ a, E a → step s' a = none := by
    intro x
    induction x using hwf.induction with
    | _ x ih =>
      rintro s steps rfl h hI
      by_cases hend : ∀ a, E a → step s a = none
      · exact ⟨steps, s, h, hI, hend⟩
      · push Not at hend
        obtain ⟨a, ha, hne⟩ := hend
        obtain ⟨s', hs⟩ := Option.ne_none_iff_exists'.1 hne
        obtain ⟨hI', hlt⟩ := hstep s a s' hI ha hs
        exact ih (μ s') hlt s' _ rfl (h.snoc hs) hI'
  exact key (μ s) s steps rfl h hI

theorem foldlM_cons_eq_some {a : α} :
    (a :: l).foldlM step s = some s' ↔ ∃ m, step s a = some m ∧ l.foldlM step m = some s' := by
  rw [List.foldlM_cons, Option.bind_eq_bind, Option.bind_eq_some_iff]

theorem foldlM_append_eq_some {l' : List α} :
    (l ++ l').foldlM step s = some s' ↔
      ∃ m, l.foldlM step s = some m ∧ l'.foldlM step m = some s' := by
  rw [List.foldlM_append, Option.bind_eq_bind, Option.bind_eq_some_iff]

theorem exists_of_foldlM (h : l.foldlM step s₀ = some s) : ∃ steps, Run step s₀ steps s := by
  induction l using List.reverseRecOn generalizing s with
  | nil => exact ⟨[], Option.some.inj h ▸ .init⟩
  | append_singleton l a ih =>
    obtain ⟨m, hm, hlast⟩ := foldlM_append_eq_some.1 h
    obtain ⟨steps, hsteps⟩ := ih hm
    exact ⟨steps ++ [(m, a)], hsteps.snoc (by simpa using hlast)⟩

/-- What every step keeps holds behind the fold. -/
theorem foldlM_invariant {I : σ → Prop} (h : l.foldlM step s = some s') (h0 : I s)
    (hstep : ∀ s, ∀ a ∈ l, ∀ s', I s → step s a = some s' → I s') : I s' := by
  induction l generalizing s with
  | nil => exact Option.some.inj h ▸ h0
  | cons a l ih =>
    obtain ⟨m, hm, hrest⟩ := foldlM_cons_eq_some.1 h
    exact ih hrest (hstep s a List.mem_cons_self m h0 hm) fun s b hb =>
      hstep s b (List.mem_cons_of_mem a hb)

/-- `forall_iff` for the prefixes of a list: if a good state is followed by a good one exactly when
the step meets `C`, then all states on the way are good exactly when all steps meet `C`. -/
theorem foldlM_forall_iff {I G : σ → Prop} {C : σ → α → Prop} (h : l.foldlM step s ≠ none)
    (h0 : I s) (hgood : G s) (hI : ∀ s a s', I s → step s a = some s' → I s')
    (hstep : ∀ s a s', I s → G s → step s a = some s' → (G s' ↔ C s a)) :
    (∀ pre post s', l = pre ++ post → pre.foldlM step s = some s' → G s') ↔
      ∀ pre a post s', l = pre ++ a :: post → pre.foldlM step s = some s' → C s' a := by
  induction l generalizing s with
  | nil =>
    constructor
    · intro _ pre a post s' heq
      exact absurd heq (by simp)
    · intro _ pre post s' heq hpre
      obtain ⟨rfl, -⟩ := List.append_eq_nil_iff.1 heq.symm
      exact Option.some.inj hpre ▸ hgood
  | cons a l ih =>
    obtain ⟨s₂, hs₂⟩ := Option.ne_none_iff_exists'.1 h
    obtain ⟨m, hm, hl⟩ := foldlM_cons_eq_some.1 hs₂
    have key := ih (s := m) (by rw [hl]; exact Option.some_ne_none s₂) (hI s a m h0 hm)
    constructor
    · intro hall
      have hgm : G m := hall [a] l m rfl (foldlM_cons_eq_some.2 ⟨m, hm, rfl⟩)
      have hrest := (key hgm).1 fun pre post s' heq hpre =>
        hall (a :: pre) post s' (by rw [heq]; rfl) (foldlM_cons_eq_some.2 ⟨m, hm, hpre⟩)
      intro pre b post s' heq hpre
      cases pre with
      | nil =>
        obtain ⟨rfl, -⟩ := List.cons.inj heq
        exact Option.some.inj hpre ▸ (hstep s a m h0 hgood hm).1 hgm
      | cons c pre =>
        obtain ⟨rfl, hl'⟩ := List.cons.inj heq
        obtain ⟨m', hm', hpre'⟩ := foldlM_cons_eq_some.1 hpre
        obtain rfl := Option.some.inj (hm.symm.trans hm')
        exact hrest pre b post s' hl' hpre'
    · intro hall
      have hgm : G m := (hstep s a m h0 hgood hm).2 (hall [] a l s rfl rfl)
      have hrest := (key hgm).2 fun pre b post s' heq hpre =>
        hall (a :: pre) b post s' (by rw [heq]; rfl) (foldlM_cons_eq_some.2 ⟨m, hm, hpre⟩)
      intro pre post s' heq hpre
      cases pre with
      | nil => exact Option.some.inj hpre ▸ hgood
      | cons c pre =>
        obtain ⟨rfl, hl'⟩ := List.cons.inj heq
        obtain ⟨m', hm', hpre'⟩ := foldlM_cons_eq_some.1 hpre
        obtain rfl := Option.some.inj (hm.symm.trans hm')
        exact hrest pre post s' hl' hpre'

/-! ## Logs -/

section Log

variable {ε : Type*} {log : σ → α → List ε} {x y : σ × List ε} {a : α}

/-- A step that also writes down what happens in it. -/
def logged (step : σ → α → Option σ) (log : σ → α → List ε) (x : σ × List ε) (a : α) :
    Option (σ × List ε) :=
  (step x.1 a).map fun s' => (s', x.2 ++ log x.1 a)

theorem logged_eq_some :
    logged step log x a = some y ↔ step x.1 a = some y.1 ∧ y.2 = x.2 ++ log x.1 a := by
  obtain ⟨s', events⟩ := y
  simp only [logged, Option.map_eq_some_iff, Prod.mk.injEq]
  constructor
  · rintro ⟨_, hs, rfl, rfl⟩
    exact ⟨hs, rfl⟩
  · rintro ⟨hs, rfl⟩
    exact ⟨s', hs, rfl, rfl⟩

/-- The log does not change what the steps do. -/
theorem map_fst_foldlM_logged (step : σ → α → Option σ) (log : σ → α → List ε) (l : List α)
    (x : σ × List ε) : (l.foldlM (logged step log) x).map Prod.fst = l.foldlM step x.1 := by
  induction l generalizing x with
  | nil => rfl
  | cons a l ih =>
    rw [List.foldlM_cons, List.foldlM_cons, logged]
    cases step x.1 a with
    | none => rfl
    | some s' => exact ih (s', x.2 ++ log x.1 a)

theorem foldlM_eq_some_of_logged (h : l.foldlM (logged step log) x = some y) :
    l.foldlM step x.1 = some y.1 := by
  rw [← map_fst_foldlM_logged, h]
  rfl

theorem exists_foldlM_logged (log : σ → α → List ε) (events : List ε)
    (h : l.foldlM step s = some s') :
    ∃ events', l.foldlM (logged step log) (s, events) = some (s', events') := by
  have hmap := map_fst_foldlM_logged step log l (s, events)
  rw [h, Option.map_eq_some_iff] at hmap
  obtain ⟨y, hy, rfl⟩ := hmap
  exact ⟨y.2, hy⟩

end Log

end Run
