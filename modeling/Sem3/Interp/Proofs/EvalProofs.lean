import Sem3.Interp.Spec

/-!
# Proofs: `evalExpr` has dynamic scope

`evalExpr` ends with what the rules for dynamic scope give (`returns_iff`, `fails_iff`), and the rules
give one outcome at most (`Evaluates.unique`).
-/

namespace Sem3.Interp

open Ocaml (Exn)

variable {leftFirst : Bool} {scope : State → State → State} {s s' : State} {e e' e₁ e₂ : Expr}
  {op : BinaryOp} {v v₁ v₂ : Value} {o o' : Option Value} {n m : ℕ} {r : Except Exn Value}

/-! ## One outcome -/

theorem Evaluates.unique (h : Evaluates leftFirst scope s e o) (h' : Evaluates leftFirst scope s e o') :
    o = o' := by
  induction h generalizing o' with
  | const => cases h'; rfl
  | var => cases h'; rfl
  | func => cases h'; rfl
  | unOp h ih =>
    cases h' with
    | unOp h' => rw [ih h']
  | binOpFirst h ih =>
    cases h' with
    | binOpFirst => rfl
    | binOpSecond => rfl
    | binOp h₁ h₂ => cases leftFirst <;> [cases ih h₂; cases ih h₁]
  | binOpSecond h h'' ih ih' =>
    cases h' with
    | binOpFirst => rfl
    | binOpSecond => rfl
    | binOp h₁ h₂ => cases leftFirst <;> [cases ih' h₁; cases ih' h₂]
  | binOp h₁ h₂ ih₁ ih₂ =>
    cases h' with
    | binOpFirst h' => cases leftFirst <;> [cases ih₂ h'; cases ih₁ h']
    | binOpSecond h' h'' => cases leftFirst <;> [cases ih₁ h''; cases ih₂ h'']
    | binOp h₁' h₂' =>
      cases ih₁ h₁'
      cases ih₂ h₂'
      rfl
  | iteCond h ho ih =>
    cases h' with
    | iteCond => rfl
    | ite h' => exact absurd (ih h') (ho _)
  | ite h h'' ih ih' =>
    cases h' with
    | iteCond h' ho => exact absurd (ih h').symm (ho _)
    | ite h' h''' =>
      cases ih h'
      exact ih' h'''
  | bindFirst h ih =>
    cases h' with
    | bindFirst => rfl
    | bind h' => cases ih h'
  | bind h h'' ih ih' =>
    cases h' with
    | bindFirst h' => cases ih h'
    | bind h' h''' =>
      cases ih h'
      exact ih' h'''
  | appFn h ho ih =>
    cases h' with
    | appFn => rfl
    | appArg => rfl
    | app h' => exact absurd (ih h') (ho _ _ _)
  | appArg h ha ih iha =>
    cases h' with
    | appFn => rfl
    | appArg => rfl
    | app h' ha' => cases iha ha'
  | app h ha hb ih iha ihb =>
    cases h' with
    | appFn h' ho => exact absurd (ih h').symm (ho _ _ _)
    | appArg h' ha' => cases iha ha'
    | app h' ha' hb' =>
      cases ih h'
      cases iha ha'
      exact ihb hb'

/-! ## The bound -/

/-- With a greater bound the evaluation gives the same. -/
theorem evalExpr_mono (hnm : n ≤ m) (h : evalExpr leftFirst n s e = some r) :
    evalExpr leftFirst m s e = some r := by
  induction n generalizing m s e r with
  | zero => cases h
  | succ n ih =>
    obtain ⟨m, rfl⟩ : ∃ k, m = k + 1 := ⟨m - 1, by omega⟩
    have ih' : ∀ s e r, evalExpr leftFirst n s e = some r → evalExpr leftFirst m s e = some r :=
      fun s e r => ih (by omega)
    cases e with
    | const c => exact h
    | var v => exact h
    | func a b => exact h
    | unOp op e =>
      cases op
      exact Bounded.bind_mono (ih' s e) (fun _ _ hv => hv) h
    | binOp op e₁ e₂ =>
      exact Bounded.bind_mono (fun _ => Bounded.pair_mono (ih' s e₁) (ih' s e₂)) (fun _ _ hv => hv) h
    | bind x e b => exact Bounded.bind_mono (ih' s e) (fun v => ih' (s.bind x v) b) h
    | ite c t e =>
      refine Bounded.bind_mono (ih' s c) (fun v o hv => ?_) h
      cases v with
      | rat r =>
        obtain ⟨k, d⟩ := r
        dsimp only at hv ⊢
        split_ifs at hv ⊢
        · exact ih' s t o hv
        · exact ih' s e o hv
      | fn x s' b => exact hv
    | app f a =>
      refine Bounded.bind_mono (ih' s f) (fun v o hv => ?_) h
      cases v with
      | rat r => exact hv
      | fn x s' b => exact ih' s _ o hv

/-- There is one bound for two evaluations that end. -/
theorem exists_bound {r' : Except Exn Value} (hn : evalExpr leftFirst n s e = some r)
    (hm : evalExpr leftFirst m s' e' = some r') :
    ∃ k, evalExpr leftFirst k s e = some r ∧ evalExpr leftFirst k s' e' = some r' :=
  ⟨max n m, evalExpr_mono (le_max_left n m) hn, evalExpr_mono (le_max_right n m) hm⟩

/-! ## `evalExpr` follows the rules for dynamic scope -/

/-- What the evaluation gives is derived with the rules for dynamic scope. -/
theorem dynamic_of_evalExpr (h : evalExpr leftFirst n s e = some r) :
    Dynamic leftFirst s e r.toOption := by
  induction n generalizing s e r with
  | zero => cases h
  | succ n ih =>
    cases e with
    | const c =>
      obtain rfl := Option.some.inj h
      exact .const
    | var v =>
      have hv : (Dynamic leftFirst) s (.var v) (s v) := .var
      cases hs : s v with
      | none =>
        simp only [evalExpr, hs] at h
        obtain rfl := Option.some.inj h
        rwa [hs] at hv
      | some t =>
        simp only [evalExpr, hs] at h
        obtain rfl := Option.some.inj h
        rwa [hs] at hv
    | func a b =>
      obtain rfl := Option.some.inj h
      exact .func
    | unOp op e =>
      cases op
      obtain ⟨v, hv, h⟩ | ⟨y, hy, rfl⟩ := Bounded.bind_eq_some_iff.1 h
      · cases v <;>
        · obtain rfl := Option.some.inj h
          exact .unOp (ih hv)
      · exact .unOp (ih hy)
    | binOp op e₁ e₂ =>
      obtain ⟨⟨v₁, v₂⟩, hv, h⟩ | ⟨y, hy, rfl⟩ := Bounded.bind_eq_some_iff.1 h
      · obtain ⟨h₁, h₂⟩ := Bounded.pair_eq_ok_iff.1 hv
        cases v₁ <;> cases v₂ <;>
        · obtain rfl := Option.some.inj h
          exact .binOp (ih h₁) (ih h₂)
      · cases leftFirst <;> obtain hy | ⟨⟨v, hv⟩, hy⟩ := Bounded.pair_eq_error_iff.1 hy
        · exact .binOpFirst (ih hy)
        · exact .binOpSecond (ih hv) (ih hy)
        · exact .binOpFirst (ih hy)
        · exact .binOpSecond (ih hv) (ih hy)
    | bind x e b =>
      obtain ⟨v, hv, h⟩ | ⟨y, hy, rfl⟩ := Bounded.bind_eq_some_iff.1 h
      · exact .bind (ih hv) (ih h)
      · exact .bindFirst (ih hy)
    | ite c t e =>
      obtain ⟨v, hv, h⟩ | ⟨y, hy, rfl⟩ := Bounded.bind_eq_some_iff.1 h
      · cases v with
        | rat r =>
          refine .ite (ih hv) ?_
          obtain ⟨k, d⟩ := r
          dsimp only at h ⊢
          split_ifs at h ⊢ <;> exact ih h
        | fn x s' b =>
          obtain rfl := Option.some.inj h
          exact .iteCond (ih hv) (by simp [Except.toOption])
      · exact .iteCond (ih hy) (by simp [Except.toOption])
    | app f a =>
      obtain ⟨v, hv, h⟩ | ⟨y, hy, rfl⟩ := Bounded.bind_eq_some_iff.1 h
      · cases v with
        | rat r =>
          obtain rfl := Option.some.inj h
          exact .appFn (ih hv) (by simp [Except.toOption])
        | fn x s' b =>
          -- the call for the application binds the argument in the state of the application
          have hbind := ih h
          generalize r.toOption = o at hbind ⊢
          cases hbind with
          | bindFirst ha => exact .appArg (ih hv) ha
          | bind ha hb => exact .app (ih hv) ha hb
      · exact .appFn (ih hy) (by simp [Except.toOption])

theorem exists_ok (h : ∃ n r, evalExpr leftFirst n s e = some r ∧ r.toOption = some v) :
    ∃ n, evalExpr leftFirst n s e = some (.ok v) := by
  obtain ⟨n, r, hn, hr⟩ := h
  cases r with
  | ok v' =>
    obtain rfl := Option.some.inj hr
    exact ⟨n, hn⟩
  | error y => cases hr

theorem exists_error (h : ∃ n r, evalExpr leftFirst n s e = some r ∧ r.toOption = none) :
    ∃ n y, evalExpr leftFirst n s e = some (.error y) := by
  obtain ⟨n, r, hn, hr⟩ := h
  cases r with
  | ok v => cases hr
  | error y => exact ⟨n, y, hn⟩

/-- What is derived with the rules for dynamic scope is what the evaluation gives. -/
theorem evalExpr_of_dynamic (h : Dynamic leftFirst s e o) :
    ∃ n r, evalExpr leftFirst n s e = some r ∧ r.toOption = o := by
  induction h with
  | const => exact ⟨1, _, rfl, rfl⟩
  | @var s v =>
    cases hs : s v with
    | none => exact ⟨1, .error (.failure "unbound variable"), by simp only [evalExpr, hs]; rfl, rfl⟩
    | some t => exact ⟨1, .ok t, by simp only [evalExpr, hs]; rfl, rfl⟩
  | func => exact ⟨1, _, rfl, rfl⟩
  | unOp h ih =>
    obtain ⟨n, r, hn, rfl⟩ := ih
    match r with
    | .ok (.rat _) => exact ⟨n + 1, _, Bounded.bind_ok hn, rfl⟩
    | .ok (.fn ..) => exact ⟨n + 1, _, Bounded.bind_ok hn, rfl⟩
    | .error _ => exact ⟨n + 1, _, Bounded.bind_error hn, rfl⟩
  | binOpFirst h ih =>
    obtain ⟨n, y, hn⟩ := exists_error ih
    refine ⟨n + 1, .error y, Bounded.bind_error (Bounded.pair_eq_error_iff.2 (.inl ?_)), rfl⟩
    cases leftFirst <;> exact hn
  | binOpSecond h h' ih ih' =>
    obtain ⟨n, hn⟩ := exists_ok ih
    obtain ⟨m, y, hm⟩ := exists_error ih'
    obtain ⟨k, hn, hm⟩ := exists_bound hn hm
    refine ⟨k + 1, .error y, Bounded.bind_error (Bounded.pair_eq_error_iff.2 (.inr ?_)), rfl⟩
    cases leftFirst <;> exact ⟨⟨_, hn⟩, hm⟩
  | @binOp s op e₁ e₂ v₁ v₂ h₁ h₂ ih₁ ih₂ =>
    obtain ⟨n, hn⟩ := exists_ok ih₁
    obtain ⟨m, hm⟩ := exists_ok ih₂
    obtain ⟨k, hn, hm⟩ := exists_bound hn hm
    have hpair : Bounded.pair leftFirst (evalExpr leftFirst k s e₁) (evalExpr leftFirst k s e₂) =
        some (.ok (v₁, v₂)) := Bounded.pair_eq_ok_iff.2 ⟨hn, hm⟩
    cases v₁ <;> cases v₂ <;> exact ⟨k + 1, _, Bounded.bind_ok hpair, rfl⟩
  | iteCond h ho ih =>
    obtain ⟨n, r, hn, rfl⟩ := ih
    match r, ho with
    | .ok (.rat r), ho => exact absurd rfl (ho r)
    | .ok (.fn ..), _ => exact ⟨n + 1, _, Bounded.bind_ok hn, rfl⟩
    | .error _, _ => exact ⟨n + 1, _, Bounded.bind_error hn, rfl⟩
  | @ite s c t e r o h h' ih ih' =>
    obtain ⟨n, hn⟩ := exists_ok ih
    obtain ⟨m, r', hm, hr'⟩ := ih'
    obtain ⟨k, hn, hm⟩ := exists_bound hn hm
    refine ⟨k + 1, r', (Bounded.bind_ok hn).trans ?_, hr'⟩
    obtain ⟨x, d⟩ := r
    dsimp only at hm ⊢
    split_ifs at hm ⊢ <;> exact hm
  | bindFirst h ih =>
    obtain ⟨n, y, hn⟩ := exists_error ih
    exact ⟨n + 1, _, Bounded.bind_error hn, rfl⟩
  | bind h h' ih ih' =>
    obtain ⟨n, hn⟩ := exists_ok ih
    obtain ⟨m, r', hm, hr'⟩ := ih'
    obtain ⟨k, hn, hm⟩ := exists_bound hn hm
    exact ⟨k + 1, r', (Bounded.bind_ok hn).trans hm, hr'⟩
  | appFn h ho ih =>
    obtain ⟨n, r, hn, rfl⟩ := ih
    match r, ho with
    | .ok (.rat _), _ => exact ⟨n + 1, _, Bounded.bind_ok hn, rfl⟩
    | .ok (.fn x s' b), ho => exact absurd rfl (ho x s' b)
    | .error _, _ => exact ⟨n + 1, _, Bounded.bind_error hn, rfl⟩
  | @appArg s s' f a b x h h' ih ih' =>
    obtain ⟨n, hn⟩ := exists_ok ih
    obtain ⟨m, y, hm⟩ := exists_error ih'
    have hbind : evalExpr leftFirst (m + 1) s (.bind x a b) = some (.error y) :=
      Bounded.bind_error hm
    obtain ⟨k, hn, hbind⟩ := exists_bound hn hbind
    exact ⟨k + 1, .error y, (Bounded.bind_ok hn).trans hbind, rfl⟩
  | @app s s' f a b x v o h ha hb ih iha ihb =>
    obtain ⟨n, hn⟩ := exists_ok ih
    obtain ⟨m, hm⟩ := exists_ok iha
    obtain ⟨k, r, hk, hr⟩ := ihb
    obtain ⟨j, hm, hk⟩ := exists_bound hm hk
    have hbind : evalExpr leftFirst (j + 1) s (.bind x a b) = some r := (Bounded.bind_ok hm).trans hk
    obtain ⟨i, hn, hbind⟩ := exists_bound hn hbind
    exact ⟨i + 1, r, (Bounded.bind_ok hn).trans hbind, hr⟩

/-- The evaluation returns what the rules for dynamic scope derive. -/
theorem returns_iff : Returns leftFirst s e v ↔ Dynamic leftFirst s e (some v) := by
  constructor
  · rintro ⟨n, hn⟩
    exact dynamic_of_evalExpr hn
  · intro h
    exact exists_ok (evalExpr_of_dynamic h)

/-- The evaluation raises an exception where they derive a failure. -/
theorem fails_iff : Fails leftFirst s e ↔ Dynamic leftFirst s e none := by
  constructor
  · rintro ⟨n, y, hn⟩
    exact dynamic_of_evalExpr hn
  · intro h
    exact exists_error (evalExpr_of_dynamic h)

/-- The evaluation ends where they derive anything. -/
theorem ends_iff : Ends leftFirst s e ↔ ∃ o, Dynamic leftFirst s e o := by
  constructor
  · rintro ⟨n, r, hn⟩
    exact ⟨_, dynamic_of_evalExpr hn⟩
  · rintro ⟨o, h⟩
    obtain ⟨n, r, hn, -⟩ := evalExpr_of_dynamic h
    exact ⟨n, r, hn⟩

end Sem3.Interp
