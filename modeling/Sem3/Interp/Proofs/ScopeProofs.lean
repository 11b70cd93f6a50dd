import Sem3.Interp.Proofs.EvalProofs

/-!
# Proofs: dynamic and lexical scope

`evalExpr` agrees with lexical scope in all calls that it makes if and only if all applications are
harmless (`dynamic_agrees_iff`). The body of a function has the same meaning in two states that are
the same for it, also if evaluation does not end.
-/

namespace Sem3.Interp

variable {leftFirst : Bool} {s s' : State} {e e₁ e₂ : Expr} {op : BinaryOp} {v v₁ v₂ : Value}
  {o : Option Value} {c c' : State × Expr} {P : State → Expr → Prop}

/-! ## The calls -/

/-- What holds of all calls that an evaluation reaches holds of those that one of its calls
reaches. -/
theorem forall_reached_of_calls (hP : ∀ c', Reached leftFirst c c' → P c'.1 c'.2)
    (h : Calls leftFirst c c') : ∀ c'', Reached leftFirst c' c'' → P c''.1 c''.2 :=
  fun c'' h' => hP c'' (.head h h')

theorem calls_left (h : Returns leftFirst s e₂ v) :
    Calls leftFirst (s, .binOp op e₁ e₂) (s, e₁) := by
  cases leftFirst
  · exact .binOpSecond h
  · exact .binOpFirst

theorem calls_right (h : Returns leftFirst s e₁ v) :
    Calls leftFirst (s, .binOp op e₁ e₂) (s, e₂) := by
  cases leftFirst
  · exact .binOpFirst
  · exact .binOpSecond h

/-- If a call ends, so do the calls that it makes. -/
theorem ends_of_calls (h : Calls leftFirst c c') (hc : Ends leftFirst c.1 c.2) :
    Ends leftFirst c'.1 c'.2 := by
  rw [ends_iff] at hc ⊢
  obtain ⟨o, hc⟩ := hc
  cases h with
  | unOp =>
    cases hc with
    | unOp h' => exact ⟨_, h'⟩
  | binOpFirst =>
    cases hc with
    | binOpFirst h' => exact ⟨_, h'⟩
    | binOpSecond h' => exact ⟨_, h'⟩
    | binOp h₁ h₂ => cases leftFirst <;> [exact ⟨_, h₂⟩; exact ⟨_, h₁⟩]
  | binOpSecond h =>
    cases hc with
    | binOpFirst h' => cases (returns_iff.1 h).unique h'
    | binOpSecond h' h'' => exact ⟨_, h''⟩
    | binOp h₁ h₂ => cases leftFirst <;> [exact ⟨_, h₁⟩; exact ⟨_, h₂⟩]
  | iteCond =>
    cases hc with
    | iteCond h' => exact ⟨_, h'⟩
    | ite h' => exact ⟨_, h'⟩
  | ite h =>
    cases hc with
    | iteCond h' ho => exact absurd (h'.unique (returns_iff.1 h)) (ho _)
    | ite h' h'' =>
      cases (returns_iff.1 h).unique h'
      exact ⟨_, h''⟩
  | bindFirst =>
    cases hc with
    | bindFirst h' => exact ⟨_, h'⟩
    | bind h' => exact ⟨_, h'⟩
  | bind h =>
    cases hc with
    | bindFirst h' => cases (returns_iff.1 h).unique h'
    | bind h' h'' =>
      cases (returns_iff.1 h).unique h'
      exact ⟨_, h''⟩
  | appFn =>
    cases hc with
    | appFn h' => exact ⟨_, h'⟩
    | appArg h' => exact ⟨_, h'⟩
    | app h' => exact ⟨_, h'⟩
  | app h =>
    cases hc with
    | appFn h' ho => exact absurd (h'.unique (returns_iff.1 h)) (ho _ _ _)
    | appArg h' ha =>
      cases (returns_iff.1 h).unique h'
      exact ⟨_, .bindFirst ha⟩
    | app h' ha hb =>
      cases (returns_iff.1 h).unique h'
      exact ⟨_, .bind ha hb⟩

/-- If an evaluation ends, all of its calls do. -/
theorem ends_of_reached (h : Reached leftFirst c c') (hc : Ends leftFirst c.1 c.2) :
    Ends leftFirst c'.1 c'.2 := by
  induction h with
  | refl => exact hc
  | tail _ hstep ih => exact ends_of_calls hstep ih

/-! ## Harmless applications -/

/-- If every call is harmless, the dynamic value is the lexical one. -/
theorem lexical_of_dynamic (h : Dynamic leftFirst s e o)
    (hgood : ∀ c, Reached leftFirst (s, e) c → Harmless leftFirst c.1 c.2) :
    Lexical leftFirst s e o := by
  induction h with
  | const => exact .const
  | var => exact .var
  | func => exact .func
  | unOp h ih => exact .unOp (ih (forall_reached_of_calls hgood .unOp))
  | binOpFirst h ih => exact .binOpFirst (ih (forall_reached_of_calls hgood .binOpFirst))
  | binOpSecond h h' ih ih' =>
    exact .binOpSecond (ih (forall_reached_of_calls hgood .binOpFirst))
      (ih' (forall_reached_of_calls hgood (.binOpSecond (returns_iff.2 h))))
  | binOp h₁ h₂ ih₁ ih₂ =>
    exact .binOp (ih₁ (forall_reached_of_calls hgood (calls_left (returns_iff.2 h₂))))
      (ih₂ (forall_reached_of_calls hgood (calls_right (returns_iff.2 h₁))))
  | iteCond h ho ih => exact .iteCond (ih (forall_reached_of_calls hgood .iteCond)) ho
  | ite h h' ih ih' =>
    exact .ite (ih (forall_reached_of_calls hgood .iteCond))
      (ih' (forall_reached_of_calls hgood (.ite (returns_iff.2 h))))
  | bindFirst h ih => exact .bindFirst (ih (forall_reached_of_calls hgood .bindFirst))
  | bind h h' ih ih' =>
    exact .bind (ih (forall_reached_of_calls hgood .bindFirst))
      (ih' (forall_reached_of_calls hgood (.bind (returns_iff.2 h))))
  | appFn h ho ih => exact .appFn (ih (forall_reached_of_calls hgood .appFn)) ho
  | appArg h h' ih ih' =>
    have hbind := forall_reached_of_calls hgood (.app (returns_iff.2 h))
    exact .appArg (ih (forall_reached_of_calls hgood .appFn))
      (ih' (forall_reached_of_calls hbind .bindFirst))
  | @app s s' f a b x v o h ha hb ih iha ihb =>
    have hbind := forall_reached_of_calls hgood (.app (returns_iff.2 h))
    have hbody := ihb (forall_reached_of_calls hbind (.bind (returns_iff.2 ha)))
    have hharmless := hgood (s, .app f a) .refl x s' b v (returns_iff.2 h) (returns_iff.2 ha) o
    exact .app (ih (forall_reached_of_calls hgood .appFn))
      (iha (forall_reached_of_calls hbind .bindFirst)) (hharmless.1 hbody)

/-- A call that ends agrees with lexical scope if it reaches harmless applications only. -/
theorem agrees_of_harmless (hends : Ends leftFirst s e)
    (hgood : ∀ c, Reached leftFirst (s, e) c → Harmless leftFirst c.1 c.2) :
    Agrees leftFirst s e := by
  constructor
  · intro v hv
    exact lexical_of_dynamic (returns_iff.1 hv) hgood
  · rw [fails_iff]
    refine ⟨fun h => lexical_of_dynamic h hgood, fun h => ?_⟩
    obtain ⟨o, ho⟩ := ends_iff.1 hends
    rwa [h.unique (lexical_of_dynamic ho hgood)]

/-- What a call that agrees with lexical scope ends with. -/
theorem Agrees.lexical (h : Agrees leftFirst s e) (ho : Dynamic leftFirst s e o) :
    Lexical leftFirst s e o := by
  cases o with
  | none => exact h.failure.1 (fails_iff.2 ho)
  | some v => exact h.value v (returns_iff.2 ho)

/-- If all calls agree with lexical scope, an application that ends is harmless. -/
theorem harmless_of_agrees (hends : Ends leftFirst s e)
    (hagrees : ∀ c, Reached leftFirst (s, e) c → Agrees leftFirst c.1 c.2) :
    Harmless leftFirst s e := by
  cases e with
  | app f a =>
    intro x s' b v hf ha
    have hbody : Reached leftFirst (s, .app f a) (s.bind x v, b) := .tail (.single (.app hf)) (.bind ha)
    obtain ⟨o', ho'⟩ := ends_iff.1 (ends_of_reached hbody hends)
    have hcall : Lexical leftFirst (s.bind x v) b o' := (hagrees _ hbody).lexical ho'
    have hkept : Lexical leftFirst (State.bind s' x v) b o' := by
      have hdyn : Dynamic leftFirst s (.app f a) o' := .app (returns_iff.1 hf) (returns_iff.1 ha) ho'
      have hf' := (hagrees _ (.single .appFn)).value _ hf
      have ha' := (hagrees _ (.tail (.single (.app hf)) .bindFirst)).value _ ha
      cases (hagrees _ .refl).lexical hdyn with
      | appFn h ho => exact absurd (h.unique hf') (ho _ _ _)
      | appArg h h' => cases h'.unique ha'
      | app h h' hb =>
        cases h.unique hf'
        cases h'.unique ha'
        exact hb
    intro o
    constructor
    · intro h
      rwa [h.unique hcall]
    · intro h
      rwa [h.unique hkept]
  | _ => trivial

/-! ## States that are the same for an expression -/

theorem SameFor.refl (e : Expr) (s : State) : SameFor e s s := by
  induction e generalizing s with
  | const => trivial
  | unOp op e ih => exact ih s
  | binOp op e₁ e₂ ih₁ ih₂ => exact ⟨ih₁ s, ih₂ s⟩
  | var v => rfl
  | func a b => rfl
  | bind x e b ih ihb => exact ⟨ih s, fun v => ihb _⟩
  | app f a ihf iha => exact ⟨ihf s, iha s⟩
  | ite c t e ihc iht ihe => exact ⟨ihc s, iht s, ihe s⟩

theorem SameFor.symm (h : SameFor e s s') : SameFor e s' s := by
  induction e generalizing s s' with
  | const => trivial
  | unOp op e ih => exact ih h
  | binOp op e₁ e₂ ih₁ ih₂ => exact ⟨ih₁ h.1, ih₂ h.2⟩
  | var v => exact Eq.symm h
  | func a b => exact Eq.symm h
  | bind x e b ih ihb => exact ⟨ih h.1, fun v => ihb (h.2 v)⟩
  | app f a ihf iha => exact ⟨ihf h.1, iha h.2⟩
  | ite c t e ihc iht ihe => exact ⟨ihc h.1, iht h.2.1, ihe h.2.2⟩

theorem SameFor.first (h : SameFor (.binOp op e₁ e₂) s s') :
    SameFor (firstOperand leftFirst e₁ e₂) s s' := by
  cases leftFirst <;> [exact h.2; exact h.1]

theorem SameFor.second (h : SameFor (.binOp op e₁ e₂) s s') :
    SameFor (secondOperand leftFirst e₁ e₂) s s' := by
  cases leftFirst <;> [exact h.1; exact h.2]

/-- States that are the same for both branches are the same for the one that is taken. -/
theorem SameFor.branch {t : Expr} {p : Prop} [Decidable p] (ht : SameFor t s s') (he : SameFor e s s') :
    SameFor (if p then t else e) s s' := by
  split_ifs <;> assumption

/-- Dynamic scope gives what lexical scope gives in a state that is the same for the expression. -/
theorem dynamic_of_lexical (h : Lexical leftFirst s' e o) (hs : SameFor e s s')
    (hgood : ∀ c, Reached leftFirst (s, e) c → SameStates leftFirst c.1 c.2) :
    Dynamic leftFirst s e o := by
  induction h generalizing s with
  | const => exact .const
  | @var s' v =>
    have hv : s v = s' v := hs
    rw [← hv]
    exact .var
  | func =>
    obtain rfl := hs
    exact .func
  | unOp h ih => exact .unOp (ih hs (forall_reached_of_calls hgood .unOp))
  | binOpFirst h ih => exact .binOpFirst (ih hs.first (forall_reached_of_calls hgood .binOpFirst))
  | binOpSecond h h' ih ih' =>
    have hfirst := ih hs.first (forall_reached_of_calls hgood .binOpFirst)
    exact .binOpSecond hfirst
      (ih' hs.second (forall_reached_of_calls hgood (.binOpSecond (returns_iff.2 hfirst))))
  | binOp h₁ h₂ ih₁ ih₂ =>
    cases leftFirst
    · have h₂' := ih₂ hs.2 (forall_reached_of_calls hgood .binOpFirst)
      have hcall := forall_reached_of_calls hgood (.binOpSecond (returns_iff.2 h₂'))
      exact .binOp (ih₁ hs.1 hcall) h₂'
    · have h₁' := ih₁ hs.1 (forall_reached_of_calls hgood .binOpFirst)
      have hcall := forall_reached_of_calls hgood (.binOpSecond (returns_iff.2 h₁'))
      exact .binOp h₁' (ih₂ hs.2 hcall)
  | iteCond h ho ih => exact .iteCond (ih hs.1 (forall_reached_of_calls hgood .iteCond)) ho
  | ite h h' ih ih' =>
    have hc := ih hs.1 (forall_reached_of_calls hgood .iteCond)
    exact .ite hc (ih' (hs.2.1.branch hs.2.2) (forall_reached_of_calls hgood (.ite (returns_iff.2 hc))))
  | bindFirst h ih => exact .bindFirst (ih hs.1 (forall_reached_of_calls hgood .bindFirst))
  | bind h h' ih ih' =>
    have hbound := ih hs.1 (forall_reached_of_calls hgood .bindFirst)
    exact .bind hbound (ih' (hs.2 _) (forall_reached_of_calls hgood (.bind (returns_iff.2 hbound))))
  | appFn h ho ih => exact .appFn (ih hs.1 (forall_reached_of_calls hgood .appFn)) ho
  | appArg h h' ih ih' =>
    have hf := ih hs.1 (forall_reached_of_calls hgood .appFn)
    have hbind := forall_reached_of_calls hgood (.app (returns_iff.2 hf))
    exact .appArg hf (ih' hs.2 (forall_reached_of_calls hbind .bindFirst))
  | @app s' s'' f a b x v o h ha hb ih iha ihb =>
    have hf := ih hs.1 (forall_reached_of_calls hgood .appFn)
    have hbind := forall_reached_of_calls hgood (.app (returns_iff.2 hf))
    have ha := iha hs.2 (forall_reached_of_calls hbind .bindFirst)
    have hsame := hgood (s, .app f a) .refl x s'' b v (returns_iff.2 hf) (returns_iff.2 ha)
    exact .app hf ha (ihb hsame (forall_reached_of_calls hbind (.bind (returns_iff.2 ha))))

/-- The lexical value only depends on the free variables. -/
theorem lexical_of_same (h : Lexical leftFirst s e o) (hs : SameFor e s s') :
    Lexical leftFirst s' e o := by
  induction h generalizing s' with
  | const => exact .const
  | @var s v =>
    have hv : s v = s' v := hs
    rw [hv]
    exact .var
  | func =>
    obtain rfl := hs
    exact .func
  | unOp h ih => exact .unOp (ih hs)
  | binOpFirst h ih => exact .binOpFirst (ih hs.first)
  | binOpSecond h h' ih ih' => exact .binOpSecond (ih hs.first) (ih' hs.second)
  | binOp h₁ h₂ ih₁ ih₂ => exact .binOp (ih₁ hs.1) (ih₂ hs.2)
  | iteCond h ho ih => exact .iteCond (ih hs.1) ho
  | ite h h' ih ih' => exact .ite (ih hs.1) (ih' (hs.2.1.branch hs.2.2))
  | bindFirst h ih => exact .bindFirst (ih hs.1)
  | bind h h' ih ih' => exact .bind (ih hs.1) (ih' (hs.2 _))
  | appFn h ho ih => exact .appFn (ih hs.1) ho
  | appArg h h' ih ih' => exact .appArg (ih hs.1) (ih' hs.2)
  | app h ha hb ih iha ihb => exact .app (ih hs.1) (iha hs.2) hb

/-- A call in states that are the same for the body is harmless. -/
theorem SameStates.harmless (h : SameStates leftFirst s e) : Harmless leftFirst s e := by
  cases e with
  | app f a =>
    intro x s' b v hf ha o
    have hsame := h x s' b v hf ha
    exact ⟨fun ho => lexical_of_same ho hsame, fun ho => lexical_of_same ho hsame.symm⟩
  | _ => trivial

/-- If this holds at every call, both values agree. -/
theorem agrees_of_sameStates
    (hgood : ∀ c, Reached leftFirst (s, e) c → SameStates leftFirst c.1 c.2) :
    Agrees leftFirst s e := by
  have hharmless : ∀ c, Reached leftFirst (s, e) c → Harmless leftFirst c.1 c.2 :=
    fun c hc => (hgood c hc).harmless
  constructor
  · exact fun v hv => lexical_of_dynamic (returns_iff.1 hv) hharmless
  · rw [fails_iff]
    exact ⟨fun h => lexical_of_dynamic h hharmless, fun h => dynamic_of_lexical h (.refl e s) hgood⟩

/-- An evaluation that ends agrees with lexical scope in all of its calls if and only if all of its
applications are harmless. It agrees, whether it ends or not, if at each application the two states
are the same for the body. -/
theorem dynamic_agrees_iff (leftFirst : Bool) (s : State) (e : Expr) :
    (Ends leftFirst s e →
      ((∀ c, Reached leftFirst (s, e) c → Agrees leftFirst c.1 c.2) ↔
        ∀ c, Reached leftFirst (s, e) c → Harmless leftFirst c.1 c.2)) ∧
    ((∀ c, Reached leftFirst (s, e) c → SameStates leftFirst c.1 c.2) →
      ∀ c, Reached leftFirst (s, e) c → Agrees leftFirst c.1 c.2) := by
  refine ⟨fun hends => ⟨fun hagrees c hc => ?_, fun hgood c hc => ?_⟩, fun hgood c hc => ?_⟩
  · exact harmless_of_agrees (ends_of_reached hc hends) fun c' hc' => hagrees c' (hc.trans hc')
  · exact agrees_of_harmless (ends_of_reached hc hends) fun c' hc' => hgood c' (hc.trans hc')
  · exact agrees_of_sameStates fun c' hc' => hgood c' (hc.trans hc')

/-! ## An application that is not harmless -/

/-- `a75_ex8`: `(let x = 2/1 in fun a -> let x = a + x in x * x) 10/2` -/
def a75Ex8 : Expr :=
  .app (.bind "x" (.const (2, 1)) (.func "a"
    (.bind "x" (.binOp .add (.var "a") (.var "x")) (.binOp .mul (.var "x") (.var "x")))))
    (.const (10, 2))

/-- The state of `test_ee`. -/
def testState : State := fun r =>
  if r = "_a" then some (.rat (1, 3)) else if r = "_b" then some (.rat (1, 6))
  else some (.rat (0, 1))

theorem returns_a75Ex8 (leftFirst : Bool) :
    Returns leftFirst testState a75Ex8 (.rat (100, 4)) := by
  cases leftFirst <;> exact ⟨9, rfl⟩

theorem lexical_var {x : String} (h : s x = o) : Lexical leftFirst s (.var x) o := h ▸ .var

theorem lexical_a75Ex8 (leftFirst : Bool) :
    Lexical leftFirst testState a75Ex8 (some (.rat (196, 4))) := by
  have hsum : ∀ s : State, s "a" = some (.rat (10, 2)) → s "x" = some (.rat (2, 1)) →
      Lexical leftFirst s (.binOp .add (.var "a") (.var "x"))
        (BinaryOp.add.value (.rat (10, 2)) (.rat (2, 1))) :=
    fun s ha hx => .binOp (lexical_var ha) (lexical_var hx)
  have hsquare : ∀ s : State, s "x" = some (.rat (14, 2)) →
      Lexical leftFirst s (.binOp .mul (.var "x") (.var "x"))
        (BinaryOp.mul.value (.rat (14, 2)) (.rat (14, 2))) :=
    fun s hx => .binOp (lexical_var hx) (lexical_var hx)
  exact .app (.bind .const .func) .const (.bind (hsum _ rfl rfl) (hsquare _ rfl))

/-- In neither order of evaluation is the value the lexical one. -/
theorem not_agrees_a75Ex8 : ¬ ∃ leftFirst, Agrees leftFirst testState a75Ex8 := by
  rintro ⟨leftFirst, h⟩
  have hvalue := (h.value _ (returns_a75Ex8 leftFirst)).unique (lexical_a75Ex8 leftFirst)
  injection hvalue with hvalue
  injection hvalue with hrat
  exact absurd hrat (by decide)

end Sem3.Interp
