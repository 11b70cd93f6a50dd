import Sem3.Util.Run
import Mathlib.Logic.Function.Basic
import Mathlib.Algebra.BigOperators.Fin
import Mathlib.Algebra.Order.BigOperators.Group.Finset
import Mathlib.Algebra.Order.Ring.Nat

/-!
# Threads with a mutex and a condition variable

`k` threads run one program over shared data, a mutex and a condition variable. The program is
given by its next operation at each position `ℓ` of a thread (a program counter with the local
variables). A wait gives the mutex up and puts the thread to sleep; a broadcast wakes all threads
that sleep; a thread that has been woken takes the mutex again before it goes on. A thread may
also wake up without a broadcast.

Two rules carry the proofs. What holds of the shared data and the positions however the operations
of the threads are interleaved needs neither the mutex nor the condition variable
(`pos_invariant`). If the program takes and gives back the mutex in pairs (`Disciplined`), then
the owner of the mutex is the one thread inside of such a pair (`owned`), and only threads that
sleep can be stuck (`stuck_iff`). If what is left to do goes down but for passes through the waiting
loop (`Progress`), the threads come to such a state (`exists_stuck`).
-/

namespace Monitor

/-- The next operation of a thread. All but the last say where the thread goes on. -/
inductive Op (γ ℓ : Type*) where
  /-- One atomic access to the shared data. -/
  | act (f : γ → γ × ℓ)
  | lock (l : ℓ)
  | unlock (l : ℓ)
  | wait (l : ℓ)
  | broadcast (l : ℓ)
  | exit

/-- A thread runs, sleeps, or has been woken and has still to take the mutex again. -/
inductive Status where
  | ready
  | asleep
  | woken
  deriving DecidableEq

/-- A thread: its status, and where it stands. -/
structure Thread (ℓ : Type*) where
  status : Status
  pos : ℓ

/-- What the threads share, who holds the mutex, and the threads. -/
structure State (k : ℕ) (γ ℓ : Type*) where
  shared : γ
  owner : Option (Fin k)
  threads : Fin k → Thread ℓ

/-- Whose turn it is: a thread takes its next step, or wakes up on its own. -/
inductive Move (k : ℕ) where
  | run (t : Fin k)
  | wake (t : Fin k)

variable {k : ℕ} {γ ℓ : Type*}

namespace Thread

/-- A thread that is asleep is woken. -/
def wakeUp (th : Thread ℓ) : Thread ℓ :=
  if th.status = .asleep then { th with status := .woken } else th

end Thread

namespace State

/-- The thread `t` becomes `th`. -/
def put (s : State k γ ℓ) (t : Fin k) (th : Thread ℓ) : State k γ ℓ :=
  { s with threads := Function.update s.threads t th }

/-- Where the thread `t` stands. -/
def pos (s : State k γ ℓ) (t : Fin k) : ℓ := (s.threads t).pos

/-- All threads that are asleep are woken. -/
def wakeAll (s : State k γ ℓ) : State k γ ℓ :=
  { s with threads := fun t => (s.threads t).wakeUp }

/-- All threads at one position, none of them in the mutex. -/
def init (g : γ) (l : ℓ) : State k γ ℓ := ⟨g, none, fun _ => ⟨.ready, l⟩⟩

end State

/-- The operation of the thread `t`; `none` if it cannot be done yet. -/
def exec (s : State k γ ℓ) (t : Fin k) : Op γ ℓ → Option (State k γ ℓ)
  | .act f =>
    some { s.put t ⟨.ready, (f s.shared).2⟩ with shared := (f s.shared).1 }
  | .lock l =>
    if s.owner = none then some { s.put t ⟨.ready, l⟩ with owner := some t } else none
  | .unlock l => some { s.put t ⟨.ready, l⟩ with owner := none }
  | .wait l => some { s.put t ⟨.asleep, l⟩ with owner := none }
  | .broadcast l => some (s.wakeAll.put t ⟨.ready, l⟩)
  | .exit => none

/-- One move: a thread does its operation, takes the mutex again, or wakes up on its own. -/
def step (op : ℓ → Op γ ℓ) (s : State k γ ℓ) : Move k → Option (State k γ ℓ)
  | .run t =>
    match (s.threads t).status with
    | .ready => exec s t (op (s.pos t))
    | .asleep => none
    | .woken =>
      if s.owner = none then some { s.put t ⟨.ready, s.pos t⟩ with owner := some t } else none
  | .wake t => if (s.threads t).status = .asleep then some (s.put t ⟨.woken, s.pos t⟩) else none

variable {op : ℓ → Op γ ℓ} {s s' s₀ : State k γ ℓ} {a : Move k} {t : Fin k}
  {steps : List (State k γ ℓ × Move k)}

/-! ## What a step can be -/

/-- The steps of `step`, one rule for each operation. -/
inductive Fires (op : ℓ → Op γ ℓ) (s : State k γ ℓ) : State k γ ℓ → Prop
  | act {t : Fin k} {f : γ → γ × ℓ} (ht : (s.threads t).status = .ready)
      (hop : op (s.pos t) = .act f) :
      Fires op s { s.put t ⟨.ready, (f s.shared).2⟩ with shared := (f s.shared).1 }
  | lock {t : Fin k} {l : ℓ} (ht : (s.threads t).status = .ready)
      (hop : op (s.pos t) = .lock l) (ho : s.owner = none) :
      Fires op s { s.put t ⟨.ready, l⟩ with owner := some t }
  | unlock {t : Fin k} {l : ℓ} (ht : (s.threads t).status = .ready)
      (hop : op (s.pos t) = .unlock l) : Fires op s { s.put t ⟨.ready, l⟩ with owner := none }
  | wait {t : Fin k} {l : ℓ} (ht : (s.threads t).status = .ready)
      (hop : op (s.pos t) = .wait l) : Fires op s { s.put t ⟨.asleep, l⟩ with owner := none }
  | broadcast {t : Fin k} {l : ℓ} (ht : (s.threads t).status = .ready)
      (hop : op (s.pos t) = .broadcast l) : Fires op s (s.wakeAll.put t ⟨.ready, l⟩)
  | resume {t : Fin k} (ht : (s.threads t).status = .woken) (ho : s.owner = none) :
      Fires op s { s.put t ⟨.ready, s.pos t⟩ with owner := some t }
  | wake {t : Fin k} (ht : (s.threads t).status = .asleep) :
      Fires op s (s.put t ⟨.woken, s.pos t⟩)

theorem fires_of_exec (ht : (s.threads t).status = .ready)
    (h : exec s t (op (s.pos t)) = some s') : Fires op s s' := by
  cases hop : op (s.pos t) with
  | act f =>
    rw [hop] at h
    exact Option.some.inj h ▸ .act ht hop
  | lock l =>
    rw [hop, exec] at h
    split_ifs at h with ho
    exact Option.some.inj h ▸ .lock ht hop ho
  | unlock l =>
    rw [hop] at h
    exact Option.some.inj h ▸ .unlock ht hop
  | wait l =>
    rw [hop] at h
    exact Option.some.inj h ▸ .wait ht hop
  | broadcast l =>
    rw [hop] at h
    exact Option.some.inj h ▸ .broadcast ht hop
  | exit =>
    rw [hop] at h
    cases h

theorem fires (h : step op s a = some s') : Fires op s s' := by
  cases a with
  | run t =>
    cases ht : (s.threads t).status with
    | ready =>
      rw [step, ht] at h
      exact fires_of_exec ht h
    | asleep =>
      rw [step, ht] at h
      cases h
    | woken =>
      simp only [step, ht] at h
      split_ifs at h with ho
      exact Option.some.inj h ▸ .resume ht ho
  | wake t =>
    rw [step] at h
    split_ifs at h with ht
    exact Option.some.inj h ▸ .wake ht

/-! ## Positions -/

namespace State

@[simp] theorem put_shared (s : State k γ ℓ) (t : Fin k) (th : Thread ℓ) :
    (s.put t th).shared = s.shared := rfl

@[simp] theorem put_owner (s : State k γ ℓ) (t : Fin k) (th : Thread ℓ) :
    (s.put t th).owner = s.owner := rfl

theorem put_pos (s : State k γ ℓ) (t : Fin k) (th : Thread ℓ) :
    (s.put t th).pos = Function.update s.pos t th.pos := by
  funext u
  by_cases hu : u = t
  · subst hu
    simp [pos, put]
  · simp [pos, put, hu]

theorem wakeAll_pos (s : State k γ ℓ) : s.wakeAll.pos = s.pos := by
  funext u
  simp only [pos, wakeAll, Thread.wakeUp]
  split_ifs <;> rfl

end State

/-- What an operation makes of the shared data, and where the thread goes on. -/
def Op.result : Op γ ℓ → γ → Option (γ × ℓ)
  | .act f, g => some (f g)
  | .lock l, g | .unlock l, g | .wait l, g | .broadcast l, g => some (g, l)
  | .exit, _ => none

/-- A step either leaves the shared data and all positions as they are, or moves one thread by the
result of its operation. -/
theorem Fires.pos (h : Fires op s s') :
    (s'.shared = s.shared ∧ s'.pos = s.pos) ∨ ∃ t g l,
      (s.threads t).status = .ready ∧ (op (s.pos t)).result s.shared = some (g, l) ∧
      s'.shared = g ∧ s'.pos = Function.update s.pos t l := by
  cases h with
  | @act t f ht hop =>
    exact .inr ⟨t, _, _, ht, by rw [hop]; rfl, rfl, State.put_pos s t _⟩
  | @lock t l ht hop =>
    exact .inr ⟨t, _, l, ht, by rw [hop]; rfl, rfl, State.put_pos s t _⟩
  | @unlock t l ht hop =>
    exact .inr ⟨t, _, l, ht, by rw [hop]; rfl, rfl, State.put_pos s t _⟩
  | @wait t l ht hop =>
    exact .inr ⟨t, _, l, ht, by rw [hop]; rfl, rfl, State.put_pos s t _⟩
  | @broadcast t l ht hop =>
    refine .inr ⟨t, _, l, ht, by rw [hop]; rfl, rfl, ?_⟩
    rw [State.put_pos, State.wakeAll_pos]
  | @resume t =>
    refine .inl ⟨rfl, ?_⟩
    exact (State.put_pos s t _).trans (Function.update_eq_self t s.pos)
  | @wake t =>
    refine .inl ⟨rfl, ?_⟩
    rw [State.put_pos, Function.update_eq_self]

/-- What every operation preserves, whoever takes it, holds throughout a run. -/
theorem pos_invariant {I : γ → (Fin k → ℓ) → Prop} (h : Run (step op) s₀ steps s)
    (h0 : I s₀.shared s₀.pos)
    (hstep : ∀ g p t g' l, I g p → (op (p t)).result g = some (g', l) →
      I g' (Function.update p t l)) : I s.shared s.pos := by
  refine h.always (I := fun s => I s.shared s.pos) h0 ?_
  intro s a s' hI hs
  rcases (fires hs).pos with ⟨hg, hp⟩ | ⟨t, g, l, -, hres, hg, hp⟩
  · rw [hg, hp]
    exact hI
  · rw [hg, hp]
    exact hstep _ _ t g l hI hres

/-! ## Mutual exclusion -/

/-- The positions `inside` are those between taking the mutex and giving it back. -/
structure Disciplined (op : ℓ → Op γ ℓ) (inside : ℓ → Prop) : Prop where
  act : ∀ p f g, op p = .act f → (inside (f g).2 ↔ inside p)
  lock : ∀ p l, op p = .lock l → ¬ inside p ∧ inside l
  unlock : ∀ p l, op p = .unlock l → inside p ∧ ¬ inside l
  wait : ∀ p l, op p = .wait l → inside p ∧ inside l
  broadcast : ∀ p l, op p = .broadcast l → (inside l ↔ inside p)
  exit : ∀ p, op p = .exit → ¬ inside p

/-- The owner of the mutex is the thread that runs inside; a thread that waits does so inside. -/
structure Owned (inside : ℓ → Prop) (s : State k γ ℓ) : Prop where
  owner : ∀ t, s.owner = some t ↔ (s.threads t).status = .ready ∧ inside (s.pos t)
  waiting : ∀ t, (s.threads t).status ≠ .ready → inside (s.pos t)

variable {inside : ℓ → Prop}

theorem Owned.unique (h : Owned inside s) {u : Fin k} (ht : (s.threads t).status = .ready)
    (hu : (s.threads u).status = .ready) (hti : inside (s.pos t)) (hui : inside (s.pos u)) :
    t = u := by
  have howner := (h.owner t).2 ⟨ht, hti⟩
  rw [(h.owner u).2 ⟨hu, hui⟩] at howner
  exact (Option.some.inj howner).symm

theorem owned_init (g : γ) {l : ℓ} (hl : ¬ inside l) : Owned inside (State.init (k := k) g l) where
  owner t := by
    constructor
    · intro h
      cases h
    · rintro ⟨-, h⟩
      exact absurd h hl
  waiting t ht := absurd rfl ht

/-- One thread has moved, and the owner and the positions fit again. -/
theorem Owned.put (h : Owned inside s) {th : Thread ℓ} {o : Option (Fin k)} {g : γ}
    (howner : ∀ u, u ≠ t → (o = some u ↔ s.owner = some u))
    (hself : o = some t ↔ th.status = .ready ∧ inside th.pos)
    (hwait : th.status ≠ .ready → inside th.pos) :
    Owned inside { s.put t th with owner := o, shared := g } where
  owner u := by
    by_cases hu : u = t
    · subst hu
      simpa [State.put, State.pos] using hself
    · simpa [State.put, State.pos, hu, howner u hu] using h.owner u
  waiting u hu := by
    by_cases hut : u = t
    · subst hut
      simpa [State.put, State.pos] using hwait (by simpa [State.put] using hu)
    · simpa [State.put, State.pos, hut] using h.waiting u (by simpa [State.put, hut] using hu)

/-- Waking the threads does not change the owner. -/
theorem Owned.wakeAll (h : Owned inside s) : Owned inside s.wakeAll where
  owner u := by
    have hu := h.owner u
    simp only [State.wakeAll, State.pos, Thread.wakeUp] at hu ⊢
    split_ifs with hs <;> simpa [hs] using hu
  waiting u hu := by
    rw [State.wakeAll_pos]
    apply h.waiting u
    intro hready
    exact hu (by simp [State.wakeAll, Thread.wakeUp, hready])

/-- A disciplined program keeps the owner inside. -/
theorem Owned.fires (h : Owned inside s) (hop : Disciplined op inside) (hs : Fires op s s') :
    Owned inside s' := by
  cases hs with
  | @act t f ht hact =>
    refine h.put (fun _ _ => Iff.rfl) ?_ fun hn => absurd rfl hn
    rw [State.put_owner, h.owner t]
    simp [ht, hop.act _ _ s.shared hact]
  | @lock t l ht hlock ho =>
    obtain ⟨-, hl⟩ := hop.lock _ _ hlock
    refine h.put ?_ (by simp [hl]) fun hn => absurd rfl hn
    intro u hu
    simp [ho, Ne.symm hu]
  | @unlock t l ht hunlock =>
    obtain ⟨hin, hl⟩ := hop.unlock _ _ hunlock
    have hown := (h.owner t).2 ⟨ht, hin⟩
    refine h.put ?_ (by simp [hl]) fun hn => absurd rfl hn
    intro u hu
    simp [hown, Ne.symm hu]
  | @wait t l ht hwait =>
    obtain ⟨hin, hl⟩ := hop.wait _ _ hwait
    have hown := (h.owner t).2 ⟨ht, hin⟩
    refine h.put ?_ (by simp) fun _ => hl
    intro u hu
    simp [hown, Ne.symm hu]
  | @broadcast t l ht hb =>
    refine h.wakeAll.put (fun _ _ => Iff.rfl) ?_ fun hn => absurd rfl hn
    have hown : s.wakeAll.owner = s.owner := rfl
    rw [hown, h.owner t, hop.broadcast _ _ hb]
    simp [ht]
  | @resume t ht ho =>
    have hin := h.waiting t (by simp [ht])
    refine h.put ?_ (by simp [hin]) fun hn => absurd rfl hn
    intro u hu
    simp [ho, Ne.symm hu]
  | @wake t ht =>
    have hin := h.waiting t (by simp [ht])
    refine h.put (fun _ _ => Iff.rfl) ?_ fun _ => hin
    rw [h.owner t]
    simp [ht]

/-! ## Stuck threads -/

/-- No thread can take a step. -/
def Stuck (op : ℓ → Op γ ℓ) (s : State k γ ℓ) : Prop := ∀ t, step op s (.run t) = none

/-- A thread has come to its end. -/
def Ended (op : ℓ → Op γ ℓ) (s : State k γ ℓ) (t : Fin k) : Prop :=
  (s.threads t).status = .ready ∧ op (s.pos t) = .exit

theorem exec_ne_none_of_inside (hop : Disciplined op inside) (hin : inside (s.pos t)) :
    exec s t (op (s.pos t)) ≠ none := by
  cases h : op (s.pos t) with
  | act f => simp [exec]
  | lock l => exact absurd hin (hop.lock _ _ h).1
  | unlock l => simp [exec]
  | wait l => simp [exec]
  | broadcast l => simp [exec]
  | exit => exact absurd hin (hop.exit _ h)

/-- The threads that keep a disciplined program from going on are asleep. -/
theorem stuck_iff (hop : Disciplined op inside) (h : Owned inside s) :
    Stuck op s ↔ ∀ t, Ended op s t ∨ (s.threads t).status = .asleep := by
  constructor
  · intro hstuck
    have hfree : s.owner = none := by
      by_contra hne
      obtain ⟨u, hu⟩ := Option.ne_none_iff_exists'.1 hne
      obtain ⟨hready, hin⟩ := (h.owner u).1 hu
      apply exec_ne_none_of_inside hop hin
      simpa [step, hready] using hstuck u
    intro t
    have ht := hstuck t
    cases hst : (s.threads t).status with
    | ready =>
      rw [step, hst] at ht
      refine .inl ⟨hst, ?_⟩
      cases hop' : op (s.pos t) <;> simp_all [exec]
    | asleep => exact .inr rfl
    | woken => simp [step, hst, hfree] at ht
  · intro hall t
    rcases hall t with ⟨hready, hexit⟩ | hasleep
    · simp [step, hready, hexit, exec]
    · simp [step, hasleep]

/-! ## Progress -/

/-- An operation that may be repeated without progress: a wait, or the accesses that lead back to
it. -/
def Spins (op : ℓ → Op γ ℓ) (spin : ℓ → ℕ) (p l : ℓ) : Prop :=
  op p = .wait l ∨ (∃ f, op p = .act f) ∧ spin l < spin p

theorem not_spins {spin : ℓ → ℕ} {p l : ℓ} (hwait : ∀ l, op p ≠ .wait l)
    (hact : ∀ f, op p ≠ .act f) : ¬ Spins op spin p l := by
  rintro (h | ⟨⟨f, h⟩, -⟩)
  · exact hwait l h
  · exact hact f h

/-- `M` measures what is left to do, and `spin` where a thread is in the waiting loop. -/
structure Progress {β : Type*} (op : ℓ → Op γ ℓ) (I : γ → (Fin k → ℓ) → Prop) (lt : β → β → Prop)
    (M : γ → (Fin k → ℓ) → β) (spin : ℓ → ℕ) (bound : ℕ) : Prop where
  spin_le : ∀ p, spin p ≤ bound
  inv : ∀ g p t g' l, I g p → (op (p t)).result g = some (g', l) → I g' (Function.update p t l)
  down : ∀ g p t g' l, I g p → (op (p t)).result g = some (g', l) →
    lt (M g' (Function.update p t l)) (M g p) ∨
      M g' (Function.update p t l) = M g p ∧ Spins op spin (p t) l

/-- How far a thread is from falling asleep if it goes round the waiting loop. -/
def restless (spin : ℓ → ℕ) (bound : ℕ) (th : Thread ℓ) : ℕ :=
  match th.status with
  | .ready => spin th.pos + 1
  | .asleep => 0
  | .woken => bound + 2

theorem sum_restless_lt {spin : ℓ → ℕ} {bound : ℕ} {th : Thread ℓ}
    (h : restless spin bound th < restless spin bound (s.threads t)) :
    ∑ u, restless spin bound ((s.put t th).threads u) <
      ∑ u, restless spin bound (s.threads u) := by
  apply Finset.sum_lt_sum
  · intro u _
    by_cases hu : u = t
    · subst hu
      simpa [State.put] using h.le
    · simp [State.put, hu]
  · exact ⟨t, Finset.mem_univ t, by simpa [State.put] using h⟩

section Progress

variable {β : Type*} {I : γ → (Fin k → ℓ) → Prop} {lt : β → β → Prop} {M : γ → (Fin k → ℓ) → β}
  {spin : ℓ → ℕ} {bound : ℕ}

/-- What is left to do, and then how far the threads are from falling asleep. -/
def measure (M : γ → (Fin k → ℓ) → β) (spin : ℓ → ℕ) (bound : ℕ) (s : State k γ ℓ) : β × ℕ :=
  (M s.shared s.pos, ∑ t, restless spin bound (s.threads t))

/-- The operation of a thread decreases the measure. -/
theorem Progress.ready (hp : Progress op I lt M spin bound) (hI : I s.shared s.pos)
    (ht : (s.threads t).status = .ready) (h : exec s t (op (s.pos t)) = some s') :
    I s'.shared s'.pos ∧ Prod.Lex lt (· < ·) (measure M spin bound s') (measure M spin bound s) := by
  have hspin : restless spin bound (s.threads t) = spin (s.pos t) + 1 := by
    simp [restless, ht, State.pos]
  have key : ∀ g l, (op (s.pos t)).result s.shared = some (g, l) → s'.shared = g →
      s'.pos = Function.update s.pos t l →
      (Spins op spin (s.pos t) l → ∑ u, restless spin bound (s'.threads u) <
        ∑ u, restless spin bound (s.threads u)) →
      I s'.shared s'.pos ∧
        Prod.Lex lt (· < ·) (measure M spin bound s') (measure M spin bound s) := by
    rintro g l hres rfl hpos hlt
    rw [hpos]
    refine ⟨hp.inv _ _ _ _ _ hI hres, ?_⟩
    rcases hp.down _ _ _ _ _ hI hres with hM | ⟨hM, hloop⟩
    · rw [← hpos] at hM
      exact .left _ _ hM
    · rw [← hpos] at hM
      rw [measure, measure, hM]
      exact .right _ (hlt hloop)
  cases hop : op (s.pos t) with
  | act f =>
    rw [hop, exec, Option.some.injEq] at h
    subst h
    refine key _ _ (by rw [hop]; rfl) rfl (State.put_pos s t _) ?_
    rintro (hw | ⟨-, hlt⟩)
    · rw [hop] at hw
      cases hw
    · exact sum_restless_lt (by rw [hspin]; simpa [restless] using hlt)
  | lock l =>
    rw [hop, exec] at h
    split_ifs at h
    obtain rfl := Option.some.inj h
    refine key _ l (by rw [hop]; rfl) rfl (State.put_pos s t _) ?_
    exact fun h => absurd h (not_spins (by simp [hop]) (by simp [hop]))
  | unlock l =>
    rw [hop, exec, Option.some.injEq] at h
    subst h
    refine key _ l (by rw [hop]; rfl) rfl (State.put_pos s t _) ?_
    exact fun h => absurd h (not_spins (by simp [hop]) (by simp [hop]))
  | wait l =>
    rw [hop, exec, Option.some.injEq] at h
    subst h
    refine key _ l (by rw [hop]; rfl) rfl (State.put_pos s t _) fun _ => ?_
    exact sum_restless_lt (by rw [hspin]; simp [restless])
  | broadcast l =>
    rw [hop, exec, Option.some.injEq] at h
    subst h
    refine key _ l (by rw [hop]; rfl) rfl (by rw [State.put_pos, State.wakeAll_pos]) ?_
    exact fun h => absurd h (not_spins (by simp [hop]) (by simp [hop]))
  | exit =>
    rw [hop] at h
    cases h

/-- A thread that has been woken takes the mutex: nothing is done, but it is no longer woken. -/
theorem Progress.resume (hp : Progress op I lt M spin bound) (hI : I s.shared s.pos)
    (ht : (s.threads t).status = .woken) {o : Option (Fin k)} :
    let s' : State k γ ℓ := { s.put t ⟨.ready, s.pos t⟩ with owner := o }
    I s'.shared s'.pos ∧ Prod.Lex lt (· < ·) (measure M spin bound s') (measure M spin bound s) := by
  intro s'
  have hpos : s'.pos = s.pos := (State.put_pos s t _).trans (Function.update_eq_self t s.pos)
  rw [measure, measure, hpos]
  refine ⟨hI, .right _ (sum_restless_lt ?_)⟩
  have hle := hp.spin_le (s.pos t)
  simp only [restless, ht]
  omega

/-- The threads, each taking steps while it can, come to a state in which none can go on. -/
theorem exists_stuck (hwf : WellFounded lt) (hp : Progress op I lt M spin bound)
    (h : Run (step op) s₀ steps s) (hI : I s.shared s.pos) :
    ∃ steps' s', Run (step op) s₀ steps' s' ∧ Stuck op s' := by
  have hstep : ∀ (s : State k γ ℓ) (a : Move k) s', I s.shared s.pos → (∃ t, a = .run t) →
      step op s a = some s' → I s'.shared s'.pos ∧
        Prod.Lex lt (· < ·) (measure M spin bound s') (measure M spin bound s) := by
    rintro s _ s' hI ⟨t, rfl⟩ hs
    cases ht : (s.threads t).status with
    | ready =>
      rw [step, ht] at hs
      exact hp.ready hI ht hs
    | asleep =>
      rw [step, ht] at hs
      cases hs
    | woken =>
      simp only [step, ht] at hs
      split_ifs at hs
      exact Option.some.inj hs ▸ hp.resume hI ht
  obtain ⟨steps', s', hrun, -, hend⟩ := Run.exists_terminal
    (WellFounded.prod_lex hwf wellFounded_lt) (measure M spin bound) h hI hstep
  exact ⟨steps', s', hrun, fun t => hend _ ⟨t, rfl⟩⟩

end Progress

end Monitor
