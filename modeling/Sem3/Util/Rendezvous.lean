import Sem3.Util.Run
import Mathlib.Algebra.BigOperators.Group.List.Basic
import Mathlib.Algebra.Order.Ring.Nat

/-!
# Threads that communicate by rendezvous

A thread is given by its local state, and a program says what it does next in each state: a step of
its own, a new channel, a new thread, or sending or receiving on a channel. A message is passed when
one thread sends and another one receives on the same channel; both go on then. A thread may also
wait for an input from outside. Channels and threads are numbered in the order in which they are
made.

The rules are what a step can do (`step_act`, `step_input`, `step_comm`), that a thread that can do
something makes a step possible, that only one thread can go on if all others wait
(`OthersWait`), and that a weight of the local states bounds the number of steps
(`Decreases.sum_lt`).
-/

namespace Rendezvous

/-- What a thread does next. -/
inductive Action (σ M I : Type*) where
  | tau (s : σ)
  | fresh (k : ℕ → σ)
  | fork (child s : σ)
  | send (ch : ℕ) (m : M) (s : σ)
  | recv (ch : ℕ) (k : M → σ)
  | input (k : I → σ)
  | halt

/-- The threads, in the order in which they were made. -/
structure Config (σ : Type*) where
  threads : List σ
  /-- The next new channel. -/
  fresh : ℕ

/-- A thread takes a step of its own or gets an input, or the first thread sends to the second one. -/
inductive Label (I : Type*) where
  | act (i : ℕ)
  | input (i : ℕ) (x : I)
  | comm (i j : ℕ)

variable {σ M I : Type*} {P : σ → Action σ M I} {c c' : Config σ} {s s' r : σ} {i j ch : ℕ} {m : M}
  {k : M → σ} {x : I} {l : Label I}

/-- The step with a label; `none` if the threads are not ready for it. -/
def step (P : σ → Action σ M I) (c : Config σ) : Label I → Option (Config σ)
  | .act i =>
    match c.threads[i]?.map P with
    | some (.tau s) => some { c with threads := c.threads.set i s }
    | some (.fresh k) => some ⟨c.threads.set i (k c.fresh), c.fresh + 1⟩
    | some (.fork child s) => some { c with threads := c.threads.set i s ++ [child] }
    | _ => none
  | .input i x =>
    match c.threads[i]?.map P with
    | some (.input k) => some { c with threads := c.threads.set i (k x) }
    | _ => none
  | .comm i j =>
    match c.threads[i]?.map P, c.threads[j]?.map P with
    | some (.send ch m s), some (.recv ch' k) =>
      if ch = ch' then some { c with threads := (c.threads.set i s).set j (k m) } else none
    | _, _ => none

/-! ## What a step can do -/

/-- A step of one thread: it changes its own state, takes a channel or makes a thread. -/
theorem step_act (h : step P c (.act i) = some c') : ∃ s, c.threads[i]? = some s ∧
    ((∃ s', P s = .tau s' ∧ c' = { c with threads := c.threads.set i s' }) ∨
      (∃ k, P s = .fresh k ∧ c' = ⟨c.threads.set i (k c.fresh), c.fresh + 1⟩) ∨
        ∃ child s', P s = .fork child s' ∧
          c' = { c with threads := c.threads.set i s' ++ [child] }) := by
  unfold step at h
  cases hs : c.threads[i]? with
  | none => simp [hs] at h
  | some s =>
    refine ⟨s, rfl, ?_⟩
    simp only [hs, Option.map_some] at h
    split at h <;> grind

/-- An input is taken by a thread that waits for it. -/
theorem step_input (h : step P c (.input i x) = some c') : ∃ s k, c.threads[i]? = some s ∧
    P s = .input k ∧ c' = { c with threads := c.threads.set i (k x) } := by
  unfold step at h
  cases hs : c.threads[i]? with
  | none => simp [hs] at h
  | some s =>
    simp only [hs, Option.map_some] at h
    split at h <;> grind

/-- A message goes from one thread to another on one channel. -/
theorem step_comm (h : step P c (.comm i j) = some c') : ∃ s r ch m s' k,
    (c.threads[i]? = some s ∧ P s = .send ch m s') ∧ (c.threads[j]? = some r ∧ P r = .recv ch k) ∧
      c' = { c with threads := (c.threads.set i s').set j (k m) } := by
  unfold step at h
  cases hs : c.threads[i]? with
  | none => simp [hs] at h
  | some s =>
    cases hr : c.threads[j]? with
    | none => simp [hs, hr] at h
    | some r =>
      simp only [hs, hr, Option.map_some] at h
      split at h <;> grind

/-- The sender and the receiver are two threads. -/
theorem ne_of_comm (hs : c.threads[i]? = some s) (hsend : P s = .send ch m s')
    (hr : c.threads[j]? = some r) (hrecv : P r = .recv ch k) : i ≠ j := by
  rintro rfl
  rw [hs] at hr
  obtain rfl := Option.some.inj hr
  rw [hsend] at hrecv
  cases hrecv

theorem step_tau (hs : c.threads[i]? = some s) (htau : P s = .tau s') :
    step P c (.act i) = some { c with threads := c.threads.set i s' } := by
  simp [step, hs, htau]

theorem step_fresh {k : ℕ → σ} (hs : c.threads[i]? = some s) (hfresh : P s = .fresh k) :
    step P c (.act i) = some ⟨c.threads.set i (k c.fresh), c.fresh + 1⟩ := by
  simp [step, hs, hfresh]

theorem step_fork {child : σ} (hs : c.threads[i]? = some s) (hfork : P s = .fork child s') :
    step P c (.act i) = some { c with threads := c.threads.set i s' ++ [child] } := by
  simp [step, hs, hfork]

/-- A thread that waits for another one, or has ended, takes no step of its own. -/
theorem step_act_of_send (hs : c.threads[i]? = some s) (hsend : P s = .send ch m s') :
    step P c (.act i) = none := by
  simp [step, hs, hsend]

theorem step_act_of_recv (hs : c.threads[i]? = some s) (hrecv : P s = .recv ch k) :
    step P c (.act i) = none := by
  simp [step, hs, hrecv]

theorem step_act_of_halt (hs : c.threads[i]? = some s) (hhalt : P s = .halt) :
    step P c (.act i) = none := by
  simp [step, hs, hhalt]

/-- A thread that sends and one that receives can take the step together. -/
theorem step_send (hs : c.threads[i]? = some s) (hsend : P s = .send ch m s')
    (hr : c.threads[j]? = some r) (hrecv : P r = .recv ch k) :
    step P c (.comm i j) = some { c with threads := (c.threads.set i s').set j (k m) } := by
  simp [step, hs, hsend, hr, hrecv]

/-! ## One thread that goes on -/

/-- All threads but one wait to receive. -/
def OthersWait (P : σ → Action σ M I) (c : Config σ) (i : ℕ) : Prop :=
  ∀ (j : ℕ) (r : σ), j ≠ i → c.threads[j]? = some r → ∃ ch k, P r = .recv ch k

/-- That one takes part in the step. -/
theorem OthersWait.label (hwait : OthersWait P c i) (h : step P c l = some c') :
    l = .act i ∨ (∃ x, l = .input i x) ∨ ∃ j, l = .comm i j := by
  have hmoves : ∀ {j : ℕ} {r : σ}, c.threads[j]? = some r → (∀ ch k, P r ≠ .recv ch k) → j = i := by
    intro j r hr hne
    by_contra hj
    obtain ⟨ch, k, hrecv⟩ := hwait j r hj hr
    exact hne ch k hrecv
  cases l with
  | act j =>
    obtain ⟨s, hs, ⟨s', hP, -⟩ | ⟨k, hP, -⟩ | ⟨child, s', hP, -⟩⟩ := step_act h <;>
      exact .inl (by rw [hmoves hs (by rw [hP]; rintro _ _ ⟨⟩)])
  | input j x =>
    obtain ⟨s, k, hs, hP, -⟩ := step_input h
    exact .inr (.inl ⟨x, by rw [hmoves hs (by rw [hP]; rintro _ _ ⟨⟩)]⟩)
  | comm j j' =>
    obtain ⟨s, r, ch, m, s', k, ⟨hs, hP⟩, -, -⟩ := step_comm h
    exact .inr (.inr ⟨j', by rw [hmoves hs (by rw [hP]; rintro _ _ ⟨⟩)]⟩)

/-- The only step of a thread that takes a channel while all others wait. -/
theorem OthersWait.fresh {k : ℕ → σ} (hwait : OthersWait P c i) (hs : c.threads[i]? = some s)
    (hfresh : P s = .fresh k) (h : step P c l = some c') :
    l = .act i ∧ c' = ⟨c.threads.set i (k c.fresh), c.fresh + 1⟩ := by
  rcases hwait.label h with rfl | ⟨x, rfl⟩ | ⟨j, rfl⟩
  · rw [step_fresh hs hfresh] at h
    exact ⟨rfl, (Option.some.inj h).symm⟩
  · simp [step, hs, hfresh] at h
  · simp [step, hs, hfresh] at h

/-- The only step of a thread that makes another one. -/
theorem OthersWait.fork {child : σ} (hwait : OthersWait P c i) (hs : c.threads[i]? = some s)
    (hfork : P s = .fork child s') (h : step P c l = some c') :
    l = .act i ∧ c' = { c with threads := c.threads.set i s' ++ [child] } := by
  rcases hwait.label h with rfl | ⟨x, rfl⟩ | ⟨j, rfl⟩
  · rw [step_fork hs hfork] at h
    exact ⟨rfl, (Option.some.inj h).symm⟩
  · simp [step, hs, hfork] at h
  · simp [step, hs, hfork] at h

/-- The only step of a thread that waits for input. -/
theorem OthersWait.input {k : I → σ} (hwait : OthersWait P c i) (hs : c.threads[i]? = some s)
    (hinput : P s = .input k) (h : step P c l = some c') :
    ∃ x, l = .input i x ∧ c' = { c with threads := c.threads.set i (k x) } := by
  rcases hwait.label h with rfl | ⟨x, rfl⟩ | ⟨j, rfl⟩
  · simp [step, hs, hinput] at h
  · simp only [step, hs, Option.map_some, hinput, Option.some.injEq] at h
    exact ⟨x, rfl, h.symm⟩
  · simp [step, hs, hinput] at h

theorem OthersWait.send (hwait : OthersWait P c i) (hs : c.threads[i]? = some s)
    (hsend : P s = .send ch m s') (h : step P c l = some c') :
    ∃ j r k, l = .comm i j ∧ (c.threads[j]? = some r ∧ P r = .recv ch k) ∧
      c' = { c with threads := (c.threads.set i s').set j (k m) } := by
  rcases hwait.label h with rfl | ⟨x, rfl⟩ | ⟨j, rfl⟩
  · rw [step_act_of_send hs hsend] at h
    cases h
  · simp [step, hs, hsend] at h
  · obtain ⟨t, r, ch', m', t', k, ⟨ht, hact⟩, hr, rfl⟩ := step_comm h
    cases Option.some.inj (hs.symm.trans ht)
    rw [hsend] at hact
    cases hact
    exact ⟨j, r, k, rfl, hr, rfl⟩

/-! ## Weights -/

/-- The steps make the sum of the weights of the threads smaller, unless there is an input. -/
structure Decreases (P : σ → Action σ M I) (w : σ → ℕ) : Prop where
  tau : ∀ s s', P s = .tau s' → w s' < w s
  fresh : ∀ s k ch, P s = .fresh k → w (k ch) < w s
  fork : ∀ s child s', P s = .fork child s' → w s' + w child < w s
  comm : ∀ s r ch m s' k, P s = .send ch m s' → P r = .recv ch k → w s' + w (k m) < w s + w r

theorem sum_set_add (w : σ → ℕ) (s' : σ) {l : List σ} (hs : l[i]? = some s) :
    ((l.set i s').map w).sum + w s = (l.map w).sum + w s' := by
  induction l generalizing i with
  | nil => simp at hs
  | cons a l ih =>
    cases i with
    | zero =>
      obtain rfl := Option.some.inj hs
      simp only [List.set_cons_zero, List.map_cons, List.sum_cons]
      omega
    | succ i =>
      have := ih hs
      simp only [List.set_cons_succ, List.map_cons, List.sum_cons]
      omega

/-- Every step but an input decreases the work of all threads together. -/
theorem Decreases.sum_lt {w : σ → ℕ} (hw : Decreases P w) (hl : ∀ i x, l ≠ .input i x)
    (h : step P c l = some c') : (c'.threads.map w).sum < (c.threads.map w).sum := by
  cases l with
  | act i =>
    obtain ⟨s, hs, ⟨s', hP, rfl⟩ | ⟨k, hP, rfl⟩ | ⟨child, s', hP, rfl⟩⟩ := step_act h
    · have hlt := hw.tau s s' hP
      have hsum := sum_set_add w s' hs
      show ((c.threads.set i s').map w).sum < _
      omega
    · have hlt := hw.fresh s k c.fresh hP
      have hsum := sum_set_add w (k c.fresh) hs
      show ((c.threads.set i (k c.fresh)).map w).sum < _
      omega
    · have hlt := hw.fork s child s' hP
      have hsum := sum_set_add w s' hs
      simp only [List.map_append, List.sum_append, List.map_singleton, List.sum_singleton]
      omega
  | input i x => exact absurd rfl (hl i x)
  | comm i j =>
    obtain ⟨s, r, ch, m, s', k, ⟨hs, hsend⟩, ⟨hr, hrecv⟩, rfl⟩ := step_comm h
    have hlt := hw.comm s r ch m s' k hsend hrecv
    have hr' : (c.threads.set i s')[j]? = some r := by
      rwa [List.getElem?_set_ne (ne_of_comm hs hsend hr hrecv)]
    have hfirst := sum_set_add w s' hs
    have hsecond := sum_set_add w (k m) hr'
    show (((c.threads.set i s').set j (k m)).map w).sum < _
    omega

end Rendezvous
