import Sem3.Util.Loop
import Mathlib.Data.Int.Notation
import Mathlib.Data.List.Basic

/-!
# The thread scheduler (`threadsched.c`)

The simulation loop of `main` moves threads between the list of those that have not arrived, the
ready list and the variable `active`, under one of three algorithms. A `threadcontext_t *` is the
number of the thread, counted from 0, and `ctx` is the memory that it points into. The two lists are
the sequences that `list.c` keeps; a node of one is named by its place. `int` is unbounded, `malloc`
is taken to succeed, and the time is read from the variable `millis`, since the parameter `t` of the
three algorithms is not used.
-/

namespace Sem3.Sched

open Loop

/-- `threadcontext_t`. -/
structure Threadcontext where
  n : ℕ
  prio : ℤ
  start : ℤ
  target : ℤ
deriving DecidableEq, Repr

/-- The algorithms that `-a` chooses from. -/
inductive Algo where
  | rr
  | prr
  | srtn
deriving DecidableEq, Repr

/-- The variables of the simulation loop. `rows` are the calls of `print_time_step` so far. -/
structure Sim where
  ctx : ℕ → Threadcontext
  list : List ℕ
  ready : List ℕ
  active : Option ℕ
  millis : ℤ
  lastQ : ℤ
  rows : List (ℤ × ℕ)

/-! ## Choosing the next thread -/

/-- The comparison for `srtn`: less work left is greater. -/
def cmpTarget (a b : Threadcontext) : ℤ := if a.target < b.target then 1 else -1

/-- The comparison for `prr`: a smaller number is a higher priority. -/
def cmpPrio (a b : Threadcontext) : ℤ := if a.prio < b.prio then 1 else -1

/-- The loop of `list_getMax` on the nodes from position `i` on; `highest` is a node, given by its
position and its thread. -/
def getMaxLoop (ctx : ℕ → Threadcontext) (cmp : Threadcontext → Threadcontext → ℤ) :
    List ℕ → ℕ → ℕ × ℕ → ℕ × ℕ
  | [], _, highest => highest
  | next :: rest, i, highest =>
    getMaxLoop ctx cmp rest (i + 1)
      (if cmp (ctx next) (ctx highest.2) > 0 then (i, next) else highest)

/-- `list_getMax` on a list that is not empty: the position of the node. -/
def listGetMax (ctx : ℕ → Threadcontext) (cmp : Threadcontext → Threadcontext → ℤ)
    (first : ℕ) (rest : List ℕ) : ℕ :=
  (getMaxLoop ctx cmp (first :: rest) 0 (0, first)).1

/-- What the three algorithms have in common: an active thread that is not finished goes to the end
of the ready list, and a node is chosen, taken out of the list and made active. -/
def reschedule (choose : ℕ → List ℕ → ℕ) (ctx : ℕ → Threadcontext) (ready : List ℕ)
    (active : Option ℕ) : List ℕ × Option ℕ :=
  let ready' :=
    match active with
    | none => ready
    | some a => if (ctx a).target > 0 then ready ++ [a] else ready
  match ready' with
  | [] => ([], none)
  | first :: rest =>
    let activeElem := choose first rest
    ((first :: rest).eraseIdx activeElem, (first :: rest)[activeElem]?)

/-- `rr` takes the first thread. -/
def rr (ctx : ℕ → Threadcontext) : List ℕ → Option ℕ → List ℕ × Option ℕ :=
  reschedule (fun _ _ => 0) ctx

/-- `prr` takes the first thread with the best priority. -/
def prr (ctx : ℕ → Threadcontext) : List ℕ → Option ℕ → List ℕ × Option ℕ :=
  reschedule (listGetMax ctx cmpPrio) ctx

/-- `srtn` takes the first thread with the least work left. -/
def srtn (ctx : ℕ → Threadcontext) : List ℕ → Option ℕ → List ℕ × Option ℕ :=
  reschedule (listGetMax ctx cmpTarget) ctx

/-- The function of the algorithm. -/
def Algo.run : Algo → (ℕ → Threadcontext) → List ℕ → Option ℕ → List ℕ × Option ℕ
  | .rr => Sched.rr
  | .prr => Sched.prr
  | .srtn => Sched.srtn

/-! ## One pass of the loop -/

/-- The condition of the loop. -/
def Sim.goesOn (q : ℤ) (s : Sim) : Prop :=
  s.list ≠ [] ∨ s.ready ≠ [] ∨ (∃ a, s.active = some a ∧ (s.ctx a).target > 0) ∨
    s.millis.tmod q ≠ 0

instance (q : ℤ) (s : Sim) : Decidable (s.goesOn q) :=
  have : Decidable (∃ a, s.active = some a ∧ (s.ctx a).target > 0) :=
    match h : s.active with
    | none => isFalse (by simp)
    | some a => decidable_of_iff ((s.ctx a).target > 0) (by simp)
  inferInstanceAs (Decidable (_ ∨ _))

/-- The inner loop: threads whose time has come move to the ready list. -/
def Sim.arrive (s : Sim) : Sim :=
  { s with
    list := s.list.filter fun a => ¬ (s.ctx a).start ≤ s.millis
    ready := s.ready ++ s.list.filter fun a => (s.ctx a).start ≤ s.millis }

/-- A thread is chosen when the slot is over or no thread is active. -/
def Sim.schedule (alg : Algo) (q : ℤ) (s : Sim) : Sim :=
  if s.lastQ + q = s.millis ∨ s.active = none then
    { s with
      ready := (alg.run s.ctx s.ready s.active).1
      active := (alg.run s.ctx s.ready s.active).2
      lastQ := s.millis }
  else s

/-- `active->target -= t;` -/
def Sim.work (t : ℤ) (s : Sim) : Sim :=
  match s.active with
  | none => s
  | some a =>
    { s with ctx := Function.update s.ctx a { s.ctx a with target := (s.ctx a).target - t } }

/-- The row of the pass, unless there is no thread any more. -/
def Sim.printRow (s : Sim) : Sim :=
  if s.list ≠ [] ∨ s.ready ≠ [] ∨ s.active ≠ none then
    match s.active with
    | some a => { s with rows := s.rows ++ [(s.millis, (s.ctx a).n)] }
    | none => { s with rows := s.rows ++ [(s.millis, 0)] }
  else s

/-- The body of the loop. -/
def Sim.tick (alg : Algo) (t q : ℤ) (s : Sim) : Sim :=
  let s' := ((s.arrive.schedule alg q).work t).printRow
  { s' with millis := s'.millis + t }

/-- One pass of the loop. -/
def step (alg : Algo) (t q : ℤ) (s : Sim) : Pass Sim Sim :=
  if s.goesOn q then .again (s.tick alg t q) else .leave s

/-! ## The start of the simulation -/

/-- The three parameters of a thread that `main` reads. -/
structure Params where
  prio : ℤ
  start : ℤ
  target : ℤ
deriving DecidableEq, Repr

/-- What `main` requires of them; the digits that it reads are not negative. -/
def Params.valid (p : Params) : Prop :=
  ¬ (p.prio < 1 ∨ p.prio > 10 ∨ p.start > 100000 ∨ p.target > 30000) ∧
    0 ≤ p.start ∧ 0 ≤ p.target

instance (p : Params) : Decidable p.valid := inferInstanceAs (Decidable (_ ∧ _))

/-- The thread control blocks, numbered in the order of the input. -/
def context (threads : List Params) (i : ℕ) : Threadcontext :=
  match threads[i]? with
  | some p => { n := i + 1, prio := p.prio, start := p.start, target := p.target }
  | none => { n := 0, prio := 0, start := 0, target := 0 }

/-- The variables before the loop: no thread has arrived. -/
def Sim.init (threads : List Params) (q : ℤ) : Sim where
  ctx := context threads
  list := List.range threads.length
  ready := []
  active := none
  millis := 0
  lastQ := -q
  rows := []

end Sem3.Sched
