import Sem3.LinkedList.Proofs.ListProofs
import Sem3.Shell.ProcessList
import Sem3.Shell.Proofs.MainProofs

/-!
# Proofs: the children as a linked list

The nodes represent the sequence of the numbers that the model of `main` keeps, from `list_init` on and
through every run, as long as `malloc` does not fail for want of memory.
-/

namespace Sem3.Shell.ProcessList

open Chain
open LinkedList (Store Malloc Repr listAppend listFind listRemove)

variable {fuel : ℕ} {malloc : Malloc ℤ} {store : Store ℤ} {prcs prcs' : List ℤ}
  {xs : List (ℕ × ℤ)} {p : ℤ} {c : Call} {calls : List Call}

/-- The numbers in the nodes are `prcs`, in this order. -/
def Represents (store : Store ℤ) (prcs : List ℤ) : Prop :=
  store.FinitelyUsed ∧ ∃ xs, Repr store xs ∧ xs.map Prod.snd = prcs

/-- The condition of the loop around `wait`. -/
theorem Represents.size_pos_iff (h : Represents store prcs) : store.size > 0 ↔ prcs ≠ [] := by
  obtain ⟨-, xs, hrepr, rfl⟩ := h
  rw [hrepr.size]
  cases xs <;> simp

/-- What `list_find` gives is the node of the first number that is equal. -/
theorem find_reap (hnodup : (nodes xs).Nodup) :
    (Shell.reap (xs.map Prod.snd) p = none ∧ xs.find? (fun x => cmppid x.2 p = 0) = none) ∨
      ∃ x, xs.find? (fun x => cmppid x.2 p = 0) = some x ∧ x.1 ∈ nodes xs ∧
        Shell.reap (xs.map Prod.snd) p =
          some ((xs.eraseP fun y => some y.1 = some x.1).map Prod.snd) := by
  induction xs with
  | nil => exact .inl ⟨rfl, rfl⟩
  | cons x xs ih =>
    obtain ⟨hx, hrest⟩ := List.nodup_cons.1 hnodup
    by_cases heq : cmppid x.2 p = 0
    · refine .inr ⟨x, by simp [heq], List.mem_cons_self, ?_⟩
      have hq : x.2 - p = 0 := heq
      simp [Shell.reap, List.findIdx?_cons, hq]
    · have hq : ¬ x.2 - p = 0 := heq
      rw [List.find?_cons_of_neg (by simpa using heq)]
      rcases ih hrest with ⟨hreap, hfind⟩ | ⟨y, hfind, hy, hreap⟩
      · refine .inl ⟨?_, hfind⟩
        rw [Shell.reap, Option.map_eq_none_iff] at hreap
        simp [Shell.reap, List.findIdx?_cons, hq, hreap]
      · refine .inr ⟨y, hfind, List.mem_cons_of_mem _ hy, ?_⟩
        have hne : ¬ x.1 = y.1 := fun h => hx (h ▸ hy)
        obtain ⟨i, hi, herase⟩ := Option.map_eq_some_iff.1 hreap
        rw [List.eraseP_cons_of_neg (by simpa using hne), List.map_cons, List.map_cons, ← herase]
        simp [Shell.reap, List.findIdx?_cons, hq, hi]

/-- `reap` on the nodes does what it does on the sequence. -/
theorem reap_refines (h : Repr store xs) (hfuel : xs.length < fuel) :
    (Shell.reap (xs.map Prod.snd) p = none ∧ reap fuel store p = none) ∨
      ∃ store' ys, reap fuel store p = some store' ∧ Repr store' ys ∧
        (store.FinitelyUsed → store'.FinitelyUsed) ∧
          Shell.reap (xs.map Prod.snd) p = some (ys.map Prod.snd) := by
  have hfind := LinkedList.listFind_spec h hfuel p cmppid
  rcases find_reap h.nodup (p := p) with ⟨hreap, hnone⟩ | ⟨x, hsome, hx, hreap⟩
  · refine .inl ⟨hreap, ?_⟩
    rw [reap, hfind, hnone]
    rfl
  · rcases LinkedList.listRemove_spec h hfuel (some x.1) with ⟨hno, -⟩ | ⟨s', -, hret, hrepr⟩
    · exact absurd rfl (hno x.1 hx)
    · refine .inr ⟨s', _, ?_, hrepr, fun hused => hused.listRemove hret, hreap⟩
      rw [reap, hfind, hsome]
      show (listRemove fuel store (some x.1)).map Prod.fst = _
      rw [hret]
      rfl

/-- A call that stops on the sequence stops on the nodes. -/
theorem Call.onNodes_eq_none (h : Represents store prcs) (hfuel : prcs.length < fuel)
    (hc : c.onSequence prcs = none) : c.onNodes fuel malloc store = none := by
  obtain ⟨-, xs, hrepr, rfl⟩ := h
  cases c with
  | append p => cases hc
  | reap p =>
    rw [List.length_map] at hfuel
    rcases reap_refines hrepr hfuel (p := p) with ⟨-, hnone⟩ | ⟨store', ys, -, -, -, hsome⟩
    · exact hnone
    · exact absurd (hc.symm.trans hsome) (by simp)

/-- A call keeps the nodes and the sequence together. -/
theorem Call.represents (h : Represents store prcs) (hm : malloc.Succeeds)
    (hfuel : prcs.length < fuel) (hc : c.onSequence prcs = some prcs') :
    ∃ store', c.onNodes fuel malloc store = some store' ∧ Represents store' prcs' := by
  obtain ⟨hused, xs, hrepr, rfl⟩ := h
  cases c with
  | append p =>
    obtain ⟨n, hn⟩ := Option.ne_none_iff_exists'.1 (hused.pick_ne_none hm)
    obtain ⟨store', happend, hrepr'⟩ := (LinkedList.listAppend_spec hrepr p malloc).2 n hn
    refine ⟨store', ?_, hused.listAppend happend, _, hrepr', ?_⟩
    · rw [Call.onNodes, happend]
      rfl
    · rw [List.map_append]
      exact Option.some.inj hc
  | reap p =>
    rw [List.length_map] at hfuel
    rcases reap_refines hrepr hfuel (p := p) with ⟨hnone, -⟩ |
      ⟨store', ys, hnodes, hrepr', hkeeps, hsome⟩
    · exact absurd (hnone.symm.trans hc) (by simp)
    · exact ⟨store', hnodes, hkeeps hused, ys, hrepr', Option.some.inj (hsome.symm.trans hc)⟩

theorem Call.length_le (hc : c.onSequence prcs = some prcs') : prcs'.length ≤ prcs.length + 1 := by
  cases c with
  | append p =>
    obtain rfl := Option.some.inj hc
    simp
  | reap p =>
    obtain ⟨i, -, rfl⟩ := Option.map_eq_some_iff.1 hc
    exact (List.length_eraseIdx_le prcs i).trans (Nat.le_succ _)

/-- The calls on the nodes follow those on the sequence. -/
theorem calls_represent (hm : malloc.Succeeds) (h : Represents store prcs)
    (hfuel : prcs.length + calls.length < fuel)
    (hcalls : calls.foldlM Call.onSequence prcs = some prcs') :
    ∃ store', calls.foldlM (Call.onNodes fuel malloc) store = some store' ∧
      Represents store' prcs' := by
  induction calls generalizing store prcs with
  | nil =>
    obtain rfl := Option.some.inj hcalls
    exact ⟨store, rfl, h⟩
  | cons c calls ih =>
    rw [List.length_cons] at hfuel
    obtain ⟨prcs₁, hc, hrest⟩ := Run.foldlM_cons_eq_some.1 hcalls
    have hlt : prcs.length < fuel := by omega
    obtain ⟨store₁, hnodes, h₁⟩ := Call.represents h hm hlt hc
    have hle := Call.length_le hc
    obtain ⟨store', hnodes', h'⟩ := ih h₁ (by omega) hrest
    exact ⟨store', Run.foldlM_cons_eq_some.2 ⟨store₁, hnodes, hnodes'⟩, h'⟩

theorem Represents.empty : Represents Store.empty [] :=
  ⟨.empty, [], .empty, rfl⟩

/-- If the steps of a machine touch a sequence of numbers only by their calls, the nodes have these
numbers in every run. -/
theorem run_on_nodes {σ α : Type*} {step : σ → α → Option σ} {ofAct : α → Option Call}
    {s₀ s : σ} {steps : List (σ × α)} (numbers : σ → List ℤ) (hm : malloc.Succeeds)
    (hstep : ∀ s a s', step s a = some s' →
      (ofAct a).toList.foldlM Call.onSequence (numbers s) = some (numbers s'))
    (h0 : numbers s₀ = []) (h : Run step s₀ steps s) (hfuel : steps.length < fuel) :
    ∃ store, (steps.filterMap fun x => ofAct x.2).foldlM (Call.onNodes fuel malloc) Store.empty =
      some store ∧ Represents store (numbers s) := by
  have hcalls : (steps.filterMap fun x => ofAct x.2).foldlM Call.onSequence [] =
      some (numbers s) := by
    clear hfuel
    induction h with
    | init => exact congrArg some h0.symm
    | @snoc steps s s' a _ hs ih =>
      rw [List.filterMap_append]
      refine Run.foldlM_append_eq_some.2 ⟨numbers s, ih, ?_⟩
      have hnumbers := hstep s a s' hs
      cases hact : ofAct a <;> simpa [hact] using hnumbers
  have hlength := List.length_filterMap_le (fun x : σ × α => ofAct x.2) steps
  exact calls_represent hm .empty (by rw [List.length_nil]; omega) hcalls

/-! ## The runs of the shell -/

variable {s s' : Session} {act : Act} {steps : List (Session × Act)} {paths env : List (List Char)}
  {fds : Fds}

theorem prepares_prcs {a : Answers} {stages : List (List (List Char))} (h : Prepares s a stages s') :
    s'.prcs = s.prcs := by
  cases h with
  | refused | cd | fork => rfl

/-- `main` touches `prcs` only by its calls. -/
theorem step_prcs (h : s.step act = some s') :
    (ofAct act).toList.foldlM Call.onSequence s.prcs = some s'.prcs := by
  cases fires h with
  | blank | forked => rfl
  | words _ _ hs => exact congrArg some (prepares_prcs hs).symm
  | fork => rfl
  | wait _ _ _ hreap =>
    show (Shell.reap s.prcs _).bind some = _
    rw [hreap]
    rfl
  | waited => rfl

/-- In every run of the shell the nodes of the list have the numbers that `prcs` has. -/
theorem prcs_on_nodes (hm : malloc.Succeeds)
    (h : Run Session.step (.init paths env fds) steps s) (hfuel : steps.length < fuel) :
    ∃ store, (steps.filterMap fun x => ofAct x.2).foldlM (Call.onNodes fuel malloc) Store.empty =
      some store ∧ Represents store s.prcs :=
  run_on_nodes Session.prcs hm (fun _ _ _ => step_prcs) rfl h hfuel

end Sem3.Shell.ProcessList
