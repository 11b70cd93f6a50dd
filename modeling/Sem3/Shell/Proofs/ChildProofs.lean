import Sem3.Shell.Proofs.MainProofs
import Mathlib.Data.List.Nodup
import Mathlib.Data.List.Perm.Basic

/-!
# Proofs: the children of the shell

The list `prcs` follows the children of the process step by step, so the number that `wait` gives is
always found.
-/

namespace Sem3.Shell

variable {s s' : Session} {act : Act} {paths env : List (List Char)} {fds : Fds}
  {steps : List (Session × Act)}

/-- The number of the child is removed from the list. -/
theorem reap_eq_erase {prcs : List ℤ} {p : ℤ} (hp : p ∈ prcs) :
    reap prcs p = some (prcs.erase p) := by
  induction prcs with
  | nil => exact absurd hp List.not_mem_nil
  | cons q prcs ih =>
    by_cases hq : q = p
    · subst hq
      simp [reap, List.findIdx?_cons]
    · have hmem := (List.mem_cons.1 hp).resolve_left (Ne.symm hq)
      have hne : ¬ q - p = 0 := by omega
      have hrest := ih hmem
      rw [reap] at hrest ⊢
      rw [List.findIdx?_cons, List.erase_cons_tail (by simpa using hq)]
      obtain ⟨i, hi, heq⟩ := Option.map_eq_some_iff.1 hrest
      simp [hne, hi, heq]

/-- The list is that of the children, each once; at a prompt there are none. -/
structure Tracks (s : Session) : Prop where
  prcs_eq : s.prcs = s.kids
  nodup : s.kids.Nodup
  prompt : s.phase = .prompt → s.kids = []

theorem Tracks.prepared {a : Answers} {stages : List (List (List Char))} (h : Tracks s)
    (hs : Prepares s a stages s') : Tracks s' := by
  cases hs with
  | refused => exact h
  | cd => exact ⟨h.prcs_eq, h.nodup, h.prompt⟩
  | fork =>
    refine ⟨h.prcs_eq, h.nodup, ?_⟩
    intro hphase
    cases hphase

/-- Every step keeps the list and the children in step. -/
theorem Tracks.fires (h : Tracks s) (hs : Fires s act s') : Tracks s' := by
  cases hs with
  | blank hphase => exact ⟨h.prcs_eq, h.nodup, h.prompt⟩
  | words hphase _ hs =>
    apply Tracks.prepared _ hs
    exact ⟨h.prcs_eq, h.nodup, h.prompt⟩
  | @fork npipes ppfd stage t stages p sys hphase hp =>
    refine ⟨?_, ?_, ?_⟩
    · simp only [h.prcs_eq]
    · refine List.nodup_append.2 ⟨h.nodup, List.nodup_singleton p, ?_⟩
      intro q hq r hr
      rw [List.mem_singleton.1 hr]
      exact ne_of_mem_of_not_mem hq hp
    · intro hphase'
      cases hphase'
  | forked =>
    refine ⟨h.prcs_eq, h.nodup, ?_⟩
    intro hphase
    cases hphase
  | @wait p prcs hphase hne hp hreap =>
    have hmem : p ∈ s.prcs := by
      rw [h.prcs_eq] at hne ⊢
      simpa [CanWait, hne] using hp
    rw [reap_eq_erase hmem, h.prcs_eq] at hreap
    refine ⟨(Option.some.inj hreap).symm, h.nodup.erase p, ?_⟩
    intro hphase'
    rw [hphase] at hphase'
    cases hphase'
  | waited hphase hnil => exact ⟨h.prcs_eq, h.nodup, fun _ => h.prcs_eq ▸ hnil⟩

theorem tracks_of_run (h : Run Session.step (.init paths env fds) steps s) : Tracks s := by
  refine h.always ⟨rfl, List.nodup_nil, fun _ => rfl⟩ ?_
  intro s act s' hI hs
  exact hI.fires (Sem3.Shell.fires hs)

/-- In whatever order the children end, the loop gets to an empty list. -/
theorem Tracks.waits (h : Tracks s) (hphase : s.phase = .wait) {order : List ℤ}
    (horder : order.Perm s.kids) :
    ∃ s', (order.map Act.wait).foldlM Session.step s = some s' ∧ s'.prcs = [] ∧ s'.kids = [] := by
  induction order generalizing s with
  | nil =>
    have hnil : s.kids = [] := horder.nil_eq.symm
    exact ⟨s, rfl, h.prcs_eq.trans hnil, hnil⟩
  | cons p order ih =>
    have hmem : p ∈ s.kids := horder.subset List.mem_cons_self
    have hne : s.kids ≠ [] := List.ne_nil_of_mem hmem
    have hstep : s.step (.wait p) =
        some { s with kids := s.kids.erase p, prcs := s.kids.erase p } := by
      have hcan : CanWait s.kids p := by simpa [CanWait, hne] using hmem
      have hreap := reap_eq_erase (h.prcs_eq ▸ hmem)
      rw [h.prcs_eq] at hreap
      simp only [Session.step, hphase, h.prcs_eq, hne, hcan, hreap]
      rfl
    have hrest : order.Perm (s.kids.erase p) := (horder.trans (List.perm_cons_erase hmem)).cons_inv
    obtain ⟨s', hrun, hs'⟩ := ih (h.fires (Sem3.Shell.fires hstep)) hphase hrest
    refine ⟨s', ?_, hs'⟩
    rw [List.map_cons]
    exact Run.foldlM_cons_eq_some.2 ⟨_, hstep, hrun⟩

/-- In every state of a run `prcs` has the children that have been forked and not been waited for,
each once. It is empty at every prompt, whatever `wait` gives is found in it, and the loop that waits
ends for every order in which the children do. -/
theorem prcs_tracks_children (h : Run Session.step (.init paths env fds) steps s) :
    s.prcs.Nodup ∧ (∀ p, p ∈ s.prcs ↔ p ∈ s.kids) ∧
      (s.phase = .prompt → s.prcs = []) ∧
      (s.phase = .wait → s.prcs ≠ [] → ∀ p, CanWait s.kids p → reap s.prcs p ≠ none) ∧
      (s.phase = .wait → ∀ order : List ℤ, order.Perm s.kids →
        ∃ s', (order.map Act.wait).foldlM Session.step s = some s' ∧ s'.prcs = [] ∧ s'.kids = []) := by
  have hI := tracks_of_run h
  refine ⟨hI.prcs_eq ▸ hI.nodup, fun p => by rw [hI.prcs_eq], ?_, ?_, ?_⟩
  · intro hphase
    rw [hI.prcs_eq, hI.prompt hphase]
  · intro _ hne p hp
    have hmem : p ∈ s.prcs := by
      rw [hI.prcs_eq] at hne ⊢
      simpa [CanWait, hne] using hp
    rw [reap_eq_erase hmem]
    exact Option.some_ne_none _
  · intro hphase order horder
    exact hI.waits hphase horder

/-- A pipeline whose second child ends first. -/
theorem prcs_tracks_children_pipeline :
    let answers : Answers := ⟨⟨true, fun _ _ _ => true, fun _ _ _ => true⟩, fun _ => [],
      fun _ _ => 0, fun _ => none, true⟩
    let acts : List Act := [.line answers ['a', ' ', '|', ' ', 'b', '\n'], .fork 7 answers.sys,
      .fork 8 answers.sys, .next, .wait 8]
    ∃ steps s, Run Session.step (.init [['/']] [] ⟨[]⟩) steps s ∧
      acts.foldlM Session.step (.init [['/']] [] ⟨[]⟩) = some s ∧ s.prcs.Nodup ∧
      ∀ p, p ∈ s.prcs ↔ p ∈ s.kids := by
  intro answers acts
  have hsome : (acts.foldlM Session.step (.init [['/']] [] ⟨[]⟩)).isSome := by decide
  obtain ⟨s, hs⟩ := Option.isSome_iff_exists.1 hsome
  obtain ⟨steps, h⟩ := Run.exists_of_foldlM hs
  obtain ⟨hnodup, hmem, -⟩ := prcs_tracks_children h
  exact ⟨steps, s, h, hs, hnodup, hmem⟩

end Sem3.Shell
