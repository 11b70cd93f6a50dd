import Sem3.Shell.Proofs.MainProofs
import Sem3.Shell.Proofs.PlumbingProofs

/-!
# Proofs: the descriptors of the shell

Between two prompts the shell has the descriptors of the last prompt and the two ends of the pipe.
The loop that forks closes them, and `cd` does not come by there.
-/

namespace Sem3.Shell

open FdTable

variable {s s' : Session} {a : Answers} {act : Act} {T : Fds} {paths env : List (List Char)}
  {steps : List (Session × Act)} {stages : List (List (List Char))}

/-! ## The pipe -/

/-- `close` on both ends of the pipe, if there is one. -/
def closeEnds (T : Fds) (npipes : ℕ) (ppfd : ℕ × ℕ) : Fds :=
  if npipes = 2 then (T.close ppfd.1).close ppfd.2 else T

/-- Closing the ends of the pipe leaves the descriptors that were open before. -/
theorem opened_closeEnds (T : Fds) (npipes : ℕ) :
    opened (closeEnds (pipeFds T npipes) npipes (pipeEnds T npipes)) = opened T := by
  unfold closeEnds pipeFds pipeEnds
  split_ifs
  case neg => rfl
  ext fd
  have hget : (((openPipe T).2.close (openPipe T).1.1).close (openPipe T).1.2).get fd = T.get fd := by
    by_cases hw : fd = (openPipe T).1.2
    · have hne : fd ≠ T.lowest := hw ▸ (lowest_ne_openPipe T).symm
      have hfree : (T.assign (.pipeRead (freshPipe T))).get fd = none := hw ▸ get_lowest _
      rw [hw, get_close_self, ← hw, ← hfree, get_assign_of_ne hne]
    · rw [get_close_of_ne _ hw]
      by_cases hr : fd = (openPipe T).1.1
      · rw [hr, get_close_self]
        exact T.get_lowest.symm
      · rw [get_close_of_ne _ hr, openPipe_get_of_ne hr hw]
  simp only [opened, Set.mem_ofPred_eq, hget]

/-- A pipe whose ends stay open is a leak. -/
theorem opened_openPipe_ne (T : Fds) : opened (openPipe T).2 ≠ opened T := by
  intro heq
  have hmem : T.lowest ∈ opened (openPipe T).2 := by
    simp [opened, openPipe_get_read]
  rw [heq] at hmem
  exact hmem T.get_lowest

/-! ## A step -/

/-- The descriptors that are left when the ends of the pipe are closed. -/
def settled (s : Session) : Fds :=
  match s.phase with
  | .fork npipes ppfd _ => closeEnds s.fds npipes ppfd
  | _ => s.fds

/-- At a prompt the descriptors are those of the shell. -/
theorem settled_eq (hs : s.phase = .prompt) : settled s = s.fds := by
  simp only [settled, hs]

/-- The line is cut into the stages of which the first is `cd`. -/
def CdStages (a : Answers) (stages : List (List (List Char))) : Prop :=
  a.sys.pipes ∧ ∃ args stage, stages = [cdCmd :: args, stage]

/-- A line without `cd` in a pipe leaks no descriptor. -/
theorem Prepares.opened_settled (h : Prepares s a stages s') (hs : s.phase = .prompt)
    (hcd : ¬ CdStages a stages) : opened (settled s') = opened s.fds := by
  cases h with
  | refused => rw [settled_eq hs]
  | @cd args stages env hle hpipe =>
    rcases stages with _ | ⟨stage, stages⟩
    · simp only [settled, hs]
      rfl
    · obtain rfl : stages = [] := by
        rw [List.length_cons] at hle
        exact List.length_eq_zero_iff.1 (by omega)
      exact absurd ⟨hpipe (List.cons_ne_nil _ _), args, stage, rfl⟩ hcd
  | fork => exact opened_closeEnds _ _

/-- A line with `cd` in a pipe leaves its ends open. -/
theorem Prepares.opened_ne (h : Prepares s a stages s') (hs : s.phase = .prompt)
    (hcd : CdStages a stages) : s'.phase = .prompt ∧ opened s'.fds ≠ opened s.fds := by
  obtain ⟨hpipes, args, stage, rfl⟩ := hcd
  cases h with
  | refused h =>
    rcases h with h | ⟨_, h⟩
    · exact absurd h (by simp)
    · exact absurd hpipes h
  | cd => exact ⟨hs, opened_openPipe_ne s.fds⟩
  | fork hne => exact absurd rfl hne

/-- Which lines these are, by their words. -/
theorem cdInPipe_iff {text : List Char} {split : List (List Char)}
    (hwords : s.words a text = some split) :
    CdInPipe s (.line a text) ↔ CdStages a (pipesplit split) := by
  constructor
  · rintro ⟨hpipes, split', args, stage, hwords', hstages⟩
    obtain rfl := Option.some.inj (hwords.symm.trans hwords')
    exact ⟨hpipes, args, stage, hstages⟩
  · rintro ⟨hpipes, args, stage, hstages⟩
    exact ⟨hpipes, split, args, stage, hwords, hstages⟩

/-- A step leaks no descriptor unless it is such a line. -/
theorem opened_settled_of_fires (h : Fires s act s') (hcd : ¬ CdInPipe s act) :
    opened (settled s') = opened (settled s) := by
  cases h with
  | blank hs => simp only [settled, hs]
  | words hs hwords h =>
    rw [cdInPipe_iff hwords] at hcd
    rw [settled_eq hs]
    exact h.opened_settled hs hcd
  | fork hs => simp only [settled, hs]
  | forked hs => simp only [settled, hs, closeEnds]
  | wait hs => simp only [settled, hs]
  | waited hs => simp only [settled, hs]

theorem opened_ne_of_fires (h : Fires s act s') (hcd : CdInPipe s act) :
    s'.phase = .prompt ∧ opened s'.fds ≠ opened (settled s) := by
  cases h with
  | blank hs hnone =>
    obtain ⟨-, split, -, -, hwords, -⟩ := hcd
    rw [hnone] at hwords
    cases hwords
  | words hs hwords h =>
    rw [cdInPipe_iff hwords] at hcd
    rw [settled_eq hs]
    exact h.opened_ne hs hcd
  | fork => exact hcd.elim
  | forked => exact hcd.elim
  | wait => exact hcd.elim
  | waited => exact hcd.elim

/-! ## A run -/

/-- At every prompt of a run the descriptors are those of the first prompt if and only if no line is
a pipeline of two stages that begins with `cd`. -/
theorem no_leak_iff (h : Run Session.step (.init paths env T) steps s) :
    (∀ x ∈ steps, x.1.phase = .prompt → opened x.1.fds = opened T) ∧
        (s.phase = .prompt → opened s.fds = opened T) ↔
      ∀ x ∈ steps, ¬ CdInPipe x.1 x.2 := by
  refine h.forall_observed_iff (P := fun s => s.phase = .prompt → opened s.fds = opened T)
    (C := fun s act => ¬ CdInPipe s act) (G := fun s => opened (settled s) = opened T) rfl ?_ ?_ ?_
  · intro s hG hs
    rw [← hG, settled_eq hs]
  · intro s act s' hG hcd hstep
    rw [opened_settled_of_fires (fires hstep) hcd, hG]
  · intro s act s' hG hcd hstep hP
    obtain ⟨hs', hne⟩ := opened_ne_of_fires (fires hstep) (not_not.1 hcd)
    rw [hG] at hne
    exact hne (hP hs')

/-- The line `a | b` and its two children. -/
theorem no_leak_iff_pipeline :
    let T : Fds := ⟨[some (.inherited 0), some (.inherited 1), some (.inherited 2)]⟩
    let answers : Answers := ⟨⟨true, fun _ _ _ => true, fun _ _ _ => true⟩, fun _ => [],
      fun _ _ => 0, fun _ => none, true⟩
    let acts : List Act := [.line answers ['a', ' ', '|', ' ', 'b', '\n'], .fork 7 answers.sys,
      .fork 8 answers.sys, .next, .wait 8, .wait 7, .next]
    ∃ steps s, Run Session.step (.init [['/']] [] T) steps s ∧
      acts.foldlM Session.step (.init [['/']] [] T) = some s ∧
      ((∀ x ∈ steps, x.1.phase = .prompt → opened x.1.fds = opened T) ∧
          (s.phase = .prompt → opened s.fds = opened T) ↔
        ∀ x ∈ steps, ¬ CdInPipe x.1 x.2) := by
  intro T answers acts
  have hsome : (acts.foldlM Session.step (.init [['/']] [] T)).isSome := by decide
  obtain ⟨s, hs⟩ := Option.isSome_iff_exists.1 hsome
  obtain ⟨steps, h⟩ := Run.exists_of_foldlM hs
  exact ⟨steps, s, h, hs, no_leak_iff h⟩

/-- `cd x | y` leaves the ends of the pipe open. -/
theorem leak_cd_in_pipe :
    let T : Fds := ⟨[some (.inherited 0), some (.inherited 1), some (.inherited 2)]⟩
    let answers : Answers := ⟨⟨true, fun _ _ _ => true, fun _ _ _ => true⟩, fun _ => [],
      fun _ _ => 0, fun _ => none, true⟩
    ∃ steps s, Run Session.step (.init [['/']] [] T) steps s ∧
      [.line answers ['c', 'd', ' ', 'x', ' ', '|', ' ', 'y', '\n']].foldlM Session.step
        (.init [['/']] [] T) = some s ∧
      s.phase = .prompt ∧ opened s.fds ≠ opened T := by
  intro T answers
  have hrun : ∃ s, [.line answers ['c', 'd', ' ', 'x', ' ', '|', ' ', 'y', '\n']].foldlM Session.step
      (.init [['/']] [] T) = some s ∧ s.phase = .prompt ∧ s.fds.get 3 = some (.pipeRead 1) :=
    ⟨_, rfl, rfl, rfl⟩
  obtain ⟨s, hs, hphase, hopen⟩ := hrun
  obtain ⟨steps, h⟩ := Run.exists_of_foldlM hs
  refine ⟨steps, s, h, hs, hphase, ?_⟩
  intro heq
  have hmem : 3 ∈ opened s.fds := by simp [opened, hopen]
  rw [heq] at hmem
  exact hmem rfl

end Sem3.Shell
