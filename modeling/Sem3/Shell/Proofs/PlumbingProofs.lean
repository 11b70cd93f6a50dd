import Sem3.Shell.MainSpec
import Mathlib.Tactic.Common

/-!
# Proofs: the descriptors of a pipeline

`redirect` and the calls of `close` run again in every pass of the lookup loop, but the ends of the
pipe are closed after the first one. So a child is connected to the pipe in its first pass and in no
other.
-/

namespace Sem3.Shell

open FdTable

variable {sys : System} {s : ℕ} {T T' T'' : Fds} {split split' : List (List Char)}

/-! ## Opening files -/

/-- What the redirection of standard input and output to files can do to a table. -/
structure Reopened (T T' : Fds) : Prop where
  get_of_le : ∀ fd, 2 ≤ fd → T'.get fd = T.get fd
  isOpen : T.get 0 ≠ none → T.get 1 ≠ none → T'.get 0 ≠ none ∧ T'.get 1 ≠ none
  isFile : ∀ fd d, T'.get fd = some d → T.get fd = some d ∨ ∃ name flags, d = .file name flags

theorem Reopened.refl (T : Fds) : Reopened T T where
  get_of_le := fun _ _ => rfl
  isOpen := fun h0 h1 => ⟨h0, h1⟩
  isFile := fun _ _ h => Or.inl h

theorem Reopened.trans (h : Reopened T T') (h' : Reopened T' T'') : Reopened T T'' where
  get_of_le := fun fd hfd => (h'.get_of_le fd hfd).trans (h.get_of_le fd hfd)
  isOpen := fun h0 h1 => h'.isOpen (h.isOpen h0 h1).1 (h.isOpen h0 h1).2
  isFile := fun fd d hd => by
    rcases h'.isFile fd d hd with hd' | hfile
    · exact h.isFile fd d hd'
    · exact Or.inr hfile

/-- Opening a file in the place of standard input or output. -/
theorem reopen_spec {fd : ℕ} (hfd : fd ≤ 1) {name : List Char} {flags : OpenFlags}
    (h : reopen sys s T fd name flags = some T') : Reopened T T' := by
  unfold reopen at h
  split_ifs at h
  cases h
  have hle : (T.close fd).lowest ≤ fd := lowest_le (get_close_self T fd)
  refine ⟨fun fd' hfd' => ?_, fun h0 h1 => ?_, fun fd' d hd => ?_⟩
  · rw [get_assign_of_ne (by omega), get_close_of_ne T (by omega)]
  · -- the number that was closed is the lowest free one
    have hlow : (T.close fd).lowest = fd := by
      apply lowest_eq (get_close_self T fd)
      intro fd' hlt
      rw [get_close_of_ne T (by omega), show fd' = 0 by omega]
      exact h0
    have key : ∀ fd', T.get fd' ≠ none → ((T.close fd).assign (.file name flags)).get fd' ≠ none := by
      intro fd' h
      by_cases heq : fd' = fd
      · rw [heq]
        nth_rewrite 2 [← hlow]
        rw [get_assign_lowest]
        simp
      · rw [get_assign_of_ne (by omega), get_close_of_ne T heq]
        exact h
    exact ⟨key 0 h0, key 1 h1⟩
  · by_cases heq : fd' = (T.close fd).lowest
    · rw [heq, get_assign_lowest] at hd
      exact Or.inr ⟨name, flags, (Option.some.inj hd).symm⟩
    · rw [get_assign_of_ne heq] at hd
      by_cases hfd' : fd' = fd
      · rw [hfd', get_close_self] at hd
        cases hd
      · rw [get_close_of_ne T hfd'] at hd
        exact Or.inl hd

/-- `redirect` opens files in the place of standard input and output only. -/
theorem openFiles_spec (h : openFiles sys s split T = some (split', T')) : Reopened T T' := by
  unfold openFiles at h
  split at h
  · simp only [Option.bind_eq_bind, Option.bind_eq_some_iff] at h
    obtain ⟨T1, h1, T2, h2, heq⟩ := h
    cases heq
    exact (reopen_spec (by decide) h1).trans (reopen_spec le_rfl h2)
  · simp only [Option.bind_eq_bind, Option.bind_eq_some_iff] at h
    obtain ⟨T1, h1, heq⟩ := h
    cases heq
    exact reopen_spec (by decide) h1
  · simp only [Option.bind_eq_bind, Option.bind_eq_some_iff] at h
    obtain ⟨T1, h1, heq⟩ := h
    cases heq
    exact reopen_spec le_rfl h1
  · cases h
    exact Reopened.refl T

/-! ## Connecting a child to the pipe -/

/-- Both ends of the pipe are closed. -/
structure PipeClosed (T : Fds) (ppfd : ℕ × ℕ) : Prop where
  read : T.get ppfd.1 = none
  write : T.get ppfd.2 = none

variable {id fd pfd : ℕ} {ppfd : ℕ × ℕ} {d : Desc}

theorem PipeOpen.reopened (hP : PipeOpen T id ppfd) (h : Reopened T T') : PipeOpen T' id ppfd where
  read := (h.get_of_le _ hP.not_std.1).trans hP.read
  write := (h.get_of_le _ hP.not_std.2).trans hP.write
  only := by
    rintro fd (hfd | hfd)
    · rcases h.isFile fd _ hfd with hfd' | ⟨name, flags, hfile⟩
      · exact hP.only fd (Or.inl hfd')
      · cases hfile
    · rcases h.isFile fd _ hfd with hfd' | ⟨name, flags, hfile⟩
      · exact hP.only fd (Or.inr hfd')
      · cases hfile
  not_std := hP.not_std
  stdin := (h.isOpen hP.stdin hP.stdout).1
  stdout := (h.isOpen hP.stdin hP.stdout).2

/-- What is done to the descriptors of a child at the end of a pass. -/
def connect (T : Fds) (fd pfd : ℕ) (ppfd : ℕ × ℕ) : Fds :=
  (((T.close fd).dup pfd).close ppfd.1).close ppfd.2

/-- Behind a pass the ends of the pipe are closed. -/
theorem connect_closed (T : Fds) (fd pfd : ℕ) (ppfd : ℕ × ℕ) :
    PipeClosed (connect T fd pfd ppfd) ppfd where
  read := by
    unfold connect
    by_cases h : ppfd.1 = ppfd.2
    · rw [h, get_close_self]
    · rw [get_close_of_ne _ h, get_close_self]
  write := get_close_self _ _

theorem connect_get (T : Fds) (fd pfd : ℕ) {fd' : ℕ} (h1 : fd' ≠ ppfd.1) (h2 : fd' ≠ ppfd.2) :
    (connect T fd pfd ppfd).get fd' = ((T.close fd).dup pfd).get fd' := by
  unfold connect
  rw [get_close_of_ne _ h2, get_close_of_ne _ h1]

/-- While the ends of the pipe are open, the child gets its end as standard input or output. -/
theorem connect_open (hP : PipeOpen T id ppfd) (hfd : fd ≤ 1) (hpfd : 2 ≤ pfd)
    (hd : T.get pfd = some d) : Plumbed (connect T fd pfd ppfd) id fd d := by
  obtain ⟨hr, hw⟩ := hP.not_std
  have hlow : (T.close fd).lowest = fd := by
    apply lowest_eq (get_close_self T fd)
    intro fd' hlt
    rw [get_close_of_ne T (by omega), show fd' = 0 by omega]
    exact hP.stdin
  have hdup : (T.close fd).dup pfd = (T.close fd).assign d := by
    apply dup_of_open
    rw [get_close_of_ne T (by omega), hd]
  constructor
  · rw [connect_get T fd pfd (by omega) (by omega), hdup]
    nth_rewrite 2 [← hlow]
    exact get_assign_lowest _ d
  · intro fd' h
    by_contra hne
    have hends : fd' ≠ ppfd.1 ∧ fd' ≠ ppfd.2 := by
      have hclosed := connect_closed T fd pfd ppfd
      constructor
      · rintro rfl
        rw [hclosed.read] at h
        simp at h
      · rintro rfl
        rw [hclosed.write] at h
        simp at h
    rw [connect_get T fd pfd hends.1 hends.2, hdup, get_assign_of_ne (by omega),
      get_close_of_ne T hne] at h
    exact (hP.only fd' h).elim hends.1 hends.2

/-- Once they are closed, `dup` fails and the descriptor stays closed. -/
theorem connect_again (hC : PipeClosed T ppfd) (hfd : fd ≤ 1) (hstd : 2 ≤ ppfd.1 ∧ 2 ≤ ppfd.2)
    (hpfd : pfd = ppfd.1 ∨ pfd = ppfd.2) : (connect T fd pfd ppfd).get fd = none := by
  have hfree : (T.close fd).get pfd = none := by
    rcases hpfd with rfl | rfl
    · rw [get_close_of_ne T (by omega), hC.read]
    · rw [get_close_of_ne T (by omega), hC.write]
  rw [connect_get T fd pfd (by omega) (by omega), dup_of_free hfree, get_close_self]

/-! ## The passes of a child -/

/-- The descriptor of the child `t` that is connected to the pipe. -/
def stdFd (t : ℕ) : ℕ := if t = 0 then 1 else 0

/-- The end of the pipe that it is connected to. -/
def pipeEnd (t id : ℕ) : Desc := if t = 0 then .pipeWrite id else .pipeRead id

/-- The end of the pipe that the child `t` is given. -/
def endFd (t : ℕ) (ppfd : ℕ × ℕ) : ℕ := if t = 0 then ppfd.2 else ppfd.1

variable {t : ℕ}

theorem stdFd_le (t : ℕ) : stdFd t ≤ 1 := by
  unfold stdFd
  split_ifs <;> omega

/-- A pass opens the files and connects the child. -/
theorem childPass_spec (ht : t < 2) (h : childPass sys 2 t ppfd s split T = some (split', T')) :
    ∃ T1, Reopened T T1 ∧ T' = connect T1 (stdFd t) (endFd t ppfd) ppfd := by
  unfold childPass at h
  by_cases h0 : t = 0
  · subst h0
    simp only [true_and, if_true, redirect, Option.bind_eq_bind, Option.bind_eq_some_iff,
      ge_iff_le, Int.natCast_nonneg, Option.some.injEq, Prod.exists] at h
    obtain ⟨split1, T1, ⟨split2, T2, hopen, heq⟩, heq'⟩ := h
    cases heq
    cases heq'
    exact ⟨T2, openFiles_spec hopen, rfl⟩
  · obtain rfl : t = 1 := by omega
    simp only [true_and, h0, if_false, if_true, redirect, Option.bind_eq_bind,
      Option.bind_eq_some_iff, ge_iff_le, Int.natCast_nonneg, Option.some.injEq, Prod.exists] at h
    obtain ⟨split1, T1, ⟨split2, T2, hopen, heq⟩, heq'⟩ := h
    cases heq
    cases heq'
    exact ⟨T2, openFiles_spec hopen, rfl⟩

/-- Once the ends of the pipe are closed, no call has the descriptor that should be connected. -/
theorem childCalls_closed (ht : t < 2) (hstd : 2 ≤ ppfd.1 ∧ 2 ≤ ppfd.2)
    (paths : List (List Char)) : ∀ s split T, PipeClosed T ppfd →
      ∀ call ∈ childCalls sys 2 t ppfd s paths split T, call.fds.get (stdFd t) = none := by
  induction paths with
  | nil =>
    intro s split T _ call hcall
    cases hcall
  | cons path paths ih =>
    intro s split T hC call hcall
    cases split with
    | nil => cases hcall
    | cons word words =>
      unfold childCalls at hcall
      cases hpass : childPass sys 2 t ppfd s (word :: words) T with
      | none => simp only [hpass] at hcall; cases hcall
      | some r =>
        obtain ⟨split', T'⟩ := r
        simp only [hpass] at hcall
        obtain ⟨T1, hre, rfl⟩ := childPass_spec ht hpass
        have hC1 : PipeClosed T1 ppfd :=
          ⟨(hre.get_of_le _ hstd.1).trans hC.read, (hre.get_of_le _ hstd.2).trans hC.write⟩
        rcases List.mem_cons.1 hcall with rfl | hcall
        · apply connect_again hC1 (stdFd_le t) hstd
          unfold endFd
          split_ifs <;> simp
        · split_ifs at hcall
          · cases hcall
          · exact ih _ _ _ (connect_closed ..) call hcall

/-- A child whose descriptors are set up for the pipe is connected in its first call, and in no
other. -/
theorem childCalls_plumbed_iff (ht : t < 2) (hP : PipeOpen T id ppfd) (paths : List (List Char))
    (s : ℕ) (split : List (List Char)) (i : ℕ) (call : Call)
    (h : (childCalls sys 2 t ppfd s paths split T)[i]? = some call) :
    Plumbed call.fds id (stdFd t) (pipeEnd t id) ↔ i = 0 := by
  cases paths with
  | nil => cases h
  | cons path paths =>
    cases split with
    | nil => cases h
    | cons word words =>
      unfold childCalls at h
      cases hpass : childPass sys 2 t ppfd s (word :: words) T with
      | none => simp only [hpass] at h; cases h
      | some r =>
        obtain ⟨split', T'⟩ := r
        simp only [hpass] at h
        obtain ⟨T1, hre, rfl⟩ := childPass_spec ht hpass
        have hP1 := hP.reopened hre
        cases i with
        | zero =>
          rw [List.getElem?_cons_zero] at h
          rw [← Option.some.inj h]
          refine iff_of_true (connect_open hP1 (stdFd_le t) ?_ ?_) rfl
          · unfold endFd
            split_ifs
            · exact hP.not_std.2
            · exact hP.not_std.1
          · unfold endFd pipeEnd
            split_ifs
            · exact hP1.write
            · exact hP1.read
        | succ i =>
          rw [List.getElem?_cons_succ] at h
          refine iff_of_false (fun hplumbed => ?_) (Nat.succ_ne_zero i)
          have hmem := List.mem_of_getElem? h
          split_ifs at hmem
          · cases hmem
          · have hnone := childCalls_closed ht hP.not_std _ _ _ _ (connect_closed ..) call hmem
            have hsome := hplumbed.1
            rw [hnone] at hsome
            cases hsome

/-! ## The pipe -/

theorem pipeId_lt_freshPipe (h : T.get fd = some d) : d.pipeId < freshPipe T := by
  have hmem : some d ∈ T.entries := List.mem_of_getElem? (Option.join_eq_some_iff.1 h)
  unfold freshPipe
  generalize T.entries = es at hmem
  induction es with
  | nil => cases hmem
  | cons e es ih =>
    rw [List.foldr_cons]
    rcases List.mem_cons.1 hmem with rfl | hmem
    · exact Nat.lt_succ_of_le (le_max_left _ _)
    · have := ih hmem
      omega

/-- The two ends of the pipe have different numbers. -/
theorem lowest_ne_openPipe (T : Fds) : T.lowest ≠ (openPipe T).1.2 := by
  intro heq
  have hread := get_assign_lowest T (.pipeRead (freshPipe T))
  rw [heq] at hread
  cases hread.symm.trans (get_lowest _)

theorem openPipe_get_of_ne (hr : fd ≠ (openPipe T).1.1) (hw : fd ≠ (openPipe T).1.2) :
    (openPipe T).2.get fd = T.get fd :=
  (get_assign_of_ne hw).trans (get_assign_of_ne hr)

theorem openPipe_get_read (T : Fds) :
    (openPipe T).2.get T.lowest = some (.pipeRead (freshPipe T)) :=
  (get_assign_of_ne (lowest_ne_openPipe T)).trans (get_assign_lowest _ _)

/-- A new pipe is open at its ends and nowhere else. -/
theorem openPipe_spec (h : ∀ fd < 3, T.get fd ≠ none) :
    PipeOpen (openPipe T).2 (freshPipe T) (openPipe T).1 := by
  have hlow : ∀ T' : Fds, (∀ fd < 3, T'.get fd ≠ none) → 3 ≤ T'.lowest := by
    intro T' h'
    by_contra hlt
    exact h' _ (not_le.1 hlt) T'.get_lowest
  set T1 := T.assign (.pipeRead (freshPipe T)) with hT1
  set T2 := T1.assign (.pipeWrite (freshPipe T)) with hT2
  have hr := hlow T h
  have h1 : ∀ fd < 3, T1.get fd ≠ none := by
    intro fd hfd
    rw [hT1, get_assign_of_ne (by omega)]
    exact h fd hfd
  have hw := hlow T1 h1
  have h2 : ∀ fd < 3, T2.get fd ≠ none := by
    intro fd hfd
    rw [hT2, get_assign_of_ne (by omega)]
    exact h1 fd hfd
  exact
    { read := openPipe_get_read T
      write := get_assign_lowest _ _
      only := by
        intro fd hfd
        by_contra hno
        obtain ⟨hr, hw⟩ := not_or.1 hno
        rw [openPipe_get_of_ne hr hw] at hfd
        rcases hfd with hfd | hfd
        · exact absurd (pipeId_lt_freshPipe hfd) (lt_irrefl _)
        · exact absurd (pipeId_lt_freshPipe hfd) (lt_irrefl _)
      not_std := by
        show 2 ≤ T.lowest ∧ 2 ≤ T1.lowest
        omega
      stdin := h2 0 (by omega)
      stdout := h2 1 (by omega) }

/-- On a line with one pipe, the left child has the write end of the pipe as standard output and no
other descriptor of the pipe in a call of `execve` if and only if it is its first one, and so has
the right child with the read end and standard input. -/
theorem plumbed_iff_first_call (sys : System) (paths : List (List Char)) (split : List (List Char))
    (T : Fds) (hstd : ∀ fd < 3, T.get fd ≠ none) (hpipe : (pipesplit split).length = 2)
    (line : Line) (hrun : runLine sys paths split T = some line) :
    (∀ calls, line.children[0]? = some calls → ∀ s call, calls[s]? = some call →
      (Plumbed call.fds (freshPipe T) 1 (.pipeWrite (freshPipe T)) ↔ s = 0)) ∧
    (∀ calls, line.children[1]? = some calls → ∀ s call, calls[s]? = some call →
      (Plumbed call.fds (freshPipe T) 0 (.pipeRead (freshPipe T)) ↔ s = 0)) := by
  obtain ⟨a, b, hab⟩ := List.length_eq_two.1 hpipe
  have hP := openPipe_spec hstd
  have hchildren : ∀ t calls, line.children[t]? = some calls → t < 2 →
      ∃ stage, calls = childCalls sys 2 t (openPipe T).1 0 paths stage (openPipe T).2 := by
    intro t calls hcalls ht
    unfold runLine at hrun
    simp only [hab, List.length_cons, List.length_nil] at hrun
    split_ifs at hrun
    · cases hrun
      cases hcalls
    · cases ha : a with
      | nil => simp [ha] at hrun
      | cons word words =>
        simp only [ha, List.headD_cons] at hrun
        split_ifs at hrun
        · cases hrun
          cases hcalls
        · cases hrun
          match t, ht with
          | 0, _ => exact ⟨word :: words, (Option.some.inj hcalls).symm⟩
          | 1, _ => exact ⟨b, (Option.some.inj hcalls).symm⟩
  constructor
  · intro calls hcalls s call hcall
    obtain ⟨stage, rfl⟩ := hchildren 0 calls hcalls (by decide)
    exact childCalls_plumbed_iff (t := 0) (by decide) hP _ _ _ s call hcall
  · intro calls hcalls s call hcall
    obtain ⟨stage, rfl⟩ := hchildren 1 calls hcalls (by decide)
    exact childCalls_plumbed_iff (t := 1) (by decide) hP _ _ _ s call hcall

/-- The table of a shell that was started with the three standard descriptors. -/
def stdFds : Fds := ⟨[some (.inherited 0), some (.inherited 1), some (.inherited 2)]⟩

/-- A system on which no command is found. -/
def noCommand : System := { pipes := true, opens := fun _ _ _ => true, execs := fun _ _ _ => false }

/-- What the line `a | b` comes to with the two entries `/b` and `/u` of `PATH`. -/
def twoPathsLine : Line where
  fds := ⟨[some (.inherited 0), some (.inherited 1), some (.inherited 2), none, none]⟩
  children :=
    [[{ cmd := ['/', 'b', '/', 'a'], argv := [['a']]
        fds := ⟨[some (.inherited 0), some (.pipeWrite 1), some (.inherited 2), none, none]⟩ },
      { cmd := ['/', 'u', '/', 'a'], argv := [['a']]
        fds := ⟨[some (.inherited 0), none, some (.inherited 2), none, none]⟩ }],
     [{ cmd := ['/', 'b', '/', 'b'], argv := [['b']]
        fds := ⟨[some (.pipeRead 1), some (.inherited 1), some (.inherited 2), none, none]⟩ },
      { cmd := ['/', 'u', '/', 'b'], argv := [['b']]
        fds := ⟨[none, some (.inherited 1), some (.inherited 2), none, none]⟩ }]]

/-- The pipeline `a | b` with two entries of `PATH`, so that each child makes two calls. -/
theorem plumbed_iff_first_call_two_paths :
    (∀ calls, twoPathsLine.children[0]? = some calls → ∀ s call, calls[s]? = some call →
      (Plumbed call.fds (freshPipe stdFds) 1 (.pipeWrite (freshPipe stdFds)) ↔ s = 0)) ∧
    (∀ calls, twoPathsLine.children[1]? = some calls → ∀ s call, calls[s]? = some call →
      (Plumbed call.fds (freshPipe stdFds) 0 (.pipeRead (freshPipe stdFds)) ↔ s = 0)) :=
  plumbed_iff_first_call noCommand [['/', 'b'], ['/', 'u']] [['a'], ['|'], ['b']] stdFds (by decide)
    (by decide) twoPathsLine rfl

/-- With two entries of `PATH`, the left child of the line `a | b` makes a second call of `execve`,
with its standard output closed. -/
theorem not_plumbed_second_path :
    (∀ fd < 3, stdFds.get fd ≠ none) ∧ (pipesplit [['a'], ['|'], ['b']]).length = 2 ∧
      ∃ line calls call, runLine noCommand [['/', 'b'], ['/', 'u']] [['a'], ['|'], ['b']] stdFds =
          some line ∧
        line.children[0]? = some calls ∧ calls[1]? = some call ∧ call.cmd = ['/', 'u', '/', 'a'] ∧
        call.fds.get 1 = none ∧
        ¬ Plumbed call.fds (freshPipe stdFds) 1 (.pipeWrite (freshPipe stdFds)) := by
  refine ⟨by decide, by decide, _, _, _, rfl, rfl, rfl, rfl, rfl, ?_⟩
  rintro ⟨hget, -⟩
  exact absurd hget (by decide)

end Sem3.Shell
