import Sem3.Shell.MainSpec
import Sem3.Shell.Proofs.PlumbingProofs

/-!
# Proofs: redirections to files

`redirect` looks for the signs at fixed places from the end of the words. It finds a single
redirection and the pair `< f > g`; of the pair `> g < f` it finds only the second part. The file for
the output is emptied in the branch of the single redirection and not in the one of the pair.
-/

namespace Sem3.Shell

open FdTable

variable {sys : System} {s : ℕ} {T T' : Fds} {words words' : List (List Char)} {f g : List Char}

/-! ## What `redirect` finds -/

theorem getD_append_length (l l' : List (List Char)) (i : ℕ) :
    (l ++ l').getD (l.length + i) [] = l'.getD i [] := by
  simp [List.getD_eq_getElem?_getD, List.getElem?_append_right]

/-- A word of the command is not taken for a sign. -/
theorem noSign_getD (hwords : ∀ w ∈ words, NoSign w) {i : ℕ} (hi : i < words.length)
    (l : List (List Char)) : NoSign ((words ++ l).getD i []) := by
  rw [List.getD_eq_getElem?_getD, List.getElem?_append_left hi, List.getElem?_eq_getElem hi]
  exact hwords _ (List.getElem_mem hi)

theorem redirections_none (hwords : ∀ w ∈ words, NoSign w) :
    redirections words = (none, none) := by
  have hsign : ∀ i < words.length, NoSign (words.getD i []) := by
    intro i hi
    simpa using noSign_getD hwords hi []
  unfold redirections
  by_cases h3 : words.length ≥ 3
  · have h2 := hsign (words.length - 2) (by omega)
    simp only [h2.1, h2.2, Bool.false_eq_true, and_false, if_false, ite_self]
  · simp only [h3, if_false]
    rw [if_neg (by omega)]

/-- Behind the words of a command a single sign is found. -/
theorem redirections_single (hwords : ∀ w ∈ words, NoSign w) (hne : words ≠ [])
    (sign name : List Char) :
    redirections (words ++ [sign, name]) =
      if startsWith sign outof then (some name, none)
      else if startsWith sign into then (none, some name)
      else (none, none) := by
  have hpos := List.length_pos_of_ne_nil hne
  have hlen : (words ++ [sign, name]).length = words.length + 2 := by simp
  have hsign : (words ++ [sign, name]).getD (words.length + 2 - 2) [] = sign :=
    getD_append_length words [sign, name] 0
  have hname : (words ++ [sign, name]).getD (words.length + 2 - 1) [] = name :=
    getD_append_length words [sign, name] 1
  have hfar : ¬ (words.length + 2 ≥ 5 ∧
      startsWith ((words ++ [sign, name]).getD (words.length + 2 - 4) []) outof = true ∧
      startsWith sign into = true) := by
    rintro ⟨h5, hout, -⟩
    rw [(noSign_getD hwords (by omega) _).1] at hout
    cases hout
  unfold redirections
  simp only [hlen, hsign, hname]
  rw [if_neg hfar, if_pos (show words.length + 2 ≥ 3 by omega)]

/-- With two signs the second one decides, and the first one counts only if they are `<` and `>`. -/
theorem redirections_pair (hne : words ≠ []) (sign name sign' name' : List Char) :
    redirections (words ++ [sign, name, sign', name']) =
      let files : Option (List Char) × Option (List Char) :=
        if startsWith sign outof ∧ startsWith sign' into then (some name, some name')
        else (none, none)
      if startsWith sign' outof then (some name', files.2)
      else if startsWith sign' into then (files.1, some name')
      else files := by
  have hpos := List.length_pos_of_ne_nil hne
  have hlen : (words ++ [sign, name, sign', name']).length = words.length + 4 := by simp
  have hget : ∀ i, (words ++ [sign, name, sign', name']).getD (words.length + i) [] =
      [sign, name, sign', name'].getD i [] := getD_append_length words _
  have h4 : (words ++ [sign, name, sign', name']).getD words.length [] = sign := hget 0
  have h3 := hget 1
  have h2 := hget 2
  have h1 := hget 3
  unfold redirections
  simp only [hlen, Nat.add_sub_cancel, Nat.reduceSubDiff, h1, h2, h3, h4]
  simp only [List.getD_cons_zero, List.getD_cons_succ,
    show words.length + 4 ≥ 5 by omega, show words.length + 4 ≥ 3 by omega, true_and, if_true]

/-! ## What it opens -/

/-- The file takes the place of the descriptor that is closed for it, if the ones below are open. -/
theorem reopen_get (hopens : ∀ name flags, sys.opens s name flags = true) (fd : ℕ)
    (hopen : ∀ fd' < fd, T.get fd' ≠ none) (name : List Char) (flags : OpenFlags) :
    ∃ T', reopen sys s T fd name flags = some T' ∧ T'.get fd = some (.file name flags) ∧
      ∀ fd', fd' ≠ fd → T'.get fd' = T.get fd' := by
  have hlow : (T.close fd).lowest = fd := by
    apply lowest_eq (get_close_self T fd)
    intro fd' hlt
    rw [get_close_of_ne T (by omega)]
    exact hopen fd' hlt
  refine ⟨(T.close fd).assign (.file name flags), by rw [reopen, if_pos (hopens _ _)], ?_, ?_⟩
  · nth_rewrite 2 [← hlow]
    exact get_assign_lowest _ _
  · intro fd' hne
    rw [get_assign_of_ne (by omega), get_close_of_ne T hne]

/-- Without standard input the file for the output takes its place. -/
theorem reopen_get_stdout_none (hopens : ∀ name flags, sys.opens s name flags = true)
    (hstdin : T.get 0 = none) (name : List Char) (flags : OpenFlags) :
    ∃ T', reopen sys s T 1 name flags = some T' ∧ T'.get 1 = none := by
  have hlow : (T.close 1).lowest = 0 := by
    apply lowest_eq
    · rw [get_close_of_ne T (by omega), hstdin]
    · omega
  refine ⟨(T.close 1).assign (.file name flags), by rw [reopen, if_pos (hopens _ _)], ?_⟩
  rw [get_assign_of_ne (by omega), get_close_self]

/-- Without a pipe `redirect` only opens files. -/
theorem redirect_of_neg {pfd : ℤ} (hpfd : pfd < 0) (split : List (List Char)) (tr : ℤ) :
    redirect sys s split T pfd tr = openFiles sys s split T := by
  rw [redirect]
  simp only [ge_iff_le, not_le.2 hpfd, if_false]
  cases openFiles sys s split T <;> rfl

/-! ## The redirections of a line -/

variable {pfd tr : ℤ}

theorem redirects_none (hwords : ∀ w ∈ words, NoSign w) (hpfd : pfd < 0) :
    Redirects sys s words .none T pfd tr := by
  refine ⟨T, ?_, nofun, nofun, fun _ => rfl, fun _ => rfl, rfl⟩
  rw [redirect_of_neg hpfd, Redirection.words, List.append_nil]
  simp only [openFiles, redirections_none hwords]

/-- A command with a redirection of standard input. -/
theorem redirects_input (hopens : ∀ name flags, sys.opens s name flags = true)
    (hwords : ∀ w ∈ words, NoSign w) (hne : words ≠ []) (hpfd : pfd < 0) (f : List Char) :
    Redirects sys s words (.input f) T pfd tr := by
  obtain ⟨T', hreopen, hget, hkeep⟩ :=
    reopen_get (T := T) hopens 0 (by omega) f .rdonly
  refine ⟨T', ?_, ?_, nofun, nofun, fun _ => hkeep 1 (by omega), hkeep 2 (by omega)⟩
  · rw [redirect_of_neg hpfd, Redirection.words]
    simp [openFiles, redirections_single hwords hne, hreopen, startsWith, outof]
  · intro f' hf'
    obtain rfl := Option.some.inj hf'
    exact ⟨.rdonly, hget⟩

/-- A single redirection of standard output works if standard input is open. -/
theorem redirects_output_iff (hopens : ∀ name flags, sys.opens s name flags = true)
    (hwords : ∀ w ∈ words, NoSign w) (hne : words ≠ []) (hpfd : pfd < 0) (g : List Char) :
    Redirects sys s words (.output g) T pfd tr ↔ T.get 0 ≠ none := by
  have hopen : ∀ T', reopen sys s T 1 g .wronlyCreatTrunc = some T' →
      redirect sys s (words ++ Redirection.words (.output g)) T pfd tr = some (words, T') := by
    intro T' hreopen
    rw [redirect_of_neg hpfd, Redirection.words]
    simp [openFiles, redirections_single hwords hne, hreopen, startsWith, outof, into]
  by_cases hstdin : T.get 0 = none
  · obtain ⟨T', hreopen, hget⟩ := reopen_get_stdout_none hopens hstdin g .wronlyCreatTrunc
    refine iff_of_false ?_ fun h => h hstdin
    rintro ⟨T'', hT'', hred⟩
    rw [hopen T' hreopen] at hT''
    cases hT''
    have hout := hred.output g rfl
    rw [hget] at hout
    cases hout
  · obtain ⟨T', hreopen, hget, hkeep⟩ := reopen_get (T := T) hopens 1
      (fun fd' hlt => by rwa [show fd' = 0 by omega]) g .wronlyCreatTrunc
    refine iff_of_true ⟨T', hopen T' hreopen, nofun, ?_, fun _ => hkeep 0 (by omega), nofun,
      hkeep 2 (by omega)⟩ hstdin
    intro g' hg'
    obtain rfl := Option.some.inj hg'
    exact hget

/-- The pair `< f > g` opens the file for the output without emptying it. -/
theorem not_redirects_inputOutput (hopens : ∀ name flags, sys.opens s name flags = true)
    (hne : words ≠ []) (hpfd : pfd < 0) (f g : List Char) :
    ¬ Redirects sys s words (.inputOutput f g) T pfd tr := by
  obtain ⟨T1, hreopen1, hget1, -⟩ := reopen_get (T := T) hopens 0 (by omega) f .rdonly
  obtain ⟨T2, hreopen2, hget2, -⟩ := reopen_get (T := T1) hopens 1
    (fun fd' hlt => by rw [show fd' = 0 by omega, hget1]; exact Option.some_ne_none _) g .wronlyCreat
  have hredirect : redirect sys s (words ++ Redirection.words (.inputOutput f g)) T pfd tr =
      some (words, T2) := by
    rw [redirect_of_neg hpfd, Redirection.words]
    simp [openFiles, redirections_pair hne, hreopen1, hreopen2, startsWith, outof, into]
  rintro ⟨T', hT', hred⟩
  rw [hredirect] at hT'
  cases hT'
  have hout := hred.output g rfl
  rw [hget2] at hout
  cases hout

/-- Of the pair `> g < f` the first part stays among the words. -/
theorem not_redirects_outputInput (hne : words ≠ []) (hpfd : pfd < 0) (g f : List Char) :
    ¬ Redirects sys s words (.outputInput g f) T pfd tr := by
  rintro ⟨T', hT', -⟩
  have hfound : redirections (words ++ [into, g, outof, f]) = (some f, none) := by
    rw [redirections_pair hne]
    rfl
  rw [redirect_of_neg hpfd, Redirection.words, openFiles, hfound] at hT'
  simp only [Option.bind_eq_bind, Option.bind_eq_some_iff, Option.some.injEq, Prod.mk.injEq] at hT'
  obtain ⟨T1, -, hsplit, -⟩ := hT'
  have := congrArg List.length hsplit
  simp at this

/-- `redirect` does what the redirections of a command ask for if and only if there is at most one of
them and, for the output, standard input is open. -/
theorem redirects_iff (hopens : ∀ name flags, sys.opens s name flags = true)
    (hwords : ∀ w ∈ words, NoSign w) (hne : words ≠ []) (r : Redirection) (T : Fds)
    (hpfd : pfd < 0) (tr : ℤ) :
    Redirects sys s words r T pfd tr ↔
      (r.stdin = none ∨ r.stdout = none) ∧ (r.stdout ≠ none → T.get 0 ≠ none) := by
  cases r with
  | none => exact iff_of_true (redirects_none hwords hpfd) ⟨.inl rfl, fun h => absurd rfl h⟩
  | input f =>
    exact iff_of_true (redirects_input hopens hwords hne hpfd f) ⟨.inr rfl, fun h => absurd rfl h⟩
  | output g =>
    rw [redirects_output_iff hopens hwords hne hpfd]
    simp [Redirection.stdin, Redirection.stdout]
  | inputOutput f g =>
    refine iff_of_false (not_redirects_inputOutput hopens hne hpfd f g) ?_
    simp [Redirection.stdin, Redirection.stdout]
  | outputInput g f =>
    refine iff_of_false (not_redirects_outputInput hne hpfd g f) ?_
    simp [Redirection.stdin, Redirection.stdout]

/-- The command `a > g`. -/
theorem redirects_iff_output :
    Redirects noCommand 0 [['a']] (.output ['g']) stdFds (-1) (-1) ↔
      (Redirection.stdin (.output ['g']) = none ∨ Redirection.stdout (.output ['g']) = none) ∧
        (Redirection.stdout (.output ['g']) ≠ none → stdFds.get 0 ≠ none) :=
  redirects_iff (fun _ _ => rfl) (by simp [NoSign, startsWith, outof, into, List.isPrefixOf]) (by simp)
    (.output ['g']) stdFds (by decide) (-1)

/-- The command `a < f > g` keeps what is in `g`, and `a > g < f` does not write to `g` at all. -/
theorem not_redirects_both :
    ¬ Redirects noCommand 0 [['a']] (.inputOutput ['f'] ['g']) stdFds (-1) (-1) ∧
      ¬ Redirects noCommand 0 [['a']] (.outputInput ['g'] ['f']) stdFds (-1) (-1) :=
  ⟨not_redirects_inputOutput (fun _ _ => rfl) (by simp) (by decide) ['f'] ['g'],
    not_redirects_outputInput (by simp) (by decide) ['g'] ['f']⟩

end Sem3.Shell
