import Sem3.Shell.Proofs.MainProofs
import Mathlib.Data.List.TakeWhile

/-!
# Proofs: the value of `PATH`

`strtok` writes over the delimiter behind a token. The value is left as it was if it stops at no
delimiter, and nothing that `main` does later writes to it.
-/

namespace Sem3.Shell

variable {s s' : Session} {a : Answers} {act : Act} {steps : List (Session × Act)} {i n : ℕ}
  {skip token u v after : List Char} {tokens env : List (List Char)} {delim ch : Char}

/-! ## `strtok` -/

theorem takeWhile_append_nul (hu : nul ∉ u) (rest : List Char) :
    (u ++ rest).takeWhile (· ≠ nul) = u ++ rest.takeWhile (· ≠ nul) := by
  apply List.takeWhile_append_of_pos
  intro c hc
  simpa using ne_of_mem_of_not_mem hc hu

theorem takeWhile_nul (hu : nul ∉ u) (rest : List Char) :
    (u ++ nul :: rest).takeWhile (· ≠ nul) = u := by
  rw [takeWhile_append_nul hu]
  simp

/-- A string of delimiters has no token. -/
theorem strtok_end (hd : delim ≠ nul) (h : ∀ c ∈ skip, c = delim) (rest : List Char) :
    strtok delim (skip ++ nul :: rest) = some (none, skip, nul :: rest) := by
  have htake : (skip ++ nul :: rest).takeWhile (· = delim) = skip := by
    rw [List.takeWhile_append_of_pos (by simpa using h)]
    simp [Ne.symm hd]
  have hdrop : (skip ++ nul :: rest).dropWhile (· = delim) = nul :: rest := by
    rw [List.dropWhile_append_of_pos (by simpa using h)]
    simp [Ne.symm hd]
  simp only [strtok, htake, hdrop, if_pos]

/-- A token ends at a delimiter, which is written over, or at the end of the string. -/
theorem strtok_token (hskip : ∀ c ∈ skip, c = delim) (hne : token ≠ [])
    (htoken : ∀ c ∈ token, c ≠ delim ∧ c ≠ nul) (hch : ch = delim ∨ ch = nul) (rest : List Char) :
    strtok delim (skip ++ (token ++ ch :: rest)) =
      some (some token, if ch = nul then (skip ++ token, ch :: rest)
        else (skip ++ token ++ [nul], rest)) := by
  obtain ⟨c, cs, rfl⟩ := List.exists_cons_of_ne_nil hne
  obtain ⟨hcd, hcn⟩ := htoken c List.mem_cons_self
  have htake : (skip ++ (c :: cs ++ ch :: rest)).takeWhile (· = delim) = skip := by
    rw [List.takeWhile_append_of_pos (by simpa using hskip)]
    simp [hcd]
  have hdrop : (skip ++ (c :: cs ++ ch :: rest)).dropWhile (· = delim) = c :: (cs ++ ch :: rest) := by
    rw [List.dropWhile_append_of_pos (by simpa using hskip)]
    simp [hcd]
  have hword : (c :: (cs ++ ch :: rest)).takeWhile (fun d => d ≠ delim ∧ d ≠ nul) = c :: cs := by
    rw [← List.cons_append, List.takeWhile_append_of_pos (by simpa using htoken)]
    rcases hch with rfl | rfl <;> simp
  have hbehind : (c :: (cs ++ ch :: rest)).drop (c :: cs).length = ch :: rest := by
    rw [← List.cons_append, List.drop_left]
  simp only [strtok, htake, hdrop, if_neg hcn, hword, hbehind]
  split_ifs <;> rfl

theorem strtokAll_end {text before rest : List Char}
    (hs : strtok delim text = some (none, before, rest))
    (h : strtokAll delim n text = some (tokens, after)) : after = before ++ rest := by
  cases n with
  | zero => cases h
  | succ n =>
    simp only [strtokAll, hs, Option.bind_eq_bind, Option.bind_some, Option.some.injEq,
      Prod.mk.injEq] at h
    exact h.2.symm

theorem strtokAll_token {text before rest : List Char}
    (hs : strtok delim text = some (some token, before, rest))
    (h : strtokAll delim n text = some (tokens, after)) :
    ∃ n' tokens' after', strtokAll delim n' rest = some (tokens', after') ∧
      after = before ++ after' := by
  cases n with
  | zero => cases h
  | succ n =>
    simp only [strtokAll, hs, Option.bind_eq_bind, Option.bind_some] at h
    obtain ⟨⟨tokens', after'⟩, hrest, heq⟩ := Option.bind_eq_some_iff.1 h
    exact ⟨n, tokens', after', hrest, (Prod.mk.inj (Option.some.inj heq)).2.symm⟩

/-- A delimiter behind the first token is written over. -/
theorem strtokAll_cut (hd : delim ≠ nul) (hskip : ∀ c ∈ skip, c = delim) (hne : token ≠ [])
    (htoken : ∀ c ∈ token, c ≠ delim ∧ c ≠ nul) {rest : List Char}
    (h : strtokAll delim n (skip ++ (token ++ delim :: rest)) = some (tokens, after)) :
    ∃ after', after = skip ++ token ++ nul :: after' := by
  have hs := strtok_token hskip hne htoken (.inl rfl) rest
  rw [if_neg hd] at hs
  obtain ⟨n', tokens', after', -, rfl⟩ := strtokAll_token hs h
  exact ⟨after', by rw [List.append_assoc, List.singleton_append]⟩

/-- Without a delimiter behind the first token nothing is written. -/
theorem strtokAll_whole (hd : delim ≠ nul) (hskip : ∀ c ∈ skip, c = delim)
    (hbody : ∀ c ∈ body, c ≠ delim ∧ c ≠ nul) {rest : List Char}
    (h : strtokAll delim n (skip ++ (body ++ nul :: rest)) = some (tokens, after)) :
    after = skip ++ body ++ nul :: rest := by
  by_cases hne : body = []
  · subst hne
    rw [List.append_nil]
    exact strtokAll_end (strtok_end hd hskip rest) h
  · have hs := strtok_token hskip hne hbody (.inr rfl) rest
    rw [if_pos rfl] at hs
    obtain ⟨n', tokens', after', hrest, rfl⟩ := strtokAll_token hs h
    have hend : strtok delim (nul :: rest) = some (none, [], nul :: rest) :=
      strtok_end hd (fun c hc => absurd hc List.not_mem_nil) rest
    rw [strtokAll_end hend hrest]
    rfl

/-- The calls of `strtok` leave a string as it was if and only if it has no delimiter behind those
that it begins with. -/
theorem strtokAll_keeps_iff (hd : delim ≠ nul) (hu : nul ∉ u) {rest : List Char}
    (h : strtokAll delim n (u ++ nul :: rest) = some (tokens, after)) :
    after.takeWhile (· ≠ nul) = u ↔ delim ∉ u.dropWhile (· = delim) := by
  have hskip : ∀ c ∈ u.takeWhile (· = delim), c = delim := by
    intro c hc
    simpa using List.mem_takeWhile_imp hc
  have hsplit : u = u.takeWhile (· = delim) ++ u.dropWhile (· = delim) :=
    List.takeWhile_append_dropWhile.symm
  have hhead : ∀ c ∈ (u.dropWhile (· = delim)).head?, c ≠ delim := by
    intro c hc
    have hnot := List.head?_dropWhile_not (fun c => c = delim) u
    rw [Option.mem_def.1 hc] at hnot
    simpa using hnot
  generalize u.takeWhile (· = delim) = skip at hsplit hskip
  generalize u.dropWhile (· = delim) = body at hsplit hhead ⊢
  subst hsplit
  have hchar : ∀ c ∈ body, c ≠ nul := by
    rintro c hc rfl
    exact hu (List.mem_append_right _ hc)
  rw [List.append_assoc] at h
  by_cases hmem : delim ∈ body
  · obtain ⟨token, u, rfl, hno⟩ := List.eq_append_cons_of_mem hmem
    have hne : token ≠ [] := by
      rintro rfl
      exact hhead delim (by simp) rfl
    have htoken : ∀ c ∈ token, c ≠ delim ∧ c ≠ nul := fun c hc =>
      ⟨ne_of_mem_of_not_mem hc hno, hchar c (List.mem_append_left _ hc)⟩
    rw [List.append_assoc token, List.cons_append] at h
    obtain ⟨after', rfl⟩ := strtokAll_cut hd hskip hne htoken h
    have hnul : nul ∉ skip ++ token := by
      intro hc
      apply hu
      rw [← List.append_assoc]
      exact List.mem_append_left _ hc
    refine iff_of_false ?_ (not_not_intro hmem)
    rw [takeWhile_nul hnul, ← List.append_assoc]
    intro heq
    have := congrArg List.length heq
    simp at this
  · have hbody : ∀ c ∈ body, c ≠ delim ∧ c ≠ nul := fun c hc =>
      ⟨ne_of_mem_of_not_mem hc hmem, hchar c hc⟩
    refine iff_of_true ?_ hmem
    rw [strtokAll_whole hd hskip hbody h, takeWhile_nul hu]

/-! ## The start -/

theorem Environ.drop_offset {E : Environ} {entry : List Char} (h : E.entries[i]? = some entry) :
    ∃ rest, E.memory.drop (E.offset i) = entry ++ nul :: rest := by
  obtain ⟨hlt, hentry⟩ := List.getElem?_eq_some_iff.1 h
  have hsplit : E.entries = E.entries.take i ++ entry :: E.entries.drop (i + 1) := by
    rw [← hentry, List.getElem_cons_drop, List.take_append_drop]
  refine ⟨(E.entries.drop (i + 1)).flatMap (· ++ [nul]) ++ E.tail, ?_⟩
  have hmem : E.memory = (E.entries.take i).flatMap (· ++ [nul]) ++
      (entry ++ nul :: ((E.entries.drop (i + 1)).flatMap (· ++ [nul]) ++ E.tail)) := by
    rw [Environ.memory]
    conv_lhs => rw [hsplit]
    simp
  rw [hmem, Environ.offset, List.drop_left]

theorem Environ.HasPath.no_nul {E : Environ} (hp : E.HasPath i v) : nul ∉ v := by
  intro hv
  exact E.ok _ (List.mem_of_getElem? hp.entry) (List.mem_append_right _ hv)

/-- What lies at the entry for `PATH` behind the start: `strtok` has only written behind the first
characters of the value. -/
theorem start_entry {E : Environ} {paths : List (List Char)} (hp : E.HasPath i v)
    (h : start E = some (paths, env)) :
    ∃ rest n after, strtokAll ':' n ((v ++ nul :: rest).drop pathvar.length) = some (paths, after) ∧
      env[i]? = some ((pathvar ++ ['='] ++ ((v ++ nul :: rest).take pathvar.length ++ after)).takeWhile
        fun c => c ≠ nul) := by
  obtain ⟨rest, hrest⟩ := Environ.drop_offset hp.entry
  rw [List.append_assoc] at hrest
  have hpre : pathvar.length + 1 = (pathvar ++ ['=']).length := rfl
  have hdrop : E.memory.drop (E.offset i + (pathvar.length + 1) + pathvar.length) =
      (v ++ nul :: rest).drop pathvar.length := by
    rw [Nat.add_assoc, ← List.drop_drop, hrest, hpre, List.drop_length_add_append]
  have htake : (E.memory.take (E.offset i + (pathvar.length + 1) + pathvar.length)).drop (E.offset i) =
      pathvar ++ ['='] ++ (v ++ nul :: rest).take pathvar.length := by
    rw [Nat.add_assoc, List.drop_take, Nat.add_sub_cancel_left, hrest, hpre,
      List.take_length_add_append]
  have hlen : E.offset i ≤
      (E.memory.take (E.offset i + (pathvar.length + 1) + pathvar.length)).length := by
    have := congrArg List.length hrest
    simp only [List.length_drop, List.length_append, List.length_cons] at this
    rw [List.length_take]
    omega
  simp only [start, hp.found, Option.bind_eq_bind, Option.bind_some] at h
  obtain ⟨⟨paths', after⟩, htok, heq⟩ := Option.bind_eq_some_iff.1 h
  obtain ⟨rfl, rfl⟩ := Prod.mk.inj (Option.some.inj heq)
  have hi : i < E.entries.length := (List.getElem?_eq_some_iff.1 hp.entry).1
  refine ⟨rest, (E.memory.drop (E.offset i + (pathvar.length + 1) + pathvar.length)).length + 1,
    after, hdrop ▸ htok, ?_⟩
  rw [Environ.strings, List.getElem?_map, List.getElem?_range hi, Option.map_some, cstring,
    List.drop_append_of_le_length hlen, htake, List.append_assoc _ _ after]

/-- `main` leaves the entry for `PATH` as it was if and only if `strtok` stops at no delimiter. -/
theorem start_keeps_iff {E : Environ} {paths : List (List Char)} (hp : E.HasPath i v)
    (h : start E = some (paths, env)) :
    env[i]? = some (pathvar ++ ['='] ++ v) ↔ PathSafe v := by
  obtain ⟨rest, n, after, htok, henv⟩ := start_entry hp h
  have hv := hp.no_nul
  have hpre : nul ∉ pathvar ++ ['='] := by decide
  rw [henv, Option.some.injEq, takeWhile_append_nul hpre, List.append_cancel_left_eq]
  unfold PathSafe
  by_cases hlen : pathvar.length ≤ v.length
  · rw [List.drop_append_of_le_length hlen] at htok
    have hdrop : nul ∉ v.drop pathvar.length := fun hmem => hv (List.mem_of_mem_drop hmem)
    have htake : nul ∉ v.take pathvar.length := fun hmem => hv (List.mem_of_mem_take hmem)
    rw [← strtokAll_keeps_iff (by decide) hdrop htok, List.take_append_of_le_length hlen,
      takeWhile_append_nul htake]
    conv_lhs => rhs; rw [← List.take_append_drop pathvar.length v]
    rw [List.append_cancel_left_eq]
  · -- the terminator of the value is in front of everything that `strtok` is given
    have hlt : v.length < pathvar.length := not_le.1 hlen
    obtain ⟨k, hk⟩ := Nat.exists_eq_add_of_lt hlt
    rw [List.drop_eq_nil_of_le hlt.le, List.take_append, List.take_of_length_le hlt.le,
      show pathvar.length - v.length = k + 1 by omega, List.take_succ_cons, List.append_assoc,
      List.cons_append, takeWhile_nul hv]
    simp

/-! ## The run -/

/-- `setenv` does not touch the entry for `PATH`. -/
theorem executeCd_getElem? (chdir : List Char → Option (List Char)) (arg : Option (List Char))
    (h : env[i]? = some (pathvar ++ ['='] ++ v)) :
    (executeCd chdir arg env)[i]? = some (pathvar ++ ['='] ++ v) := by
  unfold executeCd
  split
  next wd j _ hj =>
    have hne : j ≠ i := by
      rintro rfl
      obtain ⟨hlt, hpwd, -⟩ := List.findIdx?_eq_some_iff_getElem.1 hj
      obtain ⟨_, hentry⟩ := List.getElem?_eq_some_iff.1 h
      rw [hentry] at hpwd
      simp [pathvar, pwdvar] at hpwd
    rw [List.getElem?_set_ne hne, h]
  next => exact h

/-- The entry for `PATH` is `entry`, now and in all calls so far. -/
def PathKept (i : ℕ) (entry : List Char) (s : Session) : Prop :=
  s.env[i]? = some entry ∧ ∀ e ∈ s.events, e.env[i]? = some entry

theorem PathKept.events {entry : List Char} {events : List Event} (h : PathKept i entry s)
    (hevents : ∀ e ∈ events, e.env = s.env) : ∀ e ∈ s.events ++ events, e.env[i]? = some entry := by
  intro e he
  rcases List.mem_append.1 he with he | he
  · exact h.2 e he
  · rw [hevents e he]
    exact h.1

theorem Prepares.pathKept {stages : List (List (List Char))} (hs : Prepares s a stages s')
    (h : PathKept i (pathvar ++ ['='] ++ v) s) : PathKept i (pathvar ++ ['='] ++ v) s' := by
  cases hs with
  | refused => exact h
  | cd _ _ henv =>
    refine ⟨?_, h.2⟩
    rcases henv with rfl | rfl
    · exact h.1
    · exact executeCd_getElem? _ _ h.1
  | fork => exact h

theorem Fires.pathKept (hs : Fires s act s') (h : PathKept i (pathvar ++ ['='] ++ v) s) :
    PathKept i (pathvar ++ ['='] ++ v) s' := by
  cases hs with
  | blank =>
    refine ⟨h.1, h.events ?_⟩
    simp [Event.env]
  | words _ _ hs =>
    refine hs.pathKept ⟨h.1, h.events ?_⟩
    simp [Event.env]
  | fork =>
    refine ⟨h.1, h.events ?_⟩
    intro e he
    obtain ⟨call, -, rfl⟩ := List.mem_map.1 he
    rfl
  | forked => exact h
  | wait => exact h
  | waited => exact h

/-- If the start has left the entry for `PATH` as it was, all calls of a run are passed this entry. -/
theorem path_kept {entries : List (List Char)} {paths : List (List Char)} {fds : Fds}
    (henv : env[i]? = some (pathvar ++ ['='] ++ v))
    (hrun : Run Session.step (.init paths env fds) steps s) (hentry : entries[i]? = env[i]?) :
    ∀ e ∈ s.events, e.env[i]? = entries[i]? := by
  have hkept : PathKept i (pathvar ++ ['='] ++ v) s := by
    refine hrun.always ⟨henv, fun e he => absurd he List.not_mem_nil⟩ ?_
    intro s act s' hI hs
    exact (fires hs).pathKept hI
  intro e he
  rw [hentry, henv]
  exact hkept.2 e he

/-- A blank line is parsed with the environment behind the start. -/
theorem env_of_blank {entry : Option (List Char)} {paths : List (List Char)} (fds : Fds)
    (h : ∀ steps s, Run Session.step (.init paths env fds) steps s → (∀ x ∈ steps, NoCd x.2) →
      ∀ e ∈ s.events, e.env[i]? = entry) : env[i]? = entry := by
  let answers : Answers := ⟨⟨true, fun _ _ _ => true, fun _ _ _ => true⟩, fun _ => [],
    fun _ _ => 0, fun _ => none, true⟩
  have hstep : Session.step (.init paths env fds) (.line answers ['\n']) =
      some { Session.init paths env fds with events := [.parse [] env], stale := true } := rfl
  refine h _ _ (Run.init.snoc hstep) ?_ (.parse [] env) List.mem_cons_self
  intro x hx
  rw [List.mem_singleton.1 hx]
  show ¬ cdCmd <:+: ['\n']
  decide

/-- In every run without `cd` all calls are passed the entry for `PATH` that the shell was started
with, if and only if the part of the value that `strtok` is given has no component before a
delimiter. A `cd` changes nothing about it: the same condition is the one for all runs. -/
theorem path_intact_iff {E : Environ} {paths : List (List Char)} (fds : Fds) (hp : E.HasPath i v)
    (h : start E = some (paths, env)) :
    ((∀ steps s, Run Session.step (.init paths env fds) steps s → (∀ x ∈ steps, NoCd x.2) →
      ∀ e ∈ s.events, e.env[i]? = E.entries[i]?) ↔ PathSafe v) ∧
    ((∀ steps s, Run Session.step (.init paths env fds) steps s →
      ∀ e ∈ s.events, e.env[i]? = E.entries[i]?) ↔ PathSafe v) := by
  rw [← start_keeps_iff hp h, ← hp.entry]
  have hkept : env[i]? = E.entries[i]? →
      ∀ steps s, Run Session.step (.init paths env fds) steps s →
        ∀ e ∈ s.events, e.env[i]? = E.entries[i]? := by
    intro henv steps s hrun
    exact path_kept (henv.trans hp.entry) hrun henv.symm
  refine ⟨⟨env_of_blank fds, fun henv steps s hrun _ => hkept henv steps s hrun⟩, ?_, hkept⟩
  intro hall
  exact env_of_blank fds fun steps s hrun _ => hall steps s hrun

/-- `PATH=/b:/usr/bin`, where `strtok` starts behind the delimiter. -/
theorem path_intact_iff_two_components :
    let v := ['/', 'b', ':', '/', 'u', 's', 'r', '/', 'b', 'i', 'n']
    let E : Environ := ⟨[pathvar ++ ['='] ++ v], [], by decide⟩
    ∃ paths env, start E = some (paths, env) ∧
      ((∀ steps s, Run Session.step (.init paths env ⟨[]⟩) steps s → (∀ x ∈ steps, NoCd x.2) →
        ∀ e ∈ s.events, e.env[0]? = E.entries[0]?) ↔ PathSafe v) ∧
      ((∀ steps s, Run Session.step (.init paths env ⟨[]⟩) steps s →
        ∀ e ∈ s.events, e.env[0]? = E.entries[0]?) ↔ PathSafe v) := by
  intro v E
  have hstart : start E = some ([['u', 's', 'r', '/', 'b', 'i', 'n']], E.entries) := by decide
  exact ⟨_, _, hstart, path_intact_iff ⟨[]⟩ ⟨by decide, rfl⟩ hstart⟩

/-- The shell is started with `PATH=/usr/bin:/bin`, and a blank line is parsed with `PATH=/usr/bin`. -/
theorem path_cut :
    let v := ['/', 'u', 's', 'r', '/', 'b', 'i', 'n', ':', '/', 'b', 'i', 'n']
    let E : Environ := ⟨[pathvar ++ ['='] ++ v], [], by decide⟩
    ∃ paths env steps s, start E = some (paths, env) ∧
      Run Session.step (.init paths env ⟨[]⟩) steps s ∧ (∀ x ∈ steps, NoCd x.2) ∧
      ∃ e ∈ s.events, e.env[0]? ≠ E.entries[0]? := by
  intro v E
  let env : List (List Char) := [pathvar ++ ['=', '/', 'u', 's', 'r', '/', 'b', 'i', 'n']]
  let paths : List (List Char) := [['/', 'b', 'i', 'n'], ['/', 'b', 'i', 'n']]
  let answers : Answers := ⟨⟨true, fun _ _ _ => true, fun _ _ _ => true⟩, fun _ => [],
    fun _ _ => 0, fun _ => none, true⟩
  have hstart : start E = some (paths, env) := by decide
  have hstep : Session.step (.init paths env ⟨[]⟩) (.line answers ['\n']) =
      some { Session.init paths env ⟨[]⟩ with events := [.parse [] env], stale := true } := rfl
  refine ⟨_, _, _, _, hstart, Run.init.snoc hstep, ?_, .parse [] env, List.mem_cons_self, ?_⟩
  · intro x hx
    rw [List.mem_singleton.1 hx]
    show ¬ cdCmd <:+: ['\n']
    decide
  · decide

end Sem3.Shell
