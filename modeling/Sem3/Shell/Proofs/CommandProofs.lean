import Sem3.Shell.Command
import Sem3.Shell.MainSpec
import Sem3.Shell.Proofs.PathProofs
import Sem3.Shell.Proofs.PlumbingProofs

/-!
# Proofs: command lookup

What the four calls of `strncpy` leave in the buffer is the path with its terminator, whatever was
there before. So the calls of `execve` depend on the components that `strtok` finds, and those are not
the ones of `PATH`: the search starts `strlen("PATH")` characters behind the start of the value.
-/

namespace Sem3.Shell

variable {sys : System} {npipes t s off n : ℕ} {ppfd : ℕ × ℕ} {T T' : Fds}
  {buf src cmd path word a b : List Char} {words split split' paths : List (List Char)}

/-! ## The buffer -/

/-- `strncpy` of a whole string over the middle part of the buffer. -/
theorem strncpy_append (pre mid post : List Char) (h : src.length = mid.length) :
    strncpy (pre ++ (mid ++ post)) pre.length src src.length = some (pre ++ (src ++ post)) := by
  have hle : pre.length + src.length ≤ (pre ++ (mid ++ post)).length := by simp; omega
  rw [strncpy, if_pos hle, List.take_left, List.take_length, Nat.sub_self, List.replicate_zero,
    List.append_nil, h, List.drop_length_add_append, List.drop_left, List.append_assoc]

/-- `strncpy` of a string with its terminator. -/
theorem strncpy_nul (h : src.length + 1 ≤ buf.length) :
    strncpy buf 0 src (src.length + 1) = some (src ++ nul :: buf.drop (src.length + 1)) := by
  have htake : src.take (src.length + 1) = src := List.take_of_length_le (by omega)
  rw [strncpy, if_pos (by omega), htake, Nat.add_sub_cancel_left]
  simp

/-- `strncpy` over the whole buffer. -/
theorem strncpy_fill (h : src.length ≤ buf.length) :
    strncpy buf 0 src buf.length = some (src ++ List.replicate (buf.length - src.length) nul) := by
  rw [strncpy, if_pos (by omega), List.take_of_length_le h]
  simp

/-- `strncpy` of an empty string writes a terminator. -/
theorem strncpy_terminator (pre post : List Char) (ch : Char) :
    strncpy (pre ++ ch :: post) pre.length [] 1 = some (pre ++ nul :: post) := by
  rw [strncpy, if_pos (by simp), List.take_left, List.drop_length_add_append]
  simp

/-- The buffer holds a terminated string. -/
def Holds (buf str : List Char) : Prop := ∃ post, buf = str ++ nul :: post

/-- The string in the buffer ends at its terminator. -/
theorem Holds.takeWhile_eq (h : Holds buf src) (hsrc : nul ∉ src) :
    buf.takeWhile (· ≠ nul) = src := by
  obtain ⟨post, rfl⟩ := h
  exact takeWhile_nul hsrc post

/-- The words that `execve` is called with as they are. -/
theorem isRelative_iff :
    (startsWith word thisdir || startsWith word updir) = true ↔ IsRelative word := by
  rw [Bool.or_eq_true, IsRelative]

theorem commandPath_of_relative (h : IsRelative word) (path : List Char) :
    commandPath path word = word := if_pos (isRelative_iff.2 h)

theorem commandPath_of_not_relative (h : ¬ IsRelative word) (path : List Char) :
    commandPath path word = path ++ '/' :: word := by
  rw [commandPath, if_neg (mt isRelative_iff.1 h), rootdir, List.append_assoc]
  rfl

/-- What fits into `cmd` is put there. -/
theorem assemble_spec (hcmd : cmd.length = inSz) (hword : word.length + 1 ≤ inSz)
    (hfit : ¬ IsRelative word → path.length + word.length + 2 ≤ inSz) :
    ∃ cmd', assemble cmd path word = some cmd' ∧ cmd'.length = inSz ∧
      Holds cmd' (commandPath path word) := by
  unfold assemble commandPath
  split_ifs with hdir
  · refine ⟨_, strncpy_nul (by omega), ?_, _, rfl⟩
    simp [hcmd]
    omega
  · replace hfit := hfit (mt isRelative_iff.2 hdir)
    -- the first call fills the rest of the buffer with terminators
    obtain ⟨k, hk⟩ : ∃ k, inSz - path.length = 1 + (word.length + (1 + k)) :=
      ⟨inSz - path.length - word.length - 2, by omega⟩
    have hfill : strncpy cmd 0 path inSz =
        some (path ++ ([nul] ++ (List.replicate word.length nul ++ nul :: List.replicate k nul))) := by
      have h := strncpy_fill (show path.length ≤ cmd.length by omega)
      rw [hcmd, hk, List.replicate_add, List.replicate_add, List.replicate_add] at h
      exact h
    have hroot := strncpy_append path [nul]
      (List.replicate word.length nul ++ nul :: List.replicate k nul) (show rootdir.length = 1 from rfl)
    have hword := strncpy_append (path ++ rootdir) (List.replicate word.length nul)
      (nul :: List.replicate k nul) (List.length_replicate (n := word.length)).symm
    have hterm := strncpy_terminator (path ++ rootdir ++ word) (List.replicate k nul) nul
    have hlen : (path ++ rootdir).length = path.length + 1 := by simp [rootdir]
    have hlen' : (path ++ rootdir ++ word).length = path.length + 1 + word.length := by
      simp [rootdir]
      omega
    rw [hlen] at hword
    rw [hlen'] at hterm
    simp only [List.append_assoc] at hword hterm hroot
    refine ⟨path ++ rootdir ++ word ++ nul :: List.replicate k nul, ?_, ?_, _, rfl⟩
    · simp only [hfill, Option.bind_eq_bind, Option.bind_some, hroot, hword, hterm,
        List.append_assoc]
    · simp [rootdir]
      omega

/-! ## The passes of a child -/

/-- A redirection needs three words, and two need five. -/
theorem redirections_length (split : List (List Char)) :
    (redirections split = (none, none) ∨ 3 ≤ split.length) ∧
      ((redirections split).1 = none ∨ (redirections split).2 = none ∨ 5 ≤ split.length) := by
  unfold redirections
  by_cases h5 : 5 ≤ split.length
  · exact ⟨.inr (by omega), .inr (.inr h5)⟩
  · simp only [ge_iff_le, h5, false_and, if_false]
    split_ifs with h3
    · exact ⟨.inr h3, .inr (.inl rfl)⟩
    · exact ⟨.inr h3, .inl rfl⟩
    · exact ⟨.inl rfl, .inl rfl⟩
    · exact ⟨.inl rfl, .inl rfl⟩

/-- The name of the command stays where it is. -/
theorem openFiles_head (h : openFiles sys s (word :: words) T = some (split', T')) :
    ∃ words', split' = word :: words' := by
  obtain ⟨hlen, hlen'⟩ := redirections_length (word :: words)
  have htake : ∀ k, k < (word :: words).length →
      ∃ words', (word :: words).take ((word :: words).length - k) = word :: words' := by
    intro k hk
    obtain ⟨j, hj⟩ : ∃ j, (word :: words).length - k = j + 1 := ⟨_, (Nat.sub_add_cancel (by omega)).symm⟩
    exact ⟨words.take j, by rw [hj, List.take_succ_cons]⟩
  unfold openFiles at h
  split at h
  next hr =>
    simp only [Option.bind_eq_bind, Option.bind_eq_some_iff] at h
    obtain ⟨_, -, _, -, heq⟩ := h
    cases heq
    rw [hr] at hlen'
    exact htake 4 (by simp at hlen'; simp; omega)
  next hr =>
    simp only [Option.bind_eq_bind, Option.bind_eq_some_iff] at h
    obtain ⟨_, -, heq⟩ := h
    cases heq
    rw [hr] at hlen
    exact htake 2 (by simp at hlen; simp; omega)
  next hr =>
    simp only [Option.bind_eq_bind, Option.bind_eq_some_iff] at h
    obtain ⟨_, -, heq⟩ := h
    cases heq
    rw [hr] at hlen
    exact htake 2 (by simp at hlen; simp; omega)
  next =>
    cases h
    exact ⟨words, rfl⟩

theorem redirect_map (sys : System) (s : ℕ) (split : List (List Char)) (T : Fds) (pfd tr : ℤ) :
    (redirect sys s split T pfd tr).map Prod.fst = (openFiles sys s split T).map Prod.fst := by
  rw [redirect]
  cases openFiles sys s split T with
  | none => rfl
  | some r =>
    simp only [Option.bind_eq_bind, Option.bind_some]
    split_ifs <;> rfl

/-- A pass does to the words what `redirect` does to them. -/
theorem childPass_map (sys : System) (npipes t : ℕ) (ppfd : ℕ × ℕ) (s : ℕ)
    (split : List (List Char)) (T : Fds) :
    (childPass sys npipes t ppfd s split T).map Prod.fst =
      (openFiles sys s split T).map Prod.fst := by
  unfold childPass
  split_ifs
  · rw [← redirect_map sys s split T ppfd.2 1]
    cases redirect sys s split T ppfd.2 1 <;> rfl
  · rw [← redirect_map sys s split T ppfd.1 0]
    cases redirect sys s split T ppfd.1 0 <;> rfl
  · exact redirect_map ..

theorem childPass_head (h : childPass sys npipes t ppfd s (word :: words) T = some (split', T')) :
    ∃ words', split' = word :: words' := by
  have hmap := childPass_map sys npipes t ppfd s (word :: words) T
  rw [h, Option.map_some] at hmap
  obtain ⟨⟨split'', T''⟩, hopen, rfl⟩ := Option.map_eq_some_iff.1 hmap.symm
  exact openFiles_head hopen

/-- Where files can be opened, `redirect` does not exit. -/
theorem openFiles_isSome (h : NotFound sys) (s : ℕ) (split : List (List Char)) (T : Fds) :
    (openFiles sys s split T).isSome := by
  have hreopen : ∀ (T : Fds) fd name flags, ∃ T', reopen sys s T fd name flags = some T' :=
    fun T fd name flags => ⟨_, if_pos (h.opens s name flags)⟩
  unfold openFiles
  split
  next outoff intof _ =>
    obtain ⟨T1, h1⟩ := hreopen T 0 outoff .rdonly
    obtain ⟨T2, h2⟩ := hreopen T1 1 intof .wronlyCreat
    simp [h1, h2]
  next outoff _ =>
    obtain ⟨T1, h1⟩ := hreopen T 0 outoff .rdonly
    simp [h1]
  next intof _ =>
    obtain ⟨T1, h1⟩ := hreopen T 1 intof .wronlyCreatTrunc
    simp [h1]
  next => rfl

/-- While the paths fit into it, the buffer only passes them on. -/
theorem childExecs_eq (hcmd : cmd.length = inSz) (hword : word.length + 1 ≤ inSz)
    (hnul : nul ∉ word) (hpaths : ∀ path ∈ paths, nul ∉ path)
    (hfit : ¬ IsRelative word → ∀ path ∈ paths, path.length + word.length + 2 ≤ inSz) :
    childExecs sys npipes t ppfd s paths cmd (word :: words) T =
      some (childCalls sys npipes t ppfd s paths (word :: words) T) := by
  induction paths generalizing s cmd words T with
  | nil => rfl
  | cons path paths ih =>
    have hpath := hpaths path List.mem_cons_self
    obtain ⟨cmd', hasm, hlen, hholds⟩ :=
      assemble_spec hcmd hword fun hrel => hfit hrel path List.mem_cons_self
    have hno : nul ∉ commandPath path word := by
      unfold commandPath
      split_ifs
      · exact hnul
      · simp only [List.mem_append, rootdir]
        rintro ((h | h) | h)
        · exact hpath h
        · exact absurd h (by decide)
        · exact hnul h
    have hmem : nul ∈ cmd' := by
      obtain ⟨post, rfl⟩ := hholds
      simp
    rw [childExecs, childCalls, hasm]
    simp only [Option.bind_eq_bind, Option.bind_some, if_pos hmem, hholds.takeWhile_eq hno]
    cases hpass : childPass sys npipes t ppfd s (word :: words) T with
    | none => rfl
    | some r =>
      obtain ⟨split', T'⟩ := r
      obtain ⟨words', rfl⟩ := childPass_head hpass
      simp only
      split_ifs
      · rfl
      · rw [ih hlen (fun path hp => hpaths path (List.mem_cons_of_mem _ hp))
          fun hrel path hp => hfit hrel path (List.mem_cons_of_mem _ hp)]
        rfl

/-- The paths that are tried. -/
theorem childCalls_cmd (sys : System) (npipes t : ℕ) (ppfd : ℕ × ℕ) (paths : List (List Char))
    (s : ℕ) (word : List Char) (words : List (List Char)) (T : Fds) :
    (childCalls sys npipes t ppfd s paths (word :: words) T).map Call.cmd <+:
        paths.map (commandPath · word) ∧
      (NotFound sys → (childCalls sys npipes t ppfd s paths (word :: words) T).map Call.cmd =
        paths.map (commandPath · word)) := by
  induction paths generalizing s words T with
  | nil => exact ⟨List.prefix_rfl, fun _ => rfl⟩
  | cons path paths ih =>
    rw [childCalls]
    cases hpass : childPass sys npipes t ppfd s (word :: words) T with
    | none =>
      refine ⟨List.nil_prefix, fun hsys => ?_⟩
      have hmap := childPass_map sys npipes t ppfd s (word :: words) T
      obtain ⟨r, hr⟩ := Option.isSome_iff_exists.1 (openFiles_isSome hsys s (word :: words) T)
      rw [hpass, hr] at hmap
      cases hmap
    | some r =>
      obtain ⟨split', T'⟩ := r
      obtain ⟨words', rfl⟩ := childPass_head hpass
      obtain ⟨hpre, heq⟩ := ih (s + 1) words' T'
      simp only [List.map_cons]
      constructor
      · rw [List.cons_prefix_cons]
        refine ⟨rfl, ?_⟩
        split_ifs
        · exact List.nil_prefix
        · exact hpre
      · intro hsys
        simp only [hsys.execs, Bool.false_eq_true, if_false, heq hsys]

/-! ## Tokens -/

variable {delim : Char} {u tokens skip token : List Char}

theorem parts_skip (h : ∀ c ∈ skip, c = delim) (u : List Char) :
    parts delim (skip ++ u) = parts delim u := by
  induction skip with
  | nil => rfl
  | cons c skip ih =>
    have hc := h c List.mem_cons_self
    rw [List.cons_append, parts, List.splitOnP_cons_eq_if_modifyHead, if_pos (by simpa using hc)]
    exact ih fun d hd => h d (List.mem_cons_of_mem _ hd)

theorem parts_token (hne : token ≠ []) (h : delim ∉ token) : parts delim token = [token] := by
  have hno : ∀ c ∈ token, (decide (c = delim)) = false :=
    fun c hc => decide_eq_false (ne_of_mem_of_not_mem hc h)
  rw [parts, List.splitOnP_eq_singleton hno]
  simp [hne]

theorem parts_token_delim (hne : token ≠ []) (h : delim ∉ token) (u : List Char) :
    parts delim (token ++ delim :: u) = token :: parts delim u := by
  have hno : ∀ c ∈ token, (decide (c = delim)) = false :=
    fun c hc => decide_eq_false (ne_of_mem_of_not_mem hc h)
  rw [parts, List.splitOnP_append_cons_of_forall_mem hno delim (decide_eq_true rfl)]
  simp [hne, parts]

/-- A string is a run of delimiters, and what comes behind it is empty, one part, or a part with a
delimiter behind it. -/
theorem exists_token (delim : Char) (u : List Char) :
    ∃ skip, (∀ c ∈ skip, c = delim) ∧
      (u = skip ∨ ∃ token, token ≠ [] ∧ delim ∉ token ∧
        (u = skip ++ token ∨ ∃ u', u = skip ++ (token ++ delim :: u'))) := by
  have hhead : ∀ c ∈ (u.dropWhile (· = delim)).head?, c ≠ delim := by
    intro c hc
    have hnot := List.head?_dropWhile_not (fun c => c = delim) u
    rw [Option.mem_def.1 hc] at hnot
    simpa using hnot
  have hsplit : u = u.takeWhile (· = delim) ++ u.dropWhile (· = delim) :=
    List.takeWhile_append_dropWhile.symm
  refine ⟨u.takeWhile (· = delim), fun c hc => by simpa using List.mem_takeWhile_imp hc, ?_⟩
  generalize u.takeWhile (· = delim) = skip at hsplit
  generalize u.dropWhile (· = delim) = body at hsplit hhead
  subst hsplit
  by_cases hnil : body = []
  · exact .inl (by rw [hnil, List.append_nil])
  by_cases hmem : delim ∈ body
  · obtain ⟨token, u', rfl, hno⟩ := List.eq_append_cons_of_mem hmem
    refine .inr ⟨token, ?_, hno, .inr ⟨u', rfl⟩⟩
    rintro rfl
    exact hhead delim (by simp) rfl
  · exact .inr ⟨body, hnil, hmem, .inl rfl⟩

theorem parts_eq_nil_iff : parts delim u = [] ↔ ∀ c ∈ u, c = delim := by
  obtain ⟨skip, hskip, rfl | ⟨token, hne, hno, rfl | ⟨u', rfl⟩⟩⟩ := exists_token delim u
  · have h := parts_skip hskip []
    rw [List.append_nil] at h
    exact iff_of_true h hskip
  · rw [parts_skip hskip, parts_token hne hno]
    refine iff_of_false (List.cons_ne_nil _ _) fun h => ?_
    obtain ⟨c, hc⟩ := List.exists_mem_of_ne_nil _ hne
    exact hno (h c (by simp [hc]) ▸ hc)
  · rw [parts_skip hskip, parts_token_delim hne hno]
    refine iff_of_false (List.cons_ne_nil _ _) fun h => ?_
    obtain ⟨c, hc⟩ := List.exists_mem_of_ne_nil _ hne
    exact hno (h c (by simp [hc]) ▸ hc)

/-- The tokens of a terminated string. -/
theorem strtokAll_tokens {tokens : List (List Char)} {after rest : List Char} (hd : delim ≠ nul)
    (hu : nul ∉ u) (h : strtokAll delim n (u ++ nul :: rest) = some (tokens, after)) :
    tokens = parts delim u := by
  induction n generalizing u tokens after with
  | zero => cases h
  | succ n ih =>
    obtain ⟨skip, hskip, rfl | ⟨token, hne, hno, rfl | ⟨u', rfl⟩⟩⟩ := exists_token delim u
    · have hs := strtok_end hd hskip rest
      simp only [strtokAll, hs, Option.bind_eq_bind, Option.bind_some, Option.some.injEq,
        Prod.mk.injEq] at h
      rw [← h.1, eq_comm, parts_eq_nil_iff]
      exact hskip
    · have htoken : ∀ c ∈ token, c ≠ delim ∧ c ≠ nul := fun c hc =>
        ⟨ne_of_mem_of_not_mem hc hno, ne_of_mem_of_not_mem hc (by simp at hu; exact hu.2)⟩
      have hs := strtok_token hskip hne htoken (.inr rfl) rest
      rw [if_pos rfl, ← List.append_assoc] at hs
      simp only [strtokAll, hs, Option.bind_eq_bind, Option.bind_some] at h
      obtain ⟨⟨tokens', after'⟩, hrest, heq⟩ := Option.bind_eq_some_iff.1 h
      have htokens' := ih (u := []) List.not_mem_nil hrest
      rw [← (Prod.mk.inj (Option.some.inj heq)).1, htokens', parts_skip hskip,
        parts_token hne hno]
      rfl
    · have hu' : nul ∉ token ∧ nul ∉ u' := by simp at hu; exact ⟨hu.2.1, hu.2.2.2⟩
      have htoken : ∀ c ∈ token, c ≠ delim ∧ c ≠ nul := fun c hc =>
        ⟨ne_of_mem_of_not_mem hc hno, ne_of_mem_of_not_mem hc hu'.1⟩
      have hs := strtok_token hskip hne htoken (.inl rfl) (u' ++ nul :: rest)
      rw [if_neg hd] at hs
      have happ : skip ++ (token ++ delim :: u') ++ nul :: rest =
          skip ++ (token ++ delim :: (u' ++ nul :: rest)) := by simp
      rw [happ] at h
      simp only [strtokAll, hs, Option.bind_eq_bind, Option.bind_some] at h
      obtain ⟨⟨tokens', after'⟩, hrest, heq⟩ := Option.bind_eq_some_iff.1 h
      rw [← (Prod.mk.inj (Option.some.inj heq)).1, ih hu'.2 hrest, parts_skip hskip,
        parts_token_delim hne hno]

/-- `strtok` does not leave the string. -/
theorem strtok_nul {text before rest : List Char} {token : Option (List Char)}
    (h : strtok delim text = some (token, before, rest)) (hrest : token ≠ none → nul ∈ rest) :
    nul ∈ text := by
  unfold strtok at h
  have hdrop : ∀ c ∈ text.dropWhile (· = delim), c ∈ text := fun c => (List.dropWhile_sublist _).mem
  split at h
  · cases h
  next c cs hbody =>
    rw [hbody] at hdrop
    split_ifs at h with hc
    · exact hc ▸ hdrop c List.mem_cons_self
    · dsimp only at h
      split at h
      · cases h
      next d rest' hbehind =>
        have hmem : ∀ x ∈ d :: rest', x ∈ text :=
          fun x hx => hdrop x ((List.drop_sublist _ _).mem (hbehind ▸ hx))
        split_ifs at h with hd
        · exact hd ▸ hmem d List.mem_cons_self
        · cases h
          exact hmem nul (List.mem_cons_of_mem d (hrest (Option.some_ne_none _)))

theorem strtokAll_nul {text after : List Char} {tokens : List (List Char)}
    (h : strtokAll delim n text = some (tokens, after)) : nul ∈ text := by
  induction n generalizing text tokens after with
  | zero => cases h
  | succ n ih =>
    cases hs : strtok delim text with
    | none => simp [strtokAll, hs] at h
    | some r =>
      obtain ⟨token, before, rest⟩ := r
      refine strtok_nul hs fun hne => ?_
      obtain ⟨token, rfl⟩ := Option.ne_none_iff_exists'.1 hne
      simp only [strtokAll, hs, Option.bind_eq_bind, Option.bind_some] at h
      obtain ⟨⟨tokens', after'⟩, hrest, -⟩ := Option.bind_eq_some_iff.1 h
      exact ih hrest

variable {E : Environ} {i : ℕ} {v : List Char} {env cs : List (List Char)}

/-- The array `paths` holds the parts of the string that is searched. -/
theorem start_paths (hfound : getenv E.entries pathvar = some i) (h : start E = some (paths, env)) :
    paths = parts ':' (E.searched i) := by
  simp only [start, hfound, Option.bind_eq_bind, Option.bind_some] at h
  obtain ⟨⟨paths', after⟩, htok, heq⟩ := Option.bind_eq_some_iff.1 h
  obtain ⟨rfl, -⟩ := Prod.mk.inj (Option.some.inj heq)
  obtain ⟨u, rest, hu, hno⟩ := List.eq_append_cons_of_mem (strtokAll_nul htok)
  rw [hu] at htok
  rw [strtokAll_tokens (by decide) hno htok, Environ.searched, cstring, hu, takeWhile_nul hno]

/-- Behind the start of a value of at least `strlen("PATH")` characters the rest of it is searched. -/
theorem searched_eq (hp : E.HasPath i v) (hlen : pathvar.length ≤ v.length) :
    E.searched i = v.drop pathvar.length := by
  obtain ⟨rest, hrest⟩ := Environ.drop_offset hp.entry
  have hpre : pathvar.length + 1 = (pathvar ++ ['=']).length := rfl
  have hno : nul ∉ v.drop pathvar.length := fun h => hp.no_nul (List.mem_of_mem_drop h)
  rw [Environ.searched, cstring, Nat.add_assoc, ← List.drop_drop, hrest, hpre, List.append_assoc,
    List.drop_length_add_append, List.drop_append_of_le_length hlen, takeWhile_nul hno]

theorem nul_not_mem_searched (E : Environ) (i : ℕ) : nul ∉ E.searched i := by
  intro h
  have := List.mem_takeWhile_imp h
  simp at this

theorem mem_of_mem_parts {c : Char} {part : List Char} (hpart : part ∈ parts delim u)
    (hc : c ∈ part) : c ∈ u := by
  have hsplit : ∀ u : List Char, ∀ part ∈ u.splitOnP (· = delim), ∀ c ∈ part, c ∈ u := by
    intro u
    induction u with
    | nil => simp
    | cons x u ih =>
      intro part hpart c hc
      rw [List.splitOnP_cons_eq_if_modifyHead] at hpart
      obtain ⟨head, tail, heq⟩ := List.exists_cons_of_ne_nil (List.splitOnP_ne_nil (· = delim) u)
      rw [heq] at ih hpart
      split_ifs at hpart
      · rcases List.mem_cons.1 hpart with rfl | hpart
        · cases hc
        · exact List.mem_cons_of_mem _ (ih part hpart c hc)
      · rcases List.mem_cons.1 hpart with rfl | hpart
        · rcases List.mem_cons.1 hc with rfl | hc
          · exact List.mem_cons_self
          · exact List.mem_cons_of_mem _ (ih head List.mem_cons_self c hc)
        · exact List.mem_cons_of_mem _ (ih part (List.mem_cons_of_mem _ hpart) c hc)
  exact hsplit u part (List.mem_of_mem_filter hpart) c hc

/-- The parts with one delimiter between them are no longer than the string. -/
theorem length_intercalate_parts (delim : Char) (u : List Char) :
    ([delim].intercalate (parts delim u)).length ≤ u.length := by
  obtain ⟨k, hk⟩ : ∃ k, u.length ≤ k := ⟨_, le_rfl⟩
  induction k generalizing u with
  | zero =>
    rw [List.length_eq_zero_iff.1 (Nat.le_zero.1 hk)]
    exact Nat.zero_le _
  | succ k ih =>
    obtain ⟨skip, hskip, rfl | ⟨token, hne, hno, rfl | ⟨u', rfl⟩⟩⟩ := exists_token delim u
    · rw [parts_eq_nil_iff.2 hskip]
      exact Nat.zero_le _
    · rw [parts_skip hskip, parts_token hne hno]
      simp
    · have hrest := ih u' (by simp at hk; omega)
      rw [parts_skip hskip, parts_token_delim hne hno]
      cases hparts : parts delim u' with
      | nil => simp; omega
      | cons part rest =>
        rw [hparts] at hrest
        rw [List.intercalate_cons_cons]
        simp at hrest ⊢
        omega

/-! ## The lookup -/

theorem strncpy_length {buf' : List Char} (h : strncpy buf off src n = some buf') :
    off + n ≤ buf.length ∧ buf'.length = buf.length := by
  unfold strncpy at h
  split_ifs at h with hle
  cases h
  refine ⟨hle, ?_⟩
  simp
  omega

theorem assemble_length {cmd' : List Char} (hrel : ¬ IsRelative word)
    (h : assemble cmd path word = some cmd') :
    path.length + word.length + 2 ≤ cmd.length ∧ cmd'.length = cmd.length := by
  rw [assemble, if_neg (mt isRelative_iff.1 hrel)] at h
  simp only [Option.bind_eq_bind, Option.bind_eq_some_iff] at h
  obtain ⟨cmd1, h1, cmd2, h2, cmd3, h3, h4⟩ := h
  have h1 := strncpy_length h1
  have h2 := strncpy_length h2
  have h3 := strncpy_length h3
  have h4 := strncpy_length h4
  omega

theorem childPass_isSome (hsys : NotFound sys) (npipes t : ℕ) (ppfd : ℕ × ℕ) (s : ℕ)
    (split : List (List Char)) (T : Fds) : (childPass sys npipes t ppfd s split T).isSome := by
  have hmap := congrArg Option.isSome (childPass_map sys npipes t ppfd s split T)
  rw [Option.isSome_map, Option.isSome_map] at hmap
  rw [hmap]
  exact openFiles_isSome hsys s split T

/-- If every `execve` fails, every path has gone through the buffer. -/
theorem fits_of_childExecs {l : List Call} (hsys : NotFound sys) (hrel : ¬ IsRelative word)
    (hcmd : cmd.length = inSz)
    (h : childExecs sys npipes t ppfd s paths cmd (word :: words) T = some l) :
    ∀ path ∈ paths, path.length + word.length + 2 ≤ inSz := by
  induction paths generalizing s cmd words T l with
  | nil => simp
  | cons path paths ih =>
    rw [childExecs] at h
    obtain ⟨cmd', hasm, h⟩ := Option.bind_eq_some_iff.1 h
    obtain ⟨hfit, hlen⟩ := assemble_length hrel hasm
    obtain ⟨⟨split', T'⟩, hpass⟩ := Option.isSome_iff_exists.1
      (childPass_isSome hsys npipes t ppfd s (word :: words) T)
    obtain ⟨words', rfl⟩ := childPass_head hpass
    simp only [hpass, hsys.execs, Bool.false_eq_true, if_false, Option.bind_eq_bind] at h
    split_ifs at h
    obtain ⟨calls, hrest, -⟩ := Option.bind_eq_some_iff.1 h
    intro path' hp
    rcases List.mem_cons.1 hp with rfl | hp
    · omega
    · exact ih (hlen.trans hcmd) hrest path' hp

theorem notFound_noCommand : NotFound noCommand := ⟨fun _ _ _ => rfl, fun _ _ _ => rfl⟩

theorem not_isRelative (h : '/' ∉ word) : ¬ IsRelative word := by
  rintro (hdir | hdir)
  · exact h ((List.isPrefixOf_iff_prefix.1 hdir).subset (by simp [thisdir]))
  · exact h ((List.isPrefixOf_iff_prefix.1 hdir).subset (by simp [updir]))

variable {words : List (List Char)}

/-- A system without the command shows all paths. -/
theorem cmds_noCommand (hrel : ¬ IsRelative word) (hcmd : cmd.length = inSz)
    (hword : word.length + 1 ≤ inSz) (hnul : nul ∉ word) (hpaths : ∀ path ∈ paths, nul ∉ path)
    {l : List Call}
    (hl : childExecs noCommand npipes t ppfd 0 paths cmd (word :: words) T = some l) :
    l.map Call.cmd = paths.map (· ++ '/' :: word) := by
  have hcmds : ∀ path, commandPath path word = path ++ '/' :: word :=
    commandPath_of_not_relative hrel
  have hfits := fits_of_childExecs notFound_noCommand hrel hcmd hl
  rw [childExecs_eq hcmd hword hnul hpaths fun _ => hfits] at hl
  rw [← Option.some.inj hl,
    (childCalls_cmd noCommand npipes t ppfd paths 0 word words T).2 notFound_noCommand]
  simp only [hcmds]

/-- A word that starts with `./` or `../` is tried as it is. -/
theorem looksUp_of_relative (hrel : IsRelative word) (hcmd : cmd.length = inSz)
    (hword : word.length + 1 ≤ inSz) (hnul : nul ∉ word) (hpaths : ∀ path ∈ paths, nul ∉ path) :
    LooksUp (fun sys => childExecs sys npipes t ppfd 0 paths cmd (word :: words) T) cs word ↔
      paths ≠ [] := by
  have hslash : '/' ∈ word := by
    by_contra h
    exact not_isRelative h hrel
  have hexecs : ∀ sys, childExecs sys npipes t ppfd 0 paths cmd (word :: words) T =
      some (childCalls sys npipes t ppfd 0 paths (word :: words) T) := fun sys =>
    childExecs_eq hcmd hword hnul hpaths fun h => absurd hrel h
  simp only [LooksUp, if_pos hslash, hexecs, Option.some.injEq, exists_eq_left']
  constructor
  · intro h
    rintro rfl
    exact (h noCommand).2 notFound_noCommand rfl
  · intro hne sys
    obtain ⟨hpre, heq⟩ := childCalls_cmd sys npipes t ppfd paths 0 word words T
    constructor
    · intro call hcall
      obtain ⟨path, -, hpath⟩ := List.mem_map.1 (hpre.subset (List.mem_map_of_mem hcall))
      rw [← hpath, commandPath_of_relative hrel]
    · intro hsys hnil
      have h := heq hsys
      rw [hnil, List.map_nil, eq_comm, List.map_eq_nil_iff] at h
      exact hne h

/-- Any other word with a `/` is appended to the paths. -/
theorem not_looksUp_of_slash (hrel : ¬ IsRelative word) (hslash : '/' ∈ word)
    (hcmd : cmd.length = inSz) (hword : word.length + 1 ≤ inSz) (hnul : nul ∉ word)
    (hpaths : ∀ path ∈ paths, nul ∉ path) :
    ¬ LooksUp (fun sys => childExecs sys npipes t ppfd 0 paths cmd (word :: words) T) cs word := by
  simp only [LooksUp, if_pos hslash]
  intro h
  obtain ⟨l, hl, hword', hne⟩ := h noCommand
  have hmap := cmds_noCommand hrel hcmd hword hnul hpaths hl
  cases l with
  | nil => exact hne notFound_noCommand rfl
  | cons call l =>
    cases paths with
    | nil => cases hmap
    | cons path paths =>
      have hcall : call.cmd = path ++ '/' :: word := (List.cons.inj hmap).1
      rw [hword' call List.mem_cons_self] at hcall
      have := congrArg List.length hcall
      simp at this
      omega

/-- A word without `/` is tried in every component. -/
theorem looksUp_of_no_slash (hslash : '/' ∉ word) (hcmd : cmd.length = inSz)
    (hword : word.length + 1 ≤ inSz) (hnul : nul ∉ word) (hpaths : ∀ path ∈ paths, nul ∉ path)
    (hfit : ∀ c ∈ cs, c.length + word.length + 2 ≤ inSz) :
    LooksUp (fun sys => childExecs sys npipes t ppfd 0 paths cmd (word :: words) T) cs word ↔
      paths = cs := by
  have hrel := not_isRelative hslash
  have hcmds : ∀ path, commandPath path word = path ++ '/' :: word :=
    commandPath_of_not_relative hrel
  simp only [LooksUp, if_neg hslash]
  constructor
  · intro h
    obtain ⟨l, hl, -, heq⟩ := h noCommand
    have hmap := cmds_noCommand hrel hcmd hword hnul hpaths hl
    exact List.map_injective_iff.2 (fun a b hab => List.append_cancel_right hab)
      (hmap.symm.trans (heq notFound_noCommand))
  · rintro rfl sys
    rw [childExecs_eq hcmd hword hnul hpaths fun _ => hfit]
    obtain ⟨hpre, heq⟩ := childCalls_cmd sys npipes t ppfd paths 0 word words T
    simp only [hcmds] at hpre heq
    exact ⟨_, rfl, hpre, heq⟩

/-- What a child with the buffer does, where `paths` is the array that `main` has filled. -/
theorem looksUp_childExecs_iff (hcmd : cmd.length = inSz) (hword : word.length + 1 ≤ inSz)
    (hnul : nul ∉ word) (hpaths : ∀ path ∈ paths, nul ∉ path)
    (hfit : ∀ c ∈ cs, c.length + word.length + 2 ≤ inSz) :
    LooksUp (fun sys => childExecs sys npipes t ppfd 0 paths cmd (word :: words) T) cs word ↔
      if '/' ∈ word then IsRelative word ∧ paths ≠ [] else paths = cs := by
  by_cases hslash : '/' ∈ word
  · rw [if_pos hslash]
    by_cases hrel : IsRelative word
    · rw [looksUp_of_relative hrel hcmd hword hnul hpaths, and_iff_right hrel]
    · exact iff_of_false (not_looksUp_of_slash hrel hslash hcmd hword hnul hpaths)
        fun h => hrel h.1
  · rw [if_neg hslash]
    exact looksUp_of_no_slash hslash hcmd hword hnul hpaths hfit

/-- A child looks a command up as `PATH` says if and only if a word without `/` is looked up in the
components of the part of the value that is searched, and those are all components, or a word with `/`
starts with `./` or `../` and that part has a component at all. The first is never the case for a
value of at least `strlen("PATH")` characters. -/
theorem looksUp_iff (hp : E.HasPath i v) (hstart : start E = some (paths, env))
    (hcs : v = [':'].intercalate cs) (hcmd : cmd.length = inSz) (hword : word.length + 1 ≤ inSz)
    (hnul : nul ∉ word) (hfit : ∀ c ∈ cs, c.length + word.length + 2 ≤ inSz) :
    (LooksUp (fun sys => childExecs sys npipes t ppfd 0 paths cmd (word :: words) T) cs word ↔
      if '/' ∈ word then IsRelative word ∧ ∃ c ∈ E.searched i, c ≠ ':'
      else parts ':' (E.searched i) = cs) ∧
    (pathvar.length ≤ v.length → parts ':' (E.searched i) ≠ cs) := by
  have hpaths := start_paths hp.found hstart
  constructor
  · have hnonul : ∀ path ∈ paths, nul ∉ path := by
      intro path hpath hmem
      rw [hpaths] at hpath
      exact nul_not_mem_searched E i (mem_of_mem_parts hpath hmem)
    have hne : paths ≠ [] ↔ ∃ c ∈ E.searched i, c ≠ ':' := by
      rw [hpaths, ne_eq, parts_eq_nil_iff]
      push Not
      rfl
    rw [looksUp_childExecs_iff hcmd hword hnul hnonul hfit, hne, hpaths]
  · intro hlen heq
    have hle := length_intercalate_parts ':' (E.searched i)
    rw [heq, ← hcs, searched_eq hp hlen, List.length_drop] at hle
    have : pathvar.length = 4 := rfl
    omega

/-- `PATH=/usr/bin`. -/
def usrBin : Environ :=
  ⟨[pathvar ++ ['=', '/', 'u', 's', 'r', '/', 'b', 'i', 'n']], [], by decide⟩

theorem start_usrBin : start usrBin = some ([['/', 'b', 'i', 'n']], usrBin.entries) := by decide

/-- The program `./a`. -/
theorem looksUp_iff_usrBin :
    let cs := [['/', 'u', 's', 'r', '/', 'b', 'i', 'n']]
    (LooksUp (fun sys => childExecs sys 1 0 (0, 0) 0 [['/', 'b', 'i', 'n']]
        (List.replicate inSz 'x') [['.', '/', 'a']] ⟨[]⟩) cs ['.', '/', 'a'] ↔
      if '/' ∈ ['.', '/', 'a'] then IsRelative ['.', '/', 'a'] ∧ ∃ c ∈ usrBin.searched 0, c ≠ ':'
      else parts ':' (usrBin.searched 0) = cs) ∧
    (pathvar.length ≤ 8 → parts ':' (usrBin.searched 0) ≠ cs) :=
  looksUp_iff (v := ['/', 'u', 's', 'r', '/', 'b', 'i', 'n']) ⟨by decide, rfl⟩ start_usrBin (by decide)
    List.length_replicate (by decide) (by decide) (by decide)

/-- With `PATH=/usr/bin` the command `ls` is looked for in `/bin`. -/
theorem not_looksUp_usrBin :
    start usrBin = some ([['/', 'b', 'i', 'n']], usrBin.entries) ∧
      ¬ LooksUp (fun sys => childExecs sys 1 0 (0, 0) 0 [['/', 'b', 'i', 'n']]
        (List.replicate inSz 'x') [['l', 's']] ⟨[]⟩) [['/', 'u', 's', 'r', '/', 'b', 'i', 'n']]
        ['l', 's'] := by
  refine ⟨start_usrBin, ?_⟩
  rw [looksUp_childExecs_iff List.length_replicate (by decide) (by decide) (by decide) (by decide),
    if_neg (by decide)]
  decide

end Sem3.Shell
