import Sem3.Shell.Proofs.MainProofs
import Sem3.Shell.Proofs.PlainProofs
import Mathlib.Data.List.TakeWhile

/-!
# Proofs: the arguments of a quoted line

The parser gives back the words that stand between single quotes. What follows it works on plain
strings: the wildcards, the pipe signs and the redirections are found in these words as well.
-/

namespace Sem3.Shell

variable {s : Session} {a : Answers} {w v : List Char} {ws split : List (List Char)}
  {glob : List Char → List (List Char)} {final : Mode → Bool}

/-! ## The line -/

/-- The rest of a line behind the closing quote of a word. -/
def quoteTail (ws : List (List Char)) : List Char := if ws = [] then [] else ' ' :: quoteLine ws

theorem quoteLine_cons (w : List Char) (ws : List (List Char)) :
    quoteLine (w :: ws) = '\'' :: (w ++ '\'' :: quoteTail ws) := by
  cases ws with
  | nil => simp [quoteLine, quoteTail]
  | cons w' ws => simp [quoteLine, quoteTail, List.intercalate]

theorem mem_quoteLine {c : Char} (h : c ∈ quoteLine ws) : c = '\'' ∨ c = ' ' ∨ ∃ w ∈ ws, c ∈ w := by
  induction ws with
  | nil => cases h
  | cons w ws ih =>
    rw [quoteLine_cons, List.mem_cons, List.mem_append, List.mem_cons] at h
    rcases h with h | h | h | h
    · exact .inl h
    · exact .inr (.inr ⟨w, List.mem_cons_self, h⟩)
    · exact .inl h
    · unfold quoteTail at h
      split_ifs at h
      · cases h
      · rcases List.mem_cons.1 h with h | h
        · exact .inr (.inl h)
        · rcases ih h with h | h | ⟨w', hw', h⟩
          · exact .inl h
          · exact .inr (.inl h)
          · exact .inr (.inr ⟨w', List.mem_cons_of_mem _ hw', h⟩)

theorem mem_quoteLine_of_mem {c : Char} (hw : w ∈ ws) (hc : c ∈ w) : c ∈ quoteLine ws := by
  induction ws with
  | nil => cases hw
  | cons w' ws ih =>
    rw [quoteLine_cons, List.mem_cons, List.mem_append, List.mem_cons]
    rcases List.mem_cons.1 hw with rfl | hw
    · exact .inr (.inl hc)
    · refine .inr (.inr (.inr ?_))
      rw [quoteTail, if_neg (List.ne_nil_of_mem hw)]
      exact List.mem_cons_of_mem _ (ih hw)

/-- `fgets` reads a line that fits into the buffer with its newline. -/
theorem fgets_eq_self_iff {line : List Char} {n : ℕ} :
    fgets n (line ++ ['\n']) = (line ++ ['\n'], []) ↔ line.length + 2 ≤ n ∧ '\n' ∉ line := by
  induction line generalizing n with
  | nil =>
    rcases n with _ | _ | n <;> simp [fgets]
  | cons c line ih =>
    rcases n with _ | _ | n
    · simp [fgets]
    · simp [fgets]
    by_cases hc : c = '\n'
    · simp [fgets, hc]
    · have heq : fgets (n + 2) (c :: line ++ ['\n']) =
          (c :: (fgets (n + 1) (line ++ ['\n'])).1, (fgets (n + 1) (line ++ ['\n'])).2) := by
        simp [fgets, hc]
      have hiff := ih (n := n + 1)
      rw [heq, List.mem_cons, List.length_cons]
      constructor
      · intro h
        obtain ⟨h1, h2⟩ := Prod.mk.inj h
        obtain ⟨hlen, hmem⟩ := hiff.1 (Prod.ext (List.cons.inj h1).2 h2)
        exact ⟨by omega, by simp [Ne.symm hc, hmem]⟩
      · rintro ⟨hlen, hmem⟩
        rw [hiff.2 ⟨by omega, fun h => hmem (.inr h)⟩]
        rfl

theorem chomp_line {line : List Char} (h : nul ∉ line) : chomp (line ++ ['\n']) = line := by
  have htake : (line ++ ['\n']).takeWhile (· ≠ nul) = line ++ ['\n'] := by
    rw [List.takeWhile_eq_self_iff]
    intro c hc
    rw [List.mem_append, List.mem_singleton] at hc
    rcases hc with hc | rfl
    · simpa using ne_of_mem_of_not_mem hc h
    · decide
  unfold chomp
  rw [htake]
  simp

/-! ## The parser -/

/-- A word between single quotes is read as it is. -/
theorem readWords_quoted (hw : ∀ c ∈ w, c ≠ '\'' ∧ c ≠ '\\') (t v : List Char) :
    readWords final (w ++ '\'' :: t) (.inside (some '\'')) v =
      readWords final t (.inside none) (v ++ w) := by
  induction w generalizing v with
  | nil =>
    rw [List.append_nil]
    exact readWords_close
  | cons c w ih =>
    obtain ⟨hq, hb⟩ := hw c List.mem_cons_self
    rw [List.cons_append, readWords_section hq hb, ih fun d hd => hw d (List.mem_cons_of_mem _ hd),
      List.append_assoc]
    rfl

theorem readWords_quoteLine (hf : final .white = false) (hi : final (.inside none) = true)
    (h : ∀ w ∈ ws, ∀ c ∈ w, c ≠ '\'' ∧ c ≠ '\\') :
    readWords final (quoteLine ws) .white [] = ws := by
  induction ws with
  | nil =>
    show readWords final [] .white [] = []
    rw [readWords_nil, hf]
    rfl
  | cons w ws ih =>
    have hrest := ih fun w' hw' => h w' (List.mem_cons_of_mem _ hw')
    rw [quoteLine_cons, readWords_white_quote (.inr rfl), readWords_quoted (h w List.mem_cons_self),
      List.nil_append]
    unfold quoteTail
    split_ifs with hn
    · rw [readWords_nil, hi, hn]
      rfl
    · rw [readWords_space, readWords_white hf, hrest]

theorem quoteLine_plain (hne : ws ≠ []) (h : ∀ w ∈ ws, Plainly w) :
    (Config.init (quoteLine ws) []).Plain := by
  have hchar : ∀ c ∈ quoteLine ws, c ≠ '\\' ∧ c ≠ '$' ∧ c ≠ nul := by
    intro c hc
    rcases mem_quoteLine hc with rfl | rfl | ⟨w, hw, hc⟩
    · decide
    · decide
    · exact ((h w hw).2 c hc).2
  refine .init (fun hmem => (hchar _ hmem).2.2 rfl)
    (escapes_of_forall fun c hc => ⟨(hchar c hc).1, (hchar c hc).2.1⟩) ?_
  obtain ⟨w, ws, rfl⟩ := List.exists_cons_of_ne_nil hne
  rw [quoteLine_cons]
  show '\'' ≠ '\t'
  decide

theorem length_le_quoteLine (hw : w ∈ ws) : w.length + 2 ≤ (quoteLine ws).length := by
  induction ws with
  | nil => cases hw
  | cons w' ws ih =>
    rw [quoteLine_cons]
    rcases List.mem_cons.1 hw with rfl | hw
    · simp
    · have := ih hw
      simp [quoteTail, List.ne_nil_of_mem hw]
      omega

/-- `parse` gives back the words of a line that fits. -/
theorem parse_quoteLine (before : ℕ → ℕ → ℕ) (env : List (List Char)) (hne : ws ≠ [])
    (h : ∀ w ∈ ws, Plainly w) (hlen : (quoteLine ws).length + 2 ≤ inSz) :
    parse before env (quoteLine ws) [] = some (.returned ws) := by
  have hread : ∀ f : Mode → Bool, f .white = false → f (.inside none) = true →
      readWords f (quoteLine ws) .white [] = ws := fun f hf hi =>
    readWords_quoteLine hf hi fun w hw c hc =>
      ⟨fun heq => ((h w hw).2 c hc).1 (.inr heq), ((h w hw).2 c hc).2.1⟩
  rw [parse_of_fits (quoteLine_plain hne h), hread _ rfl rfl, List.nil_append]
  rw [hread _ rfl rfl]
  intro w hw
  have := length_le_quoteLine hw
  have hsz : inSz = maxArgSz := rfl
  omega

/-! ## What follows the parser -/

/-- `wildcard` leaves the words alone if and only if nothing else matches them. -/
theorem wildcard_eq_self_iff : wildcard glob ws = ws ↔ ∀ w ∈ ws, Unmatched glob w := by
  have hpos : ∀ w, (if (glob w).length = 0 then [w] else glob w).length ≥ 1 := by
    intro w
    split_ifs with h
    · exact le_rfl
    · exact Nat.pos_of_ne_zero h
  have hself : ∀ w, (if (glob w).length = 0 then [w] else glob w) = [w] ↔ Unmatched glob w := by
    intro w
    by_cases h : glob w = [] <;> simp [Unmatched, h]
  have hlen : ∀ ws : List (List Char), ws.length ≤ (wildcard glob ws).length := by
    intro ws
    induction ws with
    | nil => exact Nat.zero_le _
    | cons w ws ih =>
      have := hpos w
      simp only [wildcard, List.flatMap_cons, List.length_append, List.length_cons] at ih ⊢
      omega
  induction ws with
  | nil => simp [wildcard]
  | cons w ws ih =>
    have hcons : wildcard glob (w :: ws) =
        (if (glob w).length = 0 then [w] else glob w) ++ wildcard glob ws := rfl
    rw [List.forall_mem_cons, ← hself w, hcons]
    constructor
    · intro h
      -- the other words are replaced by at least as many, so this one by one
      have hone : (if (glob w).length = 0 then [w] else glob w).length = [w].length := by
        have := congrArg List.length h
        have := hpos w
        have := hlen ws
        simp only [List.length_append, List.length_cons, List.length_nil] at *
        omega
      have hsplit : (if (glob w).length = 0 then [w] else glob w) ++ wildcard glob ws =
          [w] ++ ws := h
      obtain ⟨hw, hws⟩ := List.append_inj hsplit hone
      exact ⟨hw, ih.1 hws⟩
    · rintro ⟨hw, hws⟩
      rw [hw, ih.2 hws]
      rfl

/-- There is one stage if and only if no word is a pipe sign. -/
theorem pipesplit_eq_singleton_iff {stage : List (List Char)} :
    pipesplit split = [stage] ↔ stage = split ∧ ∀ w ∈ split, startsWith w piped = false := by
  constructor
  · intro h
    have hno : ∀ w ∈ split, startsWith w piped = false := by
      unfold pipesplit at h
      induction split generalizing stage with
      | nil => exact fun w hw => absurd hw List.not_mem_nil
      | cons w ws ih =>
        rw [List.splitOnP_cons_eq_if_modifyHead] at h
        split_ifs at h with hw
        · exact absurd (List.cons.inj h).2 (List.splitOnP_ne_nil _ _)
        · obtain ⟨stage', stages, hstages⟩ :=
            List.exists_cons_of_ne_nil (List.splitOnP_ne_nil (fun w => startsWith w piped) ws)
          rw [hstages] at h
          obtain ⟨-, rfl⟩ := List.cons.inj h
          rw [List.forall_mem_cons]
          exact ⟨Bool.not_eq_true _ ▸ hw, ih hstages⟩
    rw [pipesplit, List.splitOnP_eq_singleton hno] at h
    exact ⟨(List.cons.inj h).1.symm, hno⟩
  · rintro ⟨rfl, hno⟩
    exact List.splitOnP_eq_singleton hno

/-- There is no redirection if and only if the last word but one is no sign. -/
theorem redirections_eq_none_iff : redirections split = (none, none) ↔ Undirected split := by
  simp only [redirections, Undirected]
  generalize split.getD (split.length - 2) [] = w
  by_cases h3 : split.length ≥ 3
  · cases hout : startsWith w outof
    · cases hin : startsWith w into <;> simp [h3]
    · simp [h3]
  · have h5 : ¬ split.length ≥ 5 := by omega
    simp [h3, h5]

/-- Without a redirection `redirect` changes nothing. -/
theorem redirect_of_none (sys : System) (n : ℕ) (T : Fds) (h : redirections split = (none, none)) :
    redirect sys n split T (-1) (-1) = some (split, T) := by
  simp [redirect, openFiles, h]

/-- The child is called with the words and the descriptors of the shell. -/
theorem childCalls_of_none (sys : System) (T : Fds) (paths : List (List Char))
    (h : redirections split = (none, none)) (n : ℕ) :
    ∀ call ∈ childCalls sys 1 0 (0, 0) n paths split T, call.argv = split ∧ call.fds = T := by
  induction paths generalizing n with
  | nil => exact fun call hcall => absurd hcall List.not_mem_nil
  | cons path paths ih =>
    intro call hcall
    cases hsplit : split with
    | nil =>
      rw [hsplit] at hcall
      cases hcall
    | cons w ws =>
      have hpass : childPass sys 1 0 (0, 0) n (w :: ws) T = some (w :: ws, T) :=
        hsplit ▸ redirect_of_none sys n T h
      rw [hsplit, childCalls, hpass] at hcall
      simp only [List.mem_cons] at hcall
      rcases hcall with rfl | hcall
      · exact ⟨rfl, rfl⟩
      · split_ifs at hcall
        · cases hcall
        · exact hsplit ▸ ih (n + 1) call (hsplit ▸ hcall)

theorem childCalls_ne_nil (sys : System) (T : Fds) {paths : List (List Char)} (hpaths : paths ≠ [])
    (h : redirections (w :: ws) = (none, none)) :
    childCalls sys 1 0 (0, 0) 0 paths (w :: ws) T ≠ [] := by
  obtain ⟨path, paths, rfl⟩ := List.exists_cons_of_ne_nil hpaths
  have hpass : childPass sys 1 0 (0, 0) 0 (w :: ws) T = some (w :: ws, T) :=
    redirect_of_none sys 0 T h
  rw [childCalls, hpass]
  exact List.cons_ne_nil _ _

/-! ## The line as a whole -/

/-- The state in which the words of the line are run. -/
def Session.parsed (s : Session) (line : List Char) : Session :=
  { s with events := s.events ++ [.parse line s.env], stale := false }

theorem step_quoteLine (hs : s.phase = .prompt) (hplain : ∀ x ∈ w :: ws, Plainly x)
    (hlen : (quoteLine (w :: ws)).length + 2 ≤ inSz) :
    s.step (.line a (quoteLine (w :: ws) ++ ['\n'])) =
      if s.stale ∧ ¬ a.freed then none
      else if startsWith ((wildcard a.glob (w :: ws)).headD []) exitCmd then none
      else (s.parsed (quoteLine (w :: ws))).runWords a (wildcard a.glob (w :: ws)) := by
  have hnul : nul ∉ quoteLine (w :: ws) :=
    (quoteLine_plain (List.cons_ne_nil _ _) hplain).no_nul
  have hparse := parse_quoteLine a.before s.env (List.cons_ne_nil w ws) hplain hlen
  simp only [Session.step, hs, Session.readLine, chomp_line hnul, hparse, Session.parsed]

theorem Prepares.of_fork {s' : Session} {stages : List (List (List Char))} {npipes : ℕ}
    {ppfd : ℕ × ℕ} {stage : List (List Char)} (h : Prepares s a stages s') (hs : s.phase = .prompt)
    (hphase : s'.phase = .fork npipes ppfd [(stage, 0)]) :
    stages = [stage] := by
  cases h with
  | refused =>
    rw [hs] at hphase
    cases hphase
  | cd =>
    rw [show _ = Phase.prompt from hs] at hphase
    cases hphase
  | @fork word args stages =>
    have hzip : ((word :: args) :: stages).zipIdx = [(stage, 0)] := (Phase.fork.inj hphase).2.2
    simp only [List.zipIdx_cons, List.cons.injEq, Prod.mk.injEq, List.zipIdx_eq_nil_iff] at hzip
    rw [hzip.1.1, hzip.2]

/-- A command without a pipe that is none of the builtins is forked once. -/
theorem step_of_unpiped (hs : s.phase = .prompt) (hw : IsCommand w)
    (hplain : ∀ x ∈ w :: ws, Plainly x) (hlen : (quoteLine (w :: ws)).length + 2 ≤ inSz)
    (hstale : s.stale → a.freed) (hwild : wildcard a.glob (w :: ws) = w :: ws)
    (hstages : pipesplit (w :: ws) = [w :: ws]) :
    s.step (.line a (quoteLine (w :: ws) ++ ['\n'])) =
      some { s.parsed (quoteLine (w :: ws)) with phase := .fork 1 (0, 0) [(w :: ws, 0)] } := by
  have hnot : ¬ (s.stale ∧ ¬ a.freed) := fun h => h.2 (hstale h.1)
  have hexit : ¬ startsWith w exitCmd := by
    rw [hw.2]
    exact Bool.false_ne_true
  rw [step_quoteLine hs hplain hlen, hwild, if_neg hnot, List.headD_cons, if_neg hexit, runWords_eq,
    hstages]
  simp [hw.1, pipeFds, pipeEnds]

/-- The words between single quotes are the arguments of the one command that is run if and only if
the line fits into the buffer, has no newline, and none of the words is a pattern that matches other
names, begins with a pipe sign, or stands where a redirection is looked for and begins with its sign;
there has to be an entry of `PATH`, and the shell has to survive the second `free` behind a blank
line. -/
theorem runsAs_quoteLine_iff (hs : s.phase = .prompt) (hw : IsCommand w)
    (hplain : ∀ x ∈ w :: ws, Plainly x) :
    RunsAs s a (quoteLine (w :: ws) ++ ['\n']) (w :: ws) ↔
      (quoteLine (w :: ws)).length + 2 ≤ inSz ∧ s.paths ≠ [] ∧ (s.stale → a.freed) ∧
        (∀ x ∈ w :: ws, '\n' ∉ x ∧ Unmatched a.glob x ∧ startsWith x piped = false) ∧
        Undirected (w :: ws) := by
  constructor
  · rintro ⟨hfgets, s', stage, hstep, hphase, hnone, hcalls, hargv⟩
    obtain ⟨hlen, hnl⟩ := fgets_eq_self_iff.1 hfgets
    rw [step_quoteLine hs hplain hlen] at hstep
    split_ifs at hstep with hstale
    obtain ⟨rfl, hpiped⟩ := pipesplit_eq_singleton_iff.1 ((prepares hstep).of_fork hs hphase)
    have hwild : wildcard a.glob (w :: ws) = w :: ws := by
      obtain ⟨call, hcall⟩ := List.exists_mem_of_ne_nil _ hcalls
      rw [← (childCalls_of_none a.sys s'.fds s.paths hnone 0 call hcall).1, (hargv call hcall).1]
    rw [hwild] at hpiped hnone
    refine ⟨hlen, ?_, ?_, ?_, redirections_eq_none_iff.1 hnone⟩
    · intro hnil
      rw [hnil] at hcalls
      exact hcalls rfl
    · intro hst
      by_contra hno
      exact hstale ⟨hst, hno⟩
    · intro x hx
      refine ⟨?_, wildcard_eq_self_iff.1 hwild x hx, hpiped x hx⟩
      intro hmem
      exact hnl (mem_quoteLine_of_mem hx hmem)
  · rintro ⟨hlen, hpaths, hfreed, hwords, hundir⟩
    have hnl : '\n' ∉ quoteLine (w :: ws) := by
      intro hmem
      rcases mem_quoteLine hmem with h | h | ⟨x, hx, h⟩
      · exact absurd h (by decide)
      · exact absurd h (by decide)
      · exact (hwords x hx).1 h
    have hwild : wildcard a.glob (w :: ws) = w :: ws :=
      wildcard_eq_self_iff.2 fun x hx => (hwords x hx).2.1
    have hstages : pipesplit (w :: ws) = [w :: ws] :=
      pipesplit_eq_singleton_iff.2 ⟨rfl, fun x hx => (hwords x hx).2.2⟩
    have hnone := redirections_eq_none_iff.2 hundir
    refine ⟨fgets_eq_self_iff.2 ⟨hlen, hnl⟩,
      { s.parsed (quoteLine (w :: ws)) with phase := .fork 1 (0, 0) [(w :: ws, 0)] }, w :: ws,
      step_of_unpiped hs hw hplain hlen hfreed hwild hstages, rfl, hnone,
      childCalls_ne_nil a.sys s.fds hpaths hnone, childCalls_of_none a.sys s.fds s.paths hnone 0⟩

/-- `ls -l` with both words between single quotes. -/
theorem runsAs_quoteLine_iff_ls :
    let answers : Answers := ⟨⟨true, fun _ _ _ => true, fun _ _ _ => true⟩, fun _ => [],
      fun _ _ => 0, fun _ => none, true⟩
    RunsAs (.init [['/']] [] ⟨[]⟩) answers (quoteLine [['l', 's'], ['-', 'l']] ++ ['\n'])
      [['l', 's'], ['-', 'l']] := by
  intro answers
  refine (runsAs_quoteLine_iff rfl (by decide) (by simp [Plainly, nul])).2
    ⟨by decide, List.cons_ne_nil _ _, fun _ => rfl, ?_, fun h => absurd h (by decide)⟩
  have hwords : ∀ x ∈ [['l', 's'], ['-', 'l']], '\n' ∉ x ∧ startsWith x piped = false := by decide
  exact fun x hx => ⟨(hwords x hx).1, .inl rfl, (hwords x hx).2⟩

/-- In a directory with the files `a` and `b`, the words `echo` and `*` between single quotes make
the shell run `echo` with the names of the files. -/
theorem not_runsAs_quoteLine :
    let answers : Answers := ⟨⟨true, fun _ _ _ => true, fun _ _ _ => true⟩,
      fun word => if word = ['*'] then [['a'], ['b']] else [], fun _ _ => 0, fun _ => none, true⟩
    IsCommand ['e', 'c', 'h', 'o'] ∧ (∀ x ∈ [['e', 'c', 'h', 'o'], ['*']], Plainly x) ∧
      ¬ RunsAs (.init [['/']] [] ⟨[]⟩) answers
        (quoteLine [['e', 'c', 'h', 'o'], ['*']] ++ ['\n']) [['e', 'c', 'h', 'o'], ['*']] := by
  intro answers
  refine ⟨by decide, by simp [Plainly, nul], ?_⟩
  rintro ⟨-, s', stage, hstep, hphase, hnone, hcalls, hargv⟩
  have hfork : ∃ s', Session.step (.init [['/']] [] ⟨[]⟩)
      (.line answers (quoteLine [['e', 'c', 'h', 'o'], ['*']] ++ ['\n'])) = some s' ∧
      s'.phase = .fork 1 (0, 0) [([['e', 'c', 'h', 'o'], ['a'], ['b']], 0)] := ⟨_, rfl, rfl⟩
  obtain ⟨t, ht, hstages⟩ := hfork
  obtain rfl := Option.some.inj (hstep.symm.trans ht)
  have hstage : [(stage, 0)] = [([['e', 'c', 'h', 'o'], ['a'], ['b']], 0)] :=
    (Phase.fork.inj (hphase.symm.trans hstages)).2.2
  obtain ⟨call, hcall⟩ := List.exists_mem_of_ne_nil _ hcalls
  have hsplit := (childCalls_of_none answers.sys s'.fds _ hnone 0 call hcall).1
  rw [(hargv call hcall).1] at hsplit
  rw [← hsplit] at hstage
  exact absurd hstage (by decide)

end Sem3.Shell
