import Sem3.Shell.LineSpec
import Sem3.Shell.Proofs.ParserProofs

/-!
# Proofs: malformed lines

A pass of the machine takes some atoms off what is left of the line, and the machine only exits at a
`$` before a character that is not in a name (`exits_iff`). The end of the line is never an error.
-/

namespace Sem3.Shell

open Loop

variable {ch : Char} {s rest n : List Char}

/-! ## Atoms -/

@[simp] theorem atoms_nil : atoms [] .plain = [] := rfl

@[simp] theorem atoms_backslash : atoms ('\\' :: s) .plain = atoms s .backslash := rfl

@[simp] theorem atoms_dollar : atoms ('$' :: s) .plain = atoms s (.name []) := rfl

@[simp] theorem atoms_escaped : atoms (ch :: s) .backslash = .escaped ch :: atoms s .plain := rfl

theorem atoms_char (hb : ch ≠ '\\') (hd : ch ≠ '$') :
    atoms (ch :: s) .plain = .char ch :: atoms s .plain := by
  rw [atoms]
  simp only [hb, hd, if_false]

theorem atoms_quote (h : IsQuote ch) : atoms (ch :: s) .plain = .char ch :: atoms s .plain := by
  rcases h with rfl | rfl <;> rfl

theorem atoms_tail (h : IsQuote (peek s)) :
    atoms s .plain = .char (peek s) :: atoms s.tail .plain := by
  cases s with
  | nil => exact absurd h (by decide)
  | cons d s => exact atoms_quote h

/-- The atom that a `$` begins, and what stands behind it. -/
theorem atoms_name (s n : List Char) :
    atoms s (.name n) =
      (if n ++ s.takeWhile isNameChar = [] then if s = [] then .dollar else .bad
        else .var (n ++ s.takeWhile isNameChar)) :: atoms (s.dropWhile isNameChar) .plain := by
  induction s generalizing n with
  | nil =>
    by_cases hn : n = []
    · simp [atoms, hn]
    · simp [atoms, hn]
  | cons d s ih =>
    by_cases hd : isNameChar d = true
    · rw [atoms]
      simp only [hd, if_true, ih, List.takeWhile_cons, List.dropWhile_cons, List.append_assoc,
        List.singleton_append]
      simp
    · rw [atoms]
      simp only [hd, List.takeWhile_cons, List.dropWhile_cons]
      by_cases hn : n = []
      · simp [hn, atoms]
      · simp [hn, atoms]

/-- Text begins an atom, and if this is a character it is the first one of the text. -/
theorem atoms_head (ch : Char) (s : List Char) :
    ∃ a as, atoms (ch :: s) .plain = a :: as ∧ ∀ d, a = .char d → d = ch := by
  by_cases hb : ch = '\\'
  · rw [hb, atoms_backslash]
    cases s with
    | nil => exact ⟨_, _, rfl, by simp⟩
    | cons d s => exact ⟨_, _, rfl, by simp⟩
  by_cases hd : ch = '$'
  · rw [hd, atoms_dollar, atoms_name]
    refine ⟨_, _, rfl, fun d h => ?_⟩
    split_ifs at h
  · rw [atoms_char hb hd]
    exact ⟨_, _, rfl, fun d h => (Atom.char.inj h).symm⟩

/-! ## The states that the machine goes back to -/

variable {α : Type*} {lit : Char → α} {values : List Char → List (List α)} {c c' : Config α}

/-- The machine only goes back to a state inside of a word. -/
structure Config.Tidy (c : Config α) : Prop where
  good : c.Good
  no_nul : nul ∉ c.rest
  back : c.state = .var ∨ c.state = .escaped →
    c.laststate = .literal ∨ c.laststate = .squoted ∨ c.laststate = .dquoted

theorem Config.Tidy.init {line : List Char} (h : nul ∉ line) (l : List (List α)) :
    (Config.init line l).Tidy :=
  ⟨.init line l, h, by simp [Config.init]⟩

/-- What a pass with a name does: the name is read up to its end, and its values are copied. -/
structure Expands (values : List Char → List (List α)) (c c' : Config α) : Prop where
  name : c.rest.takeWhile isNameChar ≠ []
  rest : c'.rest = c.rest.dropWhile isNameChar
  arg : c'.arg = c.arg ++ (values (c.rest.takeWhile isNameChar)).flatten
  state : c'.state = c.laststate
  out : c'.out = if peek c'.rest = nul then c.out ++ [c'.arg] else c.out

theorem drop_takeWhile (p : Char → Bool) (s : List Char) :
    s.drop (s.takeWhile p).length = s.dropWhile p := by
  have h : (s.takeWhile p ++ s.dropWhile p).drop (s.takeWhile p).length = s.dropWhile p :=
    List.drop_left
  rwa [List.takeWhile_append_dropWhile] at h

theorem stepVar_expands (h : stepVar values c = .again c') : Expands values c c' := by
  unfold stepVar at h
  simp only [drop_takeWhile] at h
  split_ifs at h with h0 hpeek
  all_goals
    have hname : c.rest.takeWhile isNameChar ≠ [] := by simpa using h0
    rw [← Pass.again.inj h]
    exact ⟨hname, rfl, rfl, rfl, by simp [hpeek]⟩

/-- Behind an escaped character the word goes on. -/
theorem stepEscaped_state (lit : Char → α) (ch : Char) (rest : List Char) (hs : c.state = .escaped)
    (hb : c.Tidy) :
    (stepEscaped lit c ch rest).state = .literal ∨ (stepEscaped lit c ch rest).state = .squoted ∨
      (stepEscaped lit c ch rest).state = .dquoted := by
  have hlast := hb.back (Or.inr hs)
  unfold stepEscaped
  simp only
  split_ifs <;> simp [hlast]

theorem Config.Tidy.step (hb : c.Tidy) (h : step lit values c = .again c') : c'.Tidy := by
  refine ⟨(step_progress hb.good h).1, fun hn => hb.no_nul ((step_suffix h).subset hn), ?_⟩
  obtain ⟨ch, rest, -, -, h⟩ := step_again h
  unfold Config.Goes at h
  cases hs : c.state with
  | var =>
    rw [hs] at h
    rcases hb.back (Or.inl hs) with hl | hl | hl <;> simp [(stepVar_expands h).state, hl]
  | escaped =>
    rw [hs] at h
    subst h
    rcases stepEscaped_state lit ch rest hs hb with h | h | h <;>
      simp [h]
  | end_ =>
    rw [hs] at h
    exact h ▸ hb.back
  | start | literal | squoted | dquoted | white =>
    rw [hs] at h
    subst h
    simp only [stepStart, stepLiteral, stepQuoted, stepWhite]
    split_ifs <;> simp_all

/-! ## The atoms of a pass -/

/-- Where the text that is left starts. -/
def Config.behind (c : Config α) : Behind :=
  match c.state with
  | .escaped => .backslash
  | .var => .name []
  | _ => .plain

/-- The atoms that the machine has still to read. -/
def Config.atoms (c : Config α) : List Atom := Shell.atoms c.rest c.behind

/-- A pass takes atoms off the text, none of which is an error. -/
def Takes (c c' : Config α) : Prop := ∃ new, .bad ∉ new ∧ c.atoms = new ++ c'.atoms

/-- A pass that starts in front of an atom leaves the text as it is, or reads one character. -/
structure ReadsOne (c c' : Config α) (ch : Char) (rest : List Char) : Prop where
  behind : c.behind = .plain
  reads : c'.rest = c.rest ∧ c'.behind = .plain ∨
    c'.rest = rest ∧ c'.behind =
      if ch = '\\' then .backslash else if ch = '$' then .name [] else .plain

/-- A pass that reads one character takes the next atom. -/
theorem ReadsOne.takes (hr : c.rest = ch :: rest) (h : ReadsOne c c' ch rest) : Takes c c' := by
  obtain ⟨hb, ⟨hr', hb'⟩ | ⟨hr', hb'⟩⟩ := h
  · exact ⟨[], by simp, by rw [Config.atoms, Config.atoms, hb, hb', hr', List.nil_append]⟩
  · unfold Takes Config.atoms
    rw [hb, hb', hr, hr']
    split_ifs with h₁ h₂
    · exact ⟨[], by simp, by rw [h₁, atoms_backslash, List.nil_append]⟩
    · exact ⟨[], by simp, by rw [h₂, atoms_dollar, List.nil_append]⟩
    · exact ⟨[.char ch], by simp, by rw [atoms_char h₁ h₂]; rfl⟩

theorem stepStart_readsOne (hs : c.state = .start) : ReadsOne c (stepStart c ch rest) ch rest := by
  refine ⟨by simp [Config.behind, hs], ?_⟩
  unfold stepStart
  simp only
  split_ifs <;> simp_all [Config.behind]

theorem stepLiteral_readsOne (hs : c.state = .literal) :
    ReadsOne c (stepLiteral lit c ch rest) ch rest := by
  refine ⟨by simp [Config.behind, hs], ?_⟩
  unfold stepLiteral
  simp only
  split_ifs <;> simp_all [Config.behind]

theorem stepWhite_readsOne (hs : c.state = .white) : ReadsOne c (stepWhite c ch rest) ch rest := by
  refine ⟨by simp [Config.behind, hs], ?_⟩
  unfold stepWhite
  split_ifs <;> simp_all [Config.behind]

theorem stepQuoted_readsOne {quote : Char} (hq : IsQuote quote)
    (hs : c.state = .squoted ∨ c.state = .dquoted) :
    ReadsOne c (stepQuoted quote lit c ch rest) ch rest := by
  have hstate : c.behind = .plain := by rcases hs with hs | hs <;> simp [Config.behind, hs]
  have hne : quote ≠ '\\' ∧ quote ≠ '$' := by rcases hq with rfl | rfl <;> decide
  refine ⟨hstate, ?_⟩
  unfold stepQuoted
  by_cases hc : ch = quote
  · rw [if_pos hc, hc, if_neg hne.1, if_neg hne.2]
    split_ifs <;> exact Or.inr ⟨rfl, rfl⟩
  · rw [if_neg hc]
    split_ifs
    · exact Or.inr ⟨rfl, rfl⟩
    · exact Or.inr ⟨rfl, rfl⟩
    · exact Or.inr ⟨rfl, hstate⟩

theorem behind_of_back
    (h : c.state = .literal ∨ c.state = .squoted ∨ c.state = .dquoted) : c.behind = .plain := by
  rcases h with h | h | h <;> simp [Config.behind, h]

/-- A pass behind a backslash also reads a quote that follows. -/
theorem stepEscaped_rest :
    (stepEscaped lit c ch rest).rest = if IsQuote (peek rest) then rest.tail else rest := by
  unfold stepEscaped
  simp only
  split_ifs <;> simp_all [IsQuote]

theorem stepEscaped_takes (hr : c.rest = ch :: rest) (hs : c.state = .escaped) (hb : c.Tidy) :
    Takes c (stepEscaped lit c ch rest) := by
  have hatoms : c.atoms = .escaped ch :: atoms rest .plain := by
    simp [Config.atoms, Config.behind, hs, hr]
  have hbehind := behind_of_back (stepEscaped_state lit ch rest hs hb)
  unfold Takes
  rw [hatoms, Config.atoms, hbehind, stepEscaped_rest]
  by_cases hq : IsQuote (peek rest)
  · exact ⟨[.escaped ch, .char (peek rest)], by simp, by rw [if_pos hq, atoms_tail hq]; rfl⟩
  · exact ⟨[.escaped ch], by simp, by rw [if_neg hq]; rfl⟩

theorem Expands.atoms_eq (h : Expands values c c') (hs : c.state = .var) :
    c.atoms = .var (c.rest.takeWhile isNameChar) :: atoms c'.rest .plain := by
  rw [Config.atoms, Config.behind, hs, atoms_name, List.nil_append, if_neg h.name, h.rest]

theorem stepVar_takes (hs : c.state = .var) (hb : c.Tidy) (h : stepVar values c = .again c') :
    Takes c c' := by
  have hexp := stepVar_expands h
  have hback := hb.back (Or.inl hs)
  rw [← hexp.state] at hback
  exact ⟨[.var (c.rest.takeWhile isNameChar)], by simp, by
    rw [hexp.atoms_eq hs, Config.atoms, behind_of_back hback]; rfl⟩

theorem step_takes (hb : c.Tidy) (h : step lit values c = .again c') : Takes c c' := by
  obtain ⟨ch, rest, hr, -, h⟩ := step_again h
  unfold Config.Goes at h
  cases hs : c.state with
  | start =>
    rw [hs] at h
    exact h ▸ (stepStart_readsOne hs).takes hr
  | end_ =>
    rw [hs] at h
    exact ⟨[], by simp, by rw [h]; rfl⟩
  | literal =>
    rw [hs] at h
    exact h ▸ (stepLiteral_readsOne hs).takes hr
  | squoted =>
    rw [hs] at h
    exact h ▸ (stepQuoted_readsOne (Or.inr rfl) (Or.inl hs)).takes hr
  | dquoted =>
    rw [hs] at h
    exact h ▸ (stepQuoted_readsOne (Or.inl rfl) (Or.inr hs)).takes hr
  | var =>
    rw [hs] at h
    exact stepVar_takes hs hb h
  | escaped =>
    rw [hs] at h
    exact h ▸ stepEscaped_takes hr hs hb
  | white =>
    rw [hs] at h
    exact h ▸ (stepWhite_readsOne hs).takes hr

/-! ## When the machine exits -/

/-- A pass that goes on takes no error. -/
theorem bad_mem_iff (h : Takes c c') : .bad ∈ c.atoms ↔ .bad ∈ c'.atoms := by
  obtain ⟨new, hnew, h⟩ := h
  rw [h, List.mem_append, or_iff_right hnew]

/-- A pass that leaves stands before an error, or at the end of the line. -/
theorem step_leave (hb : c.Tidy) {o : Outcome α} (h : step lit values c = .leave o) :
    (o = .exited ∧ c.state = .var ∧ ∃ as, c.atoms = .bad :: as) ∨
      o = .returned c.out ∧ c.rest = [] := by
  unfold step at h
  cases hr : c.rest with
  | nil =>
    simp only [hr] at h
    exact Or.inr ⟨(Pass.leave.inj h).symm, rfl⟩
  | cons ch rest =>
    have hn : ch ≠ nul := fun hn => hb.no_nul (by rw [hr, hn]; exact List.mem_cons_self)
    simp only [hr, if_neg hn] at h
    cases hs : c.state with
    | var =>
      simp only [hs, stepVar] at h
      split_ifs at h with h0
      have hname : c.rest.takeWhile isNameChar = [] := by simpa using h0
      refine Or.inl ⟨(Pass.leave.inj h).symm, rfl, atoms (c.rest.dropWhile isNameChar) .plain, ?_⟩
      rw [Config.atoms, Config.behind, hs, atoms_name, List.nil_append, if_pos hname,
        if_neg (by simp [hr])]
    | start | end_ | literal | squoted | dquoted | escaped | white =>
      simp only [hs] at h
      cases h

/-- At the end of the line there is no error, whatever the state. -/
theorem bad_not_mem_of_nil (hr : c.rest = []) : .bad ∉ c.atoms := by
  rw [Config.atoms, hr]
  cases c.behind with
  | plain => simp
  | backslash => simp [atoms]
  | name n =>
    rw [atoms]
    split_ifs <;> simp

variable {line : List Char}

/-- `parse` exits if and only if a `$` stands before a character that is not in a name. -/
theorem exits_iff (hnul : nul ∉ line) (env l : List (List Char)) :
    parseText env line l = some .exited ↔ .bad ∈ lineAtoms line := by
  have hrun : ∃ o, iterate (step id (envValues env)) (passes line) (.init line l) = some o :=
    exists_iterate_step line l
  obtain ⟨o, ho⟩ := hrun
  have hret : Returns (step id (envValues env)) (.init line l) o := ⟨_, ho⟩
  obtain ⟨c, hvis, hleave⟩ := hret.exists_visits
  have hI := hvis.invariant (I := fun c => c.Tidy ∧ (.bad ∈ lineAtoms line ↔ .bad ∈ c.atoms))
    ⟨.init hnul l, Iff.rfl⟩ fun a b hI h => ⟨hI.1.step h, hI.2.trans (bad_mem_iff (step_takes hI.1 h))⟩
  rw [parseText, ho, hI.2]
  rcases step_leave hI.1 hleave with ⟨rfl, -, as, hbad⟩ | ⟨rfl, hr⟩
  · exact ⟨fun _ => by rw [hbad]; exact List.mem_cons_self, fun _ => rfl⟩
  · exact ⟨fun h => by simp at h, fun h => absurd h (bad_not_mem_of_nil hr)⟩

/-- `parse` only reports a malformed line if a `$` stands before a character that is not in a name:
the end of the line is not checked in any state. -/
theorem reports_iff (hnul : nul ∉ line) (env l : List (List Char)) :
    Reports env line l ↔ ¬ Malformed line ∨ .bad ∈ lineAtoms line := by
  rw [Reports, exits_iff hnul, imp_iff_not_or]

/-- A line with both kinds of errors. -/
theorem reports_iff_bad : Reports [] "$-\"".toList [] ↔
    ¬ Malformed "$-\"".toList ∨ .bad ∈ lineAtoms "$-\"".toList :=
  reports_iff (by decide) [] []

/-- The word in the section that stays open is missing. -/
theorem not_reports_open_quote :
    ¬ ∀ env line l, nul ∉ line → Reports env line l := by
  intro h
  have hline := h [] "a \"b".toList [] (by decide) (by decide)
  have hrun : parseText [] "a \"b".toList [] = some (.returned ["a".toList]) := rfl
  rw [hrun] at hline
  cases hline

end Sem3.Shell
