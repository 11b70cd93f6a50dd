import Sem3.Shell.Spec

/-!
# Proofs: the loop of the parser

Every pass goes down in `Config.measure`, so the loop ends on every line.
-/

namespace Sem3.Shell

open Loop

variable {α : Type*} {lit : Char → α} {values : List Char → List (List α)} {c c' : Config α}
  {ch : Char} {rest : List Char}

@[simp] theorem Config.append_state : c.append.state = c.state := rfl
@[simp] theorem Config.append_laststate : c.append.laststate = c.laststate := rfl
@[simp] theorem Config.append_arg : c.append.arg = c.arg := rfl
@[simp] theorem Config.append_rest : c.append.rest = c.rest := rfl
@[simp] theorem Config.append_out : c.append.out = c.out ++ [c.arg] := rfl

/-- The terminator is read at the end of the line only. -/
theorem peek_eq_nul {rest : List Char} (h : nul ∉ rest) : peek rest = nul ↔ rest = [] := by
  cases rest with
  | nil => simp [peek]
  | cons d rest =>
    simp only [peek, List.headD_cons, reduceCtorEq, iff_false]
    rintro rfl
    exact h List.mem_cons_self

/-! ## One pass -/

/-- What a pass does that goes round again. -/
def Config.Goes (lit : Char → α) (values : List Char → List (List α)) (c c' : Config α) (ch : Char)
    (rest : List Char) : Prop :=
  match c.state with
  | .start => c' = stepStart c ch rest
  | .end_ => c' = c
  | .literal => c' = stepLiteral lit c ch rest
  | .squoted => c' = stepQuoted '\'' lit c ch rest
  | .dquoted => c' = stepQuoted '"' lit c ch rest
  | .var => stepVar values c = .again c'
  | .escaped => c' = stepEscaped lit c ch rest
  | .white => c' = stepWhite c ch rest

theorem step_again (h : step lit values c = .again c') :
    ∃ ch rest, c.rest = ch :: rest ∧ ch ≠ nul ∧ c.Goes lit values c' ch rest := by
  unfold step at h
  cases hr : c.rest with
  | nil => simp only [hr] at h; cases h
  | cons ch rest =>
    simp only [hr] at h
    by_cases hn : ch = nul
    · rw [if_pos hn] at h
      cases h
    rw [if_neg hn] at h
    refine ⟨ch, rest, rfl, hn, ?_⟩
    unfold Config.Goes
    cases hs : c.state with
    | var =>
      simp only [hs] at h
      exact h
    | start | end_ | literal | squoted | dquoted | escaped | white =>
      simp only [hs] at h
      exact (Pass.again.inj h).symm

theorem stepVar_suffix (h : stepVar values c = .again c') : c'.rest <:+ c.rest := by
  unfold stepVar at h
  simp only at h
  split_ifs at h
  all_goals
    rw [← Pass.again.inj h]
    exact List.drop_suffix _ _

/-- No pass goes back in the line. -/
theorem step_suffix (h : step lit values c = .again c') : c'.rest <:+ c.rest := by
  obtain ⟨ch, rest, hr, -, h⟩ := step_again h
  have hsame : c.rest <:+ c.rest := List.suffix_rfl
  have hrest : rest <:+ c.rest := hr ▸ List.suffix_cons ch rest
  have htail : rest.tail <:+ c.rest := (List.tail_suffix rest).trans hrest
  unfold Config.Goes at h
  cases hs : c.state with
  | var =>
    rw [hs] at h
    exact stepVar_suffix h
  | end_ =>
    rw [hs] at h
    obtain rfl : c' = c := h
    exact hsame
  | start | literal | squoted | dquoted | escaped | white =>
    rw [hs] at h
    rw [h]
    simp only [stepStart, stepLiteral, stepQuoted, stepEscaped, stepWhite]
    split_ifs <;> assumption

/-! ## Termination -/

/-- `END` is only entered at the end of the line, and no state goes back to it. -/
structure Config.Good (c : Config α) : Prop where
  end_ : c.state = .end_ → peek c.rest = nul
  last : c.state = .var ∨ c.state = .escaped → c.laststate ≠ .end_

/-- Goes down with every pass. -/
def Config.measure (c : Config α) : ℕ :=
  2 * c.rest.length + if c.state = .start ∨ c.state = .white then 1 else 0

/-- What a pass of the machine achieves. -/
def Progress (c c' : Config α) : Prop := c'.Good ∧ c'.measure < c.measure

theorem Config.Good.init (line : List Char) (l : List (List α)) : (Config.init line l).Good where
  end_ := fun h => by cases h
  last := fun h => by rcases h with h | h <;> cases h

theorem measure_lt_of_consumes (h : c'.rest.length < c.rest.length) : c'.measure < c.measure := by
  unfold Config.measure
  split_ifs <;> omega

theorem measure_lt_of_literal (h : c'.rest = c.rest) (hs : c.state = .start ∨ c.state = .white)
    (hs' : c'.state = .literal) : c'.measure < c.measure := by
  unfold Config.measure
  rw [h, if_pos hs, if_neg (by simp [hs'])]
  omega

theorem stepStart_progress (hr : c.rest = ch :: rest) (hs : c.state = .start) :
    Progress c (stepStart c ch rest) := by
  have hlit : ∀ c' : Config α, c'.rest = c.rest → c'.state = .literal → Progress c c' :=
    fun c' hr' hs' => ⟨⟨by simp [hs'], by simp [hs']⟩, measure_lt_of_literal hr' (Or.inl hs) hs'⟩
  unfold stepStart
  simp only
  split_ifs
  case neg => exact hlit _ rfl rfl
  all_goals exact ⟨⟨by simp, by simp⟩, measure_lt_of_consumes (by simp [hr])⟩

theorem stepLiteral_progress (hr : c.rest = ch :: rest) (hs : c.state = .literal) :
    Progress c (stepLiteral lit c ch rest) := by
  unfold stepLiteral
  simp only
  split_ifs with _ h
  all_goals
    refine ⟨⟨?_, ?_⟩, measure_lt_of_consumes (by simp [hr])⟩
    · simp_all
    · simp_all

theorem stepQuoted_progress {quote : Char} (hr : c.rest = ch :: rest)
    (hs : c.state = .squoted ∨ c.state = .dquoted) :
    Progress c (stepQuoted quote lit c ch rest) := by
  have hne : c.state ≠ .end_ ∧ c.state ≠ .var ∧ c.state ≠ .escaped := by
    rcases hs with hs | hs <;> simp [hs]
  unfold stepQuoted
  split_ifs
  all_goals
    refine ⟨⟨?_, ?_⟩, measure_lt_of_consumes (by simp [hr])⟩
    · simp_all
    · simp_all

theorem stepVar_progress (hg : c.Good) (hs : c.state = .var)
    (h : stepVar values c = .again c') : Progress c c' := by
  have hlast := hg.last (Or.inl hs)
  have hle := (List.takeWhile_prefix isNameChar (l := c.rest)).length_le
  unfold stepVar at h
  simp only at h
  split_ifs at h
  all_goals
    rw [← Pass.again.inj h]
    refine ⟨⟨fun h' => absurd h' hlast, fun _ => hlast⟩, measure_lt_of_consumes ?_⟩
    simp
    omega

theorem stepEscaped_progress (hg : c.Good) (hr : c.rest = ch :: rest) (hs : c.state = .escaped) :
    Progress c (stepEscaped lit c ch rest) := by
  have hlast := hg.last (Or.inr hs)
  have htail : rest.tail.length ≤ rest.length := by simp
  unfold stepEscaped
  simp only
  split_ifs
  all_goals
    refine ⟨⟨?_, fun _ => hlast⟩, measure_lt_of_consumes ?_⟩
    · simp [hlast]
    · simp only [Config.append_rest, hr, List.length_cons]
      omega

theorem stepWhite_progress (hr : c.rest = ch :: rest) (hs : c.state = .white) :
    Progress c (stepWhite c ch rest) := by
  unfold stepWhite
  split_ifs
  case neg =>
    exact ⟨⟨by simp, by simp⟩, measure_lt_of_literal rfl (Or.inr hs) rfl⟩
  all_goals
    refine ⟨⟨?_, ?_⟩, measure_lt_of_consumes (by simp [hr])⟩
    · simp [hs]
    · simp [hs]

/-- Every pass gets on. -/
theorem step_progress (hg : c.Good) (h : step lit values c = .again c') : Progress c c' := by
  obtain ⟨ch, rest, hr, hn, h⟩ := step_again h
  unfold Config.Goes at h
  cases hs : c.state with
  | end_ =>
    have := hg.end_ hs
    rw [hr] at this
    exact absurd this hn
  | var =>
    rw [hs] at h
    exact stepVar_progress hg hs h
  | start =>
    rw [hs] at h
    exact h ▸ stepStart_progress hr hs
  | literal =>
    rw [hs] at h
    exact h ▸ stepLiteral_progress hr hs
  | squoted =>
    rw [hs] at h
    exact h ▸ stepQuoted_progress hr (Or.inl hs)
  | dquoted =>
    rw [hs] at h
    exact h ▸ stepQuoted_progress hr (Or.inr hs)
  | escaped =>
    rw [hs] at h
    exact h ▸ stepEscaped_progress hg hr hs
  | white =>
    rw [hs] at h
    exact h ▸ stepWhite_progress hr hs

theorem measure_init_lt (line : List Char) (l : List (List α)) :
    (Config.init line l).measure < passes line := by
  simp [Config.measure, Config.init, passes]

/-- The loop ends on every line. -/
theorem exists_iterate_step (line : List Char) (l : List (List α)) :
    ∃ o, iterate (step lit values) (passes line) (.init line l) = some o :=
  exists_iterate Config.measure (Config.Good.init line l) (fun _ _ => step_progress)
    (measure_init_lt line l)

end Sem3.Shell
