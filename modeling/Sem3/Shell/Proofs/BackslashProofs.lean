import Sem3.Shell.Proofs.PlainProofs

/-!
# Proofs: backslash quoting

Behind an escaped character the machine is ready for the next backslash, for the space that ends the
word and for the end of the line. So strings whose characters all have a backslash in front of them
are read back.
-/

namespace Sem3.Shell

open Loop

variable {final : Mode → Bool} {env l ws : List (List Char)} {line a w t : List Char}

/-- On a line without variables `parse` appends the words of the lexer, if the arguments are not
limited. -/
theorem parseText_reads (env : List (List Char)) (hp : (Config.init line l).Plain) :
    parseText env line l = some (.returned (l ++ readWords reader.final line .white [])) := by
  let f : Config Char → Outcome Char := fun c => .returned (c.out ++ c.words reader.final)
  have hinit : f (.init line l) = .returned (l ++ readWords reader.final line .white []) := by
    simp only [f]
    rw [Config.words_init rfl]
    rfl
  rw [parseText, ← hinit]
  refine iterate_eq Config.measure (I := fun c => c.Plain ∧ c.Good) ⟨hp, Config.Good.init line l⟩
    ?_ ?_ (measure_init_lt line l)
  · rintro c c' ⟨hp, hg⟩ hstep
    obtain ⟨hg', hlt⟩ := step_progress hg hstep
    rcases step_reads hp (envValues env) with ⟨-, hleave⟩ | ⟨c'', hc, hreads⟩
    · rw [hstep] at hleave
      cases hleave
    · rw [hstep] at hc
      cases hc
      exact ⟨⟨hreads.plain, hg'⟩, hlt, congrArg Outcome.returned hreads.out⟩
  · rintro c r ⟨hp, -⟩ hstep
    rcases step_reads hp (envValues env) with ⟨hr, hleave⟩ | ⟨c', hc, -⟩
    · rw [hstep] at hleave
      cases hleave
      simp only [f, Config.words_nil hr, List.append_nil]
    · rw [hstep] at hc
      cases hc

/-! ## One string -/

theorem backslashed_cons (ch : Char) (w : List Char) :
    backslashed (ch :: w) = '\\' :: ch :: backslashed w := rfl

/-- Characters behind backslashes are added to the word. -/
theorem readWords_backslashed (w : List Char) :
    readWords final (backslashed w ++ t) (.aft none) a = readWords final t (.aft none) (a ++ w) := by
  induction w generalizing a with
  | nil => rw [List.append_nil]; rfl
  | cons ch w ih =>
    rw [backslashed_cons, List.cons_append, List.cons_append, readWords_aft none (by decide),
      readWords_backslash none (by simp), readWords_esc, ih, List.append_assoc]
    rfl

theorem readWords_white_backslashed (h : w ≠ []) :
    readWords final (backslashed w ++ t) .white [] = readWords final t (.aft none) w := by
  obtain ⟨ch, w, rfl⟩ := List.exists_cons_of_ne_nil h
  have hfirst : readWords final (backslashed (ch :: w) ++ t) .white [] =
      readWords final (backslashed w ++ t) (.aft none) [ch] := rfl
  rw [hfirst, readWords_backslashed]
  rfl

theorem escapes_backslashed (w : List Char) (h : Escapes (fun _ => True) t) :
    Escapes (fun _ => True) (backslashed w ++ t) := by
  induction w with
  | nil => exact h
  | cons ch w ih => exact escapes_backslash.2 ⟨trivial, ih⟩

theorem mem_backslashed {c : Char} (h : c ∈ backslashed w) : c = '\\' ∨ c ∈ w := by
  obtain ⟨d, hd, hc⟩ := List.mem_flatMap.1 h
  rcases List.mem_cons.1 hc with hc | hc
  · exact .inl hc
  · exact .inr (List.mem_singleton.1 hc ▸ hd)

/-! ## A list of strings -/

/-- The rest of a line behind a string. -/
def backslashTail (ws : List (List Char)) : List Char :=
  if ws = [] then [] else ' ' :: backslashLine ws

theorem backslashLine_cons (w : List Char) (ws : List (List Char)) :
    backslashLine (w :: ws) = backslashed w ++ backslashTail ws := by
  cases ws with
  | nil => simp [backslashLine, backslashTail]
  | cons w' ws => simp [backslashLine, backslashTail, List.intercalate]

theorem readWords_backslashTail (ws : List (List Char)) :
    readWords reader.final (backslashTail ws) (.aft none) a =
      a :: readWords reader.final (backslashLine ws) .white [] := by
  unfold backslashTail
  split_ifs with hn
  · subst hn
    rfl
  · rw [readWords_aft none (by decide), readWords_space, readWords_white rfl]

theorem readWords_backslashLine (h : ∀ w ∈ ws, w ≠ []) :
    readWords reader.final (backslashLine ws) .white [] = ws := by
  induction ws with
  | nil => rfl
  | cons w ws ih =>
    obtain ⟨hw, hws⟩ := List.forall_mem_cons.1 h
    rw [backslashLine_cons, readWords_white_backslashed hw, readWords_backslashTail, ih hws]

theorem escapes_backslashLine (ws : List (List Char)) :
    Escapes (fun _ => True) (backslashLine ws) := by
  induction ws with
  | nil => trivial
  | cons w ws ih =>
    rw [backslashLine_cons]
    apply escapes_backslashed
    unfold backslashTail
    split_ifs
    · trivial
    · exact (escapes_cons (by decide)).2 ⟨by decide, ih⟩

theorem nul_not_mem_backslashLine (h : ∀ w ∈ ws, nul ∉ w) : nul ∉ backslashLine ws := by
  induction ws with
  | nil => exact List.not_mem_nil
  | cons w ws ih =>
    obtain ⟨hw, hws⟩ := List.forall_mem_cons.1 h
    rw [backslashLine_cons, List.mem_append]
    rintro (hc | hc)
    · rcases mem_backslashed hc with hc | hc
      · exact absurd hc (by decide)
      · exact hw hc
    · unfold backslashTail at hc
      split_ifs at hc
      · cases hc
      · rcases List.mem_cons.1 hc with hc | hc
        · exact absurd hc (by decide)
        · exact ih hws hc

theorem peek_backslashLine (h : ∀ w ∈ ws, w ≠ []) : peek (backslashLine ws) ≠ '\t' := by
  cases ws with
  | nil => decide
  | cons w ws =>
    obtain ⟨ch, w, rfl⟩ := List.exists_cons_of_ne_nil (h w List.mem_cons_self)
    rw [backslashLine_cons]
    show '\\' ≠ '\t'
    decide

/-- Strings with a backslash before each character, joined with single spaces, are appended as they
were. -/
theorem parseText_backslashLine (env l ws : List (List Char)) (hne : ∀ w ∈ ws, w ≠ [])
    (hnul : ∀ w ∈ ws, nul ∉ w) :
    parseText env (backslashLine ws) l = some (.returned (l ++ ws)) := by
  have hp : (Config.init (backslashLine ws) l).Plain :=
    .init (nul_not_mem_backslashLine hnul) (escapes_backslashLine ws) (peek_backslashLine hne)
  rw [parseText_reads env hp, readWords_backslashLine hne]

/-- A string of all the special characters, and a plain one. -/
theorem parseText_backslashLine_special :
    parseText [['A', '=', 'x']] (backslashLine [['$', 'A', ' ', '\\', '"', '\''], ['b']]) [['c']] =
      some (.returned ([['c']] ++ [['$', 'A', ' ', '\\', '"', '\''], ['b']])) :=
  parseText_backslashLine _ _ _ (by decide) (by decide)

end Sem3.Shell
