import Sem3.Shell.Proofs.QuotingProofs

/-!
# Proofs: the encoding of a list of arguments

The machine reads the encoding of a string back, unless a character that is written with a backslash
stands at the end of the string or before a single quote: then the quote behind it opens a section.
-/

namespace Sem3.Shell

variable {final : Mode → Bool} {ch : Char} {a t w : List Char} {P : Char → Prop}

theorem escape_cons_special (h : Special ch) : escape (ch :: w) = '\\' :: ch :: escape w := by
  rw [escape, List.flatMap_cons, if_pos h]
  rfl

theorem escape_cons_char (h : ¬ Special ch) : escape (ch :: w) = ch :: escape w := by
  rw [escape, List.flatMap_cons, if_neg h]
  rfl

/-! ## One string -/

/-- What stands behind an escaped character is a quote only if a single quote follows it or the
string ends there. -/
theorem readWords_aft_escape (q : Option Char) (d : Char) (hd : d ≠ '\'') :
    readWords final (escape (d :: w) ++ t) (.aft q) a =
      readWords final (escape (d :: w) ++ t) (.inside q) a := by
  by_cases hs : Special d
  · rw [escape_cons_special hs]
    exact readWords_aft q (by decide)
  · rw [escape_cons_char hs]
    apply readWords_aft q
    rintro (h | h)
    · exact hs (Or.inl h)
    · exact hd h

theorem readWords_special (h : Special ch) :
    readWords final (escape (ch :: w) ++ t) (.inside (some '"')) a =
      readWords final (escape w ++ t) (.aft (some '"')) (a ++ [ch]) := by
  rw [escape_cons_special h]
  exact readWords_backslash (some '"') (by rintro c ⟨⟩; decide)

theorem readWords_ordinary (h : ¬ Special ch) :
    readWords final (escape (ch :: w) ++ t) (.inside (some '"')) a =
      readWords final (escape w ++ t) (.inside (some '"')) (a ++ [ch]) := by
  rw [escape_cons_char h]
  exact readWords_section (fun hc => h (Or.inl hc)) (fun hc => h (Or.inr (Or.inl hc)))

theorem survives_cons_ordinary (h : ¬ Special ch) : Survives (ch :: w) ↔ Survives w := by
  cases w with
  | nil => exact iff_of_true h trivial
  | cons d w => exact and_iff_right fun h' => h h'.1

theorem readWords_survives (w : List Char) (h : Survives w) (t : List Char) :
    readWords final (escape w ++ '"' :: t) (.inside (some '"')) a =
      readWords final t (.inside none) (a ++ w) := by
  induction w generalizing a with
  | nil =>
    rw [List.append_nil]
    exact readWords_close
  | cons ch w ih =>
    by_cases hs : Special ch
    · rw [readWords_special hs]
      cases w with
      | nil => exact absurd hs h
      | cons d w =>
        obtain ⟨hd, hw⟩ := h
        rw [readWords_aft_escape _ d fun hd' => hd ⟨hs, hd'⟩, ih hw, List.append_assoc]
        rfl
    · rw [readWords_ordinary hs, ih ((survives_cons_ordinary hs).1 h), List.append_assoc]
      rfl

theorem readWords_not_survives (w : List Char) (h : ¬ Survives w) (t : List Char)
    (ht : t = [] ∨ ∃ t', t = ' ' :: t') (hesc : Escapes (· ≠ '\'') (escape w ++ '"' :: t)) :
    ∀ x ∈ (readWords reader.final (escape w ++ '"' :: t) (.inside (some '"')) a).head?,
      x ≠ a ++ w := by
  induction w generalizing a with
  | nil => exact absurd trivial h
  | cons ch w ih =>
    intro x hx
    by_cases hs : Special ch
    · rw [readWords_special hs] at hx
      rw [escape_cons_special hs] at hesc
      have hesc' := (escapes_backslash.1 hesc).2
      cases w with
      | nil =>
        -- the closing quote opens a section, and the string goes on with a space
        have hopen : readWords reader.final ('"' :: t) (.aft (some '"')) (a ++ [ch]) =
            readWords reader.final t (.inside (some '"')) (a ++ [ch]) :=
          readWords_aft_quote _ (Or.inl rfl)
        rcases ht with rfl | ⟨t', rfl⟩
        · rw [show escape [] ++ ['"'] = ['"'] from rfl, hopen] at hx
          cases hx
        · rw [show escape [] ++ '"' :: ' ' :: t' = '"' :: ' ' :: t' from rfl, hopen,
            readWords_section (by decide) (by decide)] at hx
          have hpre := readWords_head_prefix (by simp) x hx
          rintro rfl
          exact not_prefix_self hpre
      | cons d w =>
        by_cases hd : d = '\''
        · subst hd
          rw [escape_cons_char (by decide)] at hx hesc'
          rw [List.cons_append, readWords_aft_quote _ (Or.inr rfl)] at hx
          rcases readWords_head_next (Or.inr rfl) _ _ _ (Or.inr rfl)
            ((escapes_cons (by decide)).1 hesc').2 x hx with rfl | ⟨e, he, hpre⟩
          · intro heq
            have := congrArg List.length heq
            simp at this
          · rintro rfl
            refine prefix_snoc_ne hpre he ⟨w, ?_⟩
            simp
        · rw [readWords_aft_escape _ d hd] at hx
          have := ih (fun h' => h ⟨fun h'' => hd h''.2, h'⟩) hesc' x hx
          rwa [List.append_assoc] at this
    · rw [readWords_ordinary hs] at hx
      rw [escape_cons_char hs] at hesc
      have hne : ch ≠ '\\' := fun hc => hs (Or.inr (Or.inl hc))
      have := ih (mt (survives_cons_ordinary hs).2 h) ((escapes_cons hne).1 hesc).2 x hx
      rwa [List.append_assoc] at this

/-! ## A list of strings -/

/-- The rest of a line behind the encoding of a string. -/
def encodeTail (ws : List (List Char)) : List Char := if ws = [] then [] else ' ' :: encodeLine ws

theorem encodeLine_cons (w : List Char) (ws : List (List Char)) :
    encodeLine (w :: ws) = '"' :: (escape w ++ '"' :: encodeTail ws) := by
  cases ws with
  | nil => simp [encodeLine, encodeTail, encode]
  | cons w' ws => simp [encodeLine, encodeTail, encode, List.intercalate]

theorem escapes_escape (hP : ∀ c, Special c → P c) (w : List Char) (h : Escapes P t) :
    Escapes P (escape w ++ t) := by
  induction w with
  | nil => exact h
  | cons ch w ih =>
    by_cases hs : Special ch
    · rw [escape_cons_special hs]
      exact escapes_backslash.2 ⟨hP ch hs, ih⟩
    · rw [escape_cons_char hs]
      exact (escapes_cons fun hc => hs (Or.inr (Or.inl hc))).2 ⟨fun hc => hs (Or.inr (Or.inr hc)), ih⟩

theorem escapes_encodeLine (hP : ∀ c, Special c → P c) (ws : List (List Char)) :
    Escapes P (encodeLine ws) := by
  induction ws with
  | nil => trivial
  | cons w ws ih =>
    rw [encodeLine_cons]
    refine (escapes_cons (by decide)).2 ⟨by decide, escapes_escape hP w ?_⟩
    refine (escapes_cons (by decide)).2 ⟨by decide, ?_⟩
    unfold encodeTail
    split_ifs
    · trivial
    · exact (escapes_cons (by decide)).2 ⟨by decide, ih⟩

theorem mem_escape {c : Char} (h : c ∈ escape w) : c ∈ w ∨ c = '\\' := by
  obtain ⟨d, hd, hc⟩ := List.mem_flatMap.1 h
  split_ifs at hc
  · rcases List.mem_cons.1 hc with hc | hc
    · exact Or.inr hc
    · exact Or.inl (by rwa [List.mem_singleton.1 hc])
  · exact Or.inl (by rwa [List.mem_singleton.1 hc])

theorem nul_not_mem_encodeLine (ws : List (List Char)) (h : ∀ w ∈ ws, nul ∉ w) :
    nul ∉ encodeLine ws := by
  induction ws with
  | nil => exact List.not_mem_nil
  | cons w ws ih =>
    have ih := ih fun w' hw' => h w' (List.mem_cons_of_mem _ hw')
    have htail : nul ∉ encodeTail ws := by
      unfold encodeTail
      split_ifs
      · exact List.not_mem_nil
      · rw [List.mem_cons]
        rintro (hc | hc)
        · exact absurd hc (by decide)
        · exact ih hc
    rw [encodeLine_cons, List.mem_cons, List.mem_append, List.mem_cons]
    rintro (hc | hc | hc | hc)
    · exact absurd hc (by decide)
    · rcases mem_escape hc with hc | hc
      · exact h w List.mem_cons_self hc
      · exact absurd hc (by decide)
    · exact absurd hc (by decide)
    · exact htail hc

theorem readWords_encodeTail (hw : final .white = false) (hi : final (.inside none) = true)
    (ws : List (List Char)) :
    readWords final (encodeTail ws) (.inside none) a =
      a :: readWords final (encodeLine ws) .white [] := by
  unfold encodeTail
  by_cases hn : ws = []
  · subst hn
    rw [if_pos rfl, readWords_nil, hi]
    show [a] = a :: readWords final [] .white []
    rw [readWords_nil, hw]
    rfl
  · rw [if_neg hn, readWords_space, readWords_white hw]

theorem readWords_encodeLine_cons (w : List Char) (ws : List (List Char)) :
    readWords final (encodeLine (w :: ws)) .white [] =
      readWords final (escape w ++ '"' :: encodeTail ws) (.inside (some '"')) [] := by
  rw [encodeLine_cons]
  exact readWords_white_quote (Or.inl rfl)

theorem readWords_encodeLine (hw : final .white = false) (hi : final (.inside none) = true)
    (ws : List (List Char)) (h : ∀ w ∈ ws, Survives w) :
    readWords final (encodeLine ws) .white [] = ws := by
  induction ws with
  | nil =>
    show readWords final [] .white [] = []
    rw [readWords_nil, hw]
    rfl
  | cons w ws ih =>
    rw [readWords_encodeLine_cons, readWords_survives w (h w List.mem_cons_self), List.nil_append,
      readWords_encodeTail hw hi, ih fun w' hw' => h w' (List.mem_cons_of_mem _ hw')]

theorem survives_of_readWords (ws : List (List Char))
    (h : readWords reader.final (encodeLine ws) .white [] = ws) : ∀ w ∈ ws, Survives w := by
  induction ws with
  | nil => exact fun w hw => absurd hw List.not_mem_nil
  | cons w ws ih =>
    rw [readWords_encodeLine_cons] at h
    by_cases hs : Survives w
    · rw [readWords_survives w hs, List.nil_append, readWords_encodeTail rfl rfl] at h
      intro w' hw'
      rcases List.mem_cons.1 hw' with rfl | hw'
      · exact hs
      · exact ih (List.cons.inj h).2 w' hw'
    · have hesc : Escapes (· ≠ '\'') (escape w ++ '"' :: encodeTail ws) := by
        have := escapes_encodeLine (P := (· ≠ '\'')) (by rintro c h rfl; revert h; decide) (w :: ws)
        rw [encodeLine_cons] at this
        exact ((escapes_cons (by decide)).1 this).2
      have htail : encodeTail ws = [] ∨ ∃ t', encodeTail ws = ' ' :: t' := by
        unfold encodeTail
        split_ifs
        · exact Or.inl rfl
        · exact Or.inr ⟨_, rfl⟩
      exact absurd rfl (readWords_not_survives w hs _ htail hesc w (by rw [h]; rfl))

/-- `parse` gives back the list that was encoded if and only if in none of the strings a character
that is written with a backslash is the last one or stands before a single quote, and the strings
fit in their buffers. -/
theorem parse_encodeLine_iff (before : ℕ → ℕ → ℕ) (env l ws : List (List Char))
    (hnul : ∀ w ∈ ws, nul ∉ w) :
    parse before env (encodeLine ws) l = some (.returned (l ++ ws)) ↔
      ∀ w ∈ ws, Survives w ∧ w.length < maxArgSz := by
  have hp : (Config.init (encodeLine ws) l).Plain := by
    refine Config.Plain.init (nul_not_mem_encodeLine ws hnul)
      (escapes_encodeLine (fun _ _ => trivial) ws) ?_
    cases ws with
    | nil => decide
    | cons w ws =>
      rw [encodeLine_cons]
      show '"' ≠ '\t'
      decide
  constructor
  · intro h
    obtain ⟨ho, hlt⟩ := parse_reads hp h
    have hwords : ws = readWords reader.final (encodeLine ws) .white [] := by
      simpa using Outcome.returned.inj ho
    rw [← hwords] at hlt
    exact fun w hw => ⟨survives_of_readWords ws hwords.symm w hw, hlt w hw⟩
  · intro h
    have hread : ∀ final : Mode → Bool, final .white = false → final (.inside none) = true →
        readWords final (encodeLine ws) .white [] = ws := fun final hw hi =>
      readWords_encodeLine hw hi ws fun w hw => (h w hw).1
    rw [parse_of_fits hp, hread _ rfl rfl]
    rw [hread _ rfl rfl]
    exact fun w hw => (h w hw).2

/-- An escaped character in the middle of a string, and the empty string. -/
theorem parse_encodeLine_iff_middle :
    parse (fun _ _ => 0) [] (encodeLine [['a', '"', 'b'], []]) [] =
        some (.returned ([] ++ [['a', '"', 'b'], []])) ↔
      ∀ w ∈ [['a', '"', 'b'], []], Survives w ∧ w.length < maxArgSz :=
  parse_encodeLine_iff (fun _ _ => 0) [] [] [['a', '"', 'b'], []] (by decide)

/-- The string of a single double quote is not given back: nothing is appended. -/
theorem not_parse_encodeLine :
    (∀ w ∈ [['"']], nul ∉ w) ∧
      parse (fun _ _ => 0) [] (encodeLine [['"']]) [] = some (.returned []) ∧
      parse (fun _ _ => 0) [] (encodeLine [['"']]) [] ≠ some (.returned ([] ++ [['"']])) := by
  have heq : parse (fun _ _ => 0) [] (encodeLine [['"']]) [] = some (.returned []) := rfl
  exact ⟨by decide, heq, by simp [heq]⟩

end Sem3.Shell
