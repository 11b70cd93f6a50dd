import Sem3.Shell.Proofs.PlainProofs

/-!
# Proofs: the quoting grammar

The quoting grammar is read by a lexer too, `grammar`, and determines the arguments of a line whose
sections are closed. It differs from the lexer of the machine in one place: a quote inside of a word
opens a section. `readWords_eq_grammar_iff` says for which lines this makes no difference.
-/

namespace Sem3.Shell

variable {ch quote : Char} {s a : List Char}

/-- The reading of the quoting grammar. -/
def grammar : Lexer Mode Char where
  next m ch :=
    match m with
    | .inside (some quote) => if ch = quote then .inside none else .inside (some quote)
    | _ =>
      if ch = ' ' then .white
      else if IsQuote ch then .inside (some ch)
      else .inside none
  put m a ch :=
    match m with
    | .inside (some quote) => if ch = quote then a else a ++ [ch]
    | .white => if ch = ' ' ∨ IsQuote ch then [] else [ch]
    | _ => if ch = ' ' ∨ IsQuote ch then a else a ++ [ch]
  emits m ch := m = .inside none ∧ ch = ' '
  final m := m = .inside none

@[simp] theorem grammar_next_white : grammar.next .white ch =
    if ch = ' ' then .white else if IsQuote ch then .inside (some ch) else .inside none := rfl

@[simp] theorem grammar_next_word : grammar.next (.inside none) ch =
    if ch = ' ' then .white else if IsQuote ch then .inside (some ch) else .inside none := rfl

@[simp] theorem grammar_next_section : grammar.next (.inside (some quote)) ch =
    if ch = quote then .inside none else .inside (some quote) := rfl

@[simp] theorem grammar_put_white : grammar.put .white a ch =
    if ch = ' ' ∨ IsQuote ch then [] else [ch] := rfl

@[simp] theorem grammar_put_word : grammar.put (.inside none) a ch =
    if ch = ' ' ∨ IsQuote ch then a else a ++ [ch] := rfl

@[simp] theorem grammar_put_section : grammar.put (.inside (some quote)) a ch =
    if ch = quote then a else a ++ [ch] := rfl

@[simp] theorem grammar_emits {m : Mode} :
    grammar.emits m ch = decide (m = .inside none ∧ ch = ' ') := rfl

@[simp] theorem grammar_final {m : Mode} : grammar.final m = decide (m = .inside none) := rfl

/-! ## The words of the grammar -/

theorem grammar_nil (a : List Char) : grammar.words [] (.inside none) a = [a] := rfl

theorem grammar_white_quote (h : IsQuote ch) :
    grammar.words (ch :: s) .white a = grammar.words s (.inside (some ch)) [] := by
  rw [Lexer.words_cons]
  simp [h, isQuote_ne_space h]

theorem grammar_white_char (hs : ch ≠ ' ') (h : ¬ IsQuote ch) :
    grammar.words (ch :: s) .white a = grammar.words s (.inside none) [ch] := by
  rw [Lexer.words_cons]
  simp [h, hs]

theorem grammar_space :
    grammar.words (' ' :: s) (.inside none) a = a :: grammar.words s .white a := rfl

theorem grammar_quote (h : IsQuote ch) :
    grammar.words (ch :: s) (.inside none) a = grammar.words s (.inside (some ch)) a := by
  rw [Lexer.words_cons]
  simp [h, isQuote_ne_space h]

theorem grammar_char (hs : ch ≠ ' ') (h : ¬ IsQuote ch) :
    grammar.words (ch :: s) (.inside none) a = grammar.words s (.inside none) (a ++ [ch]) := by
  rw [Lexer.words_cons]
  simp [h, hs]

theorem grammar_close :
    grammar.words (quote :: s) (.inside (some quote)) a = grammar.words s (.inside none) a := by
  rw [Lexer.words_cons]
  simp

theorem grammar_section (h : ch ≠ quote) :
    grammar.words (ch :: s) (.inside (some quote)) a =
      grammar.words s (.inside (some quote)) (a ++ [ch]) := by
  rw [Lexer.words_cons]
  simp [h]

theorem grammar_white (a : List Char) : grammar.words s .white a = grammar.words s .white [] := by
  cases s <;> rfl

theorem grammar_keeps : grammar.Keeps (fun m => ∃ q, m = .inside q) := by
  rintro m c a ⟨q, rfl⟩ he
  cases q with
  | none =>
    have hs : c ≠ ' ' := by
      rintro rfl
      cases he
    by_cases hq : IsQuote c
    · simp [hs, hq]
    · simp [hs, hq]
  | some quote =>
    by_cases hc : c = quote
    · simp [hc]
    · simp [hc]

/-- At the end of a text whose sections are closed no section is open. -/
theorem closed_run {q : Option Char} (h : Closed q s) :
    ∀ m, m = .inside q ∨ (q = none ∧ m = .white) →
      grammar.run s m = .inside none ∨ grammar.run s m = .white := by
  induction s generalizing q with
  | nil =>
    rintro m (rfl | ⟨-, rfl⟩)
    · exact Or.inl (congrArg Mode.inside h)
    · exact Or.inr rfl
  | cons ch s ih =>
    intro m hm
    rw [Lexer.run_cons]
    cases q with
    | none =>
      have hnext : grammar.next m ch =
          if ch = ' ' then .white else if IsQuote ch then .inside (some ch) else .inside none := by
        rcases hm with rfl | ⟨-, rfl⟩ <;> rfl
      simp only [Closed] at h
      rw [hnext]
      by_cases hs : ch = ' '
      · subst hs
        exact ih h .white (Or.inr ⟨rfl, rfl⟩)
      rw [if_neg hs]
      by_cases hq : IsQuote ch
      · rw [if_pos hq] at h ⊢
        exact ih h _ (Or.inl rfl)
      · rw [if_neg hq] at h ⊢
        exact ih h _ (Or.inl rfl)
    | some quote =>
      obtain rfl : m = .inside (some quote) := hm.resolve_right (by simp)
      have hnext : grammar.next (.inside (some quote)) ch =
        if ch = quote then .inside none else .inside (some quote) := rfl
      simp only [Closed] at h
      rw [hnext]
      by_cases hc : ch = quote
      · rw [if_pos hc] at h ⊢
        exact ih h _ (Or.inl rfl)
      · rw [if_neg hc] at h ⊢
        exact ih h _ (Or.inl rfl)

/-! ## The grammar determines the arguments -/

/-- The content of a section is added to the word. -/
theorem grammar_content (content t : List Char) (h : quote ∉ content) :
    grammar.words (content ++ quote :: t) (.inside (some quote)) a =
      grammar.words t (.inside none) (a ++ content) := by
  induction content generalizing a with
  | nil => rw [List.nil_append, grammar_close, List.append_nil]
  | cons ch content ih =>
    obtain ⟨hne, hmem⟩ := not_or.1 (mt List.mem_cons.2 h)
    rw [List.cons_append, grammar_section (Ne.symm hne), ih hmem, List.append_assoc]
    rfl

theorem grammar_fragments (fs : List Fragment) (hok : ∀ f ∈ fs, f.Ok) (t : List Char) :
    grammar.words (fs.flatMap Fragment.text ++ t) (.inside none) a =
      grammar.words t (.inside none) (a ++ fs.flatMap Fragment.value) := by
  induction fs generalizing a with
  | nil => rw [List.flatMap_nil, List.flatMap_nil, List.append_nil, List.nil_append]
  | cons f fs ih =>
    have hf := hok f List.mem_cons_self
    have ih' := fun b => ih (a := b) fun f hf => hok f (List.mem_cons_of_mem _ hf)
    rw [List.flatMap_cons, List.flatMap_cons, List.append_assoc, ← List.append_assoc a]
    cases f with
    | char ch =>
      obtain ⟨hs, hq⟩ := hf
      show grammar.words (ch :: (fs.flatMap Fragment.text ++ t)) _ _ = _
      rw [grammar_char hs hq, ih']
      rfl
    | quoted quote content =>
      obtain ⟨hq, hmem⟩ := hf
      have htext : (Fragment.quoted quote content).text ++ (fs.flatMap Fragment.text ++ t) =
          quote :: (content ++ quote :: (fs.flatMap Fragment.text ++ t)) := by
        simp [Fragment.text]
      rw [htext, grammar_quote hq, grammar_content _ _ hmem, ih']
      rfl

/-- A word is read as its argument, from its first character on. -/
theorem grammar_word (w : Word) (t : List Char) :
    grammar.words (w.text ++ t) .white a = grammar.words t (.inside none) w.arg := by
  have hok := w.ok
  unfold Word.text Word.arg
  obtain ⟨f, fs, hw⟩ := List.exists_cons_of_ne_nil w.ne_nil
  rw [hw] at hok ⊢
  have hfs := fun b =>
    grammar_fragments (a := b) fs (fun f hf => hok f (List.mem_cons_of_mem _ hf)) t
  rw [List.flatMap_cons, List.flatMap_cons, List.append_assoc]
  have hf := hok f List.mem_cons_self
  cases f with
  | char ch =>
    obtain ⟨hs, hq⟩ := hf
    show grammar.words (ch :: (fs.flatMap Fragment.text ++ t)) _ _ = _
    rw [grammar_white_char hs hq, hfs]
    rfl
  | quoted quote content =>
    obtain ⟨hq, hmem⟩ := hf
    have htext : (Fragment.quoted quote content).text ++ (fs.flatMap Fragment.text ++ t) =
        quote :: (content ++ quote :: (fs.flatMap Fragment.text ++ t)) := by
      simp [Fragment.text]
    rw [htext, grammar_white_quote hq, grammar_content _ _ hmem, hfs]
    rfl

theorem Splits.eq_words {line : List Char} {args : List (List Char)} (h : Splits line args) :
    args = grammar.words line .white [] := by
  induction h with
  | nil => rfl
  | space _ ih => exact ih
  | last w =>
    have := grammar_word (a := []) w []
    rw [List.append_nil] at this
    rw [this, grammar_nil]
  | word w _ ih => rw [grammar_word, grammar_space, grammar_white, ← ih]

/-- A closed line can be split. What was read of the word at the start of the text is the list `fs`
of its parts and, in a section, the content of the section so far. -/
theorem splits_of_closed :
    ∀ s, (Closed none s → Splits s (grammar.words s .white [])) ∧
      (∀ fs : List Fragment, fs ≠ [] → (∀ f ∈ fs, f.Ok) → Closed none s →
        Splits (fs.flatMap Fragment.text ++ s)
          (grammar.words s (.inside none) (fs.flatMap Fragment.value))) ∧
      ∀ (fs : List Fragment) (quote : Char) (content : List Char), (∀ f ∈ fs, f.Ok) →
        IsQuote quote → quote ∉ content → Closed (some quote) s →
        Splits (fs.flatMap Fragment.text ++ quote :: (content ++ s))
          (grammar.words s (.inside (some quote)) (fs.flatMap Fragment.value ++ content)) := by
  intro s
  induction s with
  | nil =>
    refine ⟨fun _ => .nil, fun fs hne hok _ => ?_, fun fs quote content _ _ _ h => by cases h⟩
    rw [grammar_nil, List.append_nil]
    exact Splits.last ⟨fs, hne, hok⟩
  | cons ch s ih =>
    obtain ⟨ihw, ihi, ihs⟩ := ih
    have hclosed : Closed none (ch :: s) ↔
        if IsQuote ch then Closed (some ch) s else Closed none s := Iff.rfl
    refine ⟨fun h => ?_, fun fs hne hok h => ?_, fun fs quote content hok hq hmem h => ?_⟩
    · rw [hclosed] at h
      by_cases hs : ch = ' '
      · subst hs
        exact .space (ihw h)
      by_cases hq : IsQuote ch
      · rw [if_pos hq] at h
        rw [grammar_white_quote hq]
        exact ihs [] ch [] (by simp) hq (by simp) h
      · rw [if_neg hq] at h
        rw [grammar_white_char hs hq]
        exact ihi [.char ch] (by simp) (by simpa [Fragment.Ok] using ⟨hs, not_or.1 hq⟩) h
    · rw [hclosed] at h
      by_cases hs : ch = ' '
      · subst hs
        rw [grammar_space, grammar_white]
        exact Splits.word ⟨fs, hne, hok⟩ (ihw h)
      by_cases hq : IsQuote ch
      · rw [if_pos hq] at h
        rw [grammar_quote hq]
        have := ihs fs ch [] hok hq (by simp) h
        rwa [List.append_nil] at this
      · rw [if_neg hq] at h
        rw [grammar_char hs hq]
        have hsnoc : ∀ f ∈ fs ++ [Fragment.char ch], f.Ok :=
          List.forall_mem_append.2 ⟨hok, List.forall_mem_singleton.2 ⟨hs, hq⟩⟩
        have := ihi (fs ++ [.char ch]) (by simp) hsnoc h
        simpa [Fragment.text, Fragment.value] using this
    · have h' : if ch = quote then Closed none s else Closed (some quote) s := h
      by_cases hc : ch = quote
      · subst hc
        rw [if_pos rfl] at h'
        rw [grammar_close]
        have hsnoc : ∀ f ∈ fs ++ [Fragment.quoted ch content], f.Ok :=
          List.forall_mem_append.2 ⟨hok, List.forall_mem_singleton.2 ⟨hq, hmem⟩⟩
        have := ihi (fs ++ [.quoted ch content]) (by simp) hsnoc h'
        simpa [Fragment.text, Fragment.value] using this
      · rw [if_neg hc] at h'
        rw [grammar_section hc]
        have := ihs fs quote (content ++ [ch]) hok hq (by
          rw [List.mem_append, List.mem_singleton]
          rintro (h | rfl)
          · exact hmem h
          · exact hc rfl) h'
        simpa using this

/-- A line whose sections are closed has one reading. -/
theorem existsUnique_splits {line : List Char} (h : Closed none line) :
    ∃! args, Splits line args :=
  ⟨_, (splits_of_closed line).1 h, fun _ h' => h'.eq_words⟩

/-! ## Where the machine agrees with the grammar -/

/-- The state of the lexer at a place: it does not see that a section opened inside of a word. -/
def Place.mode : Place → Mode
  | .white => .white
  | .word => .inside none
  | .first quote => .inside (some quote)
  | .glued _ => .inside none

/-- The quote that ends the section, if there is one. -/
def Place.closer : Place → Option Char
  | .white => none
  | .word => none
  | .first quote => some quote
  | .glued quote => some quote

/-- The mode of the reader at a place. -/
def Place.grammarMode : Place → Mode
  | .white => .white
  | p => .inside p.closer

theorem prefix_snoc_ne {b c : Char} {w : List Char} (h : a ++ [b] <+: w) (hne : b ≠ c) :
    ¬ a ++ [c] <+: w := by
  intro h'
  have := List.prefix_of_prefix_length_le h h' (by simp)
  exact hne (by simpa using List.IsPrefix.eq_of_length this (by simp))

theorem not_prefix_self {c : Char} : ¬ a ++ [c] <+: a := by
  intro h
  have := h.length_le
  rw [List.length_append, List.length_singleton] at this
  omega

/-- In a section that opened inside of a word, a space or another quote is read as the lexer reads
it outside of quotes, so the next word is a different one. -/
theorem readWords_glued_ne {final : Mode → Bool} (hne : ch ≠ quote)
    (hesc : ∀ c ∈ s, c ≠ '\\' ∧ c ≠ '$') (hclosed : Closed (some quote) s)
    (hch : ch = ' ' ∨ IsQuote ch) :
    readWords final (ch :: s) (.inside none) a ≠
      grammar.words (ch :: s) (.inside (some quote)) a := by
  intro heq
  rw [grammar_section hne] at heq
  have hfinal : (∃ q, grammar.run s (.inside (some quote)) = .inside q) →
      grammar.final (grammar.run s (.inside (some quote))) = true := by
    rintro ⟨q, hq⟩
    rcases closed_run hclosed _ (Or.inl rfl) with h | h
    · rw [h]; rfl
    · rw [h] at hq; cases hq
  obtain ⟨w, ws, hw, hpre⟩ := Lexer.exists_head (a := a ++ [ch]) grammar_keeps ⟨some quote, rfl⟩ hfinal
  rw [hw] at heq
  rcases hch with rfl | hch
  · rw [readWords_space] at heq
    rw [← (List.cons.inj heq).1] at hpre
    exact not_prefix_self hpre
  · rw [readWords_quote hch] at heq
    rcases readWords_head_next hch s a _ (Or.inl rfl) (escapes_of_forall hesc) w (by rw [heq]; rfl) with
      rfl | ⟨d, hd, hpre'⟩
    · exact not_prefix_self hpre
    · exact prefix_snoc_ne hpre' hd hpre

/-- The reader agrees with the grammar if and only if no section inside of a word has a space or a
quote in it. -/
theorem readWords_eq_grammar_iff {final : Mode → Bool} (hw : final .white = false)
    (hi : final (.inside none) = true) :
    ∀ s p a, (∀ c ∈ s, c ≠ '\\' ∧ c ≠ '$') → (∀ q, p.closer = some q → IsQuote q) →
      Closed p.closer s →
      (readWords final s p.mode a = grammar.words s p.grammarMode a ↔ GluedPlain p s) := by
  intro s
  induction s with
  | nil =>
    intro p a _ _ h
    cases p with
    | white =>
      simp [GluedPlain, Place.mode, Place.grammarMode, readWords_nil, Lexer.words_nil, hw]
    | word =>
      simp [GluedPlain, Place.mode, Place.grammarMode, Place.closer, readWords_nil,
        Lexer.words_nil, hi]
    | first quote => cases h
    | glued quote => cases h
  | cons ch s ih =>
    intro p a hclean hquote hclosed
    have hb := (hclean ch List.mem_cons_self).1
    have ih' := fun p a => ih p a fun c hc => hclean c (List.mem_cons_of_mem _ hc)
    cases p with
    | white =>
      have hclosed : if IsQuote ch then Closed (some ch) s else Closed none s := hclosed
      simp only [Place.mode, Place.grammarMode, GluedPlain]
      by_cases hs : ch = ' '
      · subst hs
        exact ih' .white [] (by simp [Place.closer]) hclosed
      rw [if_neg hs]
      by_cases hq : IsQuote ch
      · rw [if_pos hq] at hclosed ⊢
        rw [readWords_white_quote hq, grammar_white_quote hq]
        exact ih' (.first ch) [] (by rintro q ⟨⟩; exact hq) hclosed
      · rw [if_neg hq] at hclosed ⊢
        rw [readWords_white_char hs hq, readWords_char hq hs hb, grammar_white_char hs hq]
        exact ih' .word [ch] (by simp [Place.closer]) hclosed
    | word =>
      have hclosed : if IsQuote ch then Closed (some ch) s else Closed none s := hclosed
      simp only [Place.mode, Place.grammarMode, Place.closer, GluedPlain]
      by_cases hs : ch = ' '
      · subst hs
        rw [if_pos rfl, readWords_space, grammar_space, List.cons_inj_right]
        exact ih' .white a (by simp [Place.closer]) hclosed
      rw [if_neg hs]
      by_cases hq : IsQuote ch
      · rw [if_pos hq] at hclosed ⊢
        rw [readWords_quote hq, grammar_quote hq]
        exact ih' (.glued ch) a (by rintro q ⟨⟩; exact hq) hclosed
      · rw [if_neg hq] at hclosed ⊢
        rw [readWords_char hq hs hb, grammar_char hs hq]
        exact ih' .word (a ++ [ch]) (by simp [Place.closer]) hclosed
    | first quote =>
      have hclosed : if ch = quote then Closed none s else Closed (some quote) s := hclosed
      simp only [Place.mode, Place.grammarMode, Place.closer, GluedPlain]
      by_cases hc : ch = quote
      · subst hc
        rw [if_pos rfl] at hclosed ⊢
        rw [readWords_close, grammar_close]
        exact ih' .word a (by simp [Place.closer]) hclosed
      · rw [if_neg hc] at hclosed ⊢
        rw [readWords_section hc hb, grammar_section hc]
        exact ih' (.first quote) (a ++ [ch]) hquote hclosed
    | glued quote =>
      have hq := hquote quote rfl
      have hclosed : if ch = quote then Closed none s else Closed (some quote) s := hclosed
      simp only [Place.mode, Place.grammarMode, Place.closer, GluedPlain]
      by_cases hc : ch = quote
      · subst hc
        rw [if_pos rfl] at hclosed ⊢
        rw [readWords_quote hq, grammar_close]
        exact ih' .word a (by simp [Place.closer]) hclosed
      rw [if_neg hc] at hclosed ⊢
      by_cases hch : ch = ' ' ∨ IsQuote ch
      · have hne : readWords final (ch :: s) (.inside none) a ≠
            grammar.words (ch :: s) (.inside (some quote)) a :=
          readWords_glued_ne hc (fun c hc => hclean c (List.mem_cons_of_mem _ hc)) hclosed hch
        exact ⟨fun h => absurd h hne, fun h => absurd hch (not_or.2 ⟨h.1, h.2.1⟩)⟩
      · obtain ⟨hs, hq'⟩ := not_or.1 hch
        rw [readWords_char hq' hs hb, grammar_section hc, and_iff_right hs, and_iff_right hq']
        exact ih' (.glued quote) (a ++ [ch]) hquote hclosed

/-! ## The parser on a line of the grammar -/

/-- On a line without `\`, `$` and tabs whose quoted sections are closed, `parse` appends the
arguments of the quoting grammar if and only if no section that opens inside of a word has a space
or a quote in it and the arguments fit in their buffers. -/
theorem parse_quoting_iff (before : ℕ → ℕ → ℕ) (env l : List (List Char)) (line : List Char)
    (hchars : ∀ c ∈ line, c ≠ '\\' ∧ c ≠ '$' ∧ c ≠ '\t' ∧ c ≠ nul) (hclosed : Closed none line) :
    (∃! args, Splits line args) ∧
      ∀ args, Splits line args →
        (parse before env line l = some (.returned (l ++ args)) ↔
          GluedPlain .white line ∧ ∀ arg ∈ args, arg.length < maxArgSz) := by
  refine ⟨existsUnique_splits hclosed, fun args hargs => ?_⟩
  have hclean : ∀ c ∈ line, c ≠ '\\' ∧ c ≠ '$' := fun c hc =>
    ⟨(hchars c hc).1, (hchars c hc).2.1⟩
  have hp : (Config.init line l).Plain := by
    apply Config.Plain.init (fun h => (hchars nul h).2.2.2 rfl) (escapes_of_forall hclean)
    cases line with
    | nil => decide
    | cons ch line => exact (hchars ch List.mem_cons_self).2.2.1
  have hiff : ∀ final : Mode → Bool, final .white = false → final (.inside none) = true →
      (readWords final line .white [] = args ↔ GluedPlain .white line) := by
    intro final hw hi
    rw [hargs.eq_words]
    exact readWords_eq_grammar_iff hw hi line .white [] hclean (by simp [Place.closer]) hclosed
  constructor
  · intro h
    obtain ⟨ho, hlt⟩ := parse_reads hp h
    have hwords : args = readWords reader.final line .white [] := by
      simpa using Outcome.returned.inj ho
    rw [← hwords] at hlt
    exact ⟨(hiff reader.final rfl rfl).1 hwords.symm, hlt⟩
  · rintro ⟨hplain, hlt⟩
    rw [parse_of_fits hp, (hiff reader.final rfl rfl).2 hplain]
    rwa [(hiff (· ≠ .white) rfl rfl).2 hplain]

/-- A section at the start of a word may have a space in it. -/
theorem parse_quoting_iff_section_first :
    (∃! args, Splits ['\'', 'x', ' ', 'y', '\'', 'z', ' ', '"', '"'] args) ∧
      ∀ args, Splits ['\'', 'x', ' ', 'y', '\'', 'z', ' ', '"', '"'] args →
        (parse (fun _ _ => 0) [] ['\'', 'x', ' ', 'y', '\'', 'z', ' ', '"', '"'] [] =
            some (.returned ([] ++ args)) ↔
          GluedPlain .white ['\'', 'x', ' ', 'y', '\'', 'z', ' ', '"', '"'] ∧
            ∀ arg ∈ args, arg.length < maxArgSz) :=
  parse_quoting_iff (fun _ _ => 0) [] [] _ (by simp [nul]) (by simp [Closed, IsQuote])

/-- The line `a"b c"` is one argument of the grammar, but `parse` appends `ab` and `c`. -/
theorem not_parse_glued_section :
    (∀ c ∈ ['a', '"', 'b', ' ', 'c', '"'], c ≠ '\\' ∧ c ≠ '$' ∧ c ≠ '\t' ∧ c ≠ nul) ∧
      Closed none ['a', '"', 'b', ' ', 'c', '"'] ∧
      Splits ['a', '"', 'b', ' ', 'c', '"'] [['a', 'b', ' ', 'c']] ∧
      parse (fun _ _ => 0) [] ['a', '"', 'b', ' ', 'c', '"'] [] =
        some (.returned [['a', 'b'], ['c']]) ∧
      parse (fun _ _ => 0) [] ['a', '"', 'b', ' ', 'c', '"'] [] ≠
        some (.returned ([] ++ [['a', 'b', ' ', 'c']])) := by
  have heq : parse (fun _ _ => 0) [] ['a', '"', 'b', ' ', 'c', '"'] [] =
      some (.returned [['a', 'b'], ['c']]) := rfl
  refine ⟨by simp [nul], by simp [Closed, IsQuote], ?_, heq, by simp [heq]⟩
  exact Splits.last
    ⟨[.char 'a', .quoted '"' ['b', ' ', 'c']], by simp, by simp [Fragment.Ok, IsQuote]⟩

end Sem3.Shell
