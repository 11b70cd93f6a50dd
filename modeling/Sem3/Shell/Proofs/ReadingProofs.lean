import Sem3.Shell.Spec
import Sem3.Util.Lexer

/-!
# Proofs: the reading of a line without variables

On a line without variables the machine is a lexer, `reader`, which is between words, inside of a
word, behind a backslash or behind an escaped character. `readWords` are its words.
-/

namespace Sem3.Shell

/-- Where a reading stands: between words; inside a word, with the character that closes the section,
if there is one; behind a backslash; behind an escaped character. -/
inductive Mode where
  | white
  | inside (quote : Option Char)
  | esc (quote : Option Char)
  | aft (quote : Option Char)
deriving DecidableEq

/-- The mode behind a character inside of a word. -/
def Mode.insideNext (ch : Char) : Option Char → Mode
  | none =>
    if IsQuote ch then .inside none
    else if ch = ' ' then .white
    else if ch = '\\' then .esc none
    else .inside none
  | some quote =>
    if ch = quote then .inside none
    else if ch = '\\' then .esc (some quote)
    else .inside (some quote)

/-- The word behind a character inside of it. -/
def Mode.insidePut (a : List Char) (ch : Char) : Option Char → List Char
  | none => if IsQuote ch ∨ ch = ' ' ∨ ch = '\\' then a else a ++ [ch]
  | some quote => if ch = quote ∨ ch = '\\' then a else a ++ [ch]

/-- The reading of a line without variables. -/
def reader : Lexer Mode Char where
  next m ch :=
    match m with
    | .white =>
      if ch = ' ' then .white
      else if IsQuote ch then .inside (some ch)
      else if ch = '\\' then .esc none
      else .inside none
    | .inside quote => Mode.insideNext ch quote
    | .esc quote => .aft quote
    | .aft quote => if IsQuote ch then .inside (some ch) else Mode.insideNext ch quote
  put m a ch :=
    match m with
    | .white => if ch = ' ' ∨ IsQuote ch ∨ ch = '\\' then [] else [ch]
    | .inside quote => Mode.insidePut a ch quote
    | .esc _ => a ++ [ch]
    | .aft quote => if IsQuote ch then a else Mode.insidePut a ch quote
  emits m ch := (m = .inside none ∨ m = .aft none) ∧ ch = ' '
  final m :=
    match m with
    | .inside none => true
    | .aft _ => true
    | _ => false

/-- The reading that also ends the word that is under construction at the end of the line. -/
def closing : Lexer Mode Char := reader.withFinal (· ≠ .white)

theorem closing_keeps : closing.Keeps (· ≠ .white) := by
  intro m c a hm he
  cases m with
  | white => exact absurd rfl hm
  | inside quote =>
    cases quote <;>
      simp_all [closing, reader, Lexer.withFinal, Mode.insideNext, Mode.insidePut] <;>
      split_ifs <;> simp_all
  | esc quote => simp [closing, reader, Lexer.withFinal]
  | aft quote =>
    cases quote <;>
      simp_all [closing, reader, Lexer.withFinal, Mode.insideNext, Mode.insidePut] <;>
      split_ifs <;> simp_all

/-! ## One character at a time -/

variable {ch : Char}

theorem isQuote_ne_space (h : IsQuote ch) : ch ≠ ' ' := by
  rintro rfl
  exact absurd h (by decide)

theorem isQuote_ne_backslash (h : IsQuote ch) : ch ≠ '\\' := by
  rintro rfl
  exact absurd h (by decide)

variable {final : Mode → Bool} {quote : Char} {s a : List Char}

/-- The words of the reading, with the states `final` for the end of the line. -/
def readWords (final : Mode → Bool) (s : List Char) (m : Mode) (a : List Char) : List (List Char) :=
  (reader.withFinal final).words s m a

theorem readWords_nil (m : Mode) : readWords final [] m a = if final m then [a] else [] := rfl

theorem readWords_cons (m : Mode) :
    readWords final (ch :: s) m a =
      (if reader.emits m ch then [a] else []) ++
        readWords final s (reader.next m ch) (reader.put m a ch) := rfl

theorem readWords_quote (h : IsQuote ch) :
    readWords final (ch :: s) (.inside none) a = readWords final s (.inside none) a := by
  have hsp := isQuote_ne_space h
  rw [readWords_cons]
  simp [reader, Mode.insideNext, Mode.insidePut, h, hsp]

theorem readWords_space :
    readWords final (' ' :: s) (.inside none) a = a :: readWords final s .white a := rfl

theorem readWords_backslash (q : Option Char) (h : ∀ c, q = some c → c ≠ '\\') :
    readWords final ('\\' :: s) (.inside q) a = readWords final s (.esc q) a := by
  rw [readWords_cons]
  cases q with
  | none => rfl
  | some c => simp [reader, Mode.insideNext, Mode.insidePut, (h c rfl).symm]

theorem readWords_char (hq : ¬ IsQuote ch) (hs : ch ≠ ' ') (hb : ch ≠ '\\') :
    readWords final (ch :: s) (.inside none) a = readWords final s (.inside none) (a ++ [ch]) := by
  rw [readWords_cons]
  simp [reader, Mode.insideNext, Mode.insidePut, hq, hs, hb]

theorem readWords_close :
    readWords final (quote :: s) (.inside (some quote)) a = readWords final s (.inside none) a := by
  rw [readWords_cons]
  simp [reader, Mode.insideNext, Mode.insidePut]

/-- Inside of a section a character is added to the word. -/
theorem readWords_section (hq : ch ≠ quote) (hb : ch ≠ '\\') :
    readWords final (ch :: s) (.inside (some quote)) a =
      readWords final s (.inside (some quote)) (a ++ [ch]) := by
  rw [readWords_cons]
  simp [reader, Mode.insideNext, Mode.insidePut, hq, hb]

theorem readWords_esc (q : Option Char) :
    readWords final (ch :: s) (.esc q) a = readWords final s (.aft q) (a ++ [ch]) := rfl

theorem readWords_aft_quote (q : Option Char) (h : IsQuote ch) :
    readWords final (ch :: s) (.aft q) a = readWords final s (.inside (some ch)) a := by
  have hsp := isQuote_ne_space h
  rw [readWords_cons]
  simp [reader, h, hsp]

theorem readWords_aft (q : Option Char) (h : ¬ IsQuote ch) :
    readWords final (ch :: s) (.aft q) a = readWords final (ch :: s) (.inside q) a := by
  rw [readWords_cons, readWords_cons]
  cases q <;> simp [reader, h]

theorem readWords_white (hf : final .white = false) :
    readWords final s .white a = readWords final s .white [] := by
  cases s with
  | nil => rw [readWords_nil, readWords_nil, hf]; rfl
  | cons ch s => rfl

theorem readWords_white_space :
    readWords final (' ' :: s) .white a = readWords final s .white [] := rfl

theorem readWords_white_quote (h : IsQuote ch) :
    readWords final (ch :: s) .white a = readWords final s (.inside (some ch)) [] := by
  have hsp := isQuote_ne_space h
  rw [readWords_cons]
  simp [reader, h, hsp]

theorem readWords_white_char (hs : ch ≠ ' ') (h : ¬ IsQuote ch) :
    readWords final (ch :: s) .white a = readWords final (ch :: s) (.inside none) [] := by
  rw [readWords_cons, readWords_cons]
  simp [reader, Mode.insideNext, Mode.insidePut, h, hs]

/-! ## What comes next in a word -/

/-- The text has no variable, and every escaped character satisfies `P`. -/
def Escapes (P : Char → Prop) : List Char → Prop
  | [] => True
  | [ch] => ch ≠ '$'
  | ch :: d :: s => if ch = '\\' then P d ∧ Escapes P s else ch ≠ '$' ∧ Escapes P (d :: s)

theorem escapes_cons {P : Char → Prop} (h : ch ≠ '\\') :
    Escapes P (ch :: s) ↔ ch ≠ '$' ∧ Escapes P s := by
  cases s with
  | nil => simp [Escapes]
  | cons d s => rw [Escapes, if_neg h]

theorem escapes_backslash {P : Char → Prop} : Escapes P ('\\' :: ch :: s) ↔ P ch ∧ Escapes P s := by
  rw [Escapes, if_pos rfl]

theorem escapes_of_forall {P : Char → Prop} (h : ∀ c ∈ s, c ≠ '\\' ∧ c ≠ '$') : Escapes P s := by
  induction s with
  | nil => trivial
  | cons ch s ih =>
    obtain ⟨hb, hd⟩ := h ch List.mem_cons_self
    exact (escapes_cons hb).2 ⟨hd, ih fun c hc => h c (List.mem_cons_of_mem _ hc)⟩

/-- The next word begins with what was read of it. -/
theorem readWords_head_prefix {m : Mode} (hm : m ≠ .white) :
    ∀ w ∈ (readWords final s m a).head?, a <+: w := by
  have hK : (reader.withFinal final).Keeps (· ≠ .white) := closing_keeps
  exact Lexer.head_prefix hK hm

/-- Outside of a section no quote is read, and in a section that `quote` closes not this one, unless
it is escaped: what comes next in the word is another character. -/
theorem readWords_head_next (hq : IsQuote quote) :
    ∀ s a m, m = .inside none ∨ m = .inside (some quote) → Escapes (· ≠ quote) s →
      ∀ w ∈ (readWords final s m a).head?, w = a ∨ ∃ d, d ≠ quote ∧ a ++ [d] <+: w := by
  intro s
  induction s with
  | nil =>
    intro a m _ _ w hw
    rw [readWords_nil] at hw
    split_ifs at hw
    · exact Or.inl (Option.mem_some.1 hw).symm
    · cases hw
  | cons ch s ih =>
    intro a m hm hesc w hw
    have hread : ∀ d m', d ≠ quote → m' ≠ .white → ∀ s',
        readWords final (ch :: s) m a = readWords final s' m' (a ++ [d]) →
        w = a ∨ ∃ d, d ≠ quote ∧ a ++ [d] <+: w := by
      intro d m' hd hm' s' heq
      rw [heq] at hw
      exact Or.inr ⟨d, hd, readWords_head_prefix hm' w hw⟩
    by_cases hb : ch = '\\'
    · subst hb
      have hesc' : ∀ q, (∀ c, q = some c → c ≠ '\\') → m = .inside q →
          w = a ∨ ∃ d, d ≠ quote ∧ a ++ [d] <+: w := by
        rintro q hqb rfl
        cases s with
        | nil =>
          rw [readWords_backslash q hqb, readWords_nil] at hw
          split_ifs at hw
          · exact Or.inl (Option.mem_some.1 hw).symm
          · cases hw
        | cons d s =>
          apply hread d (.aft q) (escapes_backslash.1 hesc).1 (by simp) s
          rw [readWords_backslash q hqb, readWords_esc]
      rcases hm with hm | hm
      · exact hesc' none (by simp) hm
      · refine hesc' (some quote) ?_ hm
        rintro c ⟨⟩
        exact isQuote_ne_backslash hq
    have hesc' := (escapes_cons hb).1 hesc
    rcases hm with rfl | rfl
    · by_cases hc : IsQuote ch
      · rw [readWords_quote hc] at hw
        exact ih a _ (Or.inl rfl) hesc'.2 w hw
      by_cases hsp : ch = ' '
      · subst hsp
        exact Or.inl (Option.mem_some.1 hw).symm
      · have hne : ch ≠ quote := by rintro rfl; exact hc hq
        exact hread ch _ hne (by simp) s (readWords_char hc hsp hb)
    · by_cases hc : ch = quote
      · subst hc
        rw [readWords_close] at hw
        exact ih a _ (Or.inl rfl) hesc'.2 w hw
      · exact hread ch _ hc (by simp) s (readWords_section hc hb)

end Sem3.Shell
