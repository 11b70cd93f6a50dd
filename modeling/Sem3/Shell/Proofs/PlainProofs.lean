import Sem3.Shell.Proofs.ParserProofs
import Sem3.Shell.Proofs.ReadingProofs

/-!
# Proofs: the machine on a line without variables

Every pass of the machine reads one or two characters as the lexer does (`step_reads`), and stores
the beginning of a word of the lexer. So `parse` appends the words of the lexer, if they fit in
their buffers (`parse_reads`, `parse_of_fits`).
-/

namespace Sem3.Shell

open Loop

variable {final : Mode → Bool} {ch quote : Char} {s a : List Char}

/-! ## Lines without variables -/

/-- The character that closes the section that a state stands for. -/
def quoteOf : Parsestate → Option Char
  | .squoted => some '\''
  | .dquoted => some '"'
  | _ => none

/-- The mode of the reader in a state of the machine. -/
def Config.mode (c : Config Char) : Mode :=
  match c.state with
  | .literal | .squoted | .dquoted => .inside (quoteOf c.state)
  | .escaped => .esc (quoteOf c.laststate)
  | _ => .white

/-- What is left of the line has no variable, and the machine is not reading one. -/
structure Config.Plain (c : Config Char) : Prop where
  no_nul : nul ∉ c.rest
  escapes : Escapes (fun _ => True) (if c.state = .escaped then '\\' :: c.rest else c.rest)
  not_var : c.state ≠ .var
  at_end : c.state = .end_ → c.rest = []
  last : c.state = .escaped →
    c.laststate = .literal ∨ c.laststate = .squoted ∨ c.laststate = .dquoted
  no_tab : c.state = .start → peek c.rest ≠ '\t'

/-- The words that are still to come. -/
def Config.words (c : Config Char) (final : Mode → Bool) : List (List Char) :=
  if c.rest = [] then [] else readWords final c.rest c.mode c.arg

/-- A pass that reads as the lexer does. What it stores is the beginning of a word. -/
structure Reads (c c' : Config Char) : Prop where
  plain : c'.Plain
  out : c'.out ++ c'.words reader.final = c.out ++ c.words reader.final
  all : ∀ w ∈ c'.words (· ≠ .white), w ∈ c.words (· ≠ .white)
  appended : c'.out = c.out ∨ c'.out = c.out ++ [c'.arg]
  bytes : stored c c' = 0 ∨ ∃ w ∈ c.words (· ≠ .white), c'.arg <+: w

/-- The word that is being read is one of the words. -/
theorem readWords_prefix (m : Mode) (hm : m ≠ .white) :
    ∃ w ∈ readWords (· ≠ .white) s m a, a <+: w := by
  obtain ⟨w, ws, hw, hp⟩ := Lexer.exists_head (a := a) (s := s) closing_keeps hm
    (fun h => by simpa [closing, Lexer.withFinal] using h)
  exact ⟨w, by rw [readWords, ← closing, hw]; exact List.mem_cons_self, hp⟩

variable {c c' : Config Char} {rest : List Char}

theorem Config.Plain.of_text (hnul : nul ∉ c.rest) (hesc : Escapes (fun _ => True) c.rest)
    (hs : c.state = .literal ∨ c.state = .squoted ∨ c.state = .dquoted ∨ c.state = .white) :
    c.Plain := by
  rcases hs with hs | hs | hs | hs <;>
    exact ⟨hnul, by rwa [hs], by simp [hs], by simp [hs], by simp [hs], by simp [hs]⟩

theorem Config.Plain.of_end (hr : c.rest = []) (hs : c.state = .end_) : c.Plain :=
  ⟨by simp [hr], by simp [hr, hs, Escapes], by simp [hs], fun _ => hr, by simp [hs], by simp [hs]⟩

theorem Config.Plain.of_escaped (hnul : nul ∉ c.rest)
    (hesc : Escapes (fun _ => True) ('\\' :: c.rest)) (hs : c.state = .escaped)
    (hl : c.laststate = .literal ∨ c.laststate = .squoted ∨ c.laststate = .dquoted) : c.Plain :=
  ⟨hnul, by rwa [if_pos hs], by simp [hs], by simp [hs], fun _ => hl, by simp [hs]⟩

theorem Config.words_nil {final : Mode → Bool} (hr : c.rest = []) : c.words final = [] :=
  if_pos hr

theorem Config.words_cons (final : Mode → Bool) (hr : c.rest = ch :: rest) {m : Mode}
    (hm : c.mode = m) : c.words final = readWords final (ch :: rest) m c.arg := by
  rw [Config.words, if_neg (by simp [hr]), hr, hm]

/-- To read as the lexer does, a pass has to append the words that the lexer ends, and to go on where
the lexer does unless the line is over. -/
theorem Reads.of_words (new : List (List Char)) {m : Mode} (hp : c'.Plain)
    (hout : c'.out = c.out ++ new) (hm : c'.mode = m)
    (hne : c'.rest ≠ [] → ∀ f, f .white = false → f (.inside none) = true →
      c.words f = new ++ readWords f c'.rest m c'.arg)
    (hnil : c'.rest = [] → c.words reader.final = new)
    (hs : stored c c' = 0 ∨ ∃ w ∈ c.words (· ≠ .white), c'.arg <+: w)
    (hnew : new = [] ∨ new = [c'.arg] := by simp) : Reads c c' := by
  have hwords : c'.rest ≠ [] → ∀ f, c'.words f = readWords f c'.rest m c'.arg := by
    intro hr f
    rw [Config.words, if_neg hr, hm]
  refine ⟨hp, ?_, ?_, ?_, hs⟩
  · by_cases hr : c'.rest = []
    · rw [hout, Config.words_nil hr, hnil hr, List.append_nil]
    · rw [hout, hwords hr, hne hr _ rfl rfl, List.append_assoc]
  · intro w hw
    by_cases hr : c'.rest = []
    · rw [Config.words_nil hr] at hw
      cases hw
    · rw [hne hr _ rfl rfl, ← hwords hr]
      exact List.mem_append_right _ hw
  · rcases hnew with rfl | rfl
    · exact Or.inl (by rw [hout, List.append_nil])
    · exact Or.inr hout

theorem stored_of_eq (ho : c'.out = c.out) (ha : c'.arg.length ≤ c.arg.length) :
    stored c c' = 0 := by
  unfold stored
  rw [ho, if_neg (lt_irrefl _), if_neg (by omega)]

theorem stepLiteral_reads (hp : c.Plain) (hr : c.rest = ch :: rest) (hs : c.state = .literal) :
    Reads c (stepLiteral id c ch rest) := by
  have hmode : c.mode = .inside none := by simp [Config.mode, hs, quoteOf]
  have hwords := fun f => Config.words_cons f hr hmode
  have hnul : nul ∉ rest := fun h => hp.no_nul (by rw [hr]; exact List.mem_cons_of_mem _ h)
  have hesc := hp.escapes
  rw [hs, if_neg (by simp), hr] at hesc
  have hpeek := peek_eq_nul hnul
  have hpre := readWords_prefix (s := ch :: rest) (a := c.arg) (.inside none) (by simp)
  rw [← hwords] at hpre
  -- the argument ends at the end of the line, if it is still open
  have hlit : ∀ arg, arg.length ≤ c.arg.length + 1 → Escapes (fun _ => True) rest →
      (∀ f, c.words f = readWords f rest (.inside none) arg) →
      Reads c (if rest = [] then { c with state := .end_, arg, rest, out := c.out ++ [arg] }
        else { c with arg, rest }) := by
    intro arg _ hrest heq
    have hpre := readWords_prefix (s := rest) (a := arg) (.inside none) (by simp)
    rw [← heq] at hpre
    by_cases hn : rest = []
    · rw [if_pos hn]
      refine Reads.of_words [arg] (.of_end hn rfl) rfl rfl (fun h => absurd hn h) (fun _ => ?_)
        (Or.inr hpre)
      rw [heq, hn]
      rfl
    · rw [if_neg hn]
      refine Reads.of_words [] (.of_text hnul hrest (Or.inl hs)) (by simp) rfl
        (fun _ f _ _ => ?_) (fun h => absurd h hn) (Or.inr hpre)
      rw [heq, List.nil_append]
      simp [Config.mode, hs, quoteOf]
  unfold stepLiteral
  simp only
  by_cases hq : IsQuote ch
  · have hesc' := (escapes_cons (isQuote_ne_backslash hq)).1 hesc
    have := hlit c.arg (by omega) hesc'.2 fun f => by rw [hwords, readWords_quote hq]
    simpa [hq, hs, hpeek, Config.append] using this
  by_cases hb : ch = '\\'
  · subst hb
    have hnew : Reads c { c with state := .escaped, laststate := .literal, rest } := by
      refine Reads.of_words [] (.of_escaped hnul hesc rfl (Or.inl rfl)) (by simp) rfl
        (fun _ f _ _ => ?_) (fun hn => ?_) (Or.inl (stored_of_eq rfl le_rfl))
      · rw [hwords, readWords_backslash none (by simp)]
        rfl
      · rw [hwords, readWords_backslash none (by simp), show rest = [] from hn]
        rfl
    simpa [hq, hs] using hnew
  have hesc' := (escapes_cons hb).1 hesc
  by_cases hsp : ch = ' '
  · subst hsp
    have hnew : Reads c { c.append with state := .white, rest } := by
      refine Reads.of_words [c.arg] (.of_text hnul hesc'.2 (by simp)) rfl rfl
        (fun _ f _ _ => ?_) (fun hn => ?_) (Or.inr hpre)
      · rw [hwords]
        rfl
      · rw [hwords, show rest = [] from hn]
        rfl
    simpa [hq, hb, hs, hesc'.1] using hnew
  · have := hlit (c.arg ++ [ch]) (by simp) hesc'.2 fun f => by
      rw [hwords, readWords_char hq hsp hb]
    simpa [hq, hb, hsp, hesc'.1, hs, hpeek, Config.append] using this

theorem stepQuoted_reads (hp : c.Plain) (hr : c.rest = ch :: rest)
    (hs : (c.state = .squoted ∧ quote = '\'') ∨ (c.state = .dquoted ∧ quote = '"')) :
    Reads c (stepQuoted quote id c ch rest) := by
  have hq : IsQuote quote := by rcases hs with ⟨_, rfl⟩ | ⟨_, rfl⟩ <;> decide
  have hstate : c.state = .squoted ∨ c.state = .dquoted := hs.imp And.left And.left
  have hquote : quoteOf c.state = some quote := by
    rcases hs with ⟨h, rfl⟩ | ⟨h, rfl⟩ <;> rw [h] <;> rfl
  have hmode : c.mode = .inside (some quote) := by
    rcases hs with ⟨h, rfl⟩ | ⟨h, rfl⟩ <;> simp [Config.mode, h, quoteOf]
  have hwords := fun f => Config.words_cons f hr hmode
  have hnul : nul ∉ rest := fun h => hp.no_nul (by rw [hr]; exact List.mem_cons_of_mem _ h)
  have hesc := hp.escapes
  rw [if_neg (by rcases hstate with h | h <;> simp [h]), hr] at hesc
  have hpeek := peek_eq_nul hnul
  have hpre := readWords_prefix (s := ch :: rest) (a := c.arg) (.inside (some quote)) (by simp)
  rw [← hwords] at hpre
  unfold stepQuoted
  by_cases hc : ch = quote
  · subst hc
    have hesc' := (escapes_cons (isQuote_ne_backslash hq)).1 hesc
    rw [if_pos rfl]
    by_cases hn : rest = []
    · rw [if_pos (hpeek.2 hn)]
      refine Reads.of_words [c.arg] (.of_end hn rfl) rfl rfl (fun h => absurd hn h) (fun _ => ?_)
        (Or.inr hpre)
      rw [hwords, readWords_close, hn]
      rfl
    rw [if_neg (mt hpeek.1 hn)]
    by_cases hsp : peek rest = ' '
    · rw [if_pos hsp]
      obtain ⟨rest', rfl⟩ : ∃ rest', rest = ' ' :: rest' := by
        obtain ⟨d, rest', rfl⟩ := List.exists_cons_of_ne_nil hn
        exact ⟨rest', by rw [show d = ' ' from hsp]⟩
      refine Reads.of_words [c.arg] (.of_text hnul hesc'.2 (by simp)) rfl rfl
        (fun _ f hf _ => ?_) (fun h => absurd h hn) (Or.inr hpre)
      rw [hwords, readWords_close, readWords_space, readWords_white hf]
      rfl
    · rw [if_neg hsp]
      refine Reads.of_words [] (.of_text hnul hesc'.2 (by simp)) (by simp) rfl
        (fun _ f _ _ => ?_) (fun h => absurd h hn) (Or.inl (stored_of_eq rfl le_rfl))
      rw [hwords, readWords_close]
      rfl
  rw [if_neg hc]
  by_cases hb : ch = '\\'
  · subst hb
    have hqb : ∀ d, some quote = some d → d ≠ '\\' := by
      rintro d ⟨⟩
      exact isQuote_ne_backslash hq
    rw [if_pos rfl]
    refine Reads.of_words [] (.of_escaped hnul hesc rfl (Or.inr hstate)) (by simp) rfl
      (fun _ f _ _ => ?_) (fun hn => ?_) (Or.inl (stored_of_eq rfl le_rfl))
    · rw [hwords, readWords_backslash _ hqb, ← hquote]
      rfl
    · rw [hwords, readWords_backslash _ hqb, show rest = [] from hn]
      rfl
  have hesc' := (escapes_cons hb).1 hesc
  rw [if_neg hb, if_neg hesc'.1]
  have hpre := readWords_prefix (s := rest) (a := c.arg ++ [ch]) (.inside (some quote)) (by simp)
  rw [← readWords_section hc hb, ← hwords] at hpre
  refine Reads.of_words [] (.of_text hnul hesc'.2 (by grind)) (by simp) rfl
    (fun _ f _ _ => ?_) (fun hn => ?_) (Or.inr hpre)
  · rw [hwords, readWords_section hc hb]
    simp only [Config.mode]
    rcases hs with ⟨h, rfl⟩ | ⟨h, rfl⟩ <;> simp [h, quoteOf]
  · rw [hwords, readWords_section hc hb, show rest = [] from hn]
    rfl

theorem stepEscaped_reads (hp : c.Plain) (hr : c.rest = ch :: rest) (hs : c.state = .escaped) :
    Reads c (stepEscaped id c ch rest) := by
  have hmode : c.mode = .esc (quoteOf c.laststate) := by simp [Config.mode, hs]
  have hlast := hp.last hs
  have hlmode : ∀ c' : Config Char, c'.state = c.laststate → c'.mode = .inside (quoteOf c.laststate) := by
    intro c' h
    rcases hlast with hl | hl | hl <;> simp [Config.mode, h, hl, quoteOf]
  have hwords : ∀ f, c.words f = readWords f rest (.aft (quoteOf c.laststate)) (c.arg ++ [ch]) := by
    intro f
    rw [Config.words_cons f hr hmode, readWords_esc]
  have hnul : nul ∉ rest := fun h => hp.no_nul (by rw [hr]; exact List.mem_cons_of_mem _ h)
  have hesc := hp.escapes
  rw [if_pos hs, hr, escapes_backslash] at hesc
  have hpeek := peek_eq_nul hnul
  have hpre := readWords_prefix (s := rest) (a := c.arg ++ [ch]) (.aft (quoteOf c.laststate)) (by simp)
  rw [← hwords] at hpre
  unfold stepEscaped
  simp only
  cases rest with
  | nil =>
    rw [if_pos (hpeek.2 rfl), if_neg (by decide), if_neg (by decide)]
    refine Reads.of_words [c.arg ++ [ch]] ?_ rfl (hlmode _ rfl) (fun h => absurd rfl h)
      (fun _ => by rw [hwords]; rfl) (Or.inr hpre)
    exact .of_text hnul hesc.2 (by grind)
  | cons d rest =>
    have hne : peek (d :: rest) ≠ nul := mt hpeek.1 (by simp)
    have hnul' : nul ∉ rest := fun h => hnul (List.mem_cons_of_mem _ h)
    rw [if_neg hne]
    -- a quote behind the escaped character opens a section
    have hopen : ∀ st, IsQuote d → quoteOf st = some d → (st = .squoted ∨ st = .dquoted) →
        Reads c { c with arg := c.arg ++ [ch], rest, state := st } := by
      intro st hq hst hst'
      have hesc' := (escapes_cons (isQuote_ne_backslash hq)).1 hesc.2
      have hw : ∀ f, c.words f = readWords f rest (.inside (some d)) (c.arg ++ [ch]) := by
        intro f
        rw [hwords, readWords_aft_quote _ hq]
      have hm : ∀ c' : Config Char, c'.state = st → c'.mode = .inside (some d) := by
        intro c' h
        rcases hst' with h' | h' <;> subst h' <;> simp [Config.mode, h, hst]
      refine Reads.of_words [] (.of_text hnul' hesc'.2 (by grind)) (by simp) (hm _ rfl)
        (fun _ f _ _ => hw f) (fun hn => ?_) (Or.inr hpre)
      rw [hw, show rest = [] from hn]
      rfl
    rw [show peek (d :: rest) = d from rfl]
    by_cases hd : d = '"'
    · rw [if_pos hd]
      exact hopen .dquoted (Or.inl hd) (by rw [hd]; rfl) (Or.inr rfl)
    rw [if_neg hd]
    by_cases hd' : d = '\''
    · rw [if_pos hd']
      exact hopen .squoted (Or.inr hd') (by rw [hd']; rfl) (Or.inl rfl)
    rw [if_neg hd']
    refine Reads.of_words [] (.of_text hnul hesc.2 (by grind)) (by simp) (hlmode _ rfl)
      (fun _ f _ _ => ?_) (fun h => absurd h (List.cons_ne_nil _ _)) (Or.inr hpre)
    rw [hwords, readWords_aft _ (by rintro (h | h) <;> contradiction)]
    rfl

/-- The passes between two words, which `START` and `WHITE` have in common. -/
theorem reads_white (hr : c.rest = ch :: rest) (hmode : c.mode = .white) (hnul : nul ∉ ch :: rest)
    (hesc : Escapes (fun _ => True) (ch :: rest)) (hout : c'.out = c.out)
    (harg : c'.arg.length ≤ c.arg.length)
    (h : (ch = ' ' ∧ c'.state = .white ∧ c'.rest = rest) ∨
      (IsQuote ch ∧ quoteOf c'.state = some ch ∧ c'.rest = rest ∧ c'.arg = []) ∨
      (ch = '\\' ∧ c'.state = .escaped ∧ c'.laststate = .literal ∧ c'.rest = rest ∧ c'.arg = []) ∨
      (ch ≠ ' ' ∧ ¬ IsQuote ch ∧ ch ≠ '\\' ∧ c'.state = .literal ∧ c'.rest = ch :: rest ∧
        c'.arg = [])) : Reads c c' := by
  have hwords := fun f => Config.words_cons f hr hmode
  have hnul' : nul ∉ rest := fun h => hnul (List.mem_cons_of_mem _ h)
  have hstored := stored_of_eq hout harg
  have hout' : c'.out = c.out ++ [] := by rw [hout, List.append_nil]
  rcases h with ⟨rfl, hst, hr'⟩ | ⟨hq, hst, hr', ha⟩ | ⟨rfl, hst, hl, hr', ha⟩ |
    ⟨hsp, hq, hb, hst, hr', ha⟩
  · have hesc' := (escapes_cons (by decide)).1 hesc
    refine Reads.of_words (m := .white) [] (.of_text (by rwa [hr']) (by rw [hr']; exact hesc'.2)
      (by simp [hst])) hout' (by simp [Config.mode, hst]) (fun _ f hf _ => ?_) (fun hn => ?_)
      (Or.inl hstored)
    · rw [hwords, hr', readWords_white_space, readWords_white hf (a := c'.arg)]
      rfl
    · rw [hwords, readWords_white_space, ← hr', hn]
      rfl
  · have hesc' := (escapes_cons (isQuote_ne_backslash hq)).1 hesc
    have hst' : c'.state = .squoted ∨ c'.state = .dquoted := by
      cases h : c'.state <;> simp [h, quoteOf] at hst ⊢
    refine Reads.of_words (m := .inside (some ch)) [] (.of_text (by rwa [hr'])
      (by rw [hr']; exact hesc'.2) (by grind)) hout' ?_ (fun _ f _ _ => ?_) (fun hn => ?_)
      (Or.inl hstored)
    · rcases hst' with h | h <;> rw [h] at hst <;> simp [Config.mode, h, hst]
    · rw [hwords, hr', ha, readWords_white_quote hq]
      rfl
    · rw [hwords, readWords_white_quote hq, ← hr', hn]
      rfl
  · refine Reads.of_words (m := .esc none) [] (.of_escaped (by rwa [hr']) (by rwa [hr']) hst
      (Or.inl hl)) hout' (by simp [Config.mode, hst, hl, quoteOf]) (fun _ f _ _ => ?_) (fun hn => ?_)
      (Or.inl hstored)
    · rw [hwords, hr', ha]
      rfl
    · rw [hwords, ← hr', hn]
      rfl
  · refine Reads.of_words (m := .inside none) [] (.of_text (by rwa [hr']) (by rwa [hr'])
      (Or.inl hst)) hout' (by simp [Config.mode, hst, quoteOf]) (fun _ f _ _ => ?_)
      (fun hn => absurd hn (by simp [hr'])) (Or.inl hstored)
    rw [hwords, hr', ha, readWords_white_char hsp hq]
    rfl

theorem stepWhite_reads (hp : c.Plain) (hr : c.rest = ch :: rest) (hs : c.state = .white) :
    Reads c (stepWhite c ch rest) := by
  have hmode : c.mode = .white := by simp [Config.mode, hs]
  have hesc := hp.escapes
  rw [hs, if_neg (by simp), hr] at hesc
  have hnul := hp.no_nul
  rw [hr] at hnul
  unfold stepWhite
  split_ifs with hsp hdq hsq hb
  · exact reads_white hr hmode hnul hesc rfl le_rfl (Or.inl ⟨hsp, hs, rfl⟩)
  · exact reads_white hr hmode hnul hesc rfl (by simp)
      (Or.inr (Or.inl ⟨Or.inl hdq, by rw [hdq]; rfl, rfl, rfl⟩))
  · exact reads_white hr hmode hnul hesc rfl (by simp)
      (Or.inr (Or.inl ⟨Or.inr hsq, by rw [hsq]; rfl, rfl, rfl⟩))
  · exact reads_white hr hmode hnul hesc rfl (by simp)
      (Or.inr (Or.inr (Or.inl ⟨hb, rfl, rfl, rfl, rfl⟩)))
  · exact reads_white hr hmode hnul hesc rfl (by simp)
      (Or.inr (Or.inr (Or.inr ⟨hsp, not_or.2 ⟨hdq, hsq⟩, hb, rfl, hr, rfl⟩)))

theorem stepStart_reads (hp : c.Plain) (hr : c.rest = ch :: rest) (hs : c.state = .start) :
    Reads c (stepStart c ch rest) := by
  have hmode : c.mode = .white := by simp [Config.mode, hs]
  have hesc := hp.escapes
  rw [hs, if_neg (by simp), hr] at hesc
  have hnul := hp.no_nul
  rw [hr] at hnul
  have htab := hp.no_tab hs
  rw [hr] at htab
  unfold stepStart
  simp only
  split_ifs with hsq hdq hb hd hsp
  · exact reads_white hr hmode hnul hesc rfl (by simp)
      (Or.inr (Or.inl ⟨Or.inr hsq, by rw [hsq]; rfl, rfl, rfl⟩))
  · exact reads_white hr hmode hnul hesc rfl (by simp)
      (Or.inr (Or.inl ⟨Or.inl hdq, by rw [hdq]; rfl, rfl, rfl⟩))
  · exact reads_white hr hmode hnul hesc rfl (by simp)
      (Or.inr (Or.inr (Or.inl ⟨hb, rfl, rfl, rfl, rfl⟩)))
  · exact absurd hd ((escapes_cons hb).1 hesc).1
  · exact reads_white hr hmode hnul hesc rfl (by simp)
      (Or.inl ⟨hsp.resolve_right htab, rfl, rfl⟩)
  · exact reads_white hr hmode hnul hesc rfl (by simp)
      (Or.inr (Or.inr (Or.inr ⟨fun h => hsp (Or.inl h), not_or.2 ⟨hdq, hsq⟩, hb, rfl, hr, rfl⟩)))

/-- Every pass reads as the lexer does, up to the end of the line. -/
theorem step_reads (hp : c.Plain) (values : List Char → List (List Char)) :
    (c.rest = [] ∧ step id values c = .leave (.returned c.out)) ∨
      ∃ c', step id values c = .again c' ∧ Reads c c' := by
  cases hr : c.rest with
  | nil =>
    refine Or.inl ⟨rfl, ?_⟩
    rw [step, hr]
  | cons ch rest =>
    have hn : ch ≠ nul := by
      rintro rfl
      exact hp.no_nul (by rw [hr]; exact List.mem_cons_self)
    right
    unfold step
    rw [hr]
    simp only [if_neg hn]
    cases hs : c.state with
    | start => exact ⟨_, rfl, stepStart_reads hp hr hs⟩
    | end_ => exact absurd (hp.at_end hs) (by simp [hr])
    | literal => exact ⟨_, rfl, stepLiteral_reads hp hr hs⟩
    | squoted => exact ⟨_, rfl, stepQuoted_reads hp hr (Or.inl ⟨hs, rfl⟩)⟩
    | dquoted => exact ⟨_, rfl, stepQuoted_reads hp hr (Or.inr ⟨hs, rfl⟩)⟩
    | var => exact absurd hs hp.not_var
    | escaped => exact ⟨_, rfl, stepEscaped_reads hp hr hs⟩
    | white => exact ⟨_, rfl, stepWhite_reads hp hr hs⟩

/-! ## Runs -/

variable {before : ℕ → ℕ → ℕ} {env l : List (List Char)} {b : Buffer} {line : List Char}

/-- On a plain line no buffer but the first one is allocated. -/
theorem allocate_size (before : ℕ → ℕ → ℕ) (env : List (List Char)) (hp : c.Plain)
    (hb : c.state = .start ∨ b.size = maxArgSz) :
    ∃ b', allocate before env c b = some b' ∧ b'.size = maxArgSz := by
  unfold allocate
  cases hs : c.state with
  | start => exact ⟨_, rfl, rfl⟩
  | var => exact absurd hs hp.not_var
  | white =>
    have hsize := hb.resolve_left (by simp [hs])
    by_cases hsp : peek c.rest = ' '
    · exact ⟨b, if_pos hsp, hsize⟩
    · exact ⟨{ b with size := maxArgSz }, if_neg hsp, rfl⟩
  | _ => exact ⟨b, rfl, hb.resolve_left (by simp [hs])⟩

/-- A pass reads on as long as the argument fits. -/
theorem bufferStep_reads (before : ℕ → ℕ → ℕ) (env : List (List Char)) (hp : c.Plain)
    (hb : c.state = .start ∨ b.size = maxArgSz) :
    (c.rest = [] ∧ bufferStep before env (c, b) = .leave (some (.returned c.out))) ∨
      ∃ c' b', step id (envValues env) c = .again c' ∧ Reads c c' ∧ b'.size = maxArgSz ∧
        bufferStep before env (c, b) =
          if stored c c' ≤ maxArgSz then .again (c', b') else .leave none := by
  rcases step_reads hp (envValues env) with ⟨hr, hstep⟩ | ⟨c', hstep, hreads⟩
  · exact Or.inl ⟨hr, by rw [bufferStep, hstep]⟩
  · obtain ⟨b', hb', hsize⟩ := allocate_size before env hp hb
    refine Or.inr ⟨c', b', hstep, hreads, hsize, ?_⟩
    simp only [bufferStep, hstep, hb', hsize]

/-- The words of a whole line. -/
theorem Config.words_init (h : final .white = false) :
    (Config.init line l).words final = readWords final line .white [] := by
  cases line with
  | nil => rw [Config.words_nil rfl, readWords_nil, h]; rfl
  | cons ch line => exact Config.words_cons _ rfl rfl

theorem Config.Plain.init (hnul : nul ∉ line) (hesc : Escapes (fun _ => True) line)
    (htab : peek line ≠ '\t') : (Config.init line l).Plain where
  no_nul := hnul
  escapes := hesc
  not_var := by simp [Config.init]
  at_end := by simp [Config.init]
  last := by simp [Config.init]
  no_tab := fun _ => htab

/-- If `parse` ends on a line without variables, it has appended the words of the lexer, and they
all fit in a buffer. -/
theorem parse_reads (hp : (Config.init line l).Plain) {o : Outcome Char}
    (h : parse before env line l = some o) :
    o = .returned (l ++ readWords reader.final line .white []) ∧
      ∀ w ∈ readWords reader.final line .white [], w.length < maxArgSz := by
  have hret : Returns (bufferStep before env) (.init line l, ⟨0, 0⟩) (some o) :=
    ⟨passes line, Option.join_eq_some_iff.1 h⟩
  obtain ⟨⟨c, b⟩, hvis, hleave⟩ := hret.exists_visits
  have hI := hvis.invariant
    (I := fun x => x.1.Plain ∧ (x.1.state = .start ∨ x.2.size = maxArgSz) ∧
      x.1.out ++ x.1.words reader.final = l ++ readWords reader.final line .white [] ∧
      ∃ new, x.1.out = l ++ new ∧ ∀ w ∈ new, w.length < maxArgSz)
    ⟨hp, Or.inl rfl, by rw [Config.words_init rfl]; rfl, [], by simp [Config.init], by simp⟩ ?_
  · obtain ⟨hp', hb', hout, new, hnew, hlt⟩ := hI
    rcases bufferStep_reads before env hp' hb' with ⟨hr, heq⟩ | ⟨c', b', -, -, -, heq⟩
    · rw [heq] at hleave
      cases hleave
      rw [Config.words_nil hr, List.append_nil, hnew, List.append_cancel_left_eq] at hout
      rw [← hout]
      exact ⟨by rw [hnew], hlt⟩
    · rw [heq] at hleave
      split_ifs at hleave
      cases hleave
  · rintro ⟨c, b⟩ ⟨c', b'⟩ ⟨hp', hb', hout, new, hnew, hlt⟩ hstep
    rcases bufferStep_reads before env hp' hb' with ⟨hr, heq⟩ | ⟨c'', b'', -, hreads, hsize, heq⟩
    · rw [heq] at hstep
      cases hstep
    · rw [heq] at hstep
      split_ifs at hstep with hle
      cases hstep
      refine ⟨hreads.plain, Or.inr hsize, hreads.out.trans hout, ?_⟩
      rcases hreads.appended with ho | ho
      · exact ⟨new, ho.trans hnew, hlt⟩
      · refine ⟨new ++ [c'.arg], by rw [ho, hnew, List.append_assoc], ?_⟩
        have : c'.arg.length < maxArgSz := by
          rw [stored, if_pos (by simp [ho])] at hle
          omega
        simpa [or_imp, forall_and] using ⟨hlt, this⟩

/-- Conversely, on a line without variables whose words all fit in a buffer, `parse` appends the
words of the lexer. The last word has to fit even if it is never appended. -/
theorem parse_of_fits (hp : (Config.init line l).Plain)
    (hfit : ∀ w ∈ readWords (· ≠ .white) line .white [], w.length < maxArgSz) :
    parse before env line l =
      some (.returned (l ++ readWords reader.final line .white [])) := by
  let I : Config Char × Buffer → Prop := fun x =>
    x.1.Plain ∧ x.1.Good ∧ (x.1.state = .start ∨ x.2.size = maxArgSz) ∧
      ∀ w ∈ x.1.words (· ≠ .white), w.length < maxArgSz
  have hinit : I (.init line l, ⟨0, 0⟩) :=
    ⟨hp, Config.Good.init line l, Or.inl rfl, by rwa [Config.words_init rfl]⟩
  -- no store lies outside of the buffer
  have hfits : ∀ c c', Reads c c' → (∀ w ∈ c.words (· ≠ .white), w.length < maxArgSz) →
      stored c c' ≤ maxArgSz := by
    intro c c' hreads hlt
    rcases hreads.bytes with h0 | ⟨w, hw, hpre⟩
    · omega
    · have := hlt w hw
      have := hpre.length_le
      unfold stored
      split_ifs <;> omega
  have hstep : ∀ x y, I x → bufferStep before env x = .again y → I y ∧ y.1.measure < x.1.measure := by
    rintro ⟨c, b⟩ ⟨c', b'⟩ ⟨hp', hg, hb', hlt⟩ hstep
    rcases bufferStep_reads before env hp' hb' with ⟨hr, heq⟩ | ⟨c'', b'', hc, hreads, hsize, heq⟩
    · rw [heq] at hstep
      cases hstep
    · rw [heq, if_pos (hfits c c'' hreads hlt)] at hstep
      cases hstep
      obtain ⟨hg', hlt'⟩ := step_progress hg hc
      exact ⟨⟨hreads.plain, hg', Or.inr hsize, fun w hw => hlt w (hreads.all w hw)⟩, hlt'⟩
  obtain ⟨o, ho⟩ := exists_iterate (fun x : Config Char × Buffer => x.1.measure) hinit hstep
    (measure_init_lt line l)
  obtain ⟨⟨c, b⟩, hvis, hleave⟩ := Returns.exists_visits ⟨_, ho⟩
  obtain ⟨hp', -, hb', hlt⟩ := hvis.invariant hinit fun a b hI h => (hstep a b hI h).1
  have hsome : ∃ r, o = some r := by
    rcases bufferStep_reads before env hp' hb' with ⟨hr, heq⟩ | ⟨c', b', -, hreads, -, heq⟩
    · rw [heq] at hleave
      cases hleave
      exact ⟨_, rfl⟩
    · rw [heq, if_pos (hfits c c' hreads hlt)] at hleave
      cases hleave
  obtain ⟨r, rfl⟩ := hsome
  have hparse : parse before env line l = some r := by rw [parse, ho]; rfl
  rw [hparse, (parse_reads hp hparse).1]

end Sem3.Shell
