import Sem3.Shell.Proofs.LineProofs
import Sem3.Shell.Proofs.PlainProofs
import Sem3.Shell.Proofs.TemplateProofs

/-!
# Proofs: the bounds of the argument buffers

A pass of the machine with its buffer stays inside of it if and only if there is room for the atoms
that the pass takes off the line. So a run stays inside of its buffers if and only if there is room
for the line (`parse_ne_none_iff`), which is the case for all contents of the memory if and only if
every word fits in the first buffer (`inBounds_iff`).
-/

namespace Sem3.Shell

open Loop

variable {before : ℕ → ℕ → ℕ} {env : List (List Char)} {m m' : Spot} {a : Atom} {as : List Atom}
  {j : ℕ} {b b' : Buffer} {ch : Char} {quote : Option Char}

/-! ## Room for an atom -/

theorem room_cons : Room before env (a :: as) m j b ↔ (m.ends a → j + 1 ≤ b.size) ∧
    ∃ j' b', store before env m a j b = some (j', b') ∧ Room before env as (m.next a) j' b' := Iff.rfl

/-- An atom that is no part of the word is not stored. -/
theorem store_skip (hk : m.keeps a = false) : store before env m a j b =
    some (if m = .white then 0 else j, if m = .white then { b with size := maxArgSz } else b) := by
  simp [store, hk]

theorem store_var {name : List Char} (hk : m.keeps (.var name) = true) :
    store before env m (.var name) j b =
      (copyValues before name.length 0 (if m = .white then 0 else j) (env.map (entryValue name))
        (if m = .white then { b with size := maxArgSz } else b)).map
          ((if m = .white then 0 else j) + Atom.bytes env (.var name), ·) := by
  simp only [store, hk, if_true]

theorem store_put (hk : m.keeps a = true) (ha : ∀ name, a ≠ .var name) :
    store before env m a j b =
      if (if m = .white then 0 else j) + 1 ≤
          (if m = .white then { b with size := maxArgSz } else b : Buffer).size then
        some ((if m = .white then 0 else j) + 1,
          if m = .white then { b with size := maxArgSz } else b)
      else none := by
  cases a with
  | var name => exact absurd rfl (ha name)
  | char | escaped | bad | backslash | dollar => simp only [store, hk, if_true]

theorem room_broken (as : List Atom) (j : ℕ) (b : Buffer) : Room before env as .broken j b := by
  induction as generalizing j b with
  | nil => exact fun h => by simp [cutter] at h
  | cons a as ih =>
    exact room_cons.2 ⟨fun h => by simp [Spot.ends] at h, _, _, store_skip rfl, ih _ _⟩

/-- The atom marks an error. -/
def Atom.IsError (a : Atom) : Prop := a = .bad ∨ a = .backslash ∨ a = .dollar

theorem Atom.IsError.next (ha : a.IsError) : m.next a = .broken := by
  rcases ha with rfl | rfl | rfl <;> cases m <;> rfl

theorem Atom.IsError.keeps (ha : a.IsError) : m.keeps a = false := by
  rcases ha with rfl | rfl | rfl <;> cases m <;> rfl

theorem Atom.IsError.ends (ha : a.IsError) : m.ends a = false := by
  rcases ha with rfl | rfl | rfl <;> simp [Spot.ends]

/-- Nothing is stored behind an error. -/
theorem room_error (ha : a.IsError) : Room before env (a :: as) m j b :=
  room_cons.2 ⟨by simp [ha.ends], _, _, store_skip ha.keeps, ha.next ▸ room_broken _ _ _⟩

/-- An atom that is not stored, and does not end a word. -/
theorem room_skip (hm : m ≠ .white) (hk : m.keeps a = false) (he : m.ends a = false) :
    Room before env (a :: as) m j b ↔ Room before env as (m.next a) j b := by
  rw [room_cons]
  simp [store, hk, he, hm]

theorem room_put (hm : m ≠ .white) (hk : m.keeps a = true) (he : m.ends a = false)
    (ha : ∀ name, a ≠ .var name) :
    Room before env (a :: as) m j b ↔ j + 1 ≤ b.size ∧ Room before env as (m.next a) (j + 1) b := by
  rw [room_cons, store_put hk ha, if_neg hm, if_neg hm, he]
  by_cases hj : j + 1 ≤ b.size <;> simp [hj]

/-- The end of a word needs one byte for the terminator. -/
theorem room_space (hm : m ≠ .white) (he : m.ends (.char ' ') = true) :
    Room before env (.char ' ' :: as) m j b ↔ j + 1 ≤ b.size ∧ Room before env as .white j b := by
  have hq : m.quote = none := by
    simp only [Spot.ends, decide_eq_true_eq] at he
    exact he.2.2.1
  have hspace : ¬ IsQuote ' ' := by decide
  have hnext : m.next (.char ' ') = .white := by
    cases m <;> simp_all [Spot.next, Spot.within, Spot.ends]
  have hk : m.keeps (.char ' ') = false := by
    cases m <;> simp_all [Spot.keeps, Spot.ends]
  rw [room_cons]
  simp [store, hk, he, hm, hnext]

/-- Inside of a word a quote is skipped. -/
theorem room_quote (h : IsQuote ch) : Room before env (.char ch :: as) (.inside none) j b ↔
    Room before env as (.inside none) j b := by
  have hsp : ch ≠ ' ' := isQuote_ne_space h
  have hnext : (Spot.inside none).next (.char ch) = .inside none := by
    simp [Spot.next, Spot.within, Spot.opens, Spot.quote, hsp]
  rw [room_skip (by simp) (by simp [Spot.keeps, Spot.quote, h]) (by simp [Spot.ends, hsp]), hnext]

theorem room_char (hq : ¬ IsQuote ch) (hsp : ch ≠ ' ') :
    Room before env (.char ch :: as) (.inside none) j b ↔
      j + 1 ≤ b.size ∧ Room before env as (.inside none) (j + 1) b := by
  have hnext : (Spot.inside none).next (.char ch) = .inside none := by
    simp [Spot.next, Spot.within, Spot.opens, Spot.quote, hsp]
  rw [room_put (by simp) (by simp [Spot.keeps, Spot.quote, hq, hsp]) (by simp [Spot.ends, hsp])
    (by simp), hnext]

/-- In a section only the character that closes it is not stored. -/
theorem room_section_char {q : Char} (h : ch ≠ q) :
    Room before env (.char ch :: as) (.inside (some q)) j b ↔
      j + 1 ≤ b.size ∧ Room before env as (.inside (some q)) (j + 1) b := by
  have hnext : (Spot.inside (some q)).next (.char ch) = .inside (some q) := by
    simp [Spot.next, Spot.within, Spot.opens, Spot.quote, h]
  rw [room_put (by simp) (by simp [Spot.keeps, Spot.opens, Spot.quote, h])
    (by simp [Spot.ends, Spot.quote]) (by simp), hnext]

theorem room_section_close {q : Char} :
    Room before env (.char q :: as) (.inside (some q)) j b ↔
      Room before env as (.inside none) j b := by
  have hnext : (Spot.inside (some q)).next (.char q) = .inside none := by
    simp [Spot.next, Spot.within, Spot.opens, Spot.quote]
  rw [room_skip (by simp) (by simp [Spot.keeps, Spot.opens, Spot.quote])
    (by simp [Spot.ends, Spot.quote]), hnext]

/-- Between two words the buffer is not used any more. -/
theorem room_white {j' : ℕ} (hc : b'.cap = b.cap) :
    Room before env as .white j b ↔ Room before env as .white j' b' := by
  cases as with
  | nil => simp [Room, cutter]
  | cons a as => simp [Room, Spot.ends, store, hc]

theorem room_white_space :
    Room before env (.char ' ' :: as) .white j b ↔ Room before env as .white j b := by
  have hk : Spot.white.keeps (.char ' ') = false := by decide
  have hnext : Spot.white.next (.char ' ') = .white := by decide
  rw [room_cons, store_skip hk, hnext]
  have hsame : Room before env as .white 0 { b with size := maxArgSz } ↔
      Room before env as .white j b := room_white rfl
  simpa [Spot.ends] using hsame

theorem room_white_quote (h : IsQuote ch) : Room before env (.char ch :: as) .white j b ↔
    Room before env as (.inside (some ch)) 0 { b with size := maxArgSz } := by
  have hk : Spot.white.keeps (.char ch) = false := by simp [Spot.keeps, Spot.quote, h]
  have hnext : Spot.white.next (.char ch) = .inside (some ch) := by
    simp [Spot.next, Spot.opens, h]
  rw [room_cons, store_skip hk, hnext]
  simp [Spot.ends]

/-- Every other atom begins a word. -/
theorem room_white_open (h : ∀ d, a = .char d → ¬ IsQuote d ∧ d ≠ ' ') :
    Room before env (a :: as) .white j b ↔
      Room before env (a :: as) (.inside none) 0 { b with size := maxArgSz } := by
  have hnext : Spot.white.next a = (Spot.inside none).next a := by
    cases a with
    | char d => simp [Spot.next, Spot.quote, h d rfl]
    | escaped | var | bad | backslash | dollar => rfl
  have hk : Spot.white.keeps a = (Spot.inside none).keeps a := by
    cases a with
    | char d => simp [Spot.keeps, Spot.quote]
    | escaped | var | bad | backslash | dollar => rfl
  have he : (Spot.inside none).ends a = false := by
    simp only [Spot.ends, decide_eq_false_iff_not]
    rintro ⟨-, -, -, rfl⟩
    exact (h ' ' rfl).2 rfl
  have hw : Spot.white.ends a = false := by simp [Spot.ends]
  rw [room_cons, room_cons, hnext, he, hw]
  simp [store, hk]

/-- Behind an escaped character only a quote is read in another way. -/
theorem room_afterEscape (h : ∀ d, a = .char d → ¬ IsQuote d) :
    Room before env (a :: as) (.afterEscape quote) j b ↔
      Room before env (a :: as) (.inside quote) j b := by
  have hnext : (Spot.afterEscape quote).next a = (Spot.inside quote).next a := by
    cases a with
    | char d => simp [Spot.next, Spot.within, Spot.opens, Spot.quote, h d rfl]
    | escaped | var | bad | backslash | dollar => rfl
  have hk : (Spot.afterEscape quote).keeps a = (Spot.inside quote).keeps a := by
    cases a with
    | char d => simp [Spot.keeps, Spot.opens, Spot.quote, h d rfl]
    | escaped | var | bad | backslash | dollar => rfl
  rw [room_cons, room_cons, hnext]
  simp [Spot.ends, Spot.quote, store, hk]

theorem room_afterEscape_quote (h : IsQuote ch) :
    Room before env (.char ch :: as) (.afterEscape quote) j b ↔
      Room before env as (.inside (some ch)) j b := by
  have hsp : ch ≠ ' ' := isQuote_ne_space h
  have hk : (Spot.afterEscape quote).keeps (.char ch) = false := by
    cases quote <;> simp [Spot.keeps, Spot.quote, Spot.opens, h]
  have hnext : (Spot.afterEscape quote).next (.char ch) = .inside (some ch) := by
    simp [Spot.next, Spot.opens, h]
  rw [room_skip (by simp) hk (by simp [Spot.ends, hsp]), hnext]

/-- A variable only makes a difference at the end of the line. -/
theorem room_afterVar : Room before env (a :: as) (.afterVar quote) j b ↔
    Room before env (a :: as) (.inside quote) j b := by
  have hnext : (Spot.afterVar quote).next a = (Spot.inside quote).next a := by
    cases a <;> rfl
  have hk : (Spot.afterVar quote).keeps a = (Spot.inside quote).keeps a := by
    cases a <;> rfl
  rw [room_cons, room_cons, hnext]
  simp [Spot.ends, Spot.quote, store, hk]

theorem room_var {name : List Char} (hm : m ≠ .white) (hb : m ≠ .broken) :
    Room before env (.var name :: as) m j b ↔
      ∃ b', copyValues before name.length 0 j (env.map (entryValue name)) b = some b' ∧
        Room before env as (.afterVar m.quote) (j + (valuesOf env name).flatten.length) b' := by
  have hnext : m.next (.var name) = .afterVar m.quote := by
    cases m <;> first | rfl | exact absurd rfl hb
  have hk : m.keeps (.var name) = true := by
    cases m <;> first | rfl | exact absurd rfl hb
  rw [room_cons, hnext]
  simp [Spot.ends, store, hk, hm, Atom.bytes]

/-- The last value that is copied ends inside of the buffer. -/
theorem copyValues_le {vs : List (Option (List Char))} {nd ei : ℕ}
    (hj : j ≤ b.size ∨ vs.filterMap id ≠ []) (h : copyValues before nd ei j vs b = some b') :
    j + (vs.filterMap id).flatten.length ≤ b'.size := by
  induction vs generalizing ei j b with
  | nil =>
    rw [copyValues, Option.some.injEq] at h
    subst h
    simpa using hj
  | cons v vs ih =>
    cases v with
    | none => exact ih hj h
    | some v =>
      simp only [copyValues, Option.ite_none_right_eq_some] at h
      have := ih (Or.inl h.1) h.2
      have hcons : (some v :: vs).filterMap id = v :: vs.filterMap id := rfl
      rw [hcons, List.flatten_cons, List.length_append]
      omega

/-! ## Room for what is left of the line -/

variable {c c' : Config Char} {rest : List Char}

/-- Where the text that is left stands. -/
def Config.spot (c : Config Char) : Spot :=
  match c.state with
  | .literal | .squoted | .dquoted => .inside (quoteOf c.state)
  | .var | .escaped => .inside (quoteOf c.laststate)
  | _ => .white

/-- There is room for what is left of the line. At its end everything is stored. -/
def Fits (before : ℕ → ℕ → ℕ) (env : List (List Char)) (c : Config Char) (b : Buffer) : Prop :=
  c.rest = [] ∨ Room before env c.atoms c.spot c.arg.length b

/-- Before the end of the line it only matters what is left. -/
theorem fits_of_rest (hr : c.rest ≠ []) :
    Fits before env c b ↔ Room before env c.atoms c.spot c.arg.length b := or_iff_right hr

/-- At the end of the line there is nothing to do in a state that has not stored a word. -/
theorem fits_iff_room (h : c.rest = [] → c.behind = .plain → cutter.final c.spot = false) :
    Fits before env c b ↔ Room before env c.atoms c.spot c.arg.length b := by
  refine ⟨fun hc => hc.elim (fun hr => ?_) id, Or.inr⟩
  rw [Config.atoms, hr]
  cases hb : c.behind with
  | plain => exact fun hf => by simp [h hr hb] at hf
  | backslash => exact room_error (Or.inr (Or.inl rfl))
  | name n =>
    have hn : n = [] := by
      unfold Config.behind at hb
      split at hb <;> simp_all
    rw [hn]
    exact room_error (Or.inr (Or.inr rfl))

theorem spot_of_back (h : c.state = .literal ∨ c.state = .squoted ∨ c.state = .dquoted) :
    c.spot = .inside (quoteOf c.state) := by
  rcases h with h | h | h <;> simp [Config.spot, h]

/-- Inside of a word the text goes on where the state says. -/
theorem fits_back (hback : c.state = .literal ∨ c.state = .squoted ∨ c.state = .dquoted)
    (h : c.rest ≠ [] ∨ quoteOf c.state ≠ none) : Fits before env c b ↔
      Room before env (atoms c.rest .plain) (.inside (quoteOf c.state)) c.arg.length b := by
  have hspot := spot_of_back hback
  have hquiet : c.rest = [] → c.behind = .plain → cutter.final c.spot = false := by
    intro hr _
    rw [hspot]
    simpa [cutter, hr] using h
  rw [fits_iff_room hquiet, Config.atoms, behind_of_back hback, hspot]

/-! ## One pass -/

/-- A pass stores in `b'` what it stores, and leaves the rest of the line to be stored. -/
def PassFits (before : ℕ → ℕ → ℕ) (env : List (List Char)) (c c' : Config Char) (b b' : Buffer) :
    Prop :=
  Fits before env c b ↔ stored c c' ≤ b'.size ∧ Fits before env c' b'

/-- A pass that appends the argument needs a byte for the terminator. -/
theorem passFits_of_append (hr : c.rest ≠ []) (hout : c'.out = c.out ++ [c'.arg])
    (h : Room before env c.atoms c.spot c.arg.length b ↔
      c'.arg.length + 1 ≤ b'.size ∧ Fits before env c' b') : PassFits before env c c' b b' := by
  rw [PassFits, fits_of_rest hr, stored, if_pos (by simp [hout]), h]

/-- A pass that does not append it needs room for what it adds. -/
theorem passFits_of_out (hr : c.rest ≠ []) (hout : c'.out = c.out)
    (h : Room before env c.atoms c.spot c.arg.length b ↔
      (c.arg.length < c'.arg.length → c'.arg.length ≤ b'.size) ∧ Fits before env c' b') :
    PassFits before env c c' b b' := by
  have hstored : stored c c' ≤ b'.size ↔
      (c.arg.length < c'.arg.length → c'.arg.length ≤ b'.size) := by
    rw [stored, if_neg (by simp [hout])]
    by_cases hlt : c.arg.length < c'.arg.length <;> simp [hlt]
  rw [PassFits, fits_of_rest hr, hstored, h]

/-- A backslash or a `$` stores nothing, and its atom is still to come. -/
theorem passFits_of_atoms (hr : c.rest ≠ []) (hatoms : c'.atoms = c.atoms) (hspot : c'.spot = c.spot)
    (harg : c'.arg = c.arg) (hout : c'.out = c.out) (hplain : c'.behind ≠ .plain) :
    PassFits before env c c' b b := by
  refine passFits_of_out hr hout ?_
  rw [fits_iff_room (fun _ h => absurd h hplain), hatoms, hspot, harg]
  simp

/-- Inside of a word the argument is also appended at the end of the line. -/
theorem passFits_word {arg : List Char} (hr : c.rest ≠ []) (hs : c.state = .literal)
    (h : Room before env c.atoms c.spot c.arg.length b ↔
      (c.arg.length < arg.length → arg.length ≤ b.size) ∧
        Room before env (atoms rest .plain) (.inside none) arg.length b) :
    PassFits before env c
      (if rest = [] then { c with state := .end_, arg, rest, out := c.out ++ [arg] }
        else { c with arg, rest }) b b := by
  by_cases hn : rest = []
  · rw [if_pos hn]
    refine passFits_of_append hr rfl ?_
    have hend : Room before env [] (.inside none) arg.length b ↔ arg.length + 1 ≤ b.size := by
      simp [Room, cutter]
    rw [h, hn, atoms_nil, hend]
    simp only [Fits, true_or, and_true, and_iff_right_iff_imp]
    intro _ _
    omega
  · rw [if_neg hn]
    refine passFits_of_out hr rfl ?_
    have hfits : Fits before env { c with arg, rest } b ↔
        Room before env (atoms rest .plain) (.inside (quoteOf c.state)) arg.length b :=
      fits_back (Or.inl hs) (Or.inl hn)
    rw [h, hfits, hs]
    rfl

theorem stepLiteral_fits (hr : c.rest = ch :: rest) (hs : c.state = .literal) (hnul : nul ∉ rest) :
    PassFits before env c (stepLiteral id c ch rest) b b := by
  have hne : c.rest ≠ [] := by simp [hr]
  have hspot : c.spot = .inside none := by simp [Config.spot, hs, quoteOf]
  have hatoms : c.atoms = atoms (ch :: rest) .plain := by simp [Config.atoms, Config.behind, hs, hr]
  have hpeek := peek_eq_nul hnul
  have hword : ∀ arg : List Char, _ → PassFits before env c
      (if rest = [] then { c with state := .end_, arg, rest, out := c.out ++ [arg] }
        else { c with arg, rest }) b b := fun _ => passFits_word hne hs
  unfold stepLiteral
  simp only
  by_cases hq : IsQuote ch
  · have := hword c.arg (by
      rw [hatoms, hspot, atoms_quote hq, room_quote hq]
      simp)
    simpa [hq, hs, hpeek, Config.append] using this
  by_cases hb : ch = '\\'
  · subst hb
    have : PassFits before env c { c with state := .escaped, laststate := .literal, rest } b b :=
      passFits_of_atoms hne hatoms.symm hspot.symm rfl rfl (by simp [Config.behind])
    simpa [hs] using this
  by_cases hd : ch = '$'
  · subst hd
    have : PassFits before env c { c with state := .var, laststate := .literal, rest } b b :=
      passFits_of_atoms hne hatoms.symm hspot.symm rfl rfl (by simp [Config.behind])
    simpa [hs] using this
  by_cases hsp : ch = ' '
  · subst hsp
    have : PassFits before env c { c.append with state := .white, rest } b b := by
      refine passFits_of_append hne rfl ?_
      rw [hatoms, hspot, atoms_char (by decide) (by decide), room_space (by simp) (by decide),
        fits_iff_room fun _ _ => rfl]
      rfl
    simpa [hs] using this
  · have := hword (c.arg ++ [ch]) (by
      rw [hatoms, hspot, atoms_char hb hd, room_char hq hsp]
      simp)
    simpa [hq, hb, hd, hsp, hs, hpeek, Config.append] using this

/-- Behind the end of a section the word is appended before the space or the end of the line. -/
theorem stepQuoted_close_fits {q : Char} (hr : c.rest = q :: rest)
    (hroom : Room before env c.atoms c.spot c.arg.length b ↔
      Room before env (atoms rest .plain) (.inside none) c.arg.length b) (hnul : nul ∉ rest) :
    PassFits before env c (stepQuoted q id c q rest) b b := by
  have hne : c.rest ≠ [] := by simp [hr]
  have hpeek := peek_eq_nul hnul
  rw [stepQuoted, if_pos rfl]
  by_cases hn : rest = []
  · rw [if_pos (hpeek.2 hn)]
    refine passFits_of_append hne rfl ?_
    rw [hroom, hn]
    simp [Room, cutter, Fits]
  rw [if_neg fun h => hn (hpeek.1 h)]
  by_cases hsp : peek rest = ' '
  · rw [if_pos hsp]
    refine passFits_of_append hne rfl ?_
    obtain ⟨rest', rfl⟩ : ∃ rest', rest = ' ' :: rest' := by
      cases rest with
      | nil => exact absurd rfl hn
      | cons d rest' => exact ⟨rest', congrArg (· :: rest') hsp⟩
    have hspace : atoms (' ' :: rest') .plain = .char ' ' :: atoms rest' .plain :=
      atoms_char (by decide) (by decide)
    have hwhite : Room before env (atoms (' ' :: rest') .plain) .white c.arg.length b ↔
        Room before env (atoms rest' .plain) .white c.arg.length b := by
      rw [hspace, room_white_space]
    rw [hroom, hspace, room_space (by simp) (by decide), fits_iff_room fun _ _ => rfl, ← hwhite]
    rfl
  · rw [if_neg hsp]
    refine passFits_of_out hne rfl ?_
    rw [hroom, fits_back (Or.inl rfl) (Or.inl hn)]
    simp [quoteOf]

theorem stepQuoted_fits {q : Char} (hr : c.rest = ch :: rest)
    (hs : (c.state = .squoted ∧ q = '\'') ∨ (c.state = .dquoted ∧ q = '"')) (hnul : nul ∉ rest) :
    PassFits before env c (stepQuoted q id c ch rest) b b := by
  have hq : IsQuote q := by rcases hs with ⟨_, rfl⟩ | ⟨_, rfl⟩ <;> decide
  have hquote : quoteOf c.state = some q := by
    rcases hs with ⟨h, rfl⟩ | ⟨h, rfl⟩ <;> rw [h] <;> rfl
  have hne : c.rest ≠ [] := by simp [hr]
  have hspot : c.spot = .inside (some q) := by
    rcases hs with ⟨h, rfl⟩ | ⟨h, rfl⟩ <;> simp [Config.spot, h, quoteOf]
  have hbehind : c.behind = .plain := by
    rcases hs with ⟨h, -⟩ | ⟨h, -⟩ <;> simp [Config.behind, h]
  have hatoms : c.atoms = atoms (ch :: rest) .plain := by rw [Config.atoms, hbehind, hr]
  by_cases hc : ch = q
  · subst hc
    refine stepQuoted_close_fits hr ?_ hnul
    rw [hatoms, hspot, atoms_quote hq, room_section_close]
  rw [stepQuoted, if_neg hc]
  by_cases hb : ch = '\\'
  · rw [if_pos hb]
    subst hb
    exact passFits_of_atoms hne hatoms.symm (by rw [hspot]; simp [Config.spot, hquote]) rfl rfl
      (by simp [Config.behind])
  rw [if_neg hb]
  by_cases hd : ch = '$'
  · rw [if_pos hd]
    subst hd
    exact passFits_of_atoms hne hatoms.symm (by rw [hspot]; simp [Config.spot, hquote]) rfl rfl
      (by simp [Config.behind])
  rw [if_neg hd]
  refine passFits_of_out hne rfl ?_
  have hfits : Fits before env { c with arg := c.arg ++ [id ch], rest } b ↔
      Room before env (atoms rest .plain) (.inside (quoteOf c.state)) (c.arg ++ [id ch]).length b :=
    fits_back (Or.inr (hs.imp And.left And.left)) (Or.inr (by simp [hquote]))
  rw [hfits, hquote, hatoms, hspot, atoms_char hb hd, room_section_char hc]
  simp

/-- Behind a backslash the character is stored, and the text goes on in the state `st`. -/
theorem passFits_escaped {st : Parsestate} (hne : c.rest ≠ [])
    (hst : st = .literal ∨ st = .squoted ∨ st = .dquoted) (h : rest ≠ [] ∨ quoteOf st ≠ none)
    (hroom : Room before env c.atoms c.spot c.arg.length b ↔ c.arg.length + 1 ≤ b.size ∧
      Room before env (atoms rest .plain) (.inside (quoteOf st)) (c.arg.length + 1) b) :
    PassFits before env c { c with state := st, arg := c.arg ++ [ch], rest } b b := by
  refine passFits_of_out hne rfl ?_
  rw [hroom, fits_back hst h]
  simp

theorem stepEscaped_fits (hr : c.rest = ch :: rest) (hs : c.state = .escaped) (ht : c.Tidy) :
    PassFits before env c (stepEscaped id c ch rest) b b := by
  have hnul : nul ∉ rest := fun h => ht.no_nul (by rw [hr]; exact List.mem_cons_of_mem _ h)
  have hne : c.rest ≠ [] := by simp [hr]
  have hspot : c.spot = .inside (quoteOf c.laststate) := by simp [Config.spot, hs]
  have hatoms : c.atoms = .escaped ch :: atoms rest .plain := by
    simp [Config.atoms, Config.behind, hs, hr]
  have hroom : Room before env c.atoms c.spot c.arg.length b ↔ c.arg.length + 1 ≤ b.size ∧
      Room before env (atoms rest .plain) (.afterEscape (quoteOf c.laststate)) (c.arg.length + 1) b := by
    rw [hatoms, hspot, room_put (by simp) rfl (by simp [Spot.ends]) (by simp)]
    rfl
  unfold stepEscaped
  simp only [id]
  cases rest with
  | nil =>
    have : PassFits before env c { c with
        state := c.laststate, arg := c.arg ++ [ch], rest := [], out := c.out ++ [c.arg ++ [ch]] }
        b b := by
      refine passFits_of_append hne rfl ?_
      rw [hroom]
      simp only [atoms_nil, Room, cutter, true_imp_iff, Fits, true_or, and_true,
        List.length_append, List.length_singleton]
      omega
    have hnq : nul ≠ '"' ∧ nul ≠ '\'' := by decide
    simpa [peek, hnq, Config.append] using this
  | cons d rest =>
    have hd : d ≠ nul := fun h => hnul (by rw [h]; exact List.mem_cons_self)
    have hpeek : peek (d :: rest) = d := rfl
    by_cases hq : IsQuote d
    · -- the quote opens a section
      rw [atoms_quote hq, room_afterEscape_quote hq] at hroom
      rcases hq with rfl | rfl
      · have : PassFits before env c { c with state := .dquoted, arg := c.arg ++ [ch], rest } b b :=
          passFits_escaped hne (by simp) (by simp [quoteOf]) hroom
        simpa [hpeek, hd] using this
      · have : PassFits before env c { c with state := .squoted, arg := c.arg ++ [ch], rest } b b :=
          passFits_escaped hne (by simp) (by simp [quoteOf]) hroom
        simpa [hpeek, hd] using this
    · obtain ⟨a, as, has, ha⟩ := atoms_head d rest
      have hafter : Room before env (atoms (d :: rest) .plain) (.afterEscape (quoteOf c.laststate))
          (c.arg.length + 1) b ↔ Room before env (atoms (d :: rest) .plain)
            (.inside (quoteOf c.laststate)) (c.arg.length + 1) b := by
        rw [has, room_afterEscape fun e he => by rw [ha e he]; exact hq]
      have : PassFits before env c
          { c with state := c.laststate, arg := c.arg ++ [ch], rest := d :: rest } b b :=
        passFits_escaped hne (ht.back (Or.inr hs)) (by simp) (hroom.trans (by rw [hafter]))
      simp only [IsQuote, not_or] at hq
      simpa [hpeek, hd, hq.1, hq.2] using this

theorem filterMap_entryValue (env : List (List Char)) (name : List Char) :
    (env.map (entryValue name)).filterMap id = valuesOf env name := by
  rw [List.filterMap_map, ← envValues_eq]
  rfl

/-- A variable fits if its values can be copied, one after the other. -/
theorem stepVar_fits (hs : c.state = .var) (ht : c.Tidy)
    (h : stepVar (envValues env) c = .again c') :
    Fits before env c b ↔
      ∃ b', allocate before env c b = some b' ∧ stored c c' ≤ b'.size ∧ Fits before env c' b' := by
  have hexp := stepVar_expands h
  have hback := ht.back (Or.inl hs)
  have hne : c.rest ≠ [] := fun hr => hexp.name (by simp [hr])
  have hspot : c.spot = .inside (quoteOf c.laststate) := by simp [Config.spot, hs]
  have hnul : nul ∉ c'.rest := fun hn => ht.no_nul
    ((List.dropWhile_suffix isNameChar).subset (hexp.rest ▸ hn))
  have halloc : allocate before env c b = copyValues before (c.rest.takeWhile isNameChar).length 0
      c.arg.length (env.map (entryValue (c.rest.takeWhile isNameChar))) b := by
    simp [allocate, hs]
  have harg : c'.arg.length =
      c.arg.length + (valuesOf env (c.rest.takeWhile isNameChar)).flatten.length := by
    rw [hexp.arg, envValues_eq, List.length_append]
  rw [fits_of_rest hne, hexp.atoms_eq hs, hspot, room_var (by simp) (by simp), halloc, ← harg]
  refine exists_congr fun b' => and_congr_right fun hcopy => ?_
  have hout := hexp.out
  by_cases hn : c'.rest = []
  · rw [if_pos ((peek_eq_nul hnul).2 hn)] at hout
    rw [stored, if_pos (by simp [hout]), hn]
    simp [Room, cutter, Fits, hn]
  · rw [if_neg fun h => hn ((peek_eq_nul hnul).1 h)] at hout
    have hle : stored c c' ≤ b'.size := by
      rw [stored, if_neg (by simp [hout])]
      split_ifs with hlt
      · have hvalues : (env.map (entryValue (c.rest.takeWhile isNameChar))).filterMap id ≠ [] := by
          rw [filterMap_entryValue]
          intro h0
          rw [harg, h0] at hlt
          simp at hlt
        have := copyValues_le (Or.inr hvalues) hcopy
        rwa [filterMap_entryValue, ← harg] at this
      · exact Nat.zero_le _
    obtain ⟨d, s, hds⟩ : ∃ d s, c'.rest = d :: s := List.exists_cons_of_ne_nil hn
    obtain ⟨a, as, has, -⟩ := atoms_head d s
    rw [← hexp.state] at hback
    rw [fits_back hback (Or.inl hn), hexp.state, hds, has, room_afterVar]
    simp only [Spot.quote, hle, true_and]

/-! ## The beginning of a word -/

/-- The buffer of a new argument. -/
def Buffer.fresh (b : Buffer) : Buffer := { b with size := maxArgSz }

theorem fits_open (hq : ¬ IsQuote ch) (hsp : ch ≠ ' ') (harg : c'.arg = [])
    (hatoms : c'.atoms = atoms (ch :: rest) .plain) (hspot : c'.spot = .inside none)
    (hend : c'.rest = [] → c'.behind ≠ .plain) :
    Room before env (atoms (ch :: rest) .plain) .white j b ↔ Fits before env c' b.fresh := by
  obtain ⟨a, as, has, ha⟩ := atoms_head ch rest
  have hchar : ∀ d, a = .char d → ¬ IsQuote d ∧ d ≠ ' ' := fun d hd => by
    rw [ha d hd]
    exact ⟨hq, hsp⟩
  rw [fits_iff_room fun hr hb => absurd hb (hend hr), hatoms, hspot, harg, has,
    room_white_open hchar]
  rfl

theorem fits_open_quote (hs : c'.state = .squoted ∨ c'.state = .dquoted)
    (hq : quoteOf c'.state = some ch) (hr : c'.rest = rest) (harg : c'.arg = []) :
    Room before env (atoms (ch :: rest) .plain) .white j b ↔ Fits before env c' b.fresh := by
  have hquote : IsQuote ch := by
    rcases hs with hs | hs <;> rw [hs] at hq <;> cases hq <;> decide
  rw [fits_back (Or.inr hs) (Or.inr (by simp [hq])), hq, hr, harg, atoms_quote hquote,
    room_white_quote hquote]
  rfl

theorem stepWhite_fits (hr : c.rest = ch :: rest) (hs : c.state = .white) :
    ∃ b', allocate before env c b = some b' ∧
      PassFits before env c (stepWhite c ch rest) b b' := by
  have hne : c.rest ≠ [] := by simp [hr]
  have hspot : c.spot = .white := by simp [Config.spot, hs]
  have hatoms : c.atoms = atoms (ch :: rest) .plain := by simp [Config.atoms, Config.behind, hs, hr]
  have halloc : allocate before env c b = if ch = ' ' then some b else some b.fresh := by
    simp [allocate, hs, hr, peek, Buffer.fresh]
  rw [halloc]
  unfold stepWhite
  by_cases hsp : ch = ' '
  · subst hsp
    refine ⟨b, rfl, ?_⟩
    rw [if_pos rfl]
    refine passFits_of_out hne rfl ?_
    have hfits : Fits before env { c with rest } b ↔
        Room before env (atoms rest .plain) .white c.arg.length b := by
      rw [fits_iff_room fun _ _ => by simp [Config.spot, hs, cutter]]
      simp [Config.atoms, Config.behind, Config.spot, hs]
    rw [hfits, hatoms, hspot, atoms_char (by decide) (by decide), room_white_space]
    simp
  · refine ⟨b.fresh, if_neg hsp, ?_⟩
    rw [if_neg hsp]
    -- the argument is empty
    have hopen : ∀ c' : Config Char, c'.out = c.out → c'.arg = [] →
        (Room before env c.atoms c.spot c.arg.length b ↔ Fits before env c' b.fresh) →
        PassFits before env c c' b b.fresh := by
      intro c' hout harg h
      refine passFits_of_out hne hout (h.trans ?_)
      simp [harg]
    rw [hatoms, hspot] at hopen
    split_ifs with h₁ h₂ h₃
    · exact hopen _ rfl rfl (fits_open_quote (Or.inr rfl) (congrArg some h₁.symm) rfl rfl)
    · exact hopen _ rfl rfl (fits_open_quote (Or.inl rfl) (congrArg some h₂.symm) rfl rfl)
    · subst h₃
      exact hopen _ rfl rfl (fits_open (by decide) (by decide) rfl rfl rfl (by simp [Config.behind]))
    · exact hopen _ rfl rfl (fits_open (by simp [IsQuote, h₁, h₂]) hsp rfl
        (by simp [Config.atoms, Config.behind, hr]) rfl (fun h => absurd h hne))

/-- The first pass of a line. -/
theorem stepStart_fits (hr : c.rest = ch :: rest) :
    Room before env (cutAtoms c.rest) .white 0 ⟨0, maxArgSz⟩ ↔
      stored c (stepStart c ch rest) ≤ maxArgSz ∧
        Fits before env (stepStart c ch rest) ⟨maxArgSz, maxArgSz⟩ := by
  have hne : c.rest ≠ [] := by simp [hr]
  have hstored : stored c (stepStart c ch rest) = 0 := by
    refine stored_of_eq ?_ ?_
    · unfold stepStart
      simp only
      split_ifs <;> rfl
    · simp [stepStart]
  rw [hstored, and_iff_right (Nat.zero_le _), hr]
  have hcut : ch ≠ '\t' → cutAtoms (ch :: rest) = atoms (ch :: rest) .plain := fun h => if_neg h
  unfold stepStart
  simp only
  split_ifs with h₁ h₂ h₃ h₄ h₅
  · rw [hcut (by simp [h₁])]
    exact fits_open_quote (Or.inl rfl) (congrArg some h₁.symm) rfl rfl
  · rw [hcut (by simp [h₂])]
    exact fits_open_quote (Or.inr rfl) (congrArg some h₂.symm) rfl rfl
  · subst h₃
    rw [hcut (by decide)]
    exact fits_open (by decide) (by decide) rfl rfl rfl (by simp [Config.behind])
  · subst h₄
    rw [hcut (by decide)]
    exact fits_open (by decide) (by decide) rfl rfl rfl (by simp [Config.behind])
  · -- a tabulator is a space here
    have hspace : cutAtoms (ch :: rest) = .char ' ' :: atoms rest .plain := by
      rcases h₅ with rfl | rfl
      · exact (hcut (by decide)).trans (atoms_char (by decide) (by decide))
      · rfl
    rw [hspace, room_white_space, fits_iff_room fun _ _ => rfl]
    exact room_white rfl
  · rw [not_or] at h₅
    rw [hcut h₅.2]
    exact fits_open (by simp [IsQuote, h₁, h₂]) h₅.1 rfl
      (by simp [Config.atoms, Config.behind, hr]) rfl (fun h => absurd h hne)

/-! ## The run -/

/-- There is room for what is left, also before the first pass. -/
def HasRoom (before : ℕ → ℕ → ℕ) (env : List (List Char)) (x : Config Char × Buffer) : Prop :=
  if x.1.state = .start then Room before env (cutAtoms x.1.rest) .white 0 ⟨0, maxArgSz⟩
  else Fits before env x.1 x.2

theorem step_state_ne_start (ht : c.Tidy) (h : step id (envValues env) c = .again c') :
    c'.state ≠ .start := by
  obtain ⟨ch, rest, -, -, h⟩ := step_again h
  unfold Config.Goes at h
  cases hs : c.state with
  | var =>
    rw [hs] at h
    rw [(stepVar_expands h).state]
    rcases ht.back (Or.inl hs) with hl | hl | hl <;> simp [hl]
  | escaped =>
    rw [hs] at h
    rw [h]
    rcases stepEscaped_state id ch rest hs ht with hl | hl | hl <;>
      simp [hl]
  | end_ =>
    rw [hs] at h
    rw [h, hs]
    decide
  | start | literal | squoted | dquoted | white =>
    rw [hs] at h
    rw [h]
    simp only [stepStart, stepLiteral, stepQuoted, stepWhite]
    split_ifs <;> simp_all

theorem hasRoom_of_passFits (hs : c.state ≠ .start) (hs' : c'.state ≠ .start)
    (halloc : allocate before env c b = some b') (h : PassFits before env c c' b b') :
    HasRoom before env (c, b) ↔
      ∃ b', allocate before env c b = some b' ∧ stored c c' ≤ b'.size ∧
        HasRoom before env (c', b') := by
  simp only [HasRoom, hs, hs', if_false, halloc, Option.some.injEq, exists_eq_left']
  exact h

/-- A pass with its buffer stays inside of it if there is room for what it stores. -/
theorem step_fits (ht : c.Tidy) (h : step id (envValues env) c = .again c') :
    HasRoom before env (c, b) ↔
      ∃ b', allocate before env c b = some b' ∧ stored c c' ≤ b'.size ∧
        HasRoom before env (c', b') := by
  have hstart := step_state_ne_start ht h
  have hprogress := (step_progress ht.good h).2
  obtain ⟨ch, rest, hr, hn, h⟩ := step_again h
  have hnul : nul ∉ rest := fun hm => ht.no_nul (by rw [hr]; exact List.mem_cons_of_mem _ hm)
  unfold Config.Goes at h
  cases hs : c.state with
  | start =>
    rw [hs] at h
    subst h
    have halloc : allocate before env c b = some ⟨maxArgSz, maxArgSz⟩ := by simp [allocate, hs]
    simp only [HasRoom, hs, hstart, if_true, if_false, halloc, Option.some.injEq, exists_eq_left']
    exact stepStart_fits hr
  | end_ =>
    rw [hs] at h
    rw [h] at hprogress
    exact absurd hprogress (lt_irrefl _)
  | literal =>
    rw [hs] at h
    subst h
    exact hasRoom_of_passFits (by simp [hs]) hstart (by simp [allocate, hs])
      (stepLiteral_fits hr hs hnul)
  | squoted =>
    rw [hs] at h
    subst h
    exact hasRoom_of_passFits (by simp [hs]) hstart (by simp [allocate, hs])
      (stepQuoted_fits hr (Or.inl ⟨hs, rfl⟩) hnul)
  | dquoted =>
    rw [hs] at h
    subst h
    exact hasRoom_of_passFits (by simp [hs]) hstart (by simp [allocate, hs])
      (stepQuoted_fits hr (Or.inr ⟨hs, rfl⟩) hnul)
  | var =>
    rw [hs] at h
    simp only [HasRoom, hs, hstart, if_false, reduceCtorEq]
    exact stepVar_fits hs ht h
  | escaped =>
    rw [hs] at h
    subst h
    exact hasRoom_of_passFits (by simp [hs]) hstart (by simp [allocate, hs])
      (stepEscaped_fits hr hs ht)
  | white =>
    rw [hs] at h
    subst h
    obtain ⟨b', halloc, hpass⟩ : ∃ b', allocate before env c b = some b' ∧
        PassFits before env c (stepWhite c ch rest) b b' := stepWhite_fits hr hs
    exact hasRoom_of_passFits (by simp [hs]) hstart halloc hpass

variable {x y : Config Char × Buffer} {line : List Char} {l : List (List Char)}

/-- A pass that goes on has allocated the buffer, and its stores lie inside. -/
theorem bufferStep_again (h : bufferStep before env x = .again y) :
    step id (envValues env) x.1 = .again y.1 ∧ allocate before env x.1 x.2 = some y.2 ∧
      stored x.1 y.1 ≤ y.2.size := by
  unfold bufferStep at h
  cases hs : step id (envValues env) x.1 with
  | leave o => simp [hs] at h
  | again c' =>
    cases ha : allocate before env x.1 x.2 with
    | none => simp [hs, ha] at h
    | some b' =>
      simp only [hs, ha] at h
      split_ifs at h with hle
      rw [← Pass.again.inj h]
      exact ⟨rfl, rfl, hle⟩

/-- The loop leaves with the machine, or with a store outside of the buffer. -/
theorem bufferStep_leave {r : Option (Outcome Char)} (h : bufferStep before env x = .leave r) :
    (∃ o, r = some o ∧ step id (envValues env) x.1 = .leave o) ∨
      r = none ∧ ∃ c', step id (envValues env) x.1 = .again c' ∧
        ∀ b', allocate before env x.1 x.2 = some b' → ¬ stored x.1 c' ≤ b'.size := by
  unfold bufferStep at h
  cases hs : step id (envValues env) x.1 with
  | leave o =>
    simp only [hs] at h
    exact Or.inl ⟨o, (Pass.leave.inj h).symm, rfl⟩
  | again c' =>
    cases ha : allocate before env x.1 x.2 with
    | none =>
      simp only [hs, ha] at h
      exact Or.inr ⟨(Pass.leave.inj h).symm, c', rfl, by simp⟩
    | some b' =>
      simp only [hs, ha] at h
      split_ifs at h with hle
      refine Or.inr ⟨(Pass.leave.inj h).symm, c', rfl, fun b'' hb => ?_⟩
      rwa [← Option.some.inj hb]

theorem hasRoom_again (ht : x.1.Tidy) (h : bufferStep before env x = .again y) :
    HasRoom before env x ↔ HasRoom before env y := by
  obtain ⟨hs, ha, hle⟩ := bufferStep_again h
  rw [show x = (x.1, x.2) from rfl, step_fits ht hs, ha]
  simp [hle]

/-- The last pass has no store outside of the buffer if there was room. -/
theorem hasRoom_leave (ht : x.1.Tidy) {r : Option (Outcome Char)}
    (h : bufferStep before env x = .leave r) : r ≠ none ↔ HasRoom before env x := by
  rcases bufferStep_leave h with ⟨o, rfl, hs⟩ | ⟨rfl, c', hs, hle⟩
  · refine iff_of_true (by simp) ?_
    unfold HasRoom
    rcases step_leave ht hs with ⟨-, hvar, as, hbad⟩ | ⟨-, hr⟩
    · rw [if_neg (by simp [hvar]), Fits, hbad]
      exact Or.inr (room_error (Or.inl rfl))
    · rw [hr]
      split_ifs
      · exact fun h => by simp [cutter] at h
      · exact Or.inl hr
  · rw [show x = (x.1, x.2) from rfl, step_fits ht hs]
    refine iff_of_false (by simp) ?_
    rintro ⟨b', ha, hle', -⟩
    exact hle b' ha hle'

/-- `parse` stays inside of its buffers if and only if there is room for the line. -/
theorem parse_ne_none_iff (hnul : nul ∉ line) : parse before env line l ≠ none ↔
    Room before env (cutAtoms line) .white 0 ⟨0, maxArgSz⟩ := by
  have hstep : ∀ x y : Config Char × Buffer, x.1.Tidy → bufferStep before env x = .again y →
      y.1.Tidy ∧ y.1.measure < x.1.measure := fun x y ht h =>
    ⟨ht.step (bufferStep_again h).1, (step_progress ht.good (bufferStep_again h).1).2⟩
  have hinit : (Config.init line l).Tidy := .init hnul l
  obtain ⟨r, hr⟩ := exists_iterate (s := (Config.init line l, (⟨0, 0⟩ : Buffer)))
    (fun x => x.1.measure) hinit hstep (measure_init_lt line l)
  obtain ⟨x, hvis, hleave⟩ := Returns.exists_visits ⟨_, hr⟩
  obtain ⟨ht, hroom⟩ := hvis.invariant
    (I := fun x => x.1.Tidy ∧ (HasRoom before env (.init line l, ⟨0, 0⟩) ↔ HasRoom before env x))
    ⟨hinit, Iff.rfl⟩ fun a b hI h => ⟨(hstep a b hI.1 h).1, hI.2.trans (hasRoom_again hI.1 h)⟩
  have hline : HasRoom before env (.init line l, ⟨0, 0⟩) ↔
      Room before env (cutAtoms line) .white 0 ⟨0, maxArgSz⟩ := Iff.rfl
  rw [← hline, hroom, ← hasRoom_leave ht hleave, parse, hr]
  rfl

/-! ## The words of a line -/

variable {w : List Atom}

/-- The words that are begun. -/
def beginner : Lexer Spot Atom := cutter.withFinal (· ≠ .white)

/-- Only a space outside of the quoted sections leads out of a word. -/
theorem Spot.next_eq_white (h : m.next a = .white) : m.quote = none ∧ m ≠ .broken ∧ a = .char ' ' := by
  have hb : m ≠ .broken := by
    rintro rfl
    simp [Spot.next] at h
  cases a with
  | char ch =>
    have hnext : m.next (.char ch) = if m.opens ∧ IsQuote ch then .inside (some ch)
        else Spot.within ch m.quote := by
      cases m <;> first | rfl | exact absurd rfl hb
    rw [hnext] at h
    by_cases ho : m.opens ∧ IsQuote ch
    · rw [if_pos ho] at h
      cases h
    rw [if_neg ho] at h
    cases hq : m.quote with
    | none =>
      simp only [hq, Spot.within] at h
      split_ifs at h with hsp
      exact ⟨rfl, hb, congrArg Atom.char hsp⟩
    | some q => simp [hq, Spot.within] at h
  | escaped | var | bad | backslash | dollar => cases m <;> simp [Spot.next] at h

theorem Spot.keeps_next (h : m.keeps a = true) : m.next a ≠ .white := by
  intro hn
  obtain ⟨hq, hb, rfl⟩ := Spot.next_eq_white hn
  cases m <;> simp_all [Spot.keeps, Spot.quote]

theorem Spot.next_ne_white (hm : m ≠ .white) (he : m.ends a = false) : m.next a ≠ .white := by
  intro hn
  obtain ⟨hq, hb, rfl⟩ := Spot.next_eq_white hn
  simp [Spot.ends, hm, hb, hq] at he

theorem beginner_keeps : beginner.Keeps (· ≠ .white) := fun m a w hm he =>
  ⟨Spot.next_ne_white hm he, by simp [beginner, cutter, Lexer.withFinal, hm]⟩

theorem bytes_append (v w : List Atom) : bytes env (v ++ w) = bytes env v + bytes env w := by
  simp [bytes]

theorem Atom.bytes_eq_one (ha : ∀ name, a ≠ .var name) : a.bytes env = 1 := by
  cases a with
  | var name => exact absurd rfl (ha name)
  | char | escaped | bad | backslash | dollar => rfl

theorem bytes_put : bytes env (cutter.put m w a) =
    (if m = .white then 0 else bytes env w) + if m.keeps a then a.bytes env else 0 := by
  rw [cutter, bytes_append]
  split_ifs <;> simp [bytes]

theorem bytes_mono {v : List Atom} (h : v <+: w) : bytes env v ≤ bytes env w := by
  obtain ⟨u, rfl⟩ := h
  rw [bytes_append]
  exact Nat.le_add_right _ _

/-- Values that fit into the first buffer are copied without a larger one. -/
theorem copyValues_fits {vs : List (Option (List Char))} {nd ei : ℕ}
    (hfit : j + (vs.filterMap id).flatten.length ≤ maxArgSz) (hsize : maxArgSz ≤ b.size)
    (hcap : maxArgSz ≤ b.cap) : ∃ b', copyValues before nd ei j vs b = some b' ∧
      maxArgSz ≤ b'.size ∧ maxArgSz ≤ b'.cap := by
  induction vs generalizing ei j b with
  | nil => exact ⟨b, rfl, hsize, hcap⟩
  | cons v vs ih =>
    cases v with
    | none => exact ih hfit hsize hcap
    | some v =>
      have hcons : (some v :: vs).filterMap id = v :: vs.filterMap id := rfl
      rw [hcons, List.flatten_cons, List.length_append] at hfit
      have hgrown : ∀ p : Prop, [Decidable p] →
          maxArgSz ≤ (if p then ⟨2 * b.cap, 2 * b.cap⟩ else b : Buffer).size ∧
            maxArgSz ≤ (if p then ⟨2 * b.cap, 2 * b.cap⟩ else b : Buffer).cap := by
        intro p _
        have h2 : maxArgSz ≤ 2 * b.cap := by omega
        split_ifs
        · exact ⟨h2, h2⟩
        · exact ⟨hsize, hcap⟩
      obtain ⟨hsize', hcap'⟩ := hgrown (j + before ei nd > b.cap)
      simp only [copyValues]
      rw [if_pos (by omega)]
      exact ih (by omega) hsize' hcap'

/-- If the comparison with `cap` does not count the value, the buffer stays as it is. -/
theorem copyValues_zero {vs : List (Option (List Char))} {nd ei : ℕ} (hj : j ≤ maxArgSz)
    (h : copyValues (fun _ _ => 0) nd ei j vs ⟨maxArgSz, maxArgSz⟩ = some b') :
    b' = ⟨maxArgSz, maxArgSz⟩ ∧ j + (vs.filterMap id).flatten.length ≤ maxArgSz := by
  induction vs generalizing ei j with
  | nil => exact ⟨(Option.some.inj h).symm, hj⟩
  | cons v vs ih =>
    cases v with
    | none => exact ih hj h
    | some v =>
      have hcons : (some v :: vs).filterMap id = v :: vs.filterMap id := rfl
      simp only [copyValues, Nat.add_zero, if_neg (not_lt.2 hj), Option.ite_none_right_eq_some] at h
      obtain ⟨rfl, hle⟩ := ih h.1 h.2
      rw [hcons, List.flatten_cons, List.length_append]
      exact ⟨rfl, by omega⟩

/-- An atom that fits into the first buffer is stored. -/
theorem store_fits (hcap : maxArgSz ≤ b.cap) (hsize : m ≠ .white → maxArgSz ≤ b.size)
    (hfit : m.keeps a → bytes env (cutter.put m w a) ≤ maxArgSz) :
    ∃ b', store before env m a (bytes env w) b = some (bytes env (cutter.put m w a), b') ∧
      maxArgSz ≤ b'.size ∧ maxArgSz ≤ b'.cap := by
  let b₀ := if m = .white then { b with size := maxArgSz } else b
  have hb₀ : maxArgSz ≤ b₀.size ∧ maxArgSz ≤ b₀.cap := by
    simp only [b₀]
    split_ifs with hm
    · exact ⟨le_rfl, hcap⟩
    · exact ⟨hsize hm, hcap⟩
  by_cases hk : m.keeps a = true
  · have hfit := hfit hk
    rw [bytes_put, if_pos hk] at hfit ⊢
    by_cases hvar : ∃ name, a = .var name
    · obtain ⟨name, rfl⟩ := hvar
      have hcopy : ∃ b', copyValues before name.length 0 (if m = .white then 0 else bytes env w)
          (env.map (entryValue name)) b₀ = some b' ∧ maxArgSz ≤ b'.size ∧ maxArgSz ≤ b'.cap :=
        copyValues_fits (by rwa [filterMap_entryValue]) hb₀.1 hb₀.2
      obtain ⟨b', hcopy, hb'⟩ := hcopy
      exact ⟨b', by rw [store_var hk, hcopy]; rfl, hb'⟩
    · rw [not_exists] at hvar
      rw [Atom.bytes_eq_one hvar] at hfit ⊢
      exact ⟨b₀, by rw [store_put hk hvar, if_pos (hfit.trans hb₀.1)], hb₀⟩
  · rw [Bool.not_eq_true] at hk
    refine ⟨b₀, ?_, hb₀⟩
    rw [store_skip hk, bytes_put, hk]
    rfl

/-- Words that fit into the first buffer have room. -/
theorem room_of_words (hcap : maxArgSz ≤ b.cap) (hsize : m ≠ .white → maxArgSz ≤ b.size)
    (happ : ∀ v ∈ cutter.words as m w, bytes env v + 1 ≤ maxArgSz)
    (hbeg : ∀ v ∈ beginner.words as m w, bytes env v ≤ maxArgSz) :
    Room before env as m (bytes env w) b := by
  induction as generalizing m w b with
  | nil =>
    intro hf
    have hm : m ≠ .white := by
      rintro rfl
      cases hf
    have := happ w (by rw [Lexer.words_nil, if_pos hf]; exact List.mem_singleton_self w)
    exact this.trans (hsize hm)
  | cons a as ih =>
    rw [Lexer.words_cons] at happ hbeg
    have hput : m.keeps a → bytes env (cutter.put m w a) ≤ maxArgSz := by
      intro hk
      obtain ⟨v, vs, hv, hpre⟩ := Lexer.exists_head (L := beginner) (s := as) (m := m.next a)
        (a := cutter.put m w a) beginner_keeps (Spot.keeps_next hk)
        (fun h => by simpa [beginner, Lexer.withFinal] using h)
      have hmem : v ∈ beginner.words as (m.next a) (cutter.put m w a) := by
        rw [hv]
        exact List.mem_cons_self
      exact (bytes_mono hpre).trans (hbeg v (List.mem_append_right _ hmem))
    have hstore : ∃ b', store before env m a (bytes env w) b =
        some (bytes env (cutter.put m w a), b') ∧ maxArgSz ≤ b'.size ∧ maxArgSz ≤ b'.cap :=
      store_fits hcap hsize hput
    obtain ⟨b', hstore, hsize', hcap'⟩ := hstore
    refine room_cons.2 ⟨fun he => ?_, _, _, hstore, ih hcap' (fun _ => hsize')
      (fun v hv => happ v (List.mem_append_right _ hv))
      (fun v hv => hbeg v (List.mem_append_right _ hv))⟩
    have hm : m ≠ .white := by
      rintro rfl
      simp [Spot.ends] at he
    have hmem : w ∈ if cutter.emits m a then [w] else [] := by
      rw [show cutter.emits m a = true from he]
      exact List.mem_singleton_self w
    exact (happ w (List.mem_append_left _ hmem)).trans (hsize hm)

/-- The buffers stay as they are if the comparison with `cap` does not count the values. -/
theorem store_zero {j' : ℕ} (hcap : b.cap = maxArgSz) (hsize : m ≠ .white → b.size = maxArgSz)
    (hw : m ≠ .white → bytes env w ≤ maxArgSz)
    (h : store (fun _ _ => 0) env m a (bytes env w) b = some (j', b')) :
    b' = ⟨maxArgSz, maxArgSz⟩ ∧ j' = bytes env (cutter.put m w a) ∧ j' ≤ maxArgSz := by
  have hb : (if m = .white then { b with size := maxArgSz } else b : Buffer) =
      ⟨maxArgSz, maxArgSz⟩ := by
    split_ifs with hm
    · rw [hcap]
    · exact congrArg₂ Buffer.mk (hsize hm) hcap
  have hj : (if m = .white then 0 else bytes env w) ≤ maxArgSz := by
    split_ifs with hm
    · exact Nat.zero_le _
    · exact hw hm
  rw [bytes_put]
  by_cases hk : m.keeps a = true
  · rw [if_pos hk]
    by_cases hvar : ∃ name, a = .var name
    · obtain ⟨name, rfl⟩ := hvar
      rw [store_var hk, hb, Option.map_eq_some_iff] at h
      obtain ⟨b'', hcopy, heq⟩ := h
      cases heq
      have := copyValues_zero hj hcopy
      rw [filterMap_entryValue] at this
      exact ⟨this.1, rfl, this.2⟩
    · rw [not_exists] at hvar
      rw [store_put hk hvar, hb, Option.ite_none_right_eq_some] at h
      cases h.2
      rw [Atom.bytes_eq_one hvar]
      exact ⟨rfl, rfl, h.1⟩
  · rw [Bool.not_eq_true] at hk
    rw [store_skip hk, hb] at h
    cases h
    rw [hk]
    exact ⟨rfl, rfl, hj⟩

/-- Where nothing but the first buffer is allocated, only they have. -/
theorem words_of_room (hcap : b.cap = maxArgSz) (hsize : m ≠ .white → b.size = maxArgSz)
    (hw : m ≠ .white → bytes env w ≤ maxArgSz)
    (h : Room (fun _ _ => 0) env as m (bytes env w) b) :
    (∀ v ∈ cutter.words as m w, bytes env v + 1 ≤ maxArgSz) ∧
      ∀ v ∈ beginner.words as m w, bytes env v ≤ maxArgSz := by
  induction as generalizing m w b with
  | nil =>
    rw [Lexer.words_nil, Lexer.words_nil]
    constructor
    · intro v hv
      split_ifs at hv with hf
      · rw [List.mem_singleton.1 hv, ← hsize (by rintro rfl; cases hf)]
        exact h hf
      · cases hv
    · intro v hv
      split_ifs at hv with hf
      · rw [List.mem_singleton.1 hv]
        exact hw (by simpa [beginner, Lexer.withFinal] using hf)
      · cases hv
  | cons a as ih =>
    obtain ⟨hends, j', b', hstore, hroom⟩ := room_cons.1 h
    obtain ⟨rfl, rfl, hle⟩ := store_zero hcap hsize hw hstore
    obtain ⟨happ, hbeg⟩ := ih rfl (fun _ => rfl) (fun _ => hle) hroom
    have hended : m.ends a = true → bytes env w + 1 ≤ maxArgSz := fun he => by
      rw [← hsize (by rintro rfl; simp [Spot.ends] at he)]
      exact hends he
    have hfirst : ∀ v ∈ (if m.ends a then [w] else []), bytes env v + 1 ≤ maxArgSz := by
      intro v hv
      split_ifs at hv with he
      · rw [List.mem_singleton.1 hv]
        exact hended he
      · cases hv
    rw [Lexer.words_cons, Lexer.words_cons]
    constructor
    · intro v hv
      exact (List.mem_append.1 hv).elim (hfirst v) (happ v)
    · intro v hv
      exact (List.mem_append.1 hv).elim (fun hv => Nat.le_of_succ_le (hfirst v hv)) (hbeg v)

/-- `parse` stays inside of its buffers, whatever lies before the entries of the environment, if and
only if no word is longer than the first buffer: for longer ones it depends on `strlen(env[ei]-nd-1)`,
which is not the length of the value. -/
theorem inBounds_iff (hnul : nul ∉ line) : InBounds env line ↔ WordsFit env line := by
  unfold InBounds WordsFit
  constructor
  · intro h
    have hroom := (parse_ne_none_iff hnul).1 (h (fun _ _ => 0) [])
    exact words_of_room (w := []) rfl (fun h => absurd rfl h) (fun h => absurd rfl h) hroom
  · rintro ⟨happ, hbeg⟩ before l
    exact (parse_ne_none_iff hnul).2
      (room_of_words (w := []) le_rfl (fun h => absurd rfl h) happ hbeg)

/-- Two words, the first one a variable. -/
theorem inBounds_iff_two_words : InBounds ["A=xy".toList] "$A \"b c".toList ↔
    WordsFit ["A=xy".toList] "$A \"b c".toList :=
  inBounds_iff (by decide)

/-- A value that is longer than the buffer, behind an entry that is longer than the name. -/
theorem not_inBounds_long_value :
    ¬ ∀ before env line l, nul ∉ line → line.length ≤ 1023 → parse before env line l ≠ none := by
  intro h
  have hrun : (parse (fun _ nd => nd) ["B=yz".toList, "A=".toList ++ List.replicate 1025 'x']
      "$A".toList []).isNone = true := by decide +kernel
  exact h _ _ _ _ (by decide) (by decide) (Option.isNone_iff_eq_none.1 hrun)

end Sem3.Shell
