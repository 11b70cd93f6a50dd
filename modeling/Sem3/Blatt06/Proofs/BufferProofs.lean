import Sem3.Blatt06.Proofs.GrammarProofs

/-!
# Proofs: the buffers

A pass of the loop stays inside of its buffers if and only if there is room for the item that it
reads. The value of a variable always fits, and so does every name, so it is the characters behind a
variable and the terminators that may not.
-/

namespace Sem3.Blatt06

open Loop Buffers

variable {env : List (List Char)} {len i size : ℕ} {hang behind : Bool} {close : Option Char}
  {ch : Char} {rest name : List Char} {it : Item} {is : List Item} {c c' : Config}
  {sizes : Buf → ℕ}

/-! ## Room -/

/-- A variable in front only makes a difference at the end of the line. -/
theorem room_behind (it : Item) (is : List Item) :
    Room env len hang close true i size (it :: is) ↔
      Room env len hang close false i size (it :: is) := by
  cases it with
  | char ch => cases close <;> rfl
  | escaped ch => rfl
  | var before name => rfl

/-- The escaped characters behind a name are stored before the value. -/
theorem room_takeVar_escaped :
    Room env len hang close behind i size (takeVar Item.inRun name (.escaped ch :: is)) ↔
      i + 1 ≤ size ∧
        Room env len hang close behind (i + 1) size (takeVar Item.inRun name is) := by
  have hrun : Item.inRun (.escaped ch) = true := rfl
  simp only [takeVar, List.takeWhile_cons, List.dropWhile_cons, hrun, if_true, List.filterMap_cons,
    Item.escaped?, Item.char?, Room, List.length_cons]
  generalize (is.takeWhile Item.inRun).filterMap Item.escaped? = before
  have hcomm : i + (before.length + 1) = i + 1 + before.length := by omega
  rw [hcomm, ← and_assoc]
  refine and_congr_left' ?_
  cases before with
  | nil => simp
  | cons d before =>
    simp only [ne_eq, reduceCtorEq, not_false_eq_true, true_imp_iff, List.length_cons]
    omega

/-! ## What is left of the line -/

/-- There is room for the text that is left, in a buffer of `size` bytes. -/
def Config.room (env : List (List Char)) (len : ℕ) (c : Config) (size : ℕ) : Prop :=
  let is := withVars Item.inRun (items c.text)
  if c.state = .dollar then
    Room env len (hanging c.text) c.restore.closing false c.buf.length size
      (takeVar Item.inRun c.envBuf is)
  else Room env len (hanging c.text) c.state.closing false c.buf.length size is

theorem Config.room_of_ne (h : c.state ≠ .dollar) : c.room env len size =
    Room env len (hanging c.text) c.state.closing false c.buf.length size
      (withVars Item.inRun (items c.text)) := by
  simp only [Config.room, if_neg h]

theorem Config.room_dollar (h : c.state = .dollar) : c.room env len size =
    Room env len (hanging c.text) c.restore.closing false c.buf.length size
      (takeVar Item.inRun c.envBuf (withVars Item.inRun (items c.text))) := by
  simp only [Config.room, if_pos h]

/-- A pass does what it does with the buffers if there is room for what is left, and leaves room for
what is left behind it. -/
def PassRoom (env : List (List Char)) (len : ℕ) (sizes : Buf → ℕ) (c c' : Config) : Prop :=
  c.room env len (sizes .buf) ↔
    ∃ k, run (stores env len c) sizes = some k ∧ c'.room env len (k .buf)

theorem PassRoom.of_nil (hs : stores env len c = [])
    (h : c.room env len (sizes .buf) ↔ c'.room env len (sizes .buf)) :
    PassRoom env len sizes c c' := by
  rw [PassRoom, hs, h]
  simp

/-- A pass that stores one byte needs room for it. -/
theorem PassRoom.of_byte (hs : stores env len c = [.store .buf c.buf.length 1])
    (h : c.room env len (sizes .buf) ↔
      c.buf.length + 1 ≤ sizes .buf ∧ c'.room env len (sizes .buf)) :
    PassRoom env len sizes c c' := by
  rw [PassRoom, hs, h]
  constructor
  · rintro ⟨hle, hroom⟩
    exact ⟨sizes, run_byte.2 ⟨hle, rfl⟩, hroom⟩
  · rintro ⟨k, hk, hroom⟩
    obtain ⟨hle, rfl⟩ := run_byte.1 hk
    exact ⟨hle, hroom⟩

/-! ## A pass -/

theorem escaped_passRoom (hr : c.rest = ch :: rest) (hb : c.backslash = true) :
    PassRoom env len sizes c { c with buf := c.buf ++ [ch], backslash := false, rest } := by
  have htext : c.text = '\\' :: ch :: rest := by rw [Config.text, if_pos hb, hr]
  refine .of_byte (by simp [stores, hr, hb]) ?_
  by_cases hs : c.state = .dollar
  · rw [Config.room_dollar hs, Config.room_dollar (by exact hs), htext, items_backslash,
      hanging_backslash, withVars_cons (by simp), room_takeVar_escaped]
    simp [Config.text]
  · rw [Config.room_of_ne hs, Config.room_of_ne (by exact hs), htext, items_backslash,
      hanging_backslash, withVars_cons (by simp), Room]
    simp [Config.text]

theorem backslash_passRoom (hr : c.rest = '\\' :: rest) (hb : c.backslash = false) :
    PassRoom env len sizes c { c with backslash := true, rest } := by
  have htext : c.text = '\\' :: rest := by rw [Config.text, hb, hr]; rfl
  refine .of_nil (by simp [stores, hr, hb]) ?_
  simp only [Config.room, htext]
  rfl

/-- The room in front of a character that is not part of a name. -/
theorem Config.room_char (hc : ch ≠ '\\') (hr : c.rest = ch :: rest) (hb : c.backslash = false)
    (hs : c.state ≠ .dollar) : c.room env len size =
      Room env len (hanging rest) c.state.closing false c.buf.length size
        (withVars Item.inRun (.char ch :: items rest)) := by
  have htext : c.text = ch :: rest := by rw [Config.text, hb, hr]; rfl
  rw [Config.room_of_ne hs, htext, items_cons hc, hanging_cons hc]

/-- The room behind a character that is read. -/
theorem Config.room_next (hr : c'.rest = rest) (hb : c'.backslash = false)
    (hs : c'.state ≠ .dollar) : c'.room env len size =
      Room env len (hanging rest) c'.state.closing false c'.buf.length size
        (withVars Item.inRun (items rest)) := by
  have htext : c'.text = rest := by rw [Config.text, hb, hr]; rfl
  rw [Config.room_of_ne hs, htext]

/-- A variable begins. -/
theorem dollar_passRoom (hg : c.Good) (hr : c.rest = '$' :: rest) (hb : c.backslash = false)
    (hs : c.state ≠ .dollar) (hn : stores env len c = []) :
    PassRoom env len sizes c { c with restore := c.state, state := .dollar, rest } := by
  refine .of_nil hn ?_
  have htext : Config.text { c with restore := c.state, state := .dollar, rest } = rest := by
    simp [Config.text, hb]
  rw [Config.room_char (by decide) hr hb hs, Config.room_dollar rfl, htext, withVars_dollar,
    hg.envBuf hs]

theorem stepQuote_passRoom (hg : c.Good) (hc : ch ≠ '\\') (hr : c.rest = ch :: rest)
    (hb : c.backslash = false) {q : Char} (hs : c.state ≠ .dollar) (hq : c.state.closing = some q)
    (hd : q ≠ '$') (hstores : stores env len c = quoteStores q c ch) :
    PassRoom env len sizes c (stepQuote q c ch rest) := by
  unfold quoteStores at hstores
  unfold stepQuote
  split_ifs at hstores ⊢ with h1 h2
  · refine .of_nil hstores ?_
    rw [Config.room_char hc hr hb hs, Config.room_next rfl (by exact hb) (by simp),
      withVars_cons (by simp [h1, hd]), hq, Room, if_pos h1]
    rfl
  · exact dollar_passRoom hg (h2 ▸ hr) hb hs hstores
  · refine .of_byte hstores ?_
    rw [Config.room_char hc hr hb hs, Config.room_next rfl (by exact hb) (by exact hs),
      withVars_cons (by simpa using h2), hq, Room, if_neg h1]
    simp

theorem stepNone_passRoom (hg : c.Good) (hc : ch ≠ '\\') (hr : c.rest = ch :: rest)
    (hb : c.backslash = false) (hs : c.state = .none)
    (hstores : stores env len c = noneStores c ch) :
    PassRoom env len sizes c (stepNone c ch rest) := by
  have hne : c.state ≠ .dollar := by simp [hs]
  have hclose : c.state.closing = none := by rw [hs]; rfl
  have hroom : ch ≠ '$' → c.room env len (sizes .buf) =
      Room env len (hanging rest) none false c.buf.length (sizes .buf)
        (.char ch :: withVars Item.inRun (items rest)) := fun hd => by
    rw [Config.room_char hc hr hb hne, hclose, withVars_cons (by simpa using hd)]
  unfold noneStores at hstores
  unfold stepNone
  split_ifs at hstores ⊢ with h1 h2 h3 h4 h5
  · subst h1
    refine .of_nil hstores ?_
    rw [hroom (by decide), Config.room_next rfl (by exact hb) (by simp)]
    rfl
  · subst h2
    refine .of_nil hstores ?_
    rw [hroom (by decide), Config.room_next rfl (by exact hb) (by simp)]
    rfl
  · exact dollar_passRoom hg (h3 ▸ hr) hb hne hstores
  · refine .of_nil hstores ?_
    rw [hroom h3, Config.room_next rfl (by exact hb) (by exact hne), Room, if_pos h4, hclose]
    simp [h5]
  · refine .of_byte hstores ?_
    rw [hroom h3, Config.room_next rfl (by exact hb) (by exact hne), Room, if_pos h4, hclose]
    simp [h5]
  · refine .of_byte hstores ?_
    rw [hroom h3, Config.room_next rfl (by exact hb) (by exact hne), Room, if_neg h4,
      if_neg (by simp [h1, h2]), hclose]
    simp

/-! ## Variables -/

/-- The name and its terminator fit. -/
theorem run_name {k : ℕ} {as : List (Act Buf)} (h : k + 1 ≤ sizes .envBuf) :
    run (.store .envBuf k 1 :: as) sizes = run as sizes := run_store (Or.inr h)

/-- The size of `buf` behind a variable. -/
def grown (len i envLen size : ℕ) : ℕ :=
  if len ≤ i + envLen + 1 then i + envLen + 1 else size

/-- A value fits, and at the end of the line its terminator as well. -/
theorem run_expand (i : ℕ) {n envLen : ℕ} (hn : n ≤ envLen + 1) (hlen : len ≤ sizes .buf) :
    ∃ k, run (expand len i envLen ++ [.store .buf i n]) sizes = some k ∧
      k .buf = grown len i envLen (sizes .buf) := by
  have hcomm : envLen + i + 1 = i + envLen + 1 := by omega
  have hexpand : ∃ k, run (expand len i envLen) sizes = some k ∧
      k .buf = grown len i envLen (sizes .buf) := by
    unfold expand grown
    rw [hcomm]
    split_ifs
    · exact ⟨_, rfl, by simp⟩
    · exact ⟨_, rfl, rfl⟩
  obtain ⟨k, hk, hbuf⟩ := hexpand
  have hle : i + n ≤ k .buf := by
    rw [hbuf, grown]
    split_ifs <;> omega
  exact ⟨k, by rw [run_append, hk, Option.bind_some, run_store (Or.inr hle), run_nil], hbuf⟩

/-- The name and what is left behind it are not longer than the line. -/
def Config.span (c : Config) : ℕ :=
  c.envBuf.length + c.rest.length + if c.state = .dollar then 1 else 0

/-- The invariant of the loop. -/
structure Sized (len : ℕ) (c : Config) (sizes : Buf → ℕ) : Prop where
  good : c.Good
  span : c.span ≤ len
  envBuf : sizes .envBuf = len
  buf : len ≤ sizes .buf

/-- The array for names has room for one more character. -/
theorem Sized.name_fits (h : Sized len c sizes) (hs : c.state = .dollar) :
    c.envBuf.length + 1 ≤ sizes .envBuf := by
  have hspan := h.span
  rw [Config.span, if_pos hs] at hspan
  rw [h.envBuf]
  omega

/-- A name that ends at the next character. -/
theorem Config.room_var (hc : ch ≠ '\\') (hn : ¬ isNameChar ch) (hr : c.rest = ch :: rest)
    (hb : c.backslash = false) (hs : c.state = .dollar) :
    c.room env len size ↔ ∀ value, getenv env c.envBuf = some value →
      Room env len (hanging rest) c.restore.closing false (c.buf.length + value.length)
        (grown len c.buf.length value.length size) (withVars Item.inRun (.char ch :: items rest)) := by
  obtain ⟨it, is, hi, hstop⟩ := withVars_char hn (items rest)
  have htext : c.text = ch :: rest := by rw [Config.text, hb, hr]; rfl
  rw [Config.room_dollar hs, htext, items_cons hc, hanging_cons hc, hi, takeVar_stop hstop, Room]
  simp only [ne_eq, not_true_eq_false, false_imp_iff, true_and, List.length_nil, Nat.add_zero,
    room_behind, grown]

/-- A pass in a variable: at the end of the name the value is stored, and before that nothing is
stored in `buf`. -/
theorem stepDollar_passRoom (h : Sized len c sizes) (hc : ch ≠ '\\') (hr : c.rest = ch :: rest)
    (hb : c.backslash = false) (hs : c.state = .dollar)
    (hstores : stores env len c = dollarStores env len c ch)
    (hstep : stepDollar env c ch rest = .again c') : PassRoom env len sizes c c' := by
  have htext : c.text = ch :: rest := by rw [Config.text, hb, hr]; rfl
  have hrestore := h.good.restore hs
  unfold PassRoom
  rw [hstores]
  unfold dollarStores
  unfold stepDollar at hstep
  split_ifs at hstep ⊢ with hn
  · rw [← Pass.again.inj hstep, run_name (h.name_fits hs)]
    have hd : ch ≠ '$' := by
      rintro rfl
      exact absurd hn (by decide)
    have htext' : Config.text { c with envBuf := c.envBuf ++ [ch], rest } = rest := by
      simp [Config.text, hb]
    rw [Config.room_dollar hs, htext, items_cons hc, hanging_cons hc,
      withVars_cons (by simpa using hd), takeVar_name hn]
    have hroom : ∀ size, Config.room env len { c with envBuf := c.envBuf ++ [ch], rest } size =
        Room env len (hanging rest) c.restore.closing false c.buf.length size
          (takeVar Item.inRun (c.envBuf ++ [ch]) (withVars Item.inRun (items rest))) := fun size => by
      rw [Config.room_dollar (by exact hs), htext']
    simp [hroom]
  · rw [run_name (h.name_fits hs), Config.room_var hc hn hr hb hs]
    cases hget : getenv env c.envBuf with
    | none => simp [hget] at hstep
    | some value =>
      simp only [hget] at hstep
      obtain ⟨k, hrun, hk⟩ := run_expand c.buf.length (Nat.le_succ value.length) h.buf
      rw [← Pass.again.inj hstep]
      simp only [hrun, Option.some.injEq, forall_eq', exists_eq_left', hk]
      have htext' : Config.text { c with
          buf := c.buf ++ value, envBuf := [], state := c.restore } = ch :: rest := htext
      rw [Config.room_of_ne hrestore, htext', items_cons hc, hanging_cons hc, List.length_append]

/-- A variable that is not set. -/
theorem stepDollar_leave (h : Sized len c sizes) (hc : ch ≠ '\\') (hr : c.rest = ch :: rest)
    (hb : c.backslash = false) (hs : c.state = .dollar) {o : Outcome}
    (hstep : stepDollar env c ch rest = .leave o) :
    c.room env len (sizes .buf) ↔ ∃ k, run (dollarStores env len c ch) sizes = some k := by
  unfold dollarStores
  unfold stepDollar at hstep
  split_ifs at hstep ⊢ with hn
  cases hget : getenv env c.envBuf with
  | some value => simp [hget] at hstep
  | none =>
    rw [run_name (h.name_fits hs), Config.room_var hc hn hr hb hs, hget]
    simp

/-- The end of the line. -/
theorem finish_room (h : Sized len c sizes) (hr : c.rest = []) :
    c.room env len (sizes .buf) ↔ ∃ k, run (finishStores env len c) sizes = some k := by
  have hitems : withVars Item.inRun (items c.text) = [] := by
    rw [Config.text, hr]
    cases c.backslash <;> rfl
  have hhang : hanging c.text = c.backslash := by
    rw [Config.text, hr]
    cases c.backslash <;> rfl
  unfold finishStores
  cases hs : c.state with
  | dQuote =>
    rw [Config.room_of_ne (by simp [hs]), hitems, hs]
    simp [Room, ParserState.closing]
  | quote =>
    rw [Config.room_of_ne (by simp [hs]), hitems, hs]
    simp [Room, ParserState.closing]
  | dollar =>
    rw [Config.room_dollar hs, hitems]
    refine iff_of_true ?_ ?_
    · simp [takeVar, Room]
    · rw [run_name (h.name_fits hs)]
      cases getenv env c.envBuf with
      | none => exact ⟨sizes, rfl⟩
      | some value =>
        obtain ⟨k, hrun, -⟩ := run_expand c.buf.length (le_refl (value.length + 1)) h.buf
        exact ⟨k, hrun⟩
  | none =>
    rw [Config.room_of_ne (by simp [hs]), hitems, hs, hhang]
    by_cases hb : c.backslash = true
    · simp [Room, hb]
    rw [Bool.not_eq_true] at hb
    by_cases hbuf : c.buf = []
    · simp [Room, hb, hbuf]
    · simp [Room, ParserState.closing, hb, hbuf, run_byte]

/-! ## The run -/

/-- An expansion allocates no other array than `buf`, and makes it no shorter than the line. -/
theorem alloc_mem_expand {b : Buf} {n envLen : ℕ} (h : .alloc b n ∈ expand len i envLen) :
    b = .buf ∧ len ≤ n := by
  unfold expand at h
  split_ifs at h with hle
  · obtain ⟨rfl, rfl⟩ := Act.alloc.inj (List.mem_singleton.1 h)
    exact ⟨rfl, hle⟩
  · cases h

/-- `buf` never becomes shorter than the line. -/
theorem alloc_mem_stores {b : Buf} {n : ℕ} (h : .alloc b n ∈ stores env len c) :
    b = .buf ∧ len ≤ n := by
  unfold stores at h
  cases hr : c.rest with
  | nil =>
    simp only [hr, finishStores] at h
    cases hs : c.state with
    | dollar =>
      cases hget : getenv env c.envBuf with
      | none => simp [hs, hget] at h
      | some value => exact alloc_mem_expand (by simpa [hs, hget] using h)
    | none =>
      simp only [hs] at h
      split_ifs at h <;> simp at h
    | dQuote | quote => simp [hs] at h
  | cons ch rest =>
    simp only [hr] at h
    split_ifs at h
    · simp at h
    · cases h
    · cases hs : c.state with
      | dollar =>
        simp only [hs, dollarStores] at h
        split_ifs at h
        · simp at h
        · cases hget : getenv env c.envBuf with
          | none => simp [hget] at h
          | some value => exact alloc_mem_expand (by simpa [hget] using h)
      | dQuote | quote | none =>
        simp only [hs, quoteStores, noneStores] at h
        split_ifs at h <;> simp at h

theorem span_le_of_consumes (hr : c.rest = ch :: c'.rest) (he : c'.envBuf = c.envBuf) :
    c'.span ≤ c.span := by
  unfold Config.span
  rw [hr, he, List.length_cons]
  split_ifs <;> omega

theorem stepDollar_span (hr : c.rest = ch :: rest) (hs : c.state = .dollar) (hg : c.Good)
    (h : stepDollar env c ch rest = .again c') : c'.span ≤ c.span := by
  unfold stepDollar at h
  split_ifs at h
  · rw [← Pass.again.inj h]
    simp only [Config.span, hr, hs, if_true, List.length_append, List.length_cons, List.length_nil]
    omega
  · cases hget : getenv env c.envBuf with
    | none => simp [hget] at h
    | some value =>
      simp only [hget] at h
      rw [← Pass.again.inj h]
      simp only [Config.span, hs, hg.restore hs, if_true, if_false, List.length_nil]
      omega

/-- A name takes the place of what is read of it. -/
theorem step_span (hg : c.Good) (h : step env c = .again c') : c'.span ≤ c.span := by
  unfold step at h
  cases hr : c.rest with
  | nil => simp [hr] at h
  | cons ch rest =>
    simp only [hr] at h
    split_ifs at h with hb hc
    · exact Pass.again.inj h ▸ span_le_of_consumes hr rfl
    · exact Pass.again.inj h ▸ span_le_of_consumes hr rfl
    · cases hs : c.state with
      | dollar =>
        simp only [hs] at h
        exact stepDollar_span hr hs hg h
      | dQuote | quote | none =>
        simp only [hs] at h
        rw [← Pass.again.inj h]
        apply span_le_of_consumes
        · simp only [stepQuote, stepNone]
          split_ifs <;> exact hr
        · simp only [stepQuote, stepNone]
          split_ifs <;> rfl

theorem Sized.step (h : Sized len c sizes) {k : Buf → ℕ} (hk : run (stores env len c) sizes = some k)
    (hs : step env c = .again c') : Sized len c' k ∧ c'.measure < c.measure := by
  have hsound := step_sound env h.good
  rw [hs] at hsound
  have hsizes : k .envBuf = len ∧ len ≤ k .buf := by
    refine run_invariant (Q := fun sizes => sizes .envBuf = len ∧ len ≤ sizes .buf)
      ⟨h.envBuf, h.buf⟩ (fun b n s hm hQ => ?_) hk
    obtain ⟨rfl, hle⟩ := alloc_mem_stores hm
    exact ⟨by simpa using hQ.1, by simpa using hle⟩
  exact ⟨⟨hsound.1, (step_span h.good hs).trans h.span, hsizes.1, hsizes.2⟩, hsound.2.1⟩

theorem stores_cons (env : List (List Char)) (len : ℕ) (hr : c.rest = ch :: rest)
    (hb : c.backslash = false) (hc : ch ≠ '\\') : stores env len c = match c.state with
      | .dQuote => quoteStores '"' c ch
      | .quote => quoteStores '\'' c ch
      | .dollar => dollarStores env len c ch
      | .none => noneStores c ch := by
  simp only [stores, hr, hb, hc, if_false]
  rfl

/-- Every pass of the loop does what `PassRoom` says. -/
theorem step_passRoom (h : Sized len c sizes) (hs : step env c = .again c') :
    PassRoom env len sizes c c' := by
  have hg := h.good
  unfold step at hs
  cases hr : c.rest with
  | nil => simp [hr] at hs
  | cons ch rest =>
    simp only [hr] at hs
    split_ifs at hs with hb hc
    · exact Pass.again.inj hs ▸ escaped_passRoom hr hb
    · exact Pass.again.inj hs ▸ backslash_passRoom (hc ▸ hr) (by simpa using hb)
    · have hb' : c.backslash = false := by simpa using hb
      have hstores := stores_cons env len hr hb' hc
      cases hst : c.state with
      | dQuote =>
        simp only [hst] at hs hstores
        exact Pass.again.inj hs ▸ stepQuote_passRoom hg hc hr hb' (by simp [hst])
          (by rw [hst]; rfl) (by decide) hstores
      | quote =>
        simp only [hst] at hs hstores
        exact Pass.again.inj hs ▸ stepQuote_passRoom hg hc hr hb' (by simp [hst])
          (by rw [hst]; rfl) (by decide) hstores
      | dollar =>
        simp only [hst] at hs hstores
        exact stepDollar_passRoom h hc hr hb' hst hstores hs
      | none =>
        simp only [hst] at hs hstores
        exact Pass.again.inj hs ▸ stepNone_passRoom hg hc hr hb' hst hstores

/-- The last pass has room for its stores if there was room for what was left. -/
theorem step_leave_room (h : Sized len c sizes) {o : Outcome} (hs : step env c = .leave o) :
    c.room env len (sizes .buf) ↔ ∃ k, run (stores env len c) sizes = some k := by
  cases hr : c.rest with
  | nil =>
    have hstores : stores env len c = finishStores env len c := by simp only [stores, hr]
    rw [hstores]
    exact finish_room h hr
  | cons ch rest =>
    unfold step at hs
    simp only [hr] at hs
    split_ifs at hs with hb hc
    have hb' : c.backslash = false := by simpa using hb
    cases hst : c.state with
    | dollar =>
      simp only [hst] at hs
      rw [stores_cons env len hr hb' hc, hst]
      exact stepDollar_leave h hc hr hb' hst hs
    | dQuote | quote | none =>
      simp only [hst] at hs
      cases hs

/-- `parse` stays inside of its buffers if and only if there is room for the line. -/
theorem buffers_iff_room (env : List (List Char)) (line : List Char) :
    InBounds env line ↔ HasRoom env line := by
  have hrun : ∀ paramList, (∃ o, parseBuffers env line paramList = some (some o)) ↔
      HasRoom env line := by
    intro paramList
    unfold parseBuffers
    simp only
    split_ifs with hlen
    · obtain rfl := List.length_eq_zero_iff.1 hlen
      exact iff_of_true ⟨_, rfl⟩ (fun _ _ _ h => absurd rfl h)
    · have hinit : Sized line.length (.init line paramList) fun _ => line.length :=
        ⟨⟨by simp [Config.init], fun _ => rfl⟩, by simp [Config.span, Config.init], rfl, le_rfl⟩
      refine guard_leaves_iff (I := fun x => Sized line.length x.1 x.2)
        (P := fun x => x.1.room env line.length (x.2 .buf)) Config.measure hinit ?_ ?_ ?_
      · exact fun x c' h hs => ⟨step_passRoom h hs, fun k hk => h.step hk hs⟩
      · exact fun x o h hs => step_leave_room h hs
      · simp [Config.measure, Config.init, passes]
  unfold InBounds
  simp only [hrun, forall_const]

/-! ## Lines without variables -/

/-- In a buffer with a byte to spare there is room for anything but a variable. -/
theorem room_of_lt (hvar : ∀ before name, .var before name ∉ is) (h : i + is.length < size) :
    Room env len hang close behind i size is := by
  induction is generalizing close behind i with
  | nil =>
    simp only [List.length_nil] at h
    intro _ _ _ _
    omega
  | cons it is ih =>
    have hvar' : ∀ before name, .var before name ∉ is := fun before name hm =>
      hvar before name (List.mem_cons_of_mem _ hm)
    simp only [List.length_cons] at h
    have hstay : ∀ close, Room env len hang close false i size is := fun close =>
      ih hvar' (by omega)
    have hput : ∀ close, i + 1 ≤ size ∧ Room env len hang close false (i + 1) size is :=
      fun close => ⟨by omega, ih hvar' (by omega)⟩
    cases it with
    | var before name => exact absurd List.mem_cons_self (hvar before name)
    | escaped ch => exact hput close
    | char ch =>
      cases close with
      | none =>
        rw [Room]
        split_ifs
        · exact ⟨fun _ => by omega, ih hvar' (by omega)⟩
        · exact hstay _
        · exact hput _
      | some q =>
        rw [Room]
        split_ifs
        · exact hstay _
        · exact hput _

/-- A character that is not stored leaves a byte to spare. -/
theorem room_of_special (hvar : ∀ before name, .var before name ∉ is)
    (h : i + is.length ≤ size) (hs : ∃ ch, .char ch ∈ is ∧ (ch = ' ' ∨ IsQuote ch)) :
    Room env len hang none behind i size is := by
  induction is generalizing behind i with
  | nil => simp at hs
  | cons it is ih =>
    have hvar' : ∀ before name, .var before name ∉ is := fun before name hm =>
      hvar before name (List.mem_cons_of_mem _ hm)
    simp only [List.length_cons] at h
    have hrest : (∀ ch, it = .char ch → ch ≠ ' ' ∧ ¬ IsQuote ch) →
        i + 1 ≤ size ∧ Room env len hang none false (i + 1) size is := by
      intro hit
      obtain ⟨ch, hm, hch⟩ := hs
      refine ⟨by omega, ih hvar' (by omega) ⟨ch, ?_, hch⟩⟩
      rcases List.mem_cons.1 hm with he | hm
      · have := hit ch he.symm
        exact absurd hch (by simp [this])
      · exact hm
    cases it with
    | var before name => exact absurd List.mem_cons_self (hvar before name)
    | escaped ch => exact hrest (by simp)
    | char ch =>
      rw [Room]
      split_ifs with hsp hq
      · exact ⟨fun _ => by omega, room_of_lt hvar' (by omega)⟩
      · exact room_of_lt hvar' (by omega)
      · exact hrest fun d hd => by
          rw [← Item.char.inj hd]
          exact ⟨hsp, hq⟩

/-- A plain word needs a byte more than it has characters. -/
theorem room_plain {s : List Char} (hs : ∀ ch ∈ s, ch ≠ ' ' ∧ ¬ IsQuote ch) :
    Room env len false none false i size (s.map .char) ↔
      (i + s.length ≠ 0 → i + s.length + 1 ≤ size) := by
  induction s generalizing i with
  | nil => simp [Room]
  | cons ch s ih =>
    have hch := hs ch List.mem_cons_self
    rw [List.map_cons, Room, if_neg hch.1, if_neg hch.2,
      ih fun d hd => hs d (List.mem_cons_of_mem _ hd), List.length_cons]
    omega

/-- Without a backslash every character is an item. -/
theorem items_of_no_backslash {s : List Char} (h : '\\' ∉ s) :
    items s = s.map .char ∧ hanging s = false := by
  induction s with
  | nil => exact ⟨rfl, rfl⟩
  | cons ch s ih =>
    rw [List.mem_cons, not_or] at h
    obtain ⟨hitems, hhang⟩ := ih h.2
    rw [items_cons (Ne.symm h.1), hanging_cons (Ne.symm h.1), hitems, hhang]
    exact ⟨rfl, rfl⟩

theorem length_items_le (s : List Char) : (items s).length ≤ s.length := by
  induction s using items.induct with
  | case1 => exact le_rfl
  | case2 => exact Nat.zero_le _
  | case3 ch h => simp [items, h]
  | case4 d s ih =>
    rw [items_backslash]
    simp only [List.length_cons]
    omega
  | case5 ch d s h ih =>
    rw [items_cons h]
    simpa using ih

/-- A backslash takes two characters for one item. -/
theorem length_items_lt {s : List Char} (h : '\\' ∈ s) : (items s).length < s.length := by
  induction s with
  | nil => cases h
  | cons ch s ih =>
    by_cases hc : ch = '\\'
    · subst hc
      cases s with
      | nil => decide
      | cons d s =>
        have := length_items_le s
        rw [items_backslash]
        simp only [List.length_cons]
        omega
    · rw [items_cons hc]
      simpa using ih ((List.mem_cons.1 h).resolve_left (Ne.symm hc))

theorem mem_items {s : List Char} (h : it ∈ items s) :
    (∃ ch ∈ s, it = .char ch) ∨ ∃ ch, it = .escaped ch := by
  induction s using items.induct with
  | case1 => cases h
  | case2 => cases h
  | case3 ch hc =>
    rw [items, if_neg hc, List.mem_singleton] at h
    exact Or.inl ⟨ch, List.mem_singleton_self ch, h⟩
  | case4 d s ih =>
    rw [items_backslash, List.mem_cons] at h
    rcases h with rfl | h
    · exact Or.inr ⟨d, rfl⟩
    · rcases ih h with ⟨ch, hm, he⟩ | he
      · exact Or.inl ⟨ch, List.mem_cons_of_mem _ (List.mem_cons_of_mem _ hm), he⟩
      · exact Or.inr he
  | case5 ch d s hc ih =>
    rw [items_cons hc, List.mem_cons] at h
    rcases h with rfl | h
    · exact Or.inl ⟨ch, List.mem_cons_self, rfl⟩
    · rcases ih h with ⟨ch, hm, he⟩ | he
      · exact Or.inl ⟨ch, List.mem_cons_of_mem _ hm, he⟩
      · exact Or.inr he

theorem no_var_items (s : List Char) (before name : List Char) : .var before name ∉ items s := by
  intro h
  rcases mem_items h with ⟨ch, -, h⟩ | ⟨ch, h⟩ <;> cases h

theorem withVars_of_no_dollar {p : Item → Bool} (h : .char '$' ∉ is) : withVars p is = is := by
  induction is with
  | nil => rfl
  | cons it is ih =>
    rw [List.mem_cons, not_or] at h
    rw [withVars_cons (Ne.symm h.1), ih h.2]

/-- Without variables a line fits unless it is a single plain word. -/
theorem hasRoom_of_no_dollar {line : List Char} (hd : '$' ∉ line) : HasRoom env line ↔
    line = [] ∨ ∃ ch ∈ line, ch = ' ' ∨ IsQuote ch ∨ ch = '\\' := by
  have hitem : .char '$' ∉ items line := by
    intro hm
    rcases mem_items hm with ⟨ch, hm, h⟩ | ⟨ch, h⟩
    · cases h
      exact hd hm
    · cases h
  unfold HasRoom
  rw [withVars_of_no_dollar hitem]
  by_cases hb : '\\' ∈ line
  · exact iff_of_true (room_of_lt (no_var_items line) (by simpa using length_items_lt hb))
      (Or.inr ⟨_, hb, Or.inr (Or.inr rfl)⟩)
  obtain ⟨hitems, hhang⟩ := items_of_no_backslash hb
  by_cases hs : ∃ ch ∈ line, ch = ' ' ∨ IsQuote ch
  · obtain ⟨ch, hm, hch⟩ := hs
    refine iff_of_true (room_of_special (no_var_items line) (by simpa using length_items_le line)
      ⟨ch, ?_, hch⟩) (Or.inr ⟨ch, hm, hch.imp_right Or.inl⟩)
    rw [hitems]
    exact List.mem_map_of_mem hm
  · have hplain : ∀ ch ∈ line, ch ≠ ' ' ∧ ¬ IsQuote ch := fun ch hm =>
      not_or.1 fun h => hs ⟨ch, hm, h⟩
    rw [hitems, hhang, room_plain hplain]
    constructor
    · intro h
      left
      rw [← List.length_eq_zero_iff]
      omega
    · rintro (rfl | ⟨ch, hm, h | h | rfl⟩)
      · simp
      · exact absurd h (hplain ch hm).1
      · exact absurd h (hplain ch hm).2
      · exact absurd hm hb

/-! ## Room and the lengths of the arguments -/

section Arguments

variable {a : List Item} {place : Place}

/-- An item that does not end a word fits if the word under construction behind it is shorter than the
line. -/
theorem room_item (he : grammar.emits place it = false) (hsize : len ≤ size)
    (hlt : (bufOf env (grammar.next place it) (grammar.put place a it)).length < len)
    (hrest : ∀ behind size, len ≤ size →
      Room env len hang (grammar.next place it).closing behind
        (bufOf env (grammar.next place it) (grammar.put place a it)).length size is) :
    Room env len hang place.closing behind (bufOf env place a).length size (it :: is) := by
  cases it with
  | var before name =>
    have hvar : ∀ value, getenv env name = some value →
        bufOf env (grammar.next place (.var before name)) (grammar.put place a (.var before name)) =
          bufOf env place a ++ before ++ value := by
      intro value hvalue
      cases place <;> simp [grammar, Place.closing, bufOf, Item.value, hvalue]
    have hclose : (grammar.next place (.var before name)).closing = place.closing := by
      cases place <;> rfl
    have hbefore : (bufOf env place a).length + before.length < len := by
      refine lt_of_le_of_lt ?_ hlt
      cases place <;> simp [grammar, Place.closing, bufOf, Item.value]
    refine ⟨fun _ => by omega, fun value hvalue => ?_⟩
    rw [hvar value hvalue, hclose, List.length_append, List.length_append] at hrest
    refine hrest true _ ?_
    split_ifs <;> omega
  | escaped ch =>
    have hbuf : bufOf env (grammar.next place (.escaped ch)) (grammar.put place a (.escaped ch)) =
        bufOf env place a ++ [ch] := by
      cases place <;> simp [grammar, Place.closing, bufOf, Item.value]
    have hclose : (grammar.next place (.escaped ch)).closing = place.closing := by
      cases place <;> rfl
    rw [hbuf, List.length_append, List.length_singleton] at hlt
    rw [hbuf, hclose, List.length_append, List.length_singleton] at hrest
    exact ⟨by omega, hrest false size hsize⟩
  | char ch =>
    have hrest := hrest false size hsize
    cases place with
    | dQuote =>
      by_cases hc : ch = '"' <;>
        simp only [grammar, Place.closing, bufOf, Item.value, Room, hc, reduceCtorEq, if_true,
          if_false, List.flatMap_append, List.flatMap_singleton, List.length_append,
          List.length_singleton] at hlt hrest ⊢
      · exact hrest
      · exact ⟨by omega, hrest⟩
    | quote =>
      by_cases hc : ch = '\'' <;>
        simp only [grammar, Place.closing, bufOf, Item.value, Room, hc, reduceCtorEq, if_true,
          if_false, List.flatMap_append, List.flatMap_singleton, List.length_append,
          List.length_singleton] at hlt hrest ⊢
      · exact hrest
      · exact ⟨by omega, hrest⟩
    | word =>
      have hs : ch ≠ ' ' := by
        rintro rfl
        cases he.symm.trans (emits_iff.2 ⟨rfl, rfl⟩)
      by_cases hd : ch = '"'
      · simp [grammar, Place.closing, bufOf, Room, IsQuote, hd] at hrest ⊢
        exact hrest
      · by_cases hq : ch = '\''
        · simp [grammar, Place.closing, bufOf, Room, IsQuote, hq] at hrest ⊢
          exact hrest
        · simp [grammar, Place.closing, bufOf, Item.value, Room, IsQuote, hs, hd, hq] at hlt hrest ⊢
          exact ⟨by omega, hrest⟩
    | between =>
      by_cases hs : ch = ' '
      · simp [grammar, Place.closing, bufOf, Room, hs] at hrest ⊢
        exact hrest
      · by_cases hd : ch = '"'
        · simp [grammar, Place.closing, bufOf, Room, IsQuote, hd] at hrest ⊢
          exact hrest
        · by_cases hq : ch = '\''
          · simp [grammar, Place.closing, bufOf, Room, IsQuote, hq] at hrest ⊢
            exact hrest
          · simp [grammar, Place.closing, bufOf, Item.value, Room, IsQuote, hs, hd, hq] at hlt hrest ⊢
            exact ⟨by omega, hrest⟩

/-- While a word is read it only becomes longer. -/
theorem grammar_keeps : grammar.Keeps (· ≠ .between) := by
  intro place it a hplace he
  cases it with
  | var before name => cases place <;> simp [grammar, Place.closing] at hplace ⊢
  | escaped ch => cases place <;> simp [grammar, Place.closing] at hplace ⊢
  | char ch =>
    cases place with
    | between => exact absurd rfl hplace
    | dQuote => by_cases hc : ch = '"' <;> simp [grammar, Place.closing, hc]
    | quote => by_cases hc : ch = '\'' <;> simp [grammar, Place.closing, hc]
    | word =>
      have hs : ch ≠ ' ' := by
        rintro rfl
        cases he.symm.trans (emits_iff.2 ⟨rfl, rfl⟩)
      by_cases hd : ch = '"'
      · simp [grammar, Place.closing, hd, IsQuote]
      · by_cases hq : ch = '\'' <;> simp [grammar, Place.closing, hs, hd, hq, IsQuote]

/-- The word under construction is not longer than the word that it becomes. -/
theorem length_bufOf_lt
    (h : ∀ word ∈ grammar.words is place a, (word.flatMap (Item.value env)).length < len)
    (hlen : 0 < len) : (bufOf env place a).length < len := by
  unfold bufOf
  split_ifs with hplace
  · exact hlen
  · obtain ⟨word, words, hwords, hpre⟩ := Lexer.exists_head (a := a) (s := is) grammar_keeps hplace
      fun hrun => by simpa [grammar] using hrun
    obtain ⟨b, rfl⟩ := hpre
    have hlt := h (a ++ b) (by simp [hwords])
    rw [List.flatMap_append, List.length_append] at hlt
    omega

/-- There is room if every word is shorter than the line, since the buffer is never shorter than the
line. -/
theorem room_of_words_lt (hlen : 0 < len) (is : List Item) :
    ∀ place behind a size, len ≤ size →
      (∀ word ∈ grammar.words is place a, (word.flatMap (Item.value env)).length < len) →
        Room env len hang place.closing behind (bufOf env place a).length size is := by
  induction is with
  | nil =>
    intro place behind a size hsize hwords _ _ _ _
    have hlt := length_bufOf_lt hwords hlen
    omega
  | cons it is ih =>
    intro place behind a size hsize hwords
    rw [Lexer.words_cons] at hwords
    have hrest : ∀ word ∈ grammar.words is (grammar.next place it) (grammar.put place a it),
        (word.flatMap (Item.value env)).length < len :=
      fun word hword => hwords word (List.mem_append_right _ hword)
    by_cases he : grammar.emits place it
    · obtain ⟨rfl, rfl⟩ := emits_iff.1 he
      have hlt := hwords a (List.mem_append_left _ (by simp [he]))
      exact ⟨fun _ => Nat.lt_of_lt_of_le hlt hsize,
        ih .between false (grammar.put .word a (.char ' ')) size hsize hrest⟩
    · refine room_item (by simpa using he) hsize (length_bufOf_lt hrest hlen) ?_
      intro behind size hsize
      exact ih _ behind _ size hsize hrest

/-- There is room for a line if each of its arguments is shorter than the line. -/
theorem hasRoom_of_args_lt {line : List Char}
    (h : ∀ arg ∈ args env Item.inRun line, arg.length < line.length) : HasRoom env line := by
  rcases line.eq_nil_or_concat with rfl | ⟨line', ch, rfl⟩
  · intro _ _ _ hne
    exact absurd rfl hne
  · refine room_of_words_lt (by simp) _ .between false [] _ le_rfl fun word hword => ?_
    exact h _ (List.mem_map_of_mem hword)

end Arguments

/-- The line `ab` is as long as its only argument, so there is no room for the terminator. -/
theorem not_inBounds_plain_word :
    ¬ ∀ env line, (∀ it ∈ withVars Item.inName (items line), it.IsSet env) → InBounds env line := by
  intro h
  obtain ⟨o, ho⟩ := h [] "ab".toList (by simp [items, withVars, Item.IsSet]) []
  have hrun : parseBuffers [] "ab".toList [] = some none := rfl
  rw [hrun] at ho
  cases ho

end Sem3.Blatt06
