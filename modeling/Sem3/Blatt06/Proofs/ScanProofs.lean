import Sem3.Blatt06.Spec

/-!
# Proofs: from characters to items

The loop reads a line as the items that `withVars` makes of it if the escaped characters behind a
name count as part of the variable. `scan` is what it does with them, and the value that no pass
changes.
-/

namespace Sem3.Blatt06

open Loop

variable {env : List (List Char)} {hang behind : Bool} {close : Option Char} {ch : Char}
  {s rest buf name : List Char} {out : List (List Char)} {i : Item} {is : List Item}
  {run : Item → Bool} {c c' : Config}

/-! ## Items -/

theorem items_cons (h : ch ≠ '\\') : items (ch :: s) = .char ch :: items s := by
  cases s with
  | nil => simp [items, h]
  | cons d s => rw [items, if_neg h]

theorem items_backslash : items ('\\' :: ch :: s) = .escaped ch :: items s := by
  rw [items, if_pos rfl]

theorem hanging_cons (h : ch ≠ '\\') : hanging (ch :: s) = hanging s := by
  cases s with
  | nil => simp [hanging, h]
  | cons d s => rw [hanging, if_neg h]

theorem hanging_backslash : hanging ('\\' :: ch :: s) = hanging s := by
  rw [hanging, if_pos rfl]

theorem withVars_cons (h : i ≠ .char '$') : withVars run (i :: is) = i :: withVars run is :=
  if_neg h

theorem withVars_dollar : withVars run (.char '$' :: is) = takeVar run [] (withVars run is) :=
  if_pos rfl

/-- The name ends before an item that is not in the run. -/
theorem takeVar_stop (h : run i = false) :
    takeVar run name (i :: is) = .var [] name :: i :: is := by
  simp [takeVar, h]

theorem takeVar_name (h : isNameChar ch) :
    takeVar Item.inRun name (.char ch :: is) = takeVar Item.inRun (name ++ [ch]) is := by
  have hrun : Item.inRun (.char ch) = true := h
  simp [takeVar, hrun, List.filterMap_cons, Item.escaped?, Item.char?]

/-- An item that is not taken into a variable is still in front behind `withVars`. -/
theorem withVars_char (h : ¬ isNameChar ch) (is : List Item) :
    ∃ i is', withVars Item.inRun (.char ch :: is) = i :: is' ∧ Item.inRun i = false := by
  by_cases hd : ch = '$'
  · rw [hd, withVars_dollar]
    exact ⟨_, _, rfl, rfl⟩
  · rw [withVars_cons (by simpa using hd)]
    exact ⟨_, _, rfl, by simpa [Item.inRun] using h⟩

/-! ## What the loop does with the items -/

/-- A parameter is only appended if it is not empty. -/
def nonempty (buf : List Char) : List (List Char) := if buf = [] then [] else [buf]

/-- The list at the end of the line: `close` is the character that closes the section, `behind` says
that the last item was a variable, and `hang` that a backslash ends the line. -/
def scan (env : List (List Char)) (hang : Bool) :
    Option Char → Bool → List Char → List (List Char) → List Item → Option (List (List Char))
  | close, behind, buf, out, [] =>
    if behind then some (out ++ [buf])
    else if close = none ∧ ¬ hang then some (out ++ nonempty buf)
    else none
  | close, _, buf, out, .var before name :: is =>
    (getenv env name).bind fun value => scan env hang close true (buf ++ before ++ value) out is
  | close, _, buf, out, .escaped ch :: is => scan env hang close false (buf ++ [ch]) out is
  | some q, _, buf, out, .char ch :: is =>
    if ch = q then scan env hang none false buf out is
    else scan env hang (some q) false (buf ++ [ch]) out is
  | none, _, buf, out, .char ch :: is =>
    if ch = ' ' then scan env hang none false [] (out ++ nonempty buf) is
    else if IsQuote ch then scan env hang (some ch) false buf out is
    else scan env hang none false (buf ++ [ch]) out is

theorem scan_cons (i : Item) (is : List Item) :
    scan env hang close behind buf out (i :: is) = scan env hang close false buf out (i :: is) := by
  cases i with
  | char ch => cases close <;> rfl
  | escaped ch => rfl
  | var before name => rfl

/-- The escaped characters behind a name come before the value. -/
theorem scan_takeVar_escaped :
    scan env hang close behind buf out (takeVar Item.inRun name (.escaped ch :: is)) =
      scan env hang close false (buf ++ [ch]) out (takeVar Item.inRun name is) := by
  have hrun : Item.inRun (.escaped ch) = true := rfl
  simp [takeVar, hrun, List.filterMap_cons, Item.escaped?, Item.char?, scan]

/-! ## A pass -/

/-- The text that is left, with the backslash that has been read. -/
def Config.text (c : Config) : List Char := if c.backslash then '\\' :: c.rest else c.rest

/-- The quote that ends the section, if there is one. -/
def ParserState.closing : ParserState → Option Char
  | .dQuote => some '"'
  | .quote => some '\''
  | .dollar => .none
  | .none => .none

/-- The list at the end of the line, from the head of a pass on. -/
def Config.result (env : List (List Char)) (c : Config) : Option (List (List Char)) :=
  let is := withVars Item.inRun (items c.text)
  if c.state = .dollar then
    scan env (hanging c.text) c.restore.closing false c.buf c.paramList (takeVar Item.inRun c.envBuf is)
  else scan env (hanging c.text) c.state.closing false c.buf c.paramList is

/-- Outside of a variable no name is being read, and no variable is left for another one. -/
structure Config.Good (c : Config) : Prop where
  restore : c.state = .dollar → c.restore ≠ .dollar
  envBuf : c.state ≠ .dollar → c.envBuf = []

/-- What every pass decreases: a pass that leaves a variable does not read a character. -/
def Config.measure (c : Config) : ℕ := 2 * c.rest.length + if c.state = .dollar then 1 else 0

/-- What a pass keeps. -/
def Keeps (env : List (List Char)) (c c' : Config) : Prop :=
  c'.Good ∧ c'.measure < c.measure ∧ c'.result env = c.result env

theorem Config.result_of_ne (h : c.state ≠ .dollar) : c.result env =
    scan env (hanging c.text) c.state.closing false c.buf c.paramList
      (withVars Item.inRun (items c.text)) := by
  simp only [Config.result, if_neg h]

theorem Config.result_dollar (h : c.state = .dollar) : c.result env =
    scan env (hanging c.text) c.restore.closing false c.buf c.paramList
      (takeVar Item.inRun c.envBuf (withVars Item.inRun (items c.text))) := by
  simp only [Config.result, if_pos h]

theorem measure_lt_of_consumes (hr : c.rest = ch :: rest) (h : c'.rest = rest) :
    c'.measure < c.measure := by
  unfold Config.measure
  rw [hr, h, List.length_cons]
  split_ifs <;> omega

theorem keeps_escaped (hg : c.Good) (hr : c.rest = ch :: rest) (hb : c.backslash = true) :
    Keeps env c { c with buf := c.buf ++ [ch], backslash := false, rest } := by
  refine ⟨⟨hg.restore, hg.envBuf⟩, measure_lt_of_consumes hr rfl, ?_⟩
  have htext : c.text = '\\' :: ch :: rest := by rw [Config.text, if_pos hb, hr]
  by_cases hs : c.state = .dollar
  · rw [Config.result_dollar hs, Config.result_dollar (by exact hs), htext, items_backslash,
      hanging_backslash, withVars_cons (by simp), scan_takeVar_escaped]
    rfl
  · rw [Config.result_of_ne hs, Config.result_of_ne (by exact hs), htext, items_backslash,
      hanging_backslash, withVars_cons (by simp), scan]
    rfl

/-- A backslash is read, and is part of the text that is left. -/
theorem keeps_backslash (hg : c.Good) (hr : c.rest = '\\' :: rest) (hb : c.backslash = false) :
    Keeps env c { c with backslash := true, rest } := by
  refine ⟨⟨hg.restore, hg.envBuf⟩, measure_lt_of_consumes hr rfl, ?_⟩
  have htext : c.text = '\\' :: rest := by rw [Config.text, hb, hr]; rfl
  simp only [Config.result, htext]
  rfl

/-- To keep the list a pass that consumes a character has to do what `scan` does with the item. -/
theorem Keeps.of_char (hc : ch ≠ '\\') (hr : c.rest = ch :: rest) (hb : c.backslash = false)
    (hs : c.state ≠ .dollar) (hg' : c'.Good) (hr' : c'.rest = rest) (hb' : c'.backslash = false)
    (h : ∀ is, (if c'.state = .dollar then scan env (hanging rest) c'.restore.closing false c'.buf
        c'.paramList (takeVar Item.inRun c'.envBuf (withVars Item.inRun is))
      else scan env (hanging rest) c'.state.closing false c'.buf c'.paramList
        (withVars Item.inRun is)) =
      scan env (hanging rest) c.state.closing false c.buf c.paramList
        (withVars Item.inRun (.char ch :: is))) : Keeps env c c' := by
  refine ⟨hg', measure_lt_of_consumes hr hr', ?_⟩
  have htext : c.text = ch :: rest := by rw [Config.text, hb, hr]; rfl
  have htext' : c'.text = rest := by rw [Config.text, hb', hr']; rfl
  rw [Config.result_of_ne hs, htext, items_cons hc, hanging_cons hc, ← h (items rest),
    Config.result, htext']

theorem stepQuote_keeps (hg : c.Good) (hc : ch ≠ '\\') (hr : c.rest = ch :: rest)
    (hb : c.backslash = false) {q : Char} (hs : c.state ≠ .dollar) (hq : c.state.closing = some q)
    (hd : q ≠ '$') : Keeps env c (stepQuote q c ch rest) := by
  have hbuf := hg.envBuf hs
  unfold stepQuote
  split_ifs with h1 h2
  · refine .of_char hc hr hb hs ⟨by simp, fun _ => hbuf⟩ rfl hb ?_
    intro is
    rw [if_neg (by simp), withVars_cons (by simp [h1, hd]), hq, scan, if_pos h1]
    rfl
  · refine .of_char hc hr hb hs ⟨fun _ => hs, by simp⟩ rfl hb ?_
    intro is
    rw [if_pos rfl, h2, withVars_dollar, hbuf]
  · refine .of_char hc hr hb hs ⟨hg.restore, hg.envBuf⟩ rfl hb ?_
    intro is
    rw [if_neg (by exact hs), withVars_cons (by simpa using h2), hq, scan, if_neg h1]

theorem stepNone_keeps (hg : c.Good) (hc : ch ≠ '\\') (hr : c.rest = ch :: rest)
    (hb : c.backslash = false) (hs : c.state = .none) : Keeps env c (stepNone c ch rest) := by
  have hne : c.state ≠ .dollar := by simp [hs]
  have hbuf := hg.envBuf hne
  have hclose : c.state.closing = none := by rw [hs]; rfl
  unfold stepNone
  split_ifs with h1 h2 h3 h4 h5
  · refine .of_char hc hr hb hne ⟨by simp, fun _ => hbuf⟩ rfl hb ?_
    intro is
    subst h1
    rw [if_neg (by simp), withVars_cons (by simp), hclose]
    rfl
  · refine .of_char hc hr hb hne ⟨by simp, fun _ => hbuf⟩ rfl hb ?_
    intro is
    subst h2
    rw [if_neg (by simp), withVars_cons (by simp), hclose]
    rfl
  · refine .of_char hc hr hb hne ⟨fun _ => hne, by simp⟩ rfl hb ?_
    intro is
    rw [if_pos rfl, h3, withVars_dollar, hbuf]
  · refine .of_char hc hr hb hne ⟨hg.restore, hg.envBuf⟩ rfl hb ?_
    intro is
    rw [if_neg (by exact hne), withVars_cons (by simpa using h3), hclose, scan, if_pos h4, h5]
    simp [nonempty]
  · refine .of_char hc hr hb hne ⟨hg.restore, hg.envBuf⟩ rfl hb ?_
    intro is
    rw [if_neg (by exact hne), withVars_cons (by simpa using h3), hclose, scan, if_pos h4]
    simp [nonempty, h5]
  · refine .of_char hc hr hb hne ⟨hg.restore, hg.envBuf⟩ rfl hb ?_
    intro is
    rw [if_neg (by exact hne), withVars_cons (by simpa using h3), hclose, scan, if_neg h4,
      if_neg (by simp [h1, h2])]

/-- What a pass has to do: go on without a change to the list at the end, or leave with it. -/
def Sound (env : List (List Char)) (c : Config) : Pass Config Outcome → Prop
  | .again c' => Keeps env c c'
  | .leave o => o = outcome (c.result env)

theorem stepDollar_sound (hg : c.Good) (hc : ch ≠ '\\') (hr : c.rest = ch :: rest)
    (hb : c.backslash = false) (hs : c.state = .dollar) :
    Sound env c (stepDollar env c ch rest) := by
  have htext : c.text = ch :: rest := by rw [Config.text, hb, hr]; rfl
  have hrestore := hg.restore hs
  unfold stepDollar
  split_ifs with hn
  · have hd : ch ≠ '$' := by
      rintro rfl
      exact absurd hn (by decide)
    refine ⟨⟨fun _ => hrestore, fun hne => absurd hs hne⟩, measure_lt_of_consumes hr rfl, ?_⟩
    have htext' : Config.text { c with envBuf := c.envBuf ++ [ch], rest } = rest := by
      simp [Config.text, hb]
    rw [Config.result_dollar hs, Config.result_dollar (by exact hs), htext, htext', items_cons hc,
      hanging_cons hc, withVars_cons (by simpa using hd), takeVar_name hn]
  · -- the variable ends here, and the character is read once more
    obtain ⟨i, is, hi, hstop⟩ := withVars_char hn (items rest)
    have hresult : c.result env = (getenv env c.envBuf).bind fun value =>
        scan env (hanging rest) c.restore.closing true (c.buf ++ [] ++ value) c.paramList (i :: is) := by
      rw [Config.result_dollar hs, htext, items_cons hc, hanging_cons hc, hi, takeVar_stop hstop,
        scan]
    cases hget : getenv env c.envBuf with
    | none =>
      show Outcome.exited = outcome (c.result env)
      rw [hresult, hget]
      rfl
    | some value =>
      refine ⟨⟨fun h => absurd h hrestore, fun _ => rfl⟩, ?_, ?_⟩
      · simp only [Config.measure, if_pos hs, if_neg hrestore]
        omega
      · have htext' : Config.text { c with buf := c.buf ++ value, envBuf := [], state := c.restore } =
            ch :: rest := htext
        rw [Config.result_of_ne hrestore, htext', items_cons hc, hanging_cons hc, hi, hresult, hget,
          Option.bind_some, List.append_nil]
        exact (scan_cons i is).symm

theorem finish_eq (hr : c.rest = []) : finish env c = c.result env := by
  have hitems : withVars Item.inRun (items c.text) = [] := by
    rw [Config.text, hr]
    cases c.backslash <;> rfl
  have hhang : hanging c.text = c.backslash := by
    rw [Config.text, hr]
    cases c.backslash <;> rfl
  unfold finish
  cases hs : c.state with
  | dQuote =>
    rw [Config.result_of_ne (by simp [hs]), hitems, hs]
    rfl
  | quote =>
    rw [Config.result_of_ne (by simp [hs]), hitems, hs]
    rfl
  | dollar =>
    rw [Config.result_dollar hs, hitems]
    cases hget : getenv env c.envBuf <;> simp [takeVar, scan, hget]
  | none =>
    rw [Config.result_of_ne (by simp [hs]), hitems, hs, hhang]
    by_cases hb : c.backslash <;> by_cases hbuf : c.buf = [] <;>
      simp [scan, ParserState.closing, nonempty, hb, hbuf]

theorem step_sound (env : List (List Char)) (hg : c.Good) : Sound env c (step env c) := by
  unfold step
  cases hr : c.rest with
  | nil =>
    show outcome (finish env c) = outcome (c.result env)
    rw [finish_eq hr]
  | cons ch rest =>
    simp only
    split_ifs with hb hc
    · exact keeps_escaped hg hr hb
    · exact keeps_backslash hg (hc ▸ hr) (by simpa using hb)
    · have hb' : c.backslash = false := by simpa using hb
      cases hs : c.state with
      | dQuote => exact stepQuote_keeps hg hc hr hb' (by simp [hs]) (by rw [hs]; rfl) (by decide)
      | quote => exact stepQuote_keeps hg hc hr hb' (by simp [hs]) (by rw [hs]; rfl) (by decide)
      | dollar => exact stepDollar_sound hg hc hr hb' hs
      | none => exact stepNone_keeps hg hc hr hb' hs

/-- The loop of `parse` leaves with what `scan` makes of the items of the line. -/
theorem parse_eq (env : List (List Char)) {line : List Char} (paramList : List (List Char))
    (hlen : line.length ≠ 0) :
    parse env line paramList =
      some (outcome (scan env (hanging line) none false [] paramList
        (withVars Item.inRun (items line)))) := by
  rw [parse, if_neg hlen]
  apply iterate_eq Config.measure (I := Config.Good) (f := fun c => outcome (c.result env))
  · exact ⟨by simp [Config.init], fun _ => rfl⟩
  · intro a b hg hab
    have hs := step_sound env hg
    rw [hab] at hs
    exact ⟨hs.1, hs.2.1, congrArg outcome hs.2.2⟩
  · intro a o hg hao
    have hs := step_sound env hg
    rwa [hao] at hs
  · simp [Config.measure, Config.init, passes]

/-- `parse` returns with the list of the scan, if there is one. -/
theorem outcome_eq_returned_iff {result : Option (List (List Char))} {l : List (List Char)} :
    (∃ more, outcome result = .returned more l) ↔ result = some l := by
  cases result with
  | none =>
    constructor
    · rintro ⟨more, h⟩
      cases h
    · intro h
      cases h
  | some l' =>
    constructor
    · rintro ⟨more, h⟩
      cases h
      rfl
    · intro h
      cases h
      exact ⟨_, rfl⟩

/-- `parse` returns the list that `scan` makes of the items of the line. -/
theorem parse_returned_iff (env : List (List Char)) (line : List Char)
    (paramList l : List (List Char)) :
    (∃ more, parse env line paramList = some (.returned more l)) ↔
      scan env (hanging line) none false [] paramList (withVars Item.inRun (items line)) =
        some l := by
  by_cases hlen : line.length = 0
  · obtain rfl := List.length_eq_zero_iff.1 hlen
    have hscan : scan env (hanging []) none false [] paramList (withVars Item.inRun (items [])) =
        some (paramList ++ []) := rfl
    simp [parse, hscan]
  · rw [parse_eq env paramList hlen]
    simp only [Option.some.injEq]
    exact outcome_eq_returned_iff

end Sem3.Blatt06
