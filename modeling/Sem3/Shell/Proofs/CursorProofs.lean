import Sem3.Shell.Cursor
import Sem3.Shell.Proofs.ParserProofs

/-!
# Proofs: the reads of the parser

The machine on the bytes of the line is the image of the machine on the text, and every byte that a
pass looks at is there.
-/

namespace Sem3.Shell

open Loop

variable {α : Type} {lit : Char → α} {values : List Char → List (List α)} {line rest : List Char}
  {c : Config α} {ch : Char}

/-! ## The bytes of a string -/

theorem drop_terminated (h : rest <:+ line) :
    (terminated line).drop (line.length - rest.length) = terminated rest := by
  obtain ⟨s, rfl⟩ := h
  simp [terminated]

theorem terminated_getElem (h : rest <:+ line) :
    (terminated line)[line.length - rest.length]? = some (peek rest) := by
  have hhead : (terminated rest)[0]? = some (peek rest) := by cases rest <;> rfl
  rw [← hhead, ← drop_terminated h, List.getElem?_drop, Nat.add_zero]

/-- The scan stops at the terminator at the latest. -/
theorem scanName_terminated (s : List Char) :
    scanName (terminated s) = some (s.takeWhile isNameChar) := by
  induction s with
  | nil => rfl
  | cons d s ih =>
    rw [terminated, List.cons_append, ← terminated, scanName, List.takeWhile_cons]
    by_cases hd : isNameChar d = true
    · rw [if_pos hd, if_pos hd, ih]
      rfl
    · rw [if_neg hd, if_neg hd]

/-! ## The simulation -/

/-- The machine on the bytes of the line at the place of the machine on the text. -/
def Config.cursor (line : List Char) (c : Config α) : Cursor α :=
  { state := c.state
    laststate := c.laststate
    arg := c.arg
    i := line.length - c.rest.length
    out := c.out }

/-- The first character that is left, and the place of the one behind it. -/
structure AtChar (line : List Char) (c : Config α) (ch : Char) (rest : List Char) : Prop where
  rest_eq : c.rest = ch :: rest
  suffix : rest <:+ line
  next : line.length - c.rest.length + 1 = line.length - rest.length

theorem AtChar.of_suffix (hr : c.rest = ch :: rest) (h : c.rest <:+ line) :
    AtChar line c ch rest := by
  have hle := h.length_le
  rw [hr] at h hle
  refine ⟨hr, (List.suffix_cons ch rest).trans h, ?_⟩
  rw [hr]
  simp only [List.length_cons] at hle ⊢
  omega

theorem AtChar.read (h : AtChar line c ch rest) :
    (terminated line)[line.length - c.rest.length + 1]? = some (peek rest) := by
  rw [h.next, terminated_getElem h.suffix]

theorem scanStart_cursor (h : AtChar line c ch rest) :
    scanStart (c.cursor line) ch = (stepStart c ch rest).cursor line := by
  have hi := h.next
  unfold scanStart stepStart
  simp only
  split_ifs <;> simp [Config.cursor, hi]

theorem scanLiteral_cursor (h : AtChar line c ch rest) :
    scanLiteral lit (terminated line) (c.cursor line) ch =
      some ((stepLiteral lit c ch rest).cursor line) := by
  have hi := h.next
  have hread := h.read
  unfold scanLiteral stepLiteral
  simp only
  split_ifs <;> simp_all [Config.cursor, Cursor.append]

theorem scanQuoted_cursor {quote : Char} (h : AtChar line c ch rest) :
    scanQuoted quote lit (terminated line) (c.cursor line) ch =
      some ((stepQuoted quote lit c ch rest).cursor line) := by
  have hi := h.next
  have hread := h.read
  unfold scanQuoted stepQuoted
  split_ifs <;> simp_all [Config.cursor, Cursor.append]

theorem scanEscaped_cursor (h : AtChar line c ch rest) :
    scanEscaped lit (terminated line) (c.cursor line) ch =
      some ((stepEscaped lit c ch rest).cursor line) := by
  have hi := h.next
  have hread := h.read
  -- a quote is not the terminator, so the index behind it is in the line
  have hquote : peek rest = '"' ∨ peek rest = '\'' →
      line.length - rest.length + 1 = line.length - (rest.length - 1) := by
    intro hq
    have hle := h.suffix.length_le
    cases rest with
    | nil => exact absurd hq (by decide)
    | cons d rest =>
      simp only [List.length_cons] at hle ⊢
      omega
  unfold scanEscaped stepEscaped
  simp only
  split_ifs <;> simp_all [Config.cursor, Cursor.append]

theorem scanWhite_cursor (h : AtChar line c ch rest) :
    scanWhite (c.cursor line) ch = (stepWhite c ch rest).cursor line := by
  have hi := h.next
  unfold scanWhite stepWhite
  split_ifs <;> simp [Config.cursor, hi]

theorem scanVar_cursor (h : c.rest <:+ line) :
    scanVar values (terminated line) (c.cursor line) =
      some ((stepVar values c).map (Config.cursor line) id) := by
  have hname : scanName ((terminated line).drop (c.cursor line).i) =
      some (c.rest.takeWhile isNameChar) := by
    rw [Config.cursor, drop_terminated h, scanName_terminated]
  have hle := (List.takeWhile_prefix isNameChar (l := c.rest)).length_le
  have hlen := h.length_le
  have hi : (c.cursor line).i + (c.rest.takeWhile isNameChar).length =
      line.length - (c.rest.drop (c.rest.takeWhile isNameChar).length).length := by
    rw [List.length_drop]
    simp only [Config.cursor]
    omega
  have hread : (terminated line)[(c.cursor line).i + (c.rest.takeWhile isNameChar).length]? =
      some (peek (c.rest.drop (c.rest.takeWhile isNameChar).length)) := by
    rw [hi, terminated_getElem ((List.drop_suffix _ _).trans h)]
  unfold scanVar stepVar
  simp only [hname, hread, Option.bind_eq_bind, Option.bind_some]
  split_ifs <;> simp_all [Config.cursor, Cursor.append, Pass.map]

/-- The machine on the bytes does what the machine on the text does, and reads no byte that is not
there. -/
theorem scan_cursor (h : c.rest <:+ line) :
    scan lit values (terminated line) (c.cursor line) =
      some ((step lit values c).map (Config.cursor line) id) := by
  have hread : (terminated line)[(c.cursor line).i]? = some (peek c.rest) := terminated_getElem h
  have hstate : (c.cursor line).state = c.state := rfl
  unfold scan step
  rw [hread, hstate, Option.bind_eq_bind, Option.bind_some]
  cases hr : c.rest with
  | nil => rfl
  | cons ch rest =>
    have hc := AtChar.of_suffix hr h
    have hpeek : peek (ch :: rest) = ch := rfl
    rw [hpeek]
    by_cases hn : ch = nul
    · simp only [hn, if_true]
      rfl
    simp only [hn, if_false]
    cases c.state with
    | start => simp only [scanStart_cursor hc, Pass.map]
    | end_ => rfl
    | literal => simp only [scanLiteral_cursor hc, Option.map_some, Pass.map]
    | squoted => simp only [scanQuoted_cursor hc, Option.map_some, Pass.map]
    | dquoted => simp only [scanQuoted_cursor hc, Option.map_some, Pass.map]
    | var => exact scanVar_cursor h
    | escaped => simp only [scanEscaped_cursor hc, Option.map_some, Pass.map]
    | white => simp only [scanWhite_cursor hc, Pass.map]

/-- Every pass on the bytes is the pass on the text that is left. -/
theorem scanStep_cursor (h : c.rest <:+ line) :
    scanStep lit values (terminated line) (c.cursor line) =
      (step lit values c).map (Config.cursor line) some := by
  rw [scanStep, scan_cursor h]
  cases step lit values c <;> rfl

/-! ## The run on the bytes -/

variable {c' : Config α}

/-- The invariant of the simulation. -/
structure Config.Within (line : List Char) (c : Config α) : Prop where
  good : c.Good
  suffix : c.rest <:+ line

theorem Config.Within.step (h : c.Within line) (hs : step lit values c = .again c') :
    c'.Within line :=
  ⟨(step_progress h.good hs).1, (step_suffix hs).trans h.suffix⟩

theorem Config.Within.init (line : List Char) (l : List (List α)) :
    (Config.init line l).Within line :=
  ⟨.init line l, List.suffix_rfl⟩

theorem cursor_init (line : List Char) (l : List (List α)) :
    (Config.init line l).cursor line = .init l := by
  simp [Config.cursor, Config.init, Cursor.init]

/-- `parse` on the bytes of a line is `parse` on its text. -/
theorem parseBytes_eq (env : List (List Char)) (line : List Char) (l : List (List Char)) :
    parseBytes env line l = (parseText env line l).map some := by
  rw [parseBytes, ← cursor_init line l]
  exact iterate_map_of (I := Config.Within line) (fun _ h => scanStep_cursor h.suffix)
    (fun _ _ h => h.step) _ (.init line l)

/-- The loop of `parse` ends on every line, without a read behind the terminator, and whenever it
is in the state `END`, the next character is the terminator. -/
theorem parseBytes_ends_inside (env : List (List Char)) (line : List Char)
    (l : List (List Char)) :
    (∃ o, parseBytes env line l = some (some o)) ∧
      ∀ c, Visits (scanStep id (envValues env) (terminated line)) (.init l) c → c.state = .end_ →
        (terminated line)[c.i]? = some nul := by
  constructor
  · have hrun : ∃ o, parseText env line l = some o := exists_iterate_step line l
    obtain ⟨o, ho⟩ := hrun
    exact ⟨o, by rw [parseBytes_eq, ho, Option.map_some]⟩
  · intro cur hcur hend
    rw [← cursor_init line l] at hcur
    obtain ⟨c, -, hc, rfl⟩ := hcur.exists_of_map (I := Config.Within line)
      (fun _ h => scanStep_cursor h.suffix) (fun _ _ h => h.step) (.init line l)
    have hnul := hc.good.end_ hend
    rw [← hnul]
    exact terminated_getElem hc.suffix

end Sem3.Shell
