import Sem3.Shell.Proofs.ParserProofs

/-!
# Proofs: expansion of variables

The machine that copies values is the image of the machine that notes names: `Config.fill` carries
every pass of the one to a pass of the other.
-/

namespace Sem3.Shell

open Loop

/-- The entry begins with the name and `=`, and the rest is the value. -/
theorem entryValue_eq (name entry : List Char) :
    entryValue name entry = (name ++ ['=']).isPrefixOf? entry := by
  induction name generalizing entry with
  | nil =>
    cases entry with
    | nil => rfl
    | cons ch entry =>
      by_cases h : ch = '='
      · simp [entryValue, List.isPrefixOf?, h]
      · simp [entryValue, List.isPrefixOf?, h, Ne.symm h]
  | cons x name ih =>
    cases entry with
    | nil => rfl
    | cons ch entry =>
      have := ih entry
      simp only [entryValue] at this
      simp only [entryValue, List.length_cons, List.take_succ_cons, List.cons.injEq,
        List.getElem?_cons_succ, List.drop_succ_cons, List.cons_append, List.isPrefixOf?, beq_iff_eq,
        ← this]
      by_cases h : x = ch
      · simp [h]
      · simp [h, Ne.symm h]

theorem envValues_eq (env : List (List Char)) : envValues env = valuesOf env := by
  funext name
  unfold envValues valuesOf
  exact congrArg (List.filterMap · env) (funext (entryValue_eq name))

variable {env l : List (List Char)} {c : Config Item} {ch : Char} {rest : List Char}

/-! ## The simulation -/

theorem Config.append_fill : (c.fill env l).append = c.append.fill env l := by
  simp [Config.fill, Config.append]

theorem stepStart_fill : stepStart (c.fill env l) ch rest = (stepStart c ch rest).fill env l := by
  unfold stepStart
  simp only
  split_ifs <;> rfl

theorem stepWhite_fill : stepWhite (c.fill env l) ch rest = (stepWhite c ch rest).fill env l := by
  unfold stepWhite
  split_ifs <;> rfl

theorem put_fill :
    { c.fill env l with arg := (c.fill env l).arg ++ [ch], rest := rest } =
      Config.fill env l { c with arg := c.arg ++ [Item.char ch], rest := rest } := by
  simp [Config.fill, Template.fill, Item.fill]

theorem stepLiteral_fill :
    stepLiteral id (c.fill env l) ch rest = (stepLiteral Item.char c ch rest).fill env l := by
  unfold stepLiteral
  simp only [Config.append_fill, id, put_fill]
  split_ifs <;> simp_all [Config.fill]

theorem stepQuoted_fill {quote : Char} :
    stepQuoted quote id (c.fill env l) ch rest =
      (stepQuoted quote Item.char c ch rest).fill env l := by
  unfold stepQuoted
  simp only [Config.append_fill, id, put_fill]
  split_ifs <;> rfl

theorem stepEscaped_fill :
    stepEscaped id (c.fill env l) ch rest = (stepEscaped Item.char c ch rest).fill env l := by
  unfold stepEscaped
  simp only [id, put_fill, Config.append_fill]
  split_ifs <;> rfl

theorem stepVar_fill :
    stepVar (valuesOf env) (c.fill env l) =
      (stepVar (fun name => [[Item.var name]]) c).map (Config.fill env l) (Outcome.fill env l) := by
  have hvar : ∀ name rest, { c.fill env l with
        arg := (c.fill env l).arg ++ (valuesOf env name).flatten, rest := rest } =
      Config.fill env l { c with arg := c.arg ++ [[Item.var name]].flatten, rest := rest } := by
    intro name rest
    simp [Config.fill, Template.fill, Item.fill]
  have hrest : (c.fill env l).rest = c.rest := rfl
  unfold stepVar
  simp only [hvar, hrest, Config.append_fill]
  split_ifs <;> rfl

/-- Every pass on the text is the image of the pass on templates. -/
theorem step_fill (c : Config Item) :
    step id (valuesOf env) (c.fill env l) =
      (step Item.char (fun name => [[Item.var name]]) c).map (Config.fill env l)
        (Outcome.fill env l) := by
  have hrest : (c.fill env l).rest = c.rest := rfl
  have hstate : (c.fill env l).state = c.state := rfl
  unfold step
  rw [hrest, hstate]
  cases c.rest with
  | nil => rfl
  | cons ch rest =>
    by_cases hn : ch = nul
    · simp only [hn, if_true]
      rfl
    simp only [hn, if_false]
    cases c.state with
    | start => exact congrArg Pass.again stepStart_fill
    | end_ => rfl
    | literal => exact congrArg Pass.again stepLiteral_fill
    | squoted => exact congrArg Pass.again stepQuoted_fill
    | dquoted => exact congrArg Pass.again stepQuoted_fill
    | var => exact stepVar_fill
    | escaped => exact congrArg Pass.again stepEscaped_fill
    | white => exact congrArg Pass.again stepWhite_fill

/-- What `parse` appends is given by templates that depend on the line alone, and so is whether it
exits: the values of the variables are copied and never read again. -/
theorem parse_eq_fill_templates :
    ∃ T : List Char → Option (List Template), ∀ line env l,
      parseText env line l = some (match T line with
        | some ts => .returned (l ++ ts.map (Template.fill env))
        | none => .exited) := by
  refine ⟨templates, fun line env l => ?_⟩
  have hinit : Config.init line l = (Config.init line []).fill env l := by
    simp [Config.init, Config.fill, Template.fill]
  have hrun : ∃ o, iterate (step Item.char fun name => [[Item.var name]]) (passes line)
      (.init line []) = some o := exists_iterate_step line []
  obtain ⟨o, ho⟩ := hrun
  rw [parseText, envValues_eq, hinit, iterate_map _ (Outcome.fill env l) step_fill, templates, ho]
  cases o <;> rfl

end Sem3.Shell
