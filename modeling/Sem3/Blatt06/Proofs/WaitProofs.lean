import Sem3.Blatt06.Mysh
import Sem3.Blatt06.Proofs.GrammarProofs
import Sem3.Shell.Proofs.ChildProofs
import Sem3.Shell.Proofs.ProcessListProofs

/-!
# Proofs: the children of the first shell

A line is followed by `fork` if it has a parameter, and by `wait` whether it has one or not. It has
none if it consists of spaces, or of words that are all empty and dropped.
-/

namespace Sem3.Blatt06

variable {env : List (List Char)} {s s' : Mysh} {act : Act} {steps : List (Mysh × Act)}

/-- What a step can be. -/
inductive Fires (env : List (List Char)) (s : Mysh) : Act → Mysh → Prop
  | blank {text : List Char} (hs : s.phase = .prompt)
      (hparse : parse env (lineOf text) [] = some (.returned true [])) :
      Fires env s (.line text) { s with phase := .wait }
  | words {text : List Char} {paramList : List (List Char)} (hs : s.phase = .prompt)
      (hparse : parse env (lineOf text) [] = some (.returned true paramList)) (hne : paramList ≠ []) :
      Fires env s (.line text) { s with phase := .fork paramList }
  | stop {text : List Char} {paramList : List (List Char)} (hs : s.phase = .prompt)
      (hparse : parse env (lineOf text) [] = some (.returned false paramList)) :
      Fires env s (.line text) { s with phase := .stopped }
  | fork {args : List (List Char)} {pid : ℤ} (hs : s.phase = .fork args) :
      Fires env s (.fork pid)
        { phase := .wait, kids := s.kids ++ [pid], processList := s.processList ++ [pid] }
  | wait {retPid : ℤ} {processList : List ℤ} (hs : s.phase = .wait)
      (hwait : Shell.CanWait s.kids retPid)
      (hreap : Shell.reap s.processList retPid = some processList) :
      Fires env s (.wait retPid) { phase := .prompt, kids := s.kids.erase retPid, processList }

theorem fires (h : s.step env act = some s') : Fires env s act s' := by
  unfold Mysh.step at h
  split at h
  next text hs =>
    split at h
    next more paramList hparse =>
      cases more with
      | false =>
        simp at h
        exact h ▸ .stop hs hparse
      | true =>
        by_cases hne : paramList = []
        · subst hne
          simp at h
          exact h ▸ .blank hs hparse
        · simp [hne] at h
          exact h ▸ .words hs hparse hne
    next => cases h
  next args pid hs =>
    split_ifs at h
    exact Option.some.inj h ▸ .fork hs
  next retPid hs =>
    split_ifs at h with hwait
    obtain ⟨processList, hreap, rfl⟩ := Option.map_eq_some_iff.1 h
    exact .wait hs hwait hreap
  next => cases h

/-! ## Lines without a parameter -/

section Wordless

variable {hang behind : Bool} {close : Option Char} {buf text line : List Char}
  {out : List (List Char)} {is : List Item}

/-- What stands behind the last variable is kept, also if it is empty. -/
theorem scan_ne_nil (h : behindVar behind is = true) :
    scan env hang close behind buf out is ≠ some [] := by
  induction is generalizing close behind buf out with
  | nil =>
    have hbehind : behind = true := h
    simp [scan, hbehind]
  | cons i is ih =>
    rw [behindVar_cons] at h
    cases i with
    | var before name =>
      intro heq
      obtain ⟨value, -, hscan⟩ := Option.bind_eq_some_iff.1 heq
      exact ih h hscan
    | escaped ch => exact ih h
    | char ch =>
      cases close with
      | some q =>
        rw [scan]
        split_ifs
        · exact ih h
        · exact ih h
      | none =>
        rw [scan]
        split_ifs
        · exact ih h
        · exact ih h
        · exact ih h

/-- A line without a parameter, in terms of its items. -/
theorem wordless_iff_scan : Wordless env (.line text) ↔
    scan env (hanging (lineOf text)) none false [] []
      (withVars Item.inRun (items (lineOf text))) = some [] := by
  rw [← parse_returned_iff]
  constructor
  · exact fun h => ⟨true, h⟩
  · rintro ⟨more, h⟩
    by_cases hlen : (lineOf text).length = 0
    · show parse env (lineOf text) [] = _
      rw [parse, if_pos hlen]
    · have hscan := (parse_returned_iff env (lineOf text) [] []).1 ⟨more, h⟩
      show parse env (lineOf text) [] = _
      rw [parse_eq env [] hlen, hscan]
      rfl

/-- The line is one of the grammar, does not end behind a variable, and all its words are empty. -/
theorem wordless_iff : Wordless env (.line text) ↔
    InGrammar env Item.inRun (lineOf text) ∧ endsInVar (lineOf text) = false ∧
      ∀ arg ∈ args env Item.inRun (lineOf text), arg = [] := by
  have hkept : kept false (args env Item.inRun (lineOf text)) = [] ↔
      ∀ arg ∈ args env Item.inRun (lineOf text), arg = [] := by
    simp [kept, List.filter_eq_nil_iff]
  constructor
  · intro h
    have hvar : endsInVar (lineOf text) = false := by
      by_contra hvar
      rw [Bool.not_eq_false, ← endsInVar_eq] at hvar
      exact scan_ne_nil hvar (wordless_iff_scan.1 h)
    have hin : InGrammar env Item.inRun (lineOf text) := by
      rcases (returned_iff env (lineOf text) []).1 ⟨_, _, h⟩ with hdangles | hin
      · exact absurd hdangles.1 (by simp [hvar])
      · exact hin
    refine ⟨hin, hvar, hkept.1 ?_⟩
    have heq := returned_eq hin h
    rw [hvar] at heq
    exact heq.symm
  · rintro ⟨hin, hvar, hargs⟩
    obtain ⟨more, l, hret⟩ := (returned_iff env (lineOf text) []).2 (.inr hin)
    have hl : l = [] := by
      rw [returned_eq hin hret, hvar]
      exact hkept.2 hargs
    subst hl
    exact wordless_iff_scan.2 ((parse_returned_iff env (lineOf text) [] []).1 ⟨more, hret⟩)

theorem scan_spaces (h : ∀ ch ∈ line, ch = ' ') : hanging line = false ∧
    scan env false none false [] [] (withVars Item.inRun (items line)) = some [] := by
  induction line with
  | nil => exact ⟨rfl, rfl⟩
  | cons ch line ih =>
    obtain ⟨rfl, hrest⟩ := List.forall_mem_cons.1 h
    obtain ⟨hhang, hscan⟩ := ih hrest
    rw [hanging_cons (by decide), items_cons (by decide), withVars_cons (by decide)]
    exact ⟨hhang, hscan⟩

/-- A line of spaces has no parameter. -/
theorem wordless_of_spaces (h : ∀ ch ∈ lineOf text, ch = ' ') : Wordless env (.line text) := by
  obtain ⟨hhang, hscan⟩ : hanging (lineOf text) = false ∧ _ := scan_spaces h
  rw [wordless_iff_scan, hhang]
  exact hscan

end Wordless

/-! ## Before `wait` and at a prompt -/

/-- The list is that of the children: one before `wait`, and none elsewhere. -/
def Single (s : Mysh) : Prop :=
  s.processList = s.kids ∧
    match s.phase with
    | .wait => ∃ pid, s.kids = [pid]
    | _ => s.kids = []

/-- A state with this property matches, at a prompt and before `wait`. -/
theorem Single.matched (h : Single s) : Matched s where
  wait := by
    intro hs
    obtain ⟨heq, hphase⟩ := h
    rw [hs] at hphase
    obtain ⟨pid, hkids⟩ := hphase
    refine ⟨by simp [hkids], ?_⟩
    intro retPid hwait
    rw [hkids] at hwait
    have hmem : retPid ∈ s.processList := by
      rw [heq, hkids]
      simpa [Shell.CanWait] using hwait
    rw [Shell.reap_eq_erase hmem]
    exact Option.some_ne_none _
  prompt := by
    intro hs
    have hphase := h.2
    rw [hs] at hphase
    exact hphase

/-- A step on a line with a parameter keeps the property. -/
theorem Single.fires (h : Single s) (hs : Fires env s act s') (hword : ¬ Wordless env act) :
    Single s' := by
  obtain ⟨heq, hphase⟩ := h
  cases hs with
  | blank _ hparse => exact absurd hparse hword
  | words hs =>
    rw [hs] at hphase
    exact ⟨heq, hphase⟩
  | stop hs =>
    rw [hs] at hphase
    exact ⟨heq, hphase⟩
  | @fork args pid hs =>
    rw [hs] at hphase
    exact ⟨by rw [heq], pid, by rw [hphase]; rfl⟩
  | @wait retPid processList hs hwait hreap =>
    rw [hs] at hphase
    obtain ⟨pid, hkids⟩ := hphase
    obtain rfl : retPid = pid := by simpa [Shell.CanWait, hkids] using hwait
    rw [heq, hkids, Shell.reap_eq_erase List.mem_cons_self, List.erase_cons_head] at hreap
    refine ⟨?_, ?_⟩
    · rw [← Option.some.inj hreap, hkids, List.erase_cons_head]
    · rw [hkids]
      exact List.erase_cons_head _ _

/-- Before `wait` there is a child, what `wait` gives is in the list, and no child is left at a prompt,
in every state of a run, if and only if every line of the run has a parameter or is not accepted. -/
theorem waits_matched_iff (h : Run (Mysh.step env) .init steps s) :
    (∀ x ∈ steps, Matched x.1) ∧ Matched s ↔ ∀ x ∈ steps, ¬ Wordless env x.2 := by
  refine h.forall_observed_iff (G := Single) (P := Matched) (C := fun _ act => ¬ Wordless env act)
    ⟨rfl, rfl⟩ (fun _ => Single.matched) ?_ ?_
  · intro s act s' hS hword hstep
    exact hS.fires (Sem3.Blatt06.fires hstep) hword
  · intro s act s' hS hword hstep hM
    obtain ⟨-, hphase⟩ := hS
    cases Sem3.Blatt06.fires hstep with
    | blank hs =>
      rw [hs] at hphase
      exact (hM.wait rfl).1 hphase
    | words _ hparse hne =>
      have heq : some (Outcome.returned true []) = some (.returned true _) :=
        (not_not.1 hword).symm.trans hparse
      cases heq
      exact hne rfl
    | stop _ hparse =>
      have heq : some (Outcome.returned true []) = some (.returned false _) :=
        (not_not.1 hword).symm.trans hparse
      cases heq
    | fork => exact hword not_false
    | wait => exact hword not_false

/-- The line `ls` and its child. -/
theorem waits_matched_iff_ls :
    ∃ steps s, Run (Mysh.step []) .init steps s ∧
      [.line ['l', 's', '\n'], .fork 7, .wait 7].foldlM (Mysh.step []) .init = some s ∧
      ((∀ x ∈ steps, Matched x.1) ∧ Matched s ↔ ∀ x ∈ steps, ¬ Wordless [] x.2) := by
  have hsome : ([.line ['l', 's', '\n'], .fork 7, .wait 7].foldlM (Mysh.step []) .init).isSome := by
    decide
  obtain ⟨s, hs⟩ := Option.isSome_iff_exists.1 hsome
  obtain ⟨steps, h⟩ := Run.exists_of_foldlM hs
  exact ⟨steps, s, h, hs, waits_matched_iff h⟩

/-- Behind a blank line `wait` has no child to wait for, and the `-1` that it gives is not found. -/
theorem not_matched_blank :
    ∃ steps s, Run (Mysh.step []) .init steps s ∧ parse [] (lineOf ['\n']) [] ≠ some .exited ∧
      s = ⟨.wait, [], []⟩ ∧ Shell.CanWait s.kids (-1) ∧ Shell.reap s.processList (-1) = none ∧
      ¬ Matched s := by
  refine ⟨_, ⟨.wait, [], []⟩, Run.init.snoc (rfl : Mysh.step [] .init (.line ['\n']) = _), by decide,
    rfl, rfl, rfl, ?_⟩
  intro h
  exact (h.wait rfl).1 rfl

/-! ## The nodes of the list -/

open Shell.ProcessList (Call Represents)

/-- The call that a step makes for the list. -/
def listCall : Act → Option Call
  | .fork pid => some (.append pid)
  | .wait retPid => some (.reap retPid)
  | _ => none

/-- `main` touches `processList` only by its calls. -/
theorem step_processList (h : s.step env act = some s') :
    (listCall act).toList.foldlM Call.onSequence s.processList = some s'.processList := by
  cases Sem3.Blatt06.fires h with
  | blank | words | stop => rfl
  | fork => rfl
  | wait _ _ hreap =>
    show (Shell.reap s.processList _).bind some = _
    rw [hreap]
    rfl

/-- In every run of the first shell the nodes of the list have the numbers that `processList` has. -/
theorem processList_on_nodes {fuel : ℕ} {malloc : LinkedList.Malloc ℤ} (hm : malloc.Succeeds)
    (h : Run (Mysh.step env) .init steps s) (hfuel : steps.length < fuel) :
    ∃ store, (steps.filterMap fun x => listCall x.2).foldlM (Call.onNodes fuel malloc)
      LinkedList.Store.empty = some store ∧ Represents store s.processList :=
  Shell.ProcessList.run_on_nodes Mysh.processList hm (fun _ _ _ => step_processList) rfl h hfuel

end Sem3.Blatt06
