import Sem3.Sched.Spec
import Mathlib.Data.List.Induction
import Mathlib.Data.List.TakeWhile

/-!
# Proofs: reading the thread descriptions

The fields of a line are what stands between its separators, and only those that are ended by one
are stored. So a line with fewer than three fields leaves the other elements of `params` as the line
before has set them, which was in range.
-/

namespace Sem3.Sched

variable {k i : ℕ} {params v : ℕ → ℤ} {line field rest buf cs : List Char} {lines : List (List Char)}
  {fs : List (List Char)} {p : Params}

/-! ## Well-formed lines -/

/-- `atoi` gives the number that the digits stand for. -/
theorem atoi_eq (f : List Char) : atoi f = numeral f := by
  induction f using List.reverseRecOn with
  | nil => rfl
  | append_singleton f c ih =>
    have hstep : atoi (f ++ [c]) = 10 * atoi f + (c.toNat - '0'.toNat : ℕ) := by
      rw [atoi, List.foldl_append]
      rfl
    have hnumeral : numeral (f ++ [c]) = c.toNat - '0'.toNat + 10 * numeral f := by
      rw [numeral, List.reverse_append, List.reverse_singleton, List.singleton_append,
        List.map_cons, Nat.ofDigits_cons]
      rfl
    rw [hstep, ih, hnumeral]
    omega

/-! ## Lines -/

theorem readLine_newline {body : List Char} (hbody : '\n' ∉ body) (hk : body.length < k)
    (cs : List Char) : readLine k (body ++ '\n' :: cs) = (body ++ ['\n'], cs) := by
  induction body generalizing k with
  | nil =>
    obtain ⟨k, rfl⟩ : ∃ j, k = j + 1 := ⟨k - 1, by simp at hk; omega⟩
    simp [readLine]
  | cons c body ih =>
    obtain ⟨k, rfl⟩ : ∃ j, k = j + 1 := ⟨k - 1, by simp at hk; omega⟩
    obtain ⟨hc, hbody⟩ := not_or.1 (List.mem_cons.not.1 hbody)
    rw [List.length_cons] at hk
    have hrest := ih hbody (by omega : body.length < k)
    simp only [List.cons_append, readLine, if_neg (Ne.symm hc), hrest]

/-- The last line is read up to the end of the input. -/
theorem readLine_end (hbody : '\n' ∉ cs) (hk : cs.length ≤ k) : readLine k cs = (cs, []) := by
  induction cs generalizing k with
  | nil => cases k <;> rfl
  | cons c cs ih =>
    rw [List.length_cons] at hk
    obtain ⟨k, rfl⟩ : ∃ j, k = j + 1 := ⟨k - 1, by omega⟩
    obtain ⟨hc, hbody⟩ := not_or.1 (List.mem_cons.not.1 hbody)
    have hrest := ih hbody (by omega : cs.length ≤ k)
    simp only [readLine, if_neg (Ne.symm hc), hrest]

theorem IsInput.tail (h : IsInput (line :: lines)) : IsInput lines where
  length := fun l hl => h.length l (List.mem_cons_of_mem line hl)
  ne_nil := fun l hl => h.ne_nil l (List.mem_cons_of_mem line hl)
  newline := fun l hl => h.newline l (List.mem_cons_of_mem line hl)
  ended := fun l hl => h.ended l <| by
    cases lines with
    | nil => cases hl
    | cons line' lines => exact List.mem_cons_of_mem line hl

/-- `fgets` reads the next line. -/
theorem fgets_line (h : IsInput (line :: lines)) (buf : List Char) :
    fgets buf 1023 (line :: lines).flatten = (line, lines.flatten) := by
  have hlen := h.length line List.mem_cons_self
  have hne := h.ne_nil line List.mem_cons_self
  have hbody := h.newline line List.mem_cons_self
  have hsplit := List.dropLast_append_getLast hne
  have hlast : line.getLast hne = '\n' ∨ lines = [] := by
    cases lines with
    | nil => exact .inr rfl
    | cons line' lines =>
      have hended := h.ended line List.mem_cons_self
      rw [List.getLast?_eq_some_getLast hne] at hended
      exact .inl (Option.some.inj hended)
  rw [fgets, if_neg (by simp [hne]), List.flatten_cons]
  by_cases hnl : line.getLast hne = '\n'
  · rw [hnl] at hsplit
    have hbodylen := congrArg List.length hsplit
    rw [List.length_append, List.length_singleton] at hbodylen
    rw [← hsplit, List.append_assoc]
    exact readLine_newline hbody (by omega) lines.flatten
  · obtain rfl := hlast.resolve_left hnl
    rw [List.flatten_nil, List.append_nil]
    refine readLine_end ?_ (by omega)
    rw [← hsplit]
    simp only [List.mem_append, List.mem_singleton, not_or]
    exact ⟨hbody, Ne.symm hnl⟩

/-! ## Fields -/

/-- No character ends the field. -/
def Plain (field : List Char) : Prop := ∀ c ∈ field, c ≠ nul ∧ isSeparator c = false

theorem Plain.nil : Plain [] := fun _ hc => nomatch hc

/-- A field goes on at a character that does not end it. -/
theorem Plain.snoc (h : Plain field) {c : Char} (hnul : c ≠ nul) (hc : ¬ (c = ' ' ∨ c = '\n')) :
    Plain (field ++ [c]) := by
  intro d hd
  rcases List.mem_append.1 hd with hd | hd
  · exact h d hd
  · obtain rfl := List.mem_singleton.1 hd
    exact ⟨hnul, by simpa [isSeparator] using hc⟩

theorem plain_of_digits (h : field.all Char.isDigit) : Plain field := by
  intro c hc
  have hdigit := List.all_eq_true.1 h c hc
  refine ⟨?_, ?_⟩
  · rintro rfl
    exact absurd hdigit (by decide)
  · by_contra hsep
    rw [Bool.not_eq_false, isSeparator, decide_eq_true_eq] at hsep
    rcases hsep with rfl | rfl <;> exact absurd hdigit (by decide)

theorem fields_plain (h : Plain field) : fields field = [] := by
  rw [fields, List.takeWhile_eq_self_iff.2 fun c hc => by simpa using (h c hc).1,
    List.splitOnP_eq_singleton fun c hc => (h c hc).2]
  rfl

theorem fields_nul (h : Plain field) (rest : List Char) : fields (field ++ nul :: rest) = [] := by
  rw [fields, List.takeWhile_append_of_pos fun c hc => by simpa using (h c hc).1,
    List.takeWhile_cons_of_neg (by simp), List.append_nil,
    List.splitOnP_eq_singleton fun c hc => (h c hc).2]
  rfl

theorem fields_separator (h : Plain field) {c : Char} (hc : c = ' ' ∨ c = '\n') (rest : List Char) :
    fields (field ++ c :: rest) = field :: fields rest := by
  have hnul : c ≠ nul := by rcases hc with rfl | rfl <;> decide
  have hsep : isSeparator c = true := by simpa [isSeparator] using hc
  rw [fields, List.takeWhile_append_of_pos fun c hc => by simpa using (h c hc).1,
    List.takeWhile_cons_of_pos (by simpa using hnul),
    List.splitOnP_append_cons_of_forall_mem (fun c hc => (h c hc).2) c hsep,
    List.dropLast_cons_of_ne_nil (List.splitOnP_ne_nil _ _)]
  rfl

/-- `params` when the fields are stored from `params[k]` on. -/
def store (params : ℕ → ℤ) : ℕ → List (List Char) → ℕ → ℤ
  | _, [] => params
  | k, f :: fs => store (Function.update params k (atoi f)) (k + 1) fs

/-- The loop ends without another field. -/
theorem stop_ok_iff (hk : k ≤ 3) (buf : List Char) :
    (∃ buf', (.ok (buf, params) : Except Exit (List Char × (ℕ → ℤ))) = .ok (buf', v)) ↔
      (∀ f ∈ ([] : List (List Char)), f.all Char.isDigit) ∧ k + ([] : List (List Char)).length ≤ 3 ∧
        v = store params k [] := by
  constructor
  · rintro ⟨buf', h⟩
    cases h
    exact ⟨by simp, hk, rfl⟩
  · rintro ⟨-, -, rfl⟩
    exact ⟨buf, rfl⟩

/-- The loop over `buf` accepts a line if its fields consist of digits and there is room for them in
`params`. -/
theorem scan_ok_iff (hfield : Plain field) (hk : k ≤ 3) :
    (∃ buf, scan rest field params k = .ok (buf, v)) ↔
      (∀ f ∈ fields (field ++ rest), f.all Char.isDigit) ∧
        k + (fields (field ++ rest)).length ≤ 3 ∧ v = store params k (fields (field ++ rest)) := by
  induction rest generalizing field params k with
  | nil =>
    rw [List.append_nil, fields_plain hfield]
    exact stop_ok_iff hk field
  | cons c rest ih =>
    unfold scan
    split_ifs with hnul hsep hdigits hfull
    · rw [hnul, fields_nul hfield]
      exact stop_ok_iff hk _
    · rw [fields_separator hfield hsep, List.length_cons]
      refine iff_of_false (by simp) fun h => ?_
      omega
    · rw [fields_separator hfield hsep, store, List.forall_mem_cons, List.length_cons]
      have hrest : (∃ buf, scan rest [] (Function.update params k (atoi field)) (k + 1) =
          .ok (buf, v)) ↔ _ := ih Plain.nil (by omega)
      rw [List.nil_append] at hrest
      have hcount : k + ((fields rest).length + 1) = k + 1 + (fields rest).length := by omega
      rw [and_iff_right hdigits, hcount, ← hrest]
      cases scan rest [] (Function.update params k (atoi field)) (k + 1) with
      | error e => simp
      | ok x => simp [Prod.ext_iff]
    · rw [fields_separator hfield hsep]
      refine iff_of_false (by simp) fun h => hdigits (h.1 field List.mem_cons_self)
    · have hsnoc : (∃ buf, scan rest (field ++ [c]) params k = .ok (buf, v)) ↔ _ :=
        ih (hfield.snoc hnul hsep) hk
      rwa [List.append_assoc] at hsnoc

/-! ## One line -/

/-- `params` behind a line: an element without a field is what it was. -/
def value (params : ℕ → ℤ) (fs : List (List Char)) (i : ℕ) : ℤ := (fs[i]?.map atoi).getD (params i)

theorem store_apply (params : ℕ → ℤ) (k : ℕ) (fs : List (List Char)) (i : ℕ) :
    store params k fs i = if i < k then params i else (fs[i - k]?.map atoi).getD (params i) := by
  induction fs generalizing params k with
  | nil => simp [store]
  | cons f fs ih =>
    rw [store, ih]
    rcases Nat.lt_trichotomy i k with hlt | rfl | hgt
    · rw [if_pos (by omega), if_pos hlt, Function.update_of_ne (by omega)]
    · simp
    · obtain ⟨j, rfl⟩ : ∃ j, i = k + 1 + j := ⟨i - (k + 1), by omega⟩
      have hj : k + 1 + j - k = j + 1 := by omega
      rw [if_neg (by omega), if_neg (by omega), hj, Nat.add_sub_cancel_left, List.getElem?_cons_succ,
        Function.update_of_ne (by omega)]

theorem store_zero (params : ℕ → ℤ) (fs : List (List Char)) : store params 0 fs = value params fs := by
  funext i
  rw [store_apply, if_neg (Nat.not_lt_zero i), Nat.sub_zero, value]

/-- All three elements are within their bounds. -/
def InRange (v : ℕ → ℤ) : Prop := ∀ i < 3, Allowed i (v i)

/-- The condition that `main` tests. -/
theorem inRange_iff :
    InRange v ↔ ¬ (v 0 < 1 ∨ v 0 > 10 ∨ v 1 > 100000 ∨ v 2 > 30000) := by
  constructor
  · intro h
    have h0 := h 0 (by decide)
    have h1 := h 1 (by decide)
    have h2 := h 2 (by decide)
    simp only [Allowed] at h0 h1 h2
    omega
  · intro h i hi
    match i, hi with
    | 0, _ => simp only [Allowed]; omega
    | 1, _ => simp only [Allowed]; omega
    | 2, _ => simp only [Allowed]; omega

/-- The line is accepted when `params` is as given. -/
def Acceptable (params : ℕ → ℤ) (line : List Char) : Prop :=
  (∀ f ∈ fields line, f.all Char.isDigit) ∧ (fields line).length ≤ 3 ∧
    InRange (value params (fields line))

/-- The thread that a line is read as. -/
def threadOf (params : ℕ → ℤ) (line : List Char) : Params :=
  ⟨value params (fields line) 0, value params (fields line) 1, value params (fields line) 2⟩

/-- A line is accepted if it is acceptable, and gives its thread. -/
theorem readThread_eq_ok_iff (h : IsInput (line :: lines)) {x : Params × Reader} :
    readThread ⟨(line :: lines).flatten, buf, params⟩ = .ok x ↔ Acceptable params line ∧
      ∃ buf', scan line [] params 0 = .ok (buf', value params (fields line)) ∧
        x = (threadOf params line, ⟨lines.flatten, buf', value params (fields line)⟩) := by
  have hscan : ∀ v, (∃ buf, scan line [] params 0 = .ok (buf, v)) ↔ _ := fun v =>
    scan_ok_iff Plain.nil (Nat.zero_le 3)
  simp only [List.nil_append, Nat.zero_add, store_zero] at hscan
  rw [readThread]
  simp only [fgets_line h]
  cases hs : scan line [] params 0 with
  | error e => exact iff_of_false (by simp) (by simp)
  | ok y =>
    obtain ⟨buf', v⟩ := y
    obtain ⟨hdigits, hlen, rfl⟩ := (hscan v).1 ⟨buf', hs⟩
    simp only
    split_ifs with hrange
    · refine iff_of_false (by simp) fun hacc => ?_
      exact inRange_iff.1 hacc.1.2.2 hrange
    · have hacc : Acceptable params line := ⟨hdigits, hlen, inRange_iff.2 hrange⟩
      constructor
      · rintro ⟨⟩
        exact ⟨hacc, buf', rfl, rfl⟩
      · rintro ⟨-, _, ⟨⟩, rfl⟩
        rfl

/-- An acceptable line is scanned to its end. -/
theorem exists_scan (h : Acceptable params line) :
    ∃ buf, scan line [] params 0 = .ok (buf, value params (fields line)) := by
  refine (scan_ok_iff Plain.nil (Nat.zero_le 3)).2 ⟨h.1, ?_, ?_⟩
  · rw [Nat.zero_add]
    exact h.2.1
  · rw [List.nil_append, store_zero]

/-! ## All lines -/

/-- All lines are accepted, each when `params` is as the lines before have left it. -/
def Accepts : (ℕ → ℤ) → List (List Char) → Prop
  | _, [] => True
  | params, line :: lines => Acceptable params line ∧ Accepts (value params (fields line)) lines

/-- The threads that the lines are read as. -/
def threadsOf : (ℕ → ℤ) → List (List Char) → List Params
  | _, [] => []
  | params, line :: lines => threadOf params line :: threadsOf (value params (fields line)) lines

theorem readThreads_succ_eq_ok_iff {n : ℕ} {r : Reader} {threads : List Params} :
    readThreads (n + 1) r = .ok threads ↔
      ∃ x, readThread r = .ok x ∧ ∃ ts, readThreads n x.2 = .ok ts ∧ threads = x.1 :: ts := by
  rw [readThreads]
  cases readThread r with
  | error e => simp
  | ok x => cases hr : readThreads n x.2 <;> simp [Except.map, hr, eq_comm]

/-- All lines are accepted if each one is acceptable behind those before it. -/
theorem readThreads_eq_ok_iff (h : IsInput lines) {threads : List Params} :
    readThreads lines.length ⟨lines.flatten, buf, params⟩ = .ok threads ↔
      Accepts params lines ∧ threads = threadsOf params lines := by
  induction lines generalizing buf params threads with
  | nil => simp [readThreads, Accepts, threadsOf, eq_comm]
  | cons line lines ih =>
    rw [List.length_cons, readThreads_succ_eq_ok_iff, Accepts, threadsOf]
    constructor
    · rintro ⟨x, hread, ts, hrest, rfl⟩
      obtain ⟨hacc, buf', -, rfl⟩ := (readThread_eq_ok_iff h).1 hread
      obtain ⟨haccs, rfl⟩ := (ih h.tail).1 hrest
      exact ⟨⟨hacc, haccs⟩, rfl⟩
    · rintro ⟨⟨hacc, haccs⟩, rfl⟩
      obtain ⟨buf', hbuf'⟩ := exists_scan hacc
      exact ⟨_, (readThread_eq_ok_iff h).2 ⟨hacc, buf', hbuf', rfl⟩, _, (ih h.tail).2 ⟨haccs, rfl⟩,
        rfl⟩

/-! ## What is accepted -/

/-- A line is acceptable if it is tolerated, and what it does not set is in range. -/
theorem acceptable_iff : Acceptable params line ↔
    Tolerated line ∧ ∀ i < 3, (fields line)[i]? = none → Allowed i (params i) := by
  constructor
  · rintro ⟨hdigits, hlen, hrange⟩
    refine ⟨⟨hdigits, hlen, fun i f hf => ?_⟩, fun i hi hnone => ?_⟩
    · have hi : i < 3 := by
        have := (List.getElem?_eq_some_iff.1 hf).1
        omega
      simpa [value, hf] using hrange i hi
    · simpa [value, hnone] using hrange i hi
  · rintro ⟨⟨hdigits, hlen, hallowed⟩, hmissing⟩
    refine ⟨hdigits, hlen, fun i hi => ?_⟩
    cases hf : (fields line)[i]? with
    | none => simpa [value, hf] using hmissing i hi hf
    | some f => simpa [value, hf] using hallowed i f hf

/-- Behind an accepted line `params` is in range, so only the first line can miss a value. -/
theorem accepts_iff : Accepts params lines ↔ (∀ line ∈ lines, Tolerated line) ∧ Covered params lines := by
  induction lines generalizing params with
  | nil => simp [Accepts, Covered]
  | cons line lines ih =>
    rw [Accepts, ih, List.forall_mem_cons]
    have hcovered : Acceptable params line → Covered (value params (fields line)) lines :=
      fun hacc _ _ i hi _ => hacc.2.2 i hi
    simp only [Covered, List.head?_cons, Option.some.injEq, forall_eq'] at hcovered ⊢
    rw [acceptable_iff] at hcovered ⊢
    tauto

/-! ## Well-formed lines are accepted -/

/-- The fields of a well-formed line are its numbers. -/
theorem fields_describes {f g h : List Char} (hf : IsDecimal f) (hg : IsDecimal g)
    (hh : IsDecimal h) : fields (f ++ ' ' :: (g ++ ' ' :: (h ++ ['\n']))) = [f, g, h] := by
  rw [fields_separator (plain_of_digits hf.2) (.inl rfl),
    fields_separator (plain_of_digits hg.2) (.inl rfl),
    fields_separator (plain_of_digits hh.2) (.inr rfl)]
  rfl

/-- A well-formed line is acceptable, and gives its numbers. -/
theorem Describes.accepts {p : Params} (h : Describes line p) (params : ℕ → ℤ) :
    Acceptable params line ∧ threadOf params line = p := by
  obtain ⟨f, g, h, rfl, ⟨hf, hg, hh⟩, rfl, hprio, hstart, htarget⟩ := h
  have hfields := fields_describes hf hg hh
  refine ⟨⟨?_, by rw [hfields]; exact le_refl 3, ?_⟩, ?_⟩
  · simp only [hfields, List.forall_mem_cons]
    exact ⟨hf.2, hg.2, hh.2, fun _ hnil => nomatch hnil⟩
  · intro i hi
    rw [hfields]
    match i, hi with
    | 0, _ => simpa [value, atoi_eq] using hprio
    | 1, _ => simpa [value, atoi_eq] using hstart
    | 2, _ => simpa [value, atoi_eq] using htarget
  · rw [threadOf, hfields]
    simp [value, atoi_eq]

/-- Well-formed lines are accepted, and give their numbers. -/
theorem accepts_of_describes (h : ∀ line ∈ lines, ∃ p, Describes line p) (params : ℕ → ℤ) :
    Accepts params lines ∧ List.Forall₂ Describes lines (threadsOf params lines) := by
  induction lines generalizing params with
  | nil => exact ⟨trivial, .nil⟩
  | cons line lines ih =>
    obtain ⟨⟨p, hp⟩, hrest⟩ := List.forall_mem_cons.1 h
    obtain ⟨hacc, hthread⟩ := hp.accepts params
    obtain ⟨haccs, hforall⟩ := ih hrest (value params (fields line))
    exact ⟨⟨hacc, haccs⟩, .cons (hthread ▸ hp) hforall⟩

/-- The loop does what it should if and only if all lines are well formed, or a line has a field that
does not consist of digits, is out of range or is the fourth one, or the first line leaves an
element of `params` that is out of range. -/
theorem readsFaithfully_iff (lines : List (List Char)) (h : IsInput lines) (buf : List Char)
    (params : ℕ → ℤ) : ReadsFaithfully lines buf params ↔
      (∀ line ∈ lines, ∃ p, Describes line p) ∨ (∃ line ∈ lines, ¬ Tolerated line) ∨
        ¬ Covered params lines := by
  have hread : ∀ threads, readThreads lines.length ⟨lines.flatten, buf, params⟩ = .ok threads ↔
      Accepts params lines ∧ threads = threadsOf params lines := fun _ => readThreads_eq_ok_iff h
  have hrejected : ((∃ line ∈ lines, ¬ Tolerated line) ∨ ¬ Covered params lines) ↔
      ¬ Accepts params lines := by
    rw [accepts_iff, not_and_or]
    simp
  rw [ReadsFaithfully, hrejected]
  simp only [hread, exists_and_left, exists_eq, and_true]
  constructor
  · rintro ⟨hiff, -⟩
    by_cases hacc : Accepts params lines
    · exact .inl (hiff.1 hacc)
    · exact .inr hacc
  · rintro (hdescribes | hno)
    · obtain ⟨hacc, hforall⟩ := accepts_of_describes hdescribes params
      exact ⟨iff_of_true hacc hdescribes, fun threads ht => ht.2 ▸ hforall⟩
    · refine ⟨iff_of_false hno fun hdescribes => ?_, fun threads ht => absurd ht.1 hno⟩
      exact hno (accepts_of_describes hdescribes params).1

/-- Two lines with three numbers each. -/
def twoLines : List (List Char) :=
  [['1', ' ', '2', ' ', '3', '\n'], ['4', ' ', '5', ' ', '6', '\n']]

/-- The second line is read over the contents that the first one leaves in `buf` and `params`. -/
theorem readsFaithfully_iff_two : ReadsFaithfully twoLines [] (fun _ => 0) ↔
    (∀ line ∈ twoLines, ∃ p, Describes line p) ∨ (∃ line ∈ twoLines, ¬ Tolerated line) ∨
      ¬ Covered (fun _ => 0) twoLines :=
  readsFaithfully_iff twoLines ⟨by decide, by decide, by decide, by decide⟩ [] fun _ => 0

/-- A second line with one number. The thread gets the start and the runtime of the first one. -/
def shortLines : List (List Char) := [['1', ' ', '2', ' ', '3', '\n'], ['4', '\n']]

/-- The second line has one number, and takes the others from the line before. -/
theorem not_readsFaithfully_shortLines :
    IsInput shortLines ∧
      readThreads 2 ⟨shortLines.flatten, [], fun _ => 0⟩ = .ok [⟨1, 2, 3⟩, ⟨4, 2, 3⟩] ∧
      ¬ ReadsFaithfully shortLines [] fun _ => 0 := by
  have hread : readThreads 2 ⟨shortLines.flatten, [], fun _ => 0⟩ = .ok [⟨1, 2, 3⟩, ⟨4, 2, 3⟩] := rfl
  refine ⟨⟨by decide, by decide, by decide, by decide⟩, hread, fun hfaithful => ?_⟩
  obtain ⟨p, f, g, h, hline, -⟩ := hfaithful.1.1 ⟨_, hread⟩ ['4', '\n'] (by decide)
  have hspace : ' ' ∈ ['4', '\n'] := by
    rw [hline]
    simp
  exact absurd hspace (by decide)

end Sem3.Sched
