import Sem3.StudentDb.Spec
import Mathlib.Data.List.Forall2

/-!
# Proofs: loading a student database

The end of the file ends the reading of students, wherever it comes. So a record that is cut off is
dropped without an error, and so is one with a negative count, which no file of a real size can
fulfil.
-/

namespace Sem3.StudentDb

open Ocaml (Exn intOfString)

variable {φ : Type} {floatOfString : List Char → Option φ} {leftFirst : Bool} {line : List Char}
  {lines gls rest : List (List Char)} {s s' : Student φ} {students db : List (Student φ)}
  {count count' : Int63} {g : Int63 × φ} {grades gs : List (Int63 × φ)} {e : Exn}

/-! ## Counts -/

theorem countdown_eq_zero : countdown count = 0 ↔ count = 0 := by
  have hlower := count.lower
  have hupper := count.upper
  constructor
  · intro h
    unfold countdown at h
    ext
    show count.val = 0
    omega
  · rintro rfl
    rfl

theorem countdown_sub_one (h : count ≠ 0) : countdown (count - 1) + 1 = countdown count := by
  have hne := mt countdown_eq_zero.1 h
  have hmod : (count - 1).val % 2 ^ 63 = (count.val - 1) % 2 ^ 63 := Int.bmod_emod
  unfold countdown at hne ⊢
  rw [hmod]
  omega

/-- A number that is not negative counts down from itself. -/
theorem countdown_of_nonneg (h : 0 ≤ count.val) : countdown count = count.val.toNat := by
  have hupper := count.upper
  unfold countdown
  omega

/-! ## Lines -/

section OrFail

variable {α β : Type} {msg : String} {o : Option α} {f : α → Except Exn β} {b : β}

theorem orFail_bind_ok : (orFail msg o >>= f) = .ok b ↔ ∃ a, o = some a ∧ f a = .ok b := by
  cases o with
  | none =>
    refine iff_of_false (by rintro ⟨⟩) ?_
    rintro ⟨a, h, -⟩
    cases h
  | some a =>
    refine ⟨fun h => ⟨a, rfl, h⟩, ?_⟩
    rintro ⟨a', heq, h⟩
    cases heq
    exact h

/-- Only failures come from a field that is not a number. -/
theorem orFail_bind_error (hf : ∀ a, f a = .error e → ∃ msg, e = .failure msg)
    (h : (orFail msg o >>= f) = .error e) : ∃ msg, e = .failure msg := by
  cases o with
  | none =>
    cases h
    exact ⟨msg, rfl⟩
  | some a => exact hf a h

end OrFail

theorem readGrade_eq_ok :
    readGrade floatOfString leftFirst line = .ok g ↔ GradeLine floatOfString line g := by
  obtain ⟨course, grade⟩ := g
  unfold readGrade GradeLine
  split
  · next c x hsplit =>
    rw [hsplit]
    cases leftFirst <;> simp [orFail_bind_ok, pure, Except.pure, and_comm]
  · next hsplit =>
    refine iff_of_false (by rintro ⟨⟩) ?_
    rintro ⟨c, x, heq, -⟩
    exact hsplit c x heq

theorem failure_of_readGrade (h : readGrade floatOfString leftFirst line = .error e) :
    ∃ msg, e = .failure msg := by
  unfold readGrade at h
  split at h
  · split_ifs at h
    · exact orFail_bind_error (fun _ => orFail_bind_error fun _ h => by cases h) h
    · exact orFail_bind_error (fun _ => orFail_bind_error fun _ h => by cases h) h
  · cases h
    exact ⟨_, rfl⟩

/-- A line is read as a student if it describes one. -/
theorem readHeader_eq_ok :
    readHeader line = .ok (s, count) ↔ HeaderLine line s count ∧ s.grades = [] := by
  obtain ⟨firstName, lastName, id, semester, grades⟩ := s
  unfold readHeader HeaderLine
  split
  · next first last sid sem gc hsplit =>
    rw [hsplit]
    simp only [orFail_bind_ok, pure, Except.pure]
    constructor
    · rintro ⟨id, hid, semester, hsem, grc, hgrc, heq⟩
      cases heq
      exact ⟨⟨sid, sem, gc, rfl, hid, hsem, hgrc⟩, rfl⟩
    · rintro ⟨⟨sid', sem', gc', heq, hid, hsem, hgrc⟩, rfl⟩
      cases heq
      exact ⟨id, hid, semester, hsem, count, hgrc, rfl⟩
  · next hsplit =>
    refine iff_of_false (by rintro ⟨⟩) ?_
    rintro ⟨⟨sid, sem, gc, heq, -⟩, -⟩
    exact hsplit _ _ sid sem gc heq

/-- A line that describes no student raises `Failure`. -/
theorem failure_of_readHeader
    (h : (readHeader line : Except Exn (Student φ × Int63)) = .error e) :
    ∃ msg, e = .failure msg := by
  unfold readHeader at h
  split at h
  · exact orFail_bind_error (fun _ => orFail_bind_error fun _ => orFail_bind_error fun _ h => by
      cases h) h
  · cases h
    exact ⟨_, rfl⟩

theorem HeaderLine.count_eq (h : HeaderLine line s count) (h' : HeaderLine line s' count') :
    count = count' := by
  obtain ⟨sid, sem, gc, hsplit, -, -, hgc⟩ := h
  obtain ⟨sid', sem', gc', hsplit', -, -, hgc'⟩ := h'
  rw [hsplit] at hsplit'
  obtain rfl : gc = gc' := by simpa using congrArg List.getLast? hsplit'
  exact Option.some.inj (hgc.symm.trans hgc')

/-! ## Grades -/

/-- As many lines of grades as the countdown takes. -/
theorem readGrades_append (leftFirst : Bool)
    (hgrades : List.Forall₂ (GradeLine floatOfString) gls gs)
    (hcount : gls.length = countdown count) (grades : List (Int63 × φ)) (rest : List (List Char)) :
    readGrades floatOfString leftFirst (gls ++ rest) count grades =
      .ok (gs.reverse ++ grades, rest) := by
  induction hgrades generalizing count grades with
  | nil =>
    have h0 : count = 0 := countdown_eq_zero.1 hcount.symm
    cases rest <;> simp [readGrades, h0]
  | @cons line g gls gs hline hgrades ih =>
    have hne : count ≠ 0 := by
      rintro rfl
      cases hcount
    have hpred := countdown_sub_one hne
    rw [List.length_cons] at hcount
    rw [List.cons_append, readGrades, if_neg hne, readGrade_eq_ok.2 hline]
    simp only [ih (show gls.length = countdown (count - 1) by omega), List.reverse_cons,
      List.append_assoc, List.singleton_append]

/-- Fewer lines of grades than the countdown takes. -/
theorem readGrades_endOfFile (leftFirst : Bool)
    (hgrades : List.Forall₂ (GradeLine floatOfString) gls gs)
    (hshort : gls.length < countdown count) (grades : List (Int63 × φ)) :
    readGrades floatOfString leftFirst gls count grades = .error .endOfFile := by
  induction hgrades generalizing count grades with
  | nil =>
    have hne : count ≠ 0 := by
      rintro rfl
      exact absurd hshort (Nat.not_lt_zero _)
    rw [readGrades, if_neg hne]
  | @cons line g gls gs hline hgrades ih =>
    have hne : count ≠ 0 := by
      rintro rfl
      exact absurd hshort (Nat.not_lt_zero _)
    have hpred := countdown_sub_one hne
    rw [List.length_cons] at hshort
    rw [readGrades, if_neg hne, readGrade_eq_ok.2 hline]
    exact ih (by omega) _

/-- The lines begin with all grades that are asked for, they are too few, or the reading fails. -/
theorem readGrades_cases (floatOfString : List Char → Option φ) (leftFirst : Bool)
    (lines : List (List Char)) (count : Int63) (grades : List (Int63 × φ)) :
    (∃ gls gs rest, lines = gls ++ rest ∧ List.Forall₂ (GradeLine floatOfString) gls gs ∧
      gls.length = countdown count) ∨
    (∃ gs, List.Forall₂ (GradeLine floatOfString) lines gs ∧ lines.length < countdown count) ∨
      ∃ msg, readGrades floatOfString leftFirst lines count grades = .error (.failure msg) := by
  induction lines generalizing count grades with
  | nil =>
    by_cases h0 : count = 0
    · exact .inl ⟨[], [], [], rfl, .nil, (countdown_eq_zero.2 h0).symm⟩
    · have hne := mt countdown_eq_zero.1 h0
      exact .inr (.inl ⟨[], .nil, by rw [List.length_nil]; omega⟩)
  | cons line lines ih =>
    by_cases h0 : count = 0
    · exact .inl ⟨[], [], line :: lines, rfl, .nil, (countdown_eq_zero.2 h0).symm⟩
    have hpred := countdown_sub_one h0
    rw [readGrades, if_neg h0]
    cases hline : readGrade floatOfString leftFirst line with
    | error e =>
      obtain ⟨msg, rfl⟩ := failure_of_readGrade hline
      exact .inr (.inr ⟨msg, rfl⟩)
    | ok g =>
      have hline' := readGrade_eq_ok.1 hline
      rcases ih (count - 1) (g :: grades) with ⟨gls, gs, rest, rfl, hgrades, hcount⟩ |
        ⟨gs, hgrades, hshort⟩ | hfail
      · refine .inl ⟨line :: gls, g :: gs, rest, rfl, .cons hline' hgrades, ?_⟩
        rw [List.length_cons, hcount, hpred]
      · refine .inr (.inl ⟨g :: gs, .cons hline' hgrades, ?_⟩)
        rw [List.length_cons]
        omega
      · exact .inr (.inr hfail)

/-! ## Students -/

theorem readStudents_nil : readStudents floatOfString leftFirst db [] = .ok db := by
  rw [readStudents, tryRead]

theorem tryRead_ne_endOfFile (db : List (Student φ)) (x : Except Exn (List (Student φ))) :
    tryRead db x ≠ .error .endOfFile := by
  unfold tryRead
  split
  · rintro ⟨⟩
  · next hx =>
    exact fun h => hx h

/-- The reading of students does not end with the end of the file. -/
theorem readStudents_ne_endOfFile :
    readStudents floatOfString leftFirst db lines ≠ .error .endOfFile := by
  cases lines <;> rw [readStudents] <;> exact tryRead_ne_endOfFile _ _

theorem readHeader_of_line (hheader : HeaderLine line s count) :
    readHeader line = .ok (({ s with grades := [] } : Student φ), count) :=
  readHeader_eq_ok.2 ⟨hheader, rfl⟩

/-- Behind the first line of a student, the reading goes on with the grades. -/
theorem readStudents_line (hheader : HeaderLine line s count) (db : List (Student φ)) :
    readStudents floatOfString leftFirst db (line :: lines) =
      tryRead db ((readGrades floatOfString leftFirst lines count []).bind fun x =>
        readStudents floatOfString leftFirst (({ s with grades := x.1 } : Student φ) :: db) x.2) := by
  rw [readStudents, readHeader_of_line hheader]
  simp only
  split <;> next hread => rw [hread]; rfl

/-- A complete record is read. -/
theorem readStudents_record (hheader : HeaderLine line s count)
    (hgrades : List.Forall₂ (GradeLine floatOfString) gls gs)
    (hcount : gls.length = countdown count) (db : List (Student φ)) (rest : List (List Char)) :
    readStudents floatOfString leftFirst db (line :: (gls ++ rest)) =
      tryRead db (readStudents floatOfString leftFirst
        (({ s with grades := gs.reverse } : Student φ) :: db) rest) := by
  rw [readStudents_line hheader, readGrades_append leftFirst hgrades hcount [] rest,
    List.append_nil]
  rfl

/-- A record that is cut off is dropped. -/
theorem readStudents_cutOff (hheader : HeaderLine line s count)
    (hgrades : List.Forall₂ (GradeLine floatOfString) gls gs)
    (hshort : gls.length < countdown count) (db : List (Student φ)) :
    readStudents floatOfString leftFirst db (line :: gls) = .ok db := by
  rw [readStudents_line hheader, readGrades_endOfFile leftFirst hgrades hshort []]
  rfl

/-- A complete file is read. -/
theorem readStudents_file (hfile : File floatOfString lines students) (db : List (Student φ)) :
    readStudents floatOfString leftFirst db lines =
      .ok ((students.map Student.reversed).reverse ++ db) := by
  induction hfile generalizing db with
  | nil => exact readStudents_nil
  | @cons line gls lines s students count hheader hgrades hcount hrest ih =>
    have hnonneg : 0 ≤ count.val := by omega
    have hdown := countdown_of_nonneg hnonneg
    rw [readStudents_record hheader hgrades (by omega), ih]
    simp [tryRead, Student.reversed]

/-- A record that the file ends in is left out without an exception. -/
theorem exists_of_defective (h : Defective floatOfString lines) (db : List (Student φ)) :
    ∃ db', readStudents floatOfString leftFirst db lines = .ok db' := by
  induction h generalizing db with
  | cutOff hheader hgrades hshort => exact ⟨db, readStudents_cutOff hheader hgrades hshort db⟩
  | negative hheader hgrades hcount hneg hrest =>
    rw [readStudents_record hheader hgrades hcount, readStudents_file hrest]
    exact ⟨_, rfl⟩
  | @later line gls lines s count grades hheader hgrades hcount hrest ih =>
    obtain ⟨db', hdb'⟩ := ih (({ s with grades := grades.reverse } : Student φ) :: db)
    rw [readStudents_record hheader hgrades hcount, hdb']
    exact ⟨_, rfl⟩

/-- The files that are read are the complete ones and the defective ones. -/
theorem file_or_defective {db' : List (Student φ)}
    (h : readStudents floatOfString leftFirst db lines = .ok db') :
    (∃ students, File floatOfString lines students) ∨ Defective floatOfString lines := by
  induction hlen : lines.length using Nat.strongRecOn generalizing lines db db' with
  | ind n ih =>
    subst hlen
    cases lines with
    | nil => exact .inl ⟨[], .nil⟩
    | cons line lines =>
      cases hline : (readHeader line : Except Exn (Student φ × Int63)) with
      | error e =>
        obtain ⟨msg, rfl⟩ := failure_of_readHeader hline
        rw [readStudents, hline] at h
        cases h
      | ok x =>
        obtain ⟨s, count⟩ := x
        obtain ⟨hheader, -⟩ := readHeader_eq_ok.1 hline
        rcases readGrades_cases floatOfString leftFirst lines count [] with
          ⟨gls, gs, rest, rfl, hgrades, hcount⟩ | ⟨gs, hgrades, hshort⟩ | ⟨msg, hfail⟩
        · rw [readStudents_record hheader hgrades hcount] at h
          cases hrest : readStudents floatOfString leftFirst
              (({ s with grades := gs.reverse } : Student φ) :: db) rest with
          | error e =>
            rw [hrest] at h
            cases e with
            | endOfFile => exact absurd hrest readStudents_ne_endOfFile
            | _ => cases h
          | ok db'' =>
            have hlt : rest.length < (line :: (gls ++ rest)).length := by
              rw [List.length_cons, List.length_append]
              omega
            rcases ih rest.length hlt hrest rfl with ⟨students, hfile⟩ | hdefective
            · by_cases hneg : count.val < 0
              · exact .inr (.negative hheader hgrades hcount hneg hfile)
              · rw [countdown_of_nonneg (not_lt.1 hneg)] at hcount
                exact .inl ⟨({ s with grades := gs } : Student φ) :: students,
                  .cons hheader hgrades (by omega) hfile⟩
            · exact .inr (.later hheader hgrades hcount hdefective)
        · exact .inr (.cutOff hheader hgrades hshort)
        · rw [readStudents_line hheader, hfail] at h
          cases h

/-- A file begins with a record, and the rest is one. -/
theorem File.exists_record (h : File floatOfString (line :: lines) students) :
    ∃ s count gls rest students', HeaderLine line (φ := φ) s count ∧ lines = gls ++ rest ∧
      count.val = gls.length ∧ File floatOfString rest students' := by
  cases h with
  | cons hheader hgrades hcount hrest => exact ⟨_, _, _, _, _, hheader, rfl, hcount, hrest⟩

/-- A file that ends in a record is no list of students. -/
theorem not_file_of_defective (h : Defective floatOfString lines) :
    ¬ File floatOfString lines students := by
  induction h generalizing students with
  | cutOff hheader hgrades hshort =>
    intro hfile
    obtain ⟨s', count', gls', rest, students', hheader', rfl, hcount', -⟩ := hfile.exists_record
    obtain rfl := hheader.count_eq hheader'
    rw [countdown_of_nonneg (by omega), List.length_append] at hshort
    omega
  | negative hheader hgrades hcount hneg hrest =>
    intro hfile
    obtain ⟨s', count', gls', rest, students', hheader', -, hcount', -⟩ := hfile.exists_record
    obtain rfl := hheader.count_eq hheader'
    omega
  | later hheader hgrades hcount hrest ih =>
    intro hfile
    obtain ⟨s', count', gls', rest, students', hheader', hlines, hcount', hrest'⟩ :=
      hfile.exists_record
    obtain rfl := hheader.count_eq hheader'
    rw [countdown_of_nonneg (by omega)] at hcount
    obtain ⟨-, rfl⟩ := List.append_inj hlines (by omega)
    exact ih hrest'

/-- The files that `load_db` takes for complete ones are the defective ones. -/
theorem loadsFaithfully_iff (floatOfString : List Char → Option φ) (leftFirst : Bool)
    (lines : List (List Char)) :
    LoadsFaithfully floatOfString leftFirst lines ↔ ¬ Defective floatOfString lines := by
  constructor
  · rintro ⟨hiff, -⟩ hdefective
    obtain ⟨students, hfile⟩ := hiff.1 (exists_of_defective hdefective [])
    exact not_file_of_defective hdefective hfile
  · intro hdefective
    have hread : ∀ students, File floatOfString lines students →
        loadDb floatOfString leftFirst lines = .ok (students.map Student.reversed).reverse := by
      intro students hfile
      rw [loadDb, readStudents_file hfile, List.append_nil]
    refine ⟨⟨?_, ?_⟩, hread⟩
    · rintro ⟨db, h⟩
      exact (file_or_defective h).resolve_right hdefective
    · rintro ⟨students, hfile⟩
      exact ⟨_, hread students hfile⟩

theorem headerLine_cutOff :
    HeaderLine "a;b;1;1;1".toList (⟨['a'], ['b'], 1, 1, []⟩ : Student Unit) 1 :=
  ⟨['1'], ['1'], ['1'], by decide, by decide, by decide, by decide⟩

/-- The file ends behind the first line of a student with one grade. -/
theorem not_loadsFaithfully_cutOff :
    loadDb (fun _ => some ()) false ["a;b;1;1;1".toList] = .ok [] ∧
      ¬ ∀ (floatOfString : List Char → Option Unit) (lines : List (List Char)),
        LoadsFaithfully floatOfString false lines := by
  have hshort : ([] : List (List Char)).length < countdown 1 := by decide
  have hread : loadDb (fun _ => some ()) false ["a;b;1;1;1".toList] = .ok [] :=
    readStudents_cutOff headerLine_cutOff .nil hshort []
  refine ⟨hread, fun h => ?_⟩
  obtain ⟨students, hfile⟩ := (h (fun _ => some ()) ["a;b;1;1;1".toList]).1.1 ⟨_, hread⟩
  exact not_file_of_defective (.cutOff headerLine_cutOff .nil hshort) hfile

end Sem3.StudentDb
