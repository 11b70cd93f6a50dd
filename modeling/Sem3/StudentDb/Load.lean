import Sem3.Util.IntOfString
import Sem3.Util.Ocaml

/-!
# Loading a student database (`funk_tü/9/sol.ml`)

A file is read as a list of lines. A student is a line of five fields, of which the last one is the
number of lines with grades that follow. `floatOfString` is `float_of_string`, for any type of floats,
and `leftFirst` says which part of a pair is evaluated first.
-/

namespace Sem3.StudentDb

open Ocaml (Exn intOfString)

variable {φ : Type}

/-- The data of a student, with the grades. -/
structure Student (φ : Type) where
  firstName : List Char
  lastName : List Char
  id : Int63
  semester : Int63
  grades : List (Int63 × φ)

/-- A conversion that fails raises `Failure s`. -/
def orFail {β : Type} (s : String) : Option β → Except Exn β
  | some b => .ok b
  | none => .error (.failure s)

variable (floatOfString : List Char → Option φ) (leftFirst : Bool)

/-- `g` of `read_grades`, when the line is read. -/
def readGrade (line : List Char) : Except Exn (Int63 × φ) :=
  match line.splitOn ';' with
  | [c, g] =>
    if leftFirst then do
      let c ← orFail "int_of_string" (intOfString c)
      let g ← orFail "float_of_string" (floatOfString g)
      pure (c, g)
    else do
      let g ← orFail "float_of_string" (floatOfString g)
      let c ← orFail "int_of_string" (intOfString c)
      pure (c, g)
  | _ => .error (.failure "Incorrect line format")

/-- `read_grades`, with the lines that are left before and after. -/
def readGrades : List (List Char) → Int63 → List (Int63 × φ) →
    Except Exn (List (Int63 × φ) × List (List Char))
  | [], count, grades => if count = 0 then .ok (grades, []) else .error .endOfFile
  | line :: lines, count, grades =>
    if count = 0 then .ok (grades, line :: lines)
    else
      match readGrade floatOfString leftFirst line with
      | .ok g => readGrades lines (count - 1) (g :: grades)
      | .error e => .error e

theorem length_le_of_readGrades {lines rest : List (List Char)} {count : Int63}
    {grades grades' : List (Int63 × φ)}
    (h : readGrades floatOfString leftFirst lines count grades = .ok (grades', rest)) :
    rest.length ≤ lines.length := by
  induction lines generalizing count grades with
  | nil =>
    rw [readGrades] at h
    split_ifs at h
    cases h
    exact le_rfl
  | cons line lines ih =>
    rw [readGrades] at h
    split_ifs at h
    · cases h
      exact le_rfl
    · split at h
      · exact (ih h).trans (Nat.le_succ _)
      · cases h

/-- The student of a line, without grades, and the number of the grades. -/
def readHeader (line : List Char) : Except Exn (Student φ × Int63) :=
  match line.splitOn ';' with
  | [firstName, lastName, sid, sem, gc] => do
    let id ← orFail "int_of_string" (intOfString sid)
    let semester ← orFail "int_of_string" (intOfString sem)
    let grc ← orFail "int_of_string" (intOfString gc)
    pure (⟨firstName, lastName, id, semester, []⟩, grc)
  | _ => .error (.failure "Incorrect line format")

/-- `try x with End_of_file -> db`. -/
def tryRead (db : List (Student φ)) :
    Except Exn (List (Student φ)) → Except Exn (List (Student φ))
  | .error .endOfFile => .ok db
  | x => x

/-- The recursion of `load_db` over the students, with those read so far, the last one first. -/
def readStudents : List (Student φ) → List (List Char) → Except Exn (List (Student φ))
  | db, [] => tryRead db (.error .endOfFile)
  | db, line :: lines =>
    tryRead db <|
      match (readHeader line : Except Exn (Student φ × Int63)) with
      | .error e => .error e
      | .ok (s, grc) =>
        match _h : readGrades floatOfString leftFirst lines grc [] with
        | .error e => .error e
        | .ok (grades, rest) => readStudents ({ s with grades := grades } :: db) rest
termination_by _ lines => lines.length
decreasing_by
  have := length_le_of_readGrades floatOfString leftFirst _h
  rw [List.length_cons]
  omega

/-- `load_db` on the lines of the file. -/
def loadDb (lines : List (List Char)) : Except Exn (List (Student φ)) :=
  readStudents floatOfString leftFirst [] lines

end Sem3.StudentDb
