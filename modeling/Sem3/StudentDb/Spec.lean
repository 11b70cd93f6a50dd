import Sem3.StudentDb.Load

/-!
# Database files

What a complete file is, and which other files `load_db` takes for complete ones.
-/

namespace Sem3.StudentDb

open Ocaml (Exn intOfString)

variable {φ : Type} (floatOfString : List Char → Option φ) (leftFirst : Bool)

/-- A line of two fields, an integer and a float. -/
def GradeLine (line : List Char) (g : Int63 × φ) : Prop :=
  ∃ c x, line.splitOn ';' = [c, x] ∧ intOfString c = some g.1 ∧ floatOfString x = some g.2

/-- A line of five fields, of which the last three are integers. -/
def HeaderLine (line : List Char) (s : Student φ) (count : Int63) : Prop :=
  ∃ sid sem gc, line.splitOn ';' = [s.firstName, s.lastName, sid, sem, gc] ∧
    intOfString sid = some s.id ∧ intOfString sem = some s.semester ∧ intOfString gc = some count

/-- A sequence of students, each with exactly as many lines of grades as its first line says. -/
inductive File : List (List Char) → List (Student φ) → Prop
  | nil : File [] []
  | cons {line : List Char} {gls lines : List (List Char)} {s : Student φ}
    {students : List (Student φ)} {count : Int63} (hheader : HeaderLine line s count)
    (hgrades : List.Forall₂ (GradeLine floatOfString) gls s.grades)
    (hcount : count.val = gls.length) (hrest : File lines students) :
    File (line :: (gls ++ lines)) (s :: students)

/-- `load_db` collects the grades in front of each other. -/
def Student.reversed (s : Student φ) : Student φ := { s with grades := s.grades.reverse }

/-- `load_db` returns exactly for complete files, and then all students, the last one first. -/
def LoadsFaithfully (lines : List (List Char)) : Prop :=
  ((∃ db, loadDb floatOfString leftFirst lines = .ok db) ↔
    ∃ students, File floatOfString lines students) ∧
  ∀ students, File floatOfString lines students →
    loadDb floatOfString leftFirst lines = .ok (students.map Student.reversed).reverse

/-- How often one can be subtracted before a count becomes zero: for a negative count, until it has
wrapped around. -/
def countdown (count : Int63) : ℕ := (count.val % 2 ^ 63).toNat

/-- Behind complete records, the file ends in the middle of a record; or some record has a negative
count, with as many grades behind it as the countdown takes. -/
inductive Defective : List (List Char) → Prop
  | cutOff {line : List Char} {gls : List (List Char)} {s : Student φ} {count : Int63}
    {grades : List (Int63 × φ)} (hheader : HeaderLine line s count)
    (hgrades : List.Forall₂ (GradeLine floatOfString) gls grades)
    (hshort : gls.length < countdown count) : Defective (line :: gls)
  | negative {line : List Char} {gls lines : List (List Char)} {s : Student φ} {count : Int63}
    {grades : List (Int63 × φ)} {students : List (Student φ)} (hheader : HeaderLine line s count)
    (hgrades : List.Forall₂ (GradeLine floatOfString) gls grades)
    (hcount : gls.length = countdown count) (hneg : count.val < 0)
    (hrest : File floatOfString lines students) : Defective (line :: (gls ++ lines))
  | later {line : List Char} {gls lines : List (List Char)} {s : Student φ} {count : Int63}
    {grades : List (Int63 × φ)} (hheader : HeaderLine line s count)
    (hgrades : List.Forall₂ (GradeLine floatOfString) gls grades)
    (hcount : gls.length = countdown count) (hrest : Defective lines) :
    Defective (line :: (gls ++ lines))

end Sem3.StudentDb
