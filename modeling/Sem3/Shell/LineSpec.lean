import Sem3.Shell.Spec
import Sem3.Util.Lexer
import Mathlib.Algebra.Order.Ring.Nat

/-!
# What a line is made of

A line is a sequence of atoms: characters, escaped characters and variables, and the places where one
of these is begun but not there. The atoms say which lines are malformed, and are cut into the words
that `parse` stores.
-/

namespace Sem3.Shell

/-! ## Atoms -/

/-- A part of a line, or the place of an error. -/
inductive Atom where
  | char (ch : Char)
  | escaped (ch : Char)
  | var (name : List Char)
  /-- A `$` before a character that is not in a name. -/
  | bad
  /-- A backslash that ends the line. -/
  | backslash
  /-- A `$` that ends the line. -/
  | dollar
deriving DecidableEq, Repr

/-- Where a text starts: anywhere else, behind a backslash, or behind a `$` and a part of a name. -/
inductive Behind where
  | plain
  | backslash
  | name (n : List Char)
deriving DecidableEq, Repr

/-- The atoms of a text, by the place that it starts in. -/
def atoms : List Char → Behind → List Atom
  | [], .plain => []
  | [], .backslash => [.backslash]
  | [], .name n => if n = [] then [.dollar] else [.var n]
  | ch :: s, place =>
    let here :=
      if ch = '\\' then atoms s .backslash
      else if ch = '$' then atoms s (.name [])
      else .char ch :: atoms s .plain
    match place with
    | .plain => here
    | .backslash => .escaped ch :: atoms s .plain
    | .name n =>
      if isNameChar ch then atoms s (.name (n ++ [ch]))
      else (if n = [] then .bad else .var n) :: here

/-- The atoms of a line. -/
def lineAtoms (line : List Char) : List Atom := atoms line .plain

/-! ## Malformed lines -/

/-- The character that closes the quoted section in which a text ends, from the one that closes the
section in which it starts. -/
def openQuote : Option Char → List Atom → Option Char
  | quote, [] => quote
  | none, .char ch :: as => openQuote (if IsQuote ch then some ch else none) as
  | some q, .char ch :: as => openQuote (if ch = q then none else some q) as
  | quote, _ :: as => openQuote quote as

/-- The line ends inside of a quoted section, behind a backslash or behind a `$`. -/
def Malformed (line : List Char) : Prop :=
  openQuote none (lineAtoms line) ≠ none ∨ .backslash ∈ lineAtoms line ∨ .dollar ∈ lineAtoms line

instance (line : List Char) : Decidable (Malformed line) := inferInstanceAs (Decidable (_ ∨ _ ∨ _))

/-- `parse` exits if the line is malformed. -/
def Reports (env : List (List Char)) (line : List Char) (l : List (List Char)) : Prop :=
  Malformed line → parseText env line l = some .exited

/-! ## Words -/

/-- Where an atom stands: between two words; inside of a word, with the character that closes the
section, if there is one; in the same place directly behind an escaped character or a variable; or
behind an error. -/
inductive Spot where
  | white
  | inside (quote : Option Char)
  | afterEscape (quote : Option Char)
  | afterVar (quote : Option Char)
  | broken
deriving DecidableEq, Repr

/-- The character that closes the section. -/
def Spot.quote : Spot → Option Char
  | .inside quote | .afterEscape quote | .afterVar quote => quote
  | _ => none

/-- A quote opens a section at the beginning of a word and behind an escaped character. -/
def Spot.opens : Spot → Bool
  | .white | .afterEscape _ => true
  | _ => false

/-- Behind a character that opens no section. -/
def Spot.within (ch : Char) : Option Char → Spot
  | none => if ch = ' ' then .white else .inside none
  | some q => .inside (if ch = q then none else some q)

/-- The place behind the atom. -/
def Spot.next : Spot → Atom → Spot
  | .broken, _ => .broken
  | m, .char ch => if m.opens ∧ IsQuote ch then .inside (some ch) else Spot.within ch m.quote
  | m, .escaped _ => .afterEscape m.quote
  | m, .var _ => .afterVar m.quote
  | _, _ => .broken

/-- The atom is a part of the word. -/
def Spot.keeps : Spot → Atom → Bool
  | .broken, _ => false
  | m, .char ch =>
    match m.quote with
    | none => ¬ IsQuote ch ∧ ch ≠ ' '
    | some q => ¬ (m.opens ∧ IsQuote ch) ∧ ch ≠ q
  | _, .escaped _ => true
  | _, .var _ => true
  | _, _ => false

/-- A space ends a word outside of quoted sections. -/
def Spot.ends (m : Spot) (a : Atom) : Bool :=
  m ≠ .white ∧ m ≠ .broken ∧ m.quote = none ∧ a = .char ' '

/-- The words that `parse` stores. At the end of the line it appends the last one unless it is in a
section that is still open; but it is enough that an escaped character or a variable ends the line. -/
def cutter : Lexer Spot Atom where
  next := Spot.next
  put m w a := (if m = .white then [] else w) ++ if m.keeps a then [a] else []
  emits := Spot.ends
  final m :=
    match m with
    | .inside quote => quote = none
    | .afterEscape _ | .afterVar _ => true
    | _ => false

/-- The atoms of a line for the machine, which takes a tabulator for a space at the beginning. -/
def cutAtoms (line : List Char) : List Atom :=
  if peek line = '\t' then .char ' ' :: lineAtoms line.tail else lineAtoms line

/-- The words that are appended to the list. -/
def appended (line : List Char) : List (List Atom) := cutter.words (cutAtoms line) .white []

/-- The words that are begun: the appended ones, and the last one in any case. -/
def begun (line : List Char) : List (List Atom) :=
  (cutter.withFinal (· ≠ .white)).words (cutAtoms line) .white []

/-! ## The room for a word -/

/-- The number of characters that an atom is replaced by. -/
def Atom.bytes (env : List (List Char)) : Atom → ℕ
  | .var name => (valuesOf env name).flatten.length
  | _ => 1

/-- The number of characters that the atoms are replaced by. -/
def bytes (env : List (List Char)) (w : List Atom) : ℕ := (w.map (Atom.bytes env)).sum

/-- No word is longer than the first buffer of an argument, with the terminator if it is appended. -/
def WordsFit (env : List (List Char)) (line : List Char) : Prop :=
  (∀ w ∈ appended line, bytes env w + 1 ≤ maxArgSz) ∧ ∀ w ∈ begun line, bytes env w ≤ maxArgSz

instance (env : List (List Char)) (line : List Char) : Decidable (WordsFit env line) :=
  inferInstanceAs (Decidable (_ ∧ _))

/-- No store of `parse` lies outside of the buffer, whatever lies before the entries in memory. -/
def InBounds (env : List (List Char)) (line : List Char) : Prop :=
  ∀ before l, parse before env line l ≠ none

/-- The buffer at the beginning of a word, behind which comes `j` and the buffer behind an atom: a
new argument has a new buffer, but keeps `cap`. `none` if the atom does not fit. -/
def store (before : ℕ → ℕ → ℕ) (env : List (List Char)) (m : Spot) (a : Atom) (j : ℕ) (b : Buffer) :
    Option (ℕ × Buffer) :=
  let j₀ := if m = .white then 0 else j
  let b₀ := if m = .white then { b with size := maxArgSz } else b
  if m.keeps a then
    match a with
    | .var name =>
      (copyValues before name.length 0 j₀ (env.map (entryValue name)) b₀).map
        (j₀ + a.bytes env, ·)
    | _ => if j₀ + 1 ≤ b₀.size then some (j₀ + 1, b₀) else none
  else some (j₀, b₀)

/-- The atoms of a line fit in the buffers, one after the other: the terminators of the words as well
as what the words are made of. -/
def Room (before : ℕ → ℕ → ℕ) (env : List (List Char)) : List Atom → Spot → ℕ → Buffer → Prop
  | [], m, j, b => cutter.final m → j + 1 ≤ b.size
  | a :: as, m, j, b =>
    (m.ends a → j + 1 ≤ b.size) ∧
      ∃ j' b', store before env m a j b = some (j', b') ∧ Room before env as (m.next a) j' b'

end Sem3.Shell
