import Sem3.Shell.Parser

/-!
# The reads of the parser (`parser.c`)

The machine of `parse` on the bytes that `in` points to, up to and with the terminator. Every read of
`in[k]` looks at the `k`-th of these bytes: the head of the loop and the branches read `in[i]`,
`LITERAL`, `VAR` and `ESCAPED` read it once more after they have advanced, the quoted states look
ahead to `in[i+1]`, and `VAR` scans a name from `in[i]` on. `none` is a read behind the terminator.
-/

namespace Sem3.Shell

open Loop

variable {α : Type}

/-- The bytes of a string, the terminator included. -/
def terminated (line : List Char) : List Char := line ++ [nul]

/-- The variables of `parse` at the head of a pass: `arg` stands for the first `j` elements of the
argument, and `out` for the list `l`. -/
structure Cursor (α : Type) where
  state : Parsestate
  laststate : Parsestate
  arg : List α
  i : ℕ
  out : List (List α)

/-- The variables of `parse` before the loop. -/
def Cursor.init (l : List (List α)) : Cursor α :=
  { state := .start, laststate := .start, arg := [], i := 0, out := l }

/-- `arg[j]='\0'; list_append(l, arg);` -/
def Cursor.append (c : Cursor α) : Cursor α := { c with out := c.out ++ [c.arg] }

/-! ## One pass, by state -/

/-- A pass in the state `START`. `lit` stands for what is stored for a character. -/
def scanStart (c : Cursor α) (ch : Char) : Cursor α :=
  let c' : Cursor α :=
    if ch = '\'' then { c with state := .squoted, i := c.i + 1 }
    else if ch = '"' then { c with state := .dquoted, i := c.i + 1 }
    else if ch = '\\' then { c with laststate := .literal, state := .escaped, i := c.i + 1 }
    else if ch = '$' then { c with laststate := .literal, state := .var, i := c.i + 1 }
    else if ch = ' ' ∨ ch = '\t' then { c with state := .white, i := c.i + 1 }
    else { c with state := .literal }
  { c' with arg := [] }

/-- A pass in the state `LITERAL`, which reads the next character, too. -/
def scanLiteral (lit : Char → α) (mem : List Char) (c : Cursor α) (ch : Char) :
    Option (Cursor α) :=
  let c₁ : Cursor α :=
    if ch = '"' ∨ ch = '\'' then c
    else if ch = '\\' then { c with state := .escaped, laststate := .literal }
    else if ch = '$' then { c with state := .var, laststate := .literal }
    else if ch = ' ' then { c.append with state := .white }
    else { c with arg := c.arg ++ [lit ch] }
  let c₂ : Cursor α := { c₁ with i := c.i + 1 }
  if c₂.state = .literal then do
    let d ← mem[c₂.i]?
    some (if d = nul then { c₂.append with state := .end_ } else c₂)
  else some c₂

/-- `SQUOTED` and `DQUOTED`, which differ in the character that closes the section. -/
def scanQuoted (quote : Char) (lit : Char → α) (mem : List Char) (c : Cursor α) (ch : Char) :
    Option (Cursor α) :=
  if ch = quote then do
    let d ← mem[c.i + 1]?
    let c' : Cursor α :=
      if d = nul then { c.append with state := .end_ }
      else if d = ' ' then { c.append with state := .white }
      else { c with state := .literal }
    some { c' with i := c.i + 1 }
  else if ch = '\\' then some { c with laststate := c.state, state := .escaped, i := c.i + 1 }
  else if ch = '$' then some { c with laststate := c.state, state := .var, i := c.i + 1 }
  else some { c with arg := c.arg ++ [lit ch], i := c.i + 1 }

/-- The scan for `nd`: it reads up to the first character that is not in a name. `strncmp` reads the
`nd` characters before that one again. -/
def scanName : List Char → Option (List Char)
  | [] => none
  | ch :: s => if isNameChar ch then (scanName s).map (ch :: ·) else some []

/-- A pass in the state `VAR`: the name is scanned, and the loop is left if there is none. -/
def scanVar (values : List Char → List (List α)) (mem : List Char) (c : Cursor α) :
    Option (Pass (Cursor α) (Outcome α)) := do
  let name ← scanName (mem.drop c.i)
  if name.length = 0 then some (.leave .exited)
  else
    let c₁ : Cursor α := { c with arg := c.arg ++ (values name).flatten, i := c.i + name.length }
    let d ← mem[c₁.i]?
    let c₂ := if d = nul then c₁.append else c₁
    some (.again { c₂ with state := c.laststate })

/-- A pass in the state `ESCAPED`, which skips a quote behind the character. -/
def scanEscaped (lit : Char → α) (mem : List Char) (c : Cursor α) (ch : Char) :
    Option (Cursor α) := do
  let c₁ : Cursor α := { c with arg := c.arg ++ [lit ch], i := c.i + 1 }
  let d ← mem[c₁.i]?
  let c₂ := if d = nul then c₁.append else c₁
  some (if d = '"' then { c₂ with i := c₂.i + 1, state := .dquoted }
    else if d = '\'' then { c₂ with i := c₂.i + 1, state := .squoted }
    else { c₂ with state := c.laststate })

/-- A pass in the state `WHITE`. -/
def scanWhite (c : Cursor α) (ch : Char) : Cursor α :=
  if ch = ' ' then { c with i := c.i + 1 }
  else if ch = '"' then { c with arg := [], state := .dquoted, i := c.i + 1 }
  else if ch = '\'' then { c with arg := [], state := .squoted, i := c.i + 1 }
  else if ch = '\\' then { c with arg := [], laststate := .literal, state := .escaped, i := c.i + 1 }
  else { c with arg := [], state := .literal }

/-- One pass of the loop of `parse`. -/
def scan (lit : Char → α) (values : List Char → List (List α)) (mem : List Char) (c : Cursor α) :
    Option (Pass (Cursor α) (Outcome α)) := do
  let ch ← mem[c.i]?
  if ch = nul then some (.leave (.returned c.out))
  else
    match c.state with
    | .start => some (.again (scanStart c ch))
    | .end_ => some (.again c)
    | .literal => (scanLiteral lit mem c ch).map .again
    | .squoted => (scanQuoted '\'' lit mem c ch).map .again
    | .dquoted => (scanQuoted '"' lit mem c ch).map .again
    | .var => scanVar values mem c
    | .escaped => (scanEscaped lit mem c ch).map .again
    | .white => some (.again (scanWhite c ch))

/-- The loop leaves with `none` at a read behind the terminator. -/
def scanStep (lit : Char → α) (values : List Char → List (List α)) (mem : List Char)
    (c : Cursor α) : Pass (Cursor α) (Option (Outcome α)) :=
  match scan lit values mem c with
  | none => .leave none
  | some (.again c') => .again c'
  | some (.leave o) => .leave (some o)

/-- `parse` on the bytes of a line, with arguments of unlimited size: `none` if the loop does not end
within the passes that a line of this length can take, `some none` for a read behind the
terminator. -/
def parseBytes (env : List (List Char)) (line : List Char) (l : List (List Char)) :
    Option (Option (Outcome Char)) :=
  iterate (scanStep id (envValues env) (terminated line)) (passes line) (.init l)

end Sem3.Shell
