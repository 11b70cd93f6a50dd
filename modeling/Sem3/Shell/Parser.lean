import Sem3.Util.Loop
import Mathlib.Data.List.Basic

/-!
# The parser of the shell (`parser.c`)

`parse` reads a line with a state machine of eight states and appends the arguments it finds to a
list. `step` is one pass of its loop on the text: the state, the state to go back to, the argument
under construction and the characters that are left. It is generic in what an argument is made of:
`lit` is the element that a character of the line contributes, and `values` are the pieces that the
entries of the environment for a name contribute, in the order of the environment.

`parseText` runs the machine with arguments of unlimited size. `parse` also has the buffers of the
arguments, and gives `none` where a store lies outside of the buffer. `malloc` and `realloc` are
taken to succeed.
-/

namespace Sem3.Shell

open Loop

variable {α : Type*}

/-- `enum states`. -/
inductive Parsestate where
  | start
  | end_
  | literal
  | squoted
  | dquoted
  | var
  | escaped
  | white
deriving DecidableEq, Repr

/-- The terminator of a string. -/
def nul : Char := Char.ofNat 0

/-- The first of the characters that are left, `nul` behind the last one. -/
def peek (rest : List Char) : Char := rest.headD nul

/-- The variables of `parse` at the head of a pass: `rest` stands for `in` from `i` on, `arg` for the
first `j` elements of the argument, and `out` for the list `l`. -/
structure Config (α : Type*) where
  state : Parsestate
  laststate : Parsestate
  arg : List α
  rest : List Char
  out : List (List α)

/-- How `parse` ends: it returns, with the list it leaves behind, or calls `exit`. -/
inductive Outcome (α : Type*) where
  | returned (l : List (List α))
  | exited

/-- `arg[j]='\0'; list_append(l, arg);` -/
def Config.append (c : Config α) : Config α := { c with out := c.out ++ [c.arg] }

/-! ## One pass, by state -/

/-- A pass in the state `START`. -/
def stepStart (c : Config α) (ch : Char) (rest : List Char) : Config α :=
  let c' : Config α :=
    if ch = '\'' then { c with state := .squoted, rest }
    else if ch = '"' then { c with state := .dquoted, rest }
    else if ch = '\\' then { c with laststate := .literal, state := .escaped, rest }
    else if ch = '$' then { c with laststate := .literal, state := .var, rest }
    else if ch = ' ' ∨ ch = '\t' then { c with state := .white, rest }
    else { c with state := .literal }
  { c' with arg := [] }

/-- A pass in the state `LITERAL`. A quote is skipped, and does not open a section. -/
def stepLiteral (lit : Char → α) (c : Config α) (ch : Char) (rest : List Char) : Config α :=
  let c' : Config α :=
    if ch = '"' ∨ ch = '\'' then { c with rest }
    else if ch = '\\' then { c with state := .escaped, laststate := .literal, rest }
    else if ch = '$' then { c with state := .var, laststate := .literal, rest }
    else if ch = ' ' then { c.append with state := .white, rest }
    else { c with arg := c.arg ++ [lit ch], rest }
  if c'.state = .literal ∧ peek rest = nul then { c'.append with state := .end_ } else c'

/-- `SQUOTED` and `DQUOTED`, which differ in the character that closes the section. -/
def stepQuoted (quote : Char) (lit : Char → α) (c : Config α) (ch : Char) (rest : List Char) :
    Config α :=
  if ch = quote then
    if peek rest = nul then { c.append with state := .end_, rest }
    else if peek rest = ' ' then { c.append with state := .white, rest }
    else { c with state := .literal, rest }
  else if ch = '\\' then { c with laststate := c.state, state := .escaped, rest }
  else if ch = '$' then { c with laststate := c.state, state := .var, rest }
  else { c with arg := c.arg ++ [lit ch], rest }

/-- The characters of a name. -/
def isNameChar (ch : Char) : Bool :=
  ('A' ≤ ch && ch ≤ 'Z') || ('0' ≤ ch && ch ≤ '9') || ch = '_'

/-- A pass in the state `VAR`: the loop is left if no name follows. -/
def stepVar (values : List Char → List (List α)) (c : Config α) :
    Pass (Config α) (Outcome α) :=
  let name := c.rest.takeWhile isNameChar
  if name.length = 0 then .leave .exited
  else
    let rest := c.rest.drop name.length
    let c' : Config α := { c with arg := c.arg ++ (values name).flatten, rest }
    let c'' := if peek rest = nul then c'.append else c'
    .again { c'' with state := c.laststate }

/-- A pass in the state `ESCAPED`, which skips a quote behind the character. -/
def stepEscaped (lit : Char → α) (c : Config α) (ch : Char) (rest : List Char) : Config α :=
  let c' : Config α := { c with arg := c.arg ++ [lit ch], rest }
  let c'' := if peek rest = nul then c'.append else c'
  if peek rest = '"' then { c'' with rest := rest.tail, state := .dquoted }
  else if peek rest = '\'' then { c'' with rest := rest.tail, state := .squoted }
  else { c'' with state := c.laststate }

/-- A pass in the state `WHITE`. -/
def stepWhite (c : Config α) (ch : Char) (rest : List Char) : Config α :=
  if ch = ' ' then { c with rest }
  else if ch = '"' then { c with arg := [], state := .dquoted, rest }
  else if ch = '\'' then { c with arg := [], state := .squoted, rest }
  else if ch = '\\' then { c with arg := [], laststate := .literal, state := .escaped, rest }
  else { c with arg := [], state := .literal }

/-- One pass of the loop of `parse`. -/
def step (lit : Char → α) (values : List Char → List (List α)) (c : Config α) :
    Pass (Config α) (Outcome α) :=
  match c.rest with
  | [] => .leave (.returned c.out)
  | ch :: rest =>
    if ch = nul then .leave (.returned c.out)
    else
      match c.state with
      | .start => .again (stepStart c ch rest)
      | .end_ => .again c
      | .literal => .again (stepLiteral lit c ch rest)
      | .squoted => .again (stepQuoted '\'' lit c ch rest)
      | .dquoted => .again (stepQuoted '"' lit c ch rest)
      | .var => stepVar values c
      | .escaped => .again (stepEscaped lit c ch rest)
      | .white => .again (stepWhite c ch rest)

/-- The variables of `parse` before the loop. -/
def Config.init (line : List Char) (l : List (List α)) : Config α :=
  { state := .start, laststate := .start, arg := [], rest := line, out := l }

/-- A pass consumes a character, or leaves `START` or `WHITE`. -/
def passes (line : List Char) : ℕ := 2 * line.length + 2

/-! ## The environment -/

/-- The value of an entry of the environment if its name is `name`, as `strncmp(env[ei], in+i, nd)`
and `env[ei][nd]=='='` find it. -/
def entryValue (name entry : List Char) : Option (List Char) :=
  if entry.take name.length = name ∧ entry[name.length]? = some '=' then
    some (entry.drop (name.length + 1))
  else none

/-- The values of all entries for the name. -/
def envValues (env : List (List Char)) (name : List Char) : List (List Char) :=
  env.filterMap (entryValue name)

/-- `parse`, with arguments of unlimited size. -/
def parseText (env : List (List Char)) (line : List Char) (l : List (List Char)) :
    Option (Outcome Char) :=
  iterate (step id (envValues env)) (passes line) (.init line l)

/-! ## The buffer of an argument -/

/-- `MAX_ARG_SZ`: the size of the first buffer of an argument. -/
def maxArgSz : ℕ := 1024

/-- The number of bytes that `arg` points to, and the variable `cap`, which `WHITE` does not set. -/
structure Buffer where
  size : ℕ
  cap : ℕ
deriving DecidableEq, Repr

/-- The copies of `VAR` for the values in `vs`, which are the values of the entries from `ei` on: the
buffer behind them, `none` if one does not fit. `before ei nd` is `strlen(env[ei]-nd-1)`, which
depends on what lies before the entry in memory. -/
def copyValues (before : ℕ → ℕ → ℕ) (nd : ℕ) :
    ℕ → ℕ → List (Option (List Char)) → Buffer → Option Buffer
  | _, _, [], b => some b
  | ei, j, none :: vs, b => copyValues before nd (ei + 1) j vs b
  | ei, j, some v :: vs, b =>
    let b' : Buffer := if j + before ei nd > b.cap then ⟨2 * b.cap, 2 * b.cap⟩ else b
    if j + v.length ≤ b'.size then copyValues before nd (ei + 1) (j + v.length) vs b' else none

/-- The buffer that a pass stores its last characters to. -/
def allocate (before : ℕ → ℕ → ℕ) (env : List (List Char)) (c : Config Char) (b : Buffer) :
    Option Buffer :=
  match c.state with
  | .start => some ⟨maxArgSz, maxArgSz⟩
  | .white => if peek c.rest = ' ' then some b else some { b with size := maxArgSz }
  | .var =>
    let name := c.rest.takeWhile isNameChar
    copyValues before name.length 0 c.arg.length (env.map (entryValue name)) b
  | _ => some b

/-- The number of bytes of `arg` that are used by the stores of a pass from `c` to `c'`: those of the
new characters, and of the terminator if the argument is appended. -/
def stored (c c' : Config Char) : ℕ :=
  if c.out.length < c'.out.length then c'.arg.length + 1
  else if c.arg.length < c'.arg.length then c'.arg.length
  else 0

/-- One pass of the loop of `parse` with its buffer; `none` for a store outside of the buffer. -/
def bufferStep (before : ℕ → ℕ → ℕ) (env : List (List Char)) (s : Config Char × Buffer) :
    Pass (Config Char × Buffer) (Option (Outcome Char)) :=
  match step id (envValues env) s.1 with
  | .leave r => .leave (some r)
  | .again c' =>
    match allocate before env s.1 s.2 with
    | none => .leave none
    | some b => if stored s.1 c' ≤ b.size then .again (c', b) else .leave none

/-- `parse`, with the sizes of the buffer for the argument. `none` if a store lies outside of it. -/
def parse (before : ℕ → ℕ → ℕ) (env : List (List Char)) (line : List Char)
    (l : List (List Char)) : Option (Outcome Char) :=
  (iterate (bufferStep before env) (passes line) (.init line l, ⟨0, 0⟩)).join

end Sem3.Shell
