import Sem3.Util.Loop
import Mathlib.Data.List.Basic

/-!
# The parser of the first shell (`blatt06/parser.c`)

`parse` reads a line character by character and appends the parameters it finds to a list. A string
is kept as the characters before its terminator. `step` is one pass of the loop: the states, the
filled parts of the two buffers, and the characters from `c` on.

The buffers are taken to be large enough here: what lies behind their ends is another matter than
what is read. `malloc` and `realloc` are taken to succeed.
-/

namespace Sem3.Blatt06

open Loop

/-- `enum parserState`. -/
inductive ParserState where
  | dQuote
  | quote
  | dollar
  | none
deriving DecidableEq, Repr

/-- The variables of `parse` at the head of a pass: `buf` stands for its first `i` characters, `envBuf`
for its first `ei`, and `rest` for the text from `c` on. -/
structure Config where
  state : ParserState
  restore : ParserState
  backslash : Bool
  buf : List Char
  envBuf : List Char
  rest : List Char
  paramList : List (List Char)

/-- How `parse` ends: it returns, with what it returns and the list it leaves behind, or calls
`exit`. -/
inductive Outcome where
  | returned (more : Bool) (paramList : List (List Char))
  | exited
deriving DecidableEq, Repr

/-- The word that ends the shell. -/
def exitCmd : List Char := ['e', 'x', 'i', 't']

/-- `isupper(cur) || isdigit(cur) || cur == '_'`. -/
def isNameChar (cur : Char) : Bool := cur.isUpper || cur.isDigit || cur = '_'

/-- `getenv(name)`, `none` for `NULL`. -/
def getenv (env : List (List Char)) (name : List Char) : Option (List Char) :=
  if name = [] then none else env.findSome? fun entry => (name ++ ['=']).isPrefixOf? entry

/-! ## One pass, by state -/

/-- `dQuote` and `quote`, which differ in the character that closes the section. -/
def stepQuote (close : Char) (c : Config) (cur : Char) (rest : List Char) : Config :=
  if cur = close then { c with state := .none, rest }
  else if cur = '$' then { c with restore := c.state, state := .dollar, rest }
  else { c with buf := c.buf ++ [cur], rest }

/-- A character that does not belong to the name is read again in the state before the variable. -/
def stepDollar (env : List (List Char)) (c : Config) (cur : Char) (rest : List Char) :
    Pass Config Outcome :=
  if isNameChar cur then .again { c with envBuf := c.envBuf ++ [cur], rest }
  else
    match getenv env c.envBuf with
    | none => .leave .exited
    | some value => .again { c with buf := c.buf ++ value, envBuf := [], state := c.restore }

/-- A pass in the state `NONE`. -/
def stepNone (c : Config) (cur : Char) (rest : List Char) : Config :=
  if cur = '"' then { c with state := .dQuote, rest }
  else if cur = '\'' then { c with state := .quote, rest }
  else if cur = '$' then { c with restore := c.state, state := .dollar, rest }
  else if cur = ' ' then
    if c.buf = [] then { c with rest }
    else { c with paramList := c.paramList ++ [c.buf], buf := [], rest }
  else { c with buf := c.buf ++ [cur], rest }

/-- The list behind the switch at the end of the line, `none` if it exits. -/
def finish (env : List (List Char)) (c : Config) : Option (List (List Char)) :=
  match c.state with
  | .dQuote => none
  | .quote => none
  | .dollar => (getenv env c.envBuf).map fun value => c.paramList ++ [c.buf ++ value]
  | .none =>
    if c.backslash then none
    else if c.buf = [] then some c.paramList
    else some (c.paramList ++ [c.buf])

/-- `return strcmp(paramList->first->data, "exit") != 0`. -/
def outcome : Option (List (List Char)) → Outcome
  | none => .exited
  | some paramList => .returned (paramList.head? ≠ some exitCmd) paramList

/-- One pass of the loop of `parse`, and the end of the line. -/
def step (env : List (List Char)) (c : Config) : Pass Config Outcome :=
  match c.rest with
  | [] => .leave (outcome (finish env c))
  | cur :: rest =>
    if c.backslash then .again { c with buf := c.buf ++ [cur], backslash := false, rest }
    else if cur = '\\' then .again { c with backslash := true, rest }
    else
      match c.state with
      | .dQuote => .again (stepQuote '"' c cur rest)
      | .quote => .again (stepQuote '\'' c cur rest)
      | .dollar => stepDollar env c cur rest
      | .none => .again (stepNone c cur rest)

/-- The variables of `parse` before the loop. -/
def Config.init (str : List Char) (paramList : List (List Char)) : Config :=
  { state := .none, restore := .none, backslash := false, buf := [], envBuf := [], rest := str,
    paramList }

/-- A pass consumes a character or leaves `dollar`. -/
def passes (str : List Char) : ℕ := 2 * str.length + 1

/-- `parse(str, paramList)`: an empty line has no parameters, and the shell goes on. -/
def parse (env : List (List Char)) (str : List Char) (paramList : List (List Char)) :
    Option Outcome :=
  if str.length = 0 then some (.returned true paramList)
  else iterate (step env) (passes str) (.init str paramList)

end Sem3.Blatt06
