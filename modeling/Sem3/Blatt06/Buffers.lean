import Sem3.Blatt06.Parser
import Sem3.Util.Buffer

/-!
# The buffers of the first shell's parser (`blatt06/parser.c`)

What a pass of `parse` does with `buf` and `envBuf`, in the order of the source: `buf` has the length
of the line at first, which is the value of `bufLen` throughout, and is only reallocated for a
variable. `envBuf` is an array of the length of the line.
-/

namespace Sem3.Blatt06

open Loop Buffers

/-- The two arrays that `parse` fills. -/
inductive Buf where
  | buf
  | envBuf
deriving DecidableEq, Repr

/-- `dQuote` and `quote`. -/
def quoteStores (close : Char) (c : Config) (cur : Char) : List (Act Buf) :=
  if cur = close then []
  else if cur = '$' then []
  else [.store .buf c.buf.length 1]

/-- `if (envLen + i + 1 >= bufLen) buf = realloc(buf, envLen + i + 1);` -/
def expand (bufLen i envLen : ℕ) : List (Act Buf) :=
  if envLen + i + 1 ≥ bufLen then [.alloc .buf (envLen + i + 1)] else []

/-- `strncpy` does not copy the terminator of the value. -/
def dollarStores (env : List (List Char)) (bufLen : ℕ) (c : Config) (cur : Char) :
    List (Act Buf) :=
  if isNameChar cur then [.store .envBuf c.envBuf.length 1]
  else
    .store .envBuf c.envBuf.length 1 ::
      match getenv env c.envBuf with
      | none => []
      | some value =>
        expand bufLen c.buf.length value.length ++ [.store .buf c.buf.length value.length]

/-- The stores of a pass in the state `NONE`. -/
def noneStores (c : Config) (cur : Char) : List (Act Buf) :=
  if cur = '"' then []
  else if cur = '\'' then []
  else if cur = '$' then []
  else if cur = ' ' then
    if c.buf = [] then [] else [.store .buf c.buf.length 1]
  else [.store .buf c.buf.length 1]

/-- The switch at the end of the line. `strcpy` copies the terminator of the value. -/
def finishStores (env : List (List Char)) (bufLen : ℕ) (c : Config) : List (Act Buf) :=
  match c.state with
  | .dQuote => []
  | .quote => []
  | .dollar =>
    .store .envBuf c.envBuf.length 1 ::
      match getenv env c.envBuf with
      | none => []
      | some value =>
        expand bufLen c.buf.length value.length ++ [.store .buf c.buf.length (value.length + 1)]
  | .none =>
    if c.backslash then []
    else if c.buf = [] then []
    else [.store .buf c.buf.length 1]

/-- What a pass of the loop does with the buffers, and the end of the line. -/
def stores (env : List (List Char)) (bufLen : ℕ) (c : Config) : List (Act Buf) :=
  match c.rest with
  | [] => finishStores env bufLen c
  | cur :: _ =>
    if c.backslash then [.store .buf c.buf.length 1]
    else if cur = '\\' then []
    else
      match c.state with
      | .dQuote => quoteStores '"' c cur
      | .quote => quoteStores '\'' c cur
      | .dollar => dollarStores env bufLen c cur
      | .none => noneStores c cur

/-- `parse` with its buffers: `some none` for a store outside of one of them. -/
def parseBuffers (env : List (List Char)) (str : List Char) (paramList : List (List Char)) :
    Option (Option Outcome) :=
  let len := str.length
  if len = 0 then some (some (.returned true paramList))
  else
    iterate (guard (step env) fun c => run (stores env len c)) (passes str)
      (.init str paramList, fun _ => len)

end Sem3.Blatt06
