import Sem3.Blatt06.Buffers
import Sem3.Util.Lexer

/-!
# The grammar of the first shell

A line is a sequence of items: characters, escaped characters and variables. The spaces outside of
quoted sections cut it into words, and a word stands for the values of its items.
-/

namespace Sem3.Blatt06

/-! ## Items -/

/-- An item of a line. A variable may have escaped characters that are put before its value. -/
inductive Item where
  | char (ch : Char)
  | escaped (ch : Char)
  | var (before name : List Char)
deriving DecidableEq, Repr

/-- The characters of a line; a backslash escapes the next one. -/
def items : List Char → List Item
  | [] => []
  | [ch] => if ch = '\\' then [] else [.char ch]
  | ch :: d :: s => if ch = '\\' then .escaped d :: items s else .char ch :: items (d :: s)

/-- A backslash ends the line. -/
def hanging : List Char → Bool
  | [] => false
  | [ch] => ch = '\\'
  | ch :: d :: s => if ch = '\\' then hanging s else hanging (d :: s)

/-- A character of a name. -/
def Item.inName : Item → Bool
  | .char ch => isNameChar ch
  | _ => false

/-- A character of a name, or an escaped character. -/
def Item.inRun : Item → Bool
  | .char ch => isNameChar ch
  | .escaped _ => true
  | .var _ _ => false

/-- The item is a variable. -/
def Item.isVar : Item → Bool
  | .var _ _ => true
  | _ => false

/-- The character of an item that is neither escaped nor a variable. -/
def Item.char? : Item → Option Char
  | .char ch => some ch
  | _ => none

/-- The character of an item that is escaped. -/
def Item.escaped? : Item → Option Char
  | .escaped ch => some ch
  | _ => none

/-- The variable that the longest run of items with `run` makes with the name read so far. -/
def takeVar (run : Item → Bool) (name : List Char) (is : List Item) : List Item :=
  .var ((is.takeWhile run).filterMap Item.escaped?)
    (name ++ (is.takeWhile run).filterMap Item.char?) :: is.dropWhile run

/-- Every `$` and the run behind it become a variable. -/
def withVars (run : Item → Bool) : List Item → List Item
  | [] => []
  | i :: is => if i = .char '$' then takeVar run [] (withVars run is) else i :: withVars run is

/-- The text that an item stands for. A variable has the escaped characters of its name in front of its
value. -/
def Item.value (env : List (List Char)) : Item → List Char
  | .char ch => [ch]
  | .escaped ch => [ch]
  | .var before name => before ++ (getenv env name).getD []

/-- A variable has a name and is set. -/
def Item.IsSet (env : List (List Char)) : Item → Prop
  | .var _ name => name ≠ [] ∧ getenv env name ≠ none
  | _ => True

/-! ## Words -/

/-- Where an item stands: between two words, inside of a word, or in a quoted section. -/
inductive Place where
  | between
  | word
  | dQuote
  | quote
deriving DecidableEq, Repr

/-- The character that closes the section. -/
def Place.closing : Place → Option Char
  | .dQuote => some '"'
  | .quote => some '\''
  | _ => none

/-- The two kinds of quotes. -/
abbrev IsQuote (ch : Char) : Prop := ch = '"' ∨ ch = '\''

/-- The words of a line. A section is part of the word it stands in, and begins one between two
words. -/
def grammar : Lexer Place Item where
  next place i :=
    match place.closing, i with
    | some close, .char ch => if ch = close then .word else place
    | some _, _ => place
    | none, .char ch =>
      if ch = ' ' then .between
      else if ch = '"' then .dQuote
      else if ch = '\'' then .quote
      else .word
    | none, _ => .word
  put place word i :=
    match place.closing, i with
    | some close, .char ch => if ch = close then word else word ++ [i]
    | some _, _ => word ++ [i]
    | none, .char ch =>
      let word' := if place = .between then [] else word
      if ch = ' ' ∨ IsQuote ch then word' else word' ++ [i]
    | none, _ => if place = .between then [i] else word ++ [i]
  emits place i := place = .word ∧ i = .char ' '
  final place := place ≠ .between

/-- The lines of the grammar: every quoted section is closed, no backslash ends the line, and every
variable is set. -/
structure InGrammar (env : List (List Char)) (run : Item → Bool) (line : List Char) : Prop where
  closed : (grammar.run (items line) .between).closing = none
  complete : hanging line = false
  set : ∀ i ∈ withVars run (items line), i.IsSet env

/-- The arguments that a line stands for. -/
def args (env : List (List Char)) (run : Item → Bool) (line : List Char) : List (List Char) :=
  (grammar.words (withVars run (items line)) .between []).map fun word =>
    word.flatMap (Item.value env)

/-- `parse` returns on the lines of the grammar only, and appends their arguments to the list. -/
def Agrees (env : List (List Char)) (line : List Char) (paramList : List (List Char)) : Prop :=
  ((∃ more l, parse env line paramList = some (.returned more l)) ↔
    InGrammar env Item.inName line) ∧
  ∀ more l, parse env line paramList = some (.returned more l) →
    l = paramList ++ args env Item.inName line

/-! ## Where `parse` differs -/

/-- The line ends behind a variable. -/
def endsInVar (line : List Char) : Bool :=
  (withVars Item.inRun (items line)).getLast?.any Item.isVar

/-- Behind the last variable ends a section that is not closed, or stands a backslash; the variables
are set. -/
def Dangles (env : List (List Char)) (line : List Char) : Prop :=
  endsInVar line ∧ (∀ i ∈ withVars Item.inRun (items line), i.IsSet env) ∧
    ((grammar.run (items line) .between).closing ≠ none ∨ hanging line)

/-- It makes no difference to the line if the escaped characters behind a name are put before the
value, and the name goes on behind them. -/
def LateSame (env : List (List Char)) (line : List Char) : Prop :=
  (InGrammar env Item.inRun line ↔ InGrammar env Item.inName line) ∧
    (InGrammar env Item.inName line → args env Item.inRun line = args env Item.inName line)

/-- No escaped character stands directly behind the name of a variable. -/
def NoLateEscape (is : List Item) : Prop :=
  ∀ pre (name : List Char) ch post, (∀ c ∈ name, isNameChar c) →
    is ≠ pre ++ .char '$' :: (name.map Item.char ++ .escaped ch :: post)

/-- No argument is empty; the last one may be if the line ends behind a variable. -/
def NoneEmpty (env : List (List Char)) (line : List Char) : Prop :=
  ∀ arg ∈ if endsInVar line then (args env Item.inName line).dropLast else args env Item.inName line,
    arg ≠ []

/-! ## The room in the buffer -/

/-- Every store of `parse` lies inside of its buffer, and `parse` ends. -/
def InBounds (env : List (List Char)) (line : List Char) : Prop :=
  ∀ paramList, ∃ o, parseBuffers env line paramList = some (some o)

/-- There is room for the items of a line of length `len` in a buffer of `size` bytes in which the
argument has `i` characters so far: `close` is the character that closes the section, `behind` says
that the last item was a variable, and `hang` that a backslash ends the line.

A value always fits. If it makes the argument as long as the line or by one character shorter, the
buffer is left with one byte behind it. -/
def Room (env : List (List Char)) (len : ℕ) (hang : Bool) :
    Option Char → Bool → ℕ → ℕ → List Item → Prop
  | close, behind, i, size, [] =>
    behind = false → close = none → hang = false → i ≠ 0 → i + 1 ≤ size
  | close, _, i, size, .var before name :: is =>
    (before ≠ [] → i + before.length ≤ size) ∧ ∀ value, getenv env name = some value →
      let n := i + before.length + value.length
      Room env len hang close true n (if len ≤ n + 1 then n + 1 else size) is
  | close, _, i, size, .escaped _ :: is =>
    i + 1 ≤ size ∧ Room env len hang close false (i + 1) size is
  | some q, _, i, size, .char ch :: is =>
    if ch = q then Room env len hang none false i size is
    else i + 1 ≤ size ∧ Room env len hang (some q) false (i + 1) size is
  | none, _, i, size, .char ch :: is =>
    if ch = ' ' then (i ≠ 0 → i + 1 ≤ size) ∧ Room env len hang none false 0 size is
    else if IsQuote ch then Room env len hang (some ch) false i size is
    else i + 1 ≤ size ∧ Room env len hang none false (i + 1) size is

/-- There is room for a line in the buffer, which has as many bytes as the line at first. -/
def HasRoom (env : List (List Char)) (line : List Char) : Prop :=
  Room env line.length (hanging line) none false 0 line.length (withVars Item.inRun (items line))

end Sem3.Blatt06
