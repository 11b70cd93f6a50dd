import Sem3.Shell.Parser

/-!
# What the parser is for

Templates say what a line means before the variables are known, the quoting grammar how a line is
split into arguments, and the encoding how a list of arguments is written as a line.
-/

namespace Sem3.Shell

open Loop

/-! ## Templates -/

/-- A part of an argument: a character, or the name of a variable. -/
inductive Item where
  | char (ch : Char)
  | var (name : List Char)
deriving DecidableEq, Repr

/-- An argument before the variables are known. -/
abbrev Template := List Item

/-- The values of all entries `name=value`, in the order of the environment. -/
def valuesOf (env : List (List Char)) (name : List Char) : List (List Char) :=
  env.filterMap fun entry => (name ++ ['=']).isPrefixOf? entry

/-- The text of a part of an argument: a name stands for all of its values. -/
def Item.fill (env : List (List Char)) : Item → List Char
  | .char ch => [ch]
  | .var name => (valuesOf env name).flatten

/-- The argument, when the variables have their values. -/
def Template.fill (env : List (List Char)) (t : Template) : List Char := t.flatMap (Item.fill env)

/-- The templates of the arguments of a line, `none` if `parse` exits: the machine is run with the
names in the place of the values. -/
def templates (line : List Char) : Option (List Template) :=
  match iterate (step Item.char fun name => [[Item.var name]]) (passes line) (.init line []) with
  | some (.returned ts) => some ts
  | _ => none

/-- The configuration of the machine on the text, from the one on templates. -/
def Config.fill (env l : List (List Char)) (c : Config Item) : Config Char :=
  { state := c.state
    laststate := c.laststate
    arg := Template.fill env c.arg
    rest := c.rest
    out := l ++ c.out.map (Template.fill env) }

/-- The outcome on the text, from the one on templates. -/
def Outcome.fill (env l : List (List Char)) : Outcome Item → Outcome Char
  | .returned ts => .returned (l ++ ts.map (Template.fill env))
  | .exited => .exited

/-! ## The quoting grammar -/

/-- The two kinds of quotes. -/
abbrev IsQuote (ch : Char) : Prop := ch = '"' ∨ ch = '\''

/-- A part of a word: a character outside of quotes, or a quoted section. -/
inductive Fragment where
  | char (ch : Char)
  | quoted (quote : Char) (content : List Char)
deriving DecidableEq, Repr

/-- No space and no quote stands outside of a section, and a section does not contain its own
quote. -/
def Fragment.Ok : Fragment → Prop
  | .char ch => ch ≠ ' ' ∧ ¬ IsQuote ch
  | .quoted quote content => IsQuote quote ∧ quote ∉ content

/-- The fragment as it stands in the line. -/
def Fragment.text : Fragment → List Char
  | .char ch => [ch]
  | .quoted quote content => quote :: (content ++ [quote])

/-- The fragment without its quotes. -/
def Fragment.value : Fragment → List Char
  | .char ch => [ch]
  | .quoted _ content => content

/-- A word of a line: quoted and unquoted parts, glued together. -/
structure Word where
  fragments : List Fragment
  ne_nil : fragments ≠ []
  ok : ∀ f ∈ fragments, f.Ok

/-- The word as it stands in the line. -/
def Word.text (w : Word) : List Char := w.fragments.flatMap Fragment.text

/-- The argument that a word stands for. -/
def Word.arg (w : Word) : List Char := w.fragments.flatMap Fragment.value

/-- The line is split into arguments at the spaces outside of quoted sections. -/
inductive Splits : List Char → List (List Char) → Prop where
  | nil : Splits [] []
  | space {s : List Char} {args : List (List Char)} (h : Splits s args) : Splits (' ' :: s) args
  | last (w : Word) : Splits w.text [w.arg]
  | word (w : Word) {s : List Char} {args : List (List Char)} (h : Splits s args) :
      Splits (w.text ++ ' ' :: s) (w.arg :: args)

/-- Every quoted section that opens is closed; `quote` is the character that closes the one that the
text starts in. -/
def Closed (quote : Option Char) : List Char → Prop
  | [] => quote = none
  | ch :: s =>
    match quote with
    | none => if IsQuote ch then Closed (some ch) s else Closed none s
    | some q => if ch = q then Closed none s else Closed (some q) s

/-- Where a text starts: between two words, inside of a word, in the quoted section that a word
begins with, or in one that opened inside of a word. -/
inductive Place where
  | white
  | word
  | first (quote : Char)
  | glued (quote : Char)
deriving DecidableEq, Repr

/-- No quoted section that opens inside of a word has a space or a quote in it. -/
def GluedPlain : Place → List Char → Prop
  | _, [] => True
  | .white, ch :: s =>
    if ch = ' ' then GluedPlain .white s
    else if IsQuote ch then GluedPlain (.first ch) s
    else GluedPlain .word s
  | .word, ch :: s =>
    if ch = ' ' then GluedPlain .white s
    else if IsQuote ch then GluedPlain (.glued ch) s
    else GluedPlain .word s
  | .first quote, ch :: s => if ch = quote then GluedPlain .word s else GluedPlain (.first quote) s
  | .glued quote, ch :: s =>
    if ch = quote then GluedPlain .word s
    else ch ≠ ' ' ∧ ¬ IsQuote ch ∧ GluedPlain (.glued quote) s

/-! ## The encoding of a list of arguments -/

/-- The characters that mean something between double quotes. -/
abbrev Special (ch : Char) : Prop := ch = '"' ∨ ch = '\\' ∨ ch = '$'

/-- A backslash in front of every special character. -/
def escape (w : List Char) : List Char := w.flatMap fun ch => if Special ch then ['\\', ch] else [ch]

/-- A string between double quotes. -/
def encode (w : List Char) : List Char := '"' :: (escape w ++ ['"'])

/-- The strings between double quotes, joined with single spaces. -/
def encodeLine (ws : List (List Char)) : List Char := [' '].intercalate (ws.map encode)

/-- No special character is the last one or stands before a single quote. -/
def Survives : List Char → Prop
  | [] => True
  | [ch] => ¬ Special ch
  | ch :: d :: w => ¬ (Special ch ∧ d = '\'') ∧ Survives (d :: w)

/-! ## Backslash quoting -/

/-- A backslash before every character. -/
def backslashed (w : List Char) : List Char := w.flatMap fun ch => ['\\', ch]

/-- The strings with a backslash in front of every character, joined with single spaces. -/
def backslashLine (ws : List (List Char)) : List Char := [' '].intercalate (ws.map backslashed)

end Sem3.Shell
