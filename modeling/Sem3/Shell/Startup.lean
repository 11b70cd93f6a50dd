import Sem3.Shell.Parser

/-!
# The start of the shell (`mysh.c`)

Before the first prompt `main` cuts the value of `PATH` into its components. `getenv` gives a
pointer into the strings that `envp` points to, and `strtok` writes a terminator over every
delimiter it stops at, so the strings are kept here as they lie in memory, one behind the other.

A function gives `none` where it follows a pointer to `NULL` or leaves the memory that is known.
-/

namespace Sem3.Shell

/-- The name of the variable for the directories of the commands. -/
def pathvar : List Char := ['P', 'A', 'T', 'H']

/-- The strings of `envp`, and the memory behind the last of them. -/
structure Environ where
  entries : List (List Char)
  tail : List Char
  ok : ∀ entry ∈ entries, nul ∉ entry

namespace Environ

/-- The bytes of the environment: the entries with their terminators, and what lies behind them. -/
def memory (E : Environ) : List Char := E.entries.flatMap (· ++ [nul]) ++ E.tail

/-- Where the entry `i` starts. -/
def offset (E : Environ) (i : ℕ) : ℕ := ((E.entries.take i).flatMap (· ++ [nul])).length

end Environ

/-- The string at an address. -/
def cstring (mem : List Char) (p : ℕ) : List Char := (mem.drop p).takeWhile (· ≠ nul)

/-- The strings that `envp` points to when the memory has changed to `mem`. -/
def Environ.strings (E : Environ) (mem : List Char) : List (List Char) :=
  (List.range E.entries.length).map fun i => cstring mem (E.offset i)

/-- The entry that `getenv(name)` finds. -/
def getenv (entries : List (List Char)) (name : List Char) : Option ℕ :=
  entries.findIdx? fun entry => (name ++ ['=']).isPrefixOf entry

/-- `strtok` with one delimiter on the memory from its pointer on: the token, `none` for `NULL`; what
it leaves of the memory up to its new pointer; and the memory from there on. -/
def strtok (delim : Char) (s : List Char) :
    Option (Option (List Char) × List Char × List Char) :=
  let skipped := s.takeWhile (· = delim)
  match s.dropWhile (· = delim) with
  | [] => none
  | c :: cs =>
    if c = nul then some (none, skipped, c :: cs)
    else
      let token := (c :: cs).takeWhile fun d => d ≠ delim ∧ d ≠ nul
      match (c :: cs).drop token.length with
      | [] => none
      | d :: rest =>
        if d = nul then some (some token, skipped ++ token, d :: rest)
        else some (some token, skipped ++ token ++ [nul], rest)

/-- The calls of `strtok` up to the one that gives `NULL`: the tokens, and the memory. -/
def strtokAll (delim : Char) : ℕ → List Char → Option (List (List Char) × List Char)
  | 0, _ => none
  | n + 1, s => do
    let (token, before, rest) ← strtok delim s
    match token with
    | none => some ([], before ++ rest)
    | some token =>
      let (tokens, after) ← strtokAll delim n rest
      some (token :: tokens, before ++ after)

/-- `main` up to the first prompt: the array `paths`, and the strings that `envp` points to. The
first `strtok` starts `strlen(pathvar)` characters behind the start of the value. -/
def start (E : Environ) : Option (List (List Char) × List (List Char)) := do
  let i ← getenv E.entries pathvar
  let path := E.offset i + (pathvar.length + 1)
  let p := path + pathvar.length
  let s := E.memory.drop p
  let (paths, after) ← strtokAll ':' (s.length + 1) s
  some (paths, E.strings (E.memory.take p ++ after))

end Sem3.Shell
