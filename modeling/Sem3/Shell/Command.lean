import Sem3.Shell.Main

/-!
# The path of a command (`mysh.c`)

The buffer `cmd` in which a child puts together the path for `execve`. It has `IN_SZ` bytes and is
allocated once, so every pass of the lookup loop writes over what the one before has left in it.

A function returns `none` where it leaves the buffer or follows `NULL`. Otherwise the passes are those
of `childCalls`.
-/

namespace Sem3.Shell

/-- `strncpy(buf + off, src, n)`: at most `n` characters of `src`, filled up with terminators. -/
def strncpy (buf : List Char) (off : ℕ) (src : List Char) (n : ℕ) : Option (List Char) :=
  if off + n ≤ buf.length then
    some (buf.take off ++ (src.take n ++ List.replicate (n - src.length) nul) ++ buf.drop (off + n))
  else none

/-- One pass over the buffer `cmd`. -/
def assemble (cmd path word : List Char) : Option (List Char) :=
  if startsWith word thisdir || startsWith word updir then
    strncpy cmd 0 word (word.length + 1)
  else do
    let cmd ← strncpy cmd 0 path inSz
    let cmd ← strncpy cmd path.length rootdir rootdir.length
    let cmd ← strncpy cmd (path.length + 1) word word.length
    strncpy cmd (path.length + 1 + word.length) [] 1

/-- The calls of `execve` of the child `t` from pass `s` on, with the buffer `cmd`. -/
def childExecs (sys : System) (npipes t : ℕ) (ppfd : ℕ × ℕ) :
    ℕ → List (List Char) → List Char → List (List Char) → Fds → Option (List Call)
  | _, [], _, _, _ => some []
  | _, _ :: _, _, [], _ => none
  | s, path :: paths, cmd, word :: words, T => do
    let cmd ← assemble cmd path word
    match childPass sys npipes t ppfd s (word :: words) T with
    | none => some []
    | some (split', T') =>
      if nul ∈ cmd then
        let call := { cmd := cmd.takeWhile (· ≠ nul), argv := split', fds := T' }
        if sys.execs s call.cmd split' then some [call]
        else do
          let calls ← childExecs sys npipes t ppfd (s + 1) paths cmd split' T'
          some (call :: calls)
      else none

end Sem3.Shell
