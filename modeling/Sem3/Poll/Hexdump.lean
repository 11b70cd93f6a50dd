import Sem3.Util.Digits
import Sem3.Util.Loop

/-!
# The hexdump (`hexdump.c`)

`hexdump` writes the dump of the bytes into `buf` and sends what stands in front of `index`. A text
that is written outside of `buf` and a byte that is read outside of `buffer` give `none`. `buf` is
not initialised, so its contents are an argument; `length` is not negative, and `size_t` is unbounded.
Whether `char` is signed is up to the compiler. What `write` returns is left out.
-/

namespace Sem3.Poll

/-- `char buf[10240];` -/
abbrev Buf := { l : List Char // l.length = 10240 }

/-- `buf` and `index`. -/
structure Out where
  buf : Buf
  index : ℕ

/-- The terminator of a string. -/
def nul : Char := Char.ofNat 0

/-- `sprintf(&buf[index], ..);` where the text is `s`, and `index += width;`. Behind the text a
`NUL` is written. -/
def Out.sprintf (out : Out) (s : List Char) (width : ℕ) : Option Out :=
  if h : out.index + s.length + 1 ≤ 10240 then
    some
      { buf := ⟨out.buf.1.take out.index ++ s ++ nul :: out.buf.1.drop (out.index + s.length + 1),
          by have := out.buf.2; simp; omega⟩
        index := out.index + width }
  else none

/-- `buf[index++] = c;` -/
def Out.putc (out : Out) (c : Char) : Option Out :=
  if out.index < 10240 then
    some
      { buf := ⟨out.buf.1.set out.index c, by rw [List.length_set, out.buf.2]⟩
        index := out.index + 1 }
  else none

/-- What `write(sd, buf, index)` sends. -/
def Out.write (out : Out) : Option (List Char) :=
  if out.index ≤ 10240 then some (out.buf.1.take out.index) else none

/-- The value of a `char`. -/
def charValue (signed : Bool) (b : UInt8) : ℤ := if signed then b.toInt8.toInt else b.toNat

/-- `(buffer[i+o]<32||buffer[i+o]>126) ? '.' : buffer[i+o]` -/
def printable (signed : Bool) (b : UInt8) : Char :=
  if charValue signed b < 32 ∨ charValue signed b > 126 then '.' else Char.ofNat b.toNat

/-- `sprintf(&buf[index], "%02x ", (unsigned char)buffer[j]); index += 3;` -/
def putHex (buffer : List UInt8) (j : ℕ) (out : Out) : Option Out :=
  buffer[j]?.bind fun b => out.sprintf (Digits.padded 16 2 b.toNat ++ [' ']) 3

/-- The character of the byte `j`, in the column of the text. -/
def putChar (signed : Bool) (buffer : List UInt8) (j : ℕ) (out : Out) : Option Out :=
  buffer[j]?.bind fun b => out.putc (printable signed b)

/-- The loops over the bytes of a row, `k` positions in front of its end: `o` and `buf` behind the
loop. -/
def forBytes (length i : ℕ) (body : ℕ → Out → Option Out) : ℕ → ℕ → Out → Option (ℕ × Out)
  | 0, o, out => some (o, out)
  | k + 1, o, out =>
    if i + o ≥ length ∧ (i > 0 ∨ o > 0) then some (o, out)
    else (body (i + o) out).bind (forBytes length i body k (o + 1))

/-- The loop over the positions of a row that have no byte. -/
def forBlanks : ℕ → Out → Option Out
  | 0, out => some out
  | k + 1, out => (out.sprintf [' ', ' ', ' '] 3).bind (forBlanks k)

/-- The body of the outer loop. -/
def row (signed : Bool) (buffer : List UInt8) (length i : ℕ) (out : Out) : Option Out := do
  let out ← out.sprintf (Digits.padded 16 6 i ++ [' ', ':', ' ']) 9
  let (o, out) ← forBytes length i (putHex buffer) 16 0 out
  let out ← forBlanks (16 - o) out
  let out ← out.sprintf [' ', ' '] 2
  let (_, out) ← forBytes length i (putChar signed buffer) 16 0 out
  out.sprintf ['\n'] 1

/-- One pass of the outer loop, on `i` and `buf`. -/
def rowPass (signed : Bool) (buffer : List UInt8) (length : ℕ) (x : ℕ × Out) :
    Loop.Pass (ℕ × Out) (Option Out) :=
  if x.1 ≤ length then
    match row signed buffer length x.1 x.2 with
    | some out => .again (x.1 + 16, out)
    | none => .leave none
  else .leave (some x.2)

/-- The text that is sent, if `bound` passes are enough. -/
def hexdump (signed : Bool) (bound : ℕ) (buffer : List UInt8) (length : ℕ) (buf : Buf) :
    Option (Option (List Char)) :=
  (Loop.iterate (rowPass signed buffer length) bound (0, ⟨buf, 0⟩)).map (·.bind Out.write)

/-! ## Reading a dump -/

/-- The bytes of the hexadecimal columns, at most `k` of them; a blank column ends them. -/
def decodeColumns : ℕ → List Char → List UInt8
  | 0, _ => []
  | k + 1, cs =>
    match Digits.read 16 (cs.take 2) with
    | some v => UInt8.ofNat v :: decodeColumns k (cs.drop 3)
    | none => []

/-- The bytes that stand in the hexadecimal columns of a row. -/
def decodeRow (line : List Char) : List UInt8 := decodeColumns 16 (line.drop 9)

/-- The column of the text. -/
def textColumn (line : List Char) : List Char := line.drop 59

/-- The character for a byte in the text column. -/
def shown (b : UInt8) : Char :=
  if 32 ≤ b.toNat ∧ b.toNat ≤ 126 then Char.ofNat b.toNat else '.'

/-- `text`, cut at the newlines, is a dump of the bytes. -/
structure IsDump (buffer : List UInt8) (lines : List (List Char)) (text : List Char) : Prop where
  cut : text.splitOn '\n' = lines ++ [[]]
  count : lines.length = buffer.length / 16 + 1
  offset (r : ℕ) (hr : r < lines.length) :
    (lines[r].take 6).length = 6 ∧ Digits.read 16 (lines[r].take 6) = some (16 * r)
  bytes : lines.flatMap decodeRow = buffer
  chars (line : List Char) (h : line ∈ lines) : textColumn line = (decodeRow line).map shown

end Sem3.Poll
