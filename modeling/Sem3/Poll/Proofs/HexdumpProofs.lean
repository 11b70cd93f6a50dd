import Sem3.Poll.Hexdump

/-!
# Correctness of the hexdump (`hexdump.c`)

`Holds` says which text stands in front of `index`. Every statement of the body adds its own text to
it as long as there is room (`sprintf_holds`, `putc_holds`), a row adds `line` (`row_holds`), and
all rows together stay far below the size of `buf` (`iterate_rows`). Reading a line gives back the
bytes that it was written for (`decodeRow_line`).
-/

namespace Sem3.Poll

/-! ## What stands in front of `index` -/

/-- The text stands in front of `index`. -/
structure Holds (out : Out) (text : List Char) : Prop where
  written : text <+: out.buf.1
  index_eq : out.index = text.length

variable {out : Out} {text s : List Char} {c : Char} {signed : Bool} {buffer : List UInt8}

theorem Holds.take_index (h : Holds out text) : out.buf.1.take out.index = text := by
  rw [h.index_eq]
  exact (List.prefix_iff_eq_take.1 h.written).symm

theorem sprintf_holds {width : ℕ} (hw : s.length = width) (h : Holds out text)
    (hs : text.length + width < 10240) :
    ∃ out', out.sprintf s width = some out' ∧ Holds out' (text ++ s) := by
  subst hw
  have hi := h.index_eq
  rw [Out.sprintf, dif_pos (by omega)]
  refine ⟨_, rfl, ⟨?_, ?_⟩⟩
  · simp only [h.take_index]
    exact List.prefix_append _ _
  · simp only [hi, List.length_append]

theorem putc_holds (h : Holds out text) (hs : text.length < 10240) :
    ∃ out', out.putc c = some out' ∧ Holds out' (text ++ [c]) := by
  have hi := h.index_eq
  have hsize := out.buf.2
  rw [Out.putc, if_pos (by omega)]
  refine ⟨_, rfl, ⟨?_, ?_⟩⟩
  · simp only [List.set_eq_take_append_cons_drop, h.take_index]
    rw [if_pos (by omega)]
    exact ⟨_, (List.append_cons text c _).symm⟩
  · simp only [hi, List.length_append, List.length_singleton]

/-! ## The loops of a row -/

/-- The bytes of a row from the position `o` on. -/
def bytesFrom (buffer : List UInt8) (i o : ℕ) : List UInt8 := (buffer.drop (i + o)).take (16 - o)

theorem bytesFrom_of_lt {i o : ℕ} (ho : o < 16) (h : i + o < buffer.length) :
    bytesFrom buffer i o = buffer[i + o] :: bytesFrom buffer i (o + 1) := by
  obtain ⟨k, hk⟩ : ∃ k, 16 - o = k + 1 := ⟨15 - o, by omega⟩
  rw [bytesFrom, bytesFrom, hk, List.drop_eq_getElem_cons h, List.take_succ_cons,
    show 16 - (o + 1) = k by omega, Nat.add_assoc]

theorem bytesFrom_of_ge {i o : ℕ} (h : buffer.length ≤ i + o) : bytesFrom buffer i o = [] := by
  rw [bytesFrom, List.drop_eq_nil_of_le h, List.take_nil]

theorem length_bytesFrom_le (buffer : List UInt8) (i o : ℕ) :
    (bytesFrom buffer i o).length ≤ 16 - o :=
  List.length_take_le _ _

/-- If the body adds `f b` for the byte `b`, the loop adds the texts of the bytes of the row. -/
theorem forBytes_holds {body : ℕ → Out → Option Out} {f : UInt8 → List Char} {w i : ℕ}
    (hw : ∀ b, (f b).length = w)
    (hbody : ∀ j b out text, buffer[j]? = some b → Holds out text → text.length + w < 10240 →
      ∃ out', body j out = some out' ∧ Holds out' (text ++ f b))
    (hn : 1 ≤ buffer.length) {k o : ℕ} (hk : o + k = 16) (h : Holds out text)
    (hs : text.length + k * w < 10240) :
    ∃ out', forBytes buffer.length i body k o out
        = some (o + (bytesFrom buffer i o).length, out') ∧
      Holds out' (text ++ (bytesFrom buffer i o).flatMap f) := by
  induction k generalizing o out text with
  | zero =>
    have hnil : bytesFrom buffer i o = [] := by
      rw [bytesFrom, show 16 - o = 0 by omega, List.take_zero]
    refine ⟨out, by rw [forBytes, hnil]; rfl, ?_⟩
    rw [hnil, List.flatMap_nil, List.append_nil]
    exact h
  | succ k ih =>
    have hmul : (k + 1) * w = k * w + w := Nat.succ_mul k w
    rw [forBytes]
    split
    case isTrue hend =>
      have hnil : bytesFrom buffer i o = [] := bytesFrom_of_ge hend.1
      refine ⟨out, by rw [hnil]; rfl, ?_⟩
      rw [hnil, List.flatMap_nil, List.append_nil]
      exact h
    case isFalse hend =>
      -- At the first position of the dump there is a byte because the buffer is not empty.
      have hlt : i + o < buffer.length := by
        by_contra hge
        exact hend ⟨by omega, by omega⟩
      obtain ⟨out₁, hout₁, h₁⟩ :=
        hbody (i + o) buffer[i + o] out text (List.getElem?_eq_getElem hlt) h (by omega)
      have hlen : (text ++ f buffer[i + o]).length = text.length + w := by
        rw [List.length_append, hw]
      obtain ⟨out₂, hout₂, h₂⟩ := ih (o := o + 1) (by omega) h₁ (by omega)
      rw [bytesFrom_of_lt (by omega) hlt, hout₁, Option.bind_some, hout₂]
      refine ⟨out₂, ?_, ?_⟩
      · rw [List.length_cons, Nat.add_right_comm, Nat.add_assoc]
      · rw [List.flatMap_cons, ← List.append_assoc]
        exact h₂

/-- The loop over the columns without a byte adds blanks. -/
theorem forBlanks_holds {k : ℕ} (h : Holds out text) (hs : text.length + k * 3 < 10240) :
    ∃ out', forBlanks k out = some out' ∧ Holds out' (text ++ List.replicate (k * 3) ' ') := by
  induction k generalizing out text with
  | zero => exact ⟨out, rfl, by simpa using h⟩
  | succ k ih =>
    have hw : [' ', ' ', ' '].length = 3 := rfl
    have hmul : (k + 1) * 3 = k * 3 + 3 := Nat.succ_mul k 3
    obtain ⟨out₁, hout₁, h₁⟩ := sprintf_holds hw h (by omega)
    obtain ⟨out₂, hout₂, h₂⟩ := ih h₁ (by rw [List.length_append, hw]; omega)
    refine ⟨out₂, by rw [forBlanks, hout₁, Option.bind_some, hout₂], ?_⟩
    rw [List.append_assoc] at h₂
    rw [hmul, Nat.add_comm, ← List.replicate_append_replicate]
    exact h₂

/-! ## A row -/

/-- The offset at the beginning of a line. -/
def offset (i : ℕ) : List Char := Digits.padded 16 6 i ++ [' ', ':', ' ']

theorem length_offset {i : ℕ} (hi : i < 16 ^ 6) : (offset i).length = 9 := by
  rw [offset, List.length_append, Digits.length_padded (by omega) (by omega) hi]
  rfl

/-- The hexadecimal column of a byte. -/
def hexCell (b : UInt8) : List Char := Digits.padded 16 2 b.toNat ++ [' ']

theorem length_hexCell (b : UInt8) : (hexCell b).length = 3 := by
  have hb : b.toNat < 16 ^ 2 := b.toNat_lt
  rw [hexCell, List.length_append, Digits.length_padded (by omega) (by omega) hb]
  rfl

theorem length_flatMap_hexCell (bs : List UInt8) : (bs.flatMap hexCell).length = bs.length * 3 := by
  induction bs with
  | nil => rfl
  | cons b bs ih =>
    rw [List.flatMap_cons, List.length_append, length_hexCell, ih, List.length_cons]
    omega

theorem putHex_holds {j : ℕ} {b : UInt8} (hb : buffer[j]? = some b) (h : Holds out text)
    (hs : text.length + 3 < 10240) :
    ∃ out', putHex buffer j out = some out' ∧ Holds out' (text ++ hexCell b) := by
  rw [putHex, hb, Option.bind_some]
  exact sprintf_holds (length_hexCell b) h hs

/-- Whether or not `char` is signed, a byte from 128 on is not printed. -/
theorem printable_eq_shown (signed : Bool) (b : UInt8) : printable signed b = shown b := by
  have hb := b.toNat_lt
  have hval : charValue signed b = b.toNat ∨ 128 ≤ b.toNat ∧ charValue signed b < 0 := by
    cases signed with
    | false => exact .inl rfl
    | true =>
      have hcond : charValue true b = _ := BitVec.toInt_eq_toNat_cond b.toBitVec
      simp only [UInt8.toNat_toBitVec] at hcond
      omega
  rw [printable, shown]
  split_ifs <;> first | rfl | omega

theorem putChar_holds (signed : Bool) {j : ℕ} {b : UInt8} (hb : buffer[j]? = some b)
    (h : Holds out text) (hs : text.length + 1 < 10240) :
    ∃ out', putChar signed buffer j out = some out' ∧ Holds out' (text ++ [shown b]) := by
  rw [putChar, hb, Option.bind_some, ← printable_eq_shown signed b]
  exact putc_holds h (by omega)

/-- The line for the bytes `bs` at the offset `i`. -/
def line (i : ℕ) (bs : List UInt8) : List Char :=
  offset i ++ bs.flatMap hexCell ++ List.replicate ((16 - bs.length) * 3) ' ' ++ [' ', ' ']
    ++ bs.map shown

/-- A row is as long as its text and the columns in front of it. -/
theorem length_line {i : ℕ} {bs : List UInt8} (hi : i < 16 ^ 6) (hbs : bs.length ≤ 16) :
    (line i bs).length = 59 + bs.length := by
  simp only [line, List.length_append, length_offset hi, length_flatMap_hexCell,
    List.length_replicate, List.length_map, List.length_cons, List.length_nil]
  omega

theorem row_holds (signed : Bool) {i : ℕ} (hn : 1 ≤ buffer.length) (hi : i < 16 ^ 6)
    (h : Holds out text) (hs : text.length + 76 < 10240) :
    ∃ out', row signed buffer buffer.length i out = some out' ∧
      Holds out' (text ++ (line i (bytesFrom buffer i 0) ++ ['\n'])) := by
  have hbs := length_bytesFrom_le buffer i 0
  have hoff := length_offset hi
  have hcells := length_flatMap_hexCell (bytesFrom buffer i 0)
  have hgap : [' ', ' '].length = 2 := rfl
  have hend : ['\n'].length = 1 := rfl
  obtain ⟨out₁, hout₁, h₁⟩ := sprintf_holds hoff h (by omega)
  obtain ⟨out₂, hout₂, h₂⟩ := forBytes_holds (k := 16) (o := 0) (i := i) length_hexCell
    (fun j b out text => putHex_holds) hn rfl h₁ (by rw [List.length_append, hoff]; omega)
  obtain ⟨out₃, hout₃, h₃⟩ := forBlanks_holds (k := 16 - (bytesFrom buffer i 0).length) h₂
    (by simp only [List.length_append, hoff, hcells]; omega)
  obtain ⟨out₄, hout₄, h₄⟩ := sprintf_holds hgap h₃
    (by simp only [List.length_append, hoff, hcells, List.length_replicate]; omega)
  obtain ⟨out₅, hout₅, h₅⟩ := forBytes_holds (k := 16) (o := 0) (i := i) (w := 1)
    (f := fun b => [shown b]) (fun b => rfl) (fun j b out text => putChar_holds signed) hn rfl h₄
    (by simp only [List.length_append, hoff, hcells, List.length_replicate, hgap]; omega)
  obtain ⟨out₆, hout₆, h₆⟩ := sprintf_holds hend h₅ (by
    simp only [List.length_append, hoff, hcells, List.length_replicate, hgap, ← List.map_eq_flatMap,
      List.length_map]
    omega)
  refine ⟨out₆, ?_, ?_⟩
  · rw [offset] at hout₁
    rw [row, hout₁]
    simp only [Option.bind_eq_bind, Option.bind_some, hout₂, Nat.zero_add, hout₃, hout₄, hout₅,
      hout₆]
  · simp only [line, List.append_assoc, List.map_eq_flatMap] at h₆ ⊢
    exact h₆

/-! ## All rows -/

/-- The first `r` lines. -/
def dumpLines (buffer : List UInt8) (r : ℕ) : List (List Char) :=
  (List.range r).map fun k => line (16 * k) (bytesFrom buffer (16 * k) 0)

/-- The rows of the dump, each with its newline. -/
def dumpText (buffer : List UInt8) (r : ℕ) : List Char := (dumpLines buffer r).flatMap (· ++ ['\n'])

theorem dumpText_succ (buffer : List UInt8) (r : ℕ) :
    dumpText buffer (r + 1)
      = dumpText buffer r ++ (line (16 * r) (bytesFrom buffer (16 * r) 0) ++ ['\n']) := by
  rw [dumpText, dumpText, dumpLines, dumpLines, List.range_succ, List.map_append,
    List.flatMap_append, List.map_singleton, List.flatMap_singleton]

theorem length_dumpText_le (buffer : List UInt8) {r : ℕ} (hr : 16 * r ≤ 16 ^ 6) :
    (dumpText buffer r).length ≤ 76 * r := by
  induction r with
  | zero => exact Nat.le_refl 0
  | succ r ih =>
    have hbs := length_bytesFrom_le buffer (16 * r) 0
    have hline := length_line (i := 16 * r) (by omega) hbs
    have hle := ih (by omega)
    rw [dumpText_succ, List.length_append, List.length_append, List.length_singleton, hline]
    omega

/-- From the row `r` on, the loop writes the lines that are left. -/
theorem iterate_rows (signed : Bool) (hn : 1 ≤ buffer.length) (hn' : buffer.length ≤ 1023)
    {bound r k : ℕ} (hk : r + k = buffer.length / 16 + 1) (hbound : k < bound)
    (h : Holds out (dumpText buffer r)) :
    ∃ out', Loop.iterate (rowPass signed buffer buffer.length) bound (16 * r, out)
        = some (some out') ∧
      Holds out' (dumpText buffer (buffer.length / 16 + 1)) := by
  induction k generalizing bound r out with
  | zero =>
    obtain ⟨n, rfl⟩ : ∃ n, bound = n + 1 := ⟨bound - 1, by omega⟩
    have hleave : rowPass signed buffer buffer.length (16 * r, out) = .leave (some out) :=
      if_neg (by simp only; omega)
    exact ⟨out, Loop.iterate_succ_leave hleave n, by rwa [← hk]⟩
  | succ k ih =>
    obtain ⟨n, rfl⟩ : ∃ n, bound = n + 1 := ⟨bound - 1, by omega⟩
    have hlen := length_dumpText_le buffer (r := r) (by omega)
    obtain ⟨out₁, hrow, h₁⟩ :=
      row_holds signed (i := 16 * r) hn (by omega) h (by omega)
    have hagain :
        rowPass signed buffer buffer.length (16 * r, out) = .again (16 * (r + 1), out₁) := by
      rw [rowPass, if_pos (by simp only; omega), hrow]
      rfl
    rw [← dumpText_succ] at h₁
    rw [Loop.iterate_succ_again hagain]
    exact ih (by omega) (by omega) h₁

/-! ## Reading the lines -/

theorem take_line {i : ℕ} (bs : List UInt8) (hi : i < 16 ^ 6) :
    (line i bs).take 6 = Digits.padded 16 6 i := by
  simp only [line, offset, List.append_assoc]
  exact List.take_left' (Digits.length_padded (by omega) (by omega) hi)

theorem textColumn_line {i : ℕ} {bs : List UInt8} (hi : i < 16 ^ 6) (hbs : bs.length ≤ 16) :
    textColumn (line i bs) = bs.map shown := by
  refine List.drop_left' ?_
  simp only [List.length_append, length_offset hi, length_flatMap_hexCell, List.length_replicate,
    List.length_cons, List.length_nil]
  omega

theorem take_hexCell (b : UInt8) (cs : List Char) :
    (hexCell b ++ cs).take 2 = Digits.padded 16 2 b.toNat := by
  have hb : b.toNat < 16 ^ 2 := b.toNat_lt
  rw [hexCell, List.append_assoc]
  exact List.take_left' (Digits.length_padded (by omega) (by omega) hb)

theorem decodeColumns_cells {k : ℕ} {bs : List UInt8} (hbs : bs.length ≤ k) (cs : List Char) :
    decodeColumns k (bs.flatMap hexCell ++ (List.replicate ((k - bs.length) * 3) ' ' ++ cs))
      = bs := by
  induction k generalizing bs with
  | zero => rw [List.eq_nil_of_length_eq_zero (Nat.le_zero.1 hbs), decodeColumns]
  | succ k ih =>
    cases bs with
    | nil => rfl
    | cons b bs =>
      rw [List.length_cons] at hbs
      rw [List.flatMap_cons, List.append_assoc, List.length_cons, Nat.add_sub_add_right,
        decodeColumns, take_hexCell, Digits.read_padded (by omega) (by omega),
        List.drop_left' (length_hexCell b)]
      simp only [UInt8.ofNat_toNat, ih (Nat.le_of_succ_le_succ hbs)]

theorem decodeRow_line {i : ℕ} {bs : List UInt8} (hi : i < 16 ^ 6) (hbs : bs.length ≤ 16) :
    decodeRow (line i bs) = bs := by
  have hdrop : (line i bs).drop 9 = bs.flatMap hexCell
      ++ (List.replicate ((16 - bs.length) * 3) ' ' ++ ([' ', ' '] ++ bs.map shown)) := by
    simp only [line, List.append_assoc]
    exact List.drop_left' (length_offset hi)
  rw [decodeRow, hdrop, decodeColumns_cells hbs]

/-! ## Cutting the text -/

theorem newline_notMem_padded (w n : ℕ) : '\n' ∉ Digits.padded 16 w n := by
  intro h
  have hval := Digits.isSome_value_of_read (Digits.read_padded (by omega) (by omega) w n) h
  exact absurd hval (by decide)

theorem shown_ne_newline (b : UInt8) : shown b ≠ '\n' := by
  have all : ∀ n ≤ 126, 32 ≤ n → Char.ofNat n ≠ '\n' := by decide
  rw [shown]
  split_ifs with hb
  · exact all _ hb.2 hb.1
  · decide

theorem newline_notMem_line (i : ℕ) (bs : List UInt8) : '\n' ∉ line i bs := by
  simp [line, offset, hexCell, newline_notMem_padded, shown_ne_newline, List.mem_replicate]

/-- Lines that are put together come apart again. -/
theorem splitOn_lines {ls : List (List Char)} (h : ∀ l ∈ ls, '\n' ∉ l) :
    (ls.flatMap (· ++ ['\n'])).splitOn '\n' = ls ++ [[]] := by
  induction ls with
  | nil => rfl
  | cons l ls ih =>
    rw [List.flatMap_cons, ← List.append_cons,
      List.splitOn_append_cons_self_of_not_mem (h l List.mem_cons_self),
      ih fun l' hl' => h l' (List.mem_cons_of_mem l hl')]
    rfl

/-- The rows of a buffer make up the buffer. -/
theorem flatMap_bytesFrom (buffer : List UInt8) (r : ℕ) :
    (List.range r).flatMap (fun k => bytesFrom buffer (16 * k) 0) = buffer.take (16 * r) := by
  induction r with
  | zero => rfl
  | succ r ih =>
    rw [List.range_succ, List.flatMap_append, ih, List.flatMap_singleton, Nat.mul_succ,
      List.take_add]
    rfl

theorem isDump_dumpLines (hn : buffer.length ≤ 1023) :
    IsDump buffer (dumpLines buffer (buffer.length / 16 + 1))
      (dumpText buffer (buffer.length / 16 + 1)) where
  cut := by
    refine splitOn_lines fun l hl => ?_
    obtain ⟨k, -, rfl⟩ := List.mem_map.1 hl
    exact newline_notMem_line _ _
  count := by rw [dumpLines, List.length_map, List.length_range]
  offset r hr := by
    have hr' : r < buffer.length / 16 + 1 := by simpa [dumpLines] using hr
    have hi : 16 * r < 16 ^ 6 := by omega
    simp only [dumpLines, List.getElem_map, List.getElem_range, take_line _ hi]
    exact ⟨Digits.length_padded (by omega) (by omega) hi,
      Digits.read_padded (by omega) (by omega) 6 (16 * r)⟩
  bytes := by
    have hrow : ∀ k ∈ List.range (buffer.length / 16 + 1),
        decodeRow (line (16 * k) (bytesFrom buffer (16 * k) 0)) = bytesFrom buffer (16 * k) 0 := by
      intro k hk
      rw [List.mem_range] at hk
      exact decodeRow_line (by omega) (length_bytesFrom_le _ _ _)
    rw [dumpLines, List.flatMap_map, List.flatMap_def, List.map_congr_left hrow, ← List.flatMap_def,
      flatMap_bytesFrom]
    exact List.take_of_length_le (by omega)
  chars l hl := by
    obtain ⟨k, hk, rfl⟩ := List.mem_map.1 hl
    rw [List.mem_range] at hk
    have hbs := length_bytesFrom_le buffer (16 * k) 0
    rw [decodeRow_line (by omega) hbs, textColumn_line (by omega) hbs]

/-- For every number of bytes that `recv` can deliver, nothing is read behind them and nothing is
written outside of `buf`, and what is sent is a dump of the bytes. -/
theorem hexdump_faithful (signed : Bool) (buf : Buf) (hn : 1 ≤ buffer.length)
    (hn' : buffer.length ≤ 1023) {bound : ℕ} (hbound : buffer.length / 16 + 1 < bound) :
    ∃ text lines, hexdump signed bound buffer buffer.length buf = some (some text) ∧
      IsDump buffer lines text := by
  have h0 : Holds ⟨buf, 0⟩ (dumpText buffer 0) := ⟨List.nil_prefix, rfl⟩
  obtain ⟨out, hout, h⟩ := iterate_rows signed (r := 0) hn hn' (Nat.zero_add _) hbound h0
  refine ⟨_, _, ?_, isDump_dumpLines hn'⟩
  have hindex : out.index ≤ 10240 := by
    have := h.written.length_le
    rw [h.index_eq, ← out.buf.2]
    exact this
  rw [hexdump, hout, Option.map_some, Option.bind_some, Out.write, if_pos hindex, h.take_index]

/-- Two bytes, one of which is not printable. -/
theorem hexdump_faithful_one : ∃ text lines,
    hexdump true 3 [65, 200] 2 ⟨List.replicate 10240 'x', List.length_replicate⟩
      = some (some text) ∧
      IsDump [65, 200] lines text :=
  hexdump_faithful true _ (by decide) (by decide) (by decide)

end Sem3.Poll
