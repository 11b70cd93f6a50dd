import Sem3.Memory.Proofs.CallProofs

/-!
# Proofs: the books of the allocator

A split takes a whole number of blocks, and a merge is only made if its result is a whole number of
blocks. So an odd size can only be that of the last block.
-/

namespace Sem3.Memory

variable {m m' : Mem} {base : ℕ}

/-- What is rounded up is a multiple of the block size. -/
theorem dvd_roundUp (blocksize n : ℕ) : blocksize ∣ roundUp blocksize n := by
  unfold roundUp
  split_ifs
  · exact Nat.dvd_add (dvd_mul_left _ _) dvd_rfl
  · exact dvd_mul_left _ _

/-- `roundUp` is the least multiple that is large enough. -/
theorem roundUp_le {blocksize n k : ℕ} (h : n ≤ k) (hdvd : blocksize ∣ k) :
    roundUp blocksize n ≤ k := by
  obtain ⟨q, rfl⟩ := hdvd
  have hle := Nat.div_mul_le_self n blocksize
  unfold roundUp
  split_ifs with hlt
  · have hq : n / blocksize < q := by
      apply Nat.lt_of_mul_lt_mul_right (a := blocksize)
      rw [Nat.mul_comm q]
      omega
    rw [← Nat.succ_mul, Nat.mul_comm blocksize]
    exact Nat.mul_le_mul_right _ hq
  · omega

/-! ## One block -/

/-- What the books say about a block by itself. -/
def Memblock.Booked (blocksize : ℕ) (b : Memblock) : Prop :=
  (b.status = .free_ → b.inUse = 0 ∧ 1 ≤ b.len) ∧
    (b.status = .used → 1 ≤ b.inUse.toNat ∧ b.len = roundUp blocksize b.inUse.toNat)

theorem Memblock.Booked.pos {blocksize : ℕ} {b : Memblock} (h : b.Booked blocksize)
    (hbs : 0 < blocksize) : 0 < b.len := by
  cases hs : b.status with
  | free_ => exact (h.1 hs).2
  | used =>
    obtain ⟨hpos, hlen⟩ := h.2 hs
    have hle := le_roundUp blocksize b.inUse.toNat hbs
    omega

theorem booked_free {blocksize : ℕ} {b : Memblock} (hpos : 0 < b.len) (addr : ℕ) :
    Memblock.Booked blocksize ⟨.free_, addr, b.size, 0⟩ := by
  refine ⟨fun _ => ⟨rfl, hpos⟩, ?_⟩
  intro h
  cases h

/-- The books, apart from the total. -/
structure Booked (blocksize : ℕ) (l : List Memblock) : Prop where
  block : ∀ b ∈ l, b.Booked blocksize
  multiple : ∀ b ∈ l.dropLast, blocksize ∣ b.len

/-- Booked blocks that make up the memory are accounted for. -/
theorem Booked.accounting {blocksize : ℕ} {l : List Memblock} (h : Booked blocksize l)
    {size : ℕ} (htotal : total l = size) : Accounting size blocksize l where
  total := htotal
  free b hb := (h.block b hb).1
  used b hb := (h.block b hb).2
  multiple := h.multiple

/-! ## `mem_alloc` -/

/-- An allocation that splits a block keeps the blocks booked. -/
theorem Split.booked {size : UInt32} (h : Split m size m')
    (hB : Booked m.blocksize.toNat m.list) : Booked m'.blocksize.toNat m'.list := by
  obtain ⟨pre, current, post, taken, left, hl, -, hpos, htaken, hlen, rfl⟩ := h
  have hblock := hB.block
  have hmult := hB.multiple
  rw [hl] at hblock hmult
  have hdvd : m.blocksize.toNat ∣ taken.toNat := htaken ▸ dvd_roundUp _ _
  have hused : Memblock.Booked m.blocksize.toNat ⟨.used, current.addr, taken, size⟩ := by
    refine ⟨fun h => ?_, fun _ => ⟨hpos, htaken⟩⟩
    cases h
  constructor
  · intro b hb
    simp only [List.mem_append, List.mem_cons] at hb
    rcases hb with (hb | rfl | hb) | hb
    · exact hblock b (by simp [hb])
    · exact hused
    · by_cases hz : left = 0
      · exact absurd hb (by simp [hz])
      · rw [if_neg hz, List.mem_singleton] at hb
        subst hb
        refine ⟨fun _ => ⟨rfl, (toNat_pos_iff left).2 hz⟩, ?_⟩
        intro h
        cases h
    · exact hblock b (by simp [hb])
  · rw [List.dropLast_append_cons] at hmult
    cases post with
    | nil =>
      intro b hb
      rw [List.append_nil, List.dropLast_append_cons] at hb
      rcases List.mem_append.1 hb with hb | hb
      · exact hmult b (by simp [hb])
      · have hbt : b = ⟨.used, current.addr, taken, size⟩ := by
          by_cases hz : left = 0
          · simp [hz] at hb
          · simpa [hz] using hb
        rw [hbt]
        exact hdvd
    | cons c post =>
      -- `current` is not the last block, so what is left of it is a multiple as well
      have hcur : m.blocksize.toNat ∣ current.len := hmult current (by simp)
      have hleft : m.blocksize.toNat ∣ left.toNat := by
        rw [← hlen] at hcur
        exact (Nat.dvd_add_right hdvd).1 hcur
      intro b hb
      rw [List.dropLast_append_cons] at hb
      simp only [List.mem_append, List.mem_cons] at hb
      rcases hb with (hb | rfl | hb) | hb
      · exact hmult b (by simp [hb])
      · exact hdvd
      · by_cases hz : left = 0
        · exact absurd hb (by simp [hz])
        · rw [if_neg hz, List.mem_singleton] at hb
          subst hb
          exact hleft
      · exact hmult b (by simp [hb])

/-! ## `mem_remove` -/

theorem markFree_booked {blocksize addr : ℕ} {l l' : List Memblock} (hbs : 0 < blocksize)
    (h : markFree addr l = some l') (hB : Booked blocksize l) : Booked blocksize l' := by
  obtain ⟨pre, x, post, rfl, -, -, rfl⟩ := markFree_eq_some h
  have hblock := hB.block
  have hmult := hB.multiple
  constructor
  · intro b hb
    simp only [List.mem_append, List.mem_cons] at hb
    rcases hb with hb | rfl | hb
    · exact hblock b (by simp [hb])
    · exact booked_free ((hblock x (by simp)).pos hbs) x.addr
    · exact hblock b (by simp [hb])
  · rw [List.dropLast_append_cons] at hmult ⊢
    intro b hb
    cases post with
    | nil => exact hmult b (by simpa using hb)
    | cons c post =>
      simp only [List.dropLast_cons_cons, List.mem_append, List.mem_cons] at hb hmult
      rcases hb with hb | rfl | hb
      · exact hmult b (.inl hb)
      · exact hmult x (.inr (.inl rfl))
      · exact hmult b (.inr (.inr hb))

/-- The node that is left of two that are merged. -/
def merged (second first : Memblock) : Memblock :=
  { first with size := (first.size + second.size).toInt32.toUInt32 }

theorem mergeFree_cons (blocksize : UInt32) (second first : Memblock) (rest : List Memblock) :
    mergeFree blocksize second (first :: rest) =
      if mergeable blocksize second first then mergeFree blocksize (merged second first) rest
      else second :: mergeFree blocksize first rest := rfl

theorem merged_len {second first : Memblock} (h : first.len + second.len < 2 ^ 31) :
    (merged second first).len = first.len + second.len := by
  show (first.size + second.size).toNat = _
  exact toNat_add_of_lt (by show first.len + second.len < _; omega)

/-- Two blocks are merged if both are free and the block size divides their lengths together. -/
theorem mergeable_iff {blocksize : UInt32} {second first : Memblock}
    (h : first.len + second.len < 2 ^ 31) :
    mergeable blocksize second first ↔
      first.status = .free_ ∧ second.status = .free_ ∧
        blocksize.toNat ∣ first.len + second.len := by
  have hlen := merged_len h
  have hmod : (first.size + second.size).toInt32.toUInt32 % blocksize = 0 ↔
      blocksize.toNat ∣ first.len + second.len := by
    rw [← hlen, ← UInt32.toNat_inj, UInt32.toNat_mod, UInt32.toNat_zero, Nat.dvd_iff_mod_eq_zero]
    rfl
  rw [mergeable, hmod]

theorem total_cons_cons (a b : Memblock) (l : List Memblock) :
    total (a :: b :: l) = a.len + (b.len + total l) := by
  simp [total]

theorem total_merged {second first : Memblock} {rest : List Memblock}
    (h : total (second :: first :: rest) < 2 ^ 31) :
    first.len + second.len < 2 ^ 31 ∧
      total (merged second first :: rest) = total (second :: first :: rest) := by
  rw [total_cons_cons] at h ⊢
  have hlen : first.len + second.len < 2 ^ 31 := by omega
  refine ⟨hlen, ?_⟩
  simp only [total, List.map_cons, List.sum_cons, merged_len hlen]
  omega

/-- A merged node fits into the books as `first` did. -/
theorem Booked.merge {blocksize : UInt32} {second first : Memblock} {rest : List Memblock}
    (hB : Booked blocksize.toNat (second :: first :: rest))
    (hlt : total (second :: first :: rest) < 2 ^ 31) (hm : mergeable blocksize second first) :
    Booked blocksize.toNat (merged second first :: rest) := by
  have hlen := (total_merged hlt).1
  obtain ⟨hfirst, -, hdvd⟩ := (mergeable_iff hlen).1 hm
  obtain ⟨huse, hpos⟩ := (hB.block first (by simp)).1 hfirst
  constructor
  · intro b hb
    rcases List.mem_cons.1 hb with rfl | hb
    · refine ⟨fun _ => ⟨huse, ?_⟩, ?_⟩
      · rw [merged_len hlen]
        omega
      · intro h
        rw [merged, hfirst] at h
        cases h
    · exact hB.block b (by simp [hb])
  · intro b hb
    cases rest with
    | nil => simp at hb
    | cons c rest =>
      rw [List.dropLast_cons_cons, List.mem_cons] at hb
      rcases hb with rfl | hb
      · rw [merged_len hlen]
        exact hdvd
      · exact hB.multiple b (by simp [hb])

theorem Booked.tail {blocksize : ℕ} {a b : Memblock} {l : List Memblock}
    (hB : Booked blocksize (a :: b :: l)) : Booked blocksize (b :: l) := by
  refine ⟨fun c hc => hB.block c (List.mem_cons_of_mem a hc), ?_⟩
  intro c hc
  apply hB.multiple
  rw [List.dropLast_cons_cons]
  exact List.mem_cons_of_mem a hc

theorem mergeFree_booked (blocksize : UInt32) (rest : List Memblock) :
    ∀ second, total (second :: rest) < 2 ^ 31 → Booked blocksize.toNat (second :: rest) →
      Booked blocksize.toNat (mergeFree blocksize second rest) := by
  induction rest with
  | nil =>
    intro second _ hB
    exact hB
  | cons first rest ih =>
    intro second hlt hB
    rw [mergeFree_cons]
    split_ifs with hm
    · apply ih _ _ (hB.merge hlt hm)
      rw [(total_merged hlt).2]
      exact hlt
    · have hrest := ih first (by rw [total_cons_cons] at hlt; simp [total] at hlt ⊢; omega) hB.tail
      obtain ⟨d, ds, hd⟩ := List.exists_cons_of_ne_nil (mergeFree_ne_nil blocksize rest first)
      rw [hd] at hrest ⊢
      constructor
      · intro b hb
        rcases List.mem_cons.1 hb with rfl | hb
        · exact hB.block b (by simp)
        · exact hrest.block b hb
      · intro b hb
        rw [List.dropLast_cons_cons, List.mem_cons] at hb
        rcases hb with rfl | hb
        · exact hB.multiple b (by simp)
        · exact hrest.multiple b hb

/-! ## Runs -/

theorem memInit_booked {size blocksize : UInt32} (hsize : 1 ≤ size.toNat) (strategy : MemAlgo)
    (base : ℕ) : Booked blocksize.toNat (memInit size blocksize strategy base).list := by
  constructor
  · intro b hb
    rw [memInit, addMemblockFront, List.mem_singleton] at hb
    subst hb
    exact booked_free (b := ⟨.free_, base, size, 0⟩) hsize base
  · intro b hb
    cases hb

theorem total_markFree {addr : ℕ} {l l' : List Memblock} (h : markFree addr l = some l') :
    total l' = total l := by
  obtain ⟨pre, x, post, rfl, -, -, rfl⟩ := markFree_eq_some h
  simp only [total, List.map_append, List.map_cons]
  rfl

/-- A call changes neither the size of the memory nor the block size. -/
theorem exec_const (hI : Inv m) {op : Op} (h : exec m op = some m') :
    m'.size = m.size ∧ m'.blocksize = m.blocksize := by
  cases op with
  | alloc size arena =>
    rcases memAlloc_cases hI h with rfl | ⟨pre, current, post, taken, left, -, -, -, -, -, rfl⟩ <;>
      exact ⟨rfl, rfl⟩
  | remove index =>
    rw [← Option.some.inj h]
    rcases memRemove_cases m index with heq | ⟨elem, first, rest, -, -, heq⟩ <;>
      · rw [heq]
        exact ⟨rfl, rfl⟩

theorem exec_booked (hI : Inv m) (hB : Booked m.blocksize.toNat m.list) {op : Op}
    (h : exec m op = some m') : Booked m'.blocksize.toNat m'.list := by
  cases op with
  | alloc size arena =>
    rcases memAlloc_cases hI h with rfl | hsplit
    · exact hB
    · exact hsplit.booked hB
  | remove index =>
    rw [← Option.some.inj h]
    rcases memRemove_cases m index with heq | ⟨elem, first, rest, -, hmark, heq⟩
    · rw [heq]
      exact hB
    · rw [heq]
      apply mergeFree_booked _ _ _ _ (markFree_booked hI.blocksize_pos hmark hB)
      have hbound := hI.bound
      rw [total_markFree hmark, total, hI.total]
      omega

/-- What holds in every state of a run from `mem_init`. -/
structure Kept (size blocksize : UInt32) (m : Mem) : Prop where
  inv : Inv m
  size_eq : m.size = size
  blocksize_eq : m.blocksize = blocksize
  booked : Booked blocksize.toNat m.list

variable {size blocksize : UInt32}

theorem memInit_kept (hsize : 1 ≤ size.toNat) (hbs : 1 ≤ blocksize.toNat)
    (hsz : size.toNat + blocksize.toNat < 2 ^ 31) (strategy : MemAlgo) (base : ℕ) :
    Kept size blocksize (memInit size blocksize strategy base) :=
  ⟨memInit_inv hbs hsz strategy, rfl, rfl, memInit_booked hsize strategy base⟩

theorem Kept.exec (h : Kept size blocksize m) {op : Op} (hexec : exec m op = some m') :
    Kept size blocksize m' := by
  obtain ⟨hI, rfl, rfl, hB⟩ := h
  obtain ⟨hsize, hblocksize⟩ := exec_const hI hexec
  exact ⟨exec_inv hI hexec, hsize, hblocksize, hblocksize ▸ exec_booked hI hB hexec⟩

/-- A run of calls keeps the invariant. -/
theorem Kept.run (h : Kept size blocksize m) (ops : List Op) (hrun : run m ops = some m') :
    Kept size blocksize m' := by
  rw [run_eq_foldlM] at hrun
  exact Run.foldlM_invariant hrun h fun _ _ _ _ hI => hI.exec

/-- Whatever calls are made, as long as none dereferences `NULL` the books are right. -/
theorem accounting_of_run (strategy : MemAlgo) (base : ℕ) (hsize : 1 ≤ size.toNat)
    (hbs : 1 ≤ blocksize.toNat) (hsz : size.toNat + blocksize.toNat < 2 ^ 31) (ops : List Op)
    (hrun : Memory.run (memInit size blocksize strategy base) ops = some m) :
    Accounting size.toNat blocksize.toNat m.list := by
  have h := (memInit_kept hsize hbs hsz strategy base).run ops hrun
  exact h.booked.accounting (h.size_eq ▸ h.inv.total)

/-- A run that ends with a free block, a used one and an odd last block. -/
theorem accounting_of_run_odd_tail :
    Accounting 14000 4096
      [⟨.free_, 1000, 4096, 0⟩, ⟨.used, 5096, 8192, 4097⟩, ⟨.free_, 13288, 1712, 0⟩] := by
  have hrun : Memory.run (memInit 14000 4096 .first 1000) [.alloc 100 0, .alloc 4097 0, .remove 1] =
      some ⟨4096, 14000, .first,
        [⟨.free_, 1000, 4096, 0⟩, ⟨.used, 5096, 8192, 4097⟩, ⟨.free_, 13288, 1712, 0⟩]⟩ := by
    decide
  exact accounting_of_run .first 1000 (by decide) (by decide) (by decide) _ hrun

end Sem3.Memory
