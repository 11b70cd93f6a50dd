import Sem3.Memory.Proofs.ArithProofs
import Sem3.Util.Run

/-!
# Proofs: what a call of the allocator does

`memAlloc_cases` and `memRemove_cases` say once what a call can do to the block list. From them, a
call keeps the invariant `Inv`.
-/

namespace Sem3.Memory

variable {m m' : Mem} {base : ℕ}

/-- The total number of bytes of a list of blocks. -/
abbrev total (l : List Memblock) : ℕ := (l.map Memblock.len).sum

/-! ## `mem_alloc` -/

/-- `FIRST` leaves the list as it is, or splits a free block that is large enough. -/
theorem firstFit_cases (blocksize size : UInt32) (blocks : Int32) (l : List Memblock) :
    firstFit blocksize size blocks l = l ∨
    ∃ pre current post, l = pre ++ current :: post ∧ current.status = .free_ ∧
      blocks.toUInt32 ≤ current.size ∧
      firstFit blocksize size blocks l = pre ++ addMemblock blocksize size current ++ post := by
  induction l with
  | nil => exact Or.inl rfl
  | cons temp rest ih =>
    unfold firstFit
    by_cases hfit : temp.status = .free_ ∧ temp.size ≥ blocks.toUInt32 ∧ temp.inUse ≤ blocks.toUInt32
    · rw [if_pos hfit]
      exact Or.inr ⟨[], temp, rest, rfl, hfit.1, hfit.2.1, rfl⟩
    · rw [if_neg hfit]
      rcases ih with heq | ⟨pre, current, post, hl, hfree, hle, heq⟩
      · exact Or.inl (by rw [heq])
      · exact Or.inr ⟨temp :: pre, current, post, by rw [hl]; rfl, hfree, hle, by rw [heq]; rfl⟩

/-- `WORST` stays with its choice so far, or takes a free block that is large enough. -/
theorem worstFit_cases (size : UInt32) (blocks : Int32) (l : List Memblock) :
    ∀ (i : ℕ) (blend : Int32) (worstElem : Option ℕ) (j : ℕ),
      worstFit size blocks l i blend worstElem = some j →
      worstElem = some j ∨
      ∃ pre current post, l = pre ++ current :: post ∧ j = i + pre.length ∧
        current.status = .free_ ∧ blocks.toUInt32 ≤ current.size := by
  induction l with
  | nil => intro i blend worstElem j h; exact Or.inl h
  | cons temp rest ih =>
    intro i blend worstElem j h
    unfold worstFit at h
    by_cases hfit : temp.status = .free_ ∧ temp.size ≥ blocks.toUInt32 ∧
        temp.size - size > blend.toUInt32
    · rw [if_pos hfit] at h
      rcases ih _ _ _ _ h with heq | ⟨pre, current, post, hl, hj, hfree, hle⟩
      · have hij : i = j := Option.some.inj heq
        exact Or.inr ⟨[], temp, rest, rfl, by simp [hij], hfit.1, hfit.2.1⟩
      · exact Or.inr ⟨temp :: pre, current, post, by rw [hl]; rfl, by simp; omega, hfree, hle⟩
    · rw [if_neg hfit] at h
      rcases ih _ _ _ _ h with heq | ⟨pre, current, post, hl, hj, hfree, hle⟩
      · exact Or.inl heq
      · exact Or.inr ⟨temp :: pre, current, post, by rw [hl]; rfl, by simp; omega, hfree, hle⟩

theorem Inv.len_lt (hI : Inv m) {pre post : List Memblock} {b : Memblock}
    (hl : m.list = pre ++ b :: post) : b.len < 2 ^ 31 := by
  have htotal := hI.total
  have hbound := hI.bound
  rw [hl, List.map_append, List.map_cons, List.sum_append, List.sum_cons] at htotal
  omega

/-- A call of `mem_alloc` that is served: a free block is split into the part that is taken and, if
it is not empty, the part that is left. -/
def Split (m : Mem) (size : UInt32) (m' : Mem) : Prop :=
  ∃ pre current post, ∃ taken left : UInt32,
    m.list = pre ++ current :: post ∧ current.status = .free_ ∧ 0 < size.toNat ∧
    taken.toNat = roundUp m.blocksize.toNat size.toNat ∧
    taken.toNat + left.toNat = current.len ∧
    m' = { m with
      list := pre ++ ({ status := .used, addr := current.addr, size := taken, inUse := size } ::
        if left = 0 then [] else
          [{ status := .free_, addr := current.addr + taken.toNat, size := left, inUse := 0 }])
        ++ post }

/-- `mem_alloc` changes nothing, or splits a block. -/
theorem memAlloc_cases (hI : Inv m) {size : UInt32} {arena : ℕ}
    (h : memAlloc m size arena = some m') : m' = m ∨ Split m size m' := by
  unfold memAlloc at h
  by_cases hsz : size = 0 ∨ size > m.size
  · rw [if_pos hsz] at h
    exact Or.inl (Option.some.inj h).symm
  rw [if_neg hsz, if_neg hI.ne_nil] at h
  obtain ⟨hne, hle⟩ := not_or.1 hsz
  have hpos := (toNat_pos_iff size).2 hne
  rw [gt_iff_lt, UInt32.lt_iff_toNat_lt, not_lt] at hle
  have hsum : size.toNat + m.blocksize.toNat < 2 ^ 31 := by have := hI.bound; omega
  -- both strategies end in `add_memblock` on a free block that is large enough
  have hsplit : ∀ pre current post, m.list = pre ++ current :: post → current.status = .free_ →
      (blocksFor m.blocksize size).toUInt32 ≤ current.size →
      m' = { m with list := pre ++ addMemblock m.blocksize size current ++ post } →
      Split m size m' := by
    intro pre current post hl hfree hfit hm'
    rw [blocksFor_eq, UInt32.le_iff_toNat_le, rounded_toNat _ _ (by omega)] at hfit
    obtain ⟨taken, left, htaken, hsplit, heq⟩ := addMemblock_spec hsum (hI.len_lt hl) hfit
    rw [heq] at hm'
    exact ⟨pre, current, post, taken, left, hl, hfree, hpos, htaken, hsplit, hm'⟩
  have hfirst : m' = { m with
        list := firstFit m.blocksize size (blocksFor m.blocksize size) m.list } →
      m' = m ∨ Split m size m' := by
    intro hm'
    rcases firstFit_cases m.blocksize size (blocksFor m.blocksize size) m.list with
      heq | ⟨pre, current, post, hl, hfree, hfit, heq⟩
    · exact Or.inl (by rw [hm', heq])
    · exact Or.inr (hsplit pre current post hl hfree hfit (by rw [hm', heq]))
  cases hs : m.strategy with
  | none => rw [hs] at h; exact hfirst (by rw [hs]; exact (Option.some.inj h).symm)
  | first => rw [hs] at h; exact hfirst (by rw [hs]; exact (Option.some.inj h).symm)
  | worst =>
    rw [hs] at h
    simp only [Option.bind_eq_bind, Option.bind_eq_some_iff] at h
    obtain ⟨i, hi, current, hcur, hm'⟩ := h
    rcases worstFit_cases _ _ _ _ _ _ _ hi with hno | ⟨pre, current', post, hl, hij, hfree, hfit⟩
    · exact absurd hno (by simp)
    · rw [Nat.zero_add] at hij
      subst hij
      have hcc : current' = current := by simpa [hl] using hcur
      subst hcc
      refine Or.inr (hsplit pre current' post hl hfree hfit ?_)
      rw [← Option.some.inj hm']
      simp [hl, hs]

/-! ## `mem_remove` -/

/-- `markFree` marks the first block at the address. -/
theorem markFree_eq_some {addr : ℕ} {l l' : List Memblock} (h : markFree addr l = some l') :
    ∃ pre x post, l = pre ++ x :: post ∧ (∀ c ∈ pre, c.addr ≠ addr) ∧ x.addr = addr ∧
      l' = pre ++ { x with inUse := 0, status := .free_ } :: post := by
  induction l generalizing l' with
  | nil => cases h
  | cons elem rest ih =>
    unfold markFree at h
    by_cases ha : elem.addr = addr
    · rw [if_pos ha] at h
      exact ⟨[], elem, rest, rfl, by simp, ha, (Option.some.inj h).symm⟩
    · rw [if_neg ha] at h
      obtain ⟨l'', hl'', rfl⟩ := Option.map_eq_some_iff.1 h
      obtain ⟨pre, x, post, rfl, hpre, hx, rfl⟩ := ih hl''
      exact ⟨elem :: pre, x, post, rfl, by simpa [ha] using hpre, hx, rfl⟩

/-- `markFree` changes neither the addresses nor the sizes of the blocks. -/
theorem markFree_map {addr : ℕ} {l l' : List Memblock} (h : markFree addr l = some l') :
    l'.map (fun b => (b.addr, b.size)) = l.map fun b => (b.addr, b.size) := by
  induction l generalizing l' with
  | nil => exact absurd h (by simp [markFree])
  | cons elem rest ih =>
    unfold markFree at h
    by_cases ha : elem.addr = addr
    · rw [if_pos ha] at h
      rw [← Option.some.inj h]
      rfl
    · rw [if_neg ha] at h
      obtain ⟨l'', hl'', rfl⟩ := Option.map_eq_some_iff.1 h
      rw [List.map_cons, List.map_cons, ih hl'']

/-- `mem_remove` leaves the list alone, or marks a block free and merges. -/
theorem memRemove_cases (m : Mem) (index : UInt32) :
    memRemove m index = m ∨
    ∃ elem first rest, listNth index.toNat 1 m.list = some elem ∧
      markFree elem.addr m.list = some (first :: rest) ∧
      memRemove m index = { m with list := mergeFree m.blocksize first rest } := by
  unfold memRemove
  cases hn : listNth index.toNat 1 m.list with
  | none => exact Or.inl rfl
  | some elem =>
    unfold memFree
    cases hm : markFree elem.addr m.list with
    | none => exact Or.inl (by simp only [hm])
    | some l =>
      cases l with
      | nil => exact Or.inl (by simp only [hm])
      | cons first rest => exact Or.inr ⟨elem, first, rest, rfl, hm, by simp only [hm]⟩

theorem mergeFree_length_le (blocksize : UInt32) (rest : List Memblock) :
    ∀ second, (mergeFree blocksize second rest).length ≤ rest.length + 1 := by
  induction rest with
  | nil => intro second; exact le_rfl
  | cons first rest ih =>
    intro second
    unfold mergeFree
    split_ifs
    · have := ih { first with size := (first.size + second.size).toInt32.toUInt32 }
      rw [List.length_cons]
      omega
    · have := ih first
      rw [List.length_cons, List.length_cons]
      omega

theorem mergeFree_ne_nil (blocksize : UInt32) (rest : List Memblock) :
    ∀ second, mergeFree blocksize second rest ≠ [] := by
  induction rest with
  | nil => intro second; exact List.cons_ne_nil _ _
  | cons first rest ih =>
    intro second
    unfold mergeFree
    split_ifs
    · exact ih _
    · exact List.cons_ne_nil _ _

/-- Merging keeps the total size, and no block becomes empty. -/
theorem mergeFree_total (blocksize : UInt32) (rest : List Memblock) :
    ∀ second, total (second :: rest) < 2 ^ 31 →
      total (mergeFree blocksize second rest) = total (second :: rest) ∧
      ((∀ b ∈ second :: rest, 0 < b.len) → ∀ b ∈ mergeFree blocksize second rest, 0 < b.len) := by
  induction rest with
  | nil => intro second _; exact ⟨rfl, id⟩
  | cons first rest ih =>
    intro second hlt
    simp only [total, List.map_cons, List.sum_cons] at hlt ih ⊢
    unfold mergeFree
    by_cases hm : mergeable blocksize second first
    · rw [if_pos hm]
      set merged := { first with size := (first.size + second.size).toInt32.toUInt32 } with hmerged
      have hlen : merged.len = first.len + second.len := by
        show (first.size + second.size).toNat = _
        exact toNat_add_of_lt (by show first.len + second.len < _; omega)
      obtain ⟨h1, h2⟩ := ih merged (by omega)
      refine ⟨by omega, fun hpos => h2 fun b hb => ?_⟩
      rcases List.mem_cons.1 hb with rfl | hb
      · have := hpos first (by simp)
        omega
      · exact hpos b (by simp [hb])
    · rw [if_neg hm]
      obtain ⟨h1, h2⟩ := ih first (by omega)
      refine ⟨by rw [List.map_cons, List.sum_cons]; omega, fun hpos b hb => ?_⟩
      rcases List.mem_cons.1 hb with rfl | hb
      · exact hpos b (by simp)
      · exact h2 (fun c hc => hpos c (List.mem_cons_of_mem _ hc)) b hb

/-! ## The invariant -/

/-- The invariant holds behind `mem_init`. -/
theorem memInit_inv {size blocksize : UInt32} (hbs : 1 ≤ blocksize.toNat)
    (hsz : size.toNat + blocksize.toNat < 2 ^ 31) (strategy : MemAlgo) :
    Inv (memInit size blocksize strategy base) where
  blocksize_pos := hbs
  bound := hsz
  total := by simp [memInit, addMemblockFront]
  ne_nil := List.cons_ne_nil _ _
  pos := fun h => absurd h (by simp [memInit, addMemblockFront])

/-- `mem_alloc` keeps the invariant. -/
theorem memAlloc_inv (hI : Inv m) {size : UInt32} {arena : ℕ}
    (h : memAlloc m size arena = some m') : Inv m' := by
  rcases memAlloc_cases hI h with rfl | ⟨pre, current, post, taken, left, hl, -, hpos, htaken, hlen, rfl⟩
  · exact hI
  have htotal := hI.total
  rw [hl, List.map_append, List.map_cons, List.sum_append, List.sum_cons] at htotal
  have htpos : 0 < taken.toNat := by
    have := le_roundUp m.blocksize.toNat size.toNat hI.blocksize_pos
    omega
  have hleft : left = 0 → left.toNat = 0 := by rintro rfl; rfl
  refine ⟨hI.blocksize_pos, hI.bound, ?_, by simp, ?_⟩
  · show total _ = m.size.toNat
    by_cases hz : left = 0
    · have := hleft hz
      simp only [total, hz, if_true, List.map_append, List.map_cons, List.map_nil, List.sum_append,
        List.sum_cons, List.sum_nil, Memblock.len_mk]
      omega
    · simp only [total, hz, if_false, List.map_append, List.map_cons, List.map_nil, List.sum_append,
        List.sum_cons, List.sum_nil, Memblock.len_mk]
      omega
  · -- the blocks that are kept are not empty, unless `current` was the only one
    have hkeep : ∀ b ∈ pre ++ post, 0 < b.len := by
      intro b hb
      refine hI.pos ?_ b ?_
      · have := List.length_pos_of_mem hb
        rw [hl]
        simp at this ⊢
        omega
      · rw [hl]
        simp at hb ⊢
        grind
    intro _ b hb
    simp only [List.mem_append, List.mem_cons] at hb
    rcases hb with (hb | rfl | hb) | hb
    · exact hkeep b (by simp [hb])
    · exact htpos
    · by_cases hz : left = 0
      · exact absurd hb (by simp [hz])
      · rw [if_neg hz, List.mem_singleton] at hb
        subst hb
        exact (toNat_pos_iff left).2 hz
    · exact hkeep b (by simp [hb])

/-- `mem_remove` keeps the invariant. -/
theorem memRemove_inv (hI : Inv m) (index : UInt32) : Inv (memRemove m index) := by
  rcases memRemove_cases m index with heq | ⟨elem, first, rest, -, hmark, heq⟩
  · rw [heq]; exact hI
  have hmap := markFree_map hmark
  have hlens : (first :: rest).map Memblock.len = m.list.map Memblock.len := by
    have := congrArg (List.map fun p : ℕ × UInt32 => p.2.toNat) hmap
    rwa [List.map_map, List.map_map] at this
  have hlength : (first :: rest).length = m.list.length := by
    simpa using congrArg List.length hlens
  have htotal : total (first :: rest) = m.size.toNat := by
    rw [← hI.total, total, hlens]
  have hbound := hI.bound
  obtain ⟨h1, h2⟩ := mergeFree_total m.blocksize rest first (by omega)
  rw [heq]
  refine ⟨hI.blocksize_pos, hI.bound, h1.trans htotal, mergeFree_ne_nil _ _ _, fun hlen => h2 ?_⟩
  have hle := mergeFree_length_le m.blocksize rest first
  have hpos := hI.pos (by rw [← hlength]; simp at hlen ⊢; omega)
  intro b hb
  have : b.len ∈ m.list.map Memblock.len := by
    rw [← hlens]
    exact List.mem_map_of_mem hb
  obtain ⟨c, hc, hcb⟩ := List.mem_map.1 this
  rw [← hcb]
  exact hpos c hc

/-- A call keeps the invariant. -/
theorem exec_inv (hI : Inv m) {op : Op} (h : exec m op = some m') : Inv m' := by
  cases op with
  | alloc size arena => exact memAlloc_inv hI h
  | remove index =>
    rw [← Option.some.inj h]
    exact memRemove_inv hI index

theorem run_eq_foldlM (m : Mem) (ops : List Op) : run m ops = ops.foldlM exec m := by
  induction ops generalizing m with
  | nil => rfl
  | cons op ops ih =>
    rw [run, List.foldlM_cons]
    exact congrArg _ (funext ih)

end Sem3.Memory
