import Sem3.Memory.Proofs.CallProofs

/-!
# Proofs: the layout of the arena

Splitting a block keeps the layout. Merging keeps the later of two nodes with its address and the
sizes of both, so the merged block starts too late: a call destroys the layout exactly when it
merges.
-/

namespace Sem3.Memory

open Tiling

variable {m m' : Mem} {base lo hi : ℕ}

/-- Blocks that tile an interval tile the whole memory. -/
theorem Inv.layout_of_tiles (hI : Inv m) (hi : ℕ)
    (h : Tiles Memblock.addr Memblock.len base m.list hi) : Layout base m := by
  refine ⟨⟨hi, h⟩, h.pairwise, fun b hb => ?_⟩
  have hle := (h.mem_bounds hb).2
  have hhi := h.hi_eq
  rw [hI.total] at hhi
  omega

theorem memInit_layout {size blocksize : UInt32} (hbs : 1 ≤ blocksize.toNat)
    (hsz : size.toNat + blocksize.toNat < 2 ^ 31) (strategy : MemAlgo) (base : ℕ) :
    Layout base (memInit size blocksize strategy base) := by
  apply (memInit_inv hbs hsz strategy).layout_of_tiles (base + size.toNat)
  exact ⟨rfl, rfl⟩

/-- An allocation that splits a block keeps the layout. -/
theorem Split.layout {size : UInt32} (hI' : Inv m') (hL : Layout base m) (h : Split m size m') :
    Layout base m' := by
  obtain ⟨pre, current, post, taken, left, hl, -, -, -, hlen, rfl⟩ := h
  obtain ⟨hi, ht⟩ := hL.tiles
  rw [hl] at ht
  obtain ⟨mid, hpre, hcur, hpost⟩ := tiles_append.1 ht
  apply hI'.layout_of_tiles hi
  refine tiles_append.2 ⟨mid + current.len, tiles_append.2 ⟨mid, hpre, hcur, ?_⟩, hpost⟩
  by_cases hz : left = 0
  · subst hz
    rw [if_pos rfl, tiles_nil, Memblock.len_mk]
    rw [UInt32.toNat_zero] at hlen
    omega
  · rw [if_neg hz, tiles_cons, tiles_nil, Memblock.len_mk, Memblock.len_mk]
    refine ⟨by rw [hcur], by omega⟩

/-! ## Merging -/

/-- If no two neighbours can be merged, the merge loop changes nothing. -/
theorem mergeFree_eq_self (blocksize : UInt32) (rest : List Memblock) :
    ∀ second,
      (∀ pre a b post, second :: rest = pre ++ a :: b :: post → ¬ mergeable blocksize a b) →
      mergeFree blocksize second rest = second :: rest := by
  induction rest with
  | nil => intro second _; rfl
  | cons first rest ih =>
    intro second h
    unfold mergeFree
    rw [if_neg (h [] second first rest rfl), ih first]
    intro pre a b post heq
    exact h (second :: pre) a b post (by rw [heq]; rfl)

theorem mergeFree_addr_mem (blocksize : UInt32) (rest : List Memblock) :
    ∀ second, ∀ d ∈ mergeFree blocksize second rest,
      d.addr ∈ (second :: rest).map Memblock.addr := by
  induction rest with
  | nil =>
    intro second d hd
    exact List.mem_map_of_mem hd
  | cons first rest ih =>
    intro second d hd
    unfold mergeFree at hd
    split_ifs at hd with hm
    · have := ih _ d hd
      rw [List.map_cons] at this ⊢
      exact List.mem_cons_of_mem _ this
    · rcases List.mem_cons.1 hd with rfl | hd
      · exact List.mem_cons_self ..
      · have := ih _ d hd
        rw [List.map_cons] at this ⊢
        exact List.mem_cons_of_mem _ this

/-- If two adjacent non-empty blocks are merged, the blocks no longer tile the arena: the first merged
block starts at the address of the later of the two. -/
theorem mergeFree_not_tiles (blocksize : UInt32) (rest : List Memblock) :
    ∀ second lo hi hi', Tiles Memblock.addr Memblock.len lo (second :: rest) hi →
      (∀ b ∈ second :: rest, 0 < b.len) →
      (∃ pre a b post, second :: rest = pre ++ a :: b :: post ∧ mergeable blocksize a b) →
      ¬ Tiles Memblock.addr Memblock.len lo (mergeFree blocksize second rest) hi' := by
  induction rest with
  | nil =>
    intro second lo hi hi' _ _ ⟨pre, a, b, post, heq, _⟩
    have := congrArg List.length heq
    simp at this
    omega
  | cons first rest ih =>
    intro second lo hi hi' ht hpos ⟨pre, a, b, post, heq, hab⟩ ht'
    unfold mergeFree at ht'
    obtain ⟨hlo, hrest⟩ := ht
    by_cases hm : mergeable blocksize second first
    · rw [if_pos hm] at ht'
      -- the head of the result has the address of a block behind `second`
      set merged := { first with size := (first.size + second.size).toInt32.toUInt32 } with hmerged
      obtain ⟨d, ds, hd⟩ := List.exists_cons_of_ne_nil (mergeFree_ne_nil blocksize rest merged)
      have hdaddr := mergeFree_addr_mem blocksize rest merged d (by rw [hd]; simp)
      have hmaddr : (merged :: rest).map Memblock.addr = (first :: rest).map Memblock.addr := rfl
      rw [hmaddr] at hdaddr
      obtain ⟨c, hc, hcd⟩ := List.mem_map.1 hdaddr
      have hcle := (hrest.mem_bounds hc).1
      rw [hd] at ht'
      have hdlo := ht'.1
      have := hpos second (by simp)
      omega
    · rw [if_neg hm] at ht'
      refine ih first _ hi hi' hrest (fun b hb => hpos b (List.mem_cons_of_mem _ hb)) ?_ ht'.2
      cases pre with
      | nil =>
        obtain ⟨rfl, h⟩ := List.cons.inj heq
        obtain ⟨rfl, -⟩ := List.cons.inj h
        exact absurd hab hm
      | cons p pre => exact ⟨pre, a, b, post, (List.cons.inj heq).2, hab⟩

theorem markFree_tiles {addr : ℕ} {l l' : List Memblock} (h : markFree addr l = some l') :
    Tiles Memblock.addr Memblock.len lo l' hi ↔ Tiles Memblock.addr Memblock.len lo l hi := by
  apply tiles_congr
  have := congrArg (List.map fun p : ℕ × UInt32 => (p.1, p.2.toNat)) (markFree_map h)
  rwa [List.map_map, List.map_map] at this

theorem markFree_pos {addr : ℕ} {l l' : List Memblock} (h : markFree addr l = some l')
    (hpos : ∀ b ∈ l, 0 < b.len) : ∀ b ∈ l', 0 < b.len := by
  intro b hb
  have hmem : (b.addr, b.size) ∈ l.map fun b => (b.addr, b.size) := by
    rw [← markFree_map h]
    exact List.mem_map_of_mem (f := fun b : Memblock => (b.addr, b.size)) hb
  obtain ⟨c, hc, hcb⟩ := List.mem_map.1 hmem
  have := hpos c hc
  rwa [Memblock.len, (Prod.mk.inj hcb).2] at this

/-- A call that merges destroys the layout. -/
theorem not_layout_of_merges (hI : Inv m) (hL : Layout base m) {index : UInt32}
    (h : Merges m (.remove index)) : ¬ Layout base (memRemove m index) := by
  obtain ⟨elem, pre, a, b, post, hnth, hmark, hmerge⟩ := h
  obtain ⟨hi, ht⟩ := hL.tiles
  have hlength : 2 ≤ m.list.length := by
    have := congrArg List.length (markFree_map hmark)
    simp at this
    omega
  have htiles := (markFree_tiles hmark).2 ht
  have hpos := markFree_pos hmark (hI.pos hlength)
  obtain ⟨first, rest, hl⟩ := List.exists_cons_of_ne_nil (l := pre ++ a :: b :: post) (by simp)
  rw [hl] at hmark htiles hpos
  have hlist : (memRemove m index).list = mergeFree m.blocksize first rest := by
    simp only [memRemove, hnth, memFree, hmark]
  intro hL'
  obtain ⟨hi', ht'⟩ := hL'.tiles
  rw [hlist] at ht'
  exact mergeFree_not_tiles m.blocksize rest first base hi hi' htiles hpos
    ⟨pre, a, b, post, hl.symm, hmerge⟩ ht'

/-- A call of `mem_remove` that merges nothing keeps the layout. -/
theorem layout_of_not_merges (hI : Inv m) (hL : Layout base m) {index : UInt32}
    (h : ¬ Merges m (.remove index)) : Layout base (memRemove m index) := by
  have hI' := memRemove_inv hI index
  rcases memRemove_cases m index with heq | ⟨elem, first, rest, hnth, hmark, heq⟩
  · rw [heq]; exact hL
  obtain ⟨hi, ht⟩ := hL.tiles
  have htiles := (markFree_tiles hmark).2 ht
  apply hI'.layout_of_tiles hi
  rw [heq]
  show Tiles Memblock.addr Memblock.len base (mergeFree m.blocksize first rest) hi
  rw [mergeFree_eq_self]
  · exact htiles
  · intro pre a b post hab hmerge
    exact h ⟨elem, pre, a, b, post, hnth, by rw [hmark, hab], hmerge⟩

/-- A call keeps the layout exactly when it does not merge. -/
theorem layout_step (hI : Inv m) (hL : Layout base m) {op : Op} (h : exec m op = some m') :
    Layout base m' ↔ ¬ Merges m op := by
  cases op with
  | alloc size arena =>
    rcases memAlloc_cases hI h with rfl | hsplit
    · exact ⟨fun _ => not_false, fun _ => hL⟩
    · exact ⟨fun _ => not_false, fun _ => hsplit.layout (exec_inv hI h) hL⟩
  | remove index =>
    rw [← Option.some.inj h]
    constructor
    · intro hL' hmerge
      exact not_layout_of_merges hI hL hmerge hL'
    · exact layout_of_not_merges hI hL

/-! ## Runs -/

/-- In a run from `mem_init` in which no call dereferences `NULL`, every state reached is laid out
properly if and only if no call merges blocks. -/
theorem layout_iff_not_merges (size blocksize : UInt32) (strategy : MemAlgo) (base : ℕ)
    (hbs : 1 ≤ blocksize.toNat) (hsz : size.toNat + blocksize.toNat < 2 ^ 31) (ops : List Op)
    (hrun : run (memInit size blocksize strategy base) ops ≠ none) :
    (∀ pre post s, ops = pre ++ post → run (memInit size blocksize strategy base) pre = some s →
        Layout base s) ↔
      ∀ pre op post s, ops = pre ++ op :: post →
        run (memInit size blocksize strategy base) pre = some s → ¬ Merges s op := by
  have hI : Inv (memInit size blocksize strategy base) := memInit_inv hbs hsz strategy
  have hL := memInit_layout hbs hsz strategy base
  simp only [run_eq_foldlM] at hrun ⊢
  exact Run.foldlM_forall_iff hrun hI hL (fun _ _ _ hI => exec_inv hI)
    fun _ _ _ hI hL => layout_step hI hL

/-- A run with two allocations and a release. -/
theorem layout_iff_not_merges_two_blocks :
    (∀ pre post s, [Op.alloc 100 0, .alloc 200 0, .remove 1] = pre ++ post →
        run (memInit 16384 4096 .first 1000) pre = some s → Layout 1000 s) ↔
      ∀ pre op post s, [Op.alloc 100 0, .alloc 200 0, .remove 1] = pre ++ op :: post →
        run (memInit 16384 4096 .first 1000) pre = some s → ¬ Merges s op :=
  layout_iff_not_merges 16384 4096 .first 1000 (by decide) (by decide) _ (by decide)

/-- One block is allocated and freed again: it is merged with the rest of the arena, and the merged
block starts at the address of the rest. -/
theorem not_layout_alloc_remove :
    run (memInit 16384 4096 .first 1000) [.alloc 100 0, .remove 1] =
        some
        { blocksize := 4096, size := 16384, strategy := .first,
          list := [{ status := .free_, addr := 5096, size := 16384, inUse := 0 }] } ∧
      ¬ Layout 1000
        { blocksize := 4096, size := 16384, strategy := .first,
          list := [{ status := .free_, addr := 5096, size := 16384, inUse := 0 }] } := by
  refine ⟨by decide, fun hL => ?_⟩
  obtain ⟨hi, haddr, -⟩ := hL.tiles
  exact absurd haddr (by decide)

end Sem3.Memory
