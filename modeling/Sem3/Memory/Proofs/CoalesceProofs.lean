import Sem3.Memory.Proofs.AccountingProofs
import Mathlib.Data.List.Chain
import Mathlib.Algebra.BigOperators.Ring.List

/-!
# Proofs: when free neighbours stay apart

The merge loop visits the blocks from left to right and lets the merged block take part in the next
merge, so a whole chain of free blocks becomes one. Only the odd last block can be left out.
-/

namespace Sem3.Memory

variable {m m' : Mem} {blocksize : UInt32} {a b second first : Memblock} {l rest : List Memblock}

/-! ## The merge loop -/

/-- The last two blocks are free, and together they are not a multiple of the block size. -/
def Stranded (blocksize : ℕ) (l : List Memblock) : Prop :=
  ∃ pre a b, l = pre ++ [a, b] ∧ a.status = .free_ ∧ b.status = .free_ ∧
    ¬ blocksize ∣ a.len + b.len

theorem not_stranded_singleton (blocksize : ℕ) (a : Memblock) : ¬ Stranded blocksize [a] := by
  rintro ⟨pre, b, c, heq, -⟩
  have := congrArg List.length heq
  simp at this

/-- The last two blocks are stranded if both are free and cannot be merged. -/
theorem stranded_pair {blocksize : ℕ} : Stranded blocksize [a, b] ↔
    a.status = .free_ ∧ b.status = .free_ ∧ ¬ blocksize ∣ a.len + b.len := by
  constructor
  · rintro ⟨pre, c, d, heq, h⟩
    have hpre : pre = [] := by
      have := congrArg List.length heq
      simpa using this
    subst hpre
    obtain ⟨rfl, hd⟩ := List.cons.inj heq
    obtain ⟨rfl, -⟩ := List.cons.inj hd
    exact h
  · intro h
    exact ⟨[], a, b, rfl, h⟩

theorem stranded_cons {blocksize : ℕ} {c : Memblock} :
    Stranded blocksize (a :: b :: c :: l) ↔ Stranded blocksize (b :: c :: l) := by
  constructor
  · rintro ⟨pre, x, y, heq, h⟩
    cases pre with
    | nil =>
      have := congrArg List.length heq
      simp at this
    | cons p pre => exact ⟨pre, x, y, (List.cons.inj heq).2, h⟩
  · rintro ⟨pre, x, y, heq, h⟩
    exact ⟨a :: pre, x, y, by rw [heq]; rfl, h⟩

/-- Merging the first two blocks does not change the end of the list. -/
theorem stranded_merged (hB : Booked blocksize.toNat (second :: first :: rest))
    (hlt : total (second :: first :: rest) < 2 ^ 31) (hm : mergeable blocksize second first) :
    Stranded blocksize.toNat (merged second first :: rest) ↔
      Stranded blocksize.toNat (second :: first :: rest) := by
  have hlen := (total_merged hlt).1
  obtain ⟨hfirst, -, hdvd⟩ := (mergeable_iff hlen).1 hm
  match rest with
  | [] =>
    rw [stranded_pair]
    refine ⟨fun h => absurd h (not_stranded_singleton _ _), ?_⟩
    rintro ⟨-, -, hnot⟩
    rw [Nat.add_comm] at hnot
    exact absurd hdvd hnot
  | [c] =>
    have hmult : blocksize.toNat ∣ first.len := hB.multiple first (by simp)
    rw [stranded_cons, stranded_pair, stranded_pair, merged_len hlen, Nat.dvd_add_right hdvd,
      Nat.dvd_add_right hmult]
    rfl
  | c :: d :: rest => rw [stranded_cons, stranded_cons, stranded_cons]

/-- The first block of the result is free if and only if the first block was. -/
theorem mergeFree_head (blocksize : UInt32) (rest : List Memblock) :
    ∀ second, ∃ d ds, mergeFree blocksize second rest = d :: ds ∧ d.status = second.status := by
  induction rest with
  | nil =>
    intro second
    exact ⟨second, [], rfl, rfl⟩
  | cons first rest ih =>
    intro second
    rw [mergeFree_cons]
    split_ifs with hm
    · obtain ⟨d, ds, heq, hd⟩ := ih (merged second first)
      refine ⟨d, ds, heq, hd.trans ?_⟩
      exact hm.1.trans hm.2.1.symm
    · exact ⟨second, _, rfl, rfl⟩

/-- The merge loop leaves no two free neighbours unless the last two blocks are stranded. -/
theorem mergeFree_coalesced (rest : List Memblock) :
    ∀ second, total (second :: rest) < 2 ^ 31 → Booked blocksize.toNat (second :: rest) →
      (Coalesced (mergeFree blocksize second rest) ↔
        ¬ Stranded blocksize.toNat (second :: rest)) := by
  induction rest with
  | nil =>
    intro second _ _
    exact ⟨fun _ => not_stranded_singleton _ _, fun _ => .singleton second⟩
  | cons first rest ih =>
    intro second hlt hB
    have hlen := (total_merged hlt).1
    rw [mergeFree_cons]
    split_ifs with hm
    · rw [ih _ (by rw [(total_merged hlt).2]; exact hlt) (hB.merge hlt hm),
        stranded_merged hB hlt hm]
    · obtain ⟨d, ds, heq, hd⟩ := mergeFree_head blocksize rest first
      have htail := ih first (by rw [total_cons_cons] at hlt; simp [total] at hlt ⊢; omega) hB.tail
      rw [heq] at htail ⊢
      rw [Coalesced, List.isChain_cons_cons, hd]
      rw [mergeable_iff hlen] at hm
      match rest with
      | [] =>
        have hsingle : d :: ds = [first] := heq.symm
        rw [stranded_pair, hsingle, Nat.add_comm second.len]
        constructor
        · rintro ⟨hnot, -⟩ ⟨hs, hf, -⟩
          exact hnot ⟨hs, hf⟩
        · intro hnot
          refine ⟨?_, .singleton first⟩
          rintro ⟨hs, hf⟩
          exact hnot ⟨hs, hf, fun hdvd => hm ⟨hf, hs, hdvd⟩⟩
      | c :: rest =>
        -- both sizes are multiples, so the two are apart only because one of them is used
        have hmult : blocksize.toNat ∣ first.len + second.len :=
          Nat.dvd_add (hB.multiple first (by simp)) (hB.multiple second (by simp))
        rw [stranded_cons, ← htail]
        refine and_iff_right ?_
        rintro ⟨hs, hf⟩
        exact hm ⟨hf, hs, hmult⟩

/-! ## A call -/

theorem markFree_append {addr : ℕ} {pre : List Memblock} (h : ∀ c ∈ pre, c.addr ≠ addr)
    (l : List Memblock) : markFree addr (pre ++ l) = (markFree addr l).map (pre ++ ·) := by
  induction pre with
  | nil => simp
  | cons c pre ih =>
    rw [List.cons_append, markFree, if_neg (h c (by simp)),
      ih fun d hd => h d (List.mem_cons_of_mem c hd), Option.map_map]
    rfl

/-- A call that strands blocks has the last two of them stranded before the merge loop. -/
theorem stranded_of_strands {index : UInt32} (h : Strands m (.remove index)) :
    ∃ elem l', listNth index.toNat 1 m.list = some elem ∧ markFree elem.addr m.list = some l' ∧
      Stranded m.blocksize.toNat l' := by
  obtain ⟨elem, pre, a, b, hnth, hl, hpre, hfree, hdvd⟩ := h
  rcases hfree with ⟨ha, hb⟩ | ⟨ha, hb, hfree⟩
  · refine ⟨elem, _, hnth, ?_, pre, { a with inUse := 0, status := .free_ }, b, rfl, rfl, hb, hdvd⟩
    rw [hl, markFree_append hpre, markFree, if_pos ha]
    rfl
  · refine ⟨elem, _, hnth, ?_, pre, a, { b with inUse := 0, status := .free_ }, rfl, hfree, rfl, hdvd⟩
    rw [hl, markFree_append hpre, markFree, if_neg ha, markFree, if_pos hb]
    rfl

/-- If no neighbours were free before, the block that is marked is one of the last two. -/
theorem strands_of_stranded (hC : Coalesced m.list) {index : UInt32} {elem : Memblock}
    {l' : List Memblock} (hnth : listNth index.toNat 1 m.list = some elem)
    (hmark : markFree elem.addr m.list = some l') (h : Stranded m.blocksize.toNat l') :
    Strands m (.remove index) := by
  obtain ⟨pre, x, post, hl, hpre, hx, rfl⟩ := markFree_eq_some hmark
  obtain ⟨pre', a, b, heq, ha, hb, hdvd⟩ := h
  rcases post.eq_nil_or_concat with rfl | ⟨post, c, rfl⟩
  · have heq' : pre ++ [{ x with inUse := 0, status := .free_ }] = (pre' ++ [a]) ++ [b] := by
      rw [heq, List.append_assoc]
      rfl
    obtain ⟨rfl, hxb⟩ := List.append_inj' heq' rfl
    obtain rfl := (List.cons.inj hxb).1
    refine ⟨elem, pre', a, x, hnth, by rw [hl, List.append_assoc]; rfl, ?_, ?_, hdvd⟩
    · intro c hc
      exact hpre c (by simp [hc])
    · exact .inr ⟨hpre a (by simp), hx, ha⟩
  rcases post.eq_nil_or_concat with rfl | ⟨post, d, rfl⟩
  · obtain ⟨rfl, hxb⟩ := List.append_inj' heq rfl
    obtain ⟨rfl, hcb⟩ := List.cons.inj hxb
    obtain rfl := (List.cons.inj hcb).1
    exact ⟨elem, pre, x, c, hnth, hl, hpre, .inl ⟨hx, hb⟩, hdvd⟩
  · have heq' : (pre ++ { x with inUse := 0, status := .free_ } :: post) ++ [d, c] = pre' ++ [a, b] := by
      rw [← heq]
      simp
    obtain ⟨-, hdc⟩ := List.append_inj' heq' rfl
    obtain ⟨rfl, hcb⟩ := List.cons.inj hdc
    obtain rfl := (List.cons.inj hcb).1
    have hlast : m.list = (pre ++ x :: post) ++ [d, c] := by simp [hl]
    rw [hlast] at hC
    exact absurd ⟨ha, hb⟩ (List.isChain_pair.1 (List.IsChain.right_of_append hC))

/-- An allocation that splits a block makes no free neighbours. -/
theorem Split.coalesced {size : UInt32} (h : Split m size m') (hC : Coalesced m.list) :
    Coalesced m'.list := by
  obtain ⟨pre, current, post, taken, left, hl, hfree, -, -, -, rfl⟩ := h
  rw [hl] at hC
  obtain ⟨hpre, hpost⟩ := List.isChain_split.1 hC
  obtain ⟨hnext, hpost⟩ := List.isChain_cons.1 hpost
  rw [Coalesced, List.append_assoc, List.cons_append, List.isChain_split]
  constructor
  · refine (List.IsChain.left_of_append hpre).append (.singleton _) ?_
    intro x _ y hy
    obtain rfl := Option.some.inj hy
    rintro ⟨-, hused⟩
    cases hused
  · refine List.isChain_cons.2 ⟨?_, ?_⟩
    · rintro y - ⟨hused, -⟩
      cases hused
    · by_cases hz : left = 0
      · rw [if_pos hz]
        exact hpost
      · rw [if_neg hz]
        refine List.isChain_cons.2 ⟨?_, hpost⟩
        rintro y hy ⟨-, hyfree⟩
        exact hnext y hy ⟨hfree, hyfree⟩

/-- `mem_remove` leaves no free neighbours if and only if it strands none. -/
theorem memRemove_coalesced (hI : Inv m) (hB : Booked m.blocksize.toNat m.list)
    (hC : Coalesced m.list) (index : UInt32) :
    Coalesced (memRemove m index).list ↔ ¬ Strands m (.remove index) := by
  cases hnth : listNth index.toNat 1 m.list with
  | none =>
    simp only [memRemove, hnth]
    refine ⟨fun _ => ?_, fun _ => hC⟩
    intro h
    obtain ⟨elem, l', helem, -⟩ := stranded_of_strands h
    rw [hnth] at helem
    cases helem
  | some elem =>
    cases hmark : markFree elem.addr m.list with
    | none =>
      simp only [memRemove, hnth, memFree, hmark]
      refine ⟨fun _ => ?_, fun _ => hC⟩
      intro h
      obtain ⟨elem', l', helem, hmark', -⟩ := stranded_of_strands h
      obtain rfl := Option.some.inj (hnth.symm.trans helem)
      rw [hmark] at hmark'
      cases hmark'
    | some l' =>
      obtain ⟨first, rest, rfl⟩ : ∃ first rest, l' = first :: rest := by
        obtain ⟨pre, x, post, -, -, -, rfl⟩ := markFree_eq_some hmark
        exact List.exists_cons_of_ne_nil (by simp)
      have hlt : total (first :: rest) < 2 ^ 31 := by
        have hbound := hI.bound
        rw [total_markFree hmark, total, hI.total]
        omega
      simp only [memRemove, hnth, memFree, hmark]
      rw [mergeFree_coalesced rest first hlt (markFree_booked hI.blocksize_pos hmark hB)]
      refine not_congr ⟨strands_of_stranded hC hnth hmark, ?_⟩
      intro h
      obtain ⟨elem', l', helem, hmark', hstranded⟩ := stranded_of_strands h
      obtain rfl := Option.some.inj (hnth.symm.trans helem)
      rw [Option.some.inj (hmark.symm.trans hmark')]
      exact hstranded

theorem coalesced_step (hI : Inv m) (hB : Booked m.blocksize.toNat m.list)
    (hC : Coalesced m.list) {op : Op} (h : exec m op = some m') :
    Coalesced m'.list ↔ ¬ Strands m op := by
  cases op with
  | alloc size arena =>
    refine ⟨fun _ => not_false, fun _ => ?_⟩
    rcases memAlloc_cases hI h with rfl | hsplit
    · exact hC
    · exact hsplit.coalesced hC
  | remove index =>
    rw [← Option.some.inj h]
    exact memRemove_coalesced hI hB hC index

/-! ## Runs -/

variable {size : UInt32}

/-- An odd last block needs an arena that is not a whole number of blocks, and at least one whole
block in front of it. -/
theorem Kept.not_strands (h : Kept size blocksize m)
    (hsize : blocksize.toNat ∣ size.toNat ∨ size.toNat < blocksize.toNat) (op : Op) :
    ¬ Strands m op := by
  obtain ⟨hI, rfl, rfl, hB⟩ := h
  cases op with
  | alloc size arena => exact not_false
  | remove index =>
    rintro ⟨elem, pre, a, b, -, hl, -, -, hdvd⟩
    have htotal := hI.total
    have hmult := hB.multiple
    rw [hl, List.map_append, List.sum_append] at htotal
    rw [hl, List.dropLast_append_cons] at hmult
    have hpre : m.blocksize.toNat ∣ (pre.map Memblock.len).sum := by
      apply List.dvd_sum
      intro n hn
      obtain ⟨c, hc, rfl⟩ := List.mem_map.1 hn
      exact hmult c (by simp [hc])
    simp only [List.map_cons, List.map_nil, List.sum_cons, List.sum_nil, Nat.add_zero] at htotal
    rcases hsize with hsize | hsize
    · rw [← htotal] at hsize
      exact hdvd ((Nat.dvd_add_right hpre).1 hsize)
    · have ha : m.blocksize.toNat ≤ a.len := by
        apply Nat.le_of_dvd _ (hmult a (by simp))
        exact (hB.block a (by simp [hl])).pos hI.blocksize_pos
      omega

theorem memInit_coalesced (size blocksize : UInt32) (strategy : MemAlgo) (base : ℕ) :
    Coalesced (memInit size blocksize strategy base).list := .singleton _

/-- The first request of one byte. -/
theorem memAlloc_init (hbs : 1 ≤ blocksize.toNat) (hsz : size.toNat + blocksize.toNat < 2 ^ 31)
    (hlt : blocksize.toNat < size.toNat) (strategy : MemAlgo) (base arena : ℕ) :
    ∃ taken left : UInt32, taken.toNat = blocksize.toNat ∧
      taken.toNat + left.toNat = size.toNat ∧ left ≠ 0 ∧
      memAlloc (memInit size blocksize strategy base) 1 arena =
        some { memInit size blocksize strategy base with
          list := [⟨.used, base, taken, 1⟩, ⟨.free_, base + taken.toNat, left, 0⟩] } := by
  have hround : roundUp blocksize.toNat 1 = blocksize.toNat := by
    apply le_antisymm (roundUp_le hbs dvd_rfl)
    exact Nat.le_of_dvd (le_roundUp _ 1 hbs) (dvd_roundUp _ 1)
  have hone : (1 : UInt32).toNat = 1 := rfl
  have hlen : (⟨.free_, base, size, 0⟩ : Memblock).len < 2 ^ 31 := by
    rw [Memblock.len_mk]
    omega
  have hfits : roundUp blocksize.toNat (1 : UInt32).toNat ≤ (⟨.free_, base, size, 0⟩ : Memblock).len := by
    rw [hone, hround, Memblock.len_mk]
    omega
  obtain ⟨taken, left, htaken, hsum, hadd⟩ := addMemblock_spec (by omega) hlen hfits
  rw [hone, hround] at htaken
  rw [Memblock.len_mk] at hsum
  have hleft : left ≠ 0 := (toNat_pos_iff left).1 (by omega)
  refine ⟨taken, left, htaken, hsum, hleft, ?_⟩
  rw [if_neg hleft] at hadd
  have hfit : (blocksFor blocksize 1).toUInt32 ≤ size := by
    rw [blocksFor_eq, UInt32.le_iff_toNat_le, rounded_toNat _ _ (by omega), hone, hround]
    omega
  have hpos : size ≠ 0 := (toNat_pos_iff size).1 (by omega)
  have hblend : size - 1 > (0 : Int32).toUInt32 := by
    rw [gt_iff_lt, UInt32.lt_iff_toNat_lt, toNat_sub_of_le (by omega)]
    show 0 < size.toNat - 1
    omega
  have hzero : (0 : UInt32) ≤ (blocksFor blocksize 1).toUInt32 := by
    rw [UInt32.le_iff_toNat_le]
    exact Nat.zero_le _
  cases strategy <;>
    simp [memAlloc, memInit, addMemblockFront, hpos, firstFit, worstFit, hfit, hblend, hzero, hadd]

/-- If the memory is not a multiple of the block size, and no smaller, two calls leave free
neighbours. -/
theorem exists_strands (hsize : 1 ≤ size.toNat) (hbs : 1 ≤ blocksize.toNat)
    (hsz : size.toNat + blocksize.toNat < 2 ^ 31) (strategy : MemAlgo) (base : ℕ)
    (hodd : ¬ blocksize.toNat ∣ size.toNat) (hlt : ¬ size.toNat < blocksize.toNat) :
    ∃ s, run (memInit size blocksize strategy base) [.alloc 1 0, .remove 1] = some s ∧
      ¬ Coalesced s.list := by
  have hne : blocksize.toNat ≠ size.toNat := by
    intro heq
    exact hodd (heq ▸ dvd_rfl)
  obtain ⟨taken, left, htaken, hsum, -, halloc⟩ :=
    memAlloc_init hbs hsz (by omega) strategy base 0
  have hexec : exec (memInit size blocksize strategy base) (.alloc 1 0) = some _ := halloc
  have hkept := (memInit_kept hsize hbs hsz strategy base).exec hexec
  have hC := (coalesced_step (memInit_inv hbs hsz strategy) (memInit_booked hsize strategy base)
    (memInit_coalesced size blocksize strategy base) hexec).2 not_false
  refine ⟨_, by rw [run, exec, halloc]; rfl, ?_⟩
  rw [memRemove_coalesced hkept.inv (hkept.blocksize_eq ▸ hkept.booked) hC, not_not]
  refine ⟨_, [], _, _, rfl, rfl, by simp, .inl ⟨rfl, rfl⟩, ?_⟩
  show ¬ blocksize.toNat ∣ taken.toNat + left.toNat
  rw [hsum]
  exact hodd

/-- In a run free neighbours are merged in every state if and only if no call strands the last
block, and that never happens exactly if the arena is a whole number of blocks or smaller than one
block. -/
theorem coalesced_iff (strategy : MemAlgo) (base : ℕ) (hsize : 1 ≤ size.toNat)
    (hbs : 1 ≤ blocksize.toNat) (hsz : size.toNat + blocksize.toNat < 2 ^ 31) :
    (∀ ops, run (memInit size blocksize strategy base) ops ≠ none →
      ((∀ pre post s, ops = pre ++ post → run (memInit size blocksize strategy base) pre = some s →
          Coalesced s.list) ↔
        ∀ pre op post s, ops = pre ++ op :: post →
          run (memInit size blocksize strategy base) pre = some s → ¬ Strands s op)) ∧
    ((∀ ops s, run (memInit size blocksize strategy base) ops = some s → Coalesced s.list) ↔
      blocksize.toNat ∣ size.toNat ∨ size.toNat < blocksize.toNat) := by
  have hkept := memInit_kept hsize hbs hsz strategy base
  have hrun : ∀ ops, run (memInit size blocksize strategy base) ops ≠ none →
      ((∀ pre post s, ops = pre ++ post → run (memInit size blocksize strategy base) pre = some s →
          Coalesced s.list) ↔
        ∀ pre op post s, ops = pre ++ op :: post →
          run (memInit size blocksize strategy base) pre = some s → ¬ Strands s op) := by
    intro ops hrun
    simp only [run_eq_foldlM] at hrun ⊢
    apply Run.foldlM_forall_iff hrun hkept (memInit_coalesced size blocksize strategy base)
    · exact fun _ _ _ h => h.exec
    · exact fun _ _ _ h hC => coalesced_step h.inv (h.blocksize_eq ▸ h.booked) hC
  refine ⟨hrun, ?_, ?_⟩
  · intro hall
    by_contra hnot
    obtain ⟨hodd, hlt⟩ := not_or.1 hnot
    obtain ⟨s, hs, hnot⟩ := exists_strands hsize hbs hsz strategy base hodd hlt
    exact hnot (hall _ s hs)
  · intro hcond ops s hs
    refine (hrun ops (by rw [hs]; exact Option.some_ne_none s)).2 ?_ ops [] s (by simp) hs
    intro pre op post s' _ hpre
    exact (hkept.run pre hpre).not_strands hcond op

/-- An arena of two blocks. -/
theorem coalesced_iff_two_blocks :
    (∀ ops, run (memInit 8192 4096 .worst 1000) ops ≠ none →
      ((∀ pre post s, ops = pre ++ post → run (memInit 8192 4096 .worst 1000) pre = some s →
          Coalesced s.list) ↔
        ∀ pre op post s, ops = pre ++ op :: post →
          run (memInit 8192 4096 .worst 1000) pre = some s → ¬ Strands s op)) ∧
    ((∀ ops s, run (memInit 8192 4096 .worst 1000) ops = some s → Coalesced s.list) ↔
      UInt32.toNat 4096 ∣ UInt32.toNat 8192 ∨ UInt32.toNat 8192 < UInt32.toNat 4096) :=
  coalesced_iff .worst 1000 (by decide) (by decide) (by decide)

/-- One block is allocated in an arena of 5000 bytes and freed again: two free blocks are left. -/
theorem not_coalesced_odd_arena :
    run (memInit 5000 4096 .first 1000) [.alloc 100 0, .remove 1] =
        some ⟨4096, 5000, .first, [⟨.free_, 1000, 4096, 0⟩, ⟨.free_, 5096, 904, 0⟩]⟩ ∧
      ¬ Coalesced [⟨.free_, 1000, 4096, 0⟩, ⟨.free_, 5096, 904, 0⟩] := by
  refine ⟨by decide, ?_⟩
  intro h
  exact List.isChain_pair.1 h ⟨rfl, rfl⟩

end Sem3.Memory
