import Sem3.Memory.Proofs.CoalesceProofs
import Sem3.Memory.Proofs.FitProofs
import Sem3.Memory.Proofs.LayoutProofs

/-!
# Proofs: which block a position frees

`mem_remove` turns the position into an address and searches the list again for it. A merged block
starts where its second part did, so a block that is split off it later can have the address of the
block behind it, and the search comes out one block too early.
-/

namespace Sem3.Memory

open Relation

variable {m m' : Mem} {size blocksize : UInt32} {second first b x : Memblock}
  {l l' pre mid post rest : List Memblock}

/-! ## Where the used blocks are -/

/-- The used blocks with their distance from the start of the arena. -/
def spots : ℕ → List Memblock → List (ℕ × Memblock)
  | _, [] => []
  | off, b :: l =>
    if b.status = .used then (off, b) :: spots (off + b.len) l else spots (off + b.len) l

theorem spots_used (off : ℕ) (h : b.status = .used) (l : List Memblock) :
    spots off (b :: l) = (off, b) :: spots (off + b.len) l := if_pos h

theorem spots_free (off : ℕ) (h : b.status = .free_) (l : List Memblock) :
    spots off (b :: l) = spots (off + b.len) l := by
  rw [spots, if_neg]
  rw [h]
  exact Status.noConfusion

theorem spots_freed (off : ℕ) (b : Memblock) (l : List Memblock) :
    spots off (b.freed :: l) = spots (off + b.len) l := spots_free off rfl l

/-- The blocks of the second list are at the offsets behind the first one. -/
theorem spots_append (off : ℕ) (l l' : List Memblock) :
    spots off (l ++ l') = spots off l ++ spots (off + total l) l' := by
  induction l generalizing off with
  | nil => rfl
  | cons b l ih =>
    have hoff : off + b.len + total l = off + total (b :: l) := by
      rw [total, total, List.map_cons, List.sum_cons, Nat.add_assoc]
    rw [List.cons_append, spots, spots, ih, hoff]
    split_ifs <;> rfl

theorem le_of_mem_spots {off : ℕ} {p : ℕ × Memblock} (hp : p ∈ spots off l) : off ≤ p.1 := by
  induction l generalizing off with
  | nil => cases hp
  | cons b l ih =>
    rw [spots] at hp
    split_ifs at hp
    · rcases List.mem_cons.1 hp with rfl | hp
      · exact le_rfl
      · exact (Nat.le_add_right ..).trans (ih hp)
    · exact (Nat.le_add_right ..).trans (ih hp)

/-- Merging free neighbours keeps every used block in its place. -/
theorem MergeStep.spots_eq (h : MergeStep l l') (off : ℕ) : spots off l = spots off l' := by
  obtain ⟨pre, post, a, b, c, ha, hb, hc, hlen, -, -⟩ := h
  rw [spots_append, spots_append, spots_free _ ha, spots_free _ hb, spots_free _ hc, hlen,
    Nat.add_assoc _ a.len]

/-- Merging free blocks does not move a used one. -/
theorem spots_eq_of_merges (h : ReflTransGen MergeStep l l') (off : ℕ) :
    spots off l = spots off l' := by
  induction h with
  | refl => rfl
  | tail _ hstep ih => exact ih.trans (hstep.spots_eq off)

/-! ## The merge loop -/

theorem MergeStep.cons (a : Memblock) (h : MergeStep l l') : MergeStep (a :: l) (a :: l') := by
  obtain ⟨pre, post, b, c, d, hb, hc, hd, hlen, haddr, hinUse⟩ := h
  exact .merge (a :: pre) post b c d hb hc hd hlen haddr hinUse

/-- The loop of `mem_free` only merges free neighbours. -/
theorem mergeFree_merges (rest : List Memblock) :
    ∀ second, total (second :: rest) < 2 ^ 31 →
      (∀ b ∈ second :: rest, b.status = .free_ → b.inUse = 0) →
      ReflTransGen MergeStep (second :: rest) (mergeFree blocksize second rest) := by
  induction rest with
  | nil => exact fun _ _ _ => .refl
  | cons first rest ih =>
    intro second hlt hunused
    obtain ⟨hlen, htotal⟩ := total_merged hlt
    rw [mergeFree_cons]
    split_ifs with hm
    · obtain ⟨hfirst, hsecond, -⟩ := hm
      have hstep : MergeStep (second :: first :: rest) (merged second first :: rest) := by
        refine .merge [] rest second first _ hsecond hfirst hfirst ?_ (.inr rfl) ?_
        · rw [merged_len hlen, Nat.add_comm]
        · exact hunused first (by simp) hfirst
      refine .head hstep (ih _ (htotal ▸ hlt) ?_)
      intro b hb hfree
      rcases List.mem_cons.1 hb with rfl | hb
      · exact hunused first (by simp) hfirst
      · exact hunused b (by simp [hb]) hfree
    · have hrest := ih first (by rw [total_cons_cons] at hlt; simp [total] at hlt ⊢; omega)
        fun b hb => hunused b (List.mem_cons_of_mem second hb)
      exact hrest.lift (second :: ·) fun _ _ h => h.cons second

/-! ## Nothing is left to merge -/

/-- The loop of `mem_free` finds nothing to merge. -/
def Settled (blocksize : UInt32) (l : List Memblock) : Prop :=
  l.IsChain fun a b => ¬ mergeable blocksize a b

/-- The merge loop changes nothing in a settled list. -/
theorem Settled.mergeFree_eq (h : Settled blocksize (second :: rest)) :
    mergeFree blocksize second rest = second :: rest := by
  apply mergeFree_eq_self
  intro pre a b post heq
  rw [Settled, heq] at h
  exact (List.isChain_append_cons_cons.1 h).2.1

theorem mergeFree_settled (rest : List Memblock) :
    ∀ second, total (second :: rest) < 2 ^ 31 → Booked blocksize.toNat (second :: rest) →
      Settled blocksize (mergeFree blocksize second rest) := by
  induction rest with
  | nil => exact fun second _ _ => .singleton second
  | cons first rest ih =>
    intro second hlt hB
    obtain ⟨hlen, htotal⟩ := total_merged hlt
    rw [mergeFree_cons]
    split_ifs with hm
    · exact ih _ (htotal ▸ hlt) (hB.merge hlt hm)
    · have hrest := ih first (by rw [total_cons_cons] at hlt; simp [total] at hlt ⊢; omega) hB.tail
      match rest with
      | [] => exact List.isChain_pair.2 hm
      | c :: rest =>
        -- both sizes are multiples, so the two are apart only because one of them is used
        have hmult : blocksize.toNat ∣ first.len + second.len :=
          Nat.dvd_add (hB.multiple first (by simp)) (hB.multiple second (by simp))
        obtain ⟨d, ds, heq, hd⟩ := mergeFree_head blocksize (c :: rest) first
        rw [heq] at hrest ⊢
        refine List.isChain_cons_cons.2 ⟨?_, hrest⟩
        rintro ⟨hdfree, hsecond, -⟩
        exact hm ((mergeable_iff hlen).2 ⟨hd ▸ hdfree, hsecond, hmult⟩)

/-- An allocation that splits a block keeps the list settled. -/
theorem Split.settled {request : UInt32} (hI : Inv m) (h : Split m request m')
    (hS : Settled m.blocksize m.list) : Settled m'.blocksize m'.list := by
  obtain ⟨pre, current, post, taken, left, hl, hfree, -, htaken, hlen, rfl⟩ := h
  have htotal := hI.total
  rw [hl] at hS htotal
  obtain ⟨hpre, hpost⟩ := List.isChain_split.1 hS
  obtain ⟨hnext, hpost⟩ := List.isChain_cons.1 hpost
  rw [Settled, List.append_assoc, List.cons_append, List.isChain_split]
  constructor
  · refine (List.IsChain.left_of_append hpre).append (.singleton _) ?_
    intro x _ y hy
    obtain rfl := Option.some.inj hy
    rintro ⟨hused, -⟩
    cases hused
  · refine List.isChain_cons.2 ⟨?_, ?_⟩
    · rintro y - ⟨-, hused, -⟩
      cases hused
    · by_cases hz : left = 0
      · rw [if_pos hz]
        exact hpost
      · rw [if_neg hz]
        refine List.isChain_cons.2 ⟨?_, hpost⟩
        intro y hy hmerge
        have hyle : y.len + current.len < 2 ^ 31 := by
          obtain ⟨post', rfl⟩ := List.head?_eq_some_iff.1 hy
          have hbound := hI.bound
          simp only [List.map_append, List.map_cons, List.sum_append, List.sum_cons] at htotal
          omega
        -- what is left and the next block are a multiple only if the block was one with it before
        have hleft : y.len + left.toNat < 2 ^ 31 := by omega
        obtain ⟨hyfree, -, hdvd⟩ := (mergeable_iff hleft).1 hmerge
        apply hnext y hy
        refine (mergeable_iff hyle).2 ⟨hyfree, hfree, ?_⟩
        rw [← hlen, Nat.add_left_comm]
        exact Nat.dvd_add (htaken ▸ dvd_roundUp _ _) hdvd

theorem exec_settled (hI : Inv m) (hB : Booked m.blocksize.toNat m.list)
    (hS : Settled m.blocksize m.list) {op : Op} (h : exec m op = some m') :
    Settled m'.blocksize m'.list := by
  cases op with
  | alloc request arena =>
    rcases memAlloc_cases hI h with rfl | hsplit
    · exact hS
    · exact hsplit.settled hI hS
  | remove index =>
    rw [← Option.some.inj h]
    rcases memRemove_cases m index with heq | ⟨elem, first, rest, -, hmark, heq⟩
    · rw [heq]
      exact hS
    · rw [heq]
      apply mergeFree_settled _ _ _ (markFree_booked hI.blocksize_pos hmark hB)
      have hbound := hI.bound
      rw [total_markFree hmark, total, hI.total]
      omega

variable {strategy : MemAlgo} {base : ℕ} {ops : List Op}

/-- The list is settled behind every run. -/
theorem settled_of_run (hbs : 1 ≤ blocksize.toNat) (hsz : size.toNat + blocksize.toNat < 2 ^ 31)
    (hrun : run (memInit size blocksize strategy base) ops = some m) :
    Settled m.blocksize m.list := by
  rcases Nat.eq_zero_or_pos size.toNat with hsize | hsize
  · rw [run_empty hsize] at hrun
    rw [← Option.some.inj hrun]
    exact .singleton _
  · rw [run_eq_foldlM] at hrun
    refine (Run.foldlM_invariant (I := fun m => Kept size blocksize m ∧ Settled m.blocksize m.list)
      hrun ⟨memInit_kept hsize hbs hsz strategy base, .singleton _⟩ ?_).2
    rintro s op - s' ⟨hkept, hS⟩ hexec
    exact ⟨hkept.exec hexec,
      exec_settled hkept.inv (hkept.blocksize_eq ▸ hkept.booked) hS hexec⟩

/-! ## `mem_remove` -/

theorem listNth_eq (index i : ℕ) (l : List Memblock) : listNth index i l = l[index - i]? := by
  induction l generalizing i with
  | nil => rfl
  | cons elem rest ih =>
    rw [listNth]
    split_ifs with h
    · have hsub : index - i = index - (i + 1) + 1 := by omega
      rw [ih, hsub, List.getElem?_cons_succ]
    · have hsub : index - i = 0 := by omega
      rw [hsub, List.getElem?_cons_zero]

/-- `mem_free` on the first block at the address. -/
theorem memFree_eq {addr : ℕ} (hl : m.list = pre ++ x :: post) (hpre : ∀ c ∈ pre, c.addr ≠ addr)
    (hx : x.addr = addr) :
    ∃ first rest, pre ++ x.freed :: post = first :: rest ∧
      memFree m addr = { m with list := mergeFree m.blocksize first rest } := by
  obtain ⟨first, rest, heq⟩ := List.exists_cons_of_ne_nil (show pre ++ x.freed :: post ≠ [] by simp)
  refine ⟨first, rest, heq, ?_⟩
  have hmark : markFree addr m.list = some (first :: rest) := by
    rw [hl, markFree_append hpre, markFree, if_pos hx, ← heq]
    rfl
  simp only [memFree, hmark]

/-- Freeing a block that is free already changes nothing. -/
theorem freed_eq_self (hfree : b.status = .free_) (hunused : b.inUse = 0) : b.freed = b := by
  rw [Memblock.freed, ← hfree, ← hunused]

/-- The effect of `mem_free`: the first block at the address is freed and neighbours are merged. -/
theorem memFree_merges {addr : ℕ} (hI : Inv m)
    (hunused : ∀ b ∈ m.list, b.status = .free_ → b.inUse = 0) (hl : m.list = pre ++ x :: post)
    (hpre : ∀ c ∈ pre, c.addr ≠ addr) (hx : x.addr = addr) :
    ReflTransGen MergeStep (pre ++ x.freed :: post) (memFree m addr).list := by
  obtain ⟨first, rest, heq, hfree⟩ := memFree_eq hl hpre hx
  rw [hfree, heq]
  apply mergeFree_merges
  · have htotal := hI.total
    have hbound := hI.bound
    have hfreed : x.freed.len = x.len := rfl
    rw [hl, List.map_append, List.map_cons, List.sum_append, List.sum_cons] at htotal
    rw [← heq, total, List.map_append, List.map_cons, List.sum_append, List.sum_cons, hfreed]
    omega
  · intro b hb hbfree
    rw [← heq] at hb
    rcases List.mem_append.1 hb with hb | hb
    · exact hunused b (by simp [hl, hb]) hbfree
    · rcases List.mem_cons.1 hb with rfl | hb
      · rfl
      · exact hunused b (by simp [hl, hb]) hbfree

/-- Nothing changes if the first block at the address is free already. -/
theorem memFree_eq_self {addr : ℕ} (hS : Settled m.blocksize m.list)
    (hunused : ∀ b ∈ m.list, b.status = .free_ → b.inUse = 0) (hl : m.list = pre ++ x :: post)
    (hpre : ∀ c ∈ pre, c.addr ≠ addr) (hx : x.addr = addr) (hfree : x.status = .free_) :
    memFree m addr = m := by
  obtain ⟨first, rest, heq, hmem⟩ := memFree_eq hl hpre hx
  rw [freed_eq_self hfree (hunused x (by simp [hl]) hfree), ← hl] at heq
  rw [heq] at hS
  rw [hmem, hS.mergeFree_eq, ← heq]

/-- Freeing another used block than the one at the position shows. -/
theorem not_merges_of_used (hpos : 0 < x.len)
    (hused : x.status = .used ∨ b.status = .used)
    (h1 : ReflTransGen MergeStep (pre ++ x.freed :: mid ++ b :: post) l')
    (h2 : ReflTransGen MergeStep (pre ++ x :: mid ++ b.freed :: post) l') : False := by
  have hspots := (spots_eq_of_merges h1 0).trans (spots_eq_of_merges h2 0).symm
  simp only [List.append_assoc, List.cons_append, spots_append, List.append_cancel_left_eq] at hspots
  rw [spots_freed] at hspots
  cases hx : x.status with
  | used =>
    rw [spots_used _ hx] at hspots
    have hmem : (0 + total pre, x) ∈ spots (0 + total pre + x.len) (mid ++ b :: post) := by
      rw [hspots]
      exact List.mem_cons_self
    have hle := le_of_mem_spots hmem
    simp only at hle
    omega
  | free_ =>
    have hb : b.status = .used := by simpa [hx] using hused
    rw [spots_free _ hx, spots_append, spots_append, List.append_cancel_left_eq, spots_freed,
      spots_used _ hb] at hspots
    have := congrArg List.length hspots
    simp at this

/-- The block at the position is freed exactly if the search by its address finds it. -/
theorem freesAt_of_split (hI : Inv m) (hS : Settled m.blocksize m.list)
    (hunused : ∀ b ∈ m.list, b.status = .free_ → b.inUse = 0) (hl : m.list = pre ++ b :: post) :
    ReflTransGen MergeStep (pre ++ b.freed :: post) (memFree m b.addr).list ↔
      ∀ x, pre.find? (fun c => c.addr = b.addr) = some x → x.status = .free_ ∧ b.status = .free_ := by
  cases hfind : pre.find? fun c => c.addr = b.addr with
  | none =>
    have hpre : ∀ c ∈ pre, c.addr ≠ b.addr := by simpa using hfind
    constructor
    · intro _ x hx
      cases hx
    · exact fun _ => memFree_merges hI hunused hl hpre rfl
  | some x =>
    obtain ⟨hx, pre', mid, rfl, hpre'⟩ := List.find?_eq_some_iff_append.1 hfind
    have hxaddr : x.addr = b.addr := by simpa using hx
    have hfirst : ∀ c ∈ pre', c.addr ≠ b.addr := by simpa using hpre'
    have hl' : m.list = pre' ++ x :: (mid ++ b :: post) := by simp [hl]
    constructor
    · intro h y hy
      obtain rfl := Option.some.inj hy
      by_contra hnot
      have hused : x.status = .used ∨ b.status = .used := by
        cases hxs : x.status <;> cases hbs : b.status <;> simp_all
      have hpos := hI.pos (by simp [hl]; omega) x (by simp [hl])
      have hmerges := memFree_merges hI hunused hl' hfirst hxaddr
      exact not_merges_of_used hpos hused (by simpa using hmerges) h
    · intro h
      obtain ⟨hxfree, hbfree⟩ := h x rfl
      rw [memFree_eq_self hS hunused hl' hfirst hxaddr hxfree,
        freed_eq_self hbfree (hunused b (by simp [hl]) hbfree), hl]

/-- Position 0 is answered with the first block. -/
theorem freesAt_zero (hI : Inv m) (hS : Settled m.blocksize m.list)
    (hunused : ∀ b ∈ m.list, b.status = .free_ → b.inUse = 0) (hl : m.list = b :: post) :
    (memFree m b.addr).list = m.list ↔ b.status = .free_ := by
  have hl' : m.list = [] ++ b :: post := hl
  have hnone : ∀ c ∈ ([] : List Memblock), c.addr ≠ b.addr := by simp
  constructor
  · intro h
    have hmerges := memFree_merges hI hunused hl' hnone rfl
    rw [h, hl, List.nil_append] at hmerges
    cases hb : b.status with
    | free_ => rfl
    | used =>
      have hspots := spots_eq_of_merges hmerges 0
      rw [spots_freed, spots_used _ hb] at hspots
      exact absurd (congrArg List.length hspots) (by simp)
  · intro hfree
    rw [memFree_eq_self hS hunused hl' hnone rfl hfree]

/-- A position determines how it splits the list. -/
theorem split_unique {pre' post' : List Memblock} {b' : Memblock}
    (heq : pre ++ b :: post = pre' ++ b' :: post') (hlen : pre.length + 1 = pre'.length + 1) :
    pre = pre' ∧ b = b' ∧ post = post' := by
  obtain ⟨hpre, hcons⟩ := List.append_inj heq (by omega)
  exact ⟨hpre, List.cons.inj hcons⟩

theorem freesAt_succ_iff : FreesAt (pre.length + 1) (pre ++ b :: post) l' ↔
    ReflTransGen MergeStep (pre ++ b.freed :: post) l' := by
  constructor
  · exact fun h => h.1 pre b post rfl rfl
  · intro h
    refine ⟨?_, fun hout => ?_⟩
    · intro pre' b' post' heq hlen
      obtain ⟨rfl, rfl, rfl⟩ := split_unique heq hlen
      exact h
    · simp at hout

theorem foundByAddr_succ_iff : FoundByAddr (pre.length + 1) (pre ++ b :: post) ↔
    ∀ x, pre.find? (fun c => c.addr = b.addr) = some x → x.status = .free_ ∧ b.status = .free_ := by
  constructor
  · exact fun h => h.2 pre b post rfl rfl
  · intro h
    refine ⟨fun hzero => absurd hzero (by simp), ?_⟩
    intro pre' b' post' heq hlen
    obtain ⟨rfl, rfl, rfl⟩ := split_unique heq hlen
    exact h

theorem freesAt_of_length_lt {n : ℕ} (h : l.length < n) : FreesAt n l l := by
  refine ⟨?_, fun _ => rfl⟩
  rintro pre b post rfl rfl
  simp at h

theorem foundByAddr_of_length_lt {n : ℕ} (h : l.length < n) : FoundByAddr n l := by
  refine ⟨fun hzero => by omega, ?_⟩
  rintro pre b post rfl rfl
  simp at h

/-- In every reached state `mem_remove` frees the block at the position, and nothing at the positions
outside the list, if and only if the search by address does not come out at another block. -/
theorem freesAt_iff (hbs : 1 ≤ blocksize.toNat) (hsz : size.toNat + blocksize.toNat < 2 ^ 31)
    (hrun : run (memInit size blocksize strategy base) ops = some m) (index : UInt32) :
    FreesAt index.toNat m.list (memRemove m index).list ↔ FoundByAddr index.toNat m.list := by
  have hI := (run_const hbs hsz hrun).1
  have hS := settled_of_run hbs hsz hrun
  have hunused := unused_of_run hbs hsz hrun
  have hremove : ∀ elem, m.list[index.toNat - 1]? = some elem →
      memRemove m index = memFree m elem.addr := by
    intro elem helem
    simp only [memRemove, listNth_eq, helem]
  rcases Nat.eq_zero_or_pos index.toNat with hzero | hpos
  · obtain ⟨b, post, hl⟩ := List.exists_cons_of_ne_nil hI.ne_nil
    have hfrees := freesAt_zero hI hS hunused hl
    rw [hremove b (by simp [hzero, hl]), hzero]
    simpa [FreesAt, FoundByAddr, hl] using hfrees
  by_cases hle : index.toNat ≤ m.list.length
  · obtain ⟨pre, b, post, hl, hlen⟩ :
        ∃ pre b post, m.list = pre ++ b :: post ∧ pre.length + 1 = index.toNat := by
      refine ⟨m.list.take (index.toNat - 1), m.list[index.toNat - 1], m.list.drop index.toNat, ?_, ?_⟩
      · conv_lhs => rw [← List.take_append_drop (index.toNat - 1) m.list]
        rw [List.drop_eq_getElem_cons (by omega), Nat.sub_add_cancel hpos]
      · rw [List.length_take]
        omega
    rw [hremove b (by simp [hl, ← hlen]), ← hlen]
    have hiff := freesAt_of_split hI hS hunused hl
    rw [hl, freesAt_succ_iff, foundByAddr_succ_iff, hiff]
  · have hnone : memRemove m index = m := by
      have hlen : m.list.length ≤ index.toNat - 1 := by omega
      simp only [memRemove, listNth_eq, List.getElem?_eq_none hlen]
    rw [hnone]
    exact iff_of_true (freesAt_of_length_lt (by omega)) (foundByAddr_of_length_lt (by omega))

/-- Two blocks were merged and split again. -/
theorem run_same_addr :
    run (memInit 16384 4096 .first 1000)
        [.alloc 100 0, .alloc 100 0, .alloc 100 0, .remove 1, .remove 2, .alloc 100 0] =
      some ⟨4096, 16384, .first, [⟨.used, 5096, 4096, 100⟩, ⟨.free_, 9192, 4096, 0⟩,
        ⟨.used, 9192, 4096, 100⟩, ⟨.free_, 13288, 4096, 0⟩]⟩ := by decide

/-- The first block is freed where two later ones have the same address. -/
theorem freesAt_iff_same_addr :
    FreesAt (UInt32.toNat 1)
        [⟨.used, 5096, 4096, 100⟩, ⟨.free_, 9192, 4096, 0⟩, ⟨.used, 9192, 4096, 100⟩,
          ⟨.free_, 13288, 4096, 0⟩]
        (memRemove ⟨4096, 16384, .first, [⟨.used, 5096, 4096, 100⟩, ⟨.free_, 9192, 4096, 0⟩,
          ⟨.used, 9192, 4096, 100⟩, ⟨.free_, 13288, 4096, 0⟩]⟩ 1).list ↔
      FoundByAddr (UInt32.toNat 1)
        [⟨.used, 5096, 4096, 100⟩, ⟨.free_, 9192, 4096, 0⟩, ⟨.used, 9192, 4096, 100⟩,
          ⟨.free_, 13288, 4096, 0⟩] :=
  freesAt_iff (by decide) (by decide) run_same_addr 1

/-- The used block at position 3 has the address of the free one before it and stays as it is. -/
theorem not_freesAt_same_addr :
    ∃ m, run (memInit 16384 4096 .first 1000)
        [.alloc 100 0, .alloc 100 0, .alloc 100 0, .remove 1, .remove 2, .alloc 100 0] = some m ∧
      m.list.length = 4 ∧ ¬ FreesAt 3 m.list (memRemove m 3).list := by
  refine ⟨_, run_same_addr, rfl, fun h => ?_⟩
  have hspots := spots_eq_of_merges (h.1 [_, _] _ _ rfl rfl) 0
  exact absurd hspots (by decide)

end Sem3.Memory
