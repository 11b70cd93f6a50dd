import Sem3.LinkedList.Proofs.ListProofs
import Sem3.Memory.Nodes
import Sem3.Memory.Proofs.RemoveProofs

/-!
# Proofs: the nodes refine the sequence

The nodes on the heap represent a sequence of blocks, each node with a block of its own. A call on the
nodes does to the sequence what the call of `Memory` does, and dereferences `NULL` if that does
(`exec_refines`), and so does a run in which `malloc` does not fail (`run_refines`).
-/

namespace Sem3.Memory.Nodes

open Chain Loop LinkedList

variable {fuel : ℕ} {c c' : State} {m m' : Mem} {s : Store ℕ} {xs ys : List (ℕ × ℕ)} {e d : ℕ}
  {malloc : Malloc ℕ}

/-! ## `list_put` -/

/-- `list_put` finds the node again by its payload, and puts the new one in behind it. -/
theorem listPut_spec {n data : ℕ} (h : Repr s (xs ++ (n, d) :: ys)) (hd : d ∉ xs.map Prod.snd)
    (hpick : malloc.pick s.cells = some e) (hfuel : xs.length < fuel) :
    ∃ s', listPut fuel s n data malloc = some (s', some e) ∧
      Repr s' (xs ++ (n, d) :: (e, data) :: ys) := by
  obtain ⟨r, hxs, hr, nx, hn, hys⟩ := seg_append.1 h.chain
  have hskip : ∀ x ∈ xs, ∀ next, s.cells x.1 = some ⟨next, x.2⟩ →
      listPutStep s n data malloc (some x.1) = .again next := by
    intro x hx next hcell
    have hne : x.2 ≠ d := fun heq => hd (heq ▸ List.mem_map_of_mem hx)
    simp only [listPutStep, hcell, hn, hne, if_false]
  have hloop : ∀ o, listPutStep s n data malloc (some n) = .leave o →
      listPut fuel s n data malloc = o := by
    intro o ho
    have hwalk := hxs.iterate hskip 1
    rw [hr, iterate_succ_leave ho] at hwalk
    rw [listPut, iterate_mono (Nat.succ_le_of_lt hfuel) hwalk]
    rfl
  cases ys with
  | nil =>
    rw [seg_nil] at hys
    subst hys
    obtain ⟨s', happend, hrepr⟩ := (listAppend_spec h data malloc).2 e hpick
    refine ⟨s', hloop _ ?_, by simpa using hrepr⟩
    simp only [listPutStep, hn, if_true, happend]
  | cons y ys =>
    obtain ⟨rfl, -⟩ := hys
    have hmem := h.not_mem_of_pick hpick
    have hen : n ≠ e := by
      rintro rfl
      exact hmem (by simp)
    have hn' : Function.update s.cells e (some ⟨some y.1, data⟩) n = some ⟨some y.1, d⟩ := by
      rw [Function.update_of_ne hen, hn]
    refine ⟨_, hloop _ (by simp only [listPutStep, hn, if_true, hpick, Option.bind_some,
      setNext_of_eq_some hn', Option.map_some]; rfl), h.chain.link h.nodup hmem hn data, ?_, ?_, ?_⟩
    · have hperm : ((nodes xs ++ [n]) ++ e :: nodes (y :: ys)).Perm
          (e :: ((nodes xs ++ [n]) ++ nodes (y :: ys))) := List.perm_middle
      have hnd : (e :: ((nodes xs ++ [n]) ++ nodes (y :: ys))).Nodup := by
        simpa using List.nodup_cons.2 ⟨hmem, h.nodup⟩
      simpa using hperm.nodup_iff.2 hnd
    · rw [h.last]
      simp [List.getLast?_cons]
    · simp [h.size]
      omega

/-! ## The represented blocks -/

/-- A node of the list, with the address of its block and the block. -/
structure Node where
  elem : ℕ
  data : ℕ
  block : Memblock

/-- The node as `list.c` sees it: its address and its data. -/
def Node.cell (n : Node) : ℕ × ℕ := (n.elem, n.data)

/-- The list has the nodes `ns`, each with a block of its own. -/
structure Represents (c : State) (ns : List Node) : Prop where
  repr : Repr c.list (ns.map Node.cell)
  nodup : (ns.map Node.data).Nodup
  blocks : ∀ n ∈ ns, c.blocks n.data = some n.block

/-- The sequence that the nodes stand for. -/
def State.mem (c : State) (ns : List Node) : Mem :=
  { blocksize := c.blocksize, size := c.size, strategy := c.strategy, list := ns.map Node.block }

/-- The pointer to the first of the nodes. -/
def next (ns : List Node) : Option ℕ := ns.head?.map Node.elem

theorem State.write_blocks (b : Memblock) :
    (c.write d b).blocks = Function.update c.blocks d (some b) := rfl

@[simp] theorem State.mem_blocksize (ns : List Node) : (c.mem ns).blocksize = c.blocksize := rfl

@[simp] theorem State.mem_size (ns : List Node) : (c.mem ns).size = c.size := rfl

@[simp] theorem State.mem_strategy (ns : List Node) : (c.mem ns).strategy = c.strategy := rfl

@[simp] theorem State.mem_list (ns : List Node) : (c.mem ns).list = ns.map Node.block := rfl

variable {ns pre post : List Node} {n : Node} {block : ℕ}

theorem seg_next {h : Heap ℕ} {p : Option ℕ} (hs : Seg h p (ns.map Node.cell) none) : p = next ns := by
  cases ns with
  | nil => exact hs
  | cons n ns => exact hs.1

theorem Represents.first (h : Represents c ns) : c.list.first = next ns := seg_next h.repr.chain

theorem Represents.elem_of_cell (h : Represents c ns) (hn : n ∈ ns) {nx : Option ℕ}
    (hcell : c.list.cells n.elem = some ⟨nx, n.data⟩) :
    c.elem n.elem = some (⟨nx, n.data⟩, n.block) := by
  simp only [State.elem, hcell, Option.bind_some, h.blocks n hn, Option.map_some]

theorem Represents.cell (h : Represents c (pre ++ n :: post)) :
    c.list.cells n.elem = some ⟨next post, n.data⟩ := by
  have hchain := h.repr.chain
  rw [List.map_append, List.map_cons] at hchain
  obtain ⟨r, -, -, nx, hcell, hpost⟩ := seg_append.1 hchain
  rw [← seg_next hpost]
  exact hcell

theorem Represents.elem (h : Represents c (pre ++ n :: post)) :
    c.elem n.elem = some (⟨next post, n.data⟩, n.block) :=
  h.elem_of_cell (by simp) h.cell

theorem Represents.split (h : Represents c ns) {i : ℕ} (hi : i < ns.length) :
    Represents c (ns.take i ++ ns[i] :: ns.drop (i + 1)) := by
  rwa [← List.drop_eq_getElem_cons hi, List.take_append_drop]

theorem Represents.write (h : Represents c (pre ++ n :: post)) (b : Memblock) :
    Represents (c.write n.data b) (pre ++ { n with block := b } :: post) := by
  have hcells : (pre ++ { n with block := b } :: post).map Node.cell =
      (pre ++ n :: post).map Node.cell := by
    simp [Node.cell]
  refine ⟨hcells ▸ h.repr, by simpa using h.nodup, ?_⟩
  have hnd := h.nodup
  rw [List.map_append, List.map_cons, List.nodup_middle, List.nodup_cons, List.mem_append,
    not_or] at hnd
  intro x hx
  rw [List.mem_append, List.mem_cons] at hx
  have hother : ∀ y ∈ pre ++ n :: post, y.data ≠ n.data →
      (c.write n.data b).blocks y.data = some y.block := by
    intro y hy hne
    rw [State.write_blocks, Function.update_of_ne hne]
    exact h.blocks y hy
  rcases hx with hx | rfl | hx
  · exact hother x (by simp [hx]) fun heq => hnd.1.1 (heq ▸ List.mem_map_of_mem hx)
  · exact Function.update_self ..
  · exact hother x (by simp [hx]) fun heq => hnd.1.2 (heq ▸ List.mem_map_of_mem hx)

/-! ## The searches -/

/-- A search finds the first node with the property. -/
theorem Represents.search (h : Represents c ns) (hfuel : ns.length < fuel) (p : Memblock → Prop)
    [DecidablePred p] :
    search fuel c p = some ((ns.find? fun n => p n.block).map Node.elem) := by
  -- the nodes in front of the one that is found are passed
  have hskip : ∀ pre post, ns = pre ++ post → (∀ n ∈ pre, ¬ p n.block) → ∀ k,
      iterate (searchStep c p) (pre.length + k) c.list.first =
        iterate (searchStep c p) k (next post) := by
    rintro pre post rfl hpre k
    have hchain := h.repr.chain
    rw [List.map_append] at hchain
    obtain ⟨r, hseg, hpost⟩ := seg_append.1 hchain
    rw [seg_next hpost] at hseg
    rw [← hseg.iterate ?_ k, List.length_map]
    simp only [List.forall_mem_map]
    intro n hn nx hcell
    simp only [Node.cell, searchStep, h.elem_of_cell (by simp [hn]) hcell, hpre n hn, if_false]
  cases hf : ns.find? fun n => p n.block with
  | none =>
    have hpre : ∀ n ∈ ns, ¬ p n.block := by simpa using hf
    have hwalk := hskip ns [] (by simp) hpre 1
    have hstep : searchStep c p (next []) = .leave (some none) := rfl
    rw [iterate_succ_leave hstep] at hwalk
    rw [Nodes.search, iterate_mono (Nat.succ_le_of_lt hfuel) hwalk]
    rfl
  | some n =>
    obtain ⟨hp, pre, post, rfl, hpre⟩ := List.find?_eq_some_iff_append.1 hf
    have hp' : p n.block := by simpa using hp
    have hstep : searchStep c p (next (n :: post)) = .leave (some (some n.elem)) := by
      simp only [next, List.head?_cons, Option.map_some, searchStep, h.elem, hp', if_true]
    have hwalk := hskip pre (n :: post) rfl (by simpa using hpre) 1
    rw [iterate_succ_leave hstep] at hwalk
    rw [Nodes.search, iterate_mono (by simp at hfuel; omega) hwalk]
    rfl

/-! ## `add_memblock` -/

/-- Memory that is not in use belongs to no block of the list. -/
theorem Represents.not_mem_data (h : Represents c ns) (hblock : c.blocks block = none) :
    block ∉ ns.map Node.data := by
  intro hm
  obtain ⟨n, hn, rfl⟩ := List.mem_map.1 hm
  rw [h.blocks n hn] at hblock
  cases hblock

theorem Represents.blocks_write (h : Represents c ns) (hblock : c.blocks block = none)
    (b : Memblock) (hn : n ∈ ns) : (c.write block b).blocks n.data = some n.block := by
  have hne : n.data ≠ block := fun heq => h.not_mem_data hblock (heq ▸ List.mem_map_of_mem hn)
  rw [State.write_blocks, Function.update_of_ne hne]
  exact h.blocks n hn

/-- A new block is put in behind the node `n`. -/
theorem Represents.put (h : Represents c (pre ++ n :: post)) (hblock : c.blocks block = none)
    (hpick : malloc.pick c.list.cells = some e) (hfuel : pre.length < fuel) (b : Memblock) :
    ∃ list, listPut fuel c.list n.elem block malloc = some (list, some e) ∧
      Represents { c.write block b with list } (pre ++ n :: ⟨e, block, b⟩ :: post) := by
  have hnew := h.not_mem_data hblock
  have hnd := h.nodup
  have hrepr := h.repr
  rw [List.map_append, List.map_cons] at hrepr hnew hnd
  have hd : n.data ∉ (pre.map Node.cell).map Prod.snd := by
    rw [List.nodup_middle, List.nodup_cons, List.mem_append, not_or] at hnd
    rw [List.map_map]
    exact hnd.1.1
  obtain ⟨list, hput, hlist⟩ : ∃ list, listPut fuel c.list n.elem block malloc =
      some (list, some e) ∧ Repr list (pre.map Node.cell ++ (n.elem, n.data) :: (e, block) ::
        post.map Node.cell) := listPut_spec hrepr hd hpick (by simpa using hfuel)
  refine ⟨list, hput, by simpa [Node.cell] using hlist, ?_, ?_⟩
  · have hperm : ((pre.map Node.data ++ [n.data]) ++ block :: post.map Node.data).Perm
        (block :: ((pre.map Node.data ++ [n.data]) ++ post.map Node.data)) := List.perm_middle
    have hcons : (block :: ((pre.map Node.data ++ [n.data]) ++ post.map Node.data)).Nodup := by
      simpa using List.nodup_cons.2 ⟨hnew, hnd⟩
    simpa using hperm.nodup_iff.2 hcons
  · intro x hx
    have hx' : x = ⟨e, block, b⟩ ∨ x ∈ pre ++ n :: post := by
      simp only [List.mem_append, List.mem_cons] at hx ⊢
      tauto
    rcases hx' with rfl | hx'
    · exact Function.update_self ..
    · exact h.blocks_write hblock b hx'

/-- `add_memblock` on the nodes splits the block. -/
theorem addMemblock_refines (h : Represents c (pre ++ n :: post)) (hblock : c.blocks block = none)
    (hpick : malloc.pick c.list.cells = some e) (hfuel : pre.length < fuel) (size : UInt32) :
    ∃ c' ns', addMemblock fuel c size (some n.elem) block malloc = some c' ∧ Represents c' ns' ∧
      c'.mem ns' = { c.mem (pre ++ n :: post) with
        list := pre.map Node.block ++ Memory.addMemblock c.blocksize size n.block ++
          post.map Node.block } := by
  have hne : block ≠ n.data := by
    rintro rfl
    exact h.not_mem_data hblock (by simp)
  unfold addMemblock Memory.addMemblock
  simp only [Option.bind_eq_bind, Option.bind_some, h.elem]
  generalize (if (size / c.blocksize * c.blocksize).toInt32.toUInt32 < size then
    ((size / c.blocksize * c.blocksize).toInt32.toUInt32 + c.blocksize).toInt32
    else (size / c.blocksize * c.blocksize).toInt32) = used
  have hused := h.write { n.block with status := .used, inUse := size, size := used.toUInt32 }
  by_cases hr : 0 < (n.block.size - used.toUInt32).toInt32
  · simp only [hr, if_true]
    have hfree : (c.write n.data
        { n.block with status := .used, inUse := size, size := used.toUInt32 }).blocks block =
          none := by
      rw [State.write_blocks, Function.update_of_ne hne, hblock]
    obtain ⟨list, hput, hrep⟩ := hused.put hfree hpick hfuel
      { status := .free_, addr := n.block.addr + used.toUInt32.toNat,
        size := (n.block.size - used.toUInt32).toInt32.toUInt32, inUse := 0 }
    exact ⟨_, _, by rw [hput]; rfl, hrep, by simp [State.mem, State.write]⟩
  · simp only [hr, if_false]
    exact ⟨_, _, rfl, hused, by simp [State.mem, State.write]⟩

/-! ## `mem_alloc` -/

/-- Both dereference `NULL`, or both return, and the nodes stand for the blocks again. -/
def Refines (r : Option State) : Option Mem → Prop
  | none => r = none
  | some m => ∃ c ns, r = some c ∧ Represents c ns ∧ c.mem ns = m

/-- `add_memblock_front` on the nodes puts a block in front. -/
theorem addMemblockFront_refines (h : Represents c ns) (hblock : c.blocks block = none)
    (hpick : malloc.pick c.list.cells = some e) (size : UInt32) (arena : ℕ) :
    Refines (some (addMemblockFront c size arena block malloc))
      (some (Memory.addMemblockFront (c.mem ns) size arena)) := by
  obtain ⟨list, hinsert, hlist⟩ := (listInsert_spec h.repr block malloc).2 e hpick
  refine ⟨_, ⟨e, block, { status := .free_, addr := arena, size, inUse := 0 }⟩ :: ns, rfl, ⟨?_, ?_, ?_⟩,
    rfl⟩
  · rw [addMemblockFront, hinsert]
    exact hlist
  · exact List.nodup_cons.2 ⟨h.not_mem_data hblock, h.nodup⟩
  · intro n hn
    rcases List.mem_cons.1 hn with rfl | hn
    · exact Function.update_self ..
    · exact h.blocks_write hblock _ hn

theorem firstFit_append {blocksize size : UInt32} {blocks : Int32} {l : List Memblock}
    (l' : List Memblock) (hl : ∀ b ∈ l,
      ¬ (b.status = .free_ ∧ b.size ≥ blocks.toUInt32 ∧ b.inUse ≤ blocks.toUInt32)) :
    Memory.firstFit blocksize size blocks (l ++ l') =
      l ++ Memory.firstFit blocksize size blocks l' := by
  induction l with
  | nil => rfl
  | cons b l ih =>
    rw [List.cons_append, Memory.firstFit, if_neg (hl b List.mem_cons_self),
      ih fun b' hb => hl b' (List.mem_cons_of_mem _ hb), List.cons_append]

/-- The first-fit loop on the nodes. -/
theorem firstFit_refines (h : Represents c ns) (hfuel : ns.length < fuel)
    (hblock : c.blocks block = none) (hpick : malloc.pick c.list.cells = some e) (size : UInt32)
    (blocks : Int32) :
    Refines (firstFit fuel c size blocks block malloc)
      (some { c.mem ns with
        list := Memory.firstFit c.blocksize size blocks (c.mem ns).list }) := by
  rw [firstFit, h.search hfuel, Option.bind_eq_bind, Option.bind_some]
  cases hf : ns.find? fun n => n.block.status = .free_ ∧ n.block.size ≥ blocks.toUInt32 ∧
      n.block.inUse ≤ blocks.toUInt32 with
  | none =>
    refine ⟨c, ns, rfl, h, ?_⟩
    have hsame : Memory.firstFit c.blocksize size blocks (ns.map Node.block ++ []) =
        ns.map Node.block ++ [] :=
      firstFit_append [] (List.forall_mem_map.2 (by simpa using List.find?_eq_none.1 hf))
    rw [List.append_nil] at hsame
    rw [State.mem, hsame]
  | some n =>
    obtain ⟨hfit, pre, post, rfl, hpre⟩ := List.find?_eq_some_iff_append.1 hf
    simp only [Bool.not_eq_true', decide_eq_false_iff_not] at hpre
    have hlt : pre.length < fuel := by
      rw [List.length_append] at hfuel
      omega
    obtain ⟨c', ns', hadd, hrep, hmem⟩ := addMemblock_refines h hblock hpick hlt size
    refine ⟨c', ns', hadd, hrep, ?_⟩
    have hlist : (c.mem (pre ++ n :: post)).list =
        pre.map Node.block ++ n.block :: post.map Node.block := by
      simp [State.mem]
    rw [hmem, hlist, firstFit_append _ (List.forall_mem_map.2 hpre), Memory.firstFit,
      if_pos (by simpa using hfit), List.append_assoc]

/-- The node at a position. -/
def nodeAt (ns : List Node) (i : Option ℕ) : Option ℕ := i.bind fun i => ns[i]?.map Node.elem

/-- The worst-fit loop has the node at the position that the loop over the blocks has. -/
theorem worstFit_loop (h : Represents c ns) (size : UInt32) (blocks : Int32) :
    ∀ (pre post : List Node) (blend : Int32) (worst : Option ℕ), ns = pre ++ post →
      iterate (worstFitStep c size blocks) (post.length + 1) (next post, blend, nodeAt ns worst) =
        some (some (nodeAt ns
          (Memory.worstFit size blocks (post.map Node.block) pre.length blend worst))) := by
  intro pre post
  induction post generalizing pre with
  | nil => exact fun blend worst _ => iterate_succ_leave rfl 0
  | cons n post ih =>
    rintro blend worst rfl
    have hsplit : pre ++ n :: post = (pre ++ [n]) ++ post := by simp
    have hih := ih (pre ++ [n])
    rw [List.length_append, List.length_singleton] at hih
    rw [List.length_cons, List.map_cons, Memory.worstFit]
    by_cases hfit : n.block.status = .free_ ∧ n.block.size ≥ blocks.toUInt32 ∧
        n.block.size - size > blend.toUInt32
    · have hstep : worstFitStep c size blocks (next (n :: post), blend, nodeAt (pre ++ n :: post) worst) =
          .again (next post, (n.block.size - size).toInt32,
            nodeAt (pre ++ n :: post) (some pre.length)) := by
        simp only [next, List.head?_cons, Option.map_some, worstFitStep, h.elem, hfit, nodeAt]
        simp
      rw [if_pos hfit, iterate_succ_again hstep]
      exact hih _ _ hsplit
    · have hstep : worstFitStep c size blocks (next (n :: post), blend, nodeAt (pre ++ n :: post) worst) =
          .again (next post, blend, nodeAt (pre ++ n :: post) worst) := by
        simp only [next, List.head?_cons, Option.map_some, worstFitStep, h.elem, hfit, if_false]
      rw [if_neg hfit, iterate_succ_again hstep]
      exact hih _ _ hsplit

/-- The worst-fit loop on the nodes, and the allocation behind it. -/
theorem worstFit_refines (h : Represents c ns) (hfuel : ns.length < fuel)
    (hblock : c.blocks block = none) (hpick : malloc.pick c.list.cells = some e) (size : UInt32)
    (blocks : Int32) :
    Refines (do
        let worstElem ← worstFit fuel c size blocks
        addMemblock fuel c size worstElem block malloc)
      (do
        let i ← Memory.worstFit size blocks (c.mem ns).list 0 0 none
        let current ← (c.mem ns).list[i]?
        some { c.mem ns with
          list := (c.mem ns).list.take i ++ Memory.addMemblock c.blocksize size current ++
            (c.mem ns).list.drop (i + 1) }) := by
  have hloop := iterate_mono (Nat.succ_le_of_lt hfuel) (worstFit_loop h size blocks [] ns 0 none rfl)
  have hworst : worstFit fuel c size blocks =
      some (nodeAt ns (Memory.worstFit size blocks (ns.map Node.block) 0 0 none)) := by
    rw [worstFit, h.first]
    exact congrArg Option.join hloop
  have hlist : (c.mem ns).list = ns.map Node.block := rfl
  rw [hworst, hlist]
  simp only [Option.bind_eq_bind, Option.bind_some]
  cases hi : Memory.worstFit size blocks (ns.map Node.block) 0 0 none with
  | none => rfl
  | some i =>
    cases hn : ns[i]? with
    | none => simp [nodeAt, hn, addMemblock, Refines]
    | some n =>
      obtain ⟨hlt, rfl⟩ := List.getElem?_eq_some_iff.1 hn
      have hnode : nodeAt ns (some i) = some ns[i].elem := by
        rw [nodeAt, Option.bind_some, hn, Option.map_some]
      have htake : (ns.take i).length < fuel := by
        rw [List.length_take]
        omega
      obtain ⟨c', ns', hadd, hrep, hmem⟩ :=
        addMemblock_refines (h.split hlt) hblock hpick htake size
      rw [hnode]
      simp only [Option.bind_some, List.getElem?_map, hn, Option.map_some]
      refine ⟨c', ns', hadd, hrep, ?_⟩
      rw [hmem, List.map_take, List.map_drop]
      rfl

/-- `mem_alloc` on the nodes does what it does on blocks. -/
theorem memAlloc_refines (h : Represents c ns) (hfuel : ns.length < fuel)
    (hblock : c.blocks block = none) (hpick : malloc.pick c.list.cells = some e) (size : UInt32)
    (arena : ℕ) :
    Refines (memAlloc fuel c size arena block malloc) (Memory.memAlloc (c.mem ns) size arena) := by
  have hnil : c.list.first = none ↔ (c.mem ns).list = [] := by
    rw [h.first]
    cases ns <;> simp [next]
  unfold memAlloc Memory.memAlloc
  by_cases hguard : size = 0 ∨ size > c.size
  · rw [if_pos hguard, State.mem_size, if_pos hguard]
    exact ⟨c, ns, rfl, h, rfl⟩
  rw [if_neg hguard, State.mem_size, if_neg hguard]
  by_cases hempty : c.list.first = none
  · rw [if_pos hempty, if_pos (hnil.1 hempty)]
    exact addMemblockFront_refines h hblock hpick size arena
  rw [if_neg hempty, if_neg (mt hnil.2 hempty)]
  have hfirst := firstFit_refines h hfuel hblock hpick size (blocksFor c.blocksize size)
  have hworst := worstFit_refines h hfuel hblock hpick size (blocksFor c.blocksize size)
  simp only [State.mem_strategy, State.mem_blocksize, State.mem_size, State.mem_list]
    at hfirst hworst ⊢
  cases hs : c.strategy with
  | none => simpa only [hs] using hfirst
  | first => simpa only [hs] using hfirst
  | worst => simpa only [hs] using hworst

/-! ## `mem_free` and `mem_remove` -/

variable {second first : Node}

theorem Represents.remove (h : Represents c (pre ++ n :: post))
    (hfuel : (pre ++ n :: post).length < fuel) :
    ∃ list, listRemove fuel c.list (some n.elem) = some (list, 0) ∧
      Represents { c with list } (pre ++ post) := by
  rcases listRemove_spec h.repr (by simpa using hfuel) (some n.elem) with
    ⟨hno, -⟩ | ⟨list, -, hremove, hlist⟩
  · exact absurd rfl (hno n.elem (by simp [Node.cell]))
  have hnd := h.repr.nodup
  rw [List.map_append, List.map_cons] at hlist hnd
  have hpre : ∀ x ∈ pre.map Node.cell, ¬ some x.1 = some n.elem := by
    intro x hx heq
    have hmem : x.1 ∈ nodes (pre.map Node.cell) := List.mem_map_of_mem hx
    rw [Option.some.inj heq] at hmem
    rw [nodes, List.map_append, List.map_cons, List.nodup_middle, List.nodup_cons] at hnd
    exact hnd.1 (List.mem_append_left _ hmem)
  rw [List.eraseP_append_right _ (by simpa using hpre), List.eraseP_cons_of_pos (by simp [Node.cell]),
    ← List.map_append] at hlist
  refine ⟨list, hremove, hlist, ?_, ?_⟩
  · exact h.nodup.sublist (List.Sublist.map _ (List.Sublist.append_left (by simp) _))
  · intro x hx
    refine h.blocks x ?_
    simp only [List.mem_append, List.mem_cons] at hx ⊢
    tauto

/-- The body of the merge loop joins two blocks. -/
theorem mergeBody_refines (h : Represents c (pre ++ second :: first :: post))
    (hfuel : (pre ++ second :: first :: post).length < fuel)
    (hmerge : mergeable c.blocksize second.block first.block) :
    ∃ c', mergeBody fuel c (some second.elem) first.elem = some c' ∧
      Represents c' (pre ++ { first with block := { first.block with
        size := (first.block.size + second.block.size).toInt32.toUInt32 } } :: post) ∧
      c'.blocksize = c.blocksize ∧ c'.size = c.size ∧ c'.strategy = c.strategy := by
  have hfirst : Represents c ((pre ++ [second]) ++ first :: post) := by simpa using h
  have hwrite := hfirst.write { first.block with
    size := (first.block.size + second.block.size).toInt32.toUInt32 }
  rw [List.append_assoc, List.singleton_append] at hwrite
  obtain ⟨list, hremove, hrep⟩ := hwrite.remove (by simpa using hfuel)
  refine ⟨_, ?_, hrep, rfl, rfl, rfl⟩
  have hremove' : listRemove fuel c.list (some second.elem) = some (list, 0) := hremove
  simp only [mergeBody, hfirst.elem, h.elem, Option.bind_eq_bind, Option.bind_some, if_pos hmerge,
    hremove']

/-- The merge loop, with `second` in front of the nodes that it has not visited. -/
theorem merge_loop (post : List Node) : ∀ (c : State) (pre : List Node) (second : Node),
    Represents c (pre ++ second :: post) → (pre ++ second :: post).length < fuel →
    ∃ c' ns', iterate (mergeStep fuel) (post.length + 1) (c, some second.elem, next post) =
        some (some c') ∧ Represents c' ns' ∧
      c'.mem ns' = { c.mem (pre ++ second :: post) with
        list := pre.map Node.block ++
          mergeFree c.blocksize second.block (post.map Node.block) } := by
  induction post with
  | nil =>
    intro c pre second h _
    exact ⟨c, _, iterate_succ_leave rfl 0, h, by simp [State.mem, mergeFree]⟩
  | cons first post ih =>
    intro c pre second h hfuel
    rw [List.map_cons, mergeFree]
    by_cases hmerge : mergeable c.blocksize second.block first.block
    · rw [if_pos hmerge]
      obtain ⟨c', hbody, hrep, hbs, hsize, hstrategy⟩ := mergeBody_refines h hfuel hmerge
      have hstep : mergeStep fuel (c, some second.elem, next (first :: post)) =
          .again (c', some first.elem, next post) := by
        have hcell := hrep.cell
        simp only [next, List.head?_cons, Option.map_some, mergeStep, hbody, hcell]
      obtain ⟨c'', ns', hret, hrep', hmem⟩ := ih c' pre _ hrep (by
        simp only [List.length_append, List.length_cons] at hfuel ⊢
        omega)
      rw [List.length_cons, iterate_succ_again hstep]
      refine ⟨c'', ns', hret, hrep', ?_⟩
      rw [hmem, hbs]
      simp [State.mem, hbs, hsize, hstrategy]
    · rw [if_neg hmerge]
      have hfirst : Represents c ((pre ++ [second]) ++ first :: post) := by simpa using h
      have hstep : mergeStep fuel (c, some second.elem, next (first :: post)) =
          .again (c, some first.elem, next post) := by
        have hbody : mergeBody fuel c (some second.elem) first.elem = some c := by
          simp only [mergeBody, hfirst.elem, h.elem, Option.bind_eq_bind, Option.bind_some,
            if_neg hmerge]
        have hcell := hfirst.cell
        simp only [next, List.head?_cons, Option.map_some, mergeStep, hbody, hcell]
      obtain ⟨c', ns', hret, hrep, hmem⟩ := ih c (pre ++ [second]) first hfirst (by
        simpa using hfuel)
      rw [List.length_cons, iterate_succ_again hstep]
      refine ⟨c', ns', hret, hrep, ?_⟩
      rw [hmem]
      simp [State.mem]

/-- `mem_free` on the nodes does what it does on blocks. -/
theorem memFree_refines (h : Represents c ns) (hfuel : ns.length < fuel) (addr : ℕ) :
    Refines (memFree fuel c addr) (some (Memory.memFree (c.mem ns) addr)) := by
  rw [memFree, listFind, h.search hfuel, Option.bind_eq_bind, Option.bind_some]
  cases hf : ns.find? fun n => n.block.addr = addr with
  | none =>
    have hmark : markFree addr (ns.map Node.block ++ []) = none := by
      rw [markFree_append (List.forall_mem_map.2 (by simpa using hf)), markFree, Option.map_none]
    rw [List.append_nil] at hmark
    exact ⟨c, ns, rfl, h, by rw [Memory.memFree, State.mem_list, hmark]⟩
  | some n =>
    obtain ⟨haddr, pre, post, rfl, hpre⟩ := List.find?_eq_some_iff_append.1 hf
    obtain ⟨b, rest, heq, hfree⟩ := memFree_eq
      (show (c.mem (pre ++ n :: post)).list =
        pre.map Node.block ++ n.block :: post.map Node.block by simp)
      (List.forall_mem_map.2 (by simpa using hpre)) (by simpa using haddr)
    have hwrite := h.write n.block.freed
    obtain ⟨second, ns', hns⟩ : ∃ second ns', pre ++ { n with block := n.block.freed } :: post =
        second :: ns' := List.exists_cons_of_ne_nil (by simp)
    have hblocks : second.block = b ∧ ns'.map Node.block = rest := by
      have := congrArg (List.map Node.block) hns
      rw [List.map_append, List.map_cons, heq, List.map_cons, List.cons.injEq] at this
      exact ⟨this.1.symm, this.2.symm⟩
    have hlen : (second :: ns').length < fuel := by
      rw [← hns]
      simpa using hfuel
    rw [hns] at hwrite
    obtain ⟨c', ns'', hret, hrep, hmem⟩ := merge_loop ns' _ [] second hwrite hlen
    have hstep : mergeStep fuel (c.write n.data n.block.freed, none,
        (c.write n.data n.block.freed).list.first) =
          .again (c.write n.data n.block.freed, some second.elem, next ns') := by
      have hcell : (c.write n.data n.block.freed).list.cells second.elem =
          some ⟨next ns', second.data⟩ :=
        (show Represents (c.write n.data n.block.freed) ([] ++ second :: ns') from hwrite).cell
      rw [hwrite.first]
      simp only [next, List.head?_cons, Option.map_some, mergeStep, mergeBody, hcell]
    have hloop : iterate (mergeStep fuel) ((second :: ns').length + 1) (c.write n.data n.block.freed,
        none, (c.write n.data n.block.freed).list.first) = some (some c') := by
      rw [iterate_succ_again hstep]
      exact hret
    refine ⟨c', ns'', ?_, hrep, ?_⟩
    · simp only [Option.map_some, h.elem, Option.bind_eq_bind, Option.bind_some]
      exact congrArg Option.join (iterate_mono (Nat.succ_le_of_lt hlen) hloop)
    · rw [hmem, hfree, ← hblocks.1, ← hblocks.2]
      rfl

/-- The loop of `list_nth` counts the nodes that are left. -/
theorem listNth_loop (h : Represents c ns) (index : ℕ) : ∀ (pre post : List Node) (i : ℕ),
    ns = pre ++ post → iterate (listNthStep c.list index) (post.length + 1) (next post, i) =
      some (some (post[index - i]?.map Node.elem)) := by
  intro pre post
  induction post generalizing pre with
  | nil => exact fun i _ => iterate_succ_leave rfl 0
  | cons n post ih =>
    rintro i rfl
    have hcell := h.cell
    by_cases hi : i < index
    · have hstep : listNthStep c.list index (next (n :: post), i) = .again (next post, i + 1) := by
        simp only [next, List.head?_cons, Option.map_some, listNthStep, hi, if_true, hcell]
      have hsub : index - i = index - (i + 1) + 1 := by omega
      rw [List.length_cons, iterate_succ_again hstep, ih (pre ++ [n]) (i + 1) (by simp), hsub,
        List.getElem?_cons_succ]
    · have hstep : listNthStep c.list index (next (n :: post), i) = .leave (some (some n.elem)) := by
        simp only [next, List.head?_cons, Option.map_some, listNthStep, hi, if_false]
      have hsub : index - i = 0 := by omega
      rw [iterate_succ_leave hstep, hsub, List.getElem?_cons_zero, Option.map_some]

/-- `mem_remove` on the nodes does what it does on blocks. -/
theorem memRemove_refines (h : Represents c ns) (hfuel : ns.length < fuel) (index : UInt32) :
    Refines (memRemove fuel c index) (some (Memory.memRemove (c.mem ns) index)) := by
  have hnth : listNth fuel c.list index.toNat = some (ns[index.toNat - 1]?.map Node.elem) := by
    have hloop := iterate_mono (Nat.succ_le_of_lt hfuel) (listNth_loop h index.toNat [] ns 1 rfl)
    rw [listNth, h.first]
    exact congrArg Option.join hloop
  rw [memRemove, hnth, Memory.memRemove, listNth_eq, State.mem_list, List.getElem?_map]
  cases hn : ns[index.toNat - 1]? with
  | none => exact ⟨c, ns, rfl, h, rfl⟩
  | some n =>
    obtain ⟨hlt, rfl⟩ := List.getElem?_eq_some_iff.1 hn
    simp only [Option.map_some, Option.bind_eq_bind, Option.bind_some, (h.split hlt).elem]
    exact memFree_refines h hfuel _

/-! ## Runs -/

/-- `malloc` has a block and a node for the call. -/
structure Call.Fresh (c : State) (call : Call) : Prop where
  block : c.blocks call.block = none
  elem : (call.malloc.pick c.list.cells).isSome

/-- A call on the nodes does what it does on blocks. -/
theorem exec_refines (h : Represents c ns) (hfuel : ns.length < fuel) {call : Call}
    (hfresh : call.Fresh c) : Refines (exec fuel c call) (Memory.exec (c.mem ns) call.op) := by
  obtain ⟨e, hpick⟩ := Option.isSome_iff_exists.1 hfresh.elem
  unfold exec Memory.exec
  cases call.op with
  | alloc size arena => exact memAlloc_refines h hfuel hfresh.block hpick size arena
  | remove index => exact memRemove_refines h hfuel index

/-- `malloc` has a block and a node for each call of the run. -/
def AllFresh (fuel : ℕ) : State → List Call → Prop
  | _, [] => True
  | c, call :: calls => call.Fresh c ∧ ∀ c', exec fuel c call = some c' → AllFresh fuel c' calls

theorem length_addMemblock_le (blocksize size : UInt32) (b : Memblock) :
    (Memory.addMemblock blocksize size b).length ≤ 2 := by
  rw [addMemblock_eq]
  split_ifs <;> simp

theorem length_firstFit_le (blocksize size : UInt32) (blocks : Int32) (l : List Memblock) :
    (Memory.firstFit blocksize size blocks l).length ≤ l.length + 1 := by
  rcases firstFit_cases blocksize size blocks l with heq | ⟨pre, b, post, rfl, -, -, heq⟩
  · rw [heq]
    exact Nat.le_succ _
  · have := length_addMemblock_le blocksize size b
    rw [heq]
    simp only [List.length_append, List.length_cons]
    omega

theorem length_memAlloc_le {size : UInt32} {arena : ℕ} (h : Memory.memAlloc m size arena = some m') :
    m'.list.length ≤ m.list.length + 1 := by
  unfold Memory.memAlloc at h
  split_ifs at h
  · rw [← Option.some.inj h]
    exact Nat.le_succ _
  · rw [← Option.some.inj h]
    exact le_rfl
  cases hs : m.strategy with
  | none | first =>
    simp only [hs] at h
    rw [← Option.some.inj h]
    exact length_firstFit_le ..
  | worst =>
    simp only [hs, Option.bind_eq_bind, Option.bind_eq_some_iff] at h
    obtain ⟨i, -, b, hb, hm⟩ := h
    obtain ⟨hi, -⟩ := List.getElem?_eq_some_iff.1 hb
    have := length_addMemblock_le m.blocksize size b
    rw [← Option.some.inj hm]
    simp only [List.length_append, List.length_take, List.length_drop]
    omega

theorem length_memRemove_le (m : Mem) (index : UInt32) :
    (Memory.memRemove m index).list.length ≤ m.list.length := by
  rcases memRemove_cases m index with heq | ⟨elem, first, rest, -, hmark, heq⟩
  · rw [heq]
  · have hlen := congrArg List.length (markFree_map hmark)
    simp only [List.length_map, List.length_cons] at hlen
    rw [heq, ← hlen]
    exact mergeFree_length_le m.blocksize rest first

/-- A call adds at most one block. -/
theorem length_exec_le {op : Op} (h : Memory.exec m op = some m') :
    m'.list.length ≤ m.list.length + 1 := by
  cases op with
  | alloc size arena => exact length_memAlloc_le h
  | remove index =>
    rw [← Option.some.inj h]
    exact (length_memRemove_le m index).trans (Nat.le_succ _)

/-- A run of calls on the nodes does what it does on blocks. -/
theorem run_refines (calls : List Call) : ∀ (c : State) (ns : List Node), Represents c ns →
    AllFresh fuel c calls → ns.length + calls.length < fuel →
    Refines (run fuel c calls) (Memory.run (c.mem ns) (calls.map Call.op)) := by
  induction calls with
  | nil => exact fun c ns h _ _ => ⟨c, ns, rfl, h, rfl⟩
  | cons call calls ih =>
    intro c ns h hfresh hfuel
    rw [List.length_cons] at hfuel
    have hlt : ns.length < fuel := by omega
    have hcall := exec_refines h hlt hfresh.1
    rw [List.map_cons, run, Memory.run]
    cases hexec : Memory.exec (c.mem ns) call.op with
    | none =>
      rw [hexec] at hcall
      have hnone : exec fuel c call = none := hcall
      rw [hnone]
      rfl
    | some m =>
      rw [hexec] at hcall
      obtain ⟨c', ns', hc', hrep, rfl⟩ := hcall
      have hlen := length_exec_le hexec
      simp only [State.mem_list, List.length_map] at hlen
      rw [hc', Option.bind_some, Option.bind_some]
      exact ih c' ns' hrep (hfresh.2 c' hc') (by omega)

/-- From `mem_init` on, the nodes stand for the blocks: while `malloc` does not fail, the calls on the
nodes do to the blocks what they do in `Memory`. -/
theorem run_memInit_refines (size blocksize : UInt32) (strategy : MemAlgo) (arena block : ℕ)
    (malloc : Malloc ℕ) (calls : List Call)
    (hpick : (malloc.pick (Store.empty : Store ℕ).cells).isSome)
    (hfresh : AllFresh fuel (memInit size blocksize strategy arena block malloc) calls)
    (hfuel : calls.length + 1 < fuel) :
    Refines (run fuel (memInit size blocksize strategy arena block malloc) calls)
      (Memory.run (Memory.memInit size blocksize strategy arena) (calls.map Call.op)) := by
  obtain ⟨e, he⟩ := Option.isSome_iff_exists.1 hpick
  have hempty : Represents { blocksize, size, strategy, list := .empty, blocks := fun _ => none } [] :=
    ⟨.empty, List.nodup_nil, by simp⟩
  obtain ⟨c, ns, hc, hrep, hmem⟩ := addMemblockFront_refines hempty rfl he size arena
  have hinit : c = memInit size blocksize strategy arena block malloc := (Option.some.inj hc).symm
  have hlen := congrArg (fun m => m.list.length) hmem
  simp only [State.mem_list, List.length_map, Memory.addMemblockFront, List.length_cons,
    List.length_nil] at hlen
  subst hinit
  have hmem' : State.mem _ ns = Memory.memInit size blocksize strategy arena := hmem
  rw [← hmem']
  exact run_refines calls _ ns hrep hfresh (by simp at hlen; omega)

-- the split puts a node in, and the merge takes the one in front of it out again
example : ∃ c, run 5 (memInit 8192 4096 .first 1000 0 (.firstFree 4))
      [⟨.alloc 100 0, 1, .firstFree 4⟩, ⟨.remove 1, 2, .firstFree 4⟩] = some c ∧
    c.list.first = some 1 ∧ c.list.last = some 1 :=
  ⟨_, rfl, rfl, rfl⟩

end Sem3.Memory.Nodes
