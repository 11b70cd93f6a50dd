import Sem3.Memory.Proofs.AccountingProofs

/-!
# Proofs: which block serves a request

First fit takes the first free block that is large enough. Worst fit looks for the block with most
space left over, but it starts from nothing left over and so misses a block that fits exactly; with
no block found it dereferences `NULL`.
-/

namespace Sem3.Memory

variable {m m' : Mem} {size blocksize request : UInt32} {l : List Memblock}

/-! ## One block -/

/-- The comparison with `blocks` in both loops. -/
theorem ge_blocksFor_iff (h : request.toNat + blocksize.toNat < 2 ^ 31) (temp : Memblock) :
    temp.size ≥ (blocksFor blocksize request).toUInt32 ↔
      roundUp blocksize.toNat request.toNat ≤ temp.len := by
  rw [ge_iff_le, blocksFor_eq, UInt32.le_iff_toNat_le, rounded_toNat _ _ (by omega)]
  rfl

/-- `add_memblock` on a block that is large enough. -/
theorem addMemblock_eq_carve {b : Memblock} (h : request.toNat + blocksize.toNat < 2 ^ 31)
    (hlt : b.len < 2 ^ 31) (hfit : b.Fits blocksize.toNat request.toNat) :
    addMemblock blocksize request b = b.carve blocksize.toNat request.toNat := by
  obtain ⟨taken, left, htaken, hsum, heq⟩ := addMemblock_spec h hlt hfit.2
  have htaken' : taken = .ofNat (roundUp blocksize.toNat request.toNat) := by
    rw [← htaken, UInt32.ofNat_toNat]
  have hleft' : left = .ofNat (b.len - roundUp blocksize.toNat request.toNat) := by
    rw [← htaken, ← hsum, Nat.add_sub_cancel_left, UInt32.ofNat_toNat]
  have hzero : left = 0 ↔ ¬ roundUp blocksize.toNat request.toNat < b.len := by
    rw [← not_iff_not, not_not, ← ne_eq, ← toNat_pos_iff]
    omega
  rw [heq, Memblock.carve]
  simp only [hzero, ite_not, ← htaken', ← hleft', UInt32.ofNat_toNat, htaken]

/-! ## First fit -/

/-- The filter on `in_use` never rejects a free block. -/
theorem firstFit_eq (h : request.toNat + blocksize.toNat < 2 ^ 31)
    (hunused : ∀ b ∈ l, b.status = .free_ → b.inUse = 0) :
    (∃ pre b post, l = pre ++ b :: post ∧ b.Fits blocksize.toNat request.toNat ∧
      (∀ c ∈ pre, ¬ c.Fits blocksize.toNat request.toNat) ∧
      firstFit blocksize request (blocksFor blocksize request) l =
        pre ++ addMemblock blocksize request b ++ post) ∨
    (∀ b ∈ l, ¬ b.Fits blocksize.toNat request.toNat) ∧
      firstFit blocksize request (blocksFor blocksize request) l = l := by
  induction l with
  | nil => exact .inr ⟨by simp, rfl⟩
  | cons temp rest ih =>
    have hif : (temp.status = .free_ ∧ temp.size ≥ (blocksFor blocksize request).toUInt32 ∧
        temp.inUse ≤ (blocksFor blocksize request).toUInt32) ↔
          temp.Fits blocksize.toNat request.toNat := by
      rw [ge_blocksFor_iff h, Memblock.Fits, ← and_assoc, and_iff_left_iff_imp]
      rintro ⟨hfree, -⟩
      rw [hunused temp (by simp) hfree]
      exact UInt32.zero_le
    rw [firstFit]
    by_cases hfit : temp.Fits blocksize.toNat request.toNat
    · rw [if_pos (hif.2 hfit)]
      exact .inl ⟨[], temp, rest, rfl, hfit, by simp, rfl⟩
    · rw [if_neg (mt hif.1 hfit)]
      rcases ih fun b hb => hunused b (List.mem_cons_of_mem temp hb) with
        ⟨pre, b, post, hl, hb, hpre, heq⟩ | ⟨hno, heq⟩
      · refine .inl ⟨temp :: pre, b, post, by rw [hl]; rfl, hb, ?_, by rw [heq]; rfl⟩
        simpa [hfit] using hpre
      · exact .inr ⟨by simpa [hfit] using hno, by rw [heq]⟩

/-! ## Worst fit -/

/-- What a block that fits leaves of its bytes. -/
theorem toNat_sub_of_fits (hbs : 0 < blocksize.toNat) {temp : Memblock}
    (hfit : temp.Fits blocksize.toNat request.toNat) :
    (temp.size - request).toNat = temp.len - request.toNat ∧ request.toNat ≤ temp.len := by
  have hreq := (le_roundUp blocksize.toNat request.toNat hbs).trans hfit.2
  exact ⟨toNat_sub_of_le hreq, hreq⟩

/-- The test of the worst-fit loop. -/
theorem leaves_more_iff (h : request.toNat + blocksize.toNat < 2 ^ 31) (hbs : 0 < blocksize.toNat)
    (blend : UInt32) (temp : Memblock) :
    (temp.status = .free_ ∧ temp.size ≥ (blocksFor blocksize request).toUInt32 ∧
      temp.size - request > blend.toInt32.toUInt32) ↔
        temp.Fits blocksize.toNat request.toNat ∧ request.toNat + blend.toNat < temp.len := by
  rw [ge_blocksFor_iff h, UInt32.toUInt32_toInt32, ← and_assoc, ← Memblock.Fits, gt_iff_lt,
    UInt32.lt_iff_toNat_lt]
  apply and_congr_right
  intro hfit
  have := toNat_sub_of_fits hbs hfit
  omega

/-- The worst-fit loop finds the first of the largest blocks that leave more than `blend` bytes. -/
theorem worstFit_eq (h : request.toNat + blocksize.toNat < 2 ^ 31) (hbs : 0 < blocksize.toNat)
    (i : ℕ) (blend : UInt32) (worstElem : Option ℕ) :
    ((∀ c ∈ l, c.Fits blocksize.toNat request.toNat → c.len ≤ request.toNat + blend.toNat) ∧
      worstFit request (blocksFor blocksize request) l i blend.toInt32 worstElem = worstElem) ∨
    ∃ pre b post, l = pre ++ b :: post ∧ b.Fits blocksize.toNat request.toNat ∧
      request.toNat + blend.toNat < b.len ∧
      (∀ c ∈ pre, c.Fits blocksize.toNat request.toNat → c.len < b.len) ∧
      (∀ c ∈ post, c.Fits blocksize.toNat request.toNat → c.len ≤ b.len) ∧
      worstFit request (blocksFor blocksize request) l i blend.toInt32 worstElem =
        some (i + pre.length) := by
  induction l generalizing i blend worstElem with
  | nil => exact .inl ⟨by simp, rfl⟩
  | cons temp rest ih =>
    have hif := leaves_more_iff h hbs blend temp
    -- a block that is found behind `temp` is larger than it
    have hlater : ∀ {pre : List Memblock} {b : Memblock},
        (temp.Fits blocksize.toNat request.toNat → temp.len < b.len) →
        (∀ c ∈ pre, c.Fits blocksize.toNat request.toNat → c.len < b.len) →
        ∀ c ∈ temp :: pre, c.Fits blocksize.toNat request.toNat → c.len < b.len := by
      intro pre b htemp hpre c hc hcfit
      rcases List.mem_cons.1 hc with rfl | hc
      · exact htemp hcfit
      · exact hpre c hc hcfit
    have hindex : ∀ n, i + 1 + n = i + (n + 1) := fun n => by omega
    rw [worstFit]
    by_cases hfit : temp.Fits blocksize.toNat request.toNat ∧
        request.toNat + blend.toNat < temp.len
    · rw [if_pos (hif.2 hfit)]
      obtain ⟨hdiff, hle⟩ := toNat_sub_of_fits hbs hfit.1
      right
      rcases ih (i + 1) (temp.size - request) (some i) with
        ⟨hno, heq⟩ | ⟨pre, b, post, hl, hb, hlt, hpre, hpost, heq⟩
      · refine ⟨[], temp, rest, rfl, hfit.1, hfit.2, by simp, ?_, heq⟩
        intro c hc hcfit
        have := hno c hc hcfit
        omega
      · refine ⟨temp :: pre, b, post, by rw [hl]; rfl, hb, by omega, ?_, hpost, ?_⟩
        · exact hlater (fun _ => by omega) hpre
        · rw [heq, List.length_cons, hindex]
    · rw [if_neg (mt hif.1 hfit)]
      have hsmall : temp.Fits blocksize.toNat request.toNat →
          temp.len ≤ request.toNat + blend.toNat := fun htemp =>
        not_lt.1 fun hlt => hfit ⟨htemp, hlt⟩
      rcases ih (i + 1) blend worstElem with
        ⟨hno, heq⟩ | ⟨pre, b, post, hl, hb, hlt, hpre, hpost, heq⟩
      · refine .inl ⟨?_, heq⟩
        intro c hc hcfit
        rcases List.mem_cons.1 hc with rfl | hc
        · exact hsmall hcfit
        · exact hno c hc hcfit
      · refine .inr ⟨temp :: pre, b, post, by rw [hl]; rfl, hb, hlt, ?_, hpost, ?_⟩
        · exact hlater (fun htemp => (hsmall htemp).trans_lt hlt) hpre
        · rw [heq, List.length_cons, hindex]

/-! ## Reached states -/

theorem exec_strategy (hI : Inv m) {op : Op} (h : exec m op = some m') :
    m'.strategy = m.strategy := by
  cases op with
  | alloc size arena =>
    rcases memAlloc_cases hI h with rfl | ⟨pre, current, post, taken, left, -, -, -, -, -, rfl⟩ <;> rfl
  | remove index =>
    rw [← Option.some.inj h]
    rcases memRemove_cases m index with heq | ⟨elem, first, rest, -, -, heq⟩ <;> rw [heq]

variable {strategy : MemAlgo} {base : ℕ} {ops : List Op}

/-- What `mem_init` sets stays as it is. -/
theorem run_const (hbs : 1 ≤ blocksize.toNat) (hsz : size.toNat + blocksize.toNat < 2 ^ 31)
    (hrun : run (memInit size blocksize strategy base) ops = some m) :
    Inv m ∧ m.size = size ∧ m.blocksize = blocksize ∧ m.strategy = strategy := by
  rw [run_eq_foldlM] at hrun
  refine Run.foldlM_invariant (I := fun m => Inv m ∧ m.size = size ∧ m.blocksize = blocksize ∧
    m.strategy = strategy) hrun ⟨memInit_inv hbs hsz strategy, rfl, rfl, rfl⟩ ?_
  rintro s op - s' ⟨hI, hsize, hblocksize, hstrategy⟩ hexec
  have hconst := exec_const hI hexec
  exact ⟨exec_inv hI hexec, hconst.1.trans hsize, hconst.2.trans hblocksize,
    (exec_strategy hI hexec).trans hstrategy⟩

/-- An empty arena never changes. -/
theorem exec_empty (hsize : size.toNat = 0) (op : Op) :
    exec (memInit size blocksize strategy base) op =
      some (memInit size blocksize strategy base) := by
  cases op with
  | alloc request arena =>
    have hguard : request = 0 ∨ request > size := by
      rw [or_iff_not_imp_left, ← ne_eq, ← toNat_pos_iff, gt_iff_lt, UInt32.lt_iff_toNat_lt]
      omega
    exact if_pos hguard
  | remove index =>
    rcases hnth : listNth index.toNat 1 (memInit size blocksize strategy base).list with _ | elem
    · simp only [exec, memRemove, hnth]
    · have helem : elem = ⟨.free_, base, size, 0⟩ := by
        simp only [memInit, addMemblockFront, listNth] at hnth
        split_ifs at hnth
        exact (Option.some.inj hnth).symm
      simp only [exec, memRemove, hnth, helem]
      simp [memFree, memInit, addMemblockFront, markFree, mergeFree]

theorem run_empty (hsize : size.toNat = 0) :
    run (memInit size blocksize strategy base) ops =
      some (memInit size blocksize strategy base) := by
  induction ops with
  | nil => rfl
  | cons op ops ih => rw [run, exec_empty hsize, Option.bind_some, ih]

/-- A free block is not in use. -/
theorem unused_of_run (hbs : 1 ≤ blocksize.toNat) (hsz : size.toNat + blocksize.toNat < 2 ^ 31)
    (hrun : run (memInit size blocksize strategy base) ops = some m) :
    ∀ b ∈ m.list, b.status = .free_ → b.inUse = 0 := by
  rcases Nat.eq_zero_or_pos size.toNat with hsize | hsize
  · rw [run_empty hsize] at hrun
    rw [← Option.some.inj hrun]
    simp [memInit, addMemblockFront]
  · intro b hb hfree
    have h := (memInit_kept hsize hbs hsz strategy base).run ops hrun
    exact ((h.booked.block b hb).1 hfree).1

/-! ## `mem_alloc` -/

/-- The first test of `mem_alloc`. -/
theorem not_guard_iff (request size : UInt32) :
    ¬ (request = 0 ∨ request > size) ↔ 1 ≤ request.toNat ∧ request.toNat ≤ size.toNat := by
  rw [not_or, ← ne_eq, ← toNat_pos_iff, gt_iff_lt, UInt32.lt_iff_toNat_lt, not_lt]
  rfl

/-- A request for nothing, or for more than the memory, is refused. -/
theorem memAlloc_guard (h : ¬ (1 ≤ request.toNat ∧ request.toNat ≤ m.size.toNat)) (arena : ℕ) :
    memAlloc m request arena = some m := by
  rw [← not_guard_iff, not_not] at h
  exact if_pos h

theorem not_servable (h : ¬ (1 ≤ request.toNat ∧ request.toNat ≤ m.size.toNat)) :
    ¬ Servable m.size.toNat m.blocksize.toNat m.list request.toNat :=
  fun hserv => h ⟨hserv.1, hserv.2.1⟩

/-- In every reached state a request is served by the first block that is large enough, and the list
stays as it is if there is none. -/
theorem memAlloc_first_fit (hstrategy : strategy ≠ .worst) (hbs : 1 ≤ blocksize.toNat)
    (hsz : size.toNat + blocksize.toNat < 2 ^ 31)
    (hrun : run (memInit size blocksize strategy base) ops = some m) (request : UInt32)
    (arena : ℕ) : Answers ServedFirst m request.toNat (memAlloc m request arena) := by
  obtain ⟨hI, rfl, rfl, rfl⟩ := run_const hbs hsz hrun
  have hunused := unused_of_run hbs hsz hrun
  by_cases hguard : 1 ≤ request.toNat ∧ request.toNat ≤ m.size.toNat
  · have hsum : request.toNat + m.blocksize.toNat < 2 ^ 31 := by omega
    have halloc : memAlloc m request arena = some { m with
        list := firstFit m.blocksize request (blocksFor m.blocksize request) m.list } := by
      rw [memAlloc, if_neg ((not_guard_iff request m.size).2 hguard), if_neg hI.ne_nil]
      cases hs : m.strategy with
      | none => rfl
      | first => rfl
      | worst => exact absurd hs hstrategy
    rcases firstFit_eq hsum hunused with ⟨pre, b, post, hl, hb, hpre, heq⟩ | ⟨hno, heq⟩
    · refine ⟨_, halloc, fun _ => ⟨_, ⟨pre, b, post, hl, hb, hpre, rfl⟩, ?_⟩, ?_⟩
      · rw [heq, addMemblock_eq_carve hsum (hI.len_lt hl) hb]
      · intro hnot
        exact absurd ⟨hguard.1, hguard.2, b, by simp [hl], hb⟩ hnot
    · refine ⟨_, halloc, ?_, fun _ => by rw [heq]⟩
      rintro ⟨-, -, b, hb, hfit⟩
      exact absurd hfit (hno b hb)
  · exact ⟨m, memAlloc_guard hguard arena, fun h => absurd h (not_servable hguard), fun _ => rfl⟩

/-- The request goes to the block that an earlier call freed. -/
theorem memAlloc_first_fit_hole :
    Answers ServedFirst
      ⟨4096, 16384, .first,
        [⟨.free_, 1000, 4096, 0⟩, ⟨.used, 5096, 4096, 7⟩, ⟨.free_, 9192, 8192, 0⟩]⟩
      (UInt32.toNat 100)
      (memAlloc ⟨4096, 16384, .first,
        [⟨.free_, 1000, 4096, 0⟩, ⟨.used, 5096, 4096, 7⟩, ⟨.free_, 9192, 8192, 0⟩]⟩ 100 0) := by
  have hrun : run (memInit 16384 4096 .first 1000) [.alloc 50 0, .alloc 7 0, .remove 1] =
      some ⟨4096, 16384, .first,
        [⟨.free_, 1000, 4096, 0⟩, ⟨.used, 5096, 4096, 7⟩, ⟨.free_, 9192, 8192, 0⟩]⟩ := by
    decide
  exact memAlloc_first_fit (by decide) (by decide) (by decide) hrun 100 0

/-- `worst_elem` is `NULL` if no block leaves a byte over. -/
theorem memAlloc_worst (hI : Inv m) (hworst : m.strategy = .worst)
    (hguard : 1 ≤ request.toNat ∧ request.toNat ≤ m.size.toNat) (arena : ℕ) :
    ((∀ c ∈ m.list, c.Fits m.blocksize.toNat request.toNat → c.len ≤ request.toNat) ∧
      memAlloc m request arena = none) ∨
    ∃ b ∈ m.list, b.Fits m.blocksize.toNat request.toNat ∧ request.toNat < b.len ∧
      ∃ l, ServedLargest m.blocksize.toNat request.toNat m.list l ∧
        memAlloc m request arena = some { m with list := l } := by
  have hsum : request.toNat + m.blocksize.toNat < 2 ^ 31 := by have := hI.bound; omega
  have halloc : memAlloc m request arena =
      (worstFit request (blocksFor m.blocksize request) m.list 0 (0 : UInt32).toInt32 none).bind
        fun i => m.list[i]?.bind fun current => some { m with
          list := m.list.take i ++ addMemblock m.blocksize request current ++ m.list.drop (i + 1) } := by
    rw [memAlloc, if_neg ((not_guard_iff request m.size).2 hguard), if_neg hI.ne_nil, hworst]
    rfl
  have hzero : (0 : UInt32).toNat = 0 := rfl
  rcases worstFit_eq hsum hI.blocksize_pos (l := m.list) 0 0 none with
    ⟨hno, heq⟩ | ⟨pre, b, post, hl, hb, hlt, hpre, hpost, heq⟩
  · exact .inl ⟨by simpa [hzero] using hno, by rw [halloc, heq]; rfl⟩
  · refine .inr ⟨b, by simp [hl], hb, by omega, _, ⟨pre, b, post, hl, hb, ?_, ?_, rfl⟩, ?_⟩
    · intro c hc hfree
      by_contra hge
      exact hge (hpre c hc ⟨hfree, hb.2.trans (not_lt.1 hge)⟩)
    · intro c hc hfree
      by_contra hgt
      exact hgt (hpost c hc ⟨hfree, hb.2.trans (not_le.1 hgt).le⟩)
    · have hget : m.list[0 + pre.length]? = some b := by simp [hl]
      rw [halloc, heq, Option.bind_some, hget, Option.bind_some,
        addMemblock_eq_carve hsum (hI.len_lt hl) hb]
      simp [hl]

/-- Worst fit answers a request if the guard turns it away or some block is larger than it; else it
dereferences `NULL`. -/
theorem memAlloc_worst_fit_iff (hbs : 1 ≤ blocksize.toNat)
    (hsz : size.toNat + blocksize.toNat < 2 ^ 31)
    (hrun : run (memInit size blocksize .worst base) ops = some m) (request : UInt32)
    (arena : ℕ) :
    Answers ServedLargest m request.toNat (memAlloc m request arena) ↔
      request.toNat = 0 ∨ size.toNat < request.toNat ∨
        ∃ b ∈ m.list, b.Fits blocksize.toNat request.toNat ∧ request.toNat < b.len := by
  obtain ⟨hI, rfl, rfl, hworst⟩ := run_const hbs hsz hrun
  by_cases hguard : 1 ≤ request.toNat ∧ request.toNat ≤ m.size.toNat
  · have hcond : (request.toNat = 0 ∨ m.size.toNat < request.toNat ∨
        ∃ b ∈ m.list, b.Fits m.blocksize.toNat request.toNat ∧ request.toNat < b.len) ↔
          ∃ b ∈ m.list, b.Fits m.blocksize.toNat request.toNat ∧ request.toNat < b.len := by
      constructor
      · rintro (h | h | h)
        · omega
        · omega
        · exact h
      · exact fun h => .inr (.inr h)
    rw [hcond]
    rcases memAlloc_worst hI hworst hguard arena with
      ⟨hno, hnone⟩ | ⟨b, hb, hfit, hlt, l, hserved, hsome⟩
    · constructor
      · rintro ⟨m', hm', -⟩
        rw [hnone] at hm'
        cases hm'
      · rintro ⟨b, hb, hfit, hlt⟩
        exact absurd hlt (not_lt.2 (hno b hb hfit))
    · refine ⟨fun _ => ⟨b, hb, hfit, hlt⟩, fun _ => ⟨_, hsome, fun _ => ⟨l, hserved, rfl⟩, ?_⟩⟩
      intro hnot
      exact absurd ⟨hguard.1, hguard.2, b, hb, hfit⟩ hnot
  · refine ⟨fun _ => by omega, fun _ => ?_⟩
    exact ⟨m, memAlloc_guard hguard arena, fun h => absurd h (not_servable hguard), fun _ => rfl⟩

/-- The free block at the end is the only one that is larger than the request. -/
theorem memAlloc_worst_fit_iff_two_blocks :
    Answers ServedLargest
        ⟨4096, 12288, .worst, [⟨.used, 1000, 4096, 50⟩, ⟨.free_, 5096, 8192, 0⟩]⟩
        (UInt32.toNat 5000)
        (memAlloc ⟨4096, 12288, .worst, [⟨.used, 1000, 4096, 50⟩, ⟨.free_, 5096, 8192, 0⟩]⟩ 5000 0) ↔
      UInt32.toNat 5000 = 0 ∨ UInt32.toNat 12288 < UInt32.toNat 5000 ∨
        ∃ b ∈ [⟨.used, 1000, 4096, 50⟩, ⟨.free_, 5096, 8192, 0⟩],
          Memblock.Fits (UInt32.toNat 4096) (UInt32.toNat 5000) b ∧ UInt32.toNat 5000 < b.len := by
  have hrun : run (memInit 12288 4096 .worst 1000) [.alloc 50 0] =
      some ⟨4096, 12288, .worst, [⟨.used, 1000, 4096, 50⟩, ⟨.free_, 5096, 8192, 0⟩]⟩ := by
    decide
  exact memAlloc_worst_fit_iff (by decide) (by decide) hrun 5000 0

/-- A request that leaves no byte of the arena over. -/
theorem not_answers_exact_fit :
    ¬ Answers ServedLargest (memInit 8192 4096 .worst 1000) 8192
      (memAlloc (memInit 8192 4096 .worst 1000) 8192 0) := by
  rintro ⟨m', hm', -⟩
  have hnone : memAlloc (memInit 8192 4096 .worst 1000) 8192 0 = none := by decide
  rw [hnone] at hm'
  cases hm'

end Sem3.Memory
