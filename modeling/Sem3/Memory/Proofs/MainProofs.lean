import Sem3.Memory.MainSpec
import Sem3.Memory.Proofs.CallProofs
import Mathlib.Data.List.TakeWhile

/-!
# Proofs: the command line of the allocator

Up to the first `-a` an option only makes a setting, or it is a `-f` and stops the program. From then
on the block size is fixed. If it is not 0 no division fails; if it is 0 the list is one free block
until a request passes the first test of `mem_alloc`, and that request stops the program.
-/

namespace Sem3.Memory

variable {m m' : Mem} {v v' : Vars} {opts : List Opt} {blocksize : UInt32}

/-! ## `memory.c` with its divisions -/

theorem divides_of_ne (h : blocksize ≠ 0) : divides blocksize = .ok () := if_neg h

/-- With a block size, `mem_alloc` only fails at the element `NULL`. -/
theorem memAllocChecked_of_ne (h : m.blocksize ≠ 0) (size : UInt32) (arena : ℕ) :
    memAllocChecked m size arena =
      match memAlloc m size arena with
      | none => .error .nullElem
      | some m' => .ok m' := by
  by_cases hguard : size = 0 ∨ size > m.size
  · simp only [memAllocChecked, memAlloc, if_pos hguard]
    rfl
  by_cases hnil : m.list = []
  · simp only [memAllocChecked, memAlloc, if_neg hguard, if_pos hnil]
    rfl
  · rw [memAllocChecked, if_neg hguard, if_neg hnil, divides_of_ne h]
    rfl

/-- With a block size, the merge loop does not fail. -/
theorem mergeFreeChecked_of_ne (h : blocksize ≠ 0) (second : Memblock) (rest : List Memblock) :
    mergeFreeChecked blocksize second rest = .ok (mergeFree blocksize second rest) := by
  induction rest generalizing second with
  | nil => rfl
  | cons first rest ih =>
    rw [mergeFreeChecked, mergeFree, divides_of_ne h]
    simp only [ih]
    split_ifs <;> rfl

/-- With a block size, `mem_remove` does not fail. -/
theorem memRemoveChecked_of_ne (h : m.blocksize ≠ 0) (index : UInt32) :
    memRemoveChecked m index = .ok (memRemove m index) := by
  unfold memRemoveChecked memRemove
  cases listNth index.toNat 1 m.list with
  | none => rfl
  | some elem =>
    simp only [memFreeChecked, memFree]
    rcases markFree elem.addr m.list with _ | _ | ⟨first, rest⟩
    · rfl
    · rfl
    · simp only [mergeFreeChecked_of_ne h]
      rfl

theorem memAlloc_blocksize {size : UInt32} {arena : ℕ} (h : memAlloc m size arena = some m') :
    m'.blocksize = m.blocksize := by
  unfold memAlloc at h
  split_ifs at h
  · rw [← Option.some.inj h]
  · rw [← Option.some.inj h]
    rfl
  · cases hs : m.strategy with
    | none | first =>
      rw [hs] at h
      rw [← Option.some.inj h]
    | worst =>
      rw [hs] at h
      simp only [Option.bind_eq_bind, Option.bind_eq_some_iff] at h
      obtain ⟨i, -, current, -, hm'⟩ := h
      rw [← Option.some.inj hm']

/-- `mem_remove` does not change the block size. -/
theorem memRemove_blocksize (m : Mem) (index : UInt32) :
    (memRemove m index).blocksize = m.blocksize := by
  rcases memRemove_cases m index with heq | ⟨elem, first, rest, -, -, heq⟩ <;> rw [heq]

/-! ## Up to the first `-a` -/

theorem not_isAlloc_of_mem_leading {o : Opt} (h : o ∈ leading opts) : ¬ o.IsAlloc := by
  simpa using List.mem_takeWhile_imp h

/-- Options that only set variables do not fail. -/
theorem foldlM_handle_set (hno : ∀ o ∈ opts, ¬ o.IsAlloc) (hf : ∀ index, .f index ∉ opts)
    (v : Vars) : opts.foldlM handle v = .ok (opts.foldl Vars.set v) := by
  induction opts generalizing v with
  | nil => rfl
  | cons o opts ih =>
    have hhandle : handle v o = .ok (v.set o) := by
      cases o with
      | m | b | one | w => rfl
      | a size arena => exact absurd rfl (hno _ List.mem_cons_self)
      | f index => exact absurd List.mem_cons_self (hf index)
    rw [List.foldlM_cons, hhandle, List.foldl_cons]
    exact ih (fun o ho => hno o (List.mem_cons_of_mem _ ho))
      (fun index h => hf index (List.mem_cons_of_mem _ h)) _

/-- The first `-f` finds no list. -/
theorem foldlM_handle_f (hno : ∀ o ∈ opts, ¬ o.IsAlloc) {index : Int32} (hf : .f index ∈ opts)
    (hv : v.globals = none) : opts.foldlM handle v = .error .nullList := by
  induction opts generalizing v with
  | nil => cases hf
  | cons o opts ih =>
    have hrest : ∀ o ∈ opts, ¬ o.IsAlloc := fun o ho => hno o (List.mem_cons_of_mem _ ho)
    rw [List.foldlM_cons]
    cases o with
    | a size arena => exact absurd rfl (hno _ List.mem_cons_self)
    | f index =>
      simp only [handle, hv]
      rfl
    | m | b | one | w => exact ih hrest (by simpa using hf) hv

theorem settings_not_init (l : List Opt) (hv : v.init = false) :
    (l.foldl Vars.set v).init = false := by
  induction l generalizing v with
  | nil => exact hv
  | cons o l ih => exact ih (by cases o <;> exact hv)

/-- The variables once `-a` has called `mem_init`. -/
def Vars.started (v : Vars) (arena : ℕ) : Vars :=
  { v with globals := some (memInit v.memorySize v.blocksize v.strategy arena), init := true }

/-- The first `-a` calls `mem_init`, and any other one finds the memory. -/
theorem foldlM_handle_started (hv : v.init = false) (size : Int32) (arena : ℕ) (l : List Opt) :
    (Opt.a size arena :: l).foldlM handle v =
      (Opt.a size arena :: l).foldlM handle (v.started arena) := by
  rw [List.foldlM_cons, List.foldlM_cons]
  simp only [handle, hv, Vars.started]
  rfl

/-! ## From the first `-a` on -/

/-- With a block size other than 0, all that can go wrong is `worst_elem`. -/
theorem foldlM_handle_of_ne (hv : v.init = true) (hm : v.globals = some m) (h : m.blocksize ≠ 0) :
    (∃ v', opts.foldlM handle v = .ok v') ∨ opts.foldlM handle v = .error .nullElem := by
  induction opts generalizing v m with
  | nil => exact .inl ⟨v, rfl⟩
  | cons o opts ih =>
    rw [List.foldlM_cons]
    cases o with
    | m | b | one | w => exact ih (by exact hv) (by exact hm) h
    | a size arena =>
      simp only [handle, hv, hm, if_true, memAllocChecked_of_ne h]
      cases halloc : memAlloc m size.toUInt32 arena with
      | none => exact .inr rfl
      | some m' => exact ih rfl rfl (by rwa [memAlloc_blocksize halloc])
    | f index =>
      simp only [handle, hm, memRemoveChecked_of_ne h]
      exact ih (by exact hv) rfl (by rwa [memRemove_blocksize])

variable {memorySize : UInt32} {strategy : MemAlgo} {base : ℕ}

/-- `mem_alloc` turns the request away. -/
def Refused (memorySize : UInt32) (size : Int32) : Prop :=
  size.toUInt32 = 0 ∨ size.toUInt32 > memorySize

/-- One free block is left alone by `mem_remove`. -/
theorem memRemoveChecked_memInit (index : UInt32) :
    memRemoveChecked (memInit memorySize blocksize strategy base) index =
      .ok (memInit memorySize blocksize strategy base) := by
  unfold memRemoveChecked memInit addMemblockFront
  simp only [listNth]
  split_ifs
  · rfl
  · simp [memFreeChecked, markFree, mergeFreeChecked]
    rfl

/-- With the block size 0, an option does not fail if its request is refused. -/
theorem handle_zero (hv : v.init = true)
    (hm : v.globals = some (memInit memorySize 0 strategy base)) {o : Opt}
    (ho : ∀ size arena, o = .a size arena → Refused memorySize size) :
    ∃ v', handle v o = .ok v' ∧ v'.init = true ∧ v'.globals = v.globals := by
  cases o with
  | m | b | one | w => exact ⟨_, rfl, hv, rfl⟩
  | a size arena =>
    have halloc : memAllocChecked (memInit memorySize 0 strategy base) size.toUInt32 arena =
        .ok (memInit memorySize 0 strategy base) := if_pos (ho size arena rfl)
    simp only [handle, hv, hm, if_true, halloc]
    exact ⟨_, rfl, rfl, rfl⟩
  | f index =>
    simp only [handle, hm, memRemoveChecked_memInit]
    exact ⟨_, rfl, hv, rfl⟩

theorem foldlM_handle_zero (hv : v.init = true)
    (hm : v.globals = some (memInit memorySize 0 strategy base))
    (hall : ∀ size arena, .a size arena ∈ opts → Refused memorySize size) :
    ∃ v', opts.foldlM handle v = .ok v' := by
  induction opts generalizing v with
  | nil => exact ⟨v, rfl⟩
  | cons o opts ih =>
    obtain ⟨v', hhandle, hv', hm'⟩ := handle_zero (o := o) hv hm
      fun size arena ho => hall size arena (ho ▸ List.mem_cons_self)
    rw [List.foldlM_cons, hhandle]
    exact ih hv' (hm'.trans hm) fun size arena ho => hall size arena (List.mem_cons_of_mem _ ho)

/-- The first request that is not turned away divides by 0. -/
theorem foldlM_handle_divByZero (hv : v.init = true)
    (hm : v.globals = some (memInit memorySize 0 strategy base)) {size : Int32} {arena : ℕ}
    (hmem : .a size arena ∈ opts) (hnot : ¬ Refused memorySize size) :
    opts.foldlM handle v = .error .divByZero := by
  induction opts generalizing v with
  | nil => cases hmem
  | cons o opts ih =>
    rw [List.foldlM_cons]
    by_cases ho : ∀ size arena, o = .a size arena → Refused memorySize size
    · obtain ⟨v', hhandle, hv', hm'⟩ := handle_zero hv hm ho
      rw [hhandle]
      refine ih hv' (hm'.trans hm) ?_
      rcases List.mem_cons.1 hmem with heq | hmem
      · exact absurd (ho size arena heq.symm) hnot
      · exact hmem
    · push Not at ho
      obtain ⟨size', arena', rfl, hserved⟩ := ho
      have hfault : memAllocChecked (memInit memorySize 0 strategy base) size'.toUInt32 arena' =
          .error .divByZero := if_neg hserved
      simp only [handle, hv, hm, if_true, hfault]
      rfl

theorem guarded_ok (v : Vars) : Guarded (.ok v) := ⟨nofun, nofun⟩

/-- Once the list is set, only a block size of 0 is a danger. -/
theorem guarded_started_iff (v : Vars) (arena : ℕ) (l : List Opt) :
    Guarded (l.foldlM handle (v.started arena)) ↔
      (v.blocksize = 0 → ∀ size arena, .a size arena ∈ l → Refused v.memorySize size) := by
  by_cases hbs : v.blocksize = 0
  · have hglobals : (v.started arena).globals =
        some (memInit v.memorySize 0 v.strategy arena) := by
      rw [Vars.started, hbs]
    by_cases hall : ∀ size arena, .a size arena ∈ l → Refused v.memorySize size
    · obtain ⟨v', hv'⟩ := foldlM_handle_zero rfl hglobals hall
      rw [hv']
      exact iff_of_true (guarded_ok v') fun _ => hall
    · refine iff_of_false ?_ fun h => hall (h hbs)
      push Not at hall
      obtain ⟨size, arena', hmem, hserved⟩ := hall
      rw [foldlM_handle_divByZero rfl hglobals hmem hserved]
      exact fun h => h.2 rfl
  · refine iff_of_true ?_ fun h => absurd h hbs
    have hinit : (v.started arena).init = true := rfl
    rcases foldlM_handle_of_ne hinit rfl hbs with ⟨v', hv'⟩ | herror
    · rw [hv']
      exact guarded_ok v'
    · rw [herror]
      exact ⟨nofun, nofun⟩

/-- The options that allocate are behind the leading ones. -/
theorem mem_of_isAlloc {rest : List Opt} {size : Int32} {arena : ℕ}
    (hsplit : leading opts ++ rest = opts) : .a size arena ∈ opts ↔ .a size arena ∈ rest := by
  rw [← hsplit, List.mem_append, or_iff_right]
  intro h
  exact absurd rfl (not_isAlloc_of_mem_leading h)

/-- The two faults of the set-up are avoided if and only if the options come in a good order. -/
theorem guarded_main_iff (opts : List Opt) : Guarded (main opts) ↔ InOrder opts := by
  obtain ⟨rest, hrest⟩ : ∃ rest, rest = opts.dropWhile (!·.IsAlloc) := ⟨_, rfl⟩
  have hsplit : leading opts ++ rest = opts := hrest ▸ List.takeWhile_append_dropWhile
  have hno : ∀ o ∈ leading opts, ¬ o.IsAlloc := fun o => not_isAlloc_of_mem_leading
  by_cases hf : ∃ index, .f index ∈ leading opts
  · obtain ⟨index, hf⟩ := hf
    have hmain : main opts = .error .nullList := by
      rw [main, ← hsplit, List.foldlM_append, foldlM_handle_f hno hf rfl]
      rfl
    rw [hmain]
    exact iff_of_false (fun h => h.1 rfl) fun h => h.1 index hf
  have hf' : ∀ index, .f index ∉ leading opts := fun index h => hf ⟨index, h⟩
  have hmain : main opts = rest.foldlM handle (settings opts) := by
    conv_lhs => rw [main, ← hsplit, List.foldlM_append, foldlM_handle_set hno hf']
    rfl
  rw [hmain, InOrder, and_iff_right hf']
  simp only [mem_of_isAlloc hsplit]
  match rest, hrest with
  | [], _ => exact iff_of_true (guarded_ok _) (by simp)
  | o :: rest, hrest =>
    have ho : o.IsAlloc = true := by
      have := opts.head?_dropWhile_not (!·.IsAlloc)
      simpa [← hrest] using this
    obtain ⟨size, arena, rfl⟩ : ∃ size arena, o = .a size arena := by
      cases o with
      | a size arena => exact ⟨size, arena, rfl⟩
      | m | b | one | w | f => cases ho
    have hinit : (settings opts).init = false := settings_not_init _ rfl
    rw [foldlM_handle_started hinit]
    exact guarded_started_iff (settings opts) arena _

/-- A `-f` before the first `-a`, and a block size of 0. -/
theorem not_guarded_f_first_zero_blocksize :
    ¬ Guarded (main [.f 1]) ∧ ¬ Guarded (main [.b 0, .a 1 1000]) := by
  have hf : main [.f 1] = .error .nullList := by decide
  have hb : main [.b 0, .a 1 1000] = .error .divByZero := by decide
  exact ⟨fun h => h.1 hf, fun h => h.2 hb⟩

end Sem3.Memory
