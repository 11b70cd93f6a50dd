import Sem3.Syncorder.Spec
import Sem3.Util.Turns

/-!
# Proofs: the output is in order

In the order mode a thread writes only while `highest` is its number. The threads therefore take
turns in the sense of `Turns`, whatever they have locked.
-/

namespace Syncorder

open Monitor

variable {files : ℕ → List Char} {k : ℕ} {g g' : Shared} {p l : Local} {text : List Char} {n i : ℕ}

/-! ## Chunks -/

theorem chunks_nil : chunks [] = [] := by
  rw [chunks]

/-- A text is cut off behind the size of the buffer. -/
theorem chunks_of_ne_nil (h : text ≠ []) :
    chunks text = text.take sz :: chunks (text.drop sz) := by
  cases text with
  | nil => exact absurd rfl h
  | cons c cs => rw [chunks]

theorem linesFrom_nil (n i : ℕ) : linesFrom n i [] = [] := by
  rw [linesFrom, chunks_nil]
  rfl

theorem linesFrom_of_ne_nil (n i : ℕ) (h : text ≠ []) :
    linesFrom n i text = ⟨n, i, text.take sz⟩ :: linesFrom n (i + 1) (text.drop sz) := by
  rw [linesFrom, chunks_of_ne_nil h, List.zipIdx_cons, List.map_cons, linesFrom]

/-! ## What a thread has still to write -/

/-- The line that the thread has read. -/
def Local.line (l : Local) : Line := ⟨l.n, l.i, l.inbuf⟩

/-- The writes that the thread has still to make, for its line and for the rest of its file. -/
def Local.pending (l : Local) : List Write :=
  let later := (linesFrom l.n (l.i + 1) l.rest).flatMap Line.writes
  match l.pc with
  | .number | .lockFile | .read => (linesFrom l.n l.i l.rest).flatMap Line.writes
  | .lockLine | .lockOrder | .turn | .wait | .outbuf => l.line.writes ++ later
  | .buffer => l.line.writes.drop 1 ++ later
  | .newline => l.line.writes.drop 2 ++ later
  | .unlockOrder | .lockHighest | .highest | .broadcast | .unlockHighest | .unlockLine | .next =>
    later
  | .unlockFile | .done => []

/-- What the thread with a number has to write. -/
def whole (files : ℕ → List Char) (n : ℕ) : List Write :=
  (linesFrom n 0 (files n)).flatMap Line.writes

/-- Where a thread has found out that it is its turn, and has not passed the turn on. -/
def Pc.Writing : Pc → Prop
  | .outbuf | .buffer | .newline | .unlockOrder | .lockHighest | .highest => True
  | _ => False

/-! ## The part of the file that has been read -/

/-- The line that has been read last, and the rest of the file behind it. -/
structure Local.InLine (files : ℕ → List Char) (l : Local) : Prop where
  pos : 0 < l.inbuf.length
  le : l.inbuf.length ≤ sz
  length : (files l.n).length = sz * l.i + l.inbuf.length + l.rest.length
  short : l.inbuf.length ≠ sz → l.rest = []

/-- The variables of the thread fit its file. -/
def Local.Ok (files : ℕ → List Char) (l : Local) : Prop :=
  match l.pc with
  | .number => True
  | .lockFile | .read => (files l.n).length = sz * l.i + l.rest.length ∨ l.rest = []
  | .unlockFile | .done => l.rest = []
  | .lockHighest | .highest => l.InLine files ∧ l.inbuf.length ≠ sz
  | _ => l.InLine files

theorem inLine_take (hrest : p.rest ≠ []) (h : (files p.n).length = sz * p.i + p.rest.length)
    {pc : Pc} : Local.InLine files ⟨pc, p.n, p.i, p.rest.drop sz, p.rest.take sz⟩ := by
  have hpos := List.length_pos_iff.2 hrest
  have hsz : 0 < sz := by decide
  refine ⟨?_, ?_, ?_, ?_⟩
  · simp only [List.length_take]
    omega
  · simp only [List.length_take]
    omega
  · simp only [List.length_take, List.length_drop]
    omega
  · intro hne
    simp only [List.length_take] at hne
    exact List.drop_eq_nil_of_le (by omega)

theorem read_of_ne_nil (h : p.rest ≠ []) :
    p.read = { p with pc := .lockLine, rest := p.rest.drop sz, inbuf := p.rest.take sz } := by
  obtain ⟨c, cs, hcs⟩ := List.exists_cons_of_ne_nil h
  rw [Local.read, hcs]
  rfl

theorem read_nil (h : p.rest = []) : p.read = p.goto .unlockFile := by
  rw [Local.read, h]
  rfl

theorem Local.InLine.goto (h : p.InLine files) (pc : Pc) : (p.goto pc).InLine files :=
  ⟨h.pos, h.le, h.length, h.short⟩

theorem Local.Ok.result (hp : p.Ok files) (h : (dump .order files p).result g = some (g', l)) :
    l.Ok files := by
  rcases p with ⟨pc, n, i, rest, inbuf⟩
  cases pc <;> simp only [dump, only, write, Op.result, reduceCtorEq, if_true, if_false,
    Option.some.injEq, Prod.mk.injEq] at h
  case number =>
    obtain ⟨-, rfl⟩ := h
    exact .inl (by simp)
  case lockFile =>
    obtain ⟨-, rfl⟩ := h
    exact hp
  case read =>
    obtain ⟨-, rfl⟩ := h
    by_cases hrest : rest = []
    · rw [read_nil hrest]
      exact hrest
    · rw [read_of_ne_nil hrest]
      exact inLine_take hrest (hp.resolve_right hrest)
  case unlockOrder =>
    obtain ⟨-, rfl⟩ := h
    split_ifs with hsz
    · exact ⟨hp.goto _, hsz.2⟩
    · exact hp.goto _
  case turn =>
    obtain ⟨-, rfl⟩ := h
    split_ifs <;> exact hp.goto _
  case highest =>
    obtain ⟨-, rfl⟩ := h
    exact hp.1.goto _
  case next =>
    obtain ⟨-, rfl⟩ := h
    by_cases hsz : inbuf.length = sz
    · have hlen := hp.length
      simp only [hsz] at hlen
      exact .inl (by simp only [hlen, Nat.mul_succ])
    · exact .inr (hp.short hsz)
  case unlockFile =>
    obtain ⟨-, rfl⟩ := h
    exact hp
  case lockHighest =>
    obtain ⟨-, rfl⟩ := h
    exact ⟨hp.1.goto _, hp.2⟩
  all_goals
    obtain ⟨-, rfl⟩ := h
    exact hp.goto _

/-- What the operations of a thread do to the output: they write what comes next, or pass the turn
on, or have no effect on it. -/
inductive Effect (files : ℕ → List Char) (g : Shared) (p : Local) : Shared → Local → Prop
  | number (hpc : p.pc = .number) : Effect files g p { g with n := g.n + 1 }
      { p with pc := .lockFile, n := g.n, i := 0, rest := files g.n }
  | silent {l : Local} (hp : p.pc ≠ .number) (hl : l.pc ≠ .number) (hn : l.n = p.n)
      (hpending : l.pending = p.pending) (hturn : l.pc.Writing → p.pc.Writing ∨ p.n = g.highest) :
      Effect files g p g l
  | write {l : Local} {w : Write} (hp : p.pc.Writing) (hl : l.pc ≠ .number) (hn : l.n = p.n)
      (hpending : p.pending = w :: l.pending) : Effect files g p { g with out := g.out ++ [w] } l
  | highest (hpc : p.pc = .highest) (hpending : p.pending = []) :
      Effect files g p { g with highest := g.highest + 1 } (p.goto .broadcast)

/-- What a step does to the output and to the turn. -/
theorem effect (hp : p.Ok files) (h : (dump .order files p).result g = some (g', l)) :
    Effect files g p g' l := by
  rcases p with ⟨pc, n, i, rest, inbuf⟩
  cases pc <;> simp only [dump, only, write, Op.result, reduceCtorEq, if_true, if_false,
    Option.some.injEq, Prod.mk.injEq] at h
  case number =>
    obtain ⟨rfl, rfl⟩ := h
    exact .number rfl
  case read =>
    obtain ⟨rfl, rfl⟩ := h
    by_cases hrest : rest = []
    · rw [read_nil hrest]
      subst hrest
      exact .silent (by simp) (by simp [Local.goto]) rfl
        (by simp [Local.pending, linesFrom_nil, Local.goto]) (by simp [Local.goto, Pc.Writing])
    · rw [read_of_ne_nil hrest]
      exact .silent (by simp) (by simp) rfl
        (by simp [Local.pending, Local.line, linesFrom_of_ne_nil _ _ hrest]) (by simp [Pc.Writing])
  case turn =>
    obtain ⟨rfl, rfl⟩ := h
    split_ifs with hturn
    · exact .silent (by simp) (by simp [Local.goto]) rfl rfl (by simp [Local.goto, Pc.Writing])
    · exact .silent (by simp) (by simp [Local.goto]) rfl rfl fun _ => .inr (not_not.1 hturn)
  case outbuf =>
    obtain ⟨rfl, rfl⟩ := h
    exact .write trivial (by simp [Local.goto]) rfl rfl
  case buffer =>
    obtain ⟨rfl, rfl⟩ := h
    exact .write trivial (by simp [Local.goto]) rfl rfl
  case newline =>
    obtain ⟨rfl, rfl⟩ := h
    exact .write trivial (by simp [Local.goto]) rfl rfl
  case unlockOrder =>
    obtain ⟨rfl, rfl⟩ := h
    split_ifs with hsz
    · exact .silent (by simp) (by simp [Local.goto]) rfl rfl fun _ => .inl trivial
    · exact .silent (by simp) (by simp [Local.goto]) rfl rfl (by simp [Local.goto, Pc.Writing])
  case highest =>
    obtain ⟨rfl, rfl⟩ := h
    refine .highest rfl ?_
    have hrest := hp.1.short hp.2
    simp only at hrest
    simp [Local.pending, hrest, linesFrom_nil]
  case lockHighest =>
    obtain ⟨rfl, rfl⟩ := h
    exact .silent (by simp) (by simp [Local.goto]) rfl rfl fun _ => .inl trivial
  all_goals
    obtain ⟨rfl, rfl⟩ := h
    exact .silent (by simp) (by simp [Local.goto]) rfl rfl (by simp [Local.goto, Pc.Writing])

/-! ## Numbers -/

/-- The threads that have a number have different ones, and all below the counter are taken. -/
structure Numbered (g : Shared) (p : Fin k → Local) : Prop where
  lt : ∀ t, (p t).pc ≠ .number → (p t).n < g.n
  inj : ∀ t u, (p t).pc ≠ .number → (p u).pc ≠ .number → (p t).n = (p u).n → t = u
  taken : ∀ n < g.n, ∃ t, (p t).pc ≠ .number ∧ (p t).n = n

variable {p : Fin k → Local} {t : Fin k}

/-- There are no more numbers than threads. -/
theorem Numbered.le (h : Numbered g p) : g.n ≤ k := by
  choose f hf using fun n : Fin g.n => h.taken n n.2
  have hinj : Function.Injective f := by
    intro a b hab
    have hn := (hf a).2
    rw [hab, (hf b).2] at hn
    exact Fin.ext hn.symm
  simpa using Fintype.card_le_of_injective f hinj

/-- A thread that takes a number takes the next one. -/
theorem Numbered.number (h : Numbered g p) (ht : (p t).pc = .number) {l : Local}
    (hpc : l.pc ≠ .number) (hn : l.n = g.n) :
    Numbered { g with n := g.n + 1 } (Function.update p t l) where
  lt u hu := by
    by_cases hut : u = t
    · subst hut
      simp [hn]
    · simp only [Function.update_of_ne hut] at hu ⊢
      exact Nat.lt_succ_of_lt (h.lt u hu)
  inj u v hu hv huv := by
    by_cases hut : u = t <;> by_cases hvt : v = t
    · rw [hut, hvt]
    · subst hut
      simp only [Function.update_self, Function.update_of_ne hvt, hn] at hv huv
      exact absurd huv (h.lt v hv).ne'
    · subst hvt
      simp only [Function.update_self, Function.update_of_ne hut, hn] at hu huv
      exact absurd huv (h.lt u hu).ne
    · simp only [Function.update_of_ne hut, Function.update_of_ne hvt] at hu hv huv
      exact h.inj u v hu hv huv
  taken n hlt := by
    rcases Nat.lt_succ_iff_lt_or_eq.1 hlt with hlt | rfl
    · obtain ⟨u, hu, hun⟩ := h.taken n hlt
      have hut : u ≠ t := by
        rintro rfl
        exact hu ht
      exact ⟨u, by simpa [hut] using hu, by simpa [hut] using hun⟩
    · exact ⟨t, by simpa using hpc, by simpa using hn⟩

theorem Numbered.update (h : Numbered g p) (ht : (p t).pc ≠ .number) {l : Local}
    (hpc : l.pc ≠ .number) (hn : l.n = (p t).n) (hg : g'.n = g.n) :
    Numbered g' (Function.update p t l) := by
  have hstart : ∀ u, (Function.update p t l u).pc ≠ .number → (p u).pc ≠ .number := by
    intro u hu
    by_cases hut : u = t
    · rw [hut]
      exact ht
    · simpa [hut] using hu
  have hnum : ∀ u, (Function.update p t l u).n = (p u).n := by
    intro u
    by_cases hut : u = t
    · subst hut
      simpa using hn
    · simp [hut]
  refine ⟨?_, ?_, ?_⟩
  · intro u hu
    rw [hnum, hg]
    exact h.lt u (hstart u hu)
  · intro u v hu hv huv
    rw [hnum, hnum] at huv
    exact h.inj u v (hstart u hu) (hstart v hv) huv
  · intro n hlt
    obtain ⟨u, hu, hun⟩ := h.taken n (hg ▸ hlt)
    refine ⟨u, ?_, by rw [hnum, hun]⟩
    by_cases hut : u = t
    · subst hut
      simpa using hpc
    · simpa [hut] using hu

/-! ## The threads take turns -/

/-- The turn is `highest`, and what a thread has still to write is what its number has to. -/
structure Represents (files : ℕ → List Char) (g : Shared) (p : Fin k → Local)
    (a : Turns.State Write) : Prop where
  turn : a.turn = g.highest
  out : a.out = g.out
  todo : ∀ t, (p t).pc ≠ .number → a.todo (p t).n = (p t).pending
  rest : ∀ n, g.n ≤ n → a.todo n = whole files n

/-- What holds after every step in the mode `order`: only the thread whose turn it is writes, and
what is written and pending is what the turns allow. -/
structure Ordered (files : ℕ → List Char) (g : Shared) (p : Fin k → Local) : Prop where
  ok : ∀ t, (p t).Ok files
  numbered : Numbered g p
  highest_le : g.highest ≤ g.n
  writing : ∀ t, (p t).pc.Writing → (p t).n = g.highest
  turns : ∃ a, Turns.Reachable (whole files) a ∧ Represents files g p a

/-- The thread that takes a number has to write its file. -/
theorem Represents.number {a : Turns.State Write} (ha : Represents files g p a) {l : Local}
    (hpc : l.pc = .lockFile) (hn : l.n = g.n) (hi : l.i = 0) (hrest : l.rest = files g.n) :
    Represents files { g with n := g.n + 1 } (Function.update p t l) a where
  turn := ha.turn
  out := ha.out
  todo := by
    rw [Function.forall_update_iff p fun _ (q : Local) => q.pc ≠ .number → a.todo q.n = q.pending]
    refine ⟨fun _ => ?_, fun u _ => ha.todo u⟩
    rw [hn, ha.rest _ le_rfl, Local.pending, hpc, hn, hi, hrest, whole]
  rest n hn := ha.rest n (Nat.le_of_succ_le hn)

/-- A step that writes nothing is none of the turns. -/
theorem Represents.silent {a : Turns.State Write} (ha : Represents files g p a) {l : Local}
    (ht : (p t).pc ≠ .number) (hn : l.n = (p t).n) (hpending : l.pending = (p t).pending) :
    Represents files g (Function.update p t l) a where
  turn := ha.turn
  out := ha.out
  todo := by
    rw [Function.forall_update_iff p fun _ (q : Local) => q.pc ≠ .number → a.todo q.n = q.pending]
    refine ⟨fun _ => ?_, fun u _ => ha.todo u⟩
    rw [hn, hpending]
    exact ha.todo t ht
  rest := ha.rest

/-- A write is a step of the writer whose turn it is. -/
theorem Represents.write {a : Turns.State Write} (ha : Represents files g p a) (hg : Numbered g p)
    {l : Local} {w : Write} (ht : (p t).pc ≠ .number) (hturn : (p t).n = g.highest)
    (hn : l.n = (p t).n) :
    Represents files { g with out := g.out ++ [w] } (Function.update p t l)
      { a with out := a.out ++ [w], todo := Function.update a.todo a.turn l.pending } where
  turn := ha.turn
  out := by simp only [ha.out]
  todo := by
    rw [Function.forall_update_iff p fun _ (q : Local) => q.pc ≠ .number →
      Function.update a.todo a.turn l.pending q.n = q.pending]
    refine ⟨fun _ => ?_, ?_⟩
    · simp only [ha.turn, hn, hturn, Function.update_self]
    · intro u hut hu
      have hne : (p u).n ≠ a.turn := by
        rw [ha.turn, ← hturn]
        exact fun h => hut (hg.inj u t hu ht h)
      simpa only [Function.update_of_ne hne] using ha.todo u hu
  rest n hle := by
    have hlt := hg.lt t ht
    have hne : n ≠ a.turn := by
      rw [ha.turn, ← hturn]
      simp only at hle
      omega
    simpa only [Function.update_of_ne hne] using ha.rest n hle

theorem Pc.Writing.ne_number {pc : Pc} (h : pc.Writing) : pc ≠ .number := by
  rintro rfl
  exact h

theorem Ordered.result (h : Ordered files g p) {l : Local}
    (hres : (dump .order files (p t)).result g = some (g', l)) :
    Ordered files g' (Function.update p t l) := by
  have hok : ∀ u, (Function.update p t l u).Ok files := by
    rw [Function.forall_update_iff p fun _ (q : Local) => q.Ok files]
    exact ⟨(h.ok t).result hres, fun u _ => h.ok u⟩
  obtain ⟨a, hreach, ha⟩ := h.turns
  have hwriting : ∀ (n : ℕ) (l : Local), (l.pc.Writing → l.n = n) →
      (∀ u, u ≠ t → (p u).pc.Writing → (p u).n = n) →
      ∀ u, (Function.update p t l u).pc.Writing → (Function.update p t l u).n = n := by
    intro n l hl hu
    rw [Function.forall_update_iff p fun _ (q : Local) => q.pc.Writing → q.n = n]
    exact ⟨hl, hu⟩
  cases effect (h.ok t) hres with
  | number hpc =>
    exact ⟨hok, h.numbered.number hpc (by simp) rfl, Nat.le_succ_of_le h.highest_le,
      hwriting _ _ (fun hw => absurd hw (by simp [Pc.Writing])) fun u _ => h.writing u,
      a, hreach, ha.number rfl rfl rfl rfl⟩
  | silent ht hl hn hpending hturn =>
    refine ⟨hok, h.numbered.update ht hl hn rfl, h.highest_le, hwriting _ _ ?_ fun u _ => h.writing u,
      a, hreach, ha.silent ht hn hpending⟩
    intro hw
    rcases hturn hw with hw | hw
    · rw [hn, h.writing t hw]
    · rw [hn, hw]
  | write hp hl hn hpending =>
    have ht := hp.ne_number
    have hturn := h.writing t hp
    refine ⟨hok, h.numbered.update ht hl hn rfl, h.highest_le,
      hwriting _ _ (fun _ => hn.trans hturn) fun u _ => h.writing u,
      _, hreach.tail (.write ?_), ha.write h.numbered ht hturn hn⟩
    rw [ha.turn, ← hturn, ha.todo t ht, hpending]
  | highest hpc hpending =>
    have ht : (p t).pc ≠ .number := by simp [hpc]
    have hw : (p t).pc.Writing := by simp [hpc, Pc.Writing]
    have hturn := h.writing t hw
    refine ⟨hok, h.numbered.update ht (by simp [Local.goto]) rfl rfl, ?_,
      hwriting _ _ (fun hw => absurd hw (by simp [Local.goto, Pc.Writing])) ?_, ?_⟩
    · have hlt := h.numbered.lt t ht
      simp only
      omega
    · intro u hut hu
      exact absurd (h.numbered.inj u t hu.ne_number ht ((h.writing u hu).trans hturn.symm)) hut
    · have hsilent := ha.silent (l := (p t).goto .broadcast) (t := t) ht rfl
        (by simp [Local.pending, hpc, Local.goto])
      refine ⟨_, hreach.tail (.pass ?_), congrArg (· + 1) ha.turn, ha.out, hsilent.todo, ha.rest⟩
      rw [ha.turn, ← hturn, ha.todo t ht, hpending]

theorem ordered_init : Ordered files (init k).shared (init k).pos where
  ok t := trivial
  numbered := by
    refine ⟨fun t ht => absurd rfl ht, fun t u ht => absurd rfl ht, ?_⟩
    intro n hn
    exact absurd hn (Nat.not_lt_zero n)
  highest_le := le_rfl
  writing t ht := absurd ht (by simp [init, State.init, State.pos, Local.start, Pc.Writing])
  turns := ⟨.init (whole files), .refl, rfl, rfl, fun t ht => absurd rfl ht, fun n _ => rfl⟩

variable {s : State k Shared Local} {steps : List (State k Shared Local × Move k)}

/-- The order holds in every state of a run. -/
theorem ordered_of_run (h : Run (step (dump .order files)) (init k) steps s) :
    Ordered files s.shared s.pos :=
  pos_invariant h ordered_init fun _ _ _ _ _ hI hres => hI.result hres

/-- The lines in order are the files one behind the other. -/
theorem ordered_writes (files : ℕ → List Char) (k : ℕ) :
    (ordered files k).flatMap Line.writes = (List.range k).flatMap (whole files) := by
  rw [ordered, List.flatMap_assoc]
  rfl

/-- Whatever the threads do in turn, the output is a prefix of the ordered lines, and the three
writes of a line stand together. -/
theorem order_output_prefix (h : Run (step (dump .order files)) (init k) steps s) :
    s.shared.out <+: (ordered files k).flatMap Line.writes := by
  have hord := ordered_of_run h
  obtain ⟨a, hreach, ha⟩ := hord.turns
  have hk := hord.numbered.le
  rw [ordered_writes, ← ha.out]
  apply (Turns.inv hreach).out_isPrefix
  · rw [ha.turn]
    exact hord.highest_le.trans hk
  · intro hturn
    exact ha.rest k hk

/-- Thread 0 has number 1 and sleeps while thread 1 writes the first line of file 0. -/
theorem order_output_prefix_waiting :
    let files : ℕ → List Char := fun n => if n = 0 then ['a', 'b'] else ['c']
    let moves : List (Move 2) := [1, 0, 0, 1, 0, 0, 0, 0, 0, 1, 1, 1, 1, 1, 1, 1].map .run
    ∃ steps s, Run (step (dump .order files)) (init 2) steps s ∧
      moves.foldlM (step (dump .order files)) (init 2) = some s ∧
      s.shared.out = [.outbuf 0 0, .buffer 0 ['a', 'b'], .newline 0] ∧
      s.shared.out <+: (ordered files 2).flatMap Line.writes := by
  intro files moves
  have hsome : (moves.foldlM (step (dump .order files)) (init 2)).isSome := by decide
  obtain ⟨s, hs⟩ := Option.isSome_iff_exists.1 hsome
  obtain ⟨steps, h⟩ := Run.exists_of_foldlM hs
  refine ⟨steps, s, h, hs, ?_, order_output_prefix h⟩
  have hout : (moves.foldlM (step (dump .order files)) (init 2)).map (·.shared.out) =
      some [.outbuf 0 0, .buffer 0 ['a', 'b'], .newline 0] := by decide
  rw [hs] at hout
  exact Option.some.inj hout

end Syncorder
