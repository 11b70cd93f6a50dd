import Mathlib.Algebra.BigOperators.Group.List.Basic
import Mathlib.Algebra.Ring.Nat
import Mathlib.Data.Nat.Notation

/-!
# Tilings of an interval

A list of pieces, each with a start and a length, tiles the interval from `lo` to `hi` if the pieces
follow each other without gap or overlap.
-/

namespace Tiling

variable {β : Type*} {start len : β → ℕ} {lo hi : ℕ} {l l' : List β}

/-- The pieces `l` tile the interval from `lo` to `hi`: the first starts at `lo`, and every other one
where its predecessor ends. -/
def Tiles (start len : β → ℕ) : ℕ → List β → ℕ → Prop
  | lo, [], hi => lo = hi
  | lo, b :: l, hi => start b = lo ∧ Tiles start len (lo + len b) l hi

@[simp] theorem tiles_nil : Tiles start len lo [] hi ↔ lo = hi := Iff.rfl

@[simp] theorem tiles_cons {b : β} :
    Tiles start len lo (b :: l) hi ↔ start b = lo ∧ Tiles start len (lo + len b) l hi := Iff.rfl

theorem tiles_append :
    Tiles start len lo (l ++ l') hi ↔
      ∃ mid, Tiles start len lo l mid ∧ Tiles start len mid l' hi := by
  induction l generalizing lo with
  | nil => simp
  | cons b l ih =>
    simp only [List.cons_append, tiles_cons, ih]
    constructor
    · intro ⟨hb, mid, h1, h2⟩
      exact ⟨mid, ⟨hb, h1⟩, h2⟩
    · intro ⟨mid, ⟨hb, h1⟩, h2⟩
      exact ⟨hb, mid, h1, h2⟩

/-- A tiling only depends on the starts and lengths of its pieces. -/
theorem tiles_congr (h : l.map (fun b => (start b, len b)) = l'.map fun b => (start b, len b)) :
    Tiles start len lo l hi ↔ Tiles start len lo l' hi := by
  induction l generalizing l' lo with
  | nil => rw [List.map_eq_nil_iff.1 h.symm]
  | cons b l ih =>
    cases l' with
    | nil => exact absurd h (by simp)
    | cons b' l' =>
      rw [List.map_cons, List.map_cons, List.cons.injEq, Prod.mk.injEq] at h
      obtain ⟨⟨hs, hl⟩, h⟩ := h
      rw [tiles_cons, tiles_cons, hs, hl, ih h]

theorem Tiles.hi_eq (h : Tiles start len lo l hi) : hi = lo + (l.map len).sum := by
  induction l generalizing lo with
  | nil => exact h.symm
  | cons b l ih =>
    have := ih h.2
    rw [List.map_cons, List.sum_cons]
    omega

theorem Tiles.mem_bounds (h : Tiles start len lo l hi) {b : β} (hb : b ∈ l) :
    lo ≤ start b ∧ start b + len b ≤ hi := by
  induction l generalizing lo with
  | nil => exact absurd hb List.not_mem_nil
  | cons c l ih =>
    obtain ⟨hc, h⟩ := h
    rcases List.mem_cons.1 hb with rfl | hb
    · have := h.hi_eq
      omega
    · have := ih h hb
      omega

/-- No two pieces of a tiling overlap. -/
theorem Tiles.pairwise (h : Tiles start len lo l hi) :
    l.Pairwise fun a b => start a + len a ≤ start b := by
  induction l generalizing lo with
  | nil => exact List.Pairwise.nil
  | cons c l ih =>
    obtain ⟨hc, h⟩ := h
    refine List.pairwise_cons.2 ⟨fun b hb => ?_, ih h⟩
    have := (h.mem_bounds hb).1
    omega

end Tiling
