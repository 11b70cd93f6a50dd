import Mathlib.Algebra.Order.Group.Int
import Mathlib.Data.List.Forall2
import Mathlib.Data.List.Sort

/-!
# OCaml

The exceptions of the language and of its standard library, and the functions of the library on
lists that take an integer. A function that may raise gives an `Except Exn`.
-/

namespace Ocaml

/-- The exceptions. -/
inductive Exn where
  | failure (s : String)
  | invalidArg (s : String)
  | matchFailure
  | endOfFile
  | divisionByZero
deriving DecidableEq, Repr

variable {α : Type*} {l : List α} {n : ℤ}

/-- `List.nth`. -/
def nth (l : List α) (n : ℤ) : Except Exn α :=
  if n < 0 then .error (.invalidArg "List.nth")
  else
    match l[n.toNat]? with
    | some a => .ok a
    | none => .error (.failure "nth")

theorem nth_of_lt {n : ℕ} (h : n < l.length) : nth l n = .ok l[n] := by
  simp [nth, List.getElem?_eq_getElem h]

/-- `nth` raises nothing exactly at the indices of the list. -/
theorem exists_nth_iff : (∃ a, nth l n = .ok a) ↔ 0 ≤ n ∧ n < l.length := by
  constructor
  · rintro ⟨a, h⟩
    unfold nth at h
    split_ifs at h with hn
    have hlt : n.toNat < l.length := by
      by_contra hge
      rw [List.getElem?_eq_none (not_lt.1 hge)] at h
      cases h
    omega
  · rintro ⟨h0, hlt⟩
    obtain ⟨n, rfl⟩ := Int.eq_ofNat_of_zero_le h0
    exact ⟨_, nth_of_lt (by omega)⟩

/-- `List.init`. -/
def init (n : ℤ) (f : ℤ → Except Exn α) : Except Exn (List α) :=
  if n < 0 then .error (.invalidArg "List.init") else (List.range n.toNat).mapM fun k : ℕ => f k

/-- If no call fails, the results are those of the calls. -/
theorem mapM_eq_ok {β : Type*} {f : β → Except Exn α} {r : List β} {l : List α}
    (h : List.Forall₂ (fun k a => f k = .ok a) r l) : r.mapM f = .ok l := by
  induction h with
  | nil => rfl
  | cons ha _ ih =>
    rw [List.mapM_cons, ha, ih]
    rfl

/-- The list whose elements the function gives. -/
theorem init_eq {f : ℤ → Except Exn α} (hlen : n = l.length)
    (hf : ∀ (k : ℕ) (hk : k < l.length), f k = .ok l[k]) : init n f = .ok l := by
  subst hlen
  rw [init, if_neg (not_lt.2 (Int.natCast_nonneg _)), Int.toNat_natCast]
  refine mapM_eq_ok (List.forall₂_iff_get.2 ⟨List.length_range, fun k _ hk => ?_⟩)
  simpa using hf k hk

theorem init_const (hn : 0 ≤ n) (a : α) :
    init n (fun _ => .ok a) = .ok (List.replicate n.toNat a) := by
  refine init_eq ?_ fun k hk => ?_
  · rw [List.length_replicate, Int.toNat_of_nonneg hn]
  · rw [List.getElem_replicate]

end Ocaml
