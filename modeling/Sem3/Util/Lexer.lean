import Mathlib.Data.List.Basic
import Mathlib.Data.List.Infix

/-!
# Lexers

A lexer cuts a text into words, one character at a time. It has a state, and the word under
construction: each character moves the state, may extend the word, and may end it. `words` is the
list of the words that are ended, with the last one if the state at the end of the text allows it.
How many they are only depends on the states (`length_words`).

A set of states in which a word is being read is *kept* if a character that does not end the word
stays in it and only extends the word. From such a state the next word begins with what was read of
it (`head_prefix`), and there is one if the text does not stop in the middle (`exists_head`).
-/

/-- A machine that cuts a text into words. -/
structure Lexer (σ χ : Type*) where
  /-- The state behind a character. -/
  next : σ → χ → σ
  /-- The word under construction behind a character. -/
  put : σ → List χ → χ → List χ
  /-- The word under construction ends before the character. -/
  emits : σ → χ → Bool
  /-- The word under construction ends at the end of the text. -/
  final : σ → Bool

namespace Lexer

variable {σ χ : Type*} {L : Lexer σ χ} {I : σ → Prop} {m : σ} {a s : List χ}

/-- The words of a text, from the state `m` and the word under construction `a` on. -/
def words (L : Lexer σ χ) : List χ → σ → List χ → List (List χ)
  | [], m, a => if L.final m then [a] else []
  | c :: s, m, a => (if L.emits m c then [a] else []) ++ L.words s (L.next m c) (L.put m a c)

/-- The state behind a text. -/
def run (L : Lexer σ χ) (s : List χ) (m : σ) : σ := s.foldl L.next m

/-- The same lexer with other final states. -/
def withFinal (L : Lexer σ χ) (final : σ → Bool) : Lexer σ χ := { L with final }

theorem words_nil (m : σ) (a : List χ) : L.words [] m a = if L.final m then [a] else [] := rfl

theorem words_cons (c : χ) (s : List χ) (m : σ) (a : List χ) :
    L.words (c :: s) m a =
      (if L.emits m c then [a] else []) ++ L.words s (L.next m c) (L.put m a c) := rfl

theorem run_cons (c : χ) (s : List χ) (m : σ) : L.run (c :: s) m = L.run s (L.next m c) := rfl

/-- How many words there are does not depend on the one under construction. -/
theorem length_words (a b : List χ) : (L.words s m a).length = (L.words s m b).length := by
  induction s generalizing m a b with
  | nil =>
    rw [words_nil, words_nil]
    split_ifs <;> rfl
  | cons c s ih =>
    rw [words_cons, words_cons, List.length_append, List.length_append, ih _ (L.put m b c)]
    split_ifs <;> rfl

/-- There is a word if the state at the end is final. -/
theorem words_ne_nil (hf : L.final (L.run s m) = true) : L.words s m a ≠ [] := by
  induction s generalizing m a with
  | nil =>
    have hfinal : L.final m = true := hf
    rw [words_nil, if_pos hfinal]
    exact List.cons_ne_nil _ _
  | cons c s ih =>
    rw [words_cons]
    exact List.append_ne_nil_of_right_ne_nil _ (ih hf)

/-- In the states `I` a word is being read: it is extended until it ends. -/
def Keeps (L : Lexer σ χ) (I : σ → Prop) : Prop :=
  ∀ m c a, I m → L.emits m c = false → I (L.next m c) ∧ a <+: L.put m a c

/-- From a kept state the next word begins with what was read of it. -/
theorem head_prefix (hK : L.Keeps I) (hm : I m) :
    ∀ w ∈ (L.words s m a).head?, a <+: w := by
  induction s generalizing m a with
  | nil =>
    intro w hw
    rw [words_nil] at hw
    split_ifs at hw with hf
    · rw [Option.mem_some.1 hw]
    · cases hw
  | cons c s ih =>
    intro w hw
    rw [words_cons] at hw
    by_cases he : L.emits m c
    · rw [if_pos he] at hw
      rw [Option.mem_some.1 hw]
    · rw [Bool.not_eq_true] at he
      obtain ⟨hI, hpre⟩ := hK m c a hm he
      rw [he] at hw
      exact hpre.trans (ih hI w hw)

/-- There is a next word if the text does not stop in the middle. -/
theorem exists_head (hK : L.Keeps I) (hm : I m)
    (hf : I (L.run s m) → L.final (L.run s m) = true) :
    ∃ w ws, L.words s m a = w :: ws ∧ a <+: w := by
  induction s generalizing m a with
  | nil =>
    have hfinal : L.final m = true := hf hm
    exact ⟨a, [], by rw [words_nil, if_pos hfinal], List.prefix_rfl⟩
  | cons c s ih =>
    rw [words_cons]
    by_cases he : L.emits m c
    · exact ⟨a, _, by rw [if_pos he]; rfl, List.prefix_rfl⟩
    · rw [Bool.not_eq_true] at he
      obtain ⟨hI, hpre⟩ := hK m c a hm he
      obtain ⟨w, ws, hw, hp⟩ := ih (a := L.put m a c) hI hf
      exact ⟨w, ws, by rw [he]; exact hw, hpre.trans hp⟩

end Lexer
