import Sem3.Par.Par

/-!
# What a parallel map computes
-/

namespace Sem3.Par

open Rendezvous (Config step)

variable {γ δ : Type*}

/-- In every interleaving of the threads there are finitely many steps, and the calling thread does
not return anything but `r`. As long as it has not returned, some step is possible. -/
def Computes (f : γ → δ) (c₀ : Config (Local γ δ)) (r : List δ) : Prop :=
  ∃ n, ∀ steps c, Run (step (act f)) c₀ steps c →
    steps.length ≤ n ∧ (∀ r', c.threads[0]? = some (.returned r') → r' = r) ∧
      (c.threads[0]? = some (.returned r) ∨ ∃ l c', step (act f) c l = some c')

end Sem3.Par
