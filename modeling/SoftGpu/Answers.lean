import Mathlib.Algebra.BigOperators.Fin

/-!
# Machines that answer

A machine takes one call after the other and answers each of them. Two machines give
the same answers to every sequence of calls if there is a relation between their states
under which each call has one answer and the relation holds again afterwards.
-/

namespace SoftGpu.Answers

variable {σ τ ι ο : Type*}

/-- The answers to a list of calls and the state after the last one. -/
def run (step : σ → ι → ο × σ) : σ → List ι → List ο × σ
  | s, [] => ([], s)
  | s, i :: is => ((step s i).1 :: (run step (step s i).2 is).1, (run step (step s i).2 is).2)

variable {f : σ → ι → ο × σ} {g : τ → ι → ο × τ} {s : σ} {t : τ}

theorem run_sim {R : σ → τ → Prop}
    (hstep : ∀ s t i, R s t → (f s i).1 = (g t i).1 ∧ R (f s i).2 (g t i).2) (h : R s t)
    (is : List ι) : (run f s is).1 = (run g t is).1 ∧ R (run f s is).2 (run g t is).2 := by
  induction is generalizing s t with
  | nil => exact ⟨rfl, h⟩
  | cons i is ih =>
    obtain ⟨hans, hnext⟩ := hstep s t i h
    obtain ⟨hrest, hend⟩ := ih hnext
    refine ⟨?_, hend⟩
    simp only [run]
    rw [hans, hrest]

end SoftGpu.Answers
