import Mathlib.Algebra.BigOperators.Fin

/-!
# Byte memories and counting loops

A memory is a function of the address. `patch f a n g` is `f` with the `n` cells
from `a` on replaced by `g 0, …, g (n - 1)`, which is what `memset`, `memcpy` and
`memmove` do to the memory they write. `upto n body` runs a loop body for the
indices `0, …, n - 1`.
-/

namespace SoftGpu

section Patch
variable {β : Type*} {f : ℕ → β} {g g' : ℕ → β} {a n k x i : ℕ}

def patch (f : ℕ → β) (a n : ℕ) (g : ℕ → β) : ℕ → β :=
  fun x => if a ≤ x ∧ x < a + n then g (x - a) else f x

@[simp] theorem patch_zero (f : ℕ → β) (a : ℕ) (g : ℕ → β) : patch f a 0 g = f := by
  funext x
  exact if_neg (by omega)

theorem patch_add (hi : i < n) : patch f a n g (a + i) = g i := by
  rw [patch, if_pos (by omega), Nat.add_sub_cancel_left]

theorem patch_of_not (h : ¬(a ≤ x ∧ x < a + n)) : patch f a n g x = f x := if_neg h

theorem patch_congr (h : ∀ i < n, g i = g' i) : patch f a n g = patch f a n g' := by
  funext x
  simp only [patch]
  split
  · exact h _ (by omega)
  · rfl

theorem patch_append (f : ℕ → β) (a n k : ℕ) (g : ℕ → β) :
    patch (patch f a n g) (a + n) k (fun i => g (n + i)) = patch f a (n + k) g := by
  funext x
  by_cases hlow : a ≤ x ∧ x < a + n
  · rw [patch_of_not (by omega), patch, patch, if_pos hlow, if_pos (by omega)]
  · rw [patch]
    by_cases hhigh : a + n ≤ x ∧ x < a + n + k
    · rw [if_pos hhigh, patch, if_pos (by omega)]
      congr 1
      omega
    · rw [if_neg hhigh, patch_of_not hlow, patch_of_not (by omega)]

end Patch

section Loop
variable {σ τ : Type*} {body : ℕ → σ → σ} {n : ℕ} {s : σ}

def upto (n : ℕ) (body : ℕ → σ → σ) (s : σ) : σ :=
  match n with
  | 0 => s
  | n + 1 => body n (upto n body s)

theorem upto_invariant {f : ℕ → σ → σ} (P : ℕ → σ → Prop) (h₀ : P 0 s)
    (hstep : ∀ i < n, ∀ t, P i t → P (i + 1) (f i t)) : P n (upto n f s) := by
  induction n with
  | zero => exact h₀
  | succ n ih =>
    exact hstep n (Nat.lt_succ_self n) _ (ih fun i hi => hstep i (Nat.lt_succ_of_lt hi))

theorem upto_related (R : ℕ → σ → τ → Prop) {body' : ℕ → τ → τ} {t : τ} (h₀ : R 0 s t)
    (hstep : ∀ i < n, ∀ s t, R i s t → R (i + 1) (body i s) (body' i t)) :
    R n (upto n body s) (upto n body' t) := by
  induction n with
  | zero => exact h₀
  | succ n ih =>
    exact hstep n (Nat.lt_succ_self n) _ _ (ih fun i hi => hstep i (Nat.lt_succ_of_lt hi))

end Loop

end SoftGpu
