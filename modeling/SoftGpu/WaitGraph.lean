import Mathlib.Data.Nat.Find
import Mathlib.Order.WellFounded
import Mathlib.Logic.Function.Basic

/-!
# Queues that wait for each other

Queues indexed by `ι`: `put r` slots of queue `r` are published, and
`waits r q p v` says that slot `q` of queue `r` waits until queue `p` has retired
its first `v` slots. When every slot waits only for slots that were published
before it, the order of publication ranks the slots, and as long as something is
left some queue's head is not waiting.
-/

namespace SoftGpu.WaitGraph

variable {ι : Type*}

structure Ranking (put : ι → ℕ) (waits : ι → ℕ → ι → ℕ → Prop) (rank : ι → ℕ → ℕ) (n : ℕ) :
    Prop where
  bound : ∀ r q, q < put r → rank r q < n
  queue : ∀ r p q, p < q → q < put r → rank r p < rank r q
  target : ∀ r q p v, q < put r → waits r q p v → v ≤ put p
  wait : ∀ r q p v, q < put r → waits r q p v → ∀ w < v, rank p w < rank r q

def Ranked (put : ι → ℕ) (waits : ι → ℕ → ι → ℕ → Prop) : Prop :=
  ∃ rank n, Ranking put waits rank n

variable {put put' : ι → ℕ} {waits waits' : ι → ℕ → ι → ℕ → Prop}

theorem ranked_empty (h : ∀ r, put r = 0) : Ranked put waits := by
  refine ⟨fun _ _ => 0, 0, ?_, ?_, ?_, ?_⟩ <;> intro r <;> simp [h r]

theorem Ranked.keep (h : Ranked put waits)
    (hwaits : ∀ r q p v, q < put r → waits' r q p v → waits r q p v) : Ranked put waits' := by
  obtain ⟨rank, n, hb, hq, ht, hw⟩ := h
  refine ⟨rank, n, hb, hq, ?_, ?_⟩
  · intro r q p v hlt hv
    exact ht r q p v hlt (hwaits r q p v hlt hv)
  · intro r q p v hlt hv
    exact hw r q p v hlt (hwaits r q p v hlt hv)

theorem Ranked.publish [DecidableEq ι] {r : ι} (h : Ranked put waits)
    (hnew : ∀ p v, waits r (put r) p v → v ≤ put p) :
    Ranked (Function.update put r (put r + 1)) waits := by
  obtain ⟨rank, n, hb, hq, ht, hw⟩ := h
  have hcases : ∀ p q, q < Function.update put r (put r + 1) p →
      q < put p ∨ p = r ∧ q = put r := by
    intro p q hlt
    by_cases hp : p = r
    · subst hp
      rw [Function.update_self] at hlt
      obtain hlt | heq := Nat.lt_succ_iff_lt_or_eq.mp hlt
      · exact .inl hlt
      · exact .inr ⟨rfl, heq⟩
    · rw [Function.update_of_ne hp] at hlt
      exact .inl hlt
  have hle : ∀ p, put p ≤ Function.update put r (put r + 1) p := by
    intro p
    by_cases hp : p = r
    · subst hp
      simp
    · simp [hp]
  have hold : ∀ p q, q < put p →
      Function.update rank r (Function.update (rank r) (put r) n) p q = rank p q := by
    intro p q hlt
    by_cases hp : p = r
    · subst hp
      rw [Function.update_self, Function.update_of_ne (by omega)]
    · rw [Function.update_of_ne hp]
  have hlast : Function.update rank r (Function.update (rank r) (put r) n) r (put r) = n := by
    simp
  refine ⟨Function.update rank r (Function.update (rank r) (put r) n), n + 1, ?_, ?_, ?_, ?_⟩
  · intro p q hlt
    obtain hlt | ⟨rfl, rfl⟩ := hcases p q hlt
    · rw [hold p q hlt]
      exact (hb p q hlt).trans (Nat.lt_succ_self n)
    · rw [hlast]
      exact Nat.lt_succ_self n
  · intro p q₁ q₂ h₁₂ hlt
    obtain hlt | ⟨rfl, rfl⟩ := hcases p q₂ hlt
    · rw [hold p q₁ (h₁₂.trans hlt), hold p q₂ hlt]
      exact hq p q₁ q₂ h₁₂ hlt
    · rw [hold p q₁ h₁₂, hlast]
      exact hb p q₁ h₁₂
  · intro p q a v hlt hv
    obtain hlt | ⟨rfl, rfl⟩ := hcases p q hlt
    · exact (ht p q a v hlt hv).trans (hle a)
    · exact (hnew a v hv).trans (hle a)
  · intro p q a v hlt hv w hwv
    obtain hlt | ⟨rfl, rfl⟩ := hcases p q hlt
    · rw [hold a w (hwv.trans_le (ht p q a v hlt hv)), hold p q hlt]
      exact hw p q a v hlt hv w hwv
    · have hwput := hwv.trans_le (hnew a v hv)
      rw [hold a w hwput, hlast]
      exact hb a w hwput

/-- Among the heads of the queues that are not empty, the one published first has
nothing left to wait for. -/
theorem Ranked.exists_ready (h : Ranked put waits) {get : ι → ℕ} (hwork : ∃ r, get r < put r) :
    ∃ r, get r < put r ∧ ∀ p v, waits r (get r) p v → v ≤ get p := by
  obtain ⟨rank, n, hb, hq, ht, hw⟩ := h
  obtain ⟨r, hr, hmin⟩ := WellFounded.has_min (measure fun r => rank r (get r)).wf
    {r | get r < put r} hwork
  refine ⟨r, hr, fun p v hv => ?_⟩
  by_contra hlt
  have hlt : get p < v := by omega
  exact hmin p (hlt.trans_le (ht r _ p v hr hv)) (hw r _ p v hr hv _ hlt)

end SoftGpu.WaitGraph
