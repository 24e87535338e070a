import Mathlib.Algebra.BigOperators.Fin

/-!
# Machines with a partial step function

A machine is a partial function `step : σ → α → Option σ`: in state `s` the
action `a` is either not enabled or leads to one state. Nondeterminism lies in
the choice of the action. `Reach step ok s₀` holds of the states reached from
`s₀` by runs every step of which satisfies `ok` in the state it leaves, so a
condition on runs is a condition on the state before each step.
-/

namespace SoftGpu.Machine

variable {σ α : Type*}

-- Literals of `Fin 1` and `Fin 2` name threads and engines in concrete runs.
instance neZeroOne : NeZero 1 := ⟨one_ne_zero⟩
instance neZeroTwo : NeZero 2 := ⟨two_ne_zero⟩

inductive Reach (step : σ → α → Option σ) (ok : σ → α → Prop) (s₀ : σ) : σ → Prop
  | refl : Reach step ok s₀ s₀
  | tail {s t : σ} {a : α} : Reach step ok s₀ s → ok s a → step s a = some t →
      Reach step ok s₀ t

def anyStep (_ : σ) (_ : α) : Prop := True

def exec (step : σ → α → Option σ) : σ → List α → Option σ
  | s, [] => some s
  | s, a :: as => (step s a).bind fun t => exec step t as

theorem exec_append (step : σ → α → Option σ) (s : σ) (as bs : List α) :
    exec step s (as ++ bs) = (exec step s as).bind fun t => exec step t bs := by
  induction as generalizing s with
  | nil => rfl
  | cons a as ih =>
    simp only [List.cons_append, exec, Option.bind_assoc]
    congr 1
    funext t
    exact ih t

def when (ok : σ → α → Prop) [∀ s a, Decidable (ok s a)] (step : σ → α → Option σ)
    (s : σ) (a : α) : Option σ := if ok s a then step s a else none

theorem exec_of_when {ok : σ → α → Prop} [∀ s a, Decidable (ok s a)] {step : σ → α → Option σ}
    {s t : σ} {as : List α} (h : exec (when ok step) s as = some t) : exec step s as = some t := by
  induction as generalizing s with
  | nil => exact h
  | cons a as ih =>
    simp only [exec, when, Option.bind_eq_some_iff, Option.ite_none_right_eq_some] at h
    obtain ⟨u, ⟨-, hu⟩, ht⟩ := h
    exact Option.bind_eq_some_iff.mpr ⟨u, hu, ih ht⟩

variable {τ β ε : Type*}

/-- Refinement rule: a function `abs` that turns each step into one that is seen as the same, or
into none that is seen, turns each run into one that is seen as the same. -/
theorem exec_refines {step : σ → α → Option σ} {step' : τ → β → Option τ} (I : σ → Prop)
    (abs : σ → τ) (see : α → Option ε) (see' : β → Option ε)
    (hinv : ∀ s a t, I s → step s a = some t → I t)
    (hstep : ∀ s a t, I s → step s a = some t → see a = none ∧ abs t = abs s ∨
      ∃ b, see' b = see a ∧ step' (abs s) b = some (abs t))
    {s t : σ} {as : List α} (hs : I s) (h : exec step s as = some t) :
    ∃ bs, exec step' (abs s) bs = some (abs t) ∧ bs.filterMap see' = as.filterMap see := by
  induction as generalizing s with
  | nil =>
    cases h
    exact ⟨[], rfl, rfl⟩
  | cons a as ih =>
    obtain ⟨u, hu, ht⟩ := Option.bind_eq_some_iff.mp h
    obtain ⟨bs, hbs, hsee⟩ := ih (hinv s a u hs hu) ht
    obtain ⟨hnone, habs⟩ | ⟨b, hb, hab⟩ := hstep s a u hs hu
    · rw [habs] at hbs
      exact ⟨bs, hbs, by rw [List.filterMap_cons, hnone, hsee]⟩
    · refine ⟨b :: bs, Option.bind_eq_some_iff.mpr ⟨_, hab, hbs⟩, ?_⟩
      rw [List.filterMap_cons, List.filterMap_cons, hb, hsee]

namespace Reach
variable {step : σ → α → Option σ} {ok ok' : σ → α → Prop} {s₀ s t : σ}

/-- Invariant rule: what holds at the start and survives every allowed step
holds in every state reached. -/
theorem invariant {P : σ → Prop} (h₀ : P s₀)
    (hstep : ∀ s a t, P s → ok s a → step s a = some t → P t)
    (h : Reach step ok s₀ s) : P s := by
  induction h with
  | refl => exact h₀
  | tail _ hok hs ih => exact hstep _ _ _ ih hok hs

theorem invariant_of {I P : σ → Prop} (hI : ∀ s, Reach step ok s₀ s → I s) (h₀ : P s₀)
    (hstep : ∀ s a t, I s → P s → ok s a → step s a = some t → P t)
    (h : Reach step ok s₀ s) : P s := by
  induction h with
  | refl => exact h₀
  | tail hr hok hs ih => exact hstep _ _ _ (hI _ hr) ih hok hs

theorem mono (hsub : ∀ s a, ok s a → ok' s a) (h : Reach step ok s₀ s) :
    Reach step ok' s₀ s := by
  induction h with
  | refl => exact .refl
  | tail _ hok hs ih => exact .tail ih (hsub _ _ hok) hs

theorem any (h : Reach step ok s₀ s) : Reach step anyStep s₀ s :=
  h.mono fun _ _ _ => trivial

theorem trans (h₁ : Reach step ok s₀ s) (h₂ : Reach step ok s t) : Reach step ok s₀ t := by
  induction h₂ with
  | refl => exact h₁
  | tail _ hok hs ih => exact .tail ih hok hs

theorem of_exec_when [∀ s a, Decidable (ok s a)] {as : List α} (h₁ : Reach step ok s₀ s)
    (h : exec (when ok step) s as = some t) : Reach step ok s₀ t := by
  induction as generalizing s with
  | nil =>
    simp only [exec, Option.some.injEq] at h
    exact h ▸ h₁
  | cons a as ih =>
    simp only [exec, when, Option.bind_eq_some_iff, Option.ite_none_right_eq_some] at h
    obtain ⟨u, ⟨hok, hu⟩, ht⟩ := h
    exact ih (.tail h₁ hok hu) ht

theorem of_exec_of {as : List α} (hok : ∀ a ∈ as, ∀ s, ok s a) (h₁ : Reach step ok s₀ s)
    (h : exec step s as = some t) : Reach step ok s₀ t := by
  induction as generalizing s with
  | nil =>
    simp only [exec, Option.some.injEq] at h
    exact h ▸ h₁
  | cons a as ih =>
    simp only [exec, Option.bind_eq_some_iff] at h
    obtain ⟨u, hu, ht⟩ := h
    exact ih (fun b hb => hok b (List.mem_cons_of_mem a hb))
      (.tail h₁ (hok a List.mem_cons_self s) hu) ht

theorem of_exec {as : List α} (h₁ : Reach step anyStep s₀ s) (h : exec step s as = some t) :
    Reach step anyStep s₀ t :=
  of_exec_of (fun _ _ _ => trivial) h₁ h

end Reach

end SoftGpu.Machine
