import Mathlib.Order.Nat
import Mathlib.Logic.Function.Basic
import Mathlib.Tactic.Common

/-!
# Parcels carried over in two stages

Each parcel is loaded element by element into a carrier and unloaded element by element
at the other end. `reads` and `writes` record what was taken up and what was put down of
each element. A carrier has at most one parcel aboard at a time, so a parcel that has been
delivered was read once, in full, and written once with what was read.
-/

namespace SoftGpu.Relay

variable {π σ β : Type*}

/-- `aboard s a b`: in the carrier `s`, the first `a` elements loaded and the first `b` unloaded. -/
inductive Place (σ : Type*)
  | waiting
  | aboard (s : σ) (a b : ℕ)
  | delivered
  | lost

structure State (π σ β : Type*) where
  place : π → Place σ
  cargo : σ → ℕ → β
  reads : π → ℕ → List β
  writes : π → ℕ → List β

def State.Moved (r : State π σ β) (p : π) (j : ℕ) : Prop :=
  ∃ v, r.reads p j = [v] ∧ r.writes p j = [v]

def State.Carried (r : State π σ β) (p : π) (s : σ) (j : ℕ) : Prop :=
  r.reads p j = [r.cargo s j] ∧ r.writes p j = []

def State.Untouched (r : State π σ β) (p : π) (j : ℕ) : Prop := r.reads p j = [] ∧ r.writes p j = []

def State.At (r : State π σ β) (len : π → ℕ) (p : π) : Place σ → Prop
  | .waiting => ∀ j, r.Untouched p j
  | .aboard s a b => b ≤ a ∧ a ≤ len p ∧ (∀ j < b, r.Moved p j) ∧
      (∀ j, b ≤ j → j < a → r.Carried p s j) ∧ ∀ j, a ≤ j → r.Untouched p j
  | .delivered => (∀ j < len p, r.Moved p j) ∧ ∀ j, len p ≤ j → r.Untouched p j
  | .lost => True

structure Ok (len : π → ℕ) (r : State π σ β) : Prop where
  alone : ∀ p p' s a b a' b', r.place p = .aboard s a b → r.place p' = .aboard s a' b' → p = p'
  parcel : ∀ p, r.At len p (r.place p)

variable {len len' : π → ℕ} {r r' : State π σ β} {p q : π} {s : σ} {a b : ℕ}

theorem Ok.congr_len (h : Ok len r) (hlen : ∀ p, r.place p ≠ .waiting → len' p = len p) :
    Ok len' r where
  alone := h.alone
  parcel := by
    intro p
    have hp := h.parcel p
    cases hl : r.place p with
    | waiting =>
      rw [hl] at hp
      exact hp
    | lost => trivial
    | aboard s a b =>
      rw [hl] at hp
      simpa only [State.At, hlen p (by simp [hl])] using hp
    | delivered =>
      rw [hl] at hp
      simpa only [State.At, hlen p (by simp [hl])] using hp

theorem State.At.other {l : Place σ} (h : r.At len q l)
    (hr : r'.reads q = r.reads q) (hw : r'.writes q = r.writes q)
    (hc : ∀ s a b, l = .aboard s a b → r'.cargo s = r.cargo s) : r'.At len q l := by
  cases l with
  | waiting =>
    intro j
    rw [State.Untouched, hr, hw]
    exact h j
  | lost => trivial
  | delivered =>
    simpa only [State.At, State.Moved, State.Untouched, hr, hw] using h
  | aboard s a b =>
    simpa only [State.At, State.Moved, State.Carried, State.Untouched, hr, hw, hc s a b rfl] using h

section Steps
variable [DecidableEq π]

def State.put (r : State π σ β) (p : π) (l : Place σ) : State π σ β :=
  { r with place := Function.update r.place p l }

theorem Ok.put (h : Ok len r) {l : Place σ} (hl : r.At len p l)
    (halone : ∀ s a b, l = .aboard s a b → ∀ q a' b', r.place q = .aboard s a' b' → q = p) :
    Ok len (r.put p l) where
  alone := by
    intro q q' s a b a' b' hq hq'
    simp only [State.put] at hq hq'
    by_cases hqp : q = p <;> by_cases hqp' : q' = p
    · rw [hqp, hqp']
    · subst hqp
      rw [Function.update_self] at hq
      rw [Function.update_of_ne hqp'] at hq'
      exact (halone s a b hq q' a' b' hq').symm
    · subst hqp'
      rw [Function.update_self] at hq'
      rw [Function.update_of_ne hqp] at hq
      exact halone s a' b' hq' q a b hq
    · rw [Function.update_of_ne hqp] at hq
      rw [Function.update_of_ne hqp'] at hq'
      exact h.alone q q' s a b a' b' hq hq'
  parcel := by
    intro q
    by_cases hqp : q = p
    · subst hqp
      simp only [State.put, Function.update_self]
      cases l <;> exact hl
    · have hq := h.parcel q
      simp only [State.put, Function.update_of_ne hqp]
      cases hl : r.place q <;> rw [hl] at hq <;> exact hq

theorem Ok.board (h : Ok len r) (hp : r.place p = .waiting)
    (hfree : ∀ q a b, r.place q ≠ .aboard s a b) :
    Ok len (r.put p (.aboard s 0 0)) := by
  have hw := h.parcel p
  rw [hp] at hw
  refine h.put (l := .aboard s 0 0) ?_ ?_
  · exact ⟨le_rfl, Nat.zero_le _, fun j hj => absurd hj (Nat.not_lt_zero j),
      fun j _ hj => absurd hj (Nat.not_lt_zero j), fun j _ => hw j⟩
  · rintro s' a b ⟨⟩ q a' b' hq
    exact absurd hq (hfree q a' b')

theorem Ok.deliver (h : Ok len r) (hp : r.place p = .aboard s (len p) (len p)) :
    Ok len (r.put p .delivered) := by
  have hw := h.parcel p
  rw [hp] at hw
  obtain ⟨-, -, hmoved, -, hrest⟩ := hw
  refine h.put (l := .delivered) ⟨hmoved, hrest⟩ ?_
  rintro s' a b ⟨⟩

theorem Ok.lose (h : Ok len r) (p : π) : Ok len (r.put p .lost) := by
  refine h.put (l := .lost) trivial ?_
  rintro s' a b ⟨⟩

theorem Ok.alone_shift (h : Ok len r) (hp : r.place p = .aboard s a b) (a' b' : ℕ) :
    ∀ q q' s' c d c' d', Function.update r.place p (.aboard s a' b') q = .aboard s' c d →
      Function.update r.place p (.aboard s a' b') q' = .aboard s' c' d' → q = q' := by
  have hold : ∀ q s' c d, Function.update r.place p (.aboard s a' b') q = .aboard s' c d →
      ∃ c d, r.place q = .aboard s' c d := by
    intro q s' c d hq
    by_cases hqp : q = p
    · subst hqp
      rw [Function.update_self, Place.aboard.injEq] at hq
      exact ⟨a, b, by rw [hp, hq.1]⟩
    · rw [Function.update_of_ne hqp] at hq
      exact ⟨c, d, hq⟩
  intro q q' s' c d c' d' hq hq'
  obtain ⟨e, f, hq⟩ := hold q s' c d hq
  obtain ⟨e', f', hq'⟩ := hold q' s' c' d' hq'
  exact h.alone q q' s' e f e' f' hq hq'

def State.unload (r : State π σ β) (p : π) (s : σ) (a b : ℕ) : State π σ β where
  place := Function.update r.place p (.aboard s a (b + 1))
  cargo := r.cargo
  reads := r.reads
  writes :=
    Function.update r.writes p (Function.update (r.writes p) b (r.writes p b ++ [r.cargo s b]))

theorem Ok.unload (h : Ok len r) (hp : r.place p = .aboard s a b) (hb : b < a) :
    Ok len (r.unload p s a b) where
  alone := h.alone_shift hp a (b + 1)
  parcel := by
    intro q
    by_cases hqp : q = p
    · subst hqp
      have hw := h.parcel q
      rw [hp] at hw
      obtain ⟨-, hal, hmoved, hcarried, hrest⟩ := hw
      have hother : ∀ j, j ≠ b → (r.unload q s a b).writes q j = r.writes q j := by
        intro j hj
        simp [State.unload, hj]
      have hplace : (r.unload q s a b).place q = .aboard s a (b + 1) := by simp [State.unload]
      rw [hplace]
      refine ⟨hb, hal, fun j hj => ?_, fun j hbj hja => ?_, fun j hj => ?_⟩
      · by_cases hjb : j = b
        · subst hjb
          obtain ⟨hr, hw⟩ := hcarried j le_rfl hb
          exact ⟨r.cargo s j, hr, by simp [State.unload, hw]⟩
        · obtain ⟨w, hr, hw⟩ := hmoved j (by omega)
          exact ⟨w, hr, (hother j hjb).trans hw⟩
      · obtain ⟨hr, hw⟩ := hcarried j (by omega) hja
        exact ⟨hr, (hother j (by omega)).trans hw⟩
      · obtain ⟨hr, hw⟩ := hrest j hj
        exact ⟨hr, (hother j (by omega)).trans hw⟩
    · have hplace : (r.unload p s a b).place q = r.place q := by simp [State.unload, hqp]
      rw [hplace]
      exact State.At.other (h.parcel q) rfl (by simp [State.unload, hqp]) fun _ _ _ _ => rfl

variable [DecidableEq σ]

def State.load (r : State π σ β) (p : π) (s : σ) (a b : ℕ) (v : β) : State π σ β where
  place := Function.update r.place p (.aboard s (a + 1) b)
  cargo := Function.update r.cargo s (Function.update (r.cargo s) a v)
  reads := Function.update r.reads p (Function.update (r.reads p) a (r.reads p a ++ [v]))
  writes := r.writes

theorem Ok.load (h : Ok len r) (hp : r.place p = .aboard s a b) (ha : a < len p) (v : β) :
    Ok len (r.load p s a b v) where
  alone := h.alone_shift hp (a + 1) b
  parcel := by
    intro q
    by_cases hqp : q = p
    · subst hqp
      have hw := h.parcel q
      rw [hp] at hw
      obtain ⟨hba, -, hmoved, hcarried, hrest⟩ := hw
      have hother : ∀ j, j ≠ a → (r.load q s a b v).reads q j = r.reads q j ∧
          (r.load q s a b v).cargo s j = r.cargo s j := by
        intro j hj
        simp [State.load, hj]
      have hloaded : (r.load q s a b v).place q = .aboard s (a + 1) b := by
        simp [State.load]
      rw [hloaded]
      refine ⟨by omega, ha, fun j hj => ?_, fun j hbj hja => ?_, fun j hj => ?_⟩
      · have hne : j ≠ a := by omega
        obtain ⟨w, hr, hw⟩ := hmoved j hj
        exact ⟨w, (hother j hne).1.trans hr, hw⟩
      · by_cases hj : j = a
        · subst hj
          obtain ⟨hr, hw⟩ := hrest j le_rfl
          simp [State.Carried, State.load, hr, hw]
        · obtain ⟨hr, hw⟩ := hcarried j hbj (by omega)
          exact ⟨by rw [(hother j hj).1, (hother j hj).2, hr], hw⟩
      · obtain ⟨hr, hw⟩ := hrest j (by omega)
        exact ⟨(hother j (by omega)).1.trans hr, hw⟩
    · have hplace : (r.load p s a b v).place q = r.place q := by simp [State.load, hqp]
      rw [hplace]
      refine State.At.other (h.parcel q) (by simp [State.load, hqp]) rfl ?_
      intro s' c d hq
      have hne : s' ≠ s := by
        rintro rfl
        exact hqp (h.alone q p s' c d a b hq hp)
      simp [State.load, hne]

end Steps

end SoftGpu.Relay
