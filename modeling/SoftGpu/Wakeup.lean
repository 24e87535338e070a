import SoftGpu.Doorbell
import Mathlib.Algebra.BigOperators.Intervals
import Mathlib.Data.Nat.ModEq

/-!
# Retirements and sleeping engines

An engine that goes to sleep with a `WAIT_FENCE` at a channel's head publishes that
it is blocked before it looks at the fence once more, and a retirement stores GET
before it looks for blocked sleepers. A command that is retired because its page
could not be migrated advances GET without looking for sleepers.
-/

namespace SoftGpu.Gating

open Machine
open Staging (Chan Fence)

variable {Tid : Type*} {cfg : Config} {s s' : State Tid} {e : ℕ} {g : Engine}

/-! ### One round of an engine -/

def Engine.Looked (cfg : Config) (g : Engine) (i c : ℕ) : Prop := ∃ k < i, g.channel cfg k = c

theorem Engine.looked_succ {i c : ℕ} :
    g.Looked cfg (i + 1) c ↔ g.Looked cfg i c ∨ c = g.channel cfg i := by
  constructor
  · rintro ⟨k, hk, rfl⟩
    obtain hk | rfl := Nat.lt_succ_iff_lt_or_eq.mp hk
    · exact .inl ⟨k, hk, rfl⟩
    · exact .inr rfl
  · rintro (⟨k, hk, rfl⟩ | rfl)
    · exact ⟨k, hk.trans (Nat.lt_succ_self i), rfl⟩
    · exact ⟨i, Nat.lt_succ_self i, rfl⟩

theorem Engine.not_looked {i : ℕ} (hi : i < cfg.channels) :
    ¬g.Looked cfg i (g.channel cfg i) := by
  rintro ⟨k, hk, heq⟩
  have hmod : k % cfg.channels = i % cfg.channels := Nat.ModEq.add_left_cancel' g.rr heq
  rw [Nat.mod_eq_of_lt (hk.trans hi), Nat.mod_eq_of_lt hi] at hmod
  omega

theorem Engine.looked_all {c i : ℕ} (hc : c < cfg.channels) (hi : cfg.channels ≤ i) :
    g.Looked cfg i c := by
  have hpos : 0 < cfg.channels := (Nat.zero_le c).trans_lt hc
  refine ⟨(c + (cfg.channels - g.rr % cfg.channels)) % cfg.channels,
    (Nat.mod_lt _ hpos).trans_le hi, ?_⟩
  have hrr := Nat.mod_lt g.rr hpos
  rw [Engine.channel, Nat.add_mod_mod, ← Nat.mod_add_mod,
    show g.rr % cfg.channels + (c + (cfg.channels - g.rr % cfg.channels)) = c + cfg.channels by
      omega,
    Nat.add_mod_right, Nat.mod_eq_of_lt hc]

def ChosenOk (cfg : Config) (s : State Tid) (e : ℕ) (g : Engine) (i : ℕ) : Prop :=
  ∀ c, g.chosen = some c →
    g.Looked cfg i c ∧ s.get (e, c) < g.seenPut c ∧ s.parked (e, c) = false

def PendingOk (s : State Tid) (e : ℕ) (g : Engine) (P : ℕ → Prop) : Prop :=
  g.progress = false → g.chosen = none → ∀ c, P c → s.get (e, c) < g.seenPut c → g.pending = true

def IdleOk (cfg : Config) (s : State Tid) (e : ℕ) (g : Engine) : Prop :=
  ∀ c < cfg.channels, s.get (e, c) < g.seenPut c → g.pending = true

def RoundOk (cfg : Config) (s : State Tid) (e : ℕ) (g : Engine) : Prop :=
  (∀ c, g.seenPut c ≤ s.put (e, c)) ∧ match g.point with
    | .scan i => ChosenOk cfg s e g i ∧ PendingOk s e g (g.Looked cfg i)
    | .exchange i | .failHead i | .probe i => i < cfg.channels ∧ ChosenOk cfg s e g i ∧
        PendingOk s e g fun c => g.Looked cfg i c ∧ c ≠ g.channel cfg i
    | .head i => (s.get (e, g.channel cfg i) < g.seenPut (g.channel cfg i) ∧
        s.parked (e, g.channel cfg i) = false) ∧
        ChosenOk cfg s e g i ∧ PendingOk s e g fun c => g.Looked cfg i c ∧ c ≠ g.channel cfg i
    | .visit c p | .retiring c p =>
        s.get (e, c) < p ∧ p ≤ s.put (e, c) ∧ s.parked (e, c) = false
    | .faulting _ => True
    | .waking c p | .wakeLoop c p _ | .wakeSignal c p _ | .boundary c p =>
        s.get (e, c) ≤ p ∧ p ≤ s.put (e, c) ∧ s.parked (e, c) = false
    | .idle | .sample | .setAsleep _ | .setBlocked _ | .count _ | .enter _ | .asleep _
    | .clearAsleep | .clearBlocked | .uncount => IdleOk cfg s e g
    | .recheck _ i => IdleOk cfg s e g ∧ i ≤ cfg.channels
    | .recheckPut _ i => IdleOk cfg s e g ∧ i < cfg.channels
    | .recheckHead _ i => IdleOk cfg s e g ∧ i < cfg.channels ∧ g.skipped i = false

namespace RoundOk

theorem frame (h : RoundOk cfg s e g) (hput : ∀ c, s.put (e, c) ≤ s'.put (e, c))
    (hget : ∀ c, s'.get (e, c) = s.get (e, c))
    (hparked : ∀ c, s.parked (e, c) = false → s'.parked (e, c) = false) : RoundOk cfg s' e g := by
  obtain ⟨hseen, h⟩ := h
  refine ⟨fun c => (hseen c).trans (hput c), ?_⟩
  have hchosen : ∀ i, ChosenOk cfg s e g i → ChosenOk cfg s' e g i := by
    intro i hc c hch
    obtain ⟨h₁, h₂, h₃⟩ := hc c hch
    exact ⟨h₁, (hget c).symm ▸ h₂, hparked c h₃⟩
  have hpending : ∀ P, PendingOk s e g P → PendingOk s' e g P := by
    intro P hp
    simp only [PendingOk, hget]
    exact hp
  have hidle : IdleOk cfg s e g → IdleOk cfg s' e g := by
    intro hi
    simp only [IdleOk, hget]
    exact hi
  cases hp : g.point with
  | scan i =>
    simp only [hp] at h
    exact ⟨hchosen i h.1, hpending _ h.2⟩
  | exchange i | failHead i | probe i =>
    simp only [hp] at h
    exact ⟨h.1, hchosen i h.2.1, hpending _ h.2.2⟩
  | head i =>
    simp only [hp] at h
    obtain ⟨⟨h₁, h₂⟩, h₃, h₄⟩ := h
    exact ⟨⟨(hget _).symm ▸ h₁, hparked _ h₂⟩, hchosen i h₃, hpending _ h₄⟩
  | visit c p | retiring c p | waking c p | wakeLoop c p _ | wakeSignal c p _ | boundary c p =>
    simp only [hp] at h
    obtain ⟨h₁, h₂, h₃⟩ := h
    exact ⟨(hget c).symm ▸ h₁, h₂.trans (hput c), hparked c h₃⟩
  | faulting c => trivial
  | recheck _ i | recheckPut _ i | recheckHead _ i =>
    simp only [hp] at h
    exact ⟨hidle h.1, h.2⟩
  | _ =>
    simp only [hp] at h
    exact hidle h

theorem again (h : RoundOk cfg s e g) : RoundOk cfg s e g.again := by
  refine ⟨h.1, ?_, ?_⟩
  · intro c hc
    cases hc
  · rintro - - c ⟨k, hk, -⟩
    omega

theorem looked {g' : Engine} {i : ℕ} (hseen : ∀ c, g.seenPut c ≤ s.put (e, c))
    (hc : ChosenOk cfg s e g i)
    (hp : PendingOk s e g fun c => g.Looked cfg i c ∧ c ≠ g.channel cfg i)
    (hpoint : g'.point = .scan (i + 1)) (hput : g'.seenPut = g.seenPut) (hrr : g'.rr = g.rr)
    (hprogress : g'.progress = g.progress) (hmono : g.pending = true → g'.pending = true)
    (hchosen : g'.chosen = g.chosen ∨ g'.chosen = some (g.channel cfg i) ∧
      s.get (e, g.channel cfg i) < g.seenPut (g.channel cfg i) ∧
      s.parked (e, g.channel cfg i) = false)
    (hnew : g'.chosen = none → s.get (e, g.channel cfg i) < g.seenPut (g.channel cfg i) →
      g'.pending = true) : RoundOk cfg s e g' := by
  have hlooked : ∀ c, g'.Looked cfg (i + 1) c ↔ g.Looked cfg i c ∨ c = g.channel cfg i := by
    intro c
    rw [← Engine.looked_succ]
    simp only [Engine.Looked, Engine.channel, hrr]
  refine ⟨by rw [hput]; exact hseen, ?_⟩
  rw [hpoint]
  constructor
  · intro c hg
    rw [hput, hlooked]
    obtain he | ⟨he, hlt⟩ := hchosen
    · obtain ⟨h₁, h₂⟩ := hc c (he ▸ hg)
      exact ⟨.inl h₁, h₂⟩
    · obtain rfl : g.channel cfg i = c := by simpa [he] using hg
      exact ⟨.inr rfl, hlt⟩
  · intro hprog hnone c hl hlt
    rw [hput] at hlt
    by_cases hci : c = g.channel cfg i
    · subst hci
      exact hnew hnone hlt
    · have hold : g.chosen = none := by
        obtain he | ⟨he, -⟩ := hchosen
        · exact he ▸ hnone
        · simp [he] at hnone
      obtain hl | hl := (hlooked c).mp hl
      · exact hmono (hp (hprogress ▸ hprog) hold c ⟨hl, hci⟩ hlt)
      · exact absurd hl hci

theorem store {q : State Tid} (h : RoundOk cfg s e g) (hput : q.put = s.put) (hget : q.get = s.get)
    (hparked : q.parked = s.parked) :
    RoundOk cfg (q.setEngine e g) e ((q.setEngine e g).engine e) := by
  rw [State.setEngine_engine]
  exact h.frame (fun _ => hput ▸ le_rfl) (fun _ => congrFun hget _)
    fun _ hp => (congrFun hparked _).trans hp

theorem scan (h : RoundOk cfg s e (s.engine e)) {answer : Bool}
    (hs : scanStep cfg s e (s.engine e) answer (s.engine e).point = some s') :
    RoundOk cfg s' e (s'.engine e) := by
  generalize hg : s.engine e = g at h hs
  have hagain := h.again
  obtain ⟨hseen, h⟩ := h
  cases hp : g.point with
  | scan i =>
    simp only [hp] at h
    obtain ⟨hc, hpend⟩ := h
    simp only [hp, scanStep] at hs
    split at hs
    · next hi =>
      obtain rfl := Option.some.inj hs
      have hle : ∀ c, g.seenPut c ≤ Function.update g.seenPut (g.channel cfg i)
          (s.put (e, g.channel cfg i)) c := by
        intro c
        by_cases hci : c = g.channel cfg i
        · subst hci
          rw [Function.update_self]
          exact hseen _
        · rw [Function.update_of_ne hci]
      refine store (s := s) ⟨fun c => ?_, hi, fun c hch => ?_,
        fun hprog hnone c hl hlt => ?_⟩ rfl rfl rfl
      · by_cases hci : c = g.channel cfg i
        · subst hci
          simp
        · simpa [hci] using hseen c
      · obtain ⟨h₁, h₂⟩ := hc c hch
        exact ⟨h₁, h₂.1.trans_le (hle c), h₂.2⟩
      · have hne : c ≠ g.channel cfg i := hl.2
        simp only [Function.update_of_ne hne] at hlt
        exact hpend hprog hnone c hl.1 hlt
    · next hi =>
      split at hs
      · next c hch =>
        obtain rfl := Option.some.inj hs
        exact store (s := s) ⟨hseen, (hc c hch).2.1, hseen c, (hc c hch).2.2⟩ rfl rfl rfl
      · next hnone =>
        split at hs
        · obtain rfl := Option.some.inj hs
          exact store hagain rfl rfl rfl
        · next hprog =>
          obtain rfl := Option.some.inj hs
          refine store (s := s) ⟨hseen, fun c hcn hlt => ?_⟩ rfl rfl rfl
          exact hpend (by simpa using hprog) hnone c (Engine.looked_all hcn (by omega)) hlt
  | exchange i =>
    simp only [hp] at h
    obtain ⟨hi, hc, hpend⟩ := h
    simp only [hp, scanStep] at hs
    split at hs
    · obtain rfl := Option.some.inj hs
      refine store (s := s) ?_ rfl rfl rfl
      split
      · next heq =>
        exact looked hseen hc hpend rfl rfl rfl rfl id (.inl rfl) fun _ hlt => absurd heq hlt.ne'
      · exact ⟨hseen, hi, hc, hpend⟩
    · obtain rfl := Option.some.inj hs
      exact store (s := s) ⟨hseen, hi, hc, hpend⟩ rfl rfl rfl
  | failHead i =>
    simp only [hp] at h
    obtain ⟨hi, hc, hpend⟩ := h
    simp only [hp, scanStep] at hs
    obtain rfl := Option.some.inj hs
    rw [State.setEngine_engine]
    refine ⟨hseen, fun c hch => ?_, fun hprog => by cases hprog⟩
    obtain ⟨h₁, h₂⟩ := hc c hch
    have hne : c ≠ g.channel cfg i := fun heq => Engine.not_looked hi (heq ▸ h₁)
    refine ⟨Engine.looked_succ.mpr (.inl h₁), ?_, h₂.2⟩
    simpa [State.advance, State.setEngine, hne] using h₂.1
  | probe i =>
    simp only [hp] at h
    obtain ⟨hi, hc, hpend⟩ := h
    simp only [hp, scanStep] at hs
    split at hs
    · obtain rfl := Option.some.inj hs
      refine store (s := s) ?_ rfl rfl rfl
      refine looked hseen hc hpend rfl rfl rfl rfl (fun ht => by simp [ht]) (.inl rfl)
        fun _ hlt => ?_
      simp [hlt.ne']
    · next hno =>
      split at hs
      · next hle =>
        obtain rfl := Option.some.inj hs
        refine store (s := s) ?_ rfl rfl rfl
        exact looked hseen hc hpend rfl rfl rfl rfl id (.inl rfl) fun _ hlt => absurd hle (by omega)
      · next hgt =>
        obtain rfl := Option.some.inj hs
        exact store (s := s) ⟨hseen, ⟨Nat.lt_of_not_le hgt, Bool.eq_false_of_not_eq_true hno⟩,
          hc, hpend⟩ rfl rfl
          rfl
  | head i =>
    simp only [hp] at h
    obtain ⟨hlt, hc, hpend⟩ := h
    simp only [hp, scanStep] at hs
    split at hs
    · obtain rfl := Option.some.inj hs
      refine store (s := s) ?_ rfl rfl rfl
      exact looked hseen hc hpend rfl rfl rfl rfl (fun _ => rfl) (.inl rfl) fun _ _ => rfl
    · obtain rfl := Option.some.inj hs
      refine store (s := s) ?_ rfl rfl rfl
      refine looked hseen hc hpend rfl rfl rfl rfl (fun _ => rfl) ?_ fun _ _ => rfl
      dsimp only
      split
      · exact .inr ⟨rfl, hlt⟩
      · exact .inl rfl
  | _ => simp [hp, scanStep] at hs

theorem visit (h : RoundOk cfg s e (s.engine e)) {answer : Bool}
    (hs : visitStep cfg s e (s.engine e) answer (s.engine e).point = some s') :
    RoundOk cfg s' e (s'.engine e) := by
  generalize hg : s.engine e = g at h hs
  have hagain := h.again
  obtain ⟨hseen, h⟩ := h
  cases hp : g.point with
  | visit c p =>
    simp only [hp] at h
    simp only [hp, visitStep] at hs
    split at hs
    · split at hs
      · obtain rfl := Option.some.inj hs
        exact store hagain rfl rfl rfl
      · obtain rfl := Option.some.inj hs
        exact store (s := s) ⟨hseen, h⟩ rfl rfl rfl
    · split at hs
      · obtain rfl := Option.some.inj hs
        exact store (s := s) ⟨hseen, h⟩ rfl rfl rfl
      · obtain rfl := Option.some.inj hs
        rw [State.setEngine_engine]
        exact ⟨hseen, trivial⟩
  | faulting c =>
    simp only [hp, visitStep] at hs
    obtain rfl := Option.some.inj hs
    exact store hagain rfl rfl rfl
  | retiring c p =>
    simp only [hp] at h
    simp only [hp, visitStep] at hs
    obtain rfl := Option.some.inj hs
    rw [State.setEngine_engine]
    refine ⟨hseen, ?_, h.2⟩
    simp only [State.advance, State.setEngine, Function.update_self]
    exact h.1
  | waking c p =>
    simp only [hp] at h
    simp only [hp, visitStep] at hs
    obtain rfl := Option.some.inj hs
    refine store (s := s) ?_ rfl rfl rfl
    split <;> exact ⟨hseen, h⟩
  | wakeLoop c p j =>
    simp only [hp] at h
    simp only [hp, visitStep] at hs
    split at hs
    · obtain rfl := Option.some.inj hs
      refine store (s := s) ?_ rfl rfl rfl
      split <;> exact ⟨hseen, h⟩
    · obtain rfl := Option.some.inj hs
      exact store (s := s) ⟨hseen, h⟩ rfl rfl rfl
  | wakeSignal c p j =>
    simp only [hp] at h
    simp only [hp, visitStep] at hs
    obtain rfl := Option.some.inj hs
    exact store (s := s) ⟨hseen, h⟩ rfl rfl rfl
  | boundary c p =>
    simp only [hp] at h
    obtain ⟨hle, hput, hfree⟩ := h
    simp only [hp, visitStep] at hs
    generalize hp' : (if s.get (e, c) = p then s.put (e, c) else p) = p' at hs
    have hbound : s.get (e, c) ≤ p' ∧ p' ≤ s.put (e, c) := by
      subst hp'
      split
      · next heq => exact ⟨heq ▸ hput, le_rfl⟩
      · exact ⟨hle, hput⟩
    split at hs
    · obtain rfl := Option.some.inj hs
      exact store hagain rfl rfl rfl
    · next hgo =>
      obtain rfl := Option.some.inj hs
      refine store (s := s) ⟨hseen, ?_, hbound.2, hfree⟩ rfl rfl rfl
      have hne : s.get (e, c) ≠ p' := fun heq => hgo (.inl heq)
      have := hbound.1
      omega
  | _ => simp [hp, visitStep] at hs

theorem idle (h : RoundOk cfg s e (s.engine e)) {answer : Bool}
    (hs : idleStep cfg s e (s.engine e) answer (s.engine e).point = some s') :
    RoundOk cfg s' e (s'.engine e) := by
  generalize hg : s.engine e = g at h hs
  have hagain := h.again
  obtain ⟨hseen, h⟩ := h
  cases hp : g.point with
  | idle =>
    simp only [hp] at h
    simp only [hp, idleStep] at hs
    obtain rfl := Option.some.inj hs
    refine store (s := s) ?_ rfl rfl rfl
    split
    · exact ⟨hseen, h⟩
    · exact hagain
  | sample | setBlocked | clearBlocked =>
    simp only [hp] at h
    simp only [hp, idleStep] at hs
    obtain rfl := Option.some.inj hs
    exact store (s := s) ⟨hseen, h⟩ rfl rfl rfl
  | count =>
    simp only [hp] at h
    simp only [hp, idleStep] at hs
    obtain rfl := Option.some.inj hs
    exact store (s := s) ⟨hseen, h, Nat.zero_le _⟩ rfl rfl rfl
  | setAsleep =>
    simp only [hp] at h
    simp only [hp, idleStep] at hs
    obtain rfl := Option.some.inj hs
    refine store (s := s) ?_ rfl rfl rfl
    split
    · exact ⟨hseen, h⟩
    · exact ⟨hseen, h, Nat.zero_le _⟩
  | enter =>
    simp only [hp] at h
    simp only [hp, idleStep] at hs
    obtain rfl := Option.some.inj hs
    refine store (s := s) ?_ rfl rfl rfl
    split <;> exact ⟨hseen, h⟩
  | recheck seen i =>
    simp only [hp] at h
    simp only [hp, idleStep] at hs
    split at hs
    · next hlt =>
      split at hs <;> obtain rfl := Option.some.inj hs <;>
        exact store (s := s) ⟨hseen, h.1, hlt⟩ rfl rfl rfl
    · obtain rfl := Option.some.inj hs
      exact store (s := s) ⟨hseen, h.1⟩ rfl rfl rfl
  | recheckPut seen i =>
    simp only [hp] at h
    simp only [hp, idleStep] at hs
    split at hs
    · obtain rfl := Option.some.inj hs
      exact store (s := s) ⟨hseen, h.1⟩ rfl rfl rfl
    · obtain rfl := Option.some.inj hs
      refine store (s := s) ?_ rfl rfl rfl
      split
      · exact ⟨hseen, h.1, h.2, Function.update_self ..⟩
      · exact ⟨hseen, h.1, h.2⟩
  | recheckHead seen i =>
    simp only [hp] at h
    simp only [hp, idleStep] at hs
    obtain rfl := Option.some.inj hs
    refine store (s := s) ?_ rfl rfl rfl
    split
    · exact ⟨hseen, h.1, h.2.1⟩
    · exact ⟨hseen, h.1⟩
  | asleep seen =>
    simp only [hp] at h
    simp only [hp, idleStep] at hs
    split at hs
    · obtain rfl := Option.some.inj hs
      exact store (s := s) ⟨hseen, h⟩ rfl rfl rfl
    · cases hs
  | clearAsleep =>
    simp only [hp] at h
    simp only [hp, idleStep] at hs
    obtain rfl := Option.some.inj hs
    refine store (s := s) ?_ rfl rfl rfl
    split
    · exact ⟨hseen, h⟩
    · exact hagain
  | uncount =>
    simp only [hp, idleStep] at hs
    obtain rfl := Option.some.inj hs
    exact store hagain rfl rfl rfl
  | _ => simp [hp, idleStep] at hs

end RoundOk

/-! ### Who counts as a blocked sleeper -/

def Point.isBlocked : Point → Bool
  | .count _ | .recheck _ _ | .recheckPut _ _ | .recheckHead _ _ | .enter _ | .asleep _
  | .clearAsleep | .clearBlocked => true
  | _ => false

def Point.isCounted : Point → Bool
  | .recheck _ _ | .recheckPut _ _ | .recheckHead _ _ | .enter _ | .asleep _ | .clearAsleep
  | .clearBlocked | .uncount => true
  | _ => false

def Point.onlyPending : Point → Bool
  | .setBlocked _ | .count _ | .clearBlocked | .uncount => true
  | _ => false

def Engine.counted (g : Engine) : Bool := g.pending && g.point.isCounted

structure FlagOk (s : State Tid) (e : ℕ) (g : Engine) : Prop where
  blocked : s.asleepBlocked e = (g.pending && g.point.isBlocked)
  pending : g.point.onlyPending = true → g.pending = true

def FlagStep (s s' : State Tid) (e : ℕ) : Prop :=
  FlagOk s' e (s'.engine e) ∧ s'.numAsleepBlocked + (s.engine e).counted.toNat =
    s.numAsleepBlocked + (s'.engine e).counted.toNat

theorem Point.flags_of_not_gated {p : Point} (h : p.gated = false) :
    p.isBlocked = false ∧ p.isCounted = false ∧ p.onlyPending = false := by
  cases p <;> simp_all [gated, isBlocked, isCounted, onlyPending]

namespace FlagOk

theorem awake (h : FlagOk s e (s.engine e)) (hs : AwakeStep cfg s s' e) : FlagStep s s' e := by
  obtain ⟨hb, hc, -⟩ := Point.flags_of_not_gated hs.before
  obtain ⟨hb', hc', hp'⟩ := Point.flags_of_not_gated hs.after
  refine ⟨⟨?_, ?_⟩, ?_⟩
  · rw [hs.asleepBlocked, h.blocked, hb, hb', Bool.and_false, Bool.and_false]
  · rw [hp']
    exact fun hp => by cases hp
  · rw [Engine.counted, Engine.counted, hc, hc', Bool.and_false, Bool.and_false, hs.num]

theorem stay {g' : Engine} (h : FlagOk s e (s.engine e)) {q : State Tid}
    (hq : q.asleepBlocked = s.asleepBlocked) (hnum : q.numAsleepBlocked = s.numAsleepBlocked)
    (hpend : g'.pending = (s.engine e).pending)
    (hblocked : (s.engine e).pending = true → g'.point.isBlocked = (s.engine e).point.isBlocked)
    (hcounted : (s.engine e).pending = true → g'.point.isCounted = (s.engine e).point.isCounted)
    (honly : g'.point.onlyPending = true → (s.engine e).pending = true) :
    FlagStep s (q.setEngine e g') e := by
  have hand : ∀ b b' : Bool, ((s.engine e).pending = true → b' = b) →
      (g'.pending && b') = ((s.engine e).pending && b) := by
    intro b b' hb
    rw [hpend]
    cases hp : (s.engine e).pending with
    | false => rfl
    | true => rw [hb hp]
  refine ⟨⟨?_, ?_⟩, ?_⟩
  · rw [State.setEngine_engine, hand _ _ hblocked, ← h.blocked, ← hq]
    rfl
  · rw [State.setEngine_engine, hpend]
    exact honly
  · rw [State.setEngine_engine, Engine.counted, Engine.counted, hand _ _ hcounted, ← hnum]
    rfl

theorem idle (h : FlagOk s e (s.engine e)) {answer : Bool}
    (hnum : (s.engine e).counted = true → 0 < s.numAsleepBlocked)
    (hs : idleStep cfg s e (s.engine e) answer (s.engine e).point = some s') :
    FlagStep s s' e := by
  cases hp : (s.engine e).point with
  | idle =>
    simp only [hp, idleStep] at hs
    obtain rfl := Option.some.inj hs
    have hstep : AwakeStep cfg s (s.setEngine e (if answer = true then
        (s.engine e).goto .sample else (s.engine e).again)) e := by
      refine .of_locals (by simp [hp, Point.gated]) (by simp [hp]) ?_
      split <;> rfl
    exact h.awake hstep
  | sample =>
    simp only [hp, idleStep] at hs
    obtain rfl := Option.some.inj hs
    exact h.stay rfl rfl rfl (fun _ => by rw [hp]; rfl) (fun _ => by rw [hp]; rfl)
      fun ho => by cases ho
  | setAsleep seen =>
    simp only [hp, idleStep] at hs
    obtain rfl := Option.some.inj hs
    refine h.stay rfl rfl rfl (fun ht => ?_) (fun ht => ?_) fun ho => ?_
    · rw [hp, if_pos ht]
      rfl
    · rw [hp, if_pos ht]
      rfl
    · by_contra hf
      rw [if_neg hf] at ho
      cases ho
  | setBlocked seen =>
    have hpend := h.pending (by rw [hp]; rfl)
    simp only [hp, idleStep] at hs
    obtain rfl := Option.some.inj hs
    refine ⟨⟨?_, ?_⟩, ?_⟩
    · rw [State.setEngine_engine]
      simp [State.setEngine, Engine.goto, Point.isBlocked, hpend]
    · rw [State.setEngine_engine]
      exact fun _ => hpend
    · rw [State.setEngine_engine]
      simp [State.setEngine, Engine.goto, Engine.counted, Point.isCounted, hp]
  | count seen =>
    have hpend := h.pending (by rw [hp]; rfl)
    have hflag := h.blocked
    simp only [hp, hpend, Point.isBlocked, Bool.and_self] at hflag
    simp only [hp, idleStep] at hs
    obtain rfl := Option.some.inj hs
    refine ⟨⟨?_, ?_⟩, ?_⟩
    · rw [State.setEngine_engine]
      simpa [State.setEngine, Engine.goto, Point.isBlocked, hpend] using hflag
    · rw [State.setEngine_engine]
      exact fun _ => hpend
    · rw [State.setEngine_engine]
      simp [State.setEngine, Engine.goto, Engine.counted, Point.isCounted, hp, hpend]
  | recheck seen i =>
    simp only [hp, idleStep] at hs
    split at hs
    · split at hs <;> obtain rfl := Option.some.inj hs <;>
        exact h.stay rfl rfl rfl (fun _ => by rw [hp]; rfl) (fun _ => by rw [hp]; rfl)
          fun ho => by cases ho
    · obtain rfl := Option.some.inj hs
      exact h.stay rfl rfl rfl (fun _ => by rw [hp]; rfl) (fun _ => by rw [hp]; rfl)
        fun ho => by cases ho
  | recheckPut seen i =>
    simp only [hp, idleStep] at hs
    split at hs
    · obtain rfl := Option.some.inj hs
      exact h.stay rfl rfl rfl (fun _ => by rw [hp]; rfl) (fun _ => by rw [hp]; rfl)
        fun ho => by cases ho
    · obtain rfl := Option.some.inj hs
      refine h.stay rfl rfl rfl (fun _ => ?_) (fun _ => ?_) fun ho => ?_
      · rw [hp]
        dsimp only
        split <;> rfl
      · rw [hp]
        dsimp only
        split <;> rfl
      · dsimp only at ho
        split at ho <;> cases ho
  | recheckHead seen i | enter seen =>
    simp only [hp, idleStep] at hs
    obtain rfl := Option.some.inj hs
    refine h.stay rfl rfl rfl (fun _ => ?_) (fun _ => ?_) fun ho => ?_
    · rw [hp]
      dsimp only [Engine.goto]
      split <;> rfl
    · rw [hp]
      dsimp only [Engine.goto]
      split <;> rfl
    · dsimp only [Engine.goto] at ho
      split at ho <;> cases ho
  | asleep seen =>
    simp only [hp, idleStep] at hs
    split at hs
    · obtain rfl := Option.some.inj hs
      exact h.stay rfl rfl rfl (fun _ => by rw [hp]; rfl) (fun _ => by rw [hp]; rfl)
        fun ho => by cases ho
    · cases hs
  | clearAsleep =>
    simp only [hp, idleStep] at hs
    obtain rfl := Option.some.inj hs
    cases hpend : (s.engine e).pending with
    | true =>
      rw [if_pos rfl]
      exact h.stay rfl rfl rfl (fun _ => by rw [hp]; rfl) (fun _ => by rw [hp]; rfl)
        fun _ => hpend
    | false =>
      rw [if_neg Bool.false_ne_true]
      refine ⟨⟨?_, ?_⟩, ?_⟩
      · rw [State.setEngine_engine]
        have hflag := h.blocked
        rw [hpend] at hflag
        exact hflag
      · rw [State.setEngine_engine]
        exact fun ho => by cases ho
      · rw [State.setEngine_engine, Engine.counted, hpend]
        rfl
  | clearBlocked =>
    have hpend := h.pending (by rw [hp]; rfl)
    simp only [hp, idleStep] at hs
    obtain rfl := Option.some.inj hs
    refine ⟨⟨?_, ?_⟩, ?_⟩
    · rw [State.setEngine_engine]
      simp [State.setEngine, Engine.goto, Point.isBlocked]
    · rw [State.setEngine_engine]
      exact fun _ => hpend
    · rw [State.setEngine_engine]
      simp [State.setEngine, Engine.goto, Engine.counted, Point.isCounted, hp]
  | uncount =>
    have hpend := h.pending (by rw [hp]; rfl)
    have hpos := hnum (by rw [Engine.counted, hp, hpend]; rfl)
    simp only [hp, idleStep] at hs
    obtain rfl := Option.some.inj hs
    refine ⟨⟨?_, ?_⟩, ?_⟩
    · rw [State.setEngine_engine]
      have hflag := h.blocked
      rw [hp, hpend] at hflag
      exact hflag
    · rw [State.setEngine_engine]
      exact fun ho => by cases ho
    · rw [State.setEngine_engine]
      simp only [State.setEngine, Engine.again, Engine.counted, Point.isCounted, hp, hpend,
        Bool.and_self, Bool.toNat_true, Bool.toNat_false, Nat.add_zero]
      omega
  | _ => simp [hp, idleStep] at hs

end FlagOk

/-! ### The heads of a sleeping engine -/

/-- Engine `j` has stored GET and its wake-up of engine `e` is still to come. -/
def State.WillWake (s : State Tid) (j e : ℕ) : Prop :=
  match (s.engine j).point with
  | .waking _ _ => True
  | .wakeLoop _ _ i | .wakeSignal _ _ i => i ≤ e
  | _ => False

def Point.headChecked (n : ℕ) : Point → Option (ℕ × ℕ)
  | .recheck seen i | .recheckPut seen i | .recheckHead seen i => some (seen, i)
  | .enter seen | .asleep seen => some (seen, n)
  | _ => none

def State.Due (s : State Tid) (e : ℕ) (f : Fence) : Prop :=
  s.get f.chan < f.value ∨ s.WillWake f.chan.1 e

def HeadOk (cfg : Config) (s : State Tid) (g : Engine) (e seen c : ℕ) : Prop :=
  if g.skipped c = true then s.headOf (e, c) = .work ∧ s.get (e, c) < s.put (e, c)
  else seen < s.bell e ∨ (s.get (e, c) < g.seenPut c →
    ∀ f, s.headOf (e, c) = .wait f → cfg.valid f.chan → s.Due e f)

/-- An error that retires a command finds its channel unparked, and no engine asleep on
the fence of that command. -/
def quietFailure (cfg : Config) (s : State Tid) : Action Tid → Prop
  | .engine e _ => match (s.engine e).point with
    | .failHead i =>
      s.parked (e, (s.engine e).channel cfg i) = false ∧
        ∀ j < cfg.engines, s.asleep j = true → ∀ c < cfg.channels,
          s.headOf (j, c) ≠ .wait ⟨(e, (s.engine e).channel cfg i),
            s.get (e, (s.engine e).channel cfg i) + 1⟩
    | _ => True
  | _ => True

instance (cfg : Config) (s : State Tid) (a : Action Tid) : Decidable (quietFailure cfg s a) := by
  unfold quietFailure
  split
  · split <;> infer_instance
  · infer_instance

structure WakeOk (cfg : Config) (s : State Tid) : Prop where
  rounds : ∀ e, RoundOk cfg s e (s.engine e)
  flags : ∀ e, FlagOk s e (s.engine e)
  count : s.numAsleepBlocked = ∑ e ∈ Finset.range cfg.engines, (s.engine e).counted.toNat
  faulted : ∀ r, s.parked r = true → s.headOf r = .work ∧ s.get r < s.put r
  heads : ∀ e < cfg.engines, ∀ seen i,
    (s.engine e).point.headChecked cfg.channels = some (seen, i) →
    ∀ c < i, HeadOk cfg s (s.engine e) e seen c

theorem init_wakeOk (cfg : Config) : WakeOk cfg (init : State Tid) where
  rounds := by
    intro e
    refine ⟨fun _ => le_rfl, ?_, ?_⟩
    · intro c hc
      cases hc
    · rintro - - c ⟨k, hk, -⟩
      omega
  flags := fun _ => ⟨rfl, fun h => by cases h⟩
  count := by simp [init, Engine.counted, Point.isCounted]
  faulted := by simp [init]
  heads := by simp [init, Point.headChecked]

theorem Point.flags_of_headChecked {p : Point} {n seen i : ℕ}
    (h : p.headChecked n = some (seen, i)) :
    p.isBlocked = true ∧ p.isCounted = true ∧ p.isAsleep = true := by
  cases p <;> simp_all [headChecked, isBlocked, isCounted, isAsleep]

theorem Point.headChecked_of_not_gated {p : Point} (n : ℕ) (h : p.gated = false) :
    p.headChecked n = none := by
  cases p <;> simp_all [gated, headChecked]

theorem headOf_congr {r : Chan} (hget : s'.get r = s.get r)
    (hring : s'.ring r (s.get r) = s.ring r (s.get r)) : s'.headOf r = s.headOf r := by
  simp only [State.headOf, hget, hring]

theorem HeadOk.map {seen c : ℕ} (h : HeadOk cfg s g e seen c)
    (hhead : s.get (e, c) < s.put (e, c) → s'.headOf (e, c) = s.headOf (e, c))
    (hseen : g.seenPut c ≤ s.put (e, c)) (hget : s'.get (e, c) = s.get (e, c))
    (hput : s.put (e, c) ≤ s'.put (e, c)) (hbell : s.bell e ≤ s'.bell e)
    (hdue : s.get (e, c) < g.seenPut c → ∀ f, s.headOf (e, c) = .wait f → cfg.valid f.chan →
      s.Due e f → s.bell e < s'.bell e ∨ s'.Due e f) (hle : seen ≤ s.bell e) :
    HeadOk cfg s' g e seen c := by
  unfold HeadOk at h ⊢
  split at h
  · next hskip =>
    rw [if_pos hskip, hhead h.2, hget]
    exact ⟨h.1, h.2.trans_le hput⟩
  · next hskip =>
    rw [if_neg hskip]
    by_cases hb : seen < s'.bell e
    · exact .inl hb
    · right
      intro hlt f hf hv
      rw [hget] at hlt
      rw [hhead (hlt.trans_le hseen)] at hf
      have hold := (h.resolve_left (by omega)) hlt f hf hv
      obtain hb' | hd := hdue hlt f hf hv hold
      · omega
      · exact hd

theorem Point.rechecked_of_headChecked {p : Point} {n seen i : ℕ}
    (h : p.headChecked n = some (seen, i)) : ∃ k, p.rechecked n = some (seen, k) := by
  cases p with
  | recheck | recheckPut | recheckHead | enter | asleep =>
    obtain ⟨rfl, -⟩ : _ = seen ∧ _ = i := by simpa [headChecked] using h
    exact ⟨_, rfl⟩
  | _ => cases h

theorem RoundOk.of_headChecked {seen i : ℕ} (h : RoundOk cfg s e g)
    (hp : g.point.headChecked cfg.channels = some (seen, i)) :
    IdleOk cfg s e g ∧ i ≤ cfg.channels := by
  obtain ⟨-, h⟩ := h
  cases hpoint : g.point with
  | recheck _ k =>
    simp only [hpoint] at h
    obtain ⟨-, rfl⟩ : _ = seen ∧ k = i := by simpa [hpoint, Point.headChecked] using hp
    exact h
  | recheckPut _ k =>
    simp only [hpoint] at h
    obtain ⟨-, rfl⟩ : _ = seen ∧ k = i := by simpa [hpoint, Point.headChecked] using hp
    exact ⟨h.1, h.2.le⟩
  | recheckHead _ k =>
    simp only [hpoint] at h
    obtain ⟨-, rfl⟩ : _ = seen ∧ k = i := by simpa [hpoint, Point.headChecked] using hp
    exact ⟨h.1, h.2.1.le⟩
  | enter _ | asleep _ =>
    simp only [hpoint] at h
    obtain ⟨-, rfl⟩ : _ = seen ∧ cfg.channels = i := by simpa [hpoint, Point.headChecked] using hp
    exact ⟨h, le_rfl⟩
  | _ =>
    rw [hpoint] at hp
    cases hp

theorem sum_update_add {n : ℕ} (f f' : ℕ → ℕ) (he : e < n) (hf : ∀ j ≠ e, f' j = f j) :
    (∑ j ∈ Finset.range n, f' j) + f e = (∑ j ∈ Finset.range n, f j) + f' e := by
  have hmem := Finset.mem_range.mpr he
  have hold := Finset.add_sum_erase _ f hmem
  have hnew := Finset.add_sum_erase _ f' hmem
  have hrest : ∑ j ∈ (Finset.range n).erase e, f' j = ∑ j ∈ (Finset.range n).erase e, f j :=
    Finset.sum_congr rfl fun j hj => hf j (Finset.ne_of_mem_erase hj)
  omega

namespace WakeOk

theorem sleeper (h : WakeOk cfg s) (he : e < cfg.engines) {seen i c : ℕ}
    (hp : (s.engine e).point.headChecked cfg.channels = some (seen, i)) (hc : c < i)
    (hlt : s.get (e, c) < (s.engine e).seenPut c) :
    s.asleepBlocked e = true ∧ 0 < s.numAsleepBlocked := by
  obtain ⟨hb, hcount, -⟩ := Point.flags_of_headChecked hp
  obtain ⟨hidle, hle⟩ := (h.rounds e).of_headChecked hp
  have hpend := hidle c (by omega) hlt
  refine ⟨by rw [(h.flags e).blocked, hpend, hb]; rfl, ?_⟩
  rw [h.count]
  have hmem := Finset.mem_range.mpr he
  have hone : (s.engine e).counted.toNat = 1 := by
    rw [Engine.counted, hpend, hcount]
    rfl
  have hsum := Finset.add_sum_erase _ (fun j => (s.engine j).counted.toNat) hmem
  omega

theorem seen_le (hd : DoorbellOk cfg s) {seen i : ℕ}
    (hp : (s.engine e).point.headChecked cfg.channels = some (seen, i)) : seen ≤ s.bell e := by
  obtain ⟨k, hk⟩ := Point.rechecked_of_headChecked hp
  exact (hd.watch e seen k hk).1

theorem outside (h : WakeOk cfg s) (hd : DoorbellOk cfg s) (hengine : s'.engine = s.engine)
    (hget : s'.get = s.get) (hput : ∀ r, s.put r ≤ s'.put r)
    (hring : ∀ r, ∀ q < s.put r, s'.ring r q = s.ring r q)
    (hparked : ∀ r, s'.parked r = true → s.parked r = true)
    (hblocked : s'.asleepBlocked = s.asleepBlocked)
    (hnum : s'.numAsleepBlocked = s.numAsleepBlocked) (hbell : ∀ e, s.bell e ≤ s'.bell e) :
    WakeOk cfg s' := by
  have hhead : ∀ r, s.get r < s.put r → s'.headOf r = s.headOf r :=
    fun r hr => headOf_congr (congrFun hget r) (hring r _ hr)
  constructor
  · intro e
    rw [hengine]
    refine (h.rounds e).frame (fun c => hput _) (fun c => congrFun hget _) fun c hc => ?_
    by_contra hne
    rw [hparked _ (by simpa using hne)] at hc
    cases hc
  · intro e
    rw [hengine]
    exact ⟨(congrFun hblocked e).trans (h.flags e).blocked, (h.flags e).pending⟩
  · rw [hnum, hengine]
    exact h.count
  · intro r hr
    obtain ⟨hwork, hlt⟩ := h.faulted r (hparked r hr)
    exact ⟨(hhead r hlt).trans hwork, by rw [hget]; exact hlt.trans_le (hput r)⟩
  · intro e he seen i hp c hc
    rw [hengine] at hp ⊢
    refine (h.heads e he seen i hp c hc).map (hhead _) ((h.rounds e).1 c) (congrFun hget _)
      (hput _) (hbell e) (fun _ f _ _ hdue => .inr ?_) (seen_le hd hp)
    simp only [State.Due, State.WillWake, hget, hengine]
    exact hdue

theorem inside (h : WakeOk cfg s) (hd : DoorbellOk cfg s) (he : e < cfg.engines)
    (hengine : ∀ j ≠ e, s'.engine j = s.engine j) (hput : s'.put = s.put)
    (hring : s'.ring = s.ring) (hget : ∀ r : Chan, r.1 ≠ e → s'.get r = s.get r)
    (hparked : ∀ r : Chan, r.1 ≠ e → s'.parked r = s.parked r)
    (hblocked : ∀ j ≠ e, s'.asleepBlocked j = s.asleepBlocked j)
    (hbell : ∀ j, s.bell j ≤ s'.bell j) (hround : RoundOk cfg s' e (s'.engine e))
    (hflag : FlagStep s s' e)
    (hfaulted : ∀ r : Chan, r.1 = e → s'.parked r = true →
      s'.headOf r = .work ∧ s'.get r < s'.put r)
    (hheads : ∀ seen i, (s'.engine e).point.headChecked cfg.channels = some (seen, i) →
      ∀ c < i, HeadOk cfg s' (s'.engine e) e seen c)
    (hdue : ∀ j ≠ e, j < cfg.engines → s.asleep j = true → s.asleepBlocked j = true →
      0 < s.numAsleepBlocked → ∀ c < cfg.channels, ∀ f, s.headOf (j, c) = .wait f →
      s.Due j f → s.bell j < s'.bell j ∨ s'.Due j f) : WakeOk cfg s' := by
  have hhead : ∀ r : Chan, r.1 ≠ e → s'.headOf r = s.headOf r :=
    fun r hr => headOf_congr (hget r hr) (by rw [hring])
  constructor
  · intro j
    by_cases hj : j = e
    · subst hj
      exact hround
    · rw [hengine j hj]
      exact (h.rounds j).frame (fun _ => by rw [hput]) (fun c => hget (j, c) hj)
        fun c hc => (hparked (j, c) hj).trans hc
  · intro j
    by_cases hj : j = e
    · subst hj
      exact hflag.1
    · rw [hengine j hj]
      exact ⟨(hblocked j hj).trans (h.flags j).blocked, (h.flags j).pending⟩
  · have hsum := sum_update_add (fun j => (s.engine j).counted.toNat)
      (fun j => (s'.engine j).counted.toNat) he fun j hj => by rw [hengine j hj]
    have hcount := h.count
    have hstep := hflag.2
    omega
  · intro r hr
    by_cases hre : r.1 = e
    · exact hfaulted r hre hr
    · rw [hparked r hre] at hr
      rw [hhead r hre, hget r hre, hput]
      exact h.faulted r hr
  · intro j hj seen i hp c hc
    by_cases hje : j = e
    · subst hje
      exact hheads seen i hp c hc
    · rw [hengine j hje] at hp ⊢
      obtain ⟨-, -, hsleep⟩ := Point.flags_of_headChecked hp
      obtain ⟨-, hle⟩ := (h.rounds j).of_headChecked hp
      refine (h.heads j hj seen i hp c hc).map (fun _ => hhead (j, c) hje) ((h.rounds j).1 c)
        (hget (j, c) hje) (by rw [hput]) (hbell j) (fun hlt f hf _ hold => ?_) (seen_le hd hp)
      obtain ⟨hb, hn⟩ := h.sleeper hj hp hc hlt
      exact hdue j hje hj ((hd.asleep j).trans hsleep) hb hn c (by omega) f hf hold

/-! ### Steps of an engine outside its idle path -/

theorem willWake_visit {j : ℕ} {answer : Bool} (h : s.WillWake e j) (hj : j < cfg.engines)
    (hne : j ≠ e) (hb : s.asleepBlocked j = true) (hn : 0 < s.numAsleepBlocked)
    (hs : visitStep cfg s e (s.engine e) answer (s.engine e).point = some s') :
    s.bell j < s'.bell j ∨ s'.WillWake e j := by
  unfold State.WillWake at h
  cases hp : (s.engine e).point with
  | waking c p =>
    simp only [hp, visitStep, if_neg hn.ne'] at hs
    obtain rfl := Option.some.inj hs
    right
    rw [State.WillWake, State.setEngine_engine]
    exact Nat.zero_le j
  | wakeLoop c p i =>
    simp only [hp] at h
    simp only [hp, visitStep, if_pos (h.trans_lt hj)] at hs
    obtain rfl := Option.some.inj hs
    right
    rw [State.WillWake, State.setEngine_engine]
    by_cases hflag : i ≠ e ∧ s.asleepBlocked i = true
    · rw [if_pos hflag]
      exact h
    · have hij : i ≠ j := by
        intro hij
        exact hflag (hij ▸ ⟨hne, hb⟩)
      rw [if_neg hflag]
      exact Nat.lt_of_le_of_ne h hij
  | wakeSignal c p i =>
    simp only [hp] at h
    simp only [hp, visitStep] at hs
    obtain rfl := Option.some.inj hs
    by_cases hij : i = j
    · subst hij
      exact .inl (lt_signal s i)
    · right
      rw [State.WillWake, State.setEngine_engine]
      exact Nat.lt_of_le_of_ne h hij
  | _ => simp [hp] at h

theorem not_willWake_scan {j : ℕ} {answer : Bool}
    (hs : scanStep cfg s e (s.engine e) answer (s.engine e).point = some s') :
    ¬s.WillWake e j := by
  intro h
  unfold State.WillWake at h
  cases hp : (s.engine e).point with
  | waking | wakeLoop | wakeSignal => simp [hp, scanStep] at hs
  | _ => simp [hp] at h

theorem not_willWake_idle {j : ℕ} {answer : Bool}
    (hs : idleStep cfg s e (s.engine e) answer (s.engine e).point = some s') :
    ¬s.WillWake e j := by
  intro h
  unfold State.WillWake at h
  cases hp : (s.engine e).point with
  | waking | wakeLoop | wakeSignal => simp [hp, idleStep] at hs
  | _ => simp [hp] at h

theorem get_of_parked (hs : AwakeStep cfg s s' e) (hround : RoundOk cfg s e (s.engine e))
    (hquiet : ∀ i, (s.engine e).point = .failHead i →
      s.parked (e, (s.engine e).channel cfg i) = false)
    {r : Chan} (hr : s.parked r = true) : s'.get r = s.get r := by
  obtain hget | ⟨c, p, hp, -, hget⟩ | ⟨i, hp, hget⟩ := hs.get
  · rw [hget]
  · have hfree := hround.2
    simp only [hp] at hfree
    rw [hget]
    refine Function.update_of_ne (fun heq => ?_) ..
    rw [heq, hfree.2.2] at hr
    cases hr
  · rw [hget]
    refine Function.update_of_ne (fun heq => ?_) ..
    rw [heq, hquiet i hp] at hr
    cases hr

theorem awake (h : WakeOk cfg s) (hd : DoorbellOk cfg s) (he : e < cfg.engines)
    (hs : AwakeStep cfg s s' e) (hround : RoundOk cfg s' e (s'.engine e))
    (hwake : ∀ j ≠ e, j < cfg.engines → s.asleepBlocked j = true → 0 < s.numAsleepBlocked →
      s.WillWake e j → s.bell j < s'.bell j ∨ s'.WillWake e j)
    {answer : Bool} (hok : quietFailure cfg s (.engine e answer)) : WakeOk cfg s' := by
  have hquiet : ∀ i, (s.engine e).point = .failHead i →
      s.parked (e, (s.engine e).channel cfg i) = false ∧
        ∀ j < cfg.engines, s.asleep j = true → ∀ c < cfg.channels,
          s.headOf (j, c) ≠ .wait ⟨(e, (s.engine e).channel cfg i),
            s.get (e, (s.engine e).channel cfg i) + 1⟩ := by
    intro i hp
    simpa only [quietFailure, hp] using hok
  refine h.inside hd he hs.engine hs.put hs.ring ?_ ?_ (fun _ _ => congrFun hs.asleepBlocked _)
    hs.bell hround ((h.flags e).awake hs) ?_ ?_ ?_
  · intro r hr
    obtain hget | ⟨c, p, -, -, hget⟩ | ⟨i, -, hget⟩ := hs.get
    · rw [hget]
    · rw [hget]
      exact Function.update_of_ne (fun heq => hr (by rw [heq])) ..
    · rw [hget]
      exact Function.update_of_ne (fun heq => hr (by rw [heq])) ..
  · intro r hr
    obtain ⟨hp, -⟩ | ⟨c, p, -, -, -, hp⟩ | ⟨c, -, hp, -⟩ := hs.parked
    · rw [hp]
    · rw [hp]
      exact Function.update_of_ne (fun heq => hr (by rw [heq])) ..
    · rw [hp]
  · intro r hre hr
    have hold : s.parked r = true → s'.headOf r = .work ∧ s'.get r < s'.put r := by
      intro hpark
      have hget := get_of_parked hs (h.rounds e) (fun i hi => (hquiet i hi).1) hpark
      rw [headOf_congr hget (by rw [hs.ring]), hget, hs.put]
      exact h.faulted r hpark
    obtain ⟨hp, -⟩ | ⟨c, p, hv, hwork, -, hp⟩ | ⟨c, -, hp, -⟩ := hs.parked
    · exact hold (hp ▸ hr)
    · by_cases hrc : r = (e, c)
      · -- The command that faults is at GET and published.
        subst hrc
        have hget : s'.get = s.get := by
          obtain hget | ⟨_, _, hp', -⟩ | ⟨_, hp', -⟩ := hs.get
          · exact hget
          · rw [hv] at hp'
            cases hp'
          · rw [hv] at hp'
            cases hp'
        have hbound := (h.rounds e).2
        simp only [hv] at hbound
        rw [headOf_congr (congrFun hget _) (by rw [hs.ring]), hget, hs.put]
        exact ⟨hwork, hbound.1.trans_le hbound.2.1⟩
      · rw [hp, Function.update_of_ne hrc] at hr
        exact hold hr
    · exact hold (hp ▸ hr)
  · intro seen i hi
    rw [Point.headChecked_of_not_gated _ hs.after] at hi
    cases hi
  · intro j hje hj hsleep hb hn c hc f hf hdue
    obtain hlt | hw := hdue
    · obtain hget | ⟨d, p, hp, hp', hget⟩ | ⟨i, hp, hget⟩ := hs.get
      · exact .inr (.inl (by rw [hget]; exact hlt))
      · right
        by_cases hfc : f.chan = (e, d)
        · right
          rw [State.WillWake, hfc, hp']
          trivial
        · left
          rw [hget, Function.update_of_ne hfc]
          exact hlt
      · right
        left
        rw [hget]
        by_cases hfc : f.chan = (e, (s.engine e).channel cfg i)
        · have hne : f.value ≠ s.get (e, (s.engine e).channel cfg i) + 1 := by
            intro heq
            refine (hquiet i hp).2 j hj hsleep c hc ?_
            rw [hf, ← heq, ← hfc]
          rw [hfc] at hlt ⊢
          rw [Function.update_self]
          omega
        · rw [Function.update_of_ne hfc]
          exact hlt
    · by_cases hfe : f.chan.1 = e
      · rw [hfe] at hw
        obtain hbell | hw' := hwake j hje hj hb hn hw
        · exact .inl hbell
        · exact .inr (.inr (by rw [hfe]; exact hw'))
      · right
        right
        rw [State.WillWake, hs.engine _ hfe]
        exact hw

/-! ### Steps of an engine on its idle path -/

structure IdleFrame (s s' : State Tid) (e : ℕ) : Prop where
  engine : ∀ j ≠ e, s'.engine j = s.engine j
  put : s'.put = s.put
  get : s'.get = s.get
  ring : s'.ring = s.ring
  parked : s'.parked = s.parked
  bell : s'.bell = s.bell
  blocked : ∀ j ≠ e, s'.asleepBlocked j = s.asleepBlocked j

theorem IdleFrame.of_locals {q : State Tid} (hengine : q.engine = s.engine) (hput : q.put = s.put)
    (hget : q.get = s.get) (hring : q.ring = s.ring) (hparked : q.parked = s.parked)
    (hbell : q.bell = s.bell) (hblocked : ∀ j ≠ e, q.asleepBlocked j = s.asleepBlocked j) :
    IdleFrame s (q.setEngine e g) e where
  engine := fun j hj => by rw [State.setEngine_engine_of_ne _ _ hj, hengine]
  put := hput
  get := hget
  ring := hring
  parked := hparked
  bell := hbell
  blocked := hblocked

theorem idle_frame {answer : Bool}
    (hs : idleStep cfg s e (s.engine e) answer (s.engine e).point = some s') :
    IdleFrame s s' e := by
  cases hp : (s.engine e).point with
  | idle | sample | setAsleep | count | recheckHead | enter | clearAsleep | uncount =>
    simp only [hp, idleStep] at hs
    obtain rfl := Option.some.inj hs
    exact .of_locals rfl rfl rfl rfl rfl rfl fun _ _ => rfl
  | setBlocked | clearBlocked =>
    simp only [hp, idleStep] at hs
    obtain rfl := Option.some.inj hs
    exact .of_locals rfl rfl rfl rfl rfl rfl fun j hj => Function.update_of_ne hj ..
  | recheck =>
    simp only [hp, idleStep] at hs
    split at hs
    · split at hs <;> obtain rfl := Option.some.inj hs <;>
        exact .of_locals rfl rfl rfl rfl rfl rfl fun _ _ => rfl
    · obtain rfl := Option.some.inj hs
      exact .of_locals rfl rfl rfl rfl rfl rfl fun _ _ => rfl
  | recheckPut =>
    simp only [hp, idleStep] at hs
    split at hs <;> obtain rfl := Option.some.inj hs <;>
      exact .of_locals rfl rfl rfl rfl rfl rfl fun _ _ => rfl
  | asleep =>
    simp only [hp, idleStep] at hs
    split at hs
    · obtain rfl := Option.some.inj hs
      exact .of_locals rfl rfl rfl rfl rfl rfl fun _ _ => rfl
    · cases hs
  | _ => simp [hp, idleStep] at hs

theorem IdleFrame.headOf (hf : IdleFrame s s' e) (r : Chan) : s'.headOf r = s.headOf r :=
  headOf_congr (congrFun hf.get r) (by rw [hf.ring])

theorem IdleFrame.due (hf : IdleFrame s s' e) {j : ℕ} {f : Fence} (hno : ¬s.WillWake e j)
    (h : s.Due j f) : s'.Due j f := by
  obtain hlt | hw := h
  · left
    rw [hf.get]
    exact hlt
  · right
    have hne : f.chan.1 ≠ e := by
      intro heq
      rw [heq] at hw
      exact hno hw
    rw [State.WillWake, hf.engine _ hne]
    exact hw

theorem IdleFrame.head (hf : IdleFrame s s' e) {g' : Engine} {seen c : ℕ}
    (hno : ¬s.WillWake e e) (h : HeadOk cfg s g e seen c) (hput : g'.seenPut = g.seenPut)
    (hskip : g'.skipped c = g.skipped c) : HeadOk cfg s' g' e seen c := by
  unfold HeadOk at h ⊢
  rw [hskip, hput, hf.headOf, hf.get, hf.put, hf.bell]
  split at h
  · next hs =>
    rw [if_pos hs]
    exact h
  · next hs =>
    rw [if_neg hs]
    obtain h | h := h
    · exact .inl h
    · exact .inr fun hlt f hfe hv => hf.due hno (h hlt f hfe hv)

theorem heads_idle (h : WakeOk cfg s) (he : e < cfg.engines) {answer : Bool}
    (hs : idleStep cfg s e (s.engine e) answer (s.engine e).point = some s') {seen i c : ℕ}
    (hi : (s'.engine e).point.headChecked cfg.channels = some (seen, i)) (hc : c < i) :
    HeadOk cfg s' (s'.engine e) e seen c := by
  have hframe := idle_frame hs
  have hno : ¬s.WillWake e e := not_willWake_idle hs
  have hold := h.heads e he
  have hround := (h.rounds e).2
  cases hp : (s.engine e).point with
  | idle =>
    simp only [hp, idleStep] at hs
    obtain rfl := Option.some.inj hs
    rw [State.setEngine_engine] at hi
    split at hi <;> cases hi
  | sample | setBlocked | clearBlocked =>
    simp only [hp, idleStep] at hs
    obtain rfl := Option.some.inj hs
    rw [State.setEngine_engine] at hi
    cases hi
  | uncount =>
    simp only [hp, idleStep] at hs
    obtain rfl := Option.some.inj hs
    rw [State.setEngine_engine] at hi
    cases hi
  | clearAsleep =>
    simp only [hp, idleStep] at hs
    obtain rfl := Option.some.inj hs
    rw [State.setEngine_engine] at hi
    split at hi <;> cases hi
  | setAsleep seen' =>
    simp only [hp, idleStep] at hs
    obtain rfl := Option.some.inj hs
    rw [State.setEngine_engine] at hi
    dsimp only [Engine.goto] at hi
    split at hi
    · cases hi
    · obtain ⟨-, rfl⟩ : _ = seen ∧ 0 = i := by simpa [Point.headChecked] using hi
      omega
  | count seen' =>
    simp only [hp, idleStep] at hs
    obtain rfl := Option.some.inj hs
    rw [State.setEngine_engine] at hi
    obtain ⟨-, rfl⟩ : _ = seen ∧ 0 = i := by simpa [Engine.goto, Point.headChecked] using hi
    omega
  | recheck seen' k =>
    simp only [hp, idleStep] at hs
    split at hs
    · split at hs
      · next hpark =>
        obtain rfl := Option.some.inj hs
        rw [State.setEngine_engine] at hi ⊢
        obtain ⟨rfl, rfl⟩ : seen' = seen ∧ k + 1 = i := by simpa [Point.headChecked] using hi
        obtain hlt | rfl := Nat.lt_succ_iff_lt_or_eq.mp hc
        · exact hframe.head hno (hold _ k (by rw [hp]; rfl) c hlt) rfl
            (Function.update_of_ne hlt.ne ..)
        · -- A parked channel has the faulting command at its head.
          rw [HeadOk, if_pos (Function.update_self ..)]
          exact h.faulted _ hpark
      · obtain rfl := Option.some.inj hs
        rw [State.setEngine_engine] at hi ⊢
        obtain ⟨rfl, rfl⟩ : seen' = seen ∧ k = i := by
          simpa [Engine.goto, Point.headChecked] using hi
        exact hframe.head hno (hold _ k (by rw [hp]; rfl) c hc) rfl rfl
    · next hge =>
      obtain rfl := Option.some.inj hs
      rw [State.setEngine_engine] at hi ⊢
      obtain ⟨rfl, rfl⟩ : seen' = seen ∧ cfg.channels = i := by
        simpa [Engine.goto, Point.headChecked] using hi
      exact hframe.head hno (hold _ k (by rw [hp]; rfl) c (by omega)) rfl rfl
  | recheckPut seen' k =>
    simp only [hp, idleStep] at hs
    split at hs
    · obtain rfl := Option.some.inj hs
      rw [State.setEngine_engine] at hi
      cases hi
    · next hsame =>
      obtain rfl := Option.some.inj hs
      rw [State.setEngine_engine] at hi ⊢
      dsimp only at hi
      split at hi
      · obtain ⟨rfl, rfl⟩ : seen' = seen ∧ k = i := by simpa [Point.headChecked] using hi
        exact hframe.head hno (hold _ k (by rw [hp]; rfl) c hc) rfl
          (Function.update_of_ne hc.ne ..)
      · next hempty =>
        obtain ⟨rfl, rfl⟩ : seen' = seen ∧ k + 1 = i := by simpa [Point.headChecked] using hi
        obtain hlt | rfl := Nat.lt_succ_iff_lt_or_eq.mp hc
        · exact hframe.head hno (hold _ k (by rw [hp]; rfl) c hlt) rfl
            (Function.update_of_ne hlt.ne ..)
        · -- Nothing is queued.
          rw [HeadOk, if_neg (by simp)]
          refine .inr fun hlt => ?_
          have hlt' : s.get (e, c) < (s.engine e).seenPut c := hlt
          omega
  | recheckHead seen' k =>
    simp only [hp] at hround
    simp only [hp, idleStep] at hs
    obtain rfl := Option.some.inj hs
    rw [State.setEngine_engine] at hi ⊢
    by_cases hb : s.waitBlocked cfg (e, k) = true
    · rw [if_pos hb] at hi hframe ⊢
      obtain ⟨rfl, rfl⟩ : seen' = seen ∧ k + 1 = i := by
        simpa [Engine.goto, Point.headChecked] using hi
      obtain hlt | rfl := Nat.lt_succ_iff_lt_or_eq.mp hc
      · exact hframe.head hno (hold _ k (by rw [hp]; rfl) c hlt) rfl rfl
      · -- The fence at the head had not passed.
        rw [HeadOk, if_neg (by simp [Engine.goto, hround.2.2])]
        refine .inr fun _ f hf hv => .inl ?_
        have hblocked : s.headOf (e, c) = .wait f := hf
        simp only [State.waitBlocked, hblocked, decide_eq_true_eq] at hb
        exact hb.2
    · rw [if_neg hb] at hi
      cases hi
  | enter seen' =>
    simp only [hp, idleStep] at hs
    obtain rfl := Option.some.inj hs
    rw [State.setEngine_engine] at hi ⊢
    by_cases hb : Event.word (s.bell e) = Event.word seen'
    · rw [if_pos hb] at hi hframe ⊢
      obtain ⟨rfl, rfl⟩ : seen' = seen ∧ cfg.channels = i := by
        simpa [Engine.goto, Point.headChecked] using hi
      exact hframe.head hno (hold _ _ (by rw [hp]; rfl) c hc) rfl rfl
    · rw [if_neg hb] at hi
      cases hi
  | asleep seen' =>
    simp only [hp, idleStep] at hs
    split at hs
    · obtain rfl := Option.some.inj hs
      rw [State.setEngine_engine] at hi
      cases hi
    · cases hs
  | _ => simp [hp, idleStep] at hs

theorem idle (h : WakeOk cfg s) (hd : DoorbellOk cfg s) (he : e < cfg.engines) {answer : Bool}
    (hs : idleStep cfg s e (s.engine e) answer (s.engine e).point = some s') : WakeOk cfg s' := by
  have hframe := idle_frame hs
  have hcount : (s.engine e).counted = true → 0 < s.numAsleepBlocked := by
    intro hc
    have hsum := Finset.add_sum_erase _ (fun j => (s.engine j).counted.toNat)
      (Finset.mem_range.mpr he)
    rw [h.count]
    simp only [hc, Bool.toNat_true] at hsum
    omega
  refine h.inside hd he hframe.engine hframe.put hframe.ring (fun _ _ => congrFun hframe.get _)
    (fun _ _ => congrFun hframe.parked _) hframe.blocked (fun j => by rw [hframe.bell])
    ((h.rounds e).idle hs) ((h.flags e).idle hcount hs) ?_ ?_ ?_
  · intro r _ hr
    rw [hframe.headOf, hframe.get, hframe.put]
    exact h.faulted r (by rw [← hframe.parked]; exact hr)
  · intro seen i hi c hc
    exact h.heads_idle he hs hi hc
  · intro j _ _ _ _ _ c _ f _ hdue
    exact .inr (hframe.due (not_willWake_idle hs) hdue)

/-! ### Producers and the fault service -/

theorem publish [DecidableEq Tid] (h : WakeOk cfg s) (hd : DoorbellOk cfg s) {t : Tid} {r : Chan}
    {cmd : Cmd} (hs : step cfg s (.publish t r cmd) = some s') : WakeOk cfg s' := by
  simp only [step, Option.ite_none_right_eq_some, Option.some.injEq] at hs
  obtain ⟨-, rfl⟩ := hs
  refine h.outside hd rfl rfl (fun q => ?_) (fun q n hn => ?_) (fun _ => id) rfl rfl
    fun _ => le_rfl
  · by_cases hq : q = r
    · subst hq
      simp
    · simp [hq]
  · by_cases hq : q = r
    · subst hq
      simp [hn.ne]
    · simp [hq]

theorem doorbell [DecidableEq Tid] (h : WakeOk cfg s) (hd : DoorbellOk cfg s) {t : Tid}
    (hs : doorbellStep s t = some s') : WakeOk cfg s' := by
  unfold doorbellStep at hs
  split at hs
  · cases hs
  · obtain rfl := Option.some.inj hs
    exact h.outside hd rfl rfl (fun _ => le_rfl) (fun _ _ _ => rfl) (fun _ => id) rfl rfl
      fun _ => le_rfl
  · next r _ =>
    obtain rfl := Option.some.inj hs
    exact h.outside hd rfl rfl (fun _ => le_rfl) (fun _ _ _ => rfl) (fun _ => id) rfl rfl
      (signal_le s r.1)

theorem service (h : WakeOk cfg s) (hd : DoorbellOk cfg s) {ok : Bool}
    (hs : serviceStep s ok s.service = some s') : WakeOk cfg s' := by
  have hunpark : ∀ r q, Function.update s.parked r false q = true → s.parked q = true := by
    intro r q hq
    by_cases hqr : q = r
    · subst hqr
      simp at hq
    · simpa [hqr] using hq
  cases hv : s.service with
  | idle =>
    simp only [hv, serviceStep] at hs
    split at hs
    · cases hs
    · obtain rfl := Option.some.inj hs
      exact h.outside hd rfl rfl (fun _ => le_rfl) (fun _ _ _ => rfl) (fun _ => id) rfl rfl
        fun _ => le_rfl
  | handling r =>
    simp only [hv, serviceStep] at hs
    split at hs
    · obtain rfl := Option.some.inj hs
      exact h.outside hd rfl rfl (fun _ => le_rfl) (fun _ _ _ => rfl) (hunpark r) rfl rfl
        fun _ => le_rfl
    · obtain rfl := Option.some.inj hs
      exact h.outside hd rfl rfl (fun _ => le_rfl) (fun _ _ _ => rfl) (fun _ => id) rfl rfl
        fun _ => le_rfl
  | reported r =>
    simp only [hv, serviceStep] at hs
    obtain rfl := Option.some.inj hs
    exact h.outside hd rfl rfl (fun _ => le_rfl) (fun _ _ _ => rfl) (hunpark r) rfl rfl
      fun _ => le_rfl
  | ringing r =>
    simp only [hv, serviceStep] at hs
    obtain rfl := Option.some.inj hs
    exact h.outside hd rfl rfl (fun _ => le_rfl) (fun _ _ _ => rfl) (fun _ => id) rfl rfl
      fun _ => le_rfl
  | signalling r =>
    simp only [hv, serviceStep] at hs
    obtain rfl := Option.some.inj hs
    exact h.outside hd rfl rfl (fun _ => le_rfl) (fun _ _ _ => rfl) (fun _ => id) rfl rfl
      (signal_le s r.1)

end WakeOk

variable [DecidableEq Tid]

theorem step_wakeOk {a : Action Tid} (hd : DoorbellOk cfg s) (h : WakeOk cfg s)
    (hquiet : quietFailure cfg s a) (hs : step cfg s a = some s') : WakeOk cfg s' := by
  cases a with
  | publish t r cmd => exact h.publish hd hs
  | doorbell t => exact h.doorbell hd hs
  | service ok => exact h.service hd hs
  | engine e answer =>
    obtain ⟨he, hs | hs | hs⟩ := engine_cases hs
    · exact h.awake hd he (.of_scan hs) ((h.rounds e).scan hs)
        (fun j _ _ _ _ hw => absurd hw (WakeOk.not_willWake_scan hs)) hquiet
    · exact h.awake hd he (.of_visit hs) ((h.rounds e).visit hs)
        (fun j hne hj hb hn hw => WakeOk.willWake_visit hw hj hne hb hn hs) hquiet
    · exact h.idle hd he hs

theorem reach_wakeOk (h : Reach (step cfg) (quietFailure cfg) init s) : WakeOk cfg s :=
  h.invariant_of (fun _ hr => reach_doorbellOk hr) (init_wakeOk cfg)
    fun _ _ _ hd hw hq hs => step_wakeOk hd hw hq hs

/-- Every retirement wakes fence-blocked sleepers, in runs in which no engine sleeps on
the fence of a command that a failed migration retires. An engine is asleep on the word
of its bell, which has been signalled less than `2 ^ 32` times since the sample, and the
fence at a channel's head has passed: if the engine has seen that head, the engine that
let the fence pass has yet to wake it and will find its flag and the count set; if the
head was published after the re-check, its producer has yet to finish the doorbell. -/
theorem retirement_wakes_sleepers (h : Reach (step cfg) (quietFailure cfg) init s) :
    ∀ e < cfg.engines, ∀ seen, (s.engine e).point = .asleep seen → s.bell e < seen + 2 ^ 32 →
      Event.word seen = Event.word (s.bell e) → ∀ c < cfg.channels, s.get (e, c) < s.put (e, c) →
      ∀ f, s.headOf (e, c) = .wait f →
        cfg.valid f.chan → f.value ≤ s.get f.chan →
        (s.get (e, c) < (s.engine e).seenPut c → s.WillWake f.chan.1 e ∧
          s.asleepBlocked e = true ∧ 0 < s.numAsleepBlocked) ∧
        ((s.engine e).seenPut c ≤ s.get (e, c) → s.Ringing (e, c)) := by
  intro e he seen hp hbound hword c hc hqueued f hf hv hpassed
  have hw := reach_wakeOk h
  have hcheck : (s.engine e).point.headChecked cfg.channels = some (seen, cfg.channels) := by
    rw [hp]
    rfl
  have hhead := hw.heads e he seen cfg.channels hcheck c hc
  obtain ⟨hle, hwatch⟩ := (reach_doorbellOk h).watch e seen cfg.channels (by rw [hp]; rfl)
  have hbell := (Event.word_eq_iff_of_lt hle hbound).mp hword
  have hnow := (hwatch c hc).resolve_left (by omega)
  unfold HeadOk at hhead
  split at hhead
  · rw [hf] at hhead
    cases hhead.1
  · next hskip =>
    rw [if_neg hskip] at hnow
    constructor
    · intro hlt
      have hdue := (hhead.resolve_left (by omega)) hlt f hf hv
      exact ⟨hdue.resolve_left (by omega), hw.sleeper he hcheck hc hlt⟩
    · intro hle
      exact hnow.resolve_left (by omega)

structure Sleeper where
  point : Point
  bell : ℕ
  get : ℕ
  seenPut : ℕ
  put : ℕ
  head : Cmd
  target : ℕ
  retirer : Point
  deriving DecidableEq

def State.sleeper (s : State Unit) : Sleeper :=
  ⟨(s.engine 1).point, s.bell 1, s.get (1, 0), (s.engine 1).seenPut 0, s.put (1, 0),
    s.headOf (1, 0), s.get (0, 0), (s.engine 0).point⟩

def fallAsleep : List (Action Unit) :=
  [.publish () (0, 0) .work, .doorbell (), .publish () (1, 0) (.wait ⟨(0, 0), 1⟩), .doorbell ()] ++
    List.replicate 15 (.engine 1 true)

/-- The command of engine 0 completes; its wake-up is still to come. -/
theorem retirement_wakes_sleepers_completed :
    ∃ s, exec (when (quietFailure ⟨2, 1⟩) (step ⟨2, 1⟩)) (init : State Unit)
        (fallAsleep ++ List.replicate 7 (.engine 0 true)) = some s ∧
      (s.engine 1).point = .asleep 0 ∧ s.headOf (1, 0) = .wait ⟨(0, 0), 1⟩ ∧ s.get (0, 0) = 1 ∧
      s.WillWake 0 1 := by
  have hrun : (exec (when (quietFailure ⟨2, 1⟩) (step ⟨2, 1⟩)) (init : State Unit)
      (fallAsleep ++ List.replicate 7 (.engine 0 true))).map State.sleeper =
      some ⟨.asleep 0, 0, 0, 1, 1, .wait ⟨(0, 0), 1⟩, 1, .waking 0 1⟩ := by decide +kernel
  obtain ⟨s, hs, hq⟩ := Option.map_eq_some_iff.mp hrun
  simp only [State.sleeper, Sleeper.mk.injEq] at hq
  obtain ⟨hp, hbell, hget, hseen, hput, hhead, htarget, -⟩ := hq
  have hall := retirement_wakes_sleepers (.of_exec_when .refl hs) 1 (by decide) 0 hp (by omega)
    (by rw [hbell]) 0 (by decide) (by rw [hget, hput]; decide) ⟨(0, 0), 1⟩ hhead
      (by decide) htarget.ge
  exact ⟨s, hs, hp, hhead, htarget, (hall.1 (by rw [hget, hseen]; decide)).1⟩

/-- The command of engine 0 faults and its migration fails after engine 1 has gone to
sleep: GET passes the fence and nobody wakes engine 1. -/
theorem retirement_wakes_sleepers_failed_migration :
    ¬∀ s : State Unit, Reach (step ⟨2, 1⟩) anyStep init s →
      ∀ e < 2, ∀ seen, (s.engine e).point = .asleep seen →
        Event.word seen = Event.word (s.bell e) → ∀ c < 1, s.get (e, c) < s.put (e, c) →
        ∀ f, s.headOf (e, c) = .wait f →
          Config.valid ⟨2, 1⟩ f.chan → f.value ≤ s.get f.chan →
          s.WillWake f.chan.1 e ∨ s.Ringing (e, c) := by
  intro hall
  have hrun : (exec (step ⟨2, 1⟩) (init : State Unit)
      (fallAsleep ++ List.replicate 7 (.engine 0 false) ++ List.replicate 4 (.service false) ++
        List.replicate 3 (.engine 0 false))).map
      (fun s => (s.sleeper, s.producer ())) =
      some (⟨.asleep 0, 0, 0, 1, 1, .wait ⟨(0, 0), 1⟩, 1, .scan 1⟩, none) := by decide +kernel
  obtain ⟨s, hs, hq⟩ := Option.map_eq_some_iff.mp hrun
  simp only [Prod.mk.injEq, State.sleeper, Sleeper.mk.injEq] at hq
  obtain ⟨⟨hp, hbell, hget, hseen, hput, hhead, htarget, hretirer⟩, hproducer⟩ := hq
  obtain hw | ⟨t, b, ht⟩ := hall s (.of_exec .refl hs) 1 (by decide) 0 hp (by rw [hbell]) 0
    (by decide) (by rw [hget, hput]; decide) ⟨(0, 0), 1⟩ hhead (by decide) htarget.ge
  · rw [State.WillWake, hretirer] at hw
    exact hw
  · rw [hproducer] at ht
    cases ht

end SoftGpu.Gating
