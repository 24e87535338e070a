import SoftGpu.Gating

/-!
# No lost doorbell

An engine publishes that it is asleep before it looks at its channels again, and a
producer stores PUT before it looks whether the engine is asleep; the fault service
clears `parked` before it looks. So whatever the re-check did not see is followed by
a doorbell that finds the engine asleep and signals.
-/

namespace SoftGpu.Gating

open Machine
open Staging (Chan Fence)

variable {Tid : Type*} {cfg : Config} {s s' : State Tid} {e : ℕ}

def Point.isAsleep : Point → Bool
  | .setBlocked _ | .count _ | .recheck _ _ | .recheckPut _ _ | .recheckHead _ _ | .enter _
  | .asleep _ | .clearAsleep => true
  | _ => false

def Point.rechecked (n : ℕ) : Point → Option (ℕ × ℕ)
  | .setAsleep seen | .setBlocked seen | .count seen => some (seen, 0)
  | .recheck seen i | .recheckPut seen i => some (seen, i)
  | .recheckHead seen i => some (seen, i + 1)
  | .enter seen | .asleep seen => some (seen, n)
  | _ => none

theorem Point.isAsleep_of_rechecked {p : Point} {n seen i c : ℕ}
    (h : p.rechecked n = some (seen, i)) (hc : c < i) : p.isAsleep = true := by
  cases p with
  | setAsleep _ =>
    obtain ⟨-, rfl⟩ : _ ∧ 0 = i := by simpa [rechecked] using h
    omega
  | setBlocked | count | recheck | recheckPut | recheckHead | enter | asleep => rfl
  | _ => cases h

/-- The fault service has cleared `parked` and has not finished its doorbell. -/
def State.Unparking (s : State Tid) (r : Chan) : Prop :=
  s.service = .ringing r ∨ s.service = .signalling r

def State.Ringing (s : State Tid) (r : Chan) : Prop := ∃ t b, s.producer t = some (r, b)

def Watch (s : State Tid) (g : Engine) (e seen c : ℕ) : Prop :=
  seen < s.bell e ∨
    if g.skipped c = true then s.parked (e, c) = true ∨ s.Unparking (e, c)
    else s.put (e, c) = g.seenPut c ∨ s.Ringing (e, c)

def State.Owed (s : State Tid) (r : Chan) : Prop :=
  r ∈ s.faults ∨ s.service = .handling r ∨ s.service = .reported r ∨
    (s.engine r.1).point = .faulting r.2

structure DoorbellOk (cfg : Config) (s : State Tid) : Prop where
  asleep : ∀ e, s.asleep e = (s.engine e).point.isAsleep
  watch : ∀ e seen i, (s.engine e).point.rechecked cfg.channels = some (seen, i) →
    seen ≤ s.bell e ∧ ∀ c < i, Watch s (s.engine e) e seen c
  owed : ∀ r, s.parked r = true → s.Owed r

theorem init_doorbellOk (cfg : Config) : DoorbellOk cfg (init : State Tid) where
  asleep := fun _ => rfl
  watch := by simp [init, Point.rechecked]
  owed := by simp [init]

theorem Watch.map {g : Engine} {seen c : ℕ} (h : Watch s g e seen c) (hbell : s.bell e ≤ s'.bell e)
    (hskip : s.parked (e, c) = true ∨ s.Unparking (e, c) →
      s'.parked (e, c) = true ∨ s'.Unparking (e, c))
    (hring : ∀ n, s.put (e, c) = n ∨ s.Ringing (e, c) → s'.put (e, c) = n ∨ s'.Ringing (e, c)) :
    Watch s' g e seen c := by
  obtain h | h := h
  · exact .inl (h.trans_le hbell)
  · right
    split at h
    · next hs =>
      rw [if_pos hs]
      exact hskip h
    · next hs =>
      rw [if_neg hs]
      exact hring _ h

theorem Watch.keep {g : Engine} {seen c : ℕ} (h : Watch s g e seen c)
    (hput : s'.put (e, c) = s.put (e, c)) (hparked : s'.parked (e, c) = s.parked (e, c))
    (hservice : s'.service = s.service) (hproducer : s'.producer = s.producer)
    (hbell : s.bell e ≤ s'.bell e) : Watch s' g e seen c := by
  refine h.map hbell ?_ ?_
  · simp only [State.Unparking, hparked, hservice]
    exact id
  · simp only [State.Ringing, hput, hproducer]
    exact fun _ => id

theorem signal_le (s : State Tid) (j e : ℕ) : s.bell e ≤ (s.signal j).bell e := by
  by_cases he : e = j
  · subst he
    simp [State.signal]
  · simp [State.signal, he]

theorem lt_signal (s : State Tid) (e : ℕ) : s.bell e < (s.signal e).bell e := by
  simp [State.signal]

/-! ### Steps outside the idle path -/

def Point.gated : Point → Bool
  | .setAsleep _ | .setBlocked _ | .count _ | .recheck _ _ | .recheckPut _ _ | .recheckHead _ _
  | .enter _ | .asleep _ | .clearAsleep | .clearBlocked | .uncount => true
  | _ => false

theorem Point.isAsleep_of_not_gated {p : Point} (h : p.gated = false) : p.isAsleep = false := by
  cases p <;> simp_all [gated, isAsleep]

theorem Point.rechecked_of_not_gated {p : Point} (n : ℕ) (h : p.gated = false) :
    p.rechecked n = none := by
  cases p <;> simp_all [gated, rechecked]

structure AwakeStep (cfg : Config) (s s' : State Tid) (e : ℕ) : Prop where
  before : (s.engine e).point.gated = false
  after : (s'.engine e).point.gated = false
  engine : ∀ j ≠ e, s'.engine j = s.engine j
  put : s'.put = s.put
  ring : s'.ring = s.ring
  producer : s'.producer = s.producer
  service : s'.service = s.service
  asleep : s'.asleep = s.asleep
  asleepBlocked : s'.asleepBlocked = s.asleepBlocked
  num : s'.numAsleepBlocked = s.numAsleepBlocked
  bell : ∀ j, s.bell j ≤ s'.bell j
  get : s'.get = s.get ∨
    (∃ c p, (s.engine e).point = .retiring c p ∧ (s'.engine e).point = .waking c p ∧
      s'.get = Function.update s.get (e, c) (s.get (e, c) + 1)) ∨
    ∃ i, (s.engine e).point = .failHead i ∧ s'.get = Function.update s.get
      (e, (s.engine e).channel cfg i) (s.get (e, (s.engine e).channel cfg i) + 1)
  parked : (s'.parked = s.parked ∧ ∀ c, (s.engine e).point ≠ .faulting c) ∨
    (∃ c p, (s.engine e).point = .visit c p ∧ s.headOf (e, c) = .work ∧
      (s'.engine e).point = .faulting c ∧ s'.parked = Function.update s.parked (e, c) true) ∨
    ∃ c, (s.engine e).point = .faulting c ∧ s'.parked = s.parked ∧ s'.faults = s.faults ++ [(e, c)]
  faults : s'.faults = s.faults ∨ ∃ c, (s.engine e).point = .faulting c

namespace AwakeStep

theorem plain {q : State Tid} {g : Engine} (hb : (s.engine e).point.gated = false)
    (hf : ∀ c, (s.engine e).point ≠ .faulting c) (ha : g.point.gated = false)
    (hengine : q.engine = s.engine) (hput : q.put = s.put) (hring : q.ring = s.ring)
    (hproducer : q.producer = s.producer) (hservice : q.service = s.service)
    (hasleep : q.asleep = s.asleep) (hblocked : q.asleepBlocked = s.asleepBlocked)
    (hnum : q.numAsleepBlocked = s.numAsleepBlocked) (hbell : ∀ j, s.bell j ≤ q.bell j)
    (hget : q.get = s.get) (hparked : q.parked = s.parked) (hfaults : q.faults = s.faults) :
    AwakeStep cfg s (q.setEngine e g) e where
  before := hb
  after := by rwa [State.setEngine_engine]
  engine := fun j hj => by rw [State.setEngine_engine_of_ne _ _ hj, hengine]
  put := hput
  ring := hring
  producer := hproducer
  service := hservice
  asleep := hasleep
  asleepBlocked := hblocked
  num := hnum
  bell := hbell
  get := .inl hget
  parked := .inl ⟨hparked, hf⟩
  faults := .inl hfaults

theorem of_locals {g : Engine} (hb : (s.engine e).point.gated = false)
    (hf : ∀ c, (s.engine e).point ≠ .faulting c) (ha : g.point.gated = false) :
    AwakeStep cfg s (s.setEngine e g) e :=
  .plain hb hf ha rfl rfl rfl rfl rfl rfl rfl rfl (fun _ => le_rfl) rfl rfl rfl

theorem of_scan {answer : Bool}
    (hs : scanStep cfg s e (s.engine e) answer (s.engine e).point = some s') :
    AwakeStep cfg s s' e := by
  cases hp : (s.engine e).point with
  | scan i =>
    have hb : (s.engine e).point.gated = false ∧ ∀ c, (s.engine e).point ≠ .faulting c := by
      simp [hp, Point.gated]
    simp only [hp, scanStep] at hs
    split at hs
    · obtain rfl := Option.some.inj hs
      exact .of_locals hb.1 hb.2 rfl
    · split at hs
      · obtain rfl := Option.some.inj hs
        exact .of_locals hb.1 hb.2 rfl
      · split at hs <;> obtain rfl := Option.some.inj hs <;> exact .of_locals hb.1 hb.2 rfl
  | exchange i =>
    have hb : (s.engine e).point.gated = false ∧ ∀ c, (s.engine e).point ≠ .faulting c := by
      simp [hp, Point.gated]
    simp only [hp, scanStep] at hs
    split at hs
    · obtain rfl := Option.some.inj hs
      refine .plain hb.1 hb.2 ?_ rfl rfl rfl rfl rfl rfl rfl rfl (fun _ => le_rfl) rfl rfl rfl
      simp only [Engine.goto]
      split <;> rfl
    · obtain rfl := Option.some.inj hs
      exact .of_locals hb.1 hb.2 rfl
  | failHead i =>
    have hlocals : AwakeStep cfg s (s.setEngine e
        { s.engine e with point := .scan (i + 1), progress := true }) e :=
      .of_locals (by simp [hp, Point.gated]) (by simp [hp]) rfl
    simp only [hp, scanStep] at hs
    obtain rfl := Option.some.inj hs
    exact { hlocals with get := .inr (.inr ⟨i, hp, rfl⟩) }
  | probe i =>
    have hb : (s.engine e).point.gated = false ∧ ∀ c, (s.engine e).point ≠ .faulting c := by
      simp [hp, Point.gated]
    simp only [hp, scanStep] at hs
    split at hs
    · obtain rfl := Option.some.inj hs
      exact .of_locals hb.1 hb.2 rfl
    · split at hs <;> obtain rfl := Option.some.inj hs <;> exact .of_locals hb.1 hb.2 rfl
  | head i =>
    simp only [hp, scanStep] at hs
    split at hs <;> obtain rfl := Option.some.inj hs <;>
      exact .of_locals (by simp [hp, Point.gated]) (by simp [hp]) rfl
  | _ => simp [hp, scanStep] at hs

theorem of_visit {answer : Bool}
    (hs : visitStep cfg s e (s.engine e) answer (s.engine e).point = some s') :
    AwakeStep cfg s s' e := by
  cases hp : (s.engine e).point with
  | visit c p =>
    have hb : (s.engine e).point.gated = false ∧ ∀ c, (s.engine e).point ≠ .faulting c := by
      simp [hp, Point.gated]
    simp only [hp, visitStep] at hs
    split at hs
    · split at hs <;> obtain rfl := Option.some.inj hs <;> exact .of_locals hb.1 hb.2 rfl
    · next hwork =>
      split at hs
      · obtain rfl := Option.some.inj hs
        exact .of_locals hb.1 hb.2 rfl
      · have hlocals : AwakeStep cfg s (s.setEngine e ((s.engine e).goto (.faulting c))) e :=
          .of_locals hb.1 hb.2 rfl
        obtain rfl := Option.some.inj hs
        exact { hlocals with
          parked := .inr (.inl ⟨c, p, hp, hwork, by rw [State.setEngine_engine]; rfl, rfl⟩) }
  | faulting c =>
    simp only [hp, visitStep] at hs
    obtain rfl := Option.some.inj hs
    exact ⟨by simp [hp, Point.gated], by rw [State.setEngine_engine]; rfl,
      fun j hj => State.setEngine_engine_of_ne _ _ hj, rfl, rfl, rfl, rfl, rfl, rfl, rfl,
      fun _ => le_rfl, .inl rfl, .inr (.inr ⟨c, hp, rfl, rfl⟩), .inr ⟨c, hp⟩⟩
  | retiring c p =>
    have hlocals : AwakeStep cfg s (s.setEngine e ((s.engine e).goto (.waking c p))) e :=
      .of_locals (by simp [hp, Point.gated]) (by simp [hp]) rfl
    simp only [hp, visitStep] at hs
    obtain rfl := Option.some.inj hs
    exact { hlocals with
      get := .inr (.inl ⟨c, p, hp, by rw [State.setEngine_engine]; rfl, rfl⟩) }
  | waking c p =>
    simp only [hp, visitStep] at hs
    obtain rfl := Option.some.inj hs
    refine .of_locals (by simp [hp, Point.gated]) (by simp [hp]) ?_
    simp only [Engine.goto]
    split <;> rfl
  | wakeLoop c p j =>
    have hb : (s.engine e).point.gated = false ∧ ∀ c, (s.engine e).point ≠ .faulting c := by
      simp [hp, Point.gated]
    simp only [hp, visitStep] at hs
    split at hs
    · obtain rfl := Option.some.inj hs
      refine .of_locals hb.1 hb.2 ?_
      simp only [Engine.goto]
      split <;> rfl
    · obtain rfl := Option.some.inj hs
      exact .of_locals hb.1 hb.2 rfl
  | wakeSignal c p j =>
    simp only [hp, visitStep] at hs
    obtain rfl := Option.some.inj hs
    exact .plain (by simp [hp, Point.gated]) (by simp [hp]) rfl rfl rfl rfl rfl rfl rfl rfl rfl
      (signal_le s j) rfl rfl rfl
  | boundary c p =>
    have hb : (s.engine e).point.gated = false ∧ ∀ c, (s.engine e).point ≠ .faulting c := by
      simp [hp, Point.gated]
    simp only [hp, visitStep] at hs
    split at hs <;> split at hs <;> obtain rfl := Option.some.inj hs <;>
      exact .of_locals hb.1 hb.2 rfl
  | _ => simp [hp, visitStep] at hs

end AwakeStep

namespace DoorbellOk

theorem outside (h : DoorbellOk cfg s) (hengine : s'.engine = s.engine)
    (hasleep : s'.asleep = s.asleep) (hbell : ∀ e, s.bell e ≤ s'.bell e)
    (hwatch : ∀ e g seen c, s.asleep e = true → seen ≤ s.bell e → Watch s g e seen c →
      Watch s' g e seen c)
    (howed : ∀ r, s'.parked r = true → s'.Owed r) : DoorbellOk cfg s' := by
  refine ⟨?_, fun e seen i hp => ?_, howed⟩
  · rw [hengine, hasleep]
    exact h.asleep
  · rw [hengine] at hp ⊢
    obtain ⟨hle, hold⟩ := h.watch e seen i hp
    refine ⟨hle.trans (hbell e), fun c hc => ?_⟩
    have hflag : s.asleep e = true := by
      rw [h.asleep e]
      exact Point.isAsleep_of_rechecked hp hc
    exact hwatch e _ seen c hflag hle (hold c hc)

theorem inside (h : DoorbellOk cfg s) (hother : ∀ j ≠ e, s'.engine j = s.engine j)
    (hasleep : ∀ j ≠ e, s'.asleep j = s.asleep j) (hbell : ∀ j, s.bell j ≤ s'.bell j)
    (hput : s'.put = s.put) (hservice : s'.service = s.service)
    (hproducer : s'.producer = s.producer)
    (hparked : ∀ r : Chan, r.1 ≠ e → s'.parked r = s.parked r)
    (hself : s'.asleep e = (s'.engine e).point.isAsleep)
    (hwatch : ∀ seen i, (s'.engine e).point.rechecked cfg.channels = some (seen, i) →
      seen ≤ s'.bell e ∧ ∀ c < i, Watch s' (s'.engine e) e seen c)
    (howed : ∀ r, s'.parked r = true → s'.Owed r) : DoorbellOk cfg s' := by
  refine ⟨fun j => ?_, fun j seen i hp => ?_, howed⟩
  · by_cases hj : j = e
    · subst hj
      exact hself
    · rw [hasleep j hj, hother j hj]
      exact h.asleep j
  · by_cases hj : j = e
    · subst hj
      exact hwatch seen i hp
    · rw [hother j hj] at hp ⊢
      obtain ⟨hle, hold⟩ := h.watch j seen i hp
      exact ⟨hle.trans (hbell j), fun c hc => (hold c hc).keep (by rw [hput])
        (hparked _ hj) hservice hproducer (hbell j)⟩

/-! ### Producers and the fault service -/

theorem publish [DecidableEq Tid] (h : DoorbellOk cfg s) {t : Tid} {r : Chan} {cmd : Cmd}
    (hs : step cfg s (.publish t r cmd) = some s') : DoorbellOk cfg s' := by
  simp only [step, Option.ite_none_right_eq_some, Option.some.injEq] at hs
  obtain ⟨⟨hnone, -⟩, rfl⟩ := hs
  refine h.outside rfl rfl (fun _ => le_rfl) (fun e g seen c _ _ hw => ?_) h.owed
  refine hw.map le_rfl id fun n hn => ?_
  by_cases hr : (e, c) = r
  · exact .inr ⟨t, false, by simp [hr]⟩
  · obtain hn | ⟨u, b, hu⟩ := hn
    · left
      simpa [hr] using hn
    · have hne : u ≠ t := by
        intro he
        rw [he, hnone] at hu
        cases hu
      exact .inr ⟨u, b, by simpa [hne] using hu⟩

theorem doorbell [DecidableEq Tid] (h : DoorbellOk cfg s) {t : Tid}
    (hs : doorbellStep s t = some s') : DoorbellOk cfg s' := by
  unfold doorbellStep at hs
  split at hs
  · cases hs
  · next r hr =>
    obtain rfl := Option.some.inj hs
    refine h.outside rfl rfl (fun _ => le_rfl) (fun e g seen c hflag _ hw => ?_) h.owed
    refine hw.map le_rfl id fun n hn => ?_
    obtain hn | ⟨u, b, hu⟩ := hn
    · exact .inl hn
    · by_cases hut : u = t
      · subst hut
        obtain ⟨rfl, rfl⟩ : r = (e, c) ∧ false = b := by simpa [hr] using hu
        exact .inr ⟨u, true, by simp [hflag]⟩
      · exact .inr ⟨u, b, by simpa [hut] using hu⟩
  · next r hr =>
    obtain rfl := Option.some.inj hs
    refine h.outside rfl rfl (signal_le s r.1) (fun e g seen c _ hle hw => ?_) h.owed
    by_cases he : e = r.1
    · left
      subst he
      exact hle.trans_lt (lt_signal s r.1)
    · refine hw.map (signal_le s r.1 e) id fun n hn => ?_
      obtain hn | ⟨u, b, hu⟩ := hn
      · exact .inl hn
      · have hut : u ≠ t := by
          intro hut
          rw [hut, hr] at hu
          obtain ⟨rfl, -⟩ : r = (e, c) ∧ true = b := by simpa using hu
          exact he rfl
        exact .inr ⟨u, b, by simpa [hut] using hu⟩

theorem unpark (h : DoorbellOk cfg s) {r : Chan}
    (hr : s.service = .handling r ∨ s.service = .reported r) : DoorbellOk cfg
      { s with parked := Function.update s.parked r false, service := .ringing r } := by
  refine h.outside rfl rfl (fun _ => le_rfl) (fun e g seen c _ _ hw => ?_) fun q hq => ?_
  · refine hw.map le_rfl (fun hn => ?_) fun n => id
    by_cases hec : (e, c) = r
    · exact .inr (.inl (by simp [hec]))
    · obtain hn | hn | hn := hn
      · exact .inl (by simpa [hec] using hn)
      · rw [hn] at hr
        simp at hr
      · rw [hn] at hr
        simp at hr
  · have hne : q ≠ r := by
      intro heq
      simp [heq] at hq
    have hold : s.parked q = true := by simpa [hne] using hq
    obtain ho | ho | ho | ho := h.owed q hold
    · exact .inl ho
    · rw [ho] at hr
      simp [hne] at hr
    · rw [ho] at hr
      simp [hne] at hr
    · exact .inr (.inr (.inr ho))

theorem handle (h : DoorbellOk cfg s) (hengine : s'.engine = s.engine)
    (hasleep : s'.asleep = s.asleep) (hbell : s'.bell = s.bell) (hparked : s'.parked = s.parked)
    (hput : s'.put = s.put) (hproducer : s'.producer = s.producer)
    (hno : ∀ r, ¬s.Unparking r) (howed : ∀ r, s.Owed r → s'.Owed r) : DoorbellOk cfg s' := by
  refine h.outside hengine hasleep (fun _ => hbell ▸ le_rfl) (fun e g seen c _ _ hw => ?_) ?_
  · refine hw.map (by rw [hbell]) (fun hn => ?_) fun n hn => ?_
    · obtain hn | hn := hn
      · exact .inl (hparked ▸ hn)
      · exact absurd hn (hno _)
    · simpa only [State.Ringing, hput, hproducer] using hn
  · intro r hr
    rw [hparked] at hr
    exact howed r (h.owed r hr)

theorem service (h : DoorbellOk cfg s) {ok : Bool} (hs : serviceStep s ok s.service = some s') :
    DoorbellOk cfg s' := by
  cases hv : s.service with
  | idle =>
    simp only [hv, serviceStep] at hs
    split at hs
    · cases hs
    · next r rest hr =>
      obtain rfl := Option.some.inj hs
      refine h.handle rfl rfl rfl rfl rfl rfl (by simp [State.Unparking, hv]) fun q hq => ?_
      simp only [State.Owed, hr, hv, List.mem_cons] at hq ⊢
      obtain (rfl | hq) | hq | hq | hq := hq
      · exact .inr (.inl rfl)
      · exact .inl hq
      · cases hq
      · cases hq
      · exact .inr (.inr (.inr hq))
  | handling r =>
    simp only [hv, serviceStep] at hs
    split at hs
    · obtain rfl := Option.some.inj hs
      exact h.unpark (.inl hv)
    · obtain rfl := Option.some.inj hs
      refine h.handle rfl rfl rfl rfl rfl rfl (by simp [State.Unparking, hv]) fun q hq => ?_
      simp only [State.Owed, hv] at hq ⊢
      obtain hq | hq | hq | hq := hq
      · exact .inl hq
      · obtain rfl : r = q := by simpa using hq
        exact .inr (.inr (.inl rfl))
      · cases hq
      · exact .inr (.inr (.inr hq))
  | reported r =>
    simp only [hv, serviceStep] at hs
    obtain rfl := Option.some.inj hs
    exact h.unpark (.inr hv)
  | ringing r =>
    simp only [hv, serviceStep] at hs
    obtain rfl := Option.some.inj hs
    refine h.outside rfl rfl (fun _ => le_rfl) (fun e g seen c hflag _ hw => ?_) fun q hq => ?_
    · refine hw.map le_rfl (fun hn => ?_) fun n => id
      obtain hn | hn | hn := hn
      · exact .inl hn
      · rw [hv] at hn
        obtain rfl : r = (e, c) := by simpa using hn
        exact .inr (.inr (by simp [hflag]))
      · rw [hv] at hn
        cases hn
    · have ho := h.owed q hq
      simp only [State.Owed, hv, reduceCtorEq, false_or] at ho
      obtain ho | ho := ho
      · exact .inl ho
      · exact .inr (.inr (.inr ho))
  | signalling r =>
    simp only [hv, serviceStep] at hs
    obtain rfl := Option.some.inj hs
    refine h.outside rfl rfl (signal_le s r.1) (fun e g seen c _ hle hw => ?_) fun q hq => ?_
    · by_cases he : e = r.1
      · left
        subst he
        exact hle.trans_lt (lt_signal s r.1)
      · refine hw.map (signal_le s r.1 e) (fun hn => ?_) fun n => id
        obtain hn | hn | hn := hn
        · exact .inl hn
        · rw [hv] at hn
          cases hn
        · rw [hv] at hn
          obtain rfl : r = (e, c) := by simpa using hn
          exact absurd rfl he
    · have ho := h.owed q hq
      simp only [State.Owed, hv, reduceCtorEq, false_or] at ho
      obtain ho | ho := ho
      · exact .inl ho
      · exact .inr (.inr (.inr ho))

/-! ### The engines -/

theorem moved (h : DoorbellOk cfg s) {q : State Tid} {g : Engine} (hengine : q.engine = s.engine)
    (hasleep : ∀ j ≠ e, q.asleep j = s.asleep j) (hbell : ∀ j, s.bell j ≤ q.bell j)
    (hput : q.put = s.put) (hservice : q.service = s.service) (hproducer : q.producer = s.producer)
    (hparked : q.parked = s.parked) (hfaults : q.faults = s.faults)
    (hself : q.asleep e = g.point.isAsleep) (hf : ∀ c, (s.engine e).point ≠ .faulting c)
    (hwatch : ∀ seen i, g.point.rechecked cfg.channels = some (seen, i) →
      seen ≤ s.bell e ∧ ∀ c < i, Watch s g e seen c) : DoorbellOk cfg (q.setEngine e g) := by
  have hown : (q.setEngine e g).engine e = g := Function.update_self ..
  have hother : ∀ j ≠ e, (q.setEngine e g).engine j = s.engine j := by
    intro j hj
    rw [State.setEngine]
    simp only [Function.update_of_ne hj, hengine]
  refine h.inside (e := e) hother hasleep hbell hput hservice hproducer
    (fun _ _ => congrFun hparked _) ?_ ?_ fun r hr => ?_
  · rw [hown]
    exact hself
  · rw [hown]
    intro seen i hi
    obtain ⟨hle, hold⟩ := hwatch seen i hi
    exact ⟨hle.trans (hbell e), fun c hc => (hold c hc).keep (congrFun hput _)
      (congrFun hparked _) hservice hproducer (hbell e)⟩
  · have hold : s.parked r = true := by
      rw [← hparked]
      exact hr
    obtain ho | ho | ho | ho := h.owed r hold
    · exact .inl (hfaults ▸ ho)
    · exact .inr (.inl (hservice.trans ho))
    · exact .inr (.inr (.inl (hservice.trans ho)))
    · have hne : r.1 ≠ e := by
        intro heq
        rw [heq] at ho
        exact hf _ ho
      exact .inr (.inr (.inr (by rw [hother _ hne]; exact ho)))

theorem stay (h : DoorbellOk cfg s) {g : Engine}
    (hself : g.point.isAsleep = (s.engine e).point.isAsleep)
    (hf : ∀ c, (s.engine e).point ≠ .faulting c)
    (hwatch : ∀ seen i, g.point.rechecked cfg.channels = some (seen, i) →
      seen ≤ s.bell e ∧ ∀ c < i, Watch s g e seen c) : DoorbellOk cfg (s.setEngine e g) :=
  h.moved rfl (fun _ _ => rfl) (fun _ => le_rfl) rfl rfl rfl rfl rfl ((h.asleep e).trans hself.symm)
    hf hwatch

theorem awake (h : DoorbellOk cfg s) (hs : AwakeStep cfg s s' e) : DoorbellOk cfg s' := by
  refine h.inside (e := e) hs.engine (fun _ _ => congrFun hs.asleep _) hs.bell hs.put hs.service
    hs.producer ?_ ?_ ?_ ?_
  · intro r hr
    obtain ⟨he, -⟩ | ⟨c, p, -, -, -, he⟩ | ⟨c, -, he, -⟩ := hs.parked
    · rw [he]
    · rw [he]
      exact Function.update_of_ne (fun heq => hr (by rw [heq])) ..
    · rw [he]
  · rw [hs.asleep, h.asleep e, Point.isAsleep_of_not_gated hs.before,
      Point.isAsleep_of_not_gated hs.after]
  · intro seen i hi
    rw [Point.rechecked_of_not_gated _ hs.after] at hi
    cases hi
  · intro r hr
    -- The fault of a channel that was parked before is still where it was.
    have hold : s.parked r = true → (∀ c, (s.engine e).point = .faulting c → r ≠ (e, c)) →
        s'.Owed r := by
      intro hpark hne
      obtain ho | ho | ho | ho := h.owed r hpark
      · obtain he | ⟨c, hc⟩ := hs.faults
        · exact .inl (he ▸ ho)
        · obtain ⟨-, hno⟩ | ⟨_, _, hv, -⟩ | ⟨_, -, -, he⟩ := hs.parked
          · exact absurd hc (hno c)
          · rw [hv] at hc
            cases hc
          · exact .inl (he ▸ List.mem_append_left _ ho)
      · exact .inr (.inl (hs.service.trans ho))
      · exact .inr (.inr (.inl (hs.service.trans ho)))
      · by_cases hre : r.1 = e
        · rw [hre] at ho
          exact absurd (Prod.ext hre rfl : r = (e, r.2)) (hne _ ho)
        · exact .inr (.inr (.inr (by rw [hs.engine _ hre]; exact ho)))
    obtain ⟨he, hno⟩ | ⟨c, p, hv, -, hfault, he⟩ | ⟨c, hc, he, hpush⟩ := hs.parked
    · rw [he] at hr
      exact hold hr fun c hc => absurd hc (hno c)
    · by_cases hrc : r = (e, c)
      · subst hrc
        exact .inr (.inr (.inr hfault))
      · rw [he, Function.update_of_ne hrc] at hr
        refine hold hr fun d hd => ?_
        rw [hv] at hd
        cases hd
    · rw [he] at hr
      by_cases hrc : r = (e, c)
      · exact .inl (by rw [hpush, hrc]; simp)
      · refine hold hr fun d hd => ?_
        obtain rfl : c = d := by simpa [hc] using hd
        exact hrc

theorem rechecked {g g' : Engine} {seen i : ℕ} (hold : ∀ c < i, Watch s g e seen c)
    (hput : g'.seenPut = g.seenPut) (hskip : ∀ c < i, g'.skipped c = g.skipped c)
    (hnew : Watch s g' e seen i) : ∀ c < i + 1, Watch s g' e seen c := by
  intro c hc
  obtain hlt | rfl := Nat.lt_succ_iff_lt_or_eq.mp hc
  · have h := hold c hlt
    simp only [Watch, hput, hskip c hlt]
    exact h
  · exact hnew

theorem idle (h : DoorbellOk cfg s) {answer : Bool}
    (hs : idleStep cfg s e (s.engine e) answer (s.engine e).point = some s') :
    DoorbellOk cfg s' := by
  have hw := h.watch e
  cases hp : (s.engine e).point with
  | idle =>
    simp only [hp, idleStep] at hs
    obtain rfl := Option.some.inj hs
    refine h.awake (.of_locals (by simp [hp, Point.gated]) (by simp [hp]) ?_)
    split <;> rfl
  | sample =>
    simp only [hp, idleStep] at hs
    obtain rfl := Option.some.inj hs
    refine h.stay (by simp [hp, Engine.goto, Point.isAsleep]) (by simp [hp]) fun seen i hi => ?_
    obtain ⟨rfl, rfl⟩ : s.bell e = seen ∧ 0 = i := by simpa [Engine.goto, Point.rechecked] using hi
    exact ⟨le_rfl, fun c hc => absurd hc (Nat.not_lt_zero c)⟩
  | setAsleep seen =>
    simp only [hp, idleStep] at hs
    obtain rfl := Option.some.inj hs
    obtain ⟨hle, -⟩ := hw seen 0 (by rw [hp]; rfl)
    refine h.moved rfl (fun j hj => Function.update_of_ne hj ..) (fun _ => le_rfl) rfl rfl rfl rfl
      rfl ?_ (by simp [hp]) fun n i hi => ?_
    · simp only [Engine.goto, Function.update_self]
      split <;> rfl
    · obtain ⟨rfl, rfl⟩ : seen = n ∧ 0 = i := by
        simp only [Engine.goto] at hi
        split at hi <;> simpa [Point.rechecked] using hi
      exact ⟨hle, fun c hc => absurd hc (Nat.not_lt_zero c)⟩
  | setBlocked seen =>
    simp only [hp, idleStep] at hs
    obtain rfl := Option.some.inj hs
    refine h.moved rfl (fun _ _ => rfl) (fun _ => le_rfl) rfl rfl rfl rfl rfl ?_ (by simp [hp])
      fun n i hi => ?_
    · rw [h.asleep e, hp]
      rfl
    · exact hw n i (by rw [hp]; exact hi)
  | count seen =>
    simp only [hp, idleStep] at hs
    obtain rfl := Option.some.inj hs
    refine h.moved rfl (fun _ _ => rfl) (fun _ => le_rfl) rfl rfl rfl rfl rfl ?_ (by simp [hp])
      fun n i hi => ?_
    · rw [h.asleep e, hp]
      rfl
    · exact hw n i (by rw [hp]; exact hi)
  | recheck seen i =>
    obtain ⟨hle, hold⟩ := hw seen i (by rw [hp]; rfl)
    simp only [hp, idleStep] at hs
    split at hs
    · split at hs
      · next hlt hparked =>
        obtain rfl := Option.some.inj hs
        refine h.stay (by simp [hp, Point.isAsleep]) (by simp [hp]) fun n j hj => ?_
        obtain ⟨rfl, rfl⟩ : seen = n ∧ i + 1 = j := by simpa [Point.rechecked] using hj
        refine ⟨hle, rechecked hold rfl (fun c hc => Function.update_of_ne hc.ne ..) ?_⟩
        exact .inr (by simp [hparked])
      · obtain rfl := Option.some.inj hs
        refine h.stay (by simp [hp, Engine.goto, Point.isAsleep]) (by simp [hp]) fun n j hj => ?_
        obtain ⟨rfl, rfl⟩ : seen = n ∧ i = j := by simpa [Engine.goto, Point.rechecked] using hj
        exact ⟨hle, hold⟩
    · next hge =>
      obtain rfl := Option.some.inj hs
      refine h.stay (by simp [hp, Engine.goto, Point.isAsleep]) (by simp [hp]) fun n j hj => ?_
      obtain ⟨rfl, rfl⟩ : seen = n ∧ cfg.channels = j := by
        simpa [Engine.goto, Point.rechecked] using hj
      exact ⟨hle, fun c hc => hold c (by omega)⟩
  | recheckPut seen i =>
    obtain ⟨hle, hold⟩ := hw seen i (by rw [hp]; rfl)
    simp only [hp, idleStep] at hs
    split at hs
    · obtain rfl := Option.some.inj hs
      refine h.stay (by simp [hp, Engine.goto, Point.isAsleep]) (by simp [hp]) fun n j hj => ?_
      simp [Engine.goto, Point.rechecked] at hj
    · next hsame =>
      obtain rfl := Option.some.inj hs
      refine h.stay ?_ (by simp [hp]) fun n j hj => ?_
      · rw [hp]
        dsimp only
        split <;> rfl
      · obtain ⟨rfl, rfl⟩ : seen = n ∧ i + 1 = j := by
          dsimp only at hj
          split at hj <;> simpa [Point.rechecked] using hj
        refine ⟨hle, rechecked hold rfl (fun c hc => Function.update_of_ne hc.ne ..) ?_⟩
        exact .inr (by simp [not_not.mp hsame])
  | recheckHead seen i =>
    obtain ⟨hle, hold⟩ := hw seen (i + 1) (by rw [hp]; rfl)
    simp only [hp, idleStep] at hs
    obtain rfl := Option.some.inj hs
    refine h.stay ?_ (by simp [hp]) fun n j hj => ?_
    · rw [hp]
      dsimp only [Engine.goto]
      split <;> rfl
    · dsimp only [Engine.goto] at hj
      split at hj
      · obtain ⟨rfl, rfl⟩ : seen = n ∧ i + 1 = j := by simpa [Point.rechecked] using hj
        exact ⟨hle, hold⟩
      · cases hj
  | enter seen =>
    simp only [hp, idleStep] at hs
    obtain rfl := Option.some.inj hs
    refine h.stay ?_ (by simp [hp]) fun n j hj => ?_
    · rw [hp]
      dsimp only [Engine.goto]
      split <;> rfl
    · dsimp only [Engine.goto] at hj
      split at hj
      · exact hw n j (by rw [hp]; exact hj)
      · cases hj
  | asleep seen =>
    simp only [hp, idleStep] at hs
    split at hs
    · obtain rfl := Option.some.inj hs
      refine h.stay (by simp [hp, Engine.goto, Point.isAsleep]) (by simp [hp]) fun n j hj => ?_
      cases hj
    · cases hs
  | clearAsleep =>
    simp only [hp, idleStep] at hs
    obtain rfl := Option.some.inj hs
    refine h.moved rfl (fun j hj => Function.update_of_ne hj ..) (fun _ => le_rfl) rfl rfl rfl rfl
      rfl ?_ (by simp [hp]) fun n i hi => ?_
    · dsimp only
      rw [Function.update_self]
      split <;> rfl
    · split at hi <;> cases hi
  | clearBlocked | uncount =>
    simp only [hp, idleStep] at hs
    obtain rfl := Option.some.inj hs
    refine h.moved rfl (fun _ _ => rfl) (fun _ => le_rfl) rfl rfl rfl rfl rfl ?_ (by simp [hp])
      fun n i hi => ?_
    · rw [h.asleep e, hp]
      rfl
    · cases hi
  | _ => simp [hp, idleStep] at hs

end DoorbellOk

variable [DecidableEq Tid]

theorem engine_cases {answer : Bool} (hs : step cfg s (.engine e answer) = some s') :
    e < cfg.engines ∧ (scanStep cfg s e (s.engine e) answer (s.engine e).point = some s' ∨
      visitStep cfg s e (s.engine e) answer (s.engine e).point = some s' ∨
      idleStep cfg s e (s.engine e) answer (s.engine e).point = some s') := by
  simp only [step, Option.ite_none_right_eq_some] at hs
  obtain ⟨he, hs⟩ := hs
  refine ⟨he, ?_⟩
  cases hscan : scanStep cfg s e (s.engine e) answer (s.engine e).point with
  | some q =>
    rw [hscan] at hs
    exact .inl hs
  | none =>
    rw [hscan, Option.orElse_none] at hs
    cases hvisit : visitStep cfg s e (s.engine e) answer (s.engine e).point with
    | some q =>
      rw [hvisit] at hs
      exact .inr (.inl hs)
    | none =>
      rw [hvisit, Option.orElse_none] at hs
      exact .inr (.inr hs)

theorem step_doorbellOk {a : Action Tid} (h : DoorbellOk cfg s) (hs : step cfg s a = some s') :
    DoorbellOk cfg s' := by
  cases a with
  | publish t r cmd => exact h.publish hs
  | doorbell t => exact h.doorbell hs
  | service ok => exact h.service hs
  | engine e answer =>
    obtain ⟨-, hs | hs | hs⟩ := engine_cases hs
    · exact h.awake (.of_scan hs)
    · exact h.awake (.of_visit hs)
    · exact h.idle hs

theorem reach_doorbellOk {ok : State Tid → Action Tid → Prop} (h : Reach (step cfg) ok init s) :
    DoorbellOk cfg s :=
  h.invariant (init_doorbellOk cfg) fun _ _ _ hd _ hs => step_doorbellOk hd hs

/-- The fault of a parked channel is queued or in the hands of the fault service, which
has yet to unpark the channel and to ring. -/
def State.FaultOpen (s : State Tid) (r : Chan) : Prop :=
  r ∈ s.faults ∨ s.service = .handling r ∨ s.service = .reported r

/-- No lost doorbell. An engine is asleep on the word of its bell, which has been signalled
less than `2 ^ 32` times since the sample. Then `asleep_` is set, so that every doorbell
under way signals; a channel with a command that neither the scan nor the re-check saw
has a producer that has not finished its doorbell, or is a parked channel whose fault
service has not finished its own; and a channel that was unparked since the re-check has
the fault service in its doorbell. -/
theorem no_lost_doorbell (h : Reach (step cfg) anyStep init s) :
    ∀ e seen, (s.engine e).point = .asleep seen → s.bell e < seen + 2 ^ 32 →
      Event.word seen = Event.word (s.bell e) → s.asleep e = true ∧ ∀ c < cfg.channels,
        (s.put (e, c) ≠ (s.engine e).seenPut c → s.Ringing (e, c) ∨ s.Unparking (e, c) ∨
          s.parked (e, c) = true ∧ s.FaultOpen (e, c)) ∧
        ((s.engine e).skipped c = true → s.parked (e, c) = false → s.Unparking (e, c)) := by
  intro e seen hp hbound hword
  have hok := reach_doorbellOk h
  refine ⟨by rw [hok.asleep e, hp]; rfl, fun c hc => ?_⟩
  obtain ⟨hle, hwatch⟩ := hok.watch e seen cfg.channels (by rw [hp]; rfl)
  have hbell := (Event.word_eq_iff_of_lt hle hbound).mp hword
  have hnow := (hwatch c hc).resolve_left (by omega)
  constructor
  · intro hput
    split at hnow
    · obtain hparked | hunpark := hnow
      · refine .inr (.inr ⟨hparked, ?_⟩)
        obtain ho | ho | ho | ho := hok.owed (e, c) hparked
        · exact .inl ho
        · exact .inr (.inl ho)
        · exact .inr (.inr ho)
        · rw [hp] at ho
          cases ho
      · exact .inr (.inl hunpark)
    · exact .inl (hnow.resolve_left hput)
  · intro hskip hparked
    rw [if_pos hskip, hparked] at hnow
    exact hnow.resolve_left Bool.false_ne_true

/-- An engine with one channel goes to sleep; then a command is published. -/
def publishAsleep : List (Action Unit) :=
  List.replicate 11 (.engine 0 true) ++ [.publish () (0, 0) .work]

theorem no_lost_doorbell_publish :
    ∃ s, exec (step ⟨1, 1⟩) (init : State Unit) publishAsleep = some s ∧
      (s.engine 0).point = .asleep 0 ∧ s.put (0, 0) = 1 ∧ s.asleep 0 = true ∧
      (s.Ringing (0, 0) ∨ s.Unparking (0, 0) ∨ s.parked (0, 0) = true ∧ s.FaultOpen (0, 0)) := by
  have hrun : (exec (step ⟨1, 1⟩) (init : State Unit) publishAsleep).map
      (fun s => ((s.engine 0).point, s.bell 0, s.put (0, 0), (s.engine 0).seenPut 0)) =
      some (.asleep 0, 0, 1, 0) := by decide +kernel
  obtain ⟨s, hs, hq⟩ := Option.map_eq_some_iff.mp hrun
  simp only [Prod.mk.injEq] at hq
  obtain ⟨hp, hbell, hput, hseen⟩ := hq
  obtain ⟨hasleep, hchannel⟩ := no_lost_doorbell (.of_exec .refl hs) 0 0 hp (by omega)
    (by rw [hbell])
  exact ⟨s, hs, hp, hput, hasleep, (hchannel 0 (by decide)).1 (by rw [hput, hseen]; decide)⟩

/-! ### When the word repeats -/

/-- Engine 0 sees a WAIT that blocks, flags itself and is about to sleep on its sample 0
when a command arrives on its other channel, whose producer rings the bell. -/
def aboutToSleep : List (Action Unit) :=
  [.publish () (0, 0) (.wait ⟨(1, 0), 1⟩), .doorbell ()] ++ List.replicate 19 (.engine 0 true) ++
    [.publish () (0, 1) .work, .doorbell (), .doorbell ()]

def rested (n : ℕ) : Engine :=
  ⟨.scan 0, 0, fun c => if c = 1 then n else 0, false, false, none, fun _ => false⟩

structure Flagged (s : State Unit) : Prop where
  put : s.put (1, 0) = 0
  get : s.get (1, 0) = 0
  faultFail : s.faultFail = fun _ => false
  parked : s.parked = fun _ => false
  ring : s.ring (1, 1) = fun _ => .work
  asleep : s.asleep 1 = false
  asleepBlocked : s.asleepBlocked 0 = true
  numAsleepBlocked : s.numAsleepBlocked = 1

def spun (s : State Unit) (g : Engine) (put got bell : ℕ) : State Unit :=
  { s with
    put := Function.update s.put (1, 1) put
    get := Function.update s.get (1, 1) got
    bell := Function.update s.bell 0 bell
    engine := Function.update s.engine 1 g }

section Spun
variable {s : State Unit} {g : Engine} {put got bell : ℕ}

@[simp] theorem spun_engine : (spun s g put got bell).engine 1 = g := by simp [spun]

@[simp] theorem spun_setEngine (g' : Engine) :
    (spun s g put got bell).setEngine 1 g' = spun s g' put got bell := by
  simp [spun, State.setEngine]

@[simp] theorem spun_advance :
    (spun s g put got bell).advance (1, 1) = spun s g put (got + 1) bell := by
  simp [spun, State.advance]

@[simp] theorem spun_signal :
    (spun s g put got bell).signal 0 = spun s g put got (bell + 1) := by
  simp [spun, State.signal]

@[simp] theorem spun_put : (spun s g put got bell).put (1, 1) = put := by simp [spun]

@[simp] theorem spun_get : (spun s g put got bell).get (1, 1) = got := by simp [spun]

theorem Flagged.spun (h : Flagged s) : Flagged (spun s g put got bell) where
  put := by simpa [Gating.spun] using h.put
  get := by simpa [Gating.spun] using h.get
  faultFail := h.faultFail
  parked := h.parked
  ring := h.ring
  asleep := h.asleep
  asleepBlocked := h.asleepBlocked
  numAsleepBlocked := h.numAsleepBlocked

theorem spun_publish (h : Flagged s) (hp : s.producer = fun _ => none) :
    exec (step ⟨2, 2⟩) (spun s g put got bell)
      [.publish () (1, 1) .work, .doorbell ()] = some (spun s g (put + 1) got bell) := by
  have hring : Function.update s.ring (1, 1) (fun _ => .work) = s.ring := by
    rw [← h.ring, Function.update_eq_self]
  have hslot : Function.update (s.ring (1, 1)) put .work = fun _ => .work := by
    rw [h.ring, Function.update_eq_self]
  simp [exec, step, doorbellStep, spun, hp, h.asleep, hslot, hring, Config.valid]

theorem rested_scanned (n : ℕ) :
    Function.update (Function.update (rested n).seenPut 0 0) 1
    (n + 1) = (rested (n + 1)).seenPut := by
  funext c
  by_cases h₀ : c = 0 <;> by_cases h₁ : c = 1 <;> simp_all [rested, Function.update_apply]

theorem spun_scans (h : Flagged s) (n : ℕ) :
    exec (step ⟨2, 2⟩) (spun s (rested n) (n + 1) n bell) (List.replicate 8 (.engine 1 true)) =
      some (spun s { rested (n + 1) with
        point := .visit 1 (n + 1)
        pending := true
        chosen := some 1 } (n + 1) n bell) := by
  have hs : ∀ g p q b, Flagged (spun s g p q b) := fun _ _ _ _ => h.spun
  have hput := fun g p q b => (hs g p q b).put
  have hget := fun g p q b => (hs g p q b).get
  have hfail := fun g p q b => (hs g p q b).faultFail
  have hparked := fun g p q b => (hs g p q b).parked
  have hhead : ∀ g p q b, (spun s g p q b).waitBlocked ⟨2, 2⟩ (1, 1) = false := fun g p q b => by
    simp [State.waitBlocked, State.headOf, (hs g p q b).ring]
  have hseen := rested_scanned n
  simp only [rested] at hseen ⊢
  simp [exec, step, scanStep, Engine.channel, Engine.goto, hput, hget, hfail, hparked, hhead, hseen,
    Nat.not_succ_le_self]

theorem spun_visits (h : Flagged s) (n : ℕ) :
    exec (step ⟨2, 2⟩) (spun s { rested (n + 1) with
        point := .visit 1 (n + 1)
        pending := true
        chosen := some 1 } (n + 1) n bell) (List.replicate 8 (.engine 1 true)) =
      some (spun s (rested (n + 1)) (n + 1) (n + 1) (bell + 1)) := by
  have hs : ∀ g p q b, Flagged (spun s g p q b) := fun _ _ _ _ => h.spun
  have hhead : ∀ g p q b, (spun s g p q b).headOf (1, 1) = .work := fun g p q b => by
    simp [State.headOf, (hs g p q b).ring]
  have hblocked := fun g p q b => (hs g p q b).asleepBlocked
  have hnum := fun g p q b => (hs g p q b).numAsleepBlocked
  simp [exec, step, scanStep, visitStep, Engine.goto, Engine.again, rested, hhead, hblocked, hnum]

def oneMore : List (Action Unit) :=
  [.publish () (1, 1) .work, .doorbell ()] ++ List.replicate 8 (.engine 1 true) ++
    List.replicate 8 (.engine 1 true)

theorem spun_oneMore (h : Flagged s) (hp : s.producer = fun _ => none) (n : ℕ) :
    exec (step ⟨2, 2⟩) (spun s (rested n) n n bell) oneMore =
      some (spun s (rested (n + 1)) (n + 1) (n + 1) (bell + 1)) := by
  rw [oneMore, exec_append, exec_append, spun_publish h hp, Option.bind_some, spun_scans h,
    Option.bind_some, spun_visits h]

theorem spun_reach (h : Flagged s) (hp : s.producer = fun _ => none)
    (hstart : spun s (rested 0) 0 0 1 = s) (hs : Reach (step ⟨2, 2⟩) anyStep init s) (n : ℕ) :
    Reach (step ⟨2, 2⟩) anyStep init (spun s (rested n) n n (n + 1)) := by
  induction n with
  | zero => exact hstart.symm ▸ hs
  | succ n ih => exact .of_exec ih (spun_oneMore h hp n)

end Spun

theorem aboutToSleep_run : ∃ s, exec (step ⟨2, 2⟩) (init : State Unit) aboutToSleep = some s ∧
    Flagged s ∧ (s.producer = fun _ => none) ∧ spun s (rested 0) 0 0 1 = s ∧
    (s.engine 0).point = .enter 0 ∧ (s.engine 0).seenPut 1 = 0 ∧ s.put (0, 1) = 1 ∧
    s.service = .idle := by
  obtain ⟨s, hs, hflagged, hproducer, hput, hget, hbell, hengine, hsleeper⟩ : ∃ s,
      exec (step ⟨2, 2⟩) (init : State Unit) aboutToSleep = some s ∧ Flagged s ∧
        (s.producer = fun _ => none) ∧ s.put (1, 1) = 0 ∧ s.get (1, 1) = 0 ∧ s.bell 0 = 1 ∧
        s.engine 1 = (init : State Unit).engine 1 ∧ (s.engine 0).point = .enter 0 ∧
        (s.engine 0).seenPut 1 = 0 ∧ s.put (0, 1) = 1 ∧ s.service = .idle :=
    ⟨_, rfl, ⟨rfl, rfl, rfl, rfl, rfl, rfl, rfl, rfl⟩, rfl, rfl, rfl, rfl, rfl, rfl, rfl, rfl, rfl⟩
  refine ⟨s, hs, hflagged, hproducer, ?_, hsleeper⟩
  have hrested : rested 0 = s.engine 1 := by
    rw [hengine]
    simp only [rested, ite_self]
    rfl
  have hput' := Function.update_eq_self (1, 1) s.put
  have hget' := Function.update_eq_self (1, 1) s.get
  have hbell' := Function.update_eq_self 0 s.bell
  rw [hput] at hput'
  rw [hget] at hget'
  rw [hbell] at hbell'
  rw [spun, hrested, hput', hget', hbell', Function.update_eq_self]

/-- Without a bound on the signals the engine sleeps on, and no doorbell is under way. -/
theorem repeated_word_loses_doorbell :
    ¬∀ (s : State Unit) (e seen c : ℕ), Reach (step ⟨2, 2⟩) anyStep init s →
      (s.engine e).point = .asleep seen → Event.word seen = Event.word (s.bell e) → c < 2 →
      s.put (e, c) ≠ (s.engine e).seenPut c → s.Ringing (e, c) ∨ s.Unparking (e, c) ∨
        s.parked (e, c) = true ∧ s.FaultOpen (e, c) := by
  intro hall
  obtain ⟨s, hs, hf, hp, hstart, hpoint, hseen, hput, hservice⟩ := aboutToSleep_run
  obtain ⟨g, n, hreach⟩ : ∃ g n, Reach (step ⟨2, 2⟩) anyStep init (spun s g n n (2 ^ 32)) :=
    ⟨_, 2 ^ 32 - 1, spun_reach hf hp hstart (.of_exec .refl hs) (2 ^ 32 - 1)⟩
  have hsleep : step ⟨2, 2⟩ (spun s g n n (2 ^ 32)) (.engine 0 true) =
      some ((spun s g n n (2 ^ 32)).setEngine 0 ((s.engine 0).goto (.asleep 0))) := by
    simp only [step, spun, scanStep, visitStep, idleStep, hpoint, Function.update_self,
      Function.update_of_ne (zero_ne_one' ℕ), Event.word_wrap, if_true, Option.orElse_none,
      Nat.zero_lt_two]
  have hlost := hall _ 0 0 1 (hreach.tail trivial hsleep) (by simp [Engine.goto])
    (by simp only [spun, State.setEngine, Function.update_self, Event.word_wrap]) (by omega)
    (by simp [spun, State.setEngine, hput, hseen, Engine.goto])
  simp [State.Ringing, State.Unparking, spun, State.setEngine, hp, hservice, hf.parked] at hlost

end SoftGpu.Gating
