import SoftGpu.SubmitRuns

/-!
# Retired waits

A `WAIT_FENCE` that has retired was due: the fence it names has retired too. The
engine checks this before it passes a wait, so the one way around it is the error
path of the run loop, which retires the head of a channel without executing it.
That path is meant for the command whose page could not be migrated, and
`FaultOk` says that this is what it finds at the head. It does unless both stores
of the fault service, the error and the unpark, fall between the engine's look at
`fault_fail` and its look at `parked` in one scan: then the engine runs the
command again, and the error, found later, retires the next one.
-/

namespace SoftGpu.Submit

open Machine
open Staging (Chan Fence)

variable {Tid Sid Ev : Type*} [DecidableEq Tid] [DecidableEq Sid] [DecidableEq Ev]
  {cfg : Config Sid} {s s' : State Tid Sid Ev} {y y' : Ring.State Tid Cmd}

def isProbed : Ring.EnginePoint Cmd → Bool
  | .probed _ => true
  | _ => false

def noLateError (s : State Tid Sid Ev) : Action Tid Sid Ev → Prop
  | .device r .unpark => (s.ring r).faultFail = true → isProbed (s.ring r).engine = false
  | _ => True

instance (s : State Tid Sid Ev) (a : Action Tid Sid Ev) : Decidable (noLateError s a) := by
  unfold noLateError
  split <;> infer_instance

def HeadWork (y : Ring.State Tid Cmd) : Prop :=
  ∃ c, y.issued[y.get]? = some c ∧ c.semaphore = false

def atScan : Ring.EnginePoint Cmd → Bool
  | .scan | .loaded _ | .probed _ | .failing _ => true
  | .visit _ | .executing _ _ => false

structure FaultOk (y : Ring.State Tid Cmd) : Prop where
  away : y.fault ≠ .none ∨ y.faultFail = true → atScan y.engine = true
  parked : y.fault ≠ .none → y.parked = true
  pending : y.fault = .pending → HeadWork y ∧ y.faultFail = false ∧ ∀ p, y.engine ≠ .failing p
  error : y.faultFail = true → HeadWork y ∧ (∀ p, y.engine ≠ .failing p) ∧
    ∀ p, y.engine = .probed p → y.fault = .reported
  failing : ∀ p, y.engine = .failing p → HeadWork y

omit [DecidableEq Tid] in
theorem FaultOk.producer {t : Tid} (h : FaultOk y) (he : Ring.ProducerEffect t y y')
    (hi : ∀ (q : ℕ) (c : Cmd), y.issued[q]? = some c → y'.issued[q]? = some c) : FaultOk y' := by
  have hhead : HeadWork y → HeadWork y' := by
    intro ⟨c, hc, hw⟩
    refine ⟨c, ?_, hw⟩
    rw [he.get]
    exact hi _ _ hc
  constructor
  · rw [he.fault, he.faultFail, he.engine]
    exact h.away
  · rw [he.fault, he.parked]
    exact h.parked
  · rw [he.fault, he.faultFail, he.engine]
    exact fun hp => ⟨hhead (h.pending hp).1, (h.pending hp).2⟩
  · rw [he.fault, he.faultFail, he.engine]
    exact fun hf => ⟨hhead (h.error hf).1, (h.error hf).2⟩
  · rw [he.engine]
    exact fun p hp => hhead (h.failing p hp)

omit [DecidableEq Tid] [DecidableEq Sid] in
theorem FaultOk.engineStep {a : Ring.Action Tid Cmd} (h : FaultOk y) (hi : Ring.Inv cfg.ring y)
    (hs : Ring.engineStep cfg.ring y a = some y') : FaultOk y' := by
  have hcalm : atScan y.engine = false → y.fault = .none ∧ y.faultFail = false := by
    intro hv
    constructor
    · by_contra hf
      have := h.away (.inl hf)
      simp [hv] at this
    · by_contra hf
      have := h.away (.inr (by simpa using hf))
      simp [hv] at this
  cases a with
  | load =>
    simp only [Ring.engineStep] at hs
    split at hs <;> simp only [Option.some.injEq, reduceCtorEq] at hs
    next he =>
    subst hs
    exact ⟨fun _ => rfl, h.parked, fun hp => ⟨(h.pending hp).1, (h.pending hp).2.1, by simp⟩,
      fun hf => ⟨(h.error hf).1, by simp, by simp⟩, by simp⟩
  | exchange =>
    simp only [Ring.engineStep] at hs
    split at hs <;> try simp only [reduceCtorEq] at hs
    next p he =>
    split_ifs at hs with hf
    · obtain rfl := Option.some.inj hs
      refine ⟨fun _ => rfl, h.parked, fun hp => ?_, by simp, fun _ _ => (h.error hf).1⟩
      have := (h.pending hp).2.1
      simp [hf] at this
    · obtain rfl := Option.some.inj hs
      exact ⟨fun _ => rfl, h.parked, fun hp => ⟨(h.pending hp).1, (h.pending hp).2.1, by simp⟩,
        fun hf' => absurd hf' hf, by simp⟩
  | probe =>
    simp only [Ring.engineStep] at hs
    split at hs <;> try simp only [reduceCtorEq] at hs
    next p he =>
    have hscan : ∀ st bw, FaultOk { y with engine := .scan, sticky := st, backwards := bw } :=
      fun _ _ => ⟨fun _ => rfl, h.parked,
        fun hp => ⟨(h.pending hp).1, (h.pending hp).2.1, by simp⟩,
        fun hf => ⟨(h.error hf).1, by simp, by simp⟩, by simp⟩
    split_ifs at hs with hpk hlt
    · exact Option.some.inj hs ▸ hscan _ _
    · exact Option.some.inj hs ▸ hscan _ _
    · obtain rfl := Option.some.inj hs
      have hpark : y.parked = false := by simpa using fun hp => hpk (.inl hp)
      have hnone : y.fault = .none := by
        by_contra hf
        have := h.parked hf
        simp [hpark] at this
      have hclean : y.faultFail = false := by
        by_contra hf
        have := (h.error (by simpa using hf)).2.2 p he
        simp [hnone] at this
      exact ⟨by simp [hnone, hclean], by simp [hnone], by simp [hnone], by simp [hclean], by simp⟩
  | start =>
    simp only [Ring.engineStep] at hs
    split at hs <;> try simp only [reduceCtorEq] at hs
    next p he =>
    split_ifs at hs
    obtain rfl := Option.some.inj hs
    obtain ⟨hnone, hclean⟩ := hcalm (by simp [he, atScan])
    exact ⟨by simp [hnone, hclean], by simp [hnone], by simp [hnone], by simp [hclean], by simp⟩
  | retire err =>
    simp only [Ring.engineStep] at hs
    split at hs <;> try simp only [reduceCtorEq] at hs
    next p c he =>
    obtain rfl := Option.some.inj hs
    obtain ⟨hnone, hclean⟩ := hcalm (by simp [he, atScan])
    exact ⟨by simp [Ring.State.advance, hnone, hclean], by simp [Ring.State.advance, hnone],
      by simp [Ring.State.advance, hnone], by simp [Ring.State.advance, hclean], by simp⟩
  | reload =>
    simp only [Ring.engineStep] at hs
    split at hs <;> try simp only [reduceCtorEq] at hs
    next p he =>
    split_ifs at hs
    obtain rfl := Option.some.inj hs
    obtain ⟨hnone, hclean⟩ := hcalm (by simp [he, atScan])
    exact ⟨by simp [hnone, hclean], by simp [hnone], by simp [hnone], by simp [hclean], by simp⟩
  | leave =>
    simp only [Ring.engineStep] at hs
    split at hs <;> try simp only [reduceCtorEq] at hs
    next p he =>
    obtain rfl := Option.some.inj hs
    obtain ⟨hnone, hclean⟩ := hcalm (by simp [he, atScan])
    exact ⟨fun _ => rfl, by simp [hnone], by simp [hnone], by simp [hclean], by simp⟩
  | park =>
    simp only [Ring.engineStep] at hs
    split at hs <;> try simp only [reduceCtorEq] at hs
    next p c he =>
    split_ifs at hs with hsem
    obtain rfl := Option.some.inj hs
    obtain ⟨-, hclean⟩ := hcalm (by simp [he, atScan])
    have hhead : y.issued[y.get]? = some c := (hi.engine.running p c he).2.2
    exact ⟨fun _ => rfl, fun _ => rfl,
      fun _ => ⟨⟨c, hhead, by simpa [Config.ring] using hsem⟩, hclean, by simp⟩, by
        simp [hclean], by simp⟩
  | failHead =>
    simp only [Ring.engineStep] at hs
    split at hs <;> try simp only [reduceCtorEq] at hs
    next p he =>
    have hnp : y.fault ≠ .pending := fun hf => (h.pending hf).2.2 p he
    have hclean : y.faultFail = false := by
      by_contra hf
      exact (h.error (by simpa using hf)).2.1 p he
    split_ifs at hs
    · obtain rfl := Option.some.inj hs
      exact ⟨fun _ => rfl, h.parked, fun hf => absurd hf hnp, by simp [hclean], by simp⟩
    · obtain rfl := Option.some.inj hs
      exact ⟨fun _ => rfl, h.parked, fun hf => absurd hf hnp, by simp [Ring.State.advance, hclean],
        by simp⟩
  | _ => simp [Ring.engineStep] at hs

omit [DecidableEq Tid] in
theorem FaultOk.faultStep {a : Ring.Action Tid Cmd} (h : FaultOk y)
    (hok : a = .unpark → y.faultFail = true → isProbed y.engine = false)
    (hs : Ring.faultStep y a = some y') : FaultOk y' := by
  cases a with
  | migrated =>
    simp only [Ring.faultStep, Option.ite_none_right_eq_some, Option.some.injEq] at hs
    obtain ⟨hp, rfl⟩ := hs
    obtain ⟨-, hclean, hnf⟩ := h.pending hp
    exact ⟨by simp [hclean], by simp, by simp, by simp [hclean], fun p he => absurd he (hnf p)⟩
  | migrationFailed =>
    simp only [Ring.faultStep, Option.ite_none_right_eq_some, Option.some.injEq] at hs
    obtain ⟨hp, rfl⟩ := hs
    obtain ⟨hhead, -, hnf⟩ := h.pending hp
    have hne : y.fault ≠ .none := by simp [hp]
    exact ⟨fun _ => h.away (.inl hne), fun _ => h.parked hne, by simp,
      fun _ => ⟨hhead, hnf, fun _ _ => rfl⟩, fun p he => absurd he (hnf p)⟩
  | unpark =>
    simp only [Ring.faultStep, Option.ite_none_right_eq_some, Option.some.injEq] at hs
    obtain ⟨hp, rfl⟩ := hs
    have hne : y.fault ≠ .none := by simp [hp]
    refine ⟨fun _ => h.away (.inl hne), by simp, by simp,
      fun hf => ⟨(h.error hf).1, (h.error hf).2.1, fun p he => ?_⟩, h.failing⟩
    have hprobed : y.engine = .probed p := he
    have hnot := hok rfl hf
    rw [hprobed] at hnot
    cases hnot
  | _ => simp [Ring.faultStep] at hs

/-! ### The device's steps -/

omit [DecidableEq Sid] in
theorem device_get {a : Ring.Action Tid Cmd} (ha : a.producer = none)
    (hs : Ring.step cfg.ring y a = some y') : y'.get = y.get ∨ y'.get = y.get + 1 ∧
      ((∃ p c, y.engine = .executing p c) ∨ ∃ p, y.engine = .failing p) := by
  obtain ⟨t, ht, -⟩ | he | hf := Ring.step_cases hs
  · rw [ha] at ht
    cases ht
  · cases a with
    | retire err =>
      simp only [Ring.engineStep] at he
      split at he <;> try simp only [reduceCtorEq] at he
      next p c hp =>
      obtain rfl := Option.some.inj he
      exact .inr ⟨rfl, .inl ⟨p, c, hp⟩⟩
    | failHead =>
      simp only [Ring.engineStep] at he
      split at he <;> try simp only [reduceCtorEq] at he
      next p hp =>
      split_ifs at he
      · obtain rfl := Option.some.inj he
        exact .inl rfl
      · obtain rfl := Option.some.inj he
        exact .inr ⟨rfl, .inr ⟨p, hp⟩⟩
    | exchange | probe =>
      simp only [Ring.engineStep] at he
      split at he <;> try simp only [reduceCtorEq] at he
      split_ifs at he <;> obtain rfl := Option.some.inj he <;> exact .inl rfl
    | load | leave =>
      simp only [Ring.engineStep] at he
      split at he <;> simp only [Option.some.injEq, reduceCtorEq] at he
      exact .inl (he ▸ rfl)
    | start | reload | park =>
      simp only [Ring.engineStep] at he
      split at he <;> try simp only [reduceCtorEq] at he
      split_ifs at he
      obtain rfl := Option.some.inj he
      exact .inl rfl
    | _ => simp [Ring.engineStep] at he
  · cases a with
    | migrated | migrationFailed | unpark =>
      simp only [Ring.faultStep, Option.ite_none_right_eq_some, Option.some.injEq] at hf
      obtain ⟨-, rfl⟩ := hf
      exact .inl rfl
    | _ => simp [Ring.faultStep] at hf

omit [DecidableEq Sid] in
theorem device_executing {a : Ring.Action Tid Cmd} {p : ℕ} {c : Cmd} (ha : a.producer = none)
    (hs : Ring.step cfg.ring y a = some y') (he' : y'.engine = .executing p c) :
    y.engine = .executing p c ∧ y'.get = y.get ∨
      a = .start ∧ y.engine = .visit p ∧ p ≠ y.get ∧ c = head cfg y := by
  obtain ⟨t, ht, -⟩ | he | hf := Ring.step_cases hs
  · rw [ha] at ht
    cases ht
  · cases a with
    | start =>
      simp only [Ring.engineStep] at he
      split at he <;> try simp only [reduceCtorEq] at he
      next p' hp =>
      split_ifs at he with hne
      obtain rfl := Option.some.inj he
      obtain ⟨rfl, rfl⟩ : p' = p ∧ head cfg y = c := by simpa [head] using he'
      exact .inr ⟨rfl, hp, hne, rfl⟩
    | exchange | probe | failHead =>
      simp only [Ring.engineStep] at he
      split at he <;> try simp only [reduceCtorEq] at he
      split_ifs at he <;> obtain rfl := Option.some.inj he <;> simp at he'
    | load | leave | retire =>
      simp only [Ring.engineStep] at he
      split at he <;> simp only [Option.some.injEq, reduceCtorEq] at he
      subst he
      simp at he'
    | reload | park =>
      simp only [Ring.engineStep] at he
      split at he <;> try simp only [reduceCtorEq] at he
      split_ifs at he
      obtain rfl := Option.some.inj he
      simp at he'
    | _ => simp [Ring.engineStep] at he
  · cases a with
    | migrated | migrationFailed | unpark =>
      simp only [Ring.faultStep, Option.ite_none_right_eq_some, Option.some.injEq] at hf
      obtain ⟨-, rfl⟩ := hf
      exact .inl ⟨he', rfl⟩
    | _ => simp [Ring.faultStep] at hf

/-! ### The invariant -/

structure WaitsDue (s : State Tid Sid Ev) : Prop where
  faults : ∀ r, FaultOk (s.ring r)
  retired : ∀ (r : Chan) (q : ℕ) (f : Fence), q < (s.ring r).get →
    (s.ring r).issued[q]? = some (.wait f) → f.value ≤ (s.ring f.chan).get
  executing : ∀ (r : Chan) (p : ℕ) (f : Fence), (s.ring r).engine = .executing p (.wait f) →
    f.value ≤ (s.ring f.chan).get

omit [DecidableEq Tid] [DecidableEq Sid] [DecidableEq Ev] in
theorem init_waitsDue : WaitsDue (init : State Tid Sid Ev) where
  faults := fun r => ⟨by simp [init, Ring.init], by simp [init, Ring.init],
    by simp [init, Ring.init], by simp [init, Ring.init], by simp [init, Ring.init]⟩
  retired := by simp [init, Ring.init]
  executing := by simp [init, Ring.init]

namespace WaitsDue

omit [DecidableEq Sid] [DecidableEq Ev] in
theorem produced (h : WaitsDue s) {t : Tid} {r : Chan} (hi : Ring.Inv cfg.ring (s.ring r))
    (hm : RingMove cfg t (s.ring r) y) (hring : s'.ring = Function.update s.ring r y) :
    WaitsDue s' := by
  have hg := hm.grow hi
  rw [← hring] at hg
  have heff := hm.effect
  have hget : ∀ p, (s'.ring p).get = (s.ring p).get := by
    intro p
    rw [hring]
    by_cases hp : p = r
    · subst hp
      simp [heff.get]
    · simp [hp]
  have heng : ∀ p, (s'.ring p).engine = (s.ring p).engine := by
    intro p
    rw [hring]
    by_cases hp : p = r
    · subst hp
      simp [heff.engine]
    · simp [hp]
  constructor
  · intro p
    by_cases hp : p = r
    · subst hp
      refine (h.faults p).producer (t := t) ?_ (hg.issued p)
      rw [hring, Function.update_self]
      exact heff
    · rw [hring, Function.update_of_ne hp]
      exact h.faults p
  · intro p q f hq hf
    rw [hget] at hq ⊢
    -- A slot below GET was issued before this step.
    refine h.retired p q f hq ?_
    by_cases hp : p = r
    · subst hp
      obtain ⟨c, hc⟩ : ∃ c, (s.ring p).issued[q]? = some c := by
        have hlen := hi.get_le.trans hi.put_le
        exact ⟨_, List.getElem?_eq_getElem (by omega)⟩
      have hsame := hg.issued p q c hc
      rw [hf] at hsame
      rw [hc, ← hsame]
    · rw [hring, Function.update_of_ne hp] at hf
      exact hf
  · intro p k f hf
    rw [heng] at hf
    rw [hget]
    exact h.executing p k f hf

omit [DecidableEq Sid] [DecidableEq Ev] in
theorem device (h : WaitsDue s) (hi : Inv cfg s) {r : Chan} {a : Ring.Action Tid Cmd}
    (ha : a.producer = none)
    (hblocked : a = .start → ¬waitBlocked cfg s.ring (head cfg (s.ring r)))
    (hok : noLateError s (.device r a)) (hs : Ring.step cfg.ring (s.ring r) a = some y) :
    WaitsDue (s.setRing r y) := by
  have hd := Ring.device_effect ha hs
  have hir := hi.rings r
  have hg : Grow s.ring (s.setRing r y).ring := .update (Ring.step_effect hir hs)
  constructor
  · intro p
    by_cases hp : p = r
    · subst hp
      rw [State.setRing_ring]
      obtain ⟨t, ht, -⟩ | he | hf := Ring.step_cases hs
      · rw [ha] at ht
        cases ht
      · exact (h.faults p).engineStep hir he
      · refine (h.faults p).faultStep ?_ hf
        intro hu
        subst hu
        exact hok
    · rw [State.setRing_ring_of_ne _ _ hp]
      exact h.faults p
  · intro p q f hq hf
    refine le_trans ?_ (hg.get f.chan)
    by_cases hp : p = r
    · subst hp
      rw [State.setRing_ring] at hq hf
      rw [hd.issued] at hf
      by_cases hlt : q < (s.ring p).get
      · exact h.retired p q f hlt hf
      · -- The slot at GET retires in this step.
        obtain hsame | ⟨hnext, ⟨k, c, he⟩ | ⟨k, he⟩⟩ := device_get ha hs
        · omega
        · obtain rfl : q = (s.ring p).get := by omega
          have hc := (hir.engine.running k c he).2.2
          rw [hf] at hc
          obtain rfl := Option.some.inj hc
          exact h.executing p k f he
        · obtain rfl : q = (s.ring p).get := by omega
          obtain ⟨c, hc, hw⟩ := (h.faults p).failing k he
          rw [hf] at hc
          obtain rfl := Option.some.inj hc
          simp [Cmd.semaphore] at hw
    · rw [State.setRing_ring_of_ne _ _ hp] at hq hf
      exact h.retired p q f hq hf
  · intro p k f hf
    refine le_trans ?_ (hg.get f.chan)
    by_cases hp : p = r
    · subst hp
      rw [State.setRing_ring] at hf
      obtain ⟨he, -⟩ | ⟨rfl, hv, hne, hhead⟩ := device_executing ha hs hf
      · exact h.executing p k f he
      · -- The engine passed `wait_blocked`, and the driver accepts valid targets only.
        have hseen := hir.engine.seen k (.inr (.inr (.inr hv)))
        have hput := hir.put_le
        have hissued : (s.ring p).issued[(s.ring p).get]? = some (head cfg (s.ring p)) := by
          obtain ⟨c, hc⟩ : ∃ c, (s.ring p).issued[(s.ring p).get]? = some c :=
            ⟨_, List.getElem?_eq_getElem (by omega)⟩
          rw [hc, head, hir.content _ c le_rfl (by omega) hc]
        have hnot := hblocked rfl
        rw [← hhead] at hissued hnot
        have hvalid := hi.targets p _ f hissued
        simp only [waitBlocked, hvalid, true_and, not_lt] at hnot
        exact hnot
    · rw [State.setRing_ring_of_ne _ _ hp] at hf
      exact h.executing p k f hf

end WaitsDue

theorem step_waitsDue {a : Action Tid Sid Ev} (hi : Inv cfg s) (h : WaitsDue s)
    (hok : noLateError s a) (hs : step cfg s a = some s') : WaitsDue s' := by
  have hquiet : ∀ {q : State Tid Sid Ev}, q.ring = s.ring → WaitsDue q := by
    intro q hq
    have ⟨h₁, h₂, h₃⟩ := h
    rw [← hq] at h₁ h₂ h₃
    exact ⟨h₁, h₂, h₃⟩
  cases step_cases hs with
  | device r a y ha hb hy => exact h.device hi ha hb hok hy
  | submit t u u' y hu hd =>
    obtain ⟨hm, -⟩ := doSubmit_ok (hi.rings _) (hi.subs t u hu) hd
    exact h.produced (hi.rings _) hm rfl
  | leave t u rc hu hp => exact hquiet (resume_frame ..).1
  | _ => exact hquiet rfl

theorem reach_waitsDue {ok : State Tid Sid Ev → Action Tid Sid Ev → Prop}
    (hok : ∀ s a, ok s a → noLateError s a) (h : Reach (step cfg) ok init s) : WaitsDue s :=
  h.invariant_of (fun _ => reach_inv) init_waitsDue fun _ _ _ hi hw ha hs =>
    step_waitsDue hi hw (hok _ _ ha) hs

end SoftGpu.Submit
