import SoftGpu.Wakeup

/-!
# Counting lost wake-ups

An engine whose wait for its bell has timed out looks whether a doorbell was
lost: it loads the sequence number of the bell, then the PUT registers, then the
number of producers that are between `begin_doorbell` and `end_doorbell`. A PUT
that it did not know of, with no producer under way and the bell where it was,
counts in `missed_doorbells`.

The three loads are at three moments. A producer whose store of PUT, doorbell and
`end_doorbell` all fall between the first and the last of them has rung the bell,
and its PUT is counted nevertheless. The re-check before the sleep passes over
parked channels, so that a PUT of such a channel can be new to the engine although
its doorbell came before the engine was asleep.
-/

namespace SoftGpu.Missed

open Machine
open Staging (Chan)
open Gating (Config Cmd Point DoorbellOk)

variable {Tid : Type*}

/-- Where an engine is between the end of its wait for the bell and the store that clears
`asleep_`. `inflight c` has found a new PUT on channel `c`. -/
inductive Account
  | none
  | seq
  | puts (i : ℕ)
  | inflight (c : ℕ)
  deriving DecidableEq, Repr

def Account.window : Account → Bool
  | .puts _ | .inflight _ => true
  | .none | .seq => false

/-- `bracket t` is the channel of the producer `t` between `begin_doorbell` and `end_doorbell`,
and whether it has stored PUT. -/
structure State (Tid : Type*) where
  gate : Gating.State Tid
  inflight : ℕ → ℕ
  bracket : Tid → Option (Chan × Bool)
  account : ℕ → Account
  missed : ℕ → ℕ

def init : State Tid where
  gate := Gating.init
  inflight := fun _ => 0
  bracket := fun _ => none
  account := fun _ => .none
  missed := fun _ => 0

inductive Action (Tid : Type*)
  | begin (t : Tid) (r : Chan)
  | publish (t : Tid) (cmd : Cmd)
  | doorbell (t : Tid)
  | finish (t : Tid)
  | service (ok : Bool)
  | engine (e : ℕ) (answer : Bool)
  deriving DecidableEq, Repr

def sampled : Point → Option ℕ
  | .asleep seen => some seen
  | _ => none

variable [DecidableEq Tid]

def setAccount (x : State Tid) (e : ℕ) (a : Account) : State Tid :=
  { x with account := Function.update x.account e a }

def leave (cfg : Config) (x : State Tid) (e : ℕ) : Option (State Tid) :=
  (Gating.step cfg x.gate (.engine e true)).map fun g => { setAccount x e .none with gate := g }

def accountStep (cfg : Config) (x : State Tid) (e seen : ℕ) (answer : Bool) :
    Account → Option (State Tid)
  | .none =>
    if Event.word (x.gate.bell e) ≠ Event.word seen ∨ answer then some (setAccount x e .seq)
    else none
  | .seq =>
    if Event.word (x.gate.bell e) ≠ Event.word seen then leave cfg x e
    else some (setAccount x e (.puts 0))
  | .puts i =>
    if i < cfg.channels then
      if x.gate.put (e, i) ≠ (x.gate.engine e).seenPut i then some (setAccount x e (.inflight i))
      else some (setAccount x e (.puts (i + 1)))
    else leave cfg x e
  | .inflight _ =>
    if x.inflight e = 0 then
      leave cfg { x with missed := Function.update x.missed e (x.missed e + 1) } e
    else leave cfg x e

def step (cfg : Config) (x : State Tid) : Action Tid → Option (State Tid)
  | .begin t r =>
    if x.bracket t = none ∧ cfg.valid r then
      some { x with
        inflight := Function.update x.inflight r.1 (x.inflight r.1 + 1)
        bracket := Function.update x.bracket t (some (r, false)) }
    else none
  | .publish t cmd =>
    match x.bracket t with
    | some (r, false) => (Gating.step cfg x.gate (.publish t r cmd)).map fun g =>
      { x with gate := g, bracket := Function.update x.bracket t (some (r, true)) }
    | _ => none
  | .doorbell t => (Gating.step cfg x.gate (.doorbell t)).map fun g => { x with gate := g }
  | .finish t =>
    match x.bracket t with
    | some (r, true) =>
      if x.gate.producer t = none then
        some { x with
          inflight := Function.update x.inflight r.1 (x.inflight r.1 - 1)
          bracket := Function.update x.bracket t none }
      else none
    | _ => none
  | .service ok => (Gating.step cfg x.gate (.service ok)).map fun g => { x with gate := g }
  | .engine e answer =>
    match sampled (x.gate.engine e).point with
    | some seen => accountStep cfg x e seen answer (x.account e)
    | none => (Gating.step cfg x.gate (.engine e answer)).map fun g => { x with gate := g }

def rechecking : Point → Option ℕ
  | .recheck _ i => some i
  | _ => none

def SkipsNoPut (cfg : Config) (s : Gating.State Tid) (e : ℕ) : Prop :=
  ∀ i ∈ rechecking (s.engine e).point, i < cfg.channels → s.parked (e, i) = true →
    s.put (e, i) = (s.engine e).seenPut i

def LoadsInTime (x : State Tid) (e : ℕ) : Prop :=
  x.account e = .seq → ∀ seen ∈ sampled (x.gate.engine e).point, x.gate.bell e < seen + 2 ^ 32

/-- No producer is through with its doorbell between the load of the sequence number and that of
the number of producers, if the bell was rung since the sample; the re-check finds no new PUT on a
channel that it passes over; and the bell is loaded less than `2 ^ 32` signals after the sample. -/
def fair (cfg : Config) (x : State Tid) : Action Tid → Prop
  | .finish t => ∀ p ∈ x.bracket t, (x.account p.1.1).window = true →
      ∀ seen ∈ sampled (x.gate.engine p.1.1).point, x.gate.bell p.1.1 = seen
  | .engine e _ => SkipsNoPut cfg x.gate e ∧ LoadsInTime x e
  | .begin .. | .publish .. | .doorbell _ | .service _ => True

instance (cfg : Config) (x : State Tid) (a : Action Tid) : Decidable (fair cfg x a) :=
  match a with
  | .finish t => inferInstanceAs (Decidable (∀ p ∈ x.bracket t, (x.account p.1.1).window = true →
      ∀ seen ∈ sampled (x.gate.engine p.1.1).point, x.gate.bell p.1.1 = seen))
  | .engine e _ => inferInstanceAs (Decidable ((∀ i ∈ rechecking (x.gate.engine e).point,
      i < cfg.channels → x.gate.parked (e, i) = true →
        x.gate.put (e, i) = (x.gate.engine e).seenPut i) ∧
      (x.account e = .seq →
        ∀ seen ∈ sampled (x.gate.engine e).point, x.gate.bell e < seen + 2 ^ 32)))
  | .begin .. | .publish .. | .doorbell _ | .service _ => .isTrue trivial

/-! ### What the re-check has seen -/

def Caught (s : Gating.State Tid) (e seen c : ℕ) : Prop :=
  seen < s.bell e ∨ s.put (e, c) = (s.engine e).seenPut c ∨ s.Ringing (e, c)

structure GateInv (cfg : Config) (s : Gating.State Tid) : Prop where
  doorbell : DoorbellOk cfg s
  seenPut : ∀ e c, (s.engine e).seenPut c ≤ s.put (e, c)
  caught : ∀ e seen i, (s.engine e).point.rechecked cfg.channels = some (seen, i) →
    ∀ c < i, Caught s e seen c

section Gate
variable {cfg : Config} {s s' : Gating.State Tid} {e : ℕ}

omit [DecidableEq Tid] in
theorem gateInv_init (cfg : Config) : GateInv cfg (Gating.init : Gating.State Tid) where
  doorbell := Gating.init_doorbellOk cfg
  seenPut := fun _ _ => le_rfl
  caught := by simp [Gating.init, Point.rechecked]

omit [DecidableEq Tid] in
theorem GateInv.outside (h : GateInv cfg s) (hd : DoorbellOk cfg s')
    (hengine : s'.engine = s.engine)
    (hput : ∀ r, s.put r ≤ s'.put r)
    (hcaught : ∀ e seen c, s.asleep e = true → seen ≤ s.bell e → Caught s e seen c →
      Caught s' e seen c) : GateInv cfg s' where
  doorbell := hd
  seenPut := by
    intro e c
    rw [hengine]
    exact (h.seenPut e c).trans (hput _)
  caught := by
    intro e seen i hp c hc
    rw [hengine] at hp
    have hflag : s.asleep e = true := by
      rw [h.doorbell.asleep e]
      exact Point.isAsleep_of_rechecked hp hc
    exact hcaught e seen c hflag (h.doorbell.watch e seen i hp).1 (h.caught e seen i hp c hc)

theorem GateInv.publish (h : GateInv cfg s) {t : Tid} {r : Chan} {cmd : Cmd}
    (hs : Gating.step cfg s (.publish t r cmd) = some s') : GateInv cfg s' := by
  have hd := h.doorbell.publish hs
  simp only [Gating.step, Option.ite_none_right_eq_some, Option.some.injEq] at hs
  obtain ⟨⟨hnone, -⟩, rfl⟩ := hs
  refine h.outside hd rfl (fun q => ?_) fun e seen c _ _ hc => ?_
  · by_cases hq : q = r
    · subst hq
      simp
    · simp [hq]
  · obtain hc | hc | ⟨u, b, hu⟩ := hc
    · exact .inl hc
    · by_cases hr : (e, c) = r
      · exact .inr (.inr ⟨t, false, by simp [hr]⟩)
      · exact .inr (.inl (by simpa [hr] using hc))
    · have hne : u ≠ t := by
        intro he
        rw [he, hnone] at hu
        cases hu
      exact .inr (.inr ⟨u, b, by simpa [hne] using hu⟩)

theorem GateInv.ring (h : GateInv cfg s) {t : Tid}
    (hs : Gating.step cfg s (.doorbell t) = some s') : GateInv cfg s' := by
  have hd := Gating.step_doorbellOk h.doorbell hs
  simp only [Gating.step, Gating.doorbellStep] at hs
  split at hs
  · cases hs
  · next r hr =>
    obtain rfl := Option.some.inj hs
    refine h.outside hd rfl (fun _ => le_rfl) fun e seen c hflag _ hc => ?_
    obtain hc | hc | ⟨u, b, hu⟩ := hc
    · exact .inl hc
    · exact .inr (.inl hc)
    · by_cases hut : u = t
      · subst hut
        obtain ⟨rfl, rfl⟩ : r = (e, c) ∧ false = b := by simpa [hr] using hu
        exact .inr (.inr ⟨u, true, by simp [hflag]⟩)
      · exact .inr (.inr ⟨u, b, by simpa [hut] using hu⟩)
  · next r hr =>
    obtain rfl := Option.some.inj hs
    refine h.outside hd rfl (fun _ => le_rfl) fun e seen c _ hle hc => ?_
    by_cases he : e = r.1
    · subst he
      exact .inl (hle.trans_lt (Gating.lt_signal s r.1))
    · obtain hc | hc | ⟨u, b, hu⟩ := hc
      · exact .inl (hc.trans_le (Gating.signal_le s r.1 e))
      · exact .inr (.inl hc)
      · have hut : u ≠ t := by
          intro hut
          rw [hut, hr] at hu
          obtain ⟨rfl, -⟩ : r = (e, c) ∧ true = b := by simpa using hu
          exact he rfl
        exact .inr (.inr ⟨u, b, by simpa [hut] using hu⟩)

structure ServiceFrame (s s' : Gating.State Tid) : Prop where
  engine : s'.engine = s.engine
  put : s'.put = s.put
  producer : s'.producer = s.producer
  bell : ∀ e, s.bell e ≤ s'.bell e

theorem service_frame {ok : Bool} (hs : Gating.step cfg s (.service ok) = some s') :
    ServiceFrame s s' := by
  simp only [Gating.step] at hs
  cases hv : s.service with
  | idle =>
    simp only [hv, Gating.serviceStep] at hs
    split at hs
    · cases hs
    · obtain rfl := Option.some.inj hs
      exact ⟨rfl, rfl, rfl, fun _ => le_rfl⟩
  | handling r =>
    simp only [hv, Gating.serviceStep] at hs
    split at hs
    · obtain rfl := Option.some.inj hs
      exact ⟨rfl, rfl, rfl, fun _ => le_rfl⟩
    · obtain rfl := Option.some.inj hs
      exact ⟨rfl, rfl, rfl, fun _ => le_rfl⟩
  | reported r | ringing r =>
    simp only [hv, Gating.serviceStep] at hs
    obtain rfl := Option.some.inj hs
    exact ⟨rfl, rfl, rfl, fun _ => le_rfl⟩
  | signalling r =>
    simp only [hv, Gating.serviceStep] at hs
    obtain rfl := Option.some.inj hs
    exact ⟨rfl, rfl, rfl, Gating.signal_le s r.1⟩

theorem GateInv.service (h : GateInv cfg s) {ok : Bool}
    (hs : Gating.step cfg s (.service ok) = some s') : GateInv cfg s' := by
  have hf := service_frame hs
  refine h.outside (Gating.step_doorbellOk h.doorbell hs) hf.engine
    (fun r => (congrFun hf.put r).ge)
    fun e seen c _ _ hc => ?_
  simp only [Caught, Gating.State.Ringing, hf.put, hf.engine, hf.producer] at hc ⊢
  exact hc.imp_left fun hlt => hlt.trans_le (hf.bell e)

/-! ### The steps of an engine -/

omit [DecidableEq Tid] in
theorem idle_producer {answer : Bool}
    (hs : Gating.idleStep cfg s e (s.engine e) answer (s.engine e).point = some s') :
    s'.producer = s.producer := by
  cases hp : (s.engine e).point with
  | recheck =>
    simp only [hp, Gating.idleStep] at hs
    split at hs
    · split at hs <;> obtain rfl := Option.some.inj hs <;> rfl
    · obtain rfl := Option.some.inj hs
      rfl
  | recheckPut =>
    simp only [hp, Gating.idleStep] at hs
    split at hs <;> obtain rfl := Option.some.inj hs <;> rfl
  | asleep =>
    simp only [hp, Gating.idleStep] at hs
    split at hs
    · obtain rfl := Option.some.inj hs
      rfl
    · cases hs
  | idle | sample | setAsleep | setBlocked | count | recheckHead | enter | clearAsleep
  | clearBlocked
  | uncount =>
    simp only [hp, Gating.idleStep] at hs
    obtain rfl := Option.some.inj hs
    rfl
  | _ => simp [hp, Gating.idleStep] at hs

structure EngineFrame (s s' : Gating.State Tid) (e : ℕ) : Prop where
  engine : ∀ j ≠ e, s'.engine j = s.engine j
  put : s'.put = s.put
  producer : s'.producer = s.producer
  bell : ∀ j, s.bell j ≤ s'.bell j

theorem engine_frame {answer : Bool} (hs : Gating.step cfg s (.engine e answer) = some s') :
    EngineFrame s s' e := by
  obtain ⟨-, hs | hs | hs⟩ := Gating.engine_cases hs
  · have hf := Gating.AwakeStep.of_scan hs
    exact ⟨hf.engine, hf.put, hf.producer, hf.bell⟩
  · have hf := Gating.AwakeStep.of_visit hs
    exact ⟨hf.engine, hf.put, hf.producer, hf.bell⟩
  · have hf := Gating.WakeOk.idle_frame hs
    exact ⟨hf.engine, hf.put, idle_producer hs, fun j => (congrFun hf.bell j).ge⟩

omit [DecidableEq Tid] in
/-- A channel that engine `e` has looked at after a step of its idle path: it had done so before,
or finds its PUT where it was, or passes over it. -/
theorem idle_rechecked {answer : Bool} {n seen i c : ℕ}
    (hs : Gating.idleStep cfg s e (s.engine e) answer (s.engine e).point = some s')
    (hn : n = cfg.channels) (hi : (s'.engine e).point.rechecked n = some (seen, i)) (hc : c < i) :
    (s'.engine e).seenPut = (s.engine e).seenPut ∧
      ((∃ i₀, (s.engine e).point.rechecked n = some (seen, i₀) ∧ c < i₀) ∨
        s.put (e, c) = (s.engine e).seenPut c ∨
        rechecking (s.engine e).point = some c ∧ c < cfg.channels ∧ s.parked (e, c) = true) := by
  cases hp : (s.engine e).point with
  | recheck seen' k =>
    simp only [hp, Gating.idleStep] at hs
    split at hs
    · next hlt =>
      split at hs
      · next hparked =>
        obtain rfl := Option.some.inj hs
        rw [Gating.State.setEngine_engine] at hi ⊢
        obtain ⟨rfl, rfl⟩ : seen' = seen ∧ k + 1 = i := by simpa [Point.rechecked] using hi
        refine ⟨rfl, ?_⟩
        obtain hck | rfl := Nat.lt_succ_iff_lt_or_eq.mp hc
        · exact .inl ⟨k, rfl, hck⟩
        · exact .inr (.inr ⟨rfl, hlt, hparked⟩)
      · obtain rfl := Option.some.inj hs
        rw [Gating.State.setEngine_engine] at hi ⊢
        obtain ⟨rfl, rfl⟩ : seen' = seen ∧ k = i := by
          simpa [Gating.Engine.goto, Point.rechecked] using hi
        exact ⟨rfl, .inl ⟨k, rfl, hc⟩⟩
    · next hge =>
      obtain rfl := Option.some.inj hs
      rw [Gating.State.setEngine_engine] at hi ⊢
      obtain ⟨rfl, rfl⟩ : seen' = seen ∧ n = i := by
        simpa [Gating.Engine.goto, Point.rechecked] using hi
      exact ⟨rfl, .inl ⟨k, rfl, by omega⟩⟩
  | recheckPut seen' k =>
    simp only [hp, Gating.idleStep] at hs
    split at hs
    · obtain rfl := Option.some.inj hs
      rw [Gating.State.setEngine_engine] at hi
      cases hi
    · next hsame =>
      obtain rfl := Option.some.inj hs
      rw [Gating.State.setEngine_engine] at hi ⊢
      obtain ⟨rfl, rfl⟩ : seen' = seen ∧ k + 1 = i := by
        dsimp only at hi
        split at hi <;> simpa [Point.rechecked] using hi
      refine ⟨rfl, ?_⟩
      obtain hck | rfl := Nat.lt_succ_iff_lt_or_eq.mp hc
      · exact .inl ⟨k, rfl, hck⟩
      · exact .inr (.inl (not_not.mp hsame))
  | recheckHead seen' k =>
    simp only [hp, Gating.idleStep] at hs
    obtain rfl := Option.some.inj hs
    rw [Gating.State.setEngine_engine] at hi ⊢
    dsimp only [Gating.Engine.goto] at hi
    split at hi
    · obtain ⟨rfl, rfl⟩ : seen' = seen ∧ k + 1 = i := by simpa [Point.rechecked] using hi
      exact ⟨rfl, .inl ⟨k + 1, rfl, hc⟩⟩
    · cases hi
  | enter seen' =>
    simp only [hp, Gating.idleStep] at hs
    obtain rfl := Option.some.inj hs
    rw [Gating.State.setEngine_engine] at hi ⊢
    dsimp only [Gating.Engine.goto] at hi
    split at hi
    · exact ⟨rfl, .inl ⟨i, hi, hc⟩⟩
    · cases hi
  | asleep seen' =>
    simp only [hp, Gating.idleStep] at hs
    split at hs
    · obtain rfl := Option.some.inj hs
      rw [Gating.State.setEngine_engine] at hi
      cases hi
    · cases hs
  | sample | count | setBlocked =>
    -- No channel has been looked at yet.
    simp only [hp, Gating.idleStep] at hs
    obtain rfl := Option.some.inj hs
    rw [Gating.State.setEngine_engine] at hi
    obtain ⟨-, rfl⟩ : _ ∧ 0 = i := by simpa [Gating.Engine.goto, Point.rechecked] using hi
    exact absurd hc (Nat.not_lt_zero c)
  | setAsleep seen' =>
    simp only [hp, Gating.idleStep] at hs
    obtain rfl := Option.some.inj hs
    rw [Gating.State.setEngine_engine] at hi
    dsimp only [Gating.Engine.goto] at hi
    obtain ⟨-, rfl⟩ : seen' = seen ∧ 0 = i := by
      split at hi <;> simpa [Point.rechecked] using hi
    exact absurd hc (Nat.not_lt_zero c)
  | idle | clearAsleep =>
    simp only [hp, Gating.idleStep] at hs
    obtain rfl := Option.some.inj hs
    rw [Gating.State.setEngine_engine] at hi
    split at hi <;> cases hi
  | clearBlocked | uncount =>
    simp only [hp, Gating.idleStep] at hs
    obtain rfl := Option.some.inj hs
    rw [Gating.State.setEngine_engine] at hi
    cases hi
  | _ => simp [hp, Gating.idleStep] at hs

omit [DecidableEq Tid] in
theorem scan_seenPut {answer : Bool} (c : ℕ)
    (hs : Gating.scanStep cfg s e (s.engine e) answer (s.engine e).point = some s') :
    (s'.engine e).seenPut c = (s.engine e).seenPut c ∨ (s'.engine e).seenPut c = s.put (e, c) := by
  cases hp : (s.engine e).point with
  | scan i =>
    simp only [hp, Gating.scanStep] at hs
    split at hs
    · obtain rfl := Option.some.inj hs
      rw [Gating.State.setEngine_engine]
      by_cases hc : c = (s.engine e).channel cfg i
      · exact .inr (by simp [hc])
      · exact .inl (by simp [hc])
    · grind [= Gating.State.setEngine_engine, Gating.Engine.goto, Gating.Engine.again]
  | _ =>
    simp only [hp, Gating.scanStep] at hs
    grind [= Gating.State.setEngine_engine, Gating.Engine.goto]

omit [DecidableEq Tid] in
theorem visit_seenPut {answer : Bool}
    (hs : Gating.visitStep cfg s e (s.engine e) answer (s.engine e).point = some s') :
    (s'.engine e).seenPut = (s.engine e).seenPut := by
  cases hp : (s.engine e).point <;> simp only [hp, Gating.visitStep] at hs <;>
    grind [= Gating.State.setEngine_engine, Gating.Engine.goto, Gating.Engine.again]

omit [DecidableEq Tid] in
theorem idle_seenPut {answer : Bool}
    (hs : Gating.idleStep cfg s e (s.engine e) answer (s.engine e).point = some s') :
    (s'.engine e).seenPut = (s.engine e).seenPut := by
  cases hp : (s.engine e).point <;> simp only [hp, Gating.idleStep] at hs <;>
    grind [= Gating.State.setEngine_engine, Gating.Engine.goto, Gating.Engine.again]

theorem engine_seenPut {answer : Bool} (hs : Gating.step cfg s (.engine e answer) = some s')
    (c : ℕ) :
    (s'.engine e).seenPut c = (s.engine e).seenPut c ∨ (s'.engine e).seenPut c = s.put (e, c) := by
  obtain ⟨-, hs | hs | hs⟩ := Gating.engine_cases hs
  · exact scan_seenPut c hs
  · exact .inl (congrFun (visit_seenPut hs) c)
  · exact .inl (congrFun (idle_seenPut hs) c)

omit [DecidableEq Tid] in
theorem EngineFrame.caught {j seen c : ℕ} (hf : EngineFrame s s' e)
    (hseen : (s'.engine j).seenPut = (s.engine j).seenPut) (h : Caught s j seen c) :
    Caught s' j seen c := by
  simp only [Caught, Gating.State.Ringing, hf.put, hf.producer, hseen] at h ⊢
  exact h.imp_left fun hlt => hlt.trans_le (hf.bell j)

theorem GateInv.engine {answer : Bool} (h : GateInv cfg s)
    (hs : Gating.step cfg s (.engine e answer) = some s') (hskip : SkipsNoPut cfg s e) :
    GateInv cfg s' := by
  have hf := engine_frame hs
  refine ⟨Gating.step_doorbellOk h.doorbell hs, fun j c => ?_, fun j seen i hi c hc => ?_⟩
  · rw [hf.put]
    by_cases hj : j = e
    · subst hj
      obtain hold | hnew := engine_seenPut hs c
      · exact hold.trans_le (h.seenPut j c)
      · exact hnew.le
    · rw [hf.engine j hj]
      exact h.seenPut j c
  · by_cases hj : j = e
    · subst hj
      obtain ⟨-, hs | hs | hs⟩ := Gating.engine_cases hs
      · rw [Point.rechecked_of_not_gated _ (Gating.AwakeStep.of_scan hs).after] at hi
        cases hi
      · rw [Point.rechecked_of_not_gated _ (Gating.AwakeStep.of_visit hs).after] at hi
        cases hi
      · obtain ⟨hseen, hlook⟩ := idle_rechecked hs rfl hi hc
        apply hf.caught hseen
        obtain ⟨i₀, hi₀, hc₀⟩ | hput | ⟨hat, hlt, hparked⟩ := hlook
        · exact h.caught j seen i₀ hi₀ c hc₀
        · exact .inr (.inl hput)
        · exact .inr (.inl (hskip c hat hlt hparked))
    · rw [hf.engine j hj] at hi
      apply hf.caught (by rw [hf.engine j hj])
      exact h.caught j seen i hi c hc

end Gate

/-! ### Producers under way -/

def Inside (x : State Tid) (e : ℕ) (t : Tid) : Prop := ∃ c b, x.bracket t = some ((e, c), b)

def Published (x : State Tid) (r : Chan) : Prop := ∃ t, x.bracket t = some (r, true)

structure Inv (cfg : Config) (x : State Tid) : Prop where
  gate : GateInv cfg x.gate
  bracketed : ∀ t r b, x.gate.producer t = some (r, b) → x.bracket t = some (r, true)
  counted : ∀ e (L : List Tid), L.Nodup → (∀ t ∈ L, Inside x e t) → L.length ≤ x.inflight e
  asleep : ∀ e, x.account e ≠ .none → ∃ seen, (x.gate.engine e).point = .asleep seen
  window : ∀ e, (x.account e).window = true → ∀ c < cfg.channels,
    x.gate.put (e, c) = (x.gate.engine e).seenPut c ∨ Published x (e, c)
  found : ∀ e c, x.account e = .inflight c →
    c < cfg.channels ∧ (x.gate.engine e).seenPut c < x.gate.put (e, c)
  missed : ∀ e, x.missed e = 0

section Run
variable {cfg : Config} {x y : State Tid} {e : ℕ} {t : Tid}

omit [DecidableEq Tid] in
theorem inv_init (cfg : Config) : Inv cfg (init : State Tid) where
  gate := gateInv_init cfg
  bracketed := by simp [init, Gating.init]
  counted := by
    intro e L _ hL
    cases L with
    | nil => exact Nat.zero_le _
    | cons t L =>
      obtain ⟨c, b, ht⟩ := hL t List.mem_cons_self
      cases ht
  asleep := by simp [init]
  window := by simp [init, Account.window]
  found := by simp [init]
  missed := fun _ => rfl

omit [DecidableEq Tid] in
theorem Inv.not_inside (h : Inv cfg x) (hzero : x.inflight e = 0) : ¬Inside x e t := by
  intro ht
  have hle := h.counted e [t] (List.nodup_singleton t) (by simpa using ht)
  simp [hzero] at hle

theorem Inv.begin (h : Inv cfg x) {r : Chan} (hs : step cfg x (.begin t r) = some y) :
    Inv cfg y := by
  simp only [step, Option.ite_none_right_eq_some, Option.some.injEq] at hs
  obtain ⟨⟨hout, -⟩, rfl⟩ := hs
  have hne : ∀ u p, x.bracket u = some p → u ≠ t := by
    intro u p hu hut
    rw [hut, hout] at hu
    cases hu
  refine ⟨h.gate, fun u q b hu => ?_, fun e L hL hin => ?_, h.asleep, fun e he c hc => ?_, h.found,
    h.missed⟩
  · have hb := h.bracketed u q b hu
    simpa [hne u _ hb] using hb
  · have hold : ∀ u ∈ L, u ≠ t → Inside x e u := by
      intro u hu hut
      obtain ⟨c, b, hb⟩ := hin u hu
      exact ⟨c, b, by simpa [hut] using hb⟩
    by_cases ht : t ∈ L
    · obtain ⟨c, b, hb⟩ := hin t ht
      obtain ⟨rfl, -⟩ : r = (e, c) ∧ false = b := by simpa using hb
      have hle := h.counted e (L.erase t) (hL.erase t) fun u hu =>
        hold u (List.mem_of_mem_erase hu) (hL.mem_erase_iff.mp hu).1
      rw [List.length_erase_of_mem ht] at hle
      simp only [Function.update_self]
      omega
    · have hle := h.counted e L hL fun u hu => hold u hu (ne_of_mem_of_not_mem hu ht)
      refine hle.trans ?_
      by_cases he : e = r.1
      · subst he
        simp
      · simp [he]
  · obtain hput | ⟨u, hu⟩ := h.window e he c hc
    · exact .inl hput
    · exact .inr ⟨u, by simpa [hne u _ hu] using hu⟩

theorem Inv.publish (h : Inv cfg x) {cmd : Cmd} (hs : step cfg x (.publish t cmd) = some y) :
    Inv cfg y := by
  simp only [step] at hs
  split at hs
  · next r hr =>
    obtain ⟨g, hg, rfl⟩ := Option.map_eq_some_iff.mp hs
    have hgate := h.gate.publish hg
    simp only [Gating.step, Option.ite_none_right_eq_some, Option.some.injEq] at hg
    obtain ⟨-, rfl⟩ := hg
    have hgrow : ∀ q, x.gate.put q ≤ Function.update x.gate.put r (x.gate.put r + 1) q := by
      intro q
      by_cases hq : q = r
      · subst hq
        simp
      · simp [hq]
    refine ⟨hgate, fun u q b hu => ?_, fun e L hL hin => h.counted e L hL fun u hu => ?_, h.asleep,
      fun e he c hc => ?_, fun e c hc => ?_, h.missed⟩
    · by_cases hut : u = t
      · subst hut
        obtain ⟨rfl, -⟩ : r = q ∧ false = b := by simpa using hu
        simp
      · simp only [Function.update_of_ne hut] at hu ⊢
        exact h.bracketed u q b hu
    · obtain ⟨c, b, hb⟩ := hin u hu
      by_cases hut : u = t
      · subst hut
        obtain ⟨rfl, -⟩ : r = (e, c) ∧ true = b := by simpa using hb
        exact ⟨c, false, hr⟩
      · exact ⟨c, b, by simpa [hut] using hb⟩
    · by_cases hrc : (e, c) = r
      · exact .inr ⟨t, by simp [hrc]⟩
      · obtain hput | ⟨u, hu⟩ := h.window e he c hc
        · exact .inl (by simpa [hrc] using hput)
        · have hut : u ≠ t := by
            intro hut
            rw [hut, hr] at hu
            cases hu
          exact .inr ⟨u, by simpa [hut] using hu⟩
    · obtain ⟨hlt, hnew⟩ := h.found e c hc
      exact ⟨hlt, hnew.trans_le (hgrow (e, c))⟩
  · cases hs

theorem Inv.ring (h : Inv cfg x) (hs : step cfg x (.doorbell t) = some y) : Inv cfg y := by
  obtain ⟨g, hg, rfl⟩ := Option.map_eq_some_iff.mp hs
  have hgate := h.gate.ring hg
  simp only [Gating.step, Gating.doorbellStep] at hg
  have hother : ∀ u q b (o : Option (Chan × Bool)),
    (∀ p ∈ o, ∃ b', x.gate.producer t = some (p.1, b')) →
      Function.update x.gate.producer t o u = some (q, b) → x.bracket u = some (q, true) := by
    intro u q b o ho hu
    by_cases hut : u = t
    · subst hut
      rw [Function.update_self] at hu
      obtain ⟨b', hb'⟩ := ho _ hu
      exact h.bracketed u q b' hb'
    · rw [Function.update_of_ne hut] at hu
      exact h.bracketed u q b hu
  split at hg
  · cases hg
  · next r hr =>
    obtain rfl := Option.some.inj hg
    refine ⟨hgate, fun u q b => hother u q b _ ?_, h.counted, h.asleep, h.window, h.found, h.missed⟩
    intro p hp
    split at hp
    · obtain rfl := Option.some.inj hp
      exact ⟨false, hr⟩
    · cases hp
  · next r hr =>
    obtain rfl := Option.some.inj hg
    refine ⟨hgate, fun u q b => hother u q b _ ?_, h.counted, h.asleep, h.window, h.found, h.missed⟩
    intro p hp
    cases hp

/-- The producer `t` leaves the bracket. Where the bell is as the engine sampled it, every new PUT
has another producer under way. -/
theorem Inv.finish (h : Inv cfg x) (hfair : fair cfg x (.finish t))
    (hs : step cfg x (.finish t) = some y) : Inv cfg y := by
  simp only [step] at hs
  split at hs
  · next r hr =>
    simp only [Option.ite_none_right_eq_some, Option.some.injEq] at hs
    obtain ⟨hnone, rfl⟩ := hs
    have hne : ∀ u q b, x.gate.producer u = some (q, b) → u ≠ t := by
      intro u q b hu hut
      rw [hut, hnone] at hu
      cases hu
    refine ⟨h.gate, fun u q b hu => ?_, fun e L hL hin => ?_, h.asleep,
      fun e he c hc => ?_, h.found,
      h.missed⟩
    · simpa [hne u q b hu] using h.bracketed u q b hu
    · have ht : t ∉ L := by
        intro ht
        obtain ⟨c, b, hb⟩ := hin t ht
        simp at hb
      have hold : ∀ u ∈ L, Inside x e u := by
        intro u hu
        obtain ⟨c, b, hb⟩ := hin u hu
        exact ⟨c, b, by simpa [ne_of_mem_of_not_mem hu ht] using hb⟩
      by_cases he : e = r.1
      · subst he
        have hle := h.counted r.1 (t :: L) (List.nodup_cons.mpr ⟨ht, hL⟩)
          (List.forall_mem_cons.mpr ⟨⟨r.2, true, hr⟩, hold⟩)
        rw [List.length_cons] at hle
        simp only [Function.update_self]
        omega
      · simpa [he] using h.counted e L hL hold
    · by_cases hrc : r = (e, c)
      · subst hrc
        obtain ⟨seen, hpoint⟩ := h.asleep e fun hacc => by
          dsimp only at he
          rw [hacc] at he
          cases he
        have hbell := hfair _ hr he seen (by rw [hpoint]; rfl)
        obtain hlt | hput | ⟨u, b, hu⟩ := h.gate.caught e seen cfg.channels
          (by rw [hpoint]; rfl) c hc
        · exact absurd hlt (by simp [hbell])
        · exact .inl hput
        · exact .inr ⟨u, by simpa [hne u _ b hu] using h.bracketed u _ b hu⟩
      · obtain hput | ⟨u, hu⟩ := h.window e he c hc
        · exact .inl hput
        · have hut : u ≠ t := by
            intro hut
            rw [hut, hr] at hu
            exact hrc (by simpa using hu)
          exact .inr ⟨u, by simpa [hut] using hu⟩
  · cases hs

theorem Inv.service (h : Inv cfg x) {ok : Bool} (hs : step cfg x (.service ok) = some y) :
    Inv cfg y := by
  obtain ⟨g, hg, rfl⟩ := Option.map_eq_some_iff.mp hs
  have hf := service_frame hg
  refine ⟨h.gate.service hg, ?_, h.counted, ?_, ?_, ?_, h.missed⟩
  · simp only [hf.producer]
    exact h.bracketed
  · simp only [hf.engine]
    exact h.asleep
  · simp only [hf.engine, hf.put]
    exact h.window
  · simp only [hf.engine, hf.put]
    exact h.found

theorem Inv.moved (h : Inv cfg x) {answer : Bool} {g : Gating.State Tid}
    (hg : Gating.step cfg x.gate (.engine e answer) = some g) (hskip : SkipsNoPut cfg x.gate e) :
    Inv cfg { setAccount x e .none with gate := g } := by
  have hf := engine_frame hg
  have hne : ∀ j, Function.update x.account e Account.none j ≠ .none → j ≠ e := by
    intro j hj hje
    rw [hje, Function.update_self] at hj
    exact hj rfl
  refine ⟨h.gate.engine hg hskip, ?_, h.counted, fun j hj => ?_, fun j hj c hc => ?_,
    fun j c hj => ?_, h.missed⟩
  · simp only [hf.producer]
    exact h.bracketed
  · have hje := hne j hj
    simp only [setAccount, Function.update_of_ne hje] at hj
    rw [hf.engine j hje]
    exact h.asleep j hj
  · have hje : j ≠ e := hne j fun hnone => by
      simp only [setAccount] at hj
      rw [hnone] at hj
      cases hj
    simp only [setAccount, Function.update_of_ne hje] at hj
    rw [hf.put, hf.engine j hje]
    exact h.window j hj c hc
  · have hje : j ≠ e := hne j fun hnone => by
      simp only [setAccount] at hj
      rw [hnone] at hj
      cases hj
    simp only [setAccount, Function.update_of_ne hje] at hj
    rw [hf.put, hf.engine j hje]
    exact h.found j c hj

omit [DecidableEq Tid] in
theorem Inv.accounted (h : Inv cfg x) {a : Account} {seen : ℕ}
    (hpoint : (x.gate.engine e).point = .asleep seen)
    (hwindow : a.window = true → ∀ c < cfg.channels,
      x.gate.put (e, c) = (x.gate.engine e).seenPut c ∨ Published x (e, c))
    (hfound : ∀ c, a = .inflight c →
      c < cfg.channels ∧ (x.gate.engine e).seenPut c < x.gate.put (e, c)) :
    Inv cfg (setAccount x e a) := by
  refine ⟨h.gate, h.bracketed, h.counted, fun j hj => ?_, fun j hj => ?_,
    fun j c hj => ?_, h.missed⟩
  · by_cases hje : j = e
    · subst hje
      exact ⟨seen, hpoint⟩
    · exact h.asleep j (by simpa [setAccount, hje] using hj)
  · by_cases hje : j = e
    · subst hje
      exact hwindow (by simpa [setAccount] using hj)
    · exact h.window j (by simpa [setAccount, hje] using hj)
  · by_cases hje : j = e
    · subst hje
      exact hfound c (by simpa [setAccount] using hj)
    · exact h.found j c (by simpa [setAccount, hje] using hj)

theorem Inv.leave (h : Inv cfg x) (hskip : SkipsNoPut cfg x.gate e)
    (hs : leave cfg x e = some y) : Inv cfg y := by
  obtain ⟨g, hg, rfl⟩ := Option.map_eq_some_iff.mp hs
  exact h.moved hg hskip

theorem Inv.accountStep (h : Inv cfg x) {seen : ℕ} {answer : Bool}
    (hpoint : (x.gate.engine e).point = .asleep seen) (htime : LoadsInTime x e)
    (hs : accountStep cfg x e seen answer (x.account e) = some y) : Inv cfg y := by
  have hskip : SkipsNoPut cfg x.gate e := by
    intro i hi
    rw [hpoint] at hi
    cases hi
  cases hacc : x.account e with
  | none =>
    simp only [hacc, Missed.accountStep, Option.ite_none_right_eq_some, Option.some.injEq] at hs
    obtain ⟨-, rfl⟩ := hs
    exact h.accounted hpoint (fun hw => by cases hw) fun _ hc => by cases hc
  | seq =>
    simp only [hacc, Missed.accountStep] at hs
    split at hs
    · exact h.leave hskip hs
    · next hbell =>
      obtain rfl := Option.some.inj hs
      -- The bell is as it was sampled: a new PUT has its producer still at the doorbell.
      have hle := (h.gate.doorbell.watch e seen cfg.channels (by rw [hpoint]; rfl)).1
      have hlt := htime hacc seen (by rw [hpoint]; rfl)
      have heq := (Event.word_eq_iff_of_lt hle hlt).mp (not_not.mp hbell).symm
      refine h.accounted hpoint (fun _ c hc => ?_) fun _ hc => by cases hc
      obtain hlt | hput | ⟨t, b, ht⟩ :=
        h.gate.caught e seen cfg.channels (by rw [hpoint]; rfl) c hc
      · omega
      · exact .inl hput
      · exact .inr ⟨t, h.bracketed t _ b ht⟩
  | puts i =>
    have hw := h.window e (by rw [hacc]; rfl)
    simp only [hacc, Missed.accountStep] at hs
    split at hs
    · next hi =>
      split at hs
      · next hnew =>
        obtain rfl := Option.some.inj hs
        refine h.accounted hpoint (fun _ => hw) fun c hc => ?_
        obtain rfl := Account.inflight.inj hc
        exact ⟨hi, lt_of_le_of_ne (h.gate.seenPut e i) hnew.symm⟩
      · obtain rfl := Option.some.inj hs
        exact h.accounted hpoint (fun _ => hw) fun _ hc => by cases hc
    · exact h.leave hskip hs
  | inflight c =>
    simp only [hacc, Missed.accountStep] at hs
    split at hs
    · next hzero =>
      obtain ⟨hc, hnew⟩ := h.found e c hacc
      obtain hput | ⟨t, ht⟩ := h.window e (by rw [hacc]; rfl) c hc
      · exact absurd hput hnew.ne'
      · exact absurd ⟨c, true, ht⟩ (h.not_inside hzero)
    · exact h.leave hskip hs

theorem Inv.engine (h : Inv cfg x) {answer : Bool} (hfair : fair cfg x (.engine e answer))
    (hs : step cfg x (.engine e answer) = some y) : Inv cfg y := by
  simp only [step] at hs
  split at hs
  · next seen hseen =>
    have hpoint : (x.gate.engine e).point = .asleep seen := by
      unfold sampled at hseen
      split at hseen
      · next hp => rw [hp, Option.some.inj hseen]
      · cases hseen
    exact h.accountStep hpoint hfair.2 hs
  · next hnone =>
    obtain ⟨g, hg, rfl⟩ := Option.map_eq_some_iff.mp hs
    have hacc : x.account e = .none := by
      by_contra hacc
      obtain ⟨seen, hp⟩ := h.asleep e hacc
      rw [hp] at hnone
      cases hnone
    have hsame : setAccount x e .none = x := by
      rw [setAccount, ← hacc, Function.update_eq_self]
    have hmoved := h.moved hg hfair.1
    rwa [hsame] at hmoved

theorem inv_step {a : Action Tid} (h : Inv cfg x) (hfair : fair cfg x a)
    (hs : step cfg x a = some y) : Inv cfg y := by
  cases a with
  | begin t r => exact h.begin hs
  | publish t cmd => exact h.publish hs
  | doorbell t => exact h.ring hs
  | finish t => exact h.finish hfair hs
  | service ok => exact h.service hs
  | engine e answer => exact h.engine hfair hs

/-- `missed_doorbells` stays 0 in runs in which no producer that has rung the bell passes
`end_doorbell` between the two loads of the accounting, the re-check passes over no new PUT and the
word of the bell does not repeat between the sample and its load. -/
theorem missed_doorbells_zero (h : Reach (step cfg) (fair cfg) init x) (e : ℕ) : x.missed e = 0 :=
  (h.invariant (inv_init cfg) fun _ _ _ hi hfair hs => inv_step hi hfair hs).missed e

end Run

/-! ### Runs of one engine with one channel -/

def fallAsleep : List (Action Unit) := List.replicate 11 (.engine 0 true)

def enqueueAsleep : List (Action Unit) :=
  [.begin () (0, 0), .publish () .work, .doorbell (), .doorbell (), .finish ()]

structure Counts where
  missed : ℕ
  bell : ℕ
  put : ℕ
  point : Point
  deriving DecidableEq

def State.counts (x : State Unit) : Counts :=
  ⟨x.missed 0, x.gate.bell 0, x.gate.put (0, 0), (x.gate.engine 0).point⟩

/-- The engine times out between the store of PUT and the doorbell: not counted. -/
theorem missed_doorbells_zero_timeout :
    ∃ x, exec (when (fair ⟨1, 1⟩) (step ⟨1, 1⟩)) (init : State Unit)
        (fallAsleep ++ [.engine 0 true, .engine 0 true, .begin () (0, 0), .publish () .work] ++
          List.replicate 2 (.engine 0 true)) = some x ∧
      x.counts = ⟨0, 0, 1, .clearAsleep⟩ ∧ x.missed 0 = 0 := by
  have hrun : (exec (when (fair ⟨1, 1⟩) (step ⟨1, 1⟩)) (init : State Unit)
      (fallAsleep ++ [.engine 0 true, .engine 0 true, .begin () (0, 0), .publish () .work] ++
        List.replicate 2 (.engine 0 true))).map State.counts =
      some ⟨0, 0, 1, .clearAsleep⟩ := by decide +kernel
  obtain ⟨x, hx, hcounts⟩ := Option.map_eq_some_iff.mp hrun
  exact ⟨x, hx, hcounts, missed_doorbells_zero (.of_exec_when .refl hx) 0⟩

/-- The whole `enqueue` falls between the load of the sequence number and that of PUT: its doorbell
has signalled, and its PUT is counted as missed. -/
theorem rung_counted :
    ∃ x : State Unit, Reach (step ⟨1, 1⟩) anyStep init x ∧ x.gate.put (0, 0) = 1 ∧
      x.gate.bell 0 = 1 ∧ ¬∀ e, x.missed e = 0 := by
  have hrun : (exec (step ⟨1, 1⟩) (init : State Unit)
      (fallAsleep ++ [.engine 0 true, .engine 0 true] ++ enqueueAsleep ++
        [.engine 0 true, .engine 0 true])).map State.counts =
      some ⟨1, 1, 1, .clearAsleep⟩ := by decide +kernel
  obtain ⟨x, hx, hcounts⟩ := Option.map_eq_some_iff.mp hrun
  simp only [State.counts, Counts.mk.injEq] at hcounts
  obtain ⟨hmissed, hbell, hput, -⟩ := hcounts
  refine ⟨x, .of_exec .refl hx, hput, hbell, fun hall => ?_⟩
  have hzero := hall 0
  rw [hmissed] at hzero
  cases hzero

/-- A doorbell that comes before `asleep_` is set, on a parked channel: the re-check passes over the
channel, and the PUT is counted after the timeout. -/
example : (exec (step ⟨1, 1⟩) (init : State Unit)
    ([.begin () (0, 0), .publish () .work, .doorbell (), .finish ()] ++
      List.replicate 11 (.engine 0 false) ++
      [.begin () (0, 0), .publish () .work, .doorbell (), .finish ()] ++
      List.replicate 12 (.engine 0 true))).map State.counts =
    some ⟨1, 0, 2, .clearAsleep⟩ := by decide +kernel

end SoftGpu.Missed
