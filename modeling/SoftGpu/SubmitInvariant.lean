import SoftGpu.Submit
import SoftGpu.RingProtocol

/-!
# What a SUBMIT knows of its commands

Rings only grow: PUT's mirror, GET and the issue order. A SUBMIT therefore keeps
what it has learned: its commands took slots between the mirror it found when it
was called and the mirror now, in the order it enqueued them, and the fence it
returns lies above all of them. The one exception is a staged host-to-device
copy of no bytes, which returns whatever the caller left in the fence field.
-/

namespace SoftGpu.Ring

variable {Tid Cmd : Type*} [DecidableEq Tid] {cfg : Config Cmd} {s s' : State Tid Cmd}
  {a : Action Tid Cmd} {t : Tid}

structure ProducerEffect (t : Tid) (s s' : State Tid Cmd) : Prop where
  point : ∀ u ≠ t, s'.point u = s.point u
  get : s'.get = s.get
  engine : s'.engine = s.engine
  parked : s'.parked = s.parked
  faultFail : s'.faultFail = s.faultFail
  fault : s'.fault = s.fault

theorem producer_effect (hpr : a.producer = some t) (hs : step cfg s a = some s') :
    ProducerEffect t s s' := by
  have hgoto : ∀ p, ProducerEffect t s (s.goto t p) := fun p =>
    ⟨fun u hu => Function.update_of_ne hu .., rfl, rfl, rfl, rfl, rfl⟩
  have hmove : ∀ (l : Option Tid) (r m p : ℕ) (g : ℕ → Cmd) (q : Point Cmd) (i : List Cmd)
      (f : List (ℕ × Cmd)), ProducerEffect t s { s with
        lock := l, reserve := r, mirror := m, put := p, ring := g
        point := Function.update s.point t q, issued := i, returned := f } :=
    fun _ _ _ _ _ _ _ _ => ⟨fun u hu => Function.update_of_ne hu .., rfl, rfl, rfl, rfl, rfl⟩
  simp only [step, hpr] at hs
  cases a with
  | acquire =>
    simp only [producerStep, Option.ite_none_right_eq_some, Option.some.injEq] at hs
    obtain ⟨-, rfl⟩ := hs
    exact ⟨fun _ _ => rfl, rfl, rfl, rfl, rfl, rfl⟩
  | release =>
    simp only [producerStep] at hs
    split at hs <;> simp only [Option.ite_none_right_eq_some, Option.some.injEq, reduceCtorEq] at hs
    obtain ⟨-, rfl⟩ := hs
    exact ⟨fun _ _ => rfl, rfl, rfl, rfl, rfl, rfl⟩
  | reserve u cmd =>
    simp only [producerStep, State.claim] at hs
    split at hs <;> try simp only [reduceCtorEq] at hs
    split at hs
    · exact Option.some.inj hs ▸ hmove ..
    · split_ifs at hs
      exact Option.some.inj hs ▸ hmove ..
  | test =>
    simp only [producerStep] at hs
    split at hs <;> try simp only [reduceCtorEq] at hs
    split_ifs at hs <;> exact Option.some.inj hs ▸ hgoto _
  | unstall | await =>
    simp only [producerStep] at hs
    split at hs <;> try simp only [reduceCtorEq] at hs
    split_ifs at hs
    exact Option.some.inj hs ▸ hgoto _
  | write | ring | hand | ret =>
    simp only [producerStep] at hs
    split at hs <;> simp only [Option.some.injEq, reduceCtorEq] at hs
    exact hs ▸ hmove ..
  | _ => simp [Action.producer] at hpr

theorem device_effect (hpr : a.producer = none) (hs : step cfg s a = some s') :
    DeviceEffect s s' := by
  rcases step_cases hs with ⟨u, hu, -⟩ | he | hf
  · rw [hpr] at hu
    cases hu
  · exact engineStep_effect he
  · exact faultStep_effect hf

end SoftGpu.Ring

namespace SoftGpu.Submit

open Machine
open Staging (Chan Fence)

variable {Tid Sid Ev : Type*} {cfg : Config Sid}

/-! ### Growing rings -/

structure Grow (x x' : Rings Tid) : Prop where
  mirror : ∀ r, (x r).mirror ≤ (x' r).mirror
  get : ∀ r, (x r).get ≤ (x' r).get
  issued : ∀ (r : Chan) (q : ℕ) (c : Cmd), (x r).issued[q]? = some c → (x' r).issued[q]? = some c

namespace Grow
variable {x x' : Rings Tid}

theorem refl (x : Rings Tid) : Grow x x := ⟨fun _ => le_rfl, fun _ => le_rfl, fun _ _ _ => id⟩

theorem update {r : Chan} {y : Ring.State Tid Cmd} {a : Ring.Action Tid Cmd}
    (h : Ring.StepEffect cfg.ring (x r) y a) : Grow x (Function.update x r y) where
  mirror := by
    intro q
    by_cases hq : q = r
    · subst hq
      simpa using h.mirror_le
    · simp [hq]
  get := by
    intro q
    by_cases hq : q = r
    · subst hq
      simpa using h.get_le
    · simp [hq]
  issued := by
    intro q k c hc
    by_cases hq : q = r
    · subst hq
      rw [Function.update_self]
      obtain he | ⟨_, d, -, -, -, he⟩ := h.issued
      · rwa [he]
      · rw [he]
        exact Ring.getElem?_snoc d hc
    · rwa [Function.update_of_ne hq]

end Grow

/-! ### One SUBMIT -/

def Sub.entry (u : Sub) : Chan × Args × ℕ × ℕ × (Chan → ℕ) :=
  (u.ring, u.args, u.base, u.before, u.seen)

section Entry
variable (cfg) (x : Rings Tid) (u : Sub) (k m : ℕ)

@[simp] theorem Sub.goto_entry (p : Point) : (u.goto p).entry = u.entry := rfl

@[simp] theorem Sub.check_entry : (u.check cfg x).entry = u.entry := by
  unfold Sub.check
  split_ifs <;> rfl

@[simp] theorem Sub.h2dLoop_entry : u.h2dLoop.entry = u.entry := by
  unfold Sub.h2dLoop
  split_ifs <;> rfl

@[simp] theorem Sub.d2hLoop_entry : (u.d2hLoop cfg m).entry = u.entry := by
  unfold Sub.d2hLoop
  split_ifs
  · rfl
  · split <;> rfl
  · rfl

@[simp] theorem Sub.dispatch_entry : (u.dispatch cfg x).entry = u.entry := by
  unfold Sub.dispatch
  split
  · rfl
  all_goals split_ifs <;> simp

@[simp] theorem Sub.enqueued_entry : (u.enqueued cfg m k).entry = u.entry := by
  unfold Sub.enqueued
  split_ifs
  · rfl
  · exact Sub.h2dLoop_entry _
  · exact Sub.d2hLoop_entry ..

@[simp] theorem Sub.copiedOut_entry : (u.copiedOut cfg m).entry = u.entry := by
  unfold Sub.copiedOut
  split_ifs
  · rfl
  · exact Sub.d2hLoop_entry ..

end Entry

def Point.issuing : Point → Bool
  | .slot | .enqueue | .drain _ => true
  | _ => false

def Sub.Known (u : Sub) : Prop :=
  u.slots ≠ [] ∧ (u.args.staged = false ∨ u.args.cmd = .copyH2D) ∨
    (u.point = .unlock .ok ∨ u.point = .done .ok) ∧ u.args.emptyH2D = false

structure Sub.Fenced (x : Rings Tid) (u : Sub) : Prop where
  base_le : u.base ≤ u.fence
  le_mirror : u.fence ≤ (x u.ring).mirror
  above : ∀ q ∈ u.slots, q < u.fence

structure SubOk (cfg : Config Sid) (x : Rings Tid) (t : Tid) (u : Sub) : Prop where
  base_le : u.base ≤ (x u.ring).mirror
  seen_le : ∀ r, u.seen r ≤ (x r).get
  slots : ∀ q ∈ u.slots, u.base ≤ q ∧ q < (x u.ring).mirror ∧
    (x u.ring).issued[q]? = some u.args.cmd
  claim : ∀ k c, ((x u.ring).point t).claim = some (k, c) →
    u.point = .enqueue ∧ u.base ≤ k ∧ c = u.args.cmd ∧ ∀ q ∈ u.slots, q < k
  start : u.point = .check ∨ u.point = .lock ∨ u.point = .dispatch → u.off = 0
  fence : u.Known → u.Fenced x
  valid : u.point = .check ∨ (∃ rc, rc ≠ .ok ∧ u.point = .done rc) ∨ cfg.valid u.ring
  target : ∀ f, u.args.cmd = .wait f → u.point.issuing = true → cfg.valid f.chan

theorem Sub.Fenced.grow {x x' : Rings Tid} {u : Sub} (h : u.Fenced x) (hg : Grow x x') :
    u.Fenced x' :=
  ⟨h.base_le, h.le_mirror.trans (hg.mirror _), h.above⟩

namespace SubOk
variable {x x' : Rings Tid} {t : Tid} {u u' : Sub}

theorem grow (h : SubOk cfg x t u) (hg : Grow x x')
    (hp : (x' u.ring).point t = (x u.ring).point t) : SubOk cfg x' t u where
  base_le := h.base_le.trans (hg.mirror _)
  seen_le := fun r => (h.seen_le r).trans (hg.get r)
  slots := fun q hq =>
    ⟨(h.slots q hq).1, (h.slots q hq).2.1.trans_le (hg.mirror _), hg.issued _ _
      _ (h.slots q hq).2.2⟩
  claim := by
    rw [hp]
    exact h.claim
  start := h.start
  fence := fun hk => (h.fence hk).grow hg
  valid := h.valid
  target := h.target

theorem move (h : SubOk cfg x t u) (hclaim : ((x u.ring).point t).claim = none)
    (hentry : u'.entry = u.entry) (hslots : u'.slots = u.slots)
    (hstart : u'.point = .check ∨ u'.point = .lock ∨ u'.point = .dispatch → u'.off = 0)
    (hfence : u'.fence = u.fence ∧ (u'.Known → u.Known) ∨ u'.fence = (x u.ring).mirror)
    (hvalid : u'.point = .check ∨ (∃ rc, rc ≠ .ok ∧ u'.point = .done rc) ∨ cfg.valid u.ring)
    (htarget : ∀ f, u.args.cmd = .wait f → u'.point.issuing = true → cfg.valid f.chan) :
    SubOk cfg x t u' := by
  simp only [Sub.entry, Prod.mk.injEq] at hentry
  obtain ⟨hring, hargs, hbase, -, hseen⟩ := hentry
  constructor
  · rw [hbase, hring]
    exact h.base_le
  · rw [hseen]
    exact h.seen_le
  · rw [hslots, hbase, hring, hargs]
    exact h.slots
  · rw [hring, hclaim]
    simp
  · exact hstart
  · intro hk
    obtain ⟨hf, hknown⟩ | hf := hfence
    · have hfenced := h.fence (hknown hk)
      constructor
      · rw [hbase, hf]
        exact hfenced.base_le
      · rw [hf, hring]
        exact hfenced.le_mirror
      · rw [hslots, hf]
        exact hfenced.above
    · constructor
      · rw [hbase, hf]
        exact h.base_le
      · rw [hf, hring]
      · rw [hslots, hf]
        exact fun q hq => (h.slots q hq).2.1
  · rw [hring]
    exact hvalid
  · rw [hargs]
    exact htarget

theorem goto (h : SubOk cfg x t u) (hclaim : ((x u.ring).point t).claim = none) {p : Point}
    (hstart : p = .check ∨ p = .lock ∨ p = .dispatch → u.off = 0)
    (hok : p = .unlock .ok ∨ p = .done .ok → u.Known)
    (hvalid : p = .check ∨ (∃ rc, rc ≠ .ok ∧ p = .done rc) ∨ cfg.valid u.ring)
    (htarget : ∀ f, u.args.cmd = .wait f → p.issuing = true → cfg.valid f.chan) :
    SubOk cfg x t (u.goto p) := by
  refine h.move hclaim rfl rfl hstart (.inl ⟨rfl, fun hk => ?_⟩) hvalid htarget
  obtain hk | ⟨hp, -⟩ := hk
  · exact .inl hk
  · exact hok hp

theorem d2hLoop (h : SubOk cfg x t u) (hclaim : ((x u.ring).point t).claim = none)
    (hv : cfg.valid u.ring) (hcmd : ∀ f, u.args.cmd = .wait f → cfg.valid f.chan) :
    SubOk cfg x t (u.d2hLoop cfg (x u.ring).mirror) := by
  have htarget : ∀ {p : Point} f, u.args.cmd = .wait f → p.issuing = true → cfg.valid f.chan :=
    fun f hf _ => hcmd f hf
  unfold Sub.d2hLoop
  split
  · exact h.goto hclaim (by simp) (by simp) (.inr (.inr hv)) htarget
  · split
    · split
      · refine h.move hclaim rfl rfl (by simp) (.inl ⟨rfl, fun hk => .inl ?_⟩) (.inr (.inr hv))
          htarget
        obtain hk | ⟨hp, -⟩ := hk
        · exact hk
        · simp at hp
      · exact h.move hclaim rfl rfl (by simp) (.inr rfl) (.inr (.inr hv)) htarget
    · exact h.move hclaim rfl rfl (by simp) (.inr rfl) (.inr (.inr hv)) htarget

theorem h2dLoop (h : SubOk cfg x t u) (hclaim : ((x u.ring).point t).claim = none)
    (hv : cfg.valid u.ring) (hcmd : ∀ f, u.args.cmd = .wait f → cfg.valid f.chan)
    (hend : u.args.size ≤ u.off → u.Known ∨ u.args.emptyH2D = true) :
    SubOk cfg x t u.h2dLoop := by
  have htarget : ∀ {p : Point} f, u.args.cmd = .wait f → p.issuing = true → cfg.valid f.chan :=
    fun f hf _ => hcmd f hf
  unfold Sub.h2dLoop
  split
  · exact h.goto hclaim (by simp) (by simp) (.inr (.inr hv)) htarget
  · next hge =>
    refine h.move hclaim rfl rfl (by simp [Sub.goto]) (.inl ⟨rfl, fun hk => ?_⟩) (.inr (.inr hv))
      htarget
    obtain hk' | hempty := hend (by omega)
    · exact hk'
    · obtain hk | ⟨-, hne⟩ := hk
      · exact .inl hk
      · simp [Sub.goto, hempty] at hne

theorem took (h : SubOk cfg x t u) (hg : Grow x x') {k : ℕ} {c : Cmd}
    (hc : ((x u.ring).point t).claim = some (k, c)) (hk : k < (x u.ring).mirror)
    (hi : (x u.ring).issued[k]? = some c) (hidle : ((x' u.ring).point t).claim = none)
    (f off issued : ℕ) (window : List ℕ)
    (hf : f = k + 1 ∨ u.args.staged = true ∧ u.args.cmd ≠ .copyH2D) :
    SubOk cfg x' t { u with
      slots := u.slots ++ [k], fence := f, off := off, issued := issued, window := window } := by
  obtain ⟨hp, hbase, rfl, hlt⟩ := h.claim k c hc
  have hmirror := hg.mirror u.ring
  have hmem : ∀ q ∈ u.slots ++ [k], q ∈ u.slots ∨ q = k := by simp
  constructor
  · exact h.base_le.trans hmirror
  · exact fun r => (h.seen_le r).trans (hg.get r)
  · intro q hq
    obtain hq | rfl := hmem q hq
    · obtain ⟨h₁, h₂, h₃⟩ := h.slots q hq
      exact ⟨h₁, h₂.trans_le hmirror, hg.issued _ _ _ h₃⟩
    · exact ⟨hbase, hk.trans_le hmirror, hg.issued _ _ _ hi⟩
  · simp [hidle]
  · simp [hp]
  · intro hknown
    obtain rfl | ⟨hst, hne⟩ := hf
    · refine ⟨hbase.trans (Nat.le_succ k), Nat.succ_le_of_lt (hk.trans_le hmirror), ?_⟩
      intro q hq
      obtain hq | rfl := hmem q hq
      · exact (hlt q hq).trans (Nat.lt_succ_self k)
      · exact Nat.lt_succ_self q
    · obtain ⟨-, hst' | hcopy⟩ | ⟨hpt, -⟩ := hknown
      · rw [hst] at hst'
        cases hst'
      · exact absurd hcopy hne
      · simp [hp] at hpt
  · exact h.valid
  · exact h.target

theorem claim_none (h : SubOk cfg x t u) (hp : u.point ≠ .enqueue) :
    ((x u.ring).point t).claim = none := by
  cases hc : ((x u.ring).point t).claim with
  | none => rfl
  | some kc => exact absurd (h.claim kc.1 kc.2 hc).1 hp

theorem check (h : SubOk cfg x t u) (hp : u.point = .check) :
    SubOk cfg x t (u.check cfg x) := by
  have hclaim := h.claim_none (by simp [hp])
  have hstart := h.start (.inl hp)
  have herr : ∀ rc, rc ≠ .ok → SubOk cfg x t (u.goto (.done rc)) := fun rc hrc =>
    h.goto hclaim (by simp) (by simp [hrc]) (.inr (.inl ⟨rc, hrc, rfl⟩)) (by simp [Point.issuing])
  unfold Sub.check
  split
  · exact herr .inval (by simp)
  · next hv =>
    split
    · exact herr .inval (by simp)
    · split
      · exact herr .io (by simp)
      · exact h.goto hclaim (fun _ => hstart) (by simp) (.inr (.inr (by simpa using hv)))
          (by simp [Point.issuing])

theorem valid_of (h : SubOk cfg x t u) (hp : u.point ≠ .check) (hd : ∀ rc, u.point ≠ .done rc) :
    cfg.valid u.ring := by
  obtain hc | ⟨rc, -, hrc⟩ | hv := h.valid
  · exact absurd hc hp
  · exact absurd hrc (hd rc)
  · exact hv

theorem copiedOut (h : SubOk cfg x t u) {f : ℕ} (hp : u.point = .drain f)
    (hclaim : ((x u.ring).point t).claim = none) (hv : cfg.valid u.ring) :
    SubOk cfg x t (u.copiedOut cfg (x u.ring).mirror) := by
  have hcmd : ∀ f, u.args.cmd = .wait f → cfg.valid f.chan := fun f hf =>
    h.target f hf (by simp [hp, Point.issuing])
  unfold Sub.copiedOut
  split
  · refine h.move hclaim rfl rfl (by simp) (.inl ⟨rfl, fun hk => .inl ?_⟩) (.inr (.inr hv))
      fun f hf _ => hcmd f hf
    obtain hk | ⟨hq, -⟩ := hk
    · exact hk
    · simp at hq
  · have hnext : SubOk cfg x t { u with drained := u.drained + 1 } :=
      h.move hclaim rfl rfl (by simp [hp]) (.inl ⟨rfl, id⟩) (.inr (.inr hv)) fun f hf _ => hcmd f hf
    exact hnext.d2hLoop hclaim hv hcmd

theorem dispatch (h : SubOk cfg x t u) (hp : u.point = .dispatch) :
    SubOk cfg x t (u.dispatch cfg x) := by
  have hclaim := h.claim_none (by simp [hp])
  have hstart := h.start (.inr (.inr hp))
  have hv := h.valid_of (by simp [hp]) (by simp [hp])
  have herr : ∀ rc, rc ≠ .ok → SubOk cfg x t (u.goto (.unlock rc)) := fun rc hrc =>
    h.goto hclaim (by simp) (by simp [hrc]) (.inr (.inr hv)) (by simp [Point.issuing])
  have henq : (∀ f, u.args.cmd = .wait f → cfg.valid f.chan) →
      SubOk cfg x t (u.goto .enqueue) := fun hf =>
    h.goto hclaim (by simp) (by simp) (.inr (.inr hv)) fun f hw _ => hf f hw
  unfold Sub.dispatch
  split
  · next hcmd => exact henq (by simp [hcmd])
  · next f hcmd =>
    split_ifs with hf
    · exact henq fun g hg => by
        obtain rfl : f = g := by simpa [hcmd] using hg
        exact hf.1
    · exact herr .inval (by simp)
  · next hcmd =>
    split_ifs with how hpin
    · exact herr .fault (by simp)
    · exact henq (by simp [hcmd])
    · refine h.h2dLoop hclaim hv (by simp [hcmd]) fun hsize => .inr ?_
      have hpin' : u.args.pinned = false := by simpa using hpin
      have hzero : u.args.size = 0 := by omega
      simp [Args.emptyH2D, hcmd, hpin', hzero]
  · next hcmd =>
    split_ifs with how hpin
    · exact herr .fault (by simp)
    · exact henq (by simp [hcmd])
    · exact h.d2hLoop hclaim hv (by simp [hcmd])
  all_goals
    next hcmd =>
    split_ifs with how
    · exact herr .fault (by simp)
    · exact henq (by simp [hcmd])

end SubOk

theorem enqueueAction_producer (t : Tid) (cmd : Cmd) (p : Ring.Point Cmd) :
    (enqueueAction t cmd p).producer = some t := by
  cases p <;> rfl

section Steps
variable [DecidableEq Tid] {x : Rings Tid} {t : Tid} {u u' : Sub} {y : Ring.State Tid Cmd}

/-- One access of `enqueue`: it returns the claimed slot, or goes on with the
claim it has, or makes one. -/
theorem enqueue_cases {y y' : Ring.State Tid Cmd} {t : Tid} {cmd : Cmd}
    (h : Ring.Inv cfg.ring y)
    (hs : Ring.step cfg.ring y (enqueueAction t cmd (y.point t)) = some y') :
    (∃ k c, y.point t = .published k c ∧ y'.point t = .idle) ∨
    (∀ k c, y.point t ≠ .published k c) ∧ ∃ k c, (y'.point t).claim = some (k, c) ∧
      ((y.point t).claim = some (k, c) ∨ (y.point t).claim = none ∧
      k = y.issued.length ∧ c = cmd) := by
  have hpr := enqueueAction_producer t cmd (y.point t)
  simp only [Ring.step, hpr] at hs
  cases hp : y.point t with
  | idle =>
    simp only [hp, enqueueAction, Ring.producerStep] at hs
    obtain ⟨r, rfl, -, -⟩ := h.fresh hp hs
    exact .inr ⟨by simp, y.issued.length, cmd, by simp [Ring.Point.claim], .inr ⟨rfl, rfl, rfl⟩⟩
  | published k c =>
    simp only [hp, enqueueAction, Ring.producerStep, Option.some.injEq] at hs
    subst hs
    exact .inl ⟨k, c, rfl, by simp⟩
  | reserved k c =>
    simp only [hp, enqueueAction, Ring.producerStep] at hs
    refine .inr ⟨by simp, k, c, ?_, .inl rfl⟩
    split_ifs at hs <;> obtain rfl := Option.some.inj hs <;>
      simp [Ring.State.goto, Ring.Point.claim]
  | stalled k c | written k c =>
    simp only [hp, enqueueAction, Ring.producerStep, Option.ite_none_right_eq_some,
      Option.some.injEq] at hs
    obtain ⟨-, rfl⟩ := hs
    exact .inr ⟨by simp, k, c, by simp [Ring.State.goto, Ring.Point.claim], .inl rfl⟩
  | cleared k c | turn k c | rung k c =>
    simp only [hp, enqueueAction, Ring.producerStep, Option.some.injEq] at hs
    subst hs
    exact .inr ⟨by simp, k, c, by simp [Ring.Point.claim], .inl rfl⟩

def RingMove (cfg : Config Sid) (t : Tid) (y y' : Ring.State Tid Cmd) : Prop :=
  y' = y ∨ ∃ a, a.producer = some t ∧ Ring.step cfg.ring y a = some y'

theorem lock_point {a : Ring.Action Tid Cmd} {y' : Ring.State Tid Cmd}
    (ha : a = .acquire t ∨ a = .release t) (hs : Ring.step cfg.ring y a = some y') :
    y'.point = y.point := by
  obtain rfl | rfl := ha
  · simp only [Ring.step, Ring.Action.producer, Ring.producerStep, Option.ite_none_right_eq_some,
      Option.some.injEq] at hs
    obtain ⟨-, rfl⟩ := hs
    rfl
  · simp only [Ring.step, Ring.Action.producer, Ring.producerStep] at hs
    split at hs <;> simp only [Option.ite_none_right_eq_some, Option.some.injEq, reduceCtorEq] at hs
    obtain ⟨-, rfl⟩ := hs
    rfl

namespace RingMove
variable {y' : Ring.State Tid Cmd}

theorem inv (h : RingMove cfg t y y') (hi : Ring.Inv cfg.ring y) : Ring.Inv cfg.ring y' := by
  obtain rfl | ⟨a, -, hs⟩ := h
  · exact hi
  · exact Ring.step_inv hi hs

theorem effect (h : RingMove cfg t y y') : Ring.ProducerEffect t y y' := by
  obtain rfl | ⟨a, ha, hs⟩ := h
  · exact ⟨fun _ _ => rfl, rfl, rfl, rfl, rfl, rfl⟩
  · exact Ring.producer_effect ha hs

theorem grow {r : Chan} (h : RingMove cfg t (x r) y) (hi : Ring.Inv cfg.ring (x r)) :
    Grow x (Function.update x r y) := by
  obtain rfl | ⟨a, -, hs⟩ := h
  · rw [Function.update_eq_self]
    exact .refl x
  · exact .update (Ring.step_effect hi hs)

end RingMove

theorem SubOk.claims {k : ℕ} {c : Cmd} (h : SubOk cfg x t u) (hi : Ring.Inv cfg.ring (x u.ring))
    (hp : u.point = .enqueue) (hm : RingMove cfg t (x u.ring) y)
    (hnew : (y.point t).claim = some (k, c))
    (hold : ((x u.ring).point t).claim = some (k, c) ∨ ((x u.ring).point t).claim = none ∧
      k = (x u.ring).issued.length ∧ c = u.args.cmd) :
    SubOk cfg (Function.update x u.ring y) t u := by
  have hg := hm.grow hi
  have hlen := hi.mirror_le.trans hi.put_le
  refine ⟨h.base_le.trans (hg.mirror _), fun r => (h.seen_le r).trans (hg.get r), ?_, ?_, h.start,
    fun hk => (h.fence hk).grow hg, h.valid, h.target⟩
  · intro q hq
    obtain ⟨h₁, h₂, h₃⟩ := h.slots q hq
    exact ⟨h₁, h₂.trans_le (hg.mirror _), hg.issued _ _ _ h₃⟩
  · intro k' c' hc
    rw [Function.update_self, hnew] at hc
    obtain ⟨rfl, rfl⟩ : k = k' ∧ c = c' := by simpa using hc
    obtain hc | ⟨-, rfl, rfl⟩ := hold
    · exact h.claim k c hc
    · exact ⟨hp, h.base_le.trans hlen, rfl, fun q hq => (h.slots q hq).2.1.trans_le hlen⟩

theorem SubOk.enqueued {k : ℕ} {c : Cmd} (h : SubOk cfg x t u)
    (hi : Ring.Inv cfg.ring (x u.ring)) (hp : u.point = .enqueue)
    (hk : (x u.ring).point t = .published k c)
    (hm : RingMove cfg t (x u.ring) y) (hidle : y.point t = .idle) :
    SubOk cfg (Function.update x u.ring y) t (u.enqueued cfg y.mirror k) := by
  have hc : ((x u.ring).point t).claim = some (k, c) := by rw [hk, Ring.Point.claim]
  have hpt := hi.points t
  have hlt := hpt.published k c hk
  have hself : Function.update x u.ring y u.ring = y := Function.update_self ..
  have hidle' : ((Function.update x u.ring y u.ring).point t).claim = none := by
    rw [hself, hidle, Ring.Point.claim]
  have hv := h.valid_of (by simp [hp]) (by simp [hp])
  have htook := h.took (hm.grow hi) hc hlt (hpt.claimed k c hc) hidle'
  have hwait : ∀ f, u.args.cmd = .wait f → cfg.valid f.chan := fun f hf =>
    h.target f hf (by simp [hp, Point.issuing])
  unfold Sub.enqueued
  split
  · next hst =>
    have hnew := htook (k + 1) u.off u.issued u.window (.inl rfl)
    exact hnew.goto (p := .unlock .ok) hidle' (by simp) (fun _ => .inl ⟨by simp, .inl hst⟩)
      (.inr (.inr hv)) (by simp [Point.issuing])
  · next hst =>
    split
    · next hcmd =>
      have hnew := htook (k + 1) (u.off + cfg.chunk) u.issued u.window (.inl rfl)
      exact hnew.h2dLoop hidle' hv hwait fun _ => .inl (.inl ⟨by simp, .inr hcmd⟩)
    · next hcmd =>
      have hnew := htook u.fence u.off (u.issued + 1) (u.window ++ [k + 1])
        (.inr ⟨by simpa using hst, hcmd⟩)
      have hloop := hnew.d2hLoop hidle' hv hwait
      rwa [hself] at hloop

theorem doSubmit_entry (hs : doSubmit cfg x t u = some (y, u')) : u'.entry = u.entry := by
  unfold doSubmit at hs
  split at hs
  · simp only [Option.some.injEq, Prod.mk.injEq] at hs
    obtain ⟨-, rfl⟩ := hs
    simp
  · split at hs
    · simp only [Option.some.injEq, Prod.mk.injEq] at hs
      obtain ⟨-, rfl⟩ := hs
      rfl
    · simp only [Option.map_eq_some_iff, Prod.mk.injEq] at hs
      obtain ⟨-, -, -, rfl⟩ := hs
      rfl
  · simp only [Option.some.injEq, Prod.mk.injEq] at hs
    obtain ⟨-, rfl⟩ := hs
    simp
  · simp only [Option.some.injEq, Prod.mk.injEq] at hs
    obtain ⟨-, rfl⟩ := hs
    rfl
  · simp only [Option.map_eq_some_iff, Prod.mk.injEq] at hs
    obtain ⟨-, -, -, rfl⟩ := hs
    split
    · simp
    · rfl
  · simp only [Option.ite_none_right_eq_some, Option.some.injEq, Prod.mk.injEq] at hs
    obtain ⟨-, -, rfl⟩ := hs
    split <;> simp
  · split at hs
    · simp only [Option.some.injEq, Prod.mk.injEq] at hs
      obtain ⟨-, rfl⟩ := hs
      rfl
    · simp only [Option.map_eq_some_iff, Prod.mk.injEq] at hs
      obtain ⟨-, -, -, rfl⟩ := hs
      rfl
  · cases hs

theorem doSubmit_ok (hi : Ring.Inv cfg.ring (x u.ring)) (h : SubOk cfg x t u)
    (hs : doSubmit cfg x t u = some (y, u')) :
    RingMove cfg t (x u.ring) y ∧ SubOk cfg (Function.update x u.ring y) t u' := by
  have hstay : ∀ {v : Sub}, SubOk cfg x t v → RingMove cfg t (x u.ring) (x u.ring) ∧
      SubOk cfg (Function.update x u.ring (x u.ring)) t v :=
    fun hv => ⟨.inl rfl, by rwa [Function.update_eq_self]⟩
  -- Taking and giving back `Producer::lock` moves nobody inside `enqueue`.
  have hlock : ∀ {a : Ring.Action Tid Cmd} {z : Ring.State Tid Cmd} {p : Point},
      a = .acquire t ∨ a = .release t → Ring.step cfg.ring (x u.ring) a = some z →
      SubOk cfg x t (u.goto p) → RingMove cfg t (x u.ring) z ∧
        SubOk cfg (Function.update x u.ring z) t (u.goto p) := by
    intro a z p ha hz hp
    have hmove : RingMove cfg t (x u.ring) z := .inr ⟨a, by obtain rfl | rfl := ha <;> rfl, hz⟩
    refine ⟨hmove, hp.grow (hmove.grow hi) ?_⟩
    simp only [Sub.goto, Function.update_self, lock_point ha hz]
  unfold doSubmit at hs
  split at hs
  · next hp =>
    simp only [Option.some.injEq, Prod.mk.injEq] at hs
    obtain ⟨rfl, rfl⟩ := hs
    exact hstay (h.check hp)
  · next hp =>
    have hgo : SubOk cfg x t (u.goto .dispatch) :=
      h.goto (h.claim_none (by simp [hp])) (fun _ => h.start (.inr (.inl hp))) (by simp)
        (.inr (.inr (h.valid_of (by simp [hp]) (by simp [hp])))) (by simp [Point.issuing])
    split at hs
    · simp only [Option.some.injEq, Prod.mk.injEq] at hs
      obtain ⟨rfl, rfl⟩ := hs
      exact hstay hgo
    · simp only [Option.map_eq_some_iff, Prod.mk.injEq] at hs
      obtain ⟨z, hz, rfl, rfl⟩ := hs
      exact hlock (.inl rfl) hz hgo
  · next hp =>
    simp only [Option.some.injEq, Prod.mk.injEq] at hs
    obtain ⟨rfl, rfl⟩ := hs
    exact hstay (h.dispatch hp)
  · next hp =>
    simp only [Option.some.injEq, Prod.mk.injEq] at hs
    obtain ⟨rfl, rfl⟩ := hs
    have hv := h.valid_of (by simp [hp]) (by simp [hp])
    have htarget : ∀ f, u.args.cmd = .wait f → cfg.valid f.chan := fun f hf =>
      h.target f hf (by simp [hp, Point.issuing])
    refine hstay (h.goto (h.claim_none (by simp [hp])) ?_ ?_ (.inr (.inr hv)) fun f hf _ =>
      htarget f hf)
    all_goals split <;> simp
  · next hp =>
    simp only [Option.map_eq_some_iff, Prod.mk.injEq] at hs
    obtain ⟨z, hz, rfl, rfl⟩ := hs
    have hmove : RingMove cfg t (x u.ring) z := .inr ⟨_, enqueueAction_producer .., hz⟩
    refine ⟨hmove, ?_⟩
    obtain ⟨k, c, hk, hidle⟩ | ⟨hno, k, c, hnew, hold⟩ := enqueue_cases hi hz
    · simp only [hk]
      exact h.enqueued hi hp hk hmove hidle
    · split
      · next k' c' hk' => exact absurd hk' (hno k' c')
      · exact h.claims hi hp hmove hnew hold
  · next f hp =>
    simp only [Option.ite_none_right_eq_some, Option.some.injEq, Prod.mk.injEq] at hs
    obtain ⟨-, rfl, rfl⟩ := hs
    have hclaim := h.claim_none (by simp [hp])
    have hv := h.valid_of (by simp [hp]) (by simp [hp])
    split
    · exact hstay (h.goto hclaim (by simp) (by simp) (.inr (.inr hv)) (by simp [Point.issuing]))
    · exact hstay (h.copiedOut hp hclaim hv)
  · next rc hp =>
    have hv := h.valid_of (by simp [hp]) (by simp [hp])
    have hgo : SubOk cfg x t (u.goto (.done rc)) := by
      refine h.move (h.claim_none (by simp [hp])) rfl rfl (by simp [Sub.goto])
        (.inl ⟨rfl, fun hk => ?_⟩) (.inr (.inr hv)) (by simp [Sub.goto, Point.issuing])
      obtain hk | ⟨hd, he⟩ := hk
      · exact .inl hk
      · obtain rfl : rc = .ok := by simpa [Sub.goto] using hd
        exact .inr ⟨.inl hp, he⟩
    split at hs
    · simp only [Option.some.injEq, Prod.mk.injEq] at hs
      obtain ⟨rfl, rfl⟩ := hs
      exact hstay hgo
    · simp only [Option.map_eq_some_iff, Prod.mk.injEq] at hs
      obtain ⟨z, hz, rfl, rfl⟩ := hs
      exact hlock (.inr rfl) hz hgo
  · cases hs

end Steps

end SoftGpu.Submit
