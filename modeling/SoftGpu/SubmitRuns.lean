import SoftGpu.SubmitInvariant

/-!
# Runs of SUBMITs

`Effect` lists what one step of the machine can do, and `Inv` says what holds in
every reachable state whatever the callers and the device do: every ring keeps
the ring protocol's invariant, only a thread inside a SUBMIT has a claim on a
ring, and the SUBMITs that returned before another one was called took slots
below everything the later one takes.
-/

namespace SoftGpu.Submit

open Machine
open Staging (Chan Fence)

variable {Tid Sid Ev : Type*} [DecidableEq Tid] [DecidableEq Sid] [DecidableEq Ev]
  {cfg : Config Sid} {s s' : State Tid Sid Ev} {t : Tid}

inductive Effect (cfg : Config Sid) (s : State Tid Sid Ev) :
    Action Tid Sid Ev → State Tid Sid Ev → Prop
  | skip (a) : Effect cfg s a s
  | device (r : Chan) (a : Ring.Action Tid Cmd) (y : Ring.State Tid Cmd) : a.producer = none →
      (a = .start → ¬waitBlocked cfg s.ring (head cfg (s.ring r))) →
      Ring.step cfg.ring (s.ring r) a = some y → Effect cfg s (.device r a) (s.setRing r y)
  | submit (t : Tid) (u u' : Sub) (y : Ring.State Tid Cmd) : (s.thread t).sub = some u →
      doSubmit cfg s.ring t u = some (y, u') →
      Effect cfg s (.run t) ((s.setRing u.ring y).goto t ((s.thread t).setSub u'))
  | leave (t : Tid) (u : Sub) (rc : Rc) : (s.thread t).sub = some u → u.point = .done rc →
      Effect cfg s (.run t) ((s.leave u rc).resume cfg t rc (s.thread t))
  | ioctl (t : Tid) (r : Chan) (a : Args) : s.thread t = .idle →
      Effect cfg s (.ioctl t r a) (s.goto t (.ioctl (s.enter r a)))
  | call (t : Tid) (sid : Sid) (a : Args) : s.thread t = .idle → a.cmd.semaphore = false →
      Effect cfg s (.call t sid a) (s.goto t (.lock ⟨sid, cfg.engine sid a.cmd, a, none, []⟩))
  | record (t : Tid) (ev : Ev) (sid : Sid) : s.thread t = .idle →
      Effect cfg s (.record t ev sid) (s.goto t (.lock ⟨sid,
        ((s.stream sid).tail.map (·.chan.1)).getD 0, ⟨.nop, 0, true, false, 0⟩, some ev, []⟩))
  | waitEvent (t : Tid) (sid : Sid) (ev : Ev) (r : Recorded Sid) : s.thread t = .idle →
      s.event ev = some r → Effect cfg s (.waitEvent t sid ev) (s.goto t (.push sid r))
  | synchronize (t : Tid) (sid : Sid) (f : Fence) : s.thread t = .idle →
      (s.stream sid).tail = some f →
      Effect cfg s (.synchronize t sid) (s.goto t (.sync sid (s.stream sid).calls.length f))
  | lock (t : Tid) (c : Call Sid Ev) : s.thread t = .lock c → (s.stream c.stream).mutex = none →
      Effect cfg s (.run t)
        ((s.setStream c.stream { s.stream c.stream with mutex := some t }).goto t
          (.flush c (s.stream c.stream).extraWaits))
  | flushSame (t : Tid) (c : Call Sid Ev) (f : Fence) (rest : List Fence) :
      s.thread t = .flush c (f :: rest) → f.chan = c.ring cfg →
      Effect cfg s (.run t) (s.goto t (.flush c rest))
  | flushWait (t : Tid) (c : Call Sid Ev) (f : Fence) (rest : List Fence) :
      s.thread t = .flush c (f :: rest) → f.chan ≠ c.ring cfg →
      Effect cfg s (.run t) (s.goto t (.flushing c f rest (s.enterWait cfg c f)))
  | clear (t : Tid) (c : Call Sid Ev) : s.thread t = .flush c [] →
      Effect cfg s (.run t)
        ((s.setStream c.stream { s.stream c.stream with extraWaits := [] }).goto t
          (.tail { c with flushed := (s.stream c.stream).extraWaits }))
  | tailSkip (t : Tid) (c : Call Sid Ev) : s.thread t = .tail c →
      (∀ f, (s.stream c.stream).tail = some f → f.chan = c.ring cfg) →
      Effect cfg s (.run t) (s.goto t (.main c (s.enterMain cfg c)))
  | tailWait (t : Tid) (c : Call Sid Ev) (f : Fence) : s.thread t = .tail c →
      (s.stream c.stream).tail = some f → f.chan ≠ c.ring cfg →
      Effect cfg s (.run t) (s.goto t (.tailing c (s.enterWait cfg c f)))
  | stamp (t : Tid) (ev : Ev) (r : Recorded Sid) : s.thread t = .stamp ev r →
      Effect cfg s (.run t)
        (State.goto { s with event := Function.update s.event ev (some r) } t .idle)
  | push (t : Tid) (sid : Sid) (r : Recorded Sid) : s.thread t = .push sid r →
      (s.stream sid).mutex = none →
      Effect cfg s (.run t) ((s.setStream sid { s.stream sid with
        extraWaits := (s.stream sid).extraWaits ++ [r.fence]
        waits := (s.stream sid).waits ++ [⟨(s.stream sid).calls.length, r⟩] }).goto t .idle)
  | synced (t : Tid) (sid : Sid) (n : ℕ) (f : Fence) : s.thread t = .sync sid n f →
      f.value ≤ (s.ring f.chan).get → Effect cfg s (.run t) (s.goto t .idle)

theorem runtimeStep_cases (hs : runtimeStep cfg s t (s.thread t) = some s') :
    Effect cfg s (.run t) s' := by
  generalize hth : s.thread t = th at hs
  unfold runtimeStep at hs
  split at hs
  · next c =>
    simp only [Option.ite_none_right_eq_some, Option.some.injEq] at hs
    obtain ⟨hm, rfl⟩ := hs
    exact .lock t c hth hm
  · next c f rest =>
    split_ifs at hs with hf
    · obtain rfl := Option.some.inj hs
      exact .flushSame t c f rest hth hf
    · obtain rfl := Option.some.inj hs
      exact .flushWait t c f rest hth hf
  · next c =>
    obtain rfl := Option.some.inj hs
    exact .clear t c hth
  · next c =>
    split at hs
    · next htail =>
      obtain rfl := Option.some.inj hs
      exact .tailSkip t c hth (by simp [htail])
    · next f htail =>
      split_ifs at hs with hf
      · obtain rfl := Option.some.inj hs
        exact .tailSkip t c hth (by simp [htail, hf])
      · obtain rfl := Option.some.inj hs
        exact .tailWait t c f hth htail hf
  · next ev r =>
    obtain rfl := Option.some.inj hs
    exact .stamp t ev r hth
  · next sid r =>
    simp only [Option.ite_none_right_eq_some, Option.some.injEq] at hs
    obtain ⟨hm, rfl⟩ := hs
    exact .push t sid r hth hm
  · next sid n f =>
    simp only [Option.ite_none_right_eq_some, Option.some.injEq] at hs
    obtain ⟨hf, rfl⟩ := hs
    exact .synced t sid n f hth hf
  · cases hs

theorem threadStep_cases (hs : threadStep cfg s t = some s') : Effect cfg s (.run t) s' := by
  unfold threadStep at hs
  split at hs
  · exact runtimeStep_cases hs
  · next u hu =>
    split at hs
    · next rc hp =>
      obtain rfl := Option.some.inj hs
      exact .leave t u rc hu hp
    · simp only [Option.map_eq_some_iff] at hs
      obtain ⟨⟨y, u'⟩, hd, rfl⟩ := hs
      exact .submit t u u' y hu hd

theorem step_cases {a : Action Tid Sid Ev} (hs : step cfg s a = some s') : Effect cfg s a s' := by
  cases a with
  | ioctl t r a =>
    simp only [step] at hs
    split at hs
    · next hth =>
      obtain rfl := Option.some.inj hs
      exact .ioctl t r a hth
    · cases hs
  | call t sid a =>
    simp only [step] at hs
    split at hs
    · next hth =>
      simp only [Option.ite_none_right_eq_some, Option.some.injEq] at hs
      obtain ⟨ha, rfl⟩ := hs
      exact .call t sid a hth ha
    · cases hs
  | record t ev sid =>
    simp only [step] at hs
    split at hs
    · next hth =>
      simp only [Option.ite_none_right_eq_some, Option.some.injEq] at hs
      obtain ⟨-, rfl⟩ := hs
      exact .record t ev sid hth
    · cases hs
  | waitEvent t sid ev =>
    simp only [step] at hs
    split at hs
    · next hth =>
      split at hs
      · obtain rfl := Option.some.inj hs
        exact .skip _
      · next r hr =>
        obtain rfl := Option.some.inj hs
        exact .waitEvent t sid ev r hth hr
    · cases hs
  | synchronize t sid =>
    simp only [step] at hs
    split at hs
    · next hth =>
      split_ifs at hs
      split at hs
      · obtain rfl := Option.some.inj hs
        exact .skip _
      · next f hf =>
        obtain rfl := Option.some.inj hs
        exact .synchronize t sid f hth hf
    · cases hs
  | run t => exact threadStep_cases hs
  | device r a =>
    simp only [step, deviceStep, Option.ite_none_right_eq_some, Option.map_eq_some_iff] at hs
    obtain ⟨⟨ha, hb⟩, y, hy, rfl⟩ := hs
    exact .device r a y ha hb hy

omit [DecidableEq Ev] in
/-- After a SUBMIT returned, the thread is outside `do_submit` or calls the next
SUBMIT; nothing else that SUBMITs depend on moves. -/
theorem resume_frame (cfg : Config Sid) (s : State Tid Sid Ev) (t : Tid) (rc : Rc)
    (th : Thread Sid Ev) : (s.resume cfg t rc th).ring = s.ring ∧
      (s.resume cfg t rc th).submits = s.submits ∧
      (∀ v ≠ t, (s.resume cfg t rc th).thread v = s.thread v) ∧
      (((s.resume cfg t rc th).thread t).sub = none ∨
        ∃ r a, ((s.resume cfg t rc th).thread t).sub = some (s.enter r a)) := by
  have hidle : ∀ (q : State Tid Sid Ev), (∀ v, q.thread v = s.thread v) →
      ∀ v ≠ t, (q.goto t .idle).thread v = s.thread v := by
    intro q hq v hv
    rw [State.goto_thread_of_ne _ _ _ hv, hq]
  unfold State.resume
  split
  · split
    · exact ⟨rfl, rfl, fun v hv => by simp [hv], .inl (by simp [Thread.sub])⟩
    · exact ⟨rfl, rfl, hidle _ fun _ => rfl, .inl (by simp [Thread.sub])⟩
  · split
    · exact ⟨rfl, rfl, fun v hv => by simp [hv], .inr ⟨_, _, by simp [Thread.sub]; rfl⟩⟩
    · exact ⟨rfl, rfl, hidle _ fun _ => rfl, .inl (by simp [State.abandon, Thread.sub])⟩
  · split
    · refine ⟨rfl, rfl, fun v hv => ?_, .inl ?_⟩
      · simp [State.accept, hv]
      · simp only [State.accept, State.goto_thread]
        split <;> rfl
    · exact ⟨rfl, rfl, hidle _ fun _ => rfl, .inl (by simp [State.abandon, Thread.sub])⟩
  · exact ⟨rfl, rfl, fun v hv => by simp [hv], .inl (by simp [Thread.sub])⟩

/-! ### The invariant -/

def Ordered (l : List (Sub × Rc)) (u : Sub) : Prop :=
  ∀ j v rc, j < u.before → l[j]? = some (v, rc) → v.ring = u.ring → ∀ q ∈ v.slots, q < u.base

structure Returned (cfg : Config Sid) (x : Rings Tid) (u : Sub) (rc : Rc) : Prop where
  seen_le : ∀ r, u.seen r ≤ (x r).get
  slots : ∀ q ∈ u.slots, u.base ≤ q ∧ q < (x u.ring).mirror ∧
    (x u.ring).issued[q]? = some u.args.cmd
  fenced : rc = .ok → u.args.emptyH2D = false → u.Fenced x
  valid : rc = .ok → cfg.valid u.ring

structure Inv (cfg : Config Sid) (s : State Tid Sid Ev) : Prop where
  rings : ∀ r, Ring.Inv cfg.ring (s.ring r)
  claims : ∀ t r, ((s.ring r).point t).claim ≠ none → ∃ u, (s.thread t).sub = some u ∧ u.ring = r
  subs : ∀ t u, (s.thread t).sub = some u → SubOk cfg s.ring t u
  targets : ∀ (r : Chan) (q : ℕ) (f : Fence), (s.ring r).issued[q]? = some (.wait f) →
    cfg.valid f.chan
  ordered : ∀ t u, (s.thread t).sub = some u → u.before ≤ s.submits.length ∧ Ordered s.submits u
  returned : ∀ (i : ℕ) (u : Sub) (rc : Rc), s.submits[i]? = some (u, rc) →
    Returned cfg s.ring u rc ∧ u.before ≤ i ∧ Ordered s.submits u

omit [DecidableEq Tid] [DecidableEq Sid] in
theorem Returned.grow {x x' : Rings Tid} {u : Sub} {rc : Rc} (h : Returned cfg x u rc)
    (hg : Grow x x') : Returned cfg x' u rc where
  seen_le := fun r => (h.seen_le r).trans (hg.get r)
  slots := fun q hq => ⟨(h.slots q hq).1, (h.slots q hq).2.1.trans_le (hg.mirror _),
    hg.issued _ _ _ (h.slots q hq).2.2⟩
  fenced := fun hrc he => (h.fenced hrc he).grow hg
  valid := h.valid

omit [DecidableEq Tid] [DecidableEq Sid] [DecidableEq Ev] in
theorem init_inv (cfg : Config Sid) : Inv cfg (init : State Tid Sid Ev) where
  rings := fun _ => Ring.inv_init _
  claims := by simp [init, Ring.init, Ring.Point.claim]
  subs := by simp [init, Thread.sub]
  targets := by simp [init, Ring.init]
  ordered := by simp [init, Thread.sub]
  returned := by simp [init]

namespace Inv

omit [DecidableEq Sid] [DecidableEq Ev] in
theorem device (h : Inv cfg s) {r : Chan} {a : Ring.Action Tid Cmd} {y : Ring.State Tid Cmd}
    (ha : a.producer = none) (hs : Ring.step cfg.ring (s.ring r) a = some y) :
    Inv cfg (s.setRing r y) := by
  have hd := Ring.device_effect ha hs
  have hg : Grow s.ring (s.setRing r y).ring := .update (Ring.step_effect (h.rings r) hs)
  have hpoint : ∀ q v, ((s.setRing r y).ring q).point v = (s.ring q).point v := by
    intro q v
    by_cases hq : q = r
    · subst hq
      simp [hd.point]
    · simp [hq]
  constructor
  · intro q
    by_cases hq : q = r
    · subst hq
      simpa using Ring.step_inv (h.rings q) hs
    · simpa [hq] using h.rings q
  · intro v q hc
    rw [hpoint] at hc
    exact h.claims v q hc
  · intro v u hu
    exact (h.subs v u hu).grow hg (hpoint _ _)
  · intro q k f hf
    by_cases hq : q = r
    · subst hq
      rw [State.setRing_ring, hd.issued] at hf
      exact h.targets q k f hf
    · rw [State.setRing_ring_of_ne _ _ hq] at hf
      exact h.targets q k f hf
  · exact h.ordered
  · intro i u rc hu
    obtain ⟨h₁, h₂, h₃⟩ := h.returned i u rc hu
    exact ⟨h₁.grow hg, h₂, h₃⟩

omit [DecidableEq Sid] [DecidableEq Ev] in
theorem setSub_sub {th : Thread Sid Ev} {u : Sub} (u' : Sub) (h : th.sub = some u) :
    (th.setSub u').sub = some u' := by
  cases th <;> simp_all [Thread.sub, Thread.setSub]

omit [DecidableEq Sid] [DecidableEq Ev] in
theorem submit (h : Inv cfg s) {u u' : Sub} {y : Ring.State Tid Cmd}
    (hu : (s.thread t).sub = some u) (hd : doSubmit cfg s.ring t u = some (y, u')) :
    Inv cfg ((s.setRing u.ring y).goto t ((s.thread t).setSub u')) := by
  obtain ⟨hmove, hok⟩ := doSubmit_ok (h.rings _) (h.subs t u hu) hd
  have hentry := doSubmit_entry hd
  simp only [Sub.entry, Prod.mk.injEq] at hentry
  obtain ⟨hring, hargs, hbase, hbefore, -⟩ := hentry
  have hg := hmove.grow (h.rings u.ring)
  have hsub := setSub_sub u' hu
  have hpoint : ∀ v ≠ t, ∀ q, (Function.update s.ring u.ring y q).point v = (s.ring q).point v := by
    intro v hv q
    by_cases hq : q = u.ring
    · subst hq
      simp [hmove.effect.point v hv]
    · simp [hq]
  constructor
  · intro q
    by_cases hq : q = u.ring
    · subst hq
      simpa using hmove.inv (h.rings _)
    · simpa [hq] using h.rings q
  · intro v q hc
    by_cases hv : v = t
    · subst hv
      refine ⟨u', by simpa using hsub, ?_⟩
      by_cases hq : q = u.ring
      · exact hring.trans hq.symm
      · rw [State.goto_ring, State.setRing_ring_of_ne _ _ hq] at hc
        obtain ⟨w, hw, rfl⟩ := h.claims v q hc
        obtain rfl := Option.some.inj (hw.symm.trans hu)
        exact hring
    · rw [State.goto_ring, State.setRing] at hc
      dsimp only at hc
      rw [hpoint v hv] at hc
      simpa [hv] using h.claims v q hc
  · intro v w hw
    by_cases hv : v = t
    · subst hv
      obtain rfl : u' = w := by simpa [hsub] using hw
      exact hok
    · have hw' : (s.thread v).sub = some w := by simpa [hv] using hw
      exact (h.subs v w hw').grow hg (hpoint v hv _)
  · intro q k f hf
    by_cases hq : q = u.ring
    · subst hq
      rw [State.goto_ring, State.setRing_ring] at hf
      obtain rfl | ⟨a, ha, hstep⟩ := hmove
      · exact h.targets _ k f hf
      · obtain hi | ⟨v, c, rfl, -, hp, hi⟩ := (Ring.step_effect (h.rings _) hstep).issued
        · rw [hi] at hf
          exact h.targets _ k f hf
        · obtain rfl : v = t := by simpa [Ring.Action.producer] using ha
          -- The claim is the SUBMIT's own command.
          have hclaim := hok.claim (s.ring u.ring).issued.length c
            (by rw [hring, Function.update_self, hp, Ring.Point.claim])
          rw [hi] at hf
          by_cases hk : k = (s.ring u.ring).issued.length
          · have hcf : c = .wait f := by simpa [hk] using hf
            exact hok.target f (by rw [← hclaim.2.2.1, hcf]) (by simp [hclaim.1, Point.issuing])
          · have hlt := (List.getElem?_eq_some_iff.mp hf).1
            simp only [List.length_append, List.length_singleton] at hlt
            rw [List.getElem?_append_left (by omega)] at hf
            exact h.targets _ k f hf
    · rw [State.goto_ring, State.setRing_ring_of_ne _ _ hq] at hf
      exact h.targets q k f hf
  · intro v w hw
    by_cases hv : v = t
    · subst hv
      obtain rfl : u' = w := by simpa [hsub] using hw
      have hord := h.ordered v u hu
      simp only [Ordered, hring, hbase, hbefore]
      exact hord
    · exact h.ordered v w (by simpa [hv] using hw)
  · intro i w rc hw
    obtain ⟨h₁, h₂, h₃⟩ := h.returned i w rc hw
    exact ⟨h₁.grow hg, h₂, h₃⟩

omit [DecidableEq Tid] [DecidableEq Sid] [DecidableEq Ev] in
theorem claim_none (h : Inv cfg s) (hp : ∀ u, (s.thread t).sub = some u → u.point ≠ .enqueue)
    (r : Chan) : ((s.ring r).point t).claim = none := by
  by_contra hc
  obtain ⟨u, hu, rfl⟩ := h.claims t r hc
  exact hc ((h.subs t u hu).claim_none (hp u hu))

omit [DecidableEq Sid] [DecidableEq Ev] in
theorem reenter (h : Inv cfg s) (hring : s'.ring = s.ring)
    (hthread : ∀ v ≠ t, s'.thread v = s.thread v)
    (hp : ∀ u, (s.thread t).sub = some u → u.point ≠ .enqueue)
    (hlen : s.submits.length ≤ s'.submits.length)
    (hold : ∀ i < s.submits.length, s'.submits[i]? = s.submits[i]?)
    (hret : ∀ (i : ℕ) (u : Sub) (rc : Rc), s.submits.length ≤ i → s'.submits[i]? = some (u, rc) →
      Returned cfg s.ring u rc ∧ u.before ≤ s.submits.length ∧ Ordered s.submits u)
    (hsub : (s'.thread t).sub = none ∨ ∃ r a, (s'.thread t).sub = some (s'.enter r a)) :
    Inv cfg s' := by
  have hkeep : ∀ u : Sub, u.before ≤ s.submits.length → Ordered s.submits u →
      Ordered s'.submits u := by
    intro u hu ho j v rc hj hv
    rw [hold j (by omega)] at hv
    exact ho j v rc hj hv
  have hreturned : ∀ (i : ℕ) (u : Sub) (rc : Rc), s'.submits[i]? = some (u, rc) →
      Returned cfg s.ring u rc ∧ u.before ≤ i ∧ Ordered s'.submits u := by
    intro i u rc hu
    by_cases hi : i < s.submits.length
    · rw [hold i hi] at hu
      obtain ⟨h₁, h₂, h₃⟩ := h.returned i u rc hu
      exact ⟨h₁, h₂, hkeep u (by omega) h₃⟩
    · obtain ⟨h₁, h₂, h₃⟩ := hret i u rc (by omega) hu
      exact ⟨h₁, by omega, hkeep u h₂ h₃⟩
  have hclaim := h.claim_none hp
  constructor
  · rw [hring]
    exact h.rings
  · intro v r hc
    rw [hring] at hc
    by_cases hv : v = t
    · subst hv
      exact absurd (hclaim r) hc
    · rw [hthread v hv]
      exact h.claims v r hc
  · intro v u hu
    rw [hring]
    by_cases hv : v = t
    · subst hv
      obtain hnone | ⟨r, a, henter⟩ := hsub
      · rw [hnone] at hu
        cases hu
      · obtain rfl := Option.some.inj (henter.symm.trans hu)
        simp only [State.enter, hring]
        constructor <;> simp [hclaim, Sub.Known, Point.issuing]
    · rw [hthread v hv] at hu
      exact h.subs v u hu
  · rw [hring]
    exact h.targets
  · intro v u hu
    by_cases hv : v = t
    · subst hv
      obtain hnone | ⟨r, a, henter⟩ := hsub
      · rw [hnone] at hu
        cases hu
      · obtain rfl := Option.some.inj (henter.symm.trans hu)
        refine ⟨le_rfl, fun j w rc _ hw hr q hq => ?_⟩
        have hlt := ((hreturned j w rc hw).1.slots q hq).2.1
        rw [hr] at hlt
        simpa [State.enter, hring] using hlt
    · rw [hthread v hv] at hu
      obtain ⟨h₁, h₂⟩ := h.ordered v u hu
      exact ⟨h₁.trans hlen, hkeep u h₁ h₂⟩
  · rw [hring]
    exact hreturned

omit [DecidableEq Ev] in
theorem leave (h : Inv cfg s) {u : Sub} {rc : Rc} (hu : (s.thread t).sub = some u)
    (hp : u.point = .done rc) : Inv cfg ((s.leave u rc).resume cfg t rc (s.thread t)) := by
  obtain ⟨hring, hsubmits, hthread, hsub⟩ := resume_frame cfg (s.leave u rc) t rc (s.thread t)
  have hok := h.subs t u hu
  have hret : Returned cfg s.ring u rc := by
    refine ⟨hok.seen_le, hok.slots, fun hrc he => hok.fence (.inr ⟨.inr (hrc ▸ hp), he⟩), ?_⟩
    intro hrc
    obtain hc | ⟨rc', hne, hp'⟩ | hv := hok.valid
    · simp [hp] at hc
    · simp_all
    · exact hv
  refine h.reenter (t := t) hring hthread ?_ ?_ ?_ ?_ ?_
  · intro v hv
    obtain rfl := Option.some.inj (hv.symm.trans hu)
    simp [hp]
  · rw [hsubmits]
    simp [State.leave]
  · intro i hi
    rw [hsubmits, State.leave, List.getElem?_append_left hi]
  · intro i v rc' hi hv
    rw [hsubmits, State.leave, List.getElem?_append_right hi] at hv
    obtain ⟨-, rfl, rfl⟩ : i - s.submits.length = 0 ∧ u = v ∧ rc = rc' := by
      cases hd : i - s.submits.length with
      | zero => simpa [hd] using hv
      | succ n => simp [hd] at hv
    exact ⟨hret, h.ordered t u hu⟩
  · obtain hnone | ⟨r, a, henter⟩ := hsub
    · exact .inl hnone
    · refine .inr ⟨r, a, henter.trans ?_⟩
      simp only [State.enter, hring, hsubmits]

omit [DecidableEq Sid] [DecidableEq Ev] in
theorem quiet (h : Inv cfg s) (hring : s'.ring = s.ring) (hsubmits : s'.submits = s.submits)
    (hthread : ∀ v ≠ t, s'.thread v = s.thread v) (hold : (s.thread t).sub = none)
    (hsub : (s'.thread t).sub = none ∨ ∃ r a, (s'.thread t).sub = some (s'.enter r a)) :
    Inv cfg s' := by
  refine h.reenter (t := t) hring hthread ?_ ?_ ?_ ?_ hsub
  · simp [hold]
  · rw [hsubmits]
  · simp [hsubmits]
  · intro i u rc hi hu
    rw [hsubmits, List.getElem?_eq_none hi] at hu
    cases hu

end Inv

theorem step_inv {a : Action Tid Sid Ev} (h : Inv cfg s) (hs : step cfg s a = some s') :
    Inv cfg s' := by
  have hne : ∀ (q : State Tid Sid Ev) (t : Tid) (th : Thread Sid Ev), q.thread = s.thread →
      ∀ v ≠ t, (q.goto t th).thread v = s.thread v := by
    intro q t th hq v hv
    rw [State.goto_thread_of_ne _ _ _ hv, hq]
  cases step_cases hs with
  | skip => exact h
  | device r a y ha hb hy => exact h.device ha hy
  | submit t u u' y hu hd => exact h.submit hu hd
  | leave t u rc hu hp => exact h.leave hu hp
  | ioctl t r a hth =>
    exact h.quiet rfl rfl (hne _ t _ rfl) (by simp [hth, Thread.sub])
      (.inr ⟨r, a, by simp [Thread.sub]; rfl⟩)
  | call t sid a hth _ =>
    exact h.quiet rfl rfl (hne _ t _ rfl) (by simp [hth, Thread.sub]) (.inl (by simp [Thread.sub]))
  | record t ev sid hth =>
    exact h.quiet rfl rfl (hne _ t _ rfl) (by simp [hth, Thread.sub]) (.inl (by simp [Thread.sub]))
  | waitEvent t sid ev r hth _ =>
    exact h.quiet rfl rfl (hne _ t _ rfl) (by simp [hth, Thread.sub]) (.inl (by simp [Thread.sub]))
  | synchronize t sid f hth _ =>
    exact h.quiet rfl rfl (hne _ t _ rfl) (by simp [hth, Thread.sub]) (.inl (by simp [Thread.sub]))
  | lock t c hth _ =>
    exact h.quiet rfl rfl (hne _ t _ rfl) (by simp [hth, Thread.sub]) (.inl (by simp [Thread.sub]))
  | flushSame t c f rest hth _ =>
    exact h.quiet rfl rfl (hne _ t _ rfl) (by simp [hth, Thread.sub]) (.inl (by simp [Thread.sub]))
  | flushWait t c f rest hth _ =>
    exact h.quiet rfl rfl (hne _ t _ rfl) (by simp [hth, Thread.sub])
      (.inr ⟨_, _, by simp [Thread.sub]; rfl⟩)
  | clear t c hth =>
    exact h.quiet rfl rfl (hne _ t _ rfl) (by simp [hth, Thread.sub]) (.inl (by simp [Thread.sub]))
  | tailSkip t c hth _ =>
    exact h.quiet rfl rfl (hne _ t _ rfl) (by simp [hth, Thread.sub])
      (.inr ⟨_, _, by simp [Thread.sub]; rfl⟩)
  | tailWait t c f hth _ _ =>
    exact h.quiet rfl rfl (hne _ t _ rfl) (by simp [hth, Thread.sub])
      (.inr ⟨_, _, by simp [Thread.sub]; rfl⟩)
  | stamp t ev r hth =>
    exact h.quiet rfl rfl (hne _ t _ rfl) (by simp [hth, Thread.sub]) (.inl (by simp [Thread.sub]))
  | push t sid r hth _ =>
    exact h.quiet rfl rfl (hne _ t _ rfl) (by simp [hth, Thread.sub]) (.inl (by simp [Thread.sub]))
  | synced t sid n f hth _ =>
    exact h.quiet rfl rfl (hne _ t _ rfl) (by simp [hth, Thread.sub]) (.inl (by simp [Thread.sub]))

theorem reach_inv {ok : State Tid Sid Ev → Action Tid Sid Ev → Prop}
    (h : Reach (step cfg) ok init s) : Inv cfg s :=
  h.invariant (init_inv cfg) fun _ _ _ hi _ hs => step_inv hi hs

end SoftGpu.Submit
