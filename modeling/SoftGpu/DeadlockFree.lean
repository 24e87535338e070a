import SoftGpu.StreamOrder
import SoftGpu.WaitGraph

/-!
# WAIT_FENCE cannot deadlock the device

The driver accepts a `WAIT_FENCE` only for a fence that is published, and the
wait's own slot is published after that. The order of the PUT stores therefore
ranks the slots of all rings along every wait, and some ring's head is always
ready.
-/

namespace SoftGpu.Ring

variable {Tid Cmd : Type*} [DecidableEq Tid] {cfg : Config Cmd} {s s' : State Tid Cmd}
  {a : Action Tid Cmd}

theorem step_put (h : Inv cfg s) (hs : step cfg s a = some s') :
    s'.put = s.put ∨ s'.put = s.put + 1 := by
  obtain ⟨t, ht, hp⟩ | he | hf := step_cases hs
  · cases a with
    | ring =>
      simp only [producerStep] at hp
      split at hp
      · next k c hk =>
        obtain rfl := Option.some.inj hp
        right
        have hclaim : (s.point t).claim = some (k, c) := by simp [hk, Point.claim]
        have hput := h.put_le_claim (by simp [hk, Point.early]) hclaim (by simp [hk])
        have hmirror := (h.points t).turn k c (.inl hk)
        have hle := h.mirror_le
        simp only
        omega
      · cases hp
    | acquire =>
      simp only [producerStep, Option.ite_none_right_eq_some, Option.some.injEq] at hp
      obtain ⟨-, rfl⟩ := hp
      exact .inl rfl
    | release =>
      simp only [producerStep] at hp
      split at hp <;> simp only [Option.ite_none_right_eq_some, Option.some.injEq,
        reduceCtorEq] at hp
      obtain ⟨-, rfl⟩ := hp
      exact .inl rfl
    | reserve u cmd =>
      simp only [producerStep, State.claim] at hp
      split at hp <;> try simp only [reduceCtorEq] at hp
      split at hp
      · obtain rfl := Option.some.inj hp
        exact .inl rfl
      · split_ifs at hp
        obtain rfl := Option.some.inj hp
        exact .inl rfl
    | test | unstall | await =>
      simp only [producerStep] at hp
      split at hp <;> try simp only [reduceCtorEq] at hp
      split_ifs at hp <;> obtain rfl := Option.some.inj hp <;> exact .inl rfl
    | write | hand | ret =>
      simp only [producerStep] at hp
      split at hp <;> simp only [Option.some.injEq, reduceCtorEq] at hp
      subst hp
      exact .inl rfl
    | _ => simp [producerStep] at hp
  · exact .inl (engineStep_effect he).put
  · exact .inl (faultStep_effect hf).put

end SoftGpu.Ring

namespace SoftGpu.Submit

open Machine WaitGraph
open Staging (Chan Fence)

variable {Tid Sid Ev : Type*} [DecidableEq Tid] [DecidableEq Sid] [DecidableEq Ev]
  {cfg : Config Sid} {s s' : State Tid Sid Ev} {t : Tid}

def putOf (x : Rings Tid) (r : Chan) : ℕ := (x r).put

def waitsOn (x : Rings Tid) (r : Chan) (q : ℕ) (p : Chan) (v : ℕ) : Prop :=
  (x r).issued[q]? = some (.wait ⟨p, v⟩)

def Sub.TargetPublished (x : Rings Tid) (u : Sub) : Prop :=
  ∀ f, u.args.cmd = .wait f → u.point.issuing = true → Published x f

omit [DecidableEq Sid] in
theorem doSubmit_targetPublished {x : Rings Tid} {u u' : Sub} {y : Ring.State Tid Cmd}
    (h : u.TargetPublished x) (hs : doSubmit cfg x t u = some (y, u')) :
    u'.TargetPublished x := by
  have hentry := doSubmit_entry hs
  simp only [Sub.entry, Prod.mk.injEq] at hentry
  intro f hf hissuing
  rw [hentry.2.1] at hf
  by_cases hold : u.point.issuing = true
  · exact h f hf hold
  unfold doSubmit at hs
  split at hs
  · simp only [Option.some.injEq, Prod.mk.injEq] at hs
    obtain ⟨-, rfl⟩ := hs
    unfold Sub.check at hissuing
    split_ifs at hissuing <;> simp [Sub.goto, Point.issuing] at hissuing
  · split at hs
    · simp only [Option.some.injEq, Prod.mk.injEq] at hs
      obtain ⟨-, rfl⟩ := hs
      simp [Sub.goto, Point.issuing] at hissuing
    · simp only [Option.map_eq_some_iff, Prod.mk.injEq] at hs
      obtain ⟨-, -, -, rfl⟩ := hs
      simp [Sub.goto, Point.issuing] at hissuing
  · simp only [Option.some.injEq, Prod.mk.injEq] at hs
    obtain ⟨-, rfl⟩ := hs
    simp only [Sub.dispatch, hf] at hissuing
    split_ifs at hissuing with hv
    · exact hv.2
    · simp [Sub.goto, Point.issuing] at hissuing
  · next hp => simp [hp, Point.issuing] at hold
  · next hp => simp [hp, Point.issuing] at hold
  · next g hp => simp [hp, Point.issuing] at hold
  · split at hs
    · simp only [Option.some.injEq, Prod.mk.injEq] at hs
      obtain ⟨-, rfl⟩ := hs
      simp [Sub.goto, Point.issuing] at hissuing
    · simp only [Option.map_eq_some_iff, Prod.mk.injEq] at hs
      obtain ⟨-, -, -, rfl⟩ := hs
      simp [Sub.goto, Point.issuing] at hissuing
  · cases hs

structure WaitOrder (s : State Tid Sid Ev) : Prop where
  subs : ∀ t u, (s.thread t).sub = some u → u.TargetPublished s.ring
  issued : ∀ (r : Chan) (q : ℕ) (f : Fence), (s.ring r).issued[q]? = some (.wait f) →
    Published s.ring f ∧ (f.chan = r → f.value ≤ q)
  ranked : Ranked (putOf s.ring) (waitsOn s.ring)

omit [DecidableEq Tid] [DecidableEq Sid] [DecidableEq Ev] in
theorem init_waitOrder : WaitOrder (init : State Tid Sid Ev) where
  subs := by simp [init, Thread.sub]
  issued := by simp [init, Ring.init]
  ranked := ranked_empty fun _ => rfl

namespace WaitOrder

omit [DecidableEq Tid] [DecidableEq Sid] [DecidableEq Ev] in
theorem frame (h : WaitOrder s) (hring : s'.ring = s.ring)
    (hsubs : ∀ t u, (s'.thread t).sub = some u → u.TargetPublished s.ring) : WaitOrder s' := by
  constructor
  · rw [hring]
    exact hsubs
  · rw [hring]
    exact h.issued
  · rw [hring]
    exact h.ranked

omit [DecidableEq Sid] [DecidableEq Ev] in
theorem quiet (h : WaitOrder s) (hring : s'.ring = s.ring)
    (hthread : ∀ v ≠ t, s'.thread v = s.thread v)
    (hsub : (s'.thread t).sub = none ∨
      ∃ (q : State Tid Sid Ev) (r : Chan) (a : Args), (s'.thread t).sub = some (q.enter r a)) :
    WaitOrder s' := by
  refine h.frame hring fun v u hu => ?_
  by_cases hv : v = t
  · subst hv
    obtain hnone | ⟨q, r, a, henter⟩ := hsub
    · rw [hnone] at hu
      cases hu
    · rw [henter] at hu
      obtain rfl := Option.some.inj hu
      intro f _ hpoint
      cases hpoint
  · rw [hthread v hv] at hu
    exact h.subs v u hu

omit [DecidableEq Sid] [DecidableEq Ev] in
theorem goto (h : WaitOrder s) {th : Thread Sid Ev} (hring : s'.ring = s.ring)
    (hthread : s'.thread = s.thread)
    (hsub : th.sub = none ∨ ∃ (q : State Tid Sid Ev) (r : Chan) (a : Args),
      th.sub = some (q.enter r a)) : WaitOrder (s'.goto t th) := by
  refine h.quiet (t := t) hring (fun v hv => ?_) ?_
  · rw [State.goto_thread_of_ne _ _ _ hv, hthread]
  · rwa [State.goto_thread]

omit [DecidableEq Sid] [DecidableEq Ev] in
theorem move (h : WaitOrder s) (hi : Inv cfg s) {r : Chan} {a : Ring.Action Tid Cmd}
    {y : Ring.State Tid Cmd} (hy : Ring.step cfg.ring (s.ring r) a = some y)
    (hnew : ∀ f, y.issued = (s.ring r).issued ++ [.wait f] → Published s.ring f)
    (hsubs : ∀ t u, (s'.thread t).sub = some u → u.TargetPublished s.ring)
    (hring : s'.ring = Function.update s.ring r y) : WaitOrder s' := by
  have hr := hi.rings r
  have heff := Ring.step_effect hr hy
  have hg : Grow s.ring s'.ring := by
    rw [hring]
    exact .update heff
  have hmirror : ∀ f : Fence, Published s.ring f → f.value ≤ (s.ring f.chan).put :=
    fun f hf => hf.trans (hi.rings f.chan).mirror_le
  have hissued : ∀ (p : Chan) (q : ℕ) (f : Fence), (s'.ring p).issued[q]? = some (.wait f) →
      Published s.ring f ∧ (f.chan = p → f.value ≤ q) := by
    intro p q f hf
    by_cases hp : p = r
    · subst hp
      rw [hring, Function.update_self] at hf
      obtain he | ⟨v, c, -, -, -, he⟩ := heff.issued
      · rw [he] at hf
        exact h.issued p q f hf
      · rw [he] at hf
        by_cases hq : q = (s.ring p).issued.length
        · obtain rfl : c = .wait f := by simpa [hq] using hf
          have hpub := hnew f he
          refine ⟨hpub, fun hc => ?_⟩
          rw [hq, ← hc]
          exact (hmirror f hpub).trans (hi.rings _).put_le
        · have hlt := (List.getElem?_eq_some_iff.mp hf).1
          simp only [List.length_append, List.length_singleton] at hlt
          rw [List.getElem?_append_left (by omega)] at hf
          exact h.issued p q f hf
    · rw [hring, Function.update_of_ne hp] at hf
      exact h.issued p q f hf
  constructor
  · intro v u hu f hf hpoint
    exact (hsubs v u hu f hf hpoint).grow hg
  · intro p q f hf
    exact ⟨(hissued p q f hf).1.grow hg, (hissued p q f hf).2⟩
  · -- The waits in published slots are the old ones.
    have hkeep : Ranked (putOf s.ring) (waitsOn s'.ring) := by
      refine h.ranked.keep fun p q a v hlt hv => ?_
      have hlen : q < (s.ring p).issued.length := hlt.trans_le (hi.rings p).put_le
      have hold := hg.issued p q _ (List.getElem?_eq_getElem hlen)
      rw [waitsOn, hold] at hv
      rw [waitsOn, List.getElem?_eq_getElem hlen]
      exact hv
    have hput : ∀ p, p ≠ r → putOf s'.ring p = putOf s.ring p := by
      intro p hp
      simp only [putOf, hring, Function.update_of_ne hp]
    have hself : putOf s'.ring r = y.put := by simp only [putOf, hring, Function.update_self]
    obtain he | he := Ring.step_put hr hy
    · have hsame : putOf s'.ring = putOf s.ring := by
        funext p
        by_cases hp : p = r
        · subst hp
          exact hself.trans he
        · exact hput p hp
      rwa [hsame]
    · have hstep : putOf s'.ring = Function.update (putOf s.ring) r (putOf s.ring r + 1) := by
        funext p
        by_cases hp : p = r
        · subst hp
          rw [Function.update_self]
          exact hself.trans he
        · rw [Function.update_of_ne hp]
          exact hput p hp
      rw [hstep]
      exact hkeep.publish fun p v hv => hmirror ⟨p, v⟩ (hissued r _ ⟨p, v⟩ hv).1

omit [DecidableEq Sid] [DecidableEq Ev] in
theorem submit (h : WaitOrder s) (hi : Inv cfg s) {u u' : Sub} {y : Ring.State Tid Cmd}
    (hu : (s.thread t).sub = some u) (hd : doSubmit cfg s.ring t u = some (y, u')) :
    WaitOrder ((s.setRing u.ring y).goto t ((s.thread t).setSub u')) := by
  obtain ⟨hm, hok⟩ := doSubmit_ok (hi.rings _) (hi.subs t u hu) hd
  have htarget := doSubmit_targetPublished (h.subs t u hu) hd
  have hentry := doSubmit_entry hd
  simp only [Sub.entry, Prod.mk.injEq] at hentry
  have hsubs : ∀ v w, (((s.setRing u.ring y).goto t ((s.thread t).setSub u')).thread v).sub =
      some w → w.TargetPublished s.ring := by
    intro v w hw
    by_cases hv : v = t
    · subst hv
      rw [State.goto_thread, Inv.setSub_sub u' hu] at hw
      obtain rfl := Option.some.inj hw
      exact htarget
    · rw [State.goto_thread_of_ne _ _ _ hv] at hw
      exact h.subs v w hw
  obtain rfl | ⟨a, ha, hy⟩ := hm
  · refine h.frame ?_ hsubs
    simp [State.setRing]
  · refine h.move hi hy (fun f hf => ?_) hsubs rfl
    obtain he | ⟨v, c, rfl, -, hp, he⟩ := (Ring.step_effect (hi.rings _) hy).issued
    · simp [he] at hf
    · obtain rfl : v = t := by simpa [Ring.Action.producer] using ha
      obtain rfl : c = .wait f := by simpa [he] using hf
      -- The claim is the SUBMIT's own command.
      have hclaim := hok.claim (s.ring u.ring).issued.length (.wait f)
        (by rw [hentry.1, Function.update_self, hp, Ring.Point.claim])
      exact htarget f hclaim.2.2.1.symm (by simp [hclaim.1, Point.issuing])

end WaitOrder

theorem step_waitOrder {a : Action Tid Sid Ev} (hi : Inv cfg s) (h : WaitOrder s)
    (hs : step cfg s a = some s') : WaitOrder s' := by
  cases step_cases hs with
  | skip => exact h
  | device r a y ha hb hy =>
    refine h.move hi hy (fun f hf => ?_) h.subs rfl
    simp [(Ring.device_effect ha hy).issued] at hf
  | submit t u u' y hu hd => exact h.submit hi hu hd
  | leave t u rc hu hp =>
    obtain ⟨hring, -, hthread, hsub⟩ := resume_frame cfg (s.leave u rc) t rc (s.thread t)
    refine h.quiet (t := t) hring hthread ?_
    obtain hnone | ⟨r, a, henter⟩ := hsub
    · exact .inl hnone
    · exact .inr ⟨_, r, a, henter⟩
  | ioctl t r a hth => exact h.goto rfl rfl (.inr ⟨s, r, a, rfl⟩)
  | flushWait t c f rest hth hf => exact h.goto rfl rfl (.inr ⟨s, _, _, rfl⟩)
  | tailSkip t c hth htail => exact h.goto rfl rfl (.inr ⟨s, _, _, rfl⟩)
  | tailWait t c f hth htail hne => exact h.goto rfl rfl (.inr ⟨s, _, _, rfl⟩)
  | _ => exact h.goto rfl rfl (.inl rfl)

theorem reach_waitOrder {ok : State Tid Sid Ev → Action Tid Sid Ev → Prop}
    (h : Reach (step cfg) ok init s) : WaitOrder s :=
  h.invariant_of (fun _ => reach_inv) init_waitOrder fun _ _ _ hi hw _ hs =>
    step_waitOrder hi hw hs

/-- WAIT_FENCE cannot deadlock the device. Whatever was submitted and in whatever
order it retires: while a published command is unretired, the head of some channel
is not a blocked wait. -/
theorem wait_fence_no_deadlock (h : Reach (step cfg) anyStep init s)
    (hwork : ∃ r, (s.ring r).get < (s.ring r).put) :
    ∃ r, (s.ring r).get < (s.ring r).put ∧ ¬waitBlocked cfg s.ring (head cfg (s.ring r)) := by
  have hi := reach_inv h
  obtain ⟨r, hr, hready⟩ : ∃ r, (s.ring r).get < (s.ring r).put ∧
      ∀ p v, waitsOn s.ring r (s.ring r).get p v → v ≤ (s.ring p).get :=
    (reach_waitOrder h).ranked.exists_ready hwork
  refine ⟨r, hr, fun hblocked => ?_⟩
  have hhead := ((hi.rings r).head_issued (by omega)).2
  cases hc : head cfg (s.ring r) with
  | wait f =>
    rw [hc] at hblocked
    have hdue := hready f.chan f.value (hhead.trans (congrArg some hc))
    exact absurd hblocked.2 (by omega)
  | _ =>
    rw [hc] at hblocked
    exact hblocked

/-- The copy is published and the fill waits for it. -/
theorem wait_fence_no_deadlock_copy_fill :
    ∃ s, exec (step twoStreams) init (callRun 0 .copyD2D true 15 ++ callRun 0 .fill true 27) =
        some s ∧ waitBlocked twoStreams s.ring (head twoStreams (s.ring (0, 0))) ∧
      ∃ r, (s.ring r).get < (s.ring r).put ∧
        ¬waitBlocked twoStreams s.ring (head twoStreams (s.ring r)) := by
  have hrun : (exec (step twoStreams) init
      (callRun 0 .copyD2D true 15 ++ callRun 0 .fill true 27)).map
      (fun s => ((s.ring (0, 0)).get < (s.ring (0, 0)).put ∧
        waitBlocked twoStreams s.ring (head twoStreams (s.ring (0, 0))) : Bool)) =
      some true := by decide +kernel
  obtain ⟨s, hs, hq⟩ := Option.map_eq_some_iff.mp hrun
  obtain ⟨hwork, hblocked⟩ := of_decide_eq_true hq
  exact ⟨s, hs, hblocked, wait_fence_no_deadlock (.of_exec .refl hs) ⟨(0, 0), hwork⟩⟩

end SoftGpu.Submit
