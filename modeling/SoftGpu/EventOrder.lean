import SoftGpu.StreamOrder

/-!
# Events

`sgStreamWaitEvent` leaves the event's fence in `extra_waits`, and the next call on
the stream puts a `WAIT_FENCE` for it on the ring it submits to. A call that fails
after it has emptied `extra_waits` takes the wait with it: the `WAIT_FENCE` stays
on the ring of the failed call, and a later call on another ring does not meet it.
Event order therefore holds in the runs in which each such wait still concerns
the next accepted call.
-/

namespace SoftGpu.Submit

open Machine
open Staging (Chan Fence)

variable {Tid Sid Ev : Type*} [DecidableEq Tid] [DecidableEq Sid] [DecidableEq Ev]
  {cfg : Config Sid} {s s' : State Tid Sid Ev} {t : Tid}

def Thread.carries : Thread Sid Ev → Option (Sid × List Fence)
  | .tail c | .tailing c _ | .main c _ => some (c.stream, c.flushed)
  | _ => none

omit [DecidableEq Sid] [DecidableEq Ev] in
theorem Thread.holds_of_carries {th : Thread Sid Ev} {sid : Sid} {fs : List Fence}
    (h : th.carries = some (sid, fs)) : th.holds = some sid := by
  cases th with
  | tail c | tailing c u | main c u =>
    obtain ⟨rfl, rfl⟩ : c.stream = sid ∧ c.flushed = fs := by simpa [carries] using h
    rfl
  | _ => cases h

omit [DecidableEq Sid] [DecidableEq Ev] in
theorem Thread.carries_setSub {th : Thread Sid Ev} (u : Sub) :
    (th.setSub u).carries = th.carries := by
  cases th <;> rfl

def Pending (s : State Tid Sid Ev) (sid : Sid) (f : Fence) : Prop :=
  f ∈ (s.stream sid).extraWaits ∨ (∃ r, (r, f) ∈ (s.stream sid).orphans) ∨
    ∃ t fs, (s.thread t).carries = some (sid, fs) ∧ f ∈ fs

/-- The event waits that failed calls left on their rings concern the call that is
accepted: they are on its ring, for a fence of its ring, or for a fence that had
retired when its command was submitted. -/
def orphansOrdered (s : State Tid Sid Ev) : Action Tid Sid Ev → Prop
  | .run t => match s.thread t with
    | .main c u => u.point = .done .ok → ∀ p ∈ (s.stream c.stream).orphans,
        p.1 = u.ring ∨ p.2.chan = u.ring ∨ p.2.value ≤ u.seen p.2.chan
    | _ => True
  | _ => True

instance (s : State Tid Sid Ev) (a : Action Tid Sid Ev) : Decidable (orphansOrdered s a) :=
  match a with
  | .run t =>
    show Decidable (match s.thread t with | .main _ _ => _ | _ => _) from
    match s.thread t with
    | .main _ _ => inferInstanceAs (Decidable (_ → _))
    | .idle | .ioctl _ | .lock _ | .flush .. | .flushing .. | .tail _ | .tailing .. | .stamp ..
    | .push .. | .sync .. => .isTrue trivial
  | .ioctl .. | .call .. | .record .. | .waitEvent .. | .synchronize .. | .device .. =>
    .isTrue trivial

structure Events (s : State Tid Sid Ev) : Prop where
  emptied : ∀ t sid fs, (s.thread t).carries = some (sid, fs) → (s.stream sid).extraWaits = []
  start_le : ∀ sid, ∀ w ∈ (s.stream sid).waits, w.start ≤ (s.stream sid).calls.length
  pending : ∀ sid, ∀ w ∈ (s.stream sid).waits, w.start = (s.stream sid).calls.length →
    Pending s sid w.event.fence
  after : ∀ sid, ∀ w ∈ (s.stream sid).waits, ∀ v,
    (s.stream sid).calls[w.start]? = some v → After s.ring w.event.fence v

omit [DecidableEq Tid] [DecidableEq Sid] [DecidableEq Ev] in
theorem init_events : Events (init : State Tid Sid Ev) := by
  constructor <;> simp [init, Thread.carries]

namespace Events

omit [DecidableEq Tid] [DecidableEq Sid] [DecidableEq Ev] in
theorem frame (h : Events s) (hg : Grow s.ring s'.ring)
    (hstream : ∀ sid, ∃ m, s'.stream sid = { s.stream sid with mutex := m })
    (hcarries : ∀ v, (s'.thread v).carries = (s.thread v).carries) : Events s' := by
  have hfields : ∀ sid, (s'.stream sid).extraWaits = (s.stream sid).extraWaits ∧
      (s'.stream sid).calls = (s.stream sid).calls ∧
      (s'.stream sid).orphans = (s.stream sid).orphans ∧
      (s'.stream sid).waits = (s.stream sid).waits := by
    intro sid
    obtain ⟨m, hm⟩ := hstream sid
    simp [hm]
  constructor
  · intro v sid fs hv
    rw [hcarries] at hv
    rw [(hfields sid).1]
    exact h.emptied v sid fs hv
  · intro sid w hw
    obtain ⟨-, hcalls, -, hwaits⟩ := hfields sid
    rw [hwaits] at hw
    rw [hcalls]
    exact h.start_le sid w hw
  · intro sid w hw hlen
    obtain ⟨hextra, hcalls, horphans, hwaits⟩ := hfields sid
    rw [hwaits] at hw
    rw [hcalls] at hlen
    simp only [Pending, hextra, horphans, hcarries]
    exact h.pending sid w hw hlen
  · intro sid w hw v hv
    obtain ⟨-, hcalls, -, hwaits⟩ := hfields sid
    rw [hwaits] at hw
    rw [hcalls] at hv
    exact (h.after sid w hw v hv).grow hg

omit [DecidableEq Sid] [DecidableEq Ev] in
theorem goto (h : Events s) {th : Thread Sid Ev} (hth : th.carries = (s.thread t).carries) :
    Events (s.goto t th) := by
  refine h.frame (.refl _) (fun sid => ⟨(s.stream sid).mutex, rfl⟩) fun v => ?_
  by_cases hv : v = t
  · subst hv
    rw [State.goto_thread, hth]
  · rw [State.goto_thread_of_ne _ _ _ hv]

omit [DecidableEq Tid] [DecidableEq Ev] in
theorem setMutex (h : Events s) (sid : Sid) (m : Option Tid) :
    Events (s.setStream sid { s.stream sid with mutex := m }) := by
  refine h.frame (.refl _) (fun p => ?_) fun _ => rfl
  by_cases hp : p = sid
  · subst hp
    exact ⟨m, State.setStream_stream ..⟩
  · exact ⟨_, State.setStream_stream_of_ne _ _ _ hp⟩

omit [DecidableEq Ev] in
theorem setStream (h : Events s) {sid : Sid} {q : Stream Tid Sid} {th : Thread Sid Ev}
    (hcalls : q.calls = (s.stream sid).calls)
    (hwaits : ∀ w ∈ q.waits, w ∈ (s.stream sid).waits ∨
      w.start = q.calls.length ∧ w.event.fence ∈ q.extraWaits)
    (hemptied : ∀ v p fs, (((s.setStream sid q).goto t th).thread v).carries = some (p, fs) →
      ((s.setStream sid q).stream p).extraWaits = [])
    (hpending : ∀ p f, Pending s p f → Pending ((s.setStream sid q).goto t th) p f) :
    Events ((s.setStream sid q).goto t th) where
  emptied := hemptied
  start_le := by
    intro p w hw
    by_cases hp : p = sid
    · subst hp
      simp only [State.goto_stream, State.setStream_stream] at hw ⊢
      obtain hold | ⟨hnew, -⟩ := hwaits w hw
      · rw [hcalls]
        exact h.start_le p w hold
      · exact hnew.le
    · simp only [State.goto_stream, State.setStream_stream_of_ne _ _ _ hp] at hw ⊢
      exact h.start_le p w hw
  pending := by
    intro p w hw hlen
    by_cases hp : p = sid
    · subst hp
      simp only [State.goto_stream, State.setStream_stream] at hw hlen
      obtain hold | ⟨-, hnew⟩ := hwaits w hw
      · rw [hcalls] at hlen
        exact hpending p _ (h.pending p w hold hlen)
      · exact .inl (by simpa using hnew)
    · simp only [State.goto_stream, State.setStream_stream_of_ne _ _ _ hp] at hw hlen
      exact hpending p _ (h.pending p w hw hlen)
  after := by
    intro p w hw v hv
    by_cases hp : p = sid
    · subst hp
      simp only [State.goto_stream, State.setStream_stream] at hw hv
      obtain hold | ⟨hnew, -⟩ := hwaits w hw
      · rw [hcalls] at hv
        exact h.after p w hold v hv
      · have hlt := (List.getElem?_eq_some_iff.mp hv).1
        omega
    · simp only [State.goto_stream, State.setStream_stream_of_ne _ _ _ hp] at hw hv
      exact h.after p w hw v hv

omit [DecidableEq Ev] in
theorem carries_other {sid p : Sid} {q : Stream Tid Sid} {th : Thread Sid Ev} {v : Tid}
    {fs : List Fence} (hth : th.carries = none)
    (hv : (((s.setStream sid q).goto t th).thread v).carries = some (p, fs)) :
    v ≠ t ∧ (s.thread v).carries = some (p, fs) := by
  by_cases he : v = t
  · subst he
    rw [State.goto_thread, hth] at hv
    cases hv
  · rw [State.goto_thread_of_ne _ _ _ he] at hv
    exact ⟨he, hv⟩

omit [DecidableEq Ev] in
theorem abandon (h : Events s) {c : Call Sid Ev}
    (hc : (s.thread t).carries = some (c.stream, c.flushed)) : Events (s.abandon cfg t c) := by
  refine h.setStream rfl (fun w hw => .inl hw) ?_ ?_
  · intro v p fs hv
    obtain ⟨-, hv⟩ := carries_other rfl hv
    by_cases hp : p = c.stream
    · subst hp
      rw [State.setStream_stream]
      exact h.emptied v c.stream fs hv
    · rw [State.setStream_stream_of_ne _ _ _ hp]
      exact h.emptied v p fs hv
  · intro p f hf
    by_cases hp : p = c.stream
    · subst hp
      simp only [Pending, State.goto_stream, State.setStream_stream]
      obtain hf | ⟨r, hf⟩ | ⟨v, fs, hv, hf⟩ := hf
      · exact .inl hf
      · exact .inr (.inl ⟨r, List.mem_append_left _ hf⟩)
      · by_cases hvt : v = t
        · subst hvt
          rw [hc, Option.some.injEq, Prod.mk.injEq] at hv
          rw [← hv.2] at hf
          exact .inr (.inl ⟨c.ring cfg, List.mem_append_right _ (List.mem_map_of_mem hf)⟩)
        · exact .inr (.inr ⟨v, fs, by simpa [hvt] using hv, hf⟩)
    · simp only [Pending, State.goto_stream, State.setStream_stream_of_ne _ _ _ hp]
      obtain hf | hf | ⟨v, fs, hv, hf⟩ := hf
      · exact .inl hf
      · exact .inr (.inl hf)
      · have hvt : v ≠ t := by
          intro hvt
          rw [hvt, hc, Option.some.injEq, Prod.mk.injEq] at hv
          exact hp hv.1.symm
        exact .inr (.inr ⟨v, fs, by simpa [hvt] using hv, hf⟩)

omit [DecidableEq Ev] in
theorem accept (h : Events s) (hst : Streams cfg s) {c : Call Sid Ev} {u : Sub}
    (hth : s.thread t = .main c u)
    (horphans : ∀ p ∈ (s.stream c.stream).orphans,
      p.1 = u.ring ∨ p.2.chan = u.ring ∨ p.2.value ≤ u.seen p.2.chan) :
    Events (s.accept t c u) := by
  have hcur := hst.threads t
  rw [hth] at hcur
  obtain ⟨-, hmutex, -, -, -, -, hflushed, hplaced⟩ := hcur
  have hnone : ((s.accept t c u).thread t).carries = none := by
    rw [State.accept, State.goto_thread]
    cases c.event <;> rfl
  rw [State.accept, State.goto_thread] at hnone
  have hafter : ∀ f, Pending s c.stream f → After s.ring f u := by
    intro f hf
    obtain hf | ⟨r, hf⟩ | ⟨v, fs, hv, hf⟩ := hf
    · rw [h.emptied t c.stream c.flushed (by rw [hth]; rfl)] at hf
      cases hf
    · obtain hr | hr | hr := horphans (r, f) hf
      · exact hplaced r f hf (.inl hr)
      · exact hplaced r f hf (.inr hr)
      · exact .inr (.inr hr)
    · -- Only one thread holds the stream's mutex.
      have hm := (hst.threads v).mutex (Thread.holds_of_carries hv)
      rw [hmutex, Option.some.injEq] at hm
      subst hm
      rw [hth] at hv
      obtain ⟨-, rfl⟩ : c.stream = c.stream ∧ c.flushed = fs := by simpa [Thread.carries] using hv
      exact hflushed f hf
  constructor
  · intro v p fs hv
    obtain ⟨-, hv⟩ := carries_other hnone hv
    simp only [State.accept, State.goto_stream]
    by_cases hp : p = c.stream
    · subst hp
      rw [State.setStream_stream]
      exact h.emptied v c.stream fs hv
    · rw [State.setStream_stream_of_ne _ _ _ hp]
      exact h.emptied v p fs hv
  · intro p w hw
    by_cases hp : p = c.stream
    · subst hp
      simp only [State.accept, State.goto_stream, State.setStream_stream,
        List.length_append] at hw ⊢
      exact (h.start_le _ w hw).trans (Nat.le_add_right _ _)
    · simp only [State.accept, State.goto_stream, State.setStream_stream_of_ne _ _ _ hp] at hw ⊢
      exact h.start_le p w hw
  · intro p w hw hlen
    by_cases hp : p = c.stream
    · subst hp
      simp only [State.accept, State.goto_stream, State.setStream_stream, List.length_append,
        List.length_singleton] at hw hlen
      have := h.start_le _ w hw
      omega
    · simp only [State.accept, State.goto_stream, State.setStream_stream_of_ne _ _ _ hp] at hw hlen
      simp only [Pending, State.accept, State.goto_stream, State.setStream_stream_of_ne _ _ _ hp]
      obtain hf | hf | ⟨v, fs, hv, hf⟩ := h.pending p w hw hlen
      · exact .inl hf
      · exact .inr (.inl hf)
      · have hvt : v ≠ t := by
          intro hvt
          rw [hvt, hth] at hv
          simp only [Thread.carries, Option.some.injEq, Prod.mk.injEq] at hv
          exact hp hv.1.symm
        exact .inr (.inr ⟨v, fs, by simpa [hvt] using hv, hf⟩)
  · intro p w hw v hv
    by_cases hp : p = c.stream
    · subst hp
      simp only [State.accept, State.goto_stream, State.setStream_stream] at hw hv
      by_cases hlt : w.start < (s.stream c.stream).calls.length
      · rw [List.getElem?_append_left hlt] at hv
        exact h.after _ w hw v hv
      · have hlen : w.start = (s.stream c.stream).calls.length := by
          have := h.start_le _ w hw
          omega
        obtain rfl : u = v := by simpa [hlen] using hv
        exact hafter _ (h.pending _ w hw hlen)
    · simp only [State.accept, State.goto_stream, State.setStream_stream_of_ne _ _ _ hp] at hw hv
      exact h.after p w hw v hv

omit [DecidableEq Ev] in
theorem leave (h : Events s) (hst : Streams cfg s) {u : Sub} {rc : Rc}
    (hu : (s.thread t).sub = some u) (hp : u.point = .done rc) (hok : orphansOrdered s (.run t)) :
    Events ((s.leave u rc).resume cfg t rc (s.thread t)) := by
  have h' : Events (s.leave u rc) := by
    obtain ⟨h₁, h₂, h₃, h₄⟩ := h
    exact ⟨h₁, h₂, h₃, h₄⟩
  have hst' : Streams cfg (s.leave u rc) :=
    hst.next (t := t) ⟨.refl _, fun _ _ _ => id⟩ (fun _ _ => rfl) (fun _ => .inl rfl)
      ((hst.threads t).later ⟨.refl _, fun _ _ _ => id⟩ fun _ _ => rfl) fun _ _ => .inl
  have hth' : (s.leave u rc).thread = s.thread := rfl
  generalize hth : s.thread t = th at hu
  cases th with
  | ioctl v => exact h'.goto (by rw [hth', hth]; rfl)
  | flushing c f rest v =>
    cases rc with
    | ok => exact h'.goto (by rw [hth', hth]; rfl)
    | inval | fault | io =>
      exact (h'.setMutex c.stream none).goto (by rw [State.setStream_thread, hth', hth]; rfl)
  | tailing c v =>
    cases rc with
    | ok => exact h'.goto (by rw [hth', hth]; rfl)
    | inval | fault | io => exact h'.abandon (by rw [hth', hth]; rfl)
  | main c v =>
    obtain rfl := Option.some.inj hu
    cases rc with
    | ok =>
      refine h'.accept hst' (hth'.symm ▸ hth) ?_
      simp only [orphansOrdered, hth] at hok
      exact hok hp
    | inval | fault | io => exact h'.abandon (by rw [hth', hth]; rfl)
  | _ => cases hu

omit [DecidableEq Ev] in
theorem clear (h : Events s) {c : Call Sid Ev}
    (hth : s.thread t = .flush c []) :
    Events ((s.setStream c.stream { s.stream c.stream with extraWaits := [] }).goto t
      (.tail { c with flushed := (s.stream c.stream).extraWaits })) := by
  refine h.setStream rfl (fun w hw => .inl hw) ?_ ?_
  · intro v p fs hv
    by_cases hp : p = c.stream
    · subst hp
      simp
    · rw [State.setStream_stream_of_ne _ _ _ hp]
      refine h.emptied v p fs ?_
      by_cases hvt : v = t
      · subst hvt
        simp only [State.goto_thread, Thread.carries, Option.some.injEq, Prod.mk.injEq] at hv
        exact absurd hv.1.symm hp
      · rwa [State.goto_thread_of_ne _ _ _ hvt] at hv
  · intro p f hf
    have hcarried : ∀ v fs, (s.thread v).carries = some (p, fs) → v ≠ t := by
      intro v fs hv hvt
      rw [hvt, hth] at hv
      cases hv
    by_cases hp : p = c.stream
    · subst hp
      simp only [Pending, State.goto_stream, State.setStream_stream]
      obtain hf | hf | ⟨v, fs, hv, hf⟩ := hf
      · exact .inr (.inr ⟨t, _, by rw [State.goto_thread]; rfl, hf⟩)
      · exact .inr (.inl hf)
      · exact .inr (.inr ⟨v, fs, by simpa [hcarried v fs hv] using hv, hf⟩)
    · simp only [Pending, State.goto_stream, State.setStream_stream_of_ne _ _ _ hp]
      obtain hf | hf | ⟨v, fs, hv, hf⟩ := hf
      · exact .inl hf
      · exact .inr (.inl hf)
      · exact .inr (.inr ⟨v, fs, by simpa [hcarried v fs hv] using hv, hf⟩)

omit [DecidableEq Ev] in
theorem push (h : Events s) (hst : Streams cfg s) {sid : Sid} {r : Recorded Sid}
    (hth : s.thread t = .push sid r) (hm : (s.stream sid).mutex = none) :
    Events ((s.setStream sid { s.stream sid with
      extraWaits := (s.stream sid).extraWaits ++ [r.fence]
      waits := (s.stream sid).waits ++ [⟨(s.stream sid).calls.length, r⟩] }).goto t .idle) := by
  refine h.setStream rfl (fun w hw => ?_) ?_ ?_
  · obtain hw | hw := List.mem_append.mp hw
    · exact .inl hw
    · obtain rfl := List.mem_singleton.mp hw
      exact .inr ⟨rfl, by simp⟩
  · intro v p fs hv
    obtain ⟨-, hold⟩ := carries_other rfl hv
    by_cases hp : p = sid
    · -- Whoever carries waits of the stream holds its mutex.
      subst hp
      have hmutex := (hst.threads v).mutex (Thread.holds_of_carries hold)
      rw [hm] at hmutex
      cases hmutex
    · rw [State.setStream_stream_of_ne _ _ _ hp]
      exact h.emptied v p fs hold
  · intro p f hf
    have hcarried : ∀ v fs, (s.thread v).carries = some (p, fs) → v ≠ t := by
      intro v fs hv hvt
      rw [hvt, hth] at hv
      cases hv
    by_cases hp : p = sid
    · subst hp
      simp only [Pending, State.goto_stream, State.setStream_stream]
      obtain hf | hf | ⟨v, fs, hv, hf⟩ := hf
      · exact .inl (List.mem_append_left _ hf)
      · exact .inr (.inl hf)
      · exact .inr (.inr ⟨v, fs, by simpa [hcarried v fs hv] using hv, hf⟩)
    · simp only [Pending, State.goto_stream, State.setStream_stream_of_ne _ _ _ hp]
      obtain hf | hf | ⟨v, fs, hv, hf⟩ := hf
      · exact .inl hf
      · exact .inr (.inl hf)
      · exact .inr (.inr ⟨v, fs, by simpa [hcarried v fs hv] using hv, hf⟩)

end Events

theorem step_events {a : Action Tid Sid Ev} (hi : Inv cfg s) (hst : Streams cfg s) (h : Events s)
    (hok : orphansOrdered s a) (hs : step cfg s a = some s') : Events s' := by
  cases step_cases hs with
  | skip => exact h
  | device r a y ha hb hy =>
    have hg : Grow s.ring (s.setRing r y).ring := .update (Ring.step_effect (hi.rings r) hy)
    exact h.frame hg (fun sid => ⟨_, rfl⟩) fun _ => rfl
  | submit t u u' y hu hd =>
    obtain ⟨hm, -⟩ := doSubmit_ok (hi.rings _) (hi.subs t u hu) hd
    have hr : Events (s.setRing u.ring y) :=
      h.frame (hm.grow (hi.rings _)) (fun sid => ⟨_, rfl⟩) fun _ => rfl
    exact hr.goto (Thread.carries_setSub u')
  | leave t u rc hu hp => exact h.leave hst hu hp hok
  | ioctl t r a hth => exact h.goto (by rw [hth]; rfl)
  | call t sid a hth ha => exact h.goto (by rw [hth]; rfl)
  | record t ev sid hth => exact h.goto (by rw [hth]; rfl)
  | waitEvent t sid ev r hth hr => exact h.goto (by rw [hth]; rfl)
  | synchronize t sid f hth hf => exact h.goto (by rw [hth]; rfl)
  | lock t c hth hm =>
    exact (h.setMutex c.stream (some t)).goto (by rw [State.setStream_thread, hth]; rfl)
  | flushSame t c f rest hth hf => exact h.goto (by rw [hth]; rfl)
  | flushWait t c f rest hth hf => exact h.goto (by rw [hth]; rfl)
  | clear t c hth => exact h.clear hth
  | tailSkip t c hth htail => exact h.goto (by rw [hth]; rfl)
  | tailWait t c f hth htail hne => exact h.goto (by rw [hth]; rfl)
  | stamp t ev r hth =>
    have he : Events { s with event := Function.update s.event ev (some r) } :=
      h.frame (.refl _) (fun sid => ⟨_, rfl⟩) fun _ => rfl
    exact he.goto (by rw [hth]; rfl)
  | push t sid r hth hm => exact h.push hst hth hm
  | synced t sid n f hth hf => exact h.goto (by rw [hth]; rfl)

def waitsKept (s : State Tid Sid Ev) (a : Action Tid Sid Ev) : Prop :=
  orderly s a ∧ orphansOrdered s a

instance (s : State Tid Sid Ev) (a : Action Tid Sid Ev) : Decidable (waitsKept s a) :=
  inferInstanceAs (Decidable (_ ∧ _))

theorem reach_events (h : Reach (step cfg) waitsKept init s) : Events s :=
  h.invariant_of (I := fun s => Inv cfg s ∧ Streams cfg s)
    (fun _ hr => ⟨reach_inv hr, reach_streams (fun _ _ ha => ha.1.2) hr⟩) init_events
    fun _ _ _ hi he ha hs => step_events hi.1 hi.2 he ha.2 hs

def recordWait : List (Action Unit (Fin 2) Unit) :=
  callRun 0 .fill true 15 ++ .record () () 0 :: List.replicate 16 (.run ()) ++
    [.waitEvent () 1 (), .run ()]

/-- Where a stream's waits took effect, with the stream and the call of their events. -/
def waitsOf (s : State Unit (Fin 2) Unit) (sid : Fin 2) : List (ℕ × Fin 2 × ℕ) :=
  (s.stream sid).waits.map fun w => (w.start, w.event.stream, w.event.index)

/-- What the runs below end with: the calls of both streams, the waits of the second, GET of
its copy ring and what has retired on the ring of the first. -/
structure Outcome where
  first : List (Chan × List ℕ)
  second : List (Chan × List ℕ)
  waits : List (ℕ × Fin 2 × ℕ)
  get : ℕ
  retired : List (Cmd × ℕ)
  deriving DecidableEq

def outcome (s : State Unit (Fin 2) Unit) : Outcome :=
  ⟨slotsOf s 0, slotsOf s 1, waitsOf s 1, (s.ring (1, 1)).get, (s.ring (0, 0)).retired⟩

def copyAfterEvent : List (Action Unit (Fin 2) Unit) :=
  recordWait ++ callRun 1 .copyD2D true 28 ++
    deviceRun (0, 0) [.load, .exchange, .probe, .start, .retire false, .start, .retire false] ++
    deviceRun (1, 1) [.load, .exchange, .probe, .start, .retire false, .start, .retire false]

end SoftGpu.Submit
