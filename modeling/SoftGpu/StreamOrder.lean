import SoftGpu.WaitFence

/-!
# Streams

A call of `stream_submit` holds the stream's mutex from its first SUBMIT to its
last, so the tail it waits for is the fence of the call accepted before it. Each
accepted call is therefore ordered after its predecessor: it runs on the same
ring, behind the predecessor's fence, or behind a `WAIT_FENCE` for that fence.
`After` is this relation between a fence and a SUBMIT; it speaks of the issue
order only and never changes again.
-/

namespace SoftGpu.Submit

open Machine
open Staging (Chan Fence)

variable {Tid Sid Ev : Type*} [DecidableEq Tid] [DecidableEq Sid] [DecidableEq Ev]
  {cfg : Config Sid} {s s' : State Tid Sid Ev} {t : Tid}

/-- The commands of `u` come after the fence: on its ring and behind it, behind a
wait for it, or it had retired before the SUBMIT was called. -/
def After (x : Rings Tid) (f : Fence) (u : Sub) : Prop :=
  u.ring = f.chan ∧ f.value ≤ u.base ∨
    (∃ w < u.base, (x u.ring).issued[w]? = some (.wait f)) ∨ f.value ≤ u.seen f.chan

def Placed (x : Rings Tid) (f : Fence) (r : Chan) : Prop :=
  f.chan = r ∧ f.value ≤ (x r).mirror ∨
    ∃ w < (x r).mirror, (x r).issued[w]? = some (.wait f)

def Published (x : Rings Tid) (f : Fence) : Prop := f.value ≤ (x f.chan).mirror

section Static
variable {x x' : Rings Tid} {f : Fence} {u u' : Sub} {r : Chan}

omit [DecidableEq Tid] in
theorem After.grow (h : After x f u) (hg : Grow x x') : After x' f u := by
  obtain h | ⟨w, hw, hi⟩ | h := h
  · exact .inl h
  · exact .inr (.inl ⟨w, hw, hg.issued _ _ _ hi⟩)
  · exact .inr (.inr h)

omit [DecidableEq Tid] in
theorem After.congr (h : After x f u) (he : u'.entry = u.entry) : After x f u' := by
  simp only [Sub.entry, Prod.mk.injEq] at he
  obtain ⟨hring, -, hbase, -, hseen⟩ := he
  simp only [After, hring, hbase, hseen]
  exact h

omit [DecidableEq Tid] in
theorem Placed.grow (h : Placed x f r) (hg : Grow x x') : Placed x' f r := by
  obtain ⟨hr, hv⟩ | ⟨w, hw, hi⟩ := h
  · exact .inl ⟨hr, hv.trans (hg.mirror _)⟩
  · exact .inr ⟨w, hw.trans_le (hg.mirror _), hg.issued _ _ _ hi⟩

omit [DecidableEq Tid] in
theorem Published.grow (h : Published x f) (hg : Grow x x') : Published x' f :=
  h.trans (hg.mirror _)

omit [DecidableEq Tid] [DecidableEq Sid] [DecidableEq Ev] in
theorem Placed.after {q : State Tid Sid Ev} {a : Args} (h : Placed q.ring f r) :
    After q.ring f (q.enter r a) := by
  obtain ⟨hr, hv⟩ | h := h
  · exact .inl ⟨hr.symm, hv⟩
  · exact .inr (.inl h)

omit [DecidableEq Tid] [DecidableEq Sid] [DecidableEq Ev] in
theorem After.retired (h : After s.ring f u) (hw : WaitsDue s)
    (hseen : ∀ r, u.seen r ≤ (s.ring r).get) (hget : u.base ≤ (s.ring u.ring).get) :
    f.value ≤ (s.ring f.chan).get := by
  obtain ⟨hr, hv⟩ | ⟨w, hlt, hi⟩ | hv := h
  · exact hv.trans (hr ▸ hget)
  · exact hw.retired _ w f (hlt.trans_le hget) hi
  · exact hv.trans (hseen _)

end Static

def Sub.WaitOk (u : Sub) : Prop :=
  u.args.cmd.semaphore = true → match u.point with
    | .slot | .drain _ => False
    | .unlock rc | .done rc => rc = .ok → u.slots ≠ []
    | .check | .lock | .dispatch | .enqueue => True

theorem Sub.waitOk_of_cmd {u : Sub} (h : u.args.cmd.semaphore = false) : u.WaitOk := by
  intro hs
  rw [h] at hs
  cases hs

omit [DecidableEq Sid] in
theorem doSubmit_waitOk {x : Rings Tid} {u u' : Sub} {y : Ring.State Tid Cmd} (h : u.WaitOk)
    (hs : doSubmit cfg x t u = some (y, u')) : u'.WaitOk := by
  have hentry := doSubmit_entry hs
  simp only [Sub.entry, Prod.mk.injEq] at hentry
  cases hsem : u.args.cmd.semaphore with
  | false => exact Sub.waitOk_of_cmd (by rw [hentry.2.1, hsem])
  | true =>
    obtain ⟨f, hf⟩ : ∃ f, u.args.cmd = .wait f := by
      cases hc : u.args.cmd <;> simp_all [Cmd.semaphore]
    have hpoint := h hsem
    unfold doSubmit at hs
    split at hs
    · simp only [Option.some.injEq, Prod.mk.injEq] at hs
      obtain ⟨-, rfl⟩ := hs
      unfold Sub.check
      split_ifs <;> intro _ <;> simp [Sub.goto]
    · split at hs
      · simp only [Option.some.injEq, Prod.mk.injEq] at hs
        obtain ⟨-, rfl⟩ := hs
        exact fun _ => trivial
      · simp only [Option.map_eq_some_iff, Prod.mk.injEq] at hs
        obtain ⟨-, -, -, rfl⟩ := hs
        exact fun _ => trivial
    · simp only [Option.some.injEq, Prod.mk.injEq] at hs
      obtain ⟨-, rfl⟩ := hs
      simp only [Sub.dispatch, hf]
      split_ifs <;> intro _ <;> simp [Sub.goto]
    · next hp => simp [hp] at hpoint
    · next hp =>
      simp only [Option.map_eq_some_iff, Prod.mk.injEq] at hs
      obtain ⟨-, -, -, rfl⟩ := hs
      split
      · intro _
        simp [Sub.enqueued, Args.staged, hf]
      · exact h
    · next g hp => simp [hp] at hpoint
    · next rc hp =>
      have hrc : rc = .ok → u.slots ≠ [] := by simpa [hp] using hpoint
      split at hs
      · simp only [Option.some.injEq, Prod.mk.injEq] at hs
        obtain ⟨-, rfl⟩ := hs
        exact fun _ => hrc
      · simp only [Option.map_eq_some_iff, Prod.mk.injEq] at hs
        obtain ⟨-, -, -, rfl⟩ := hs
        exact fun _ => hrc
    · cases hs

omit [DecidableEq Tid] [DecidableEq Sid] in
theorem SubOk.placed {x : Rings Tid} {u : Sub} {f : Fence} (h : SubOk cfg x t u) (hw : u.WaitOk)
    (hf : u.args.cmd = .wait f) (hp : u.point = .done .ok) : Placed x f u.ring := by
  have hne : u.slots ≠ [] := by
    have := hw (by simp [hf, Cmd.semaphore])
    simpa [hp] using this
  obtain ⟨q, rest, hq⟩ := List.exists_cons_of_ne_nil hne
  obtain ⟨-, hlt, hi⟩ := h.slots q (by simp [hq])
  exact .inr ⟨q, hlt, hf ▸ hi⟩

/-! ### The invariant -/

def Sub.tail (u : Sub) : Fence := ⟨u.ring, u.fence⟩

def noEmptyCopy (_ : State Tid Sid Ev) : Action Tid Sid Ev → Prop
  | .call _ _ a => a.emptyH2D = false
  | _ => True

instance (s : State Tid Sid Ev) (a : Action Tid Sid Ev) : Decidable (noEmptyCopy s a) :=
  match a with
  | .call _ _ _ => inferInstanceAs (Decidable (_ = _))
  | .ioctl .. | .record .. | .waitEvent .. | .synchronize .. | .run _ | .device .. =>
    .isTrue trivial

def RecordOk (s : State Tid Sid Ev) (r : Recorded Sid) : Prop :=
  ∃ u, (s.stream r.stream).calls[r.index]? = some u ∧ r.fence = u.tail

structure StreamOk (cfg : Config Sid) (s : State Tid Sid Ev) (q : Stream Tid Sid) : Prop where
  tail : q.tail = q.calls.getLast?.map Sub.tail
  calls : ∀ u ∈ q.calls, Returned cfg s.ring u .ok ∧ u.args.emptyH2D = false
  links : ∀ (i : ℕ) (u v : Sub), q.calls[i]? = some u → q.calls[i + 1]? = some v →
    After s.ring u.tail v
  extra : ∀ f ∈ q.extraWaits, Published s.ring f
  orphans : ∀ r f, (r, f) ∈ q.orphans → Placed s.ring f r ∧ Published s.ring f
  waits : ∀ w ∈ q.waits, RecordOk s w.event

def Thread.holds : Thread Sid Ev → Option Sid
  | .flush c _ | .flushing c _ _ _ | .tail c | .tailing c _ | .main c _ => some c.stream
  | _ => none

structure CallOk (cfg : Config Sid) (c : Call Sid Ev) : Prop where
  nonempty : c.args.emptyH2D = false
  work : c.args.cmd.semaphore = false
  valid : cfg.valid (c.ring cfg)

def Sub.Unrejected (u : Sub) : Prop := u.point ≠ .unlock .inval ∧ u.point ≠ .done .inval

def ThreadOk (cfg : Config Sid) (s : State Tid Sid Ev) (t : Tid) : Thread Sid Ev → Prop
  | .idle => True
  | .ioctl u => u.WaitOk
  | .lock c => CallOk cfg c
  | .flush c rest => CallOk cfg c ∧
      (s.stream c.stream).mutex = some t ∧ ∃ placed, (s.stream c.stream).extraWaits =
        placed ++ rest ∧ ∀ f ∈ placed, Placed s.ring f (c.ring cfg)
  | .flushing c f rest u => CallOk cfg c ∧
      (s.stream c.stream).mutex = some t ∧ (u.WaitOk ∧ u.args.cmd = .wait f ∧
        u.ring = c.ring cfg) ∧ ∃ placed, (s.stream c.stream).extraWaits = placed ++ f :: rest ∧
        ∀ f ∈ placed, Placed s.ring f (c.ring cfg)
  | .tail c => CallOk cfg c ∧
      (s.stream c.stream).mutex = some t ∧
      ∀ f ∈ c.flushed, Placed s.ring f (c.ring cfg) ∧ Published s.ring f
  | .tailing c u => CallOk cfg c ∧
      (s.stream c.stream).mutex = some t ∧
      (∀ f ∈ c.flushed, Placed s.ring f (c.ring cfg) ∧ Published s.ring f) ∧
      u.WaitOk ∧ u.ring = c.ring cfg ∧ u.Unrejected ∧ ∃ f, (s.stream c.stream).tail = some f ∧
        u.args.cmd = .wait f
  | .main c u => CallOk cfg c ∧
      (s.stream c.stream).mutex = some t ∧
      (∀ f ∈ c.flushed, Placed s.ring f (c.ring cfg) ∧ Published s.ring f) ∧
      u.args = { c.args with fence := 0 } ∧ u.ring = c.ring cfg ∧
      (∀ f, (s.stream c.stream).tail = some f → After s.ring f u) ∧
      (∀ f ∈ c.flushed, After s.ring f u) ∧
      ∀ r f, (r, f) ∈ (s.stream c.stream).orphans → r = u.ring ∨ f.chan = u.ring →
        After s.ring f u
  | .stamp _ r => RecordOk s r
  | .push _ r => RecordOk s r
  | .sync sid n f => 0 < n ∧ ∃ u, (s.stream sid).calls[n - 1]? = some u ∧ f = u.tail

structure Streams (cfg : Config Sid) (s : State Tid Sid Ev) : Prop where
  streams : ∀ sid, StreamOk cfg s (s.stream sid)
  threads : ∀ t, ThreadOk cfg s t (s.thread t)
  events : ∀ ev r, s.event ev = some r → RecordOk s r

omit [DecidableEq Tid] [DecidableEq Sid] [DecidableEq Ev] in
theorem init_streams (cfg : Config Sid) : Streams cfg (init : State Tid Sid Ev) where
  streams := fun _ => by constructor <;> simp [init]
  threads := fun _ => trivial
  events := by simp [init]

structure Later (s s' : State Tid Sid Ev) : Prop where
  grow : Grow s.ring s'.ring
  calls : ∀ (sid : Sid) (i : ℕ) (u : Sub), (s.stream sid).calls[i]? = some u →
    (s'.stream sid).calls[i]? = some u

omit [DecidableEq Tid] [DecidableEq Sid] [DecidableEq Ev] in
theorem RecordOk.later {r : Recorded Sid} (h : RecordOk s r) (hl : Later s s') : RecordOk s' r := by
  obtain ⟨u, hu, hf⟩ := h
  exact ⟨u, hl.calls _ _ _ hu, hf⟩

omit [DecidableEq Tid] [DecidableEq Sid] [DecidableEq Ev] in
theorem StreamOk.later {q : Stream Tid Sid} (h : StreamOk cfg s q) (hl : Later s s') :
    StreamOk cfg s' q where
  tail := h.tail
  calls := fun u hu => ⟨(h.calls u hu).1.grow hl.grow, (h.calls u hu).2⟩
  links := fun i u v hu hv => (h.links i u v hu hv).grow hl.grow
  extra := fun f hf => (h.extra f hf).grow hl.grow
  orphans := fun r f hf => ⟨(h.orphans r f hf).1.grow hl.grow, (h.orphans r f hf).2.grow hl.grow⟩
  waits := fun w hw => (h.waits w hw).later hl

omit [DecidableEq Tid] [DecidableEq Sid] [DecidableEq Ev] in
/-- What a thread knows survives the other threads' steps: they do not touch the
stream whose mutex it holds. -/
theorem ThreadOk.later {th : Thread Sid Ev} (h : ThreadOk cfg s t th) (hl : Later s s')
    (hheld : ∀ sid, th.holds = some sid → s'.stream sid = s.stream sid) :
    ThreadOk cfg s' t th := by
  have hplaced : ∀ {l : List Fence} {r : Chan}, (∀ f ∈ l, Placed s.ring f r) →
      ∀ f ∈ l, Placed s'.ring f r := fun hp f hf => (hp f hf).grow hl.grow
  have hboth : ∀ {l : List Fence} {r : Chan}, (∀ f ∈ l, Placed s.ring f r ∧ Published s.ring f) →
      ∀ f ∈ l, Placed s'.ring f r ∧ Published s'.ring f :=
    fun hp f hf => ⟨(hp f hf).1.grow hl.grow, (hp f hf).2.grow hl.grow⟩
  cases th with
  | idle | ioctl | lock => exact h
  | flush c rest =>
    obtain ⟨h₁, h₃, placed, h₄, h₅⟩ := h
    simp only [ThreadOk, hheld c.stream rfl]
    exact ⟨h₁, h₃, placed, h₄, hplaced h₅⟩
  | flushing c f rest u =>
    obtain ⟨h₁, h₃, h₄, placed, h₅, h₆⟩ := h
    simp only [ThreadOk, hheld c.stream rfl]
    exact ⟨h₁, h₃, h₄, placed, h₅, hplaced h₆⟩
  | tail c =>
    obtain ⟨h₁, h₃, h₄⟩ := h
    simp only [ThreadOk, hheld c.stream rfl]
    exact ⟨h₁, h₃, hboth h₄⟩
  | tailing c u =>
    obtain ⟨h₁, h₃, h₄, h₅⟩ := h
    simp only [ThreadOk, hheld c.stream rfl]
    exact ⟨h₁, h₃, hboth h₄, h₅⟩
  | main c u =>
    obtain ⟨h₁, h₃, h₄, h₅, h₆, h₇, h₈, h₉⟩ := h
    simp only [ThreadOk, hheld c.stream rfl]
    exact ⟨h₁, h₃, hboth h₄, h₅, h₆, fun f hf => (h₇ f hf).grow hl.grow,
      fun f hf => (h₈ f hf).grow hl.grow, fun r f hf hr => (h₉ r f hf hr).grow hl.grow⟩
  | stamp ev r => exact RecordOk.later h hl
  | push sid r => exact RecordOk.later h hl
  | sync sid n f =>
    obtain ⟨hn, u, hu, hf⟩ := h
    exact ⟨hn, u, hl.calls _ _ _ hu, hf⟩

omit [DecidableEq Tid] [DecidableEq Sid] [DecidableEq Ev] in
theorem ThreadOk.mutex {th : Thread Sid Ev} {sid : Sid} (h : ThreadOk cfg s t th)
    (hh : th.holds = some sid) : (s.stream sid).mutex = some t := by
  cases th with
  | flush c rest =>
    obtain rfl := Option.some.inj hh
    exact h.2.1
  | flushing c f rest u =>
    obtain rfl := Option.some.inj hh
    exact h.2.1
  | tail c =>
    obtain rfl := Option.some.inj hh
    exact h.2.1
  | tailing c u =>
    obtain rfl := Option.some.inj hh
    exact h.2.1
  | main c u =>
    obtain rfl := Option.some.inj hh
    exact h.2.1
  | _ => cases hh

namespace Streams

omit [DecidableEq Sid] [DecidableEq Ev] in
theorem next (h : Streams cfg s) (hl : Later s s') (hother : ∀ v ≠ t, s'.thread v = s.thread v)
    (hheld : ∀ sid, s'.stream sid = s.stream sid ∨ StreamOk cfg s' (s'.stream sid) ∧
      ((s.stream sid).mutex = none ∨ (s.stream sid).mutex = some t))
    (hthread : ThreadOk cfg s' t (s'.thread t))
    (hevent : ∀ ev r, s'.event ev = some r → s.event ev = some r ∨ RecordOk s' r) :
    Streams cfg s' where
  streams := by
    intro sid
    obtain heq | ⟨hok, -⟩ := hheld sid
    · rw [heq]
      exact (h.streams sid).later hl
    · exact hok
  threads := by
    intro v
    by_cases hv : v = t
    · subst hv
      exact hthread
    · rw [hother v hv]
      refine (h.threads v).later hl fun sid hsid => ?_
      have hm := (h.threads v).mutex hsid
      obtain heq | ⟨-, hnone | hsome⟩ := hheld sid
      · exact heq
      · rw [hnone] at hm
        cases hm
      · rw [hsome, Option.some.injEq] at hm
        exact absurd hm.symm hv
  events := by
    intro ev r hr
    obtain hr | hr := hevent ev r hr
    · exact (h.events ev r hr).later hl
    · exact hr

omit [DecidableEq Sid] [DecidableEq Ev] in
theorem goto (h : Streams cfg s) {th : Thread Sid Ev} (hth : ThreadOk cfg s t th) :
    Streams cfg (s.goto t th) := by
  have hl : Later s (s.goto t th) := ⟨.refl _, fun _ _ _ => id⟩
  refine h.next (t := t) hl ?_ ?_ ?_ ?_
  · intro v hv
    simp [hv]
  · exact fun _ => .inl rfl
  · rw [State.goto_thread]
    exact hth.later hl fun _ _ => rfl
  · exact fun _ _ => .inl

omit [DecidableEq Ev] in
theorem setStream (h : Streams cfg s) {sid : Sid} {q : Stream Tid Sid} {th : Thread Sid Ev}
    (hcalls : (s.stream sid).calls <+: q.calls)
    (hq : Later s (s.setStream sid q) → StreamOk cfg (s.setStream sid q) q)
    (hm : (s.stream sid).mutex = none ∨ (s.stream sid).mutex = some t)
    (hth : Later s (s.setStream sid q) → ThreadOk cfg (s.setStream sid q) t th) :
    Streams cfg ((s.setStream sid q).goto t th) := by
  have hl : Later s (s.setStream sid q) := by
    refine ⟨.refl _, fun v i u hu => ?_⟩
    by_cases hv : v = sid
    · subst hv
      rw [State.setStream_stream]
      obtain ⟨tl, htl⟩ := hcalls
      rw [← htl, List.getElem?_append_left (List.getElem?_eq_some_iff.mp hu).1, hu]
    · rwa [State.setStream_stream_of_ne _ _ _ hv]
  have hl' : Later (s.setStream sid q) ((s.setStream sid q).goto t th) :=
    ⟨.refl _, fun _ _ _ => id⟩
  refine h.next (t := t) ⟨hl.grow, hl.calls⟩ ?_ ?_ ?_ ?_
  · intro v hv
    simp [hv]
  · intro v
    by_cases hv : v = sid
    · subst hv
      simp only [State.goto_stream, State.setStream_stream]
      exact .inr ⟨(hq hl).later hl', hm⟩
    · left
      simp [hv]
  · rw [State.goto_thread]
    exact (hth hl).later hl' fun _ _ => rfl
  · exact fun _ _ => .inl

end Streams

omit [DecidableEq Tid] [DecidableEq Sid] [DecidableEq Ev] in
theorem ThreadOk.setSub {th : Thread Sid Ev} {u u' : Sub} (h : ThreadOk cfg s t th)
    (hu : th.sub = some u) (he : u'.entry = u.entry) (hw : u.WaitOk → u'.WaitOk)
    (hr : ∀ f sid, (s.stream sid).tail = some f → u.args.cmd = .wait f → cfg.valid u.ring →
      u.Unrejected → u'.Unrejected) : ThreadOk cfg s t (th.setSub u') := by
  have hfields := he
  simp only [Sub.entry, Prod.mk.injEq] at hfields
  obtain ⟨hring, hargs, -, -, -⟩ := hfields
  cases th with
  | ioctl v =>
    obtain rfl := Option.some.inj hu
    exact hw h
  | flushing c f rest v =>
    obtain rfl := Option.some.inj hu
    obtain ⟨h₁, h₃, ⟨h₄, h₅, h₆⟩, h₇⟩ := h
    exact ⟨h₁, h₃, ⟨hw h₄, hargs ▸ h₅, hring.trans h₆⟩, h₇⟩
  | tailing c v =>
    obtain rfl := Option.some.inj hu
    obtain ⟨h₁, h₃, h₄, h₅, h₆, h₆', f, h₇, h₈⟩ := h
    have hv : cfg.valid v.ring := h₆ ▸ h₁.valid
    exact ⟨h₁, h₃, h₄, hw h₅, hring.trans h₆, hr f _ h₇ h₈ hv h₆', f, h₇, hargs ▸ h₈⟩
  | main c v =>
    obtain rfl := Option.some.inj hu
    obtain ⟨h₁, h₃, h₄, h₅, h₆, h₇, h₈, h₉⟩ := h
    refine ⟨h₁, h₃, h₄, hargs ▸ h₅, hring.trans h₆, fun f hf => (h₇ f hf).congr he,
      fun f hf => (h₈ f hf).congr he, fun r f hf hor => (h₉ r f hf ?_).congr he⟩
    rwa [hring] at hor
  | _ => cases hu

omit [DecidableEq Tid] [DecidableEq Sid] [DecidableEq Ev] in
theorem ThreadOk.main {c : Call Sid Ev} (hs : StreamOk cfg s (s.stream c.stream))
    (h : ThreadOk cfg s t (.tail c))
    (htail : ∀ f, (s.stream c.stream).tail = some f → Placed s.ring f (c.ring cfg)) :
    ThreadOk cfg s t (.main c (s.enterMain cfg c)) := by
  obtain ⟨h₁, h₃, h₄⟩ := h
  refine ⟨h₁, h₃, h₄, rfl, rfl, fun f hf => (htail f hf).after,
    fun f hf => (h₄ f hf).1.after, fun r f hf hr => ?_⟩
  obtain ⟨hplaced, hpub⟩ := hs.orphans r f hf
  obtain rfl | hr := hr
  · exact hplaced.after
  · have hr : f.chan = c.ring cfg := hr
    exact Placed.after (.inl ⟨hr, by rw [← hr]; exact hpub⟩)

omit [DecidableEq Tid] [DecidableEq Sid] [DecidableEq Ev] in
theorem StreamOk.tail_published {q : Stream Tid Sid} {f : Fence} (h : StreamOk cfg s q)
    (hf : q.tail = some f) : cfg.valid f.chan ∧ Published s.ring f := by
  rw [h.tail, Option.map_eq_some_iff] at hf
  obtain ⟨u, hu, rfl⟩ := hf
  obtain ⟨hret, hne⟩ := h.calls u (List.mem_of_getLast? hu)
  exact ⟨hret.valid rfl, (hret.fenced rfl hne).le_mirror⟩

omit [DecidableEq Sid] in
theorem doSubmit_unrejected {x : Rings Tid} {u u' : Sub} {y : Ring.State Tid Cmd} {f : Fence}
    (hf : u.args.cmd = .wait f) (hv : cfg.valid u.ring) (hc : cfg.valid f.chan)
    (hp : Published x f) (hr : u.Unrejected) (hs : doSubmit cfg x t u = some (y, u')) :
    u'.Unrejected := by
  have hst : u.args.staged = false := by simp [Args.staged, hf]
  unfold doSubmit at hs
  split at hs
  · simp only [Option.some.injEq, Prod.mk.injEq] at hs
    obtain ⟨-, rfl⟩ := hs
    have hm : u.args.cmd.misplaced u.ring.1 = false := by
      rw [hf, Cmd.misplaced]
      split <;> rfl
    unfold Sub.check
    rw [if_neg (not_not.mpr hv), if_neg (by simp [hm])]
    split <;> simp [Sub.Unrejected, Sub.goto]
  · split at hs
    · simp only [Option.some.injEq, Prod.mk.injEq] at hs
      obtain ⟨-, rfl⟩ := hs
      simp [Sub.Unrejected, Sub.goto]
    · simp only [Option.map_eq_some_iff, Prod.mk.injEq] at hs
      obtain ⟨-, -, -, rfl⟩ := hs
      simp [Sub.Unrejected, Sub.goto]
  · simp only [Option.some.injEq, Prod.mk.injEq] at hs
    obtain ⟨-, rfl⟩ := hs
    simp only [Sub.dispatch, hf]
    rw [if_pos ⟨hc, hp⟩]
    simp [Sub.Unrejected, Sub.goto]
  · simp only [Option.some.injEq, Prod.mk.injEq] at hs
    obtain ⟨-, rfl⟩ := hs
    simp only [Sub.Unrejected, Sub.goto]
    split <;> simp
  · simp only [Option.map_eq_some_iff, Prod.mk.injEq] at hs
    obtain ⟨-, -, -, rfl⟩ := hs
    split
    · simp [Sub.Unrejected, Sub.enqueued, hst]
    · exact hr
  · simp only [Option.ite_none_right_eq_some, Option.some.injEq, Prod.mk.injEq] at hs
    obtain ⟨-, -, rfl⟩ := hs
    split
    · simp [Sub.Unrejected, Sub.goto]
    · simp only [Sub.copiedOut, Sub.d2hLoop, Sub.Unrejected]
      split
      · simp
      · split
        · simp [Sub.goto]
        · split
          · split <;> simp
          · simp
  · next rc hrc =>
    have hne : rc ≠ .inval := fun he => hr.1 (he ▸ hrc)
    split at hs
    · simp only [Option.some.injEq, Prod.mk.injEq] at hs
      obtain ⟨-, rfl⟩ := hs
      simp [Sub.Unrejected, Sub.goto, hne]
    · simp only [Option.map_eq_some_iff, Prod.mk.injEq] at hs
      obtain ⟨-, -, -, rfl⟩ := hs
      simp [Sub.Unrejected, Sub.goto, hne]
  · cases hs

namespace Streams

omit [DecidableEq Ev] in
theorem abandon (h : Streams cfg s) {c : Call Sid Ev} (hm : (s.stream c.stream).mutex = some t)
    (hflushed : ∀ f ∈ c.flushed, Placed s.ring f (c.ring cfg) ∧ Published s.ring f) :
    Streams cfg (s.abandon cfg t c) := by
  refine h.setStream (List.prefix_refl _) (fun hl => ?_) (.inr hm) fun _ => trivial
  have hold := (h.streams c.stream).later hl
  refine ⟨hold.tail, hold.calls, hold.links, hold.extra, fun r f hf => ?_, hold.waits⟩
  obtain hf | hf := List.mem_append.mp hf
  · exact hold.orphans r f hf
  · obtain ⟨g, hg, he⟩ := List.mem_map.mp hf
    obtain ⟨rfl, rfl⟩ : c.ring cfg = r ∧ g = f := by simpa using he
    exact hflushed g hg

omit [DecidableEq Ev] in
theorem accept (h : Streams cfg s) {c : Call Sid Ev} {u : Sub}
    (hm : (s.stream c.stream).mutex = some t) (hret : Returned cfg s.ring u .ok)
    (hne : u.args.emptyH2D = false)
    (htail : ∀ f, (s.stream c.stream).tail = some f → After s.ring f u) :
    Streams cfg (s.accept t c u) := by
  refine h.setStream (List.prefix_append _ _) (fun hl => ?_) (.inr hm) fun hl => ?_
  · have hold := (h.streams c.stream).later hl
    refine ⟨by simp [Sub.tail], fun v hv => ?_, fun i v w hv hw => ?_, hold.extra, by simp,
      hold.waits⟩
    · obtain hv | hv := List.mem_append.mp hv
      · exact hold.calls v hv
      · obtain rfl := List.mem_singleton.mp hv
        exact ⟨hret, hne⟩
    · have hlen := (List.getElem?_eq_some_iff.mp hw).1
      simp only [List.length_append, List.length_singleton] at hlen
      rw [List.getElem?_append_left (by omega)] at hv
      by_cases hi : i + 1 < (s.stream c.stream).calls.length
      · rw [List.getElem?_append_left hi] at hw
        exact hold.links i v w hv hw
      · -- The new call follows the last one.
        have hlast : (s.stream c.stream).calls.length = i + 1 := by omega
        obtain rfl : u = w := by simpa [← hlast] using hw
        refine htail v.tail ?_
        rw [(h.streams c.stream).tail, List.getLast?_eq_getElem?, hlast, Nat.add_sub_cancel, hv]
        rfl
  · cases c.event with
    | none => trivial
    | some ev =>
      refine ⟨u, ?_, rfl⟩
      simp

omit [DecidableEq Ev] in
theorem leave (h : Streams cfg s) (hi : Inv cfg s) {u : Sub} {rc : Rc}
    (hu : (s.thread t).sub = some u) (hp : u.point = .done rc) :
    Streams cfg ((s.leave u rc).resume cfg t rc (s.thread t)) := by
  have hl : Later s (s.leave u rc) := ⟨.refl _, fun _ _ _ => id⟩
  have h' : Streams cfg (s.leave u rc) :=
    h.next (t := t) hl (fun _ _ => rfl) (fun _ => .inl rfl)
      ((h.threads t).later hl fun _ _ => rfl) fun _ _ => .inl
  have hok := hi.subs t u hu
  have hth : ThreadOk cfg (s.leave u rc) t (s.thread t) := h'.threads t
  have hret : rc = .ok → Returned cfg (s.leave u rc).ring u .ok := by
    intro hrc
    have hinv := hi.leave hu hp
    have hmem : ((s.leave u rc).resume cfg t rc (s.thread t)).submits[s.submits.length]? =
        some (u, rc) := by
      rw [(resume_frame ..).2.1]
      simp [State.leave]
    have hfin := (hinv.returned _ u rc hmem).1
    rw [(resume_frame ..).1, hrc] at hfin
    rwa [hrc]
  generalize hcur : s.thread t = th at hu hth
  cases th with
  | ioctl v => exact h'.goto trivial
  | flushing c f rest v =>
    obtain rfl := Option.some.inj hu
    obtain ⟨h₁, h₃, ⟨h₄, h₅, h₆⟩, placed, h₇, h₈⟩ := hth
    cases rc with
    | ok =>
      refine h'.goto ⟨h₁, h₃, placed ++ [f], by simp [h₇], fun g hg => ?_⟩
      obtain hg | hg := List.mem_append.mp hg
      · exact h₈ g hg
      · obtain rfl := List.mem_singleton.mp hg
        exact h₆ ▸ hok.placed h₄ h₅ hp
    | inval | fault | io =>
      refine h'.setStream (List.prefix_refl _) (fun hl => ?_) (.inr h₃) fun _ => trivial
      have hold := (h'.streams c.stream).later hl
      exact ⟨hold.tail, hold.calls, hold.links, hold.extra, hold.orphans, hold.waits⟩
  | tailing c v =>
    obtain rfl := Option.some.inj hu
    obtain ⟨h₁, h₃, h₄, h₅, h₆, -, f, h₇, h₈⟩ := hth
    cases rc with
    | ok =>
      refine h'.goto (ThreadOk.main (h'.streams _) ⟨h₁, h₃, h₄⟩ fun g hg => ?_)
      obtain rfl := Option.some.inj (hg.symm.trans h₇)
      exact h₆ ▸ hok.placed h₅ h₈ hp
    | inval | fault | io => exact h'.abandon h₃ h₄
  | main c v =>
    obtain rfl := Option.some.inj hu
    obtain ⟨h₁, h₃, h₄, h₅, h₆, h₇, h₈, h₉⟩ := hth
    cases rc with
    | ok =>
      have hne : v.args.emptyH2D = false := by
        rw [h₅]
        exact h₁.nonempty
      exact h'.accept h₃ (hret rfl) hne h₇
    | inval | fault | io => exact h'.abandon h₃ h₄
  | _ => cases hu

end Streams

theorem step_streams {a : Action Tid Sid Ev} (hi : Inv cfg s) (h : Streams cfg s)
    (hok : noEmptyCopy s a) (hs : step cfg s a = some s') : Streams cfg s' := by
  cases step_cases hs with
  | skip => exact h
  | device r a y ha hb hy =>
    have hl : Later s (s.setRing r y) :=
      ⟨.update (Ring.step_effect (hi.rings r) hy), fun _ _ _ => id⟩
    exact ⟨fun sid => (h.streams sid).later hl, fun v => (h.threads v).later hl fun _ _ => rfl,
      fun ev r hr => (h.events ev r hr).later hl⟩
  | submit t u u' y hu hd =>
    obtain ⟨hm, -⟩ := doSubmit_ok (hi.rings _) (hi.subs t u hu) hd
    have hl : Later s ((s.setRing u.ring y).goto t ((s.thread t).setSub u')) :=
      ⟨hm.grow (hi.rings _), fun _ _ _ => id⟩
    refine h.next (t := t) hl (fun v hv => by simp [hv]) (fun _ => .inl rfl) ?_ fun _ _ => .inl
    rw [State.goto_thread]
    refine ThreadOk.later ?_ hl fun _ _ => rfl
    refine (h.threads t).setSub hu (doSubmit_entry hd) (fun hw => doSubmit_waitOk hw hd) ?_
    intro f sid hf hcmd hv hr
    obtain ⟨hc, hp⟩ := (h.streams sid).tail_published hf
    exact doSubmit_unrejected hcmd hv hc hp hr hd
  | leave t u rc hu hp => exact h.leave hi hu hp
  | ioctl t r a hth => exact h.goto fun _ => trivial
  | call t sid a hth ha =>
    refine h.goto ⟨hok, ha, ?_, cfg.channel_lt sid⟩
    simp only [Config.engine, Call.ring]
    split
    · exact cfg.ce_lt sid
    · exact cfg.engines_pos
  | record t ev sid hth =>
    refine h.goto ⟨rfl, rfl, ?_, cfg.channel_lt sid⟩
    simp only [Call.ring]
    cases htail : (s.stream sid).tail with
    | none => exact cfg.engines_pos
    | some f => exact ((h.streams sid).tail_published htail).1.1
  | waitEvent t sid ev r hth hr => exact h.goto (h.events ev r hr)
  | synchronize t sid f hth hf =>
    rw [(h.streams sid).tail, Option.map_eq_some_iff] at hf
    obtain ⟨u, hu, rfl⟩ := hf
    rw [List.getLast?_eq_getElem?] at hu
    refine h.goto ⟨?_, u, hu, rfl⟩
    have := (List.getElem?_eq_some_iff.mp hu).1
    omega
  | lock t c hth hm =>
    have hc : CallOk cfg c := by
      have := h.threads t
      rwa [hth] at this
    refine h.setStream (List.prefix_refl _) (fun hl => ?_) (.inl hm) fun _ => ?_
    · have hold := (h.streams c.stream).later hl
      exact ⟨hold.tail, hold.calls, hold.links, hold.extra, hold.orphans, hold.waits⟩
    · exact ⟨hc, by simp, [], by simp, by simp⟩
  | flushSame t c f rest hth hf =>
    have hcur := h.threads t
    rw [hth] at hcur
    obtain ⟨h₁, h₃, placed, h₄, h₅⟩ := hcur
    refine h.goto ⟨h₁, h₃, placed ++ [f], by simp [h₄], fun g hg => ?_⟩
    obtain hg | hg := List.mem_append.mp hg
    · exact h₅ g hg
    · obtain rfl := List.mem_singleton.mp hg
      have hpub := (h.streams c.stream).extra g (by simp [h₄])
      exact .inl ⟨hf, by rw [← hf]; exact hpub⟩
  | flushWait t c f rest hth hf =>
    have hcur := h.threads t
    rw [hth] at hcur
    obtain ⟨h₁, h₃, h₄⟩ := hcur
    exact h.goto ⟨h₁, h₃, ⟨fun _ => trivial, rfl, rfl⟩, h₄⟩
  | clear t c hth =>
    have hcur := h.threads t
    rw [hth] at hcur
    obtain ⟨h₁, h₃, placed, h₄, h₅⟩ := hcur
    refine h.setStream (List.prefix_refl _) (fun hl => ?_) (.inr h₃) fun hl => ?_
    · have hold := (h.streams c.stream).later hl
      exact ⟨hold.tail, hold.calls, hold.links, by simp, hold.orphans, hold.waits⟩
    · refine ⟨⟨h₁.nonempty, h₁.work, h₁.valid⟩, by simpa using h₃, fun f hf => ?_⟩
      have hpub := (h.streams c.stream).extra f hf
      simp only [h₄, List.append_nil] at hf
      exact ⟨h₅ f hf, hpub⟩
  | tailSkip t c hth htail =>
    have hcur := h.threads t
    rw [hth] at hcur
    refine h.goto (ThreadOk.main (h.streams _) hcur fun f hf => ?_)
    have hpub := ((h.streams c.stream).tail_published hf).2
    have hchan := htail f hf
    exact .inl ⟨hchan, by rw [← hchan]; exact hpub⟩
  | tailWait t c f hth htail hne =>
    have hcur := h.threads t
    rw [hth] at hcur
    obtain ⟨h₁, h₃, h₄⟩ := hcur
    exact h.goto ⟨h₁, h₃, h₄, fun _ => trivial, rfl, ⟨by simp [State.enterWait, State.enter],
      by simp [State.enterWait, State.enter]⟩, f, htail, rfl⟩
  | stamp t ev r hth =>
    have hcur : RecordOk s r := by
      have := h.threads t
      rwa [hth] at this
    have hl : Later s (State.goto { s with event := Function.update s.event ev (some r) }
      t .idle) :=
      ⟨.refl _, fun _ _ _ => id⟩
    refine h.next (t := t) hl (fun v hv => by simp [hv]) (fun _ => .inl rfl) ?_ ?_
    · rw [State.goto_thread]
      trivial
    · intro e q hq
      by_cases he : e = ev
      · subst he
        obtain rfl : r = q := by simpa using hq
        exact .inr (hcur.later hl)
      · exact .inl (by simpa [he] using hq)
  | push t sid r hth hm =>
    have hcur : RecordOk s r := by
      have := h.threads t
      rwa [hth] at this
    obtain ⟨u, hu, hf⟩ := hcur
    refine h.setStream (List.prefix_refl _) (fun hl => ?_) (.inl hm) fun _ => trivial
    have hold := (h.streams sid).later hl
    refine ⟨hold.tail, hold.calls, hold.links, fun f hmem => ?_, hold.orphans, fun w hw => ?_⟩
    · obtain hmem | hmem := List.mem_append.mp hmem
      · exact hold.extra f hmem
      · obtain rfl := List.mem_singleton.mp hmem
        obtain ⟨hret, hne⟩ := (h.streams r.stream).calls u (List.mem_of_getElem? hu)
        rw [hf]
        exact (hret.fenced rfl hne).le_mirror
    · obtain hw | hw := List.mem_append.mp hw
      · exact hold.waits w hw
      · obtain rfl := List.mem_singleton.mp hw
        exact RecordOk.later ⟨u, hu, hf⟩ hl
  | synced t sid n f hth hf => exact h.goto trivial

theorem reach_streams {ok : State Tid Sid Ev → Action Tid Sid Ev → Prop}
    (hok : ∀ s a, ok s a → noEmptyCopy s a) (h : Reach (step cfg) ok init s) : Streams cfg s :=
  h.invariant_of (fun _ => reach_inv) (init_streams cfg) fun _ _ _ hi hst ha hs =>
    step_streams hi hst (hok _ _ ha) hs

/-! ### Order within a stream -/

def Retired (y : Ring.State Tid Cmd) (q : ℕ) : Prop := ∃ c, (c, q) ∈ y.retired

omit [DecidableEq Tid] [DecidableEq Sid] in
theorem retired_of_lt {y : Ring.State Tid Cmd} {q : ℕ} (h : Ring.Inv cfg.ring y)
    (hq : q < y.get) : Retired y q := by
  have hlen := h.get_le.trans h.put_le
  obtain ⟨c, hc⟩ : ∃ c, y.issued[q]? = some c := ⟨_, List.getElem?_eq_getElem (by omega)⟩
  exact ⟨c, by rw [h.log, List.mk_mem_zipIdx_iff_getElem?, List.getElem?_take_of_lt hq, hc]⟩

omit [DecidableEq Tid] [DecidableEq Sid] [DecidableEq Ev] in
theorem Streams.retired (h : Streams cfg s) (hi : Inv cfg s) {sid : Sid} {u : Sub}
    (hu : u ∈ (s.stream sid).calls) (hget : u.fence ≤ (s.ring u.ring).get) :
    ∀ q ∈ u.slots, Retired (s.ring u.ring) q := by
  intro q hq
  obtain ⟨hret, hne⟩ := (h.streams sid).calls u hu
  exact retired_of_lt (hi.rings _) (((hret.fenced rfl hne).above q hq).trans_le hget)

def orderly (s : State Tid Sid Ev) (a : Action Tid Sid Ev) : Prop :=
  noLateError s a ∧ noEmptyCopy s a

instance (s : State Tid Sid Ev) (a : Action Tid Sid Ev) : Decidable (orderly s a) :=
  inferInstanceAs (Decidable (_ ∧ _))

def twoStreams : Config (Fin 2) where
  mode := .ticket
  order := 3
  engines := 2
  channels := 2
  slots := 8
  chunk := 4096
  ce := fun _ => 1
  channel := fun sid => sid
  engines_pos := by decide
  ce_lt := by decide
  channel_lt := by decide

def callRun (sid : Fin 2) (cmd : Cmd) (owned : Bool) (n : ℕ) : List (Action Unit (Fin 2) Unit) :=
  .call () sid ⟨cmd, 4096, owned, false, 0⟩ :: List.replicate n (.run ())

def deviceRun (r : Chan) (as : List (Ring.Action Unit Cmd)) : List (Action Unit (Fin 2) Unit) :=
  as.map (.device r)

def slotsOf (s : State Unit (Fin 2) Unit) (sid : Fin 2) : List (Chan × List ℕ) :=
  (s.stream sid).calls.map fun u => (u.ring, u.slots)

end SoftGpu.Submit
