import SoftGpu.HappensBefore

/-!
# The order of the calls

Two calls on one stream come one before the other by the rings, the waits and what their callers
saw. So do a call before an event was recorded and the calls behind the wait for it.
-/

namespace SoftGpu.Submit

open Machine
open Staging (Chan Fence)

variable {Tid Sid Ev : Type*} [DecidableEq Tid] [DecidableEq Sid] [DecidableEq Ev]
  {cfg : Config Sid} {s s' : State Tid Sid Ev} {t : Tid}

/-! ### What the calls saw -/

/-- A call that a call accepted next on the stream comes after: it was accepted on the stream, or
recorded an event that the stream waits for. -/
def Earlier (s : State Tid Sid Ev) (sid : Sid) (u : Sub) : Prop :=
  u ∈ (s.stream sid).calls ∨
    ∃ w ∈ (s.stream sid).waits, (s.stream w.event.stream).calls[w.event.index]? = some u

structure SeenSorted (s : State Tid Sid Ev) : Prop where
  stream : ∀ (sid : Sid) (i j : ℕ) (u v : Sub), i < j → (s.stream sid).calls[i]? = some u →
    (s.stream sid).calls[j]? = some v → u.seen ≤ v.seen
  event : ∀ sid, ∀ w ∈ (s.stream sid).waits, ∀ (k : ℕ) (u v : Sub), w.start ≤ k →
    (s.stream w.event.stream).calls[w.event.index]? = some u →
    (s.stream sid).calls[k]? = some v → u.seen ≤ v.seen
  main : ∀ t c v, s.thread t = .main c v → ∀ u, Earlier s c.stream u → u.seen ≤ v.seen

omit [DecidableEq Tid] [DecidableEq Sid] [DecidableEq Ev] in
theorem init_seenSorted : SeenSorted (init : State Tid Sid Ev) := by
  constructor <;> simp [init]

omit [DecidableEq Tid] [DecidableEq Sid] [DecidableEq Ev] in
theorem Earlier.seen_le {sid : Sid} {u : Sub} (hst : Streams cfg s) (h : Earlier s sid u) :
    u.seen ≤ fun r => (s.ring r).get := by
  obtain hu | ⟨w, hw, hu⟩ := h
  · exact ((hst.streams sid).calls u hu).1.seen_le
  · exact ((hst.streams _).calls u (List.mem_of_getElem? hu)).1.seen_le

namespace SeenSorted
variable {u : Sub} {rc : Rc}

omit [DecidableEq Tid] [DecidableEq Sid] [DecidableEq Ev] in
theorem frame (h : SeenSorted s) (hst : Streams cfg s)
    (hcalls : ∀ sid, (s'.stream sid).calls = (s.stream sid).calls)
    (hwaits : ∀ sid, (s'.stream sid).waits = (s.stream sid).waits)
    (hmain : ∀ t c v, s'.thread t = .main c v → (∃ w, s.thread t = .main c w ∧ v.seen = w.seen) ∨
      v.seen = fun r => (s.ring r).get) : SeenSorted s' where
  stream := by
    simp only [hcalls]
    exact h.stream
  event := by
    simp only [hcalls, hwaits]
    exact h.event
  main := by
    intro t c v hv u hu
    simp only [Earlier, hcalls, hwaits] at hu
    obtain ⟨w, hw, hseen⟩ | hseen := hmain t c v hv
    · rw [hseen]
      exact h.main t c w hw u hu
    · rw [hseen]
      exact Earlier.seen_le hst hu

omit [DecidableEq Sid] [DecidableEq Ev] in
theorem quiet (h : SeenSorted s) (hst : Streams cfg s)
    (hcalls : ∀ sid, (s'.stream sid).calls = (s.stream sid).calls)
    (hwaits : ∀ sid, (s'.stream sid).waits = (s.stream sid).waits)
    (hthread : ∀ v ≠ t, s'.thread v = s.thread v)
    (hmain : ∀ c v, s'.thread t = .main c v → v.seen = fun r => (s.ring r).get) :
    SeenSorted s' := by
  apply h.frame hst hcalls hwaits
  intro v c u hu
  by_cases hv : v = t
  · subst hv
    exact .inr (hmain c u hu)
  · rw [hthread v hv] at hu
    exact .inl ⟨u, hu, rfl⟩

omit [DecidableEq Ev] in
theorem accept (h : SeenSorted s) (hst : Streams cfg s) {c : Call Sid Ev} {v : Sub}
    (hth : s.thread t = .main c v) : SeenSorted (s.accept t c v) := by
  have hcalls : ∀ sid (k : ℕ) u, ((s.accept t c v).stream sid).calls[k]? = some u →
      (s.stream sid).calls[k]? = some u ∨ sid = c.stream ∧ u = v ∧
        k = (s.stream sid).calls.length := by
    intro sid k u hu
    by_cases hsid : sid = c.stream
    · subst hsid
      simp only [State.accept, State.goto_stream, State.setStream_stream] at hu
      by_cases hk : k < (s.stream c.stream).calls.length
      · rw [List.getElem?_append_left hk] at hu
        exact .inl hu
      · have hlen := (List.getElem?_eq_some_iff.mp hu).1
        simp only [List.length_append, List.length_singleton] at hlen
        obtain rfl : k = (s.stream c.stream).calls.length := by omega
        exact .inr ⟨rfl, by simpa using hu.symm, rfl⟩
    · simp only [State.accept, State.goto_stream, State.setStream_stream_of_ne _ _ _ hsid] at hu
      exact .inl hu
  have hwaits : ∀ sid, ((s.accept t c v).stream sid).waits = (s.stream sid).waits := by
    intro sid
    by_cases hsid : sid = c.stream
    · subst hsid
      simp [State.accept]
    · simp [State.accept, hsid]
  -- The call that recorded an event was accepted before the wait for the event.
  have hrecord : ∀ sid, ∀ w ∈ (s.stream sid).waits, ∀ u,
      ((s.accept t c v).stream w.event.stream).calls[w.event.index]? = some u →
      (s.stream w.event.stream).calls[w.event.index]? = some u := by
    intro sid w hw u hu
    obtain hu | ⟨-, -, hk⟩ := hcalls _ _ u hu
    · exact hu
    · obtain ⟨r, hr, -⟩ := (hst.streams sid).waits w hw
      have hlt := (List.getElem?_eq_some_iff.mp hr).1
      omega
  constructor
  · intro sid i j u w hij hu hw
    obtain hw | ⟨rfl, rfl, rfl⟩ := hcalls sid j w hw
    · obtain hu | ⟨-, -, rfl⟩ := hcalls sid i u hu
      · exact h.stream sid i j u w hij hu hw
      · have hlt := (List.getElem?_eq_some_iff.mp hw).1
        omega
    · obtain hu | ⟨-, -, rfl⟩ := hcalls _ i u hu
      · exact h.main t c w hth u (.inl (List.mem_of_getElem? hu))
      · omega
  · intro sid w hw k u x hk hu hx
    rw [hwaits] at hw
    replace hu := hrecord sid w hw u hu
    obtain hx | ⟨rfl, rfl, rfl⟩ := hcalls sid k x hx
    · exact h.event sid w hw k u x hk hu hx
    · exact h.main t c x hth u (.inr ⟨w, hw, hu⟩)
  · intro p d w hw u hu
    by_cases hp : p = t
    · subst hp
      rw [State.accept, State.goto_thread] at hw
      cases hev : c.event <;> simp [hev] at hw
    · have hw : s.thread p = .main d w := by simpa [State.accept, hp] using hw
      -- Only one thread holds the stream's mutex.
      have hne : d.stream ≠ c.stream := by
        intro heq
        have h₁ : (s.stream d.stream).mutex = some p := (hst.threads p).mutex (by rw [hw]; rfl)
        have h₂ : (s.stream c.stream).mutex = some t := (hst.threads t).mutex (by rw [hth]; rfl)
        rw [heq, h₂] at h₁
        exact hp (Option.some.inj h₁).symm
      apply h.main p d w hw u
      obtain hu | ⟨x, hx, hu⟩ := hu
      · left
        simpa [State.accept, hne] using hu
      · rw [hwaits] at hx
        exact .inr ⟨x, hx, hrecord _ x hx u hu⟩

omit [DecidableEq Ev] in
theorem push (h : SeenSorted s) (hst : Streams cfg s) {sid : Sid} {r : Recorded Sid}
    {q : Stream Tid Sid} (hm : (s.stream sid).mutex = none)
    (hq : q.calls = (s.stream sid).calls)
    (hwaits : q.waits = (s.stream sid).waits ++ [⟨(s.stream sid).calls.length, r⟩]) :
    SeenSorted ((s.setStream sid q).goto t .idle) := by
  have hcalls : ∀ p, (((s.setStream sid q).goto t .idle).stream p).calls = (s.stream p).calls :=
    fun _ => setStream_calls hq
  constructor
  · simp only [hcalls]
    exact h.stream
  · intro p w hw k u v hk hu hv
    rw [hcalls] at hu hv
    by_cases hp : p = sid
    · subst hp
      rw [State.goto_stream, State.setStream_stream, hwaits] at hw
      obtain hw | hw := List.mem_append.mp hw
      · exact h.event p w hw k u v hk hu hv
      · obtain rfl := List.mem_singleton.mp hw
        have hlt := (List.getElem?_eq_some_iff.mp hv).1
        dsimp only at hk
        omega
    · rw [State.goto_stream, State.setStream_stream_of_ne _ _ _ hp] at hw
      exact h.event p w hw k u v hk hu hv
  · intro p d w hw u hu
    have hp : p ≠ t := by
      rintro rfl
      rw [State.goto_thread] at hw
      cases hw
    have hw : s.thread p = .main d w := by simpa [hp] using hw
    -- Nobody is inside a call on the stream.
    have hne : d.stream ≠ sid := by
      intro heq
      have hheld : (s.stream d.stream).mutex = some p :=
        (hst.threads p).mutex (by rw [hw]; rfl)
      rw [heq, hm] at hheld
      cases hheld
    apply h.main p d w hw u
    simp only [Earlier, hcalls] at hu
    rw [State.goto_stream, State.setStream_stream_of_ne _ _ _ hne] at hu
    exact hu

omit [DecidableEq Ev] in
theorem leave (h : SeenSorted s) (hst : Streams cfg s) (hst' : Streams cfg (s.leave u rc))
    (hu : (s.thread t).sub = some u) :
    SeenSorted ((s.leave u rc).resume cfg t rc (s.thread t)) := by
  have h' : SeenSorted (s.leave u rc) := by
    obtain ⟨h₁, h₂, h₃⟩ := h
    exact ⟨h₁, h₂, h₃⟩
  have hth : (s.leave u rc).thread t = s.thread t := rfl
  have hidle : ∀ {p : State Tid Sid Ev} {th : Thread Sid Ev}, p.thread = s.thread →
      (∀ sid, (p.stream sid).calls = (s.stream sid).calls) →
      (∀ sid, (p.stream sid).waits = (s.stream sid).waits) →
      (∀ c v, th = .main c v → v.seen = fun r => (s.ring r).get) → SeenSorted (p.goto t th) := by
    intro p th hp hcalls hwaits hmain
    refine h.quiet (t := t) hst ?_ ?_ ?_ ?_
    · exact hcalls
    · exact hwaits
    · intro v hv
      rw [State.goto_thread_of_ne _ _ _ hv, hp]
    · intro c v hv
      rw [State.goto_thread] at hv
      exact hmain c v hv
  have hset : ∀ {sid : Sid} {q : Stream Tid Sid}, q.calls = (s.stream sid).calls →
      q.waits = (s.stream sid).waits →
        SeenSorted (((s.leave u rc).setStream sid q).goto t .idle) := by
    intro sid q hcalls hwaits
    refine hidle ?_ ?_ ?_ ?_
    · rfl
    · intro p
      by_cases hp : p = sid
      · rw [hp, State.setStream_stream, hcalls]
      · rw [State.setStream_stream_of_ne _ _ _ hp]
        rfl
    · intro p
      by_cases hp : p = sid
      · rw [hp, State.setStream_stream, hwaits]
      · rw [State.setStream_stream_of_ne _ _ _ hp]
        rfl
    · exact fun c v hv => by cases hv
  generalize hcur : s.thread t = th at hu hth
  cases th with
  | ioctl v => exact hidle rfl (fun _ => rfl) (fun _ => rfl) fun c v hv => by cases hv
  | flushing c f rest v =>
    cases rc with
    | ok => exact hidle rfl (fun _ => rfl) (fun _ => rfl) fun c v hv => by cases hv
    | inval | fault | io => exact hset rfl rfl
  | tailing c v =>
    cases rc with
    | ok =>
      refine hidle rfl (fun _ => rfl) (fun _ => rfl) fun d w hw => ?_
      cases hw
      rfl
    | inval | fault | io => exact hset rfl rfl
  | main c v =>
    obtain rfl := Option.some.inj hu
    cases rc with
    | ok => exact h'.accept hst' hth
    | inval | fault | io => exact hset rfl rfl
  | _ => cases hu

end SeenSorted

theorem step_seenSorted {a : Action Tid Sid Ev} (hst : Streams cfg s) (h : SeenSorted s)
    (hs : step cfg s a = some s') : SeenSorted s' := by
  have hne : ∀ (p : State Tid Sid Ev) (t : Tid) (th : Thread Sid Ev), p.thread = s.thread →
      ∀ v ≠ t, (p.goto t th).thread v = s.thread v := by
    intro p t th hp v hv
    rw [State.goto_thread_of_ne _ _ _ hv, hp]
  have hnone : ∀ (p : State Tid Sid Ev) (t : Tid) {th : Thread Sid Ev}, (∀ c v, th ≠ .main c v) →
      ∀ c v, (p.goto t th).thread t = .main c v → v.seen = fun r => (s.ring r).get := by
    intro p t th hth c v hv
    rw [State.goto_thread] at hv
    exact absurd hv (hth c v)
  have hstream : ∀ {t : Tid} {sid : Sid} {q : Stream Tid Sid} {th : Thread Sid Ev},
      q.calls = (s.stream sid).calls → q.waits = (s.stream sid).waits →
      (∀ c v, th ≠ .main c v) → SeenSorted ((s.setStream sid q).goto t th) := by
    intro t sid q th hcalls hwaits hth
    refine h.quiet (t := t) hst ?_ ?_ (hne _ t th rfl) (hnone _ t hth)
    · exact fun _ => setStream_calls hcalls
    · intro p
      by_cases hp : p = sid
      · rw [hp, State.goto_stream, State.setStream_stream, hwaits]
      · rw [State.goto_stream, State.setStream_stream_of_ne _ _ _ hp]
  cases step_cases hs with
  | skip => exact h
  | device r a y ha hb hy =>
    exact h.frame hst (fun _ => rfl) (fun _ => rfl) fun t c v hv => .inl ⟨v, hv, rfl⟩
  | submit t u u' y hu hd =>
    refine h.frame hst ?_ ?_ ?_
    · exact fun _ => rfl
    · exact fun _ => rfl
    intro v c w hw
    by_cases hv : v = t
    · subst hv
      rw [State.goto_thread] at hw
      have hentry := doSubmit_entry hd
      simp only [Sub.entry, Prod.mk.injEq] at hentry
      generalize s.thread v = th at hu hw
      cases th with
      | main d x =>
        obtain rfl := Option.some.inj hu
        cases hw
        exact .inl ⟨x, rfl, hentry.2.2.2.2⟩
      | _ => cases hw
    · rw [State.goto_thread_of_ne _ _ _ hv] at hw
      exact .inl ⟨w, hw, rfl⟩
  | leave t u rc hu hp =>
    have hst' : Streams cfg (s.leave u rc) :=
      hst.next (t := t) ⟨.refl _, fun _ _ _ => id⟩ (fun _ _ => rfl) (fun _ => .inl rfl)
        ((hst.threads t).later ⟨.refl _, fun _ _ _ => id⟩ fun _ _ => rfl) fun _ _ => .inl
    exact h.leave hst hst' hu
  | lock t c hth => exact hstream rfl rfl fun c v hv => by cases hv
  | clear t c hth => exact hstream rfl rfl fun c v hv => by cases hv
  | push t sid r hth hm => exact h.push hst hm rfl rfl
  | tailSkip t c hth =>
    refine h.quiet (t := t) hst ?_ ?_ (hne _ t _ rfl) ?_
    · exact fun _ => rfl
    · exact fun _ => rfl
    · intro d v hv
      rw [State.goto_thread] at hv
      cases hv
      rfl
  | ioctl t | call t | record t | waitEvent t | synchronize t | flushSame t | flushWait t
  | tailWait t | stamp t | synced t =>
    refine h.quiet (t := t) hst ?_ ?_ (hne _ t _ rfl) (hnone _ t fun c v hv => by cases hv)
    · exact fun _ => rfl
    · exact fun _ => rfl

theorem reach_seenSorted {ok : State Tid Sid Ev → Action Tid Sid Ev → Prop}
    (hok : ∀ s a, ok s a → noEmptyCopy s a) (h : Reach (step cfg) ok init s) : SeenSorted s :=
  h.invariant_of (fun _ hr => reach_streams hok hr) init_seenSorted fun _ _ _ hst hse _ hs =>
    step_seenSorted hst hse hs

/-! ### Calls and slots -/

def Knows (s : State Tid Sid Ev) (u : Sub) (a : Slot) : Prop :=
  ∃ b, Relation.ReflTransGen (Edge s) a b ∧ (b.2 < u.seen b.1 ∨ b.1 = u.ring ∧ b.2 < u.base)

section Knows
variable {u v : Sub} {a : Slot}

omit [DecidableEq Tid] [DecidableEq Sid] [DecidableEq Ev] in
theorem Knows.of_after (h : After s.ring u.tail v) (ha : a.1 = u.ring) (hlt : a.2 < u.fence) :
    Knows s v a := by
  obtain ⟨hring, hbase⟩ | ⟨w, hw, hwait⟩ | hseen := h
  · exact ⟨a, .refl, .inr ⟨ha.trans hring.symm, hlt.trans_le hbase⟩⟩
  · obtain ⟨r, q⟩ := a
    obtain rfl : r = u.ring := ha
    exact ⟨(v.ring, w), .single (.fence hwait le_rfl hlt), .inr ⟨rfl, hw⟩⟩
  · refine ⟨a, .refl, .inl ?_⟩
    rw [ha]
    exact hlt.trans_le hseen

omit [DecidableEq Tid] [DecidableEq Sid] [DecidableEq Ev] in
theorem Knows.next (h : Knows s u a) (hafter : After s.ring u.tail v) (hseen : u.seen ≤ v.seen)
    (hbase : u.base ≤ u.fence) : Knows s v a := by
  obtain ⟨b, hab, hlt | ⟨hring, hlt⟩⟩ := h
  · exact ⟨b, hab, .inl (hlt.trans_le (hseen _))⟩
  · obtain ⟨c, hbc, hc⟩ := Knows.of_after hafter hring (hlt.trans_le hbase)
    exact ⟨c, hab.trans hbc, hc⟩

omit [DecidableEq Tid] [DecidableEq Sid] [DecidableEq Ev] in
theorem Knows.before (h : Knows s u a) {q : ℕ} (hq : Took s u q) (hbase : u.base ≤ q) :
    Before s a (u.ring, q) := by
  obtain ⟨⟨r, m⟩, hab, hlt | ⟨hring, hlt⟩⟩ := h
  · exact .tail' hab (.observed hq hlt)
  · obtain rfl : r = u.ring := hring
    exact .tail' hab (.ring (hlt.trans_le hbase))

end Knows

omit [DecidableEq Tid] [DecidableEq Sid] [DecidableEq Ev] in
theorem Streams.knows_of_knows (h : Streams cfg s) (hsorted : SeenSorted s) {sid : Sid} {i j : ℕ}
    {u v : Sub} (hij : i ≤ j) (hu : (s.stream sid).calls[i]? = some u)
    (hv : (s.stream sid).calls[j]? = some v) {a : Slot} (ha : Knows s u a) : Knows s v a := by
  have hst := h.streams sid
  induction j, hij using Nat.le_induction generalizing v with
  | base =>
    obtain rfl := Option.some.inj (hu.symm.trans hv)
    exact ha
  | succ j hij ih =>
    have hlen := (List.getElem?_eq_some_iff.mp hv).1
    obtain ⟨w, hw⟩ : ∃ w, (s.stream sid).calls[j]? = some w :=
      ⟨_, List.getElem?_eq_getElem (by omega)⟩
    obtain ⟨hret, hne⟩ := hst.calls w (List.mem_of_getElem? hw)
    exact (ih hw).next (hst.links j w v hw hv) (hsorted.stream sid j (j + 1) w v (by omega) hw hv)
      (hret.fenced rfl hne).base_le

omit [DecidableEq Tid] [DecidableEq Sid] [DecidableEq Ev] in
theorem Streams.knows (h : Streams cfg s) (hsorted : SeenSorted s) {sid : Sid} {i j : ℕ}
    {u v : Sub} (hij : i < j) (hu : (s.stream sid).calls[i]? = some u)
    (hv : (s.stream sid).calls[j]? = some v) {a : Slot} (ha : a.1 = u.ring)
    (hlt : a.2 < u.fence) : Knows s v a := by
  have hlen := (List.getElem?_eq_some_iff.mp hv).1
  obtain ⟨w, hw⟩ : ∃ w, (s.stream sid).calls[i + 1]? = some w :=
    ⟨_, List.getElem?_eq_getElem (by omega)⟩
  exact h.knows_of_knows hsorted (by omega) hw hv
    (.of_after ((h.streams sid).links i u w hu hw) ha hlt)

/-- The order of streams and events is an order of slots. In every run in which the event waits
are kept: of two calls accepted on one stream, each slot of the earlier one comes before each slot
of the later one, and each slot of a call that an event was recorded behind comes before each slot
of a call behind a wait for the event. -/
theorem calls_before (h : Reach (step cfg) waitsKept init s) :
    (∀ (sid : Sid) (i j : ℕ) (u v : Sub), i < j → (s.stream sid).calls[i]? = some u →
      (s.stream sid).calls[j]? = some v → ∀ q ∈ u.slots, ∀ p ∈ v.slots,
      Before s (u.ring, q) (v.ring, p)) ∧
    ∀ sid, ∀ w ∈ (s.stream sid).waits, ∀ (k : ℕ) (v : Sub), w.start ≤ k →
      (s.stream sid).calls[k]? = some v → ∀ (i : ℕ) (u : Sub), i ≤ w.event.index →
        (s.stream w.event.stream).calls[i]? = some u → ∀ q ∈ u.slots, ∀ p ∈ v.slots,
        Before s (u.ring, q) (v.ring, p) := by
  have hst := reach_streams (fun _ _ ha => ha.1.2) h
  have hev := reach_events h
  have hsorted := reach_seenSorted (fun _ _ ha => ha.1.2) h
  have hfenced : ∀ {sid : Sid} {k : ℕ} {u : Sub}, (s.stream sid).calls[k]? = some u →
      u.base ≤ u.fence ∧ ∀ q ∈ u.slots, q < u.fence := by
    intro sid k u hu
    obtain ⟨hret, hne⟩ := (hst.streams sid).calls u (List.mem_of_getElem? hu)
    exact ⟨(hret.fenced rfl hne).base_le, (hret.fenced rfl hne).above⟩
  have hbefore : ∀ {sid : Sid} {k : ℕ} {v : Sub} {a : Slot}, (s.stream sid).calls[k]? = some v →
      Knows s v a → ∀ p ∈ v.slots, Before s a (v.ring, p) := by
    intro sid k v a hv hknows p hp
    have hmem := List.mem_of_getElem? hv
    exact hknows.before (.accepted hmem hp) (((hst.streams sid).calls v hmem).1.slots p hp).1
  constructor
  · intro sid i j u v hij hu hv q hq
    exact hbefore hv (hst.knows hsorted hij hu hv rfl ((hfenced hu).2 q hq))
  · intro sid w hw k v hk hv i u hi hu q hq
    apply hbefore hv
    have hlen := (List.getElem?_eq_some_iff.mp hv).1
    have hlt : w.start < (s.stream sid).calls.length := by omega
    have hv₀ := List.getElem?_eq_getElem hlt
    obtain ⟨r, hr, hrf⟩ := (hst.streams sid).waits w hw
    have hafter := hev.after sid w hw _ hv₀
    rw [hrf] at hafter
    -- The first call behind the wait knows the slot.
    have hfirst : Knows s (s.stream sid).calls[w.start] (u.ring, q) := by
      by_cases he : i = w.event.index
      · subst he
        obtain rfl := Option.some.inj (hu.symm.trans hr)
        exact .of_after hafter rfl ((hfenced hu).2 q hq)
      · have hrec := hst.knows hsorted (by omega) hu hr (a := (u.ring, q)) rfl
          ((hfenced hu).2 q hq)
        exact hrec.next hafter (hsorted.event sid w hw w.start r _ le_rfl hr hv₀) (hfenced hr).1
    by_cases he : w.start = k
    · subst he
      obtain rfl := Option.some.inj (hv₀.symm.trans hv)
      exact hfirst
    · exact hst.knows_of_knows hsorted (by omega) hv₀ hv hfirst

/-- The fill comes before the event's `NOP` and, by the event, before the copy. -/
theorem calls_before_copy :
    ∃ s, exec (when waitsKept (step twoStreams)) init copyAfterEvent = some s ∧
      Before s ((0, 0), 0) ((0, 0), 1) ∧ Before s ((0, 0), 0) ((1, 1), 1) := by
  have hrun : (exec (when waitsKept (step twoStreams)) init copyAfterEvent).map outcome =
      some ⟨[((0, 0), [0]), ((0, 0), [1])], [((1, 1), [1])], [(0, 0, 1)], 2,
        [(.fill, 0), (.nop, 1)]⟩ := by decide +kernel
  obtain ⟨s, hs, hq⟩ := Option.map_eq_some_iff.mp hrun
  simp only [outcome, Outcome.mk.injEq] at hq
  obtain ⟨hfirst, hsecond, hwaits, -⟩ := hq
  have hcall : ∀ {sid : Fin 2} {l : List (Chan × List ℕ)} {k : ℕ} {x : Chan × List ℕ},
      slotsOf s sid = l → l[k]? = some x →
      ∃ u, (s.stream sid).calls[k]? = some u ∧ u.ring = x.1 ∧ u.slots = x.2 := by
    intro sid l k x hl hx
    rw [← hl, slotsOf, List.getElem?_map, Option.map_eq_some_iff] at hx
    obtain ⟨u, hu, rfl⟩ := hx
    exact ⟨u, hu, rfl, rfl⟩
  obtain ⟨u, hu, huring, huslots⟩ := hcall (k := 0) hfirst rfl
  obtain ⟨n, hn, hnring, hnslots⟩ := hcall (k := 1) hfirst rfl
  obtain ⟨v, hv, hvring, hvslots⟩ := hcall (k := 0) hsecond rfl
  obtain ⟨w, hw, hwq⟩ : ∃ w ∈ (s.stream 1).waits,
      (w.start, w.event.stream, w.event.index) = (0, 0, 1) := by
    have hmem : ((0, 0, 1) : ℕ × Fin 2 × ℕ) ∈ waitsOf s 1 := by simp [hwaits]
    simpa [waitsOf] using hmem
  simp only [Prod.mk.injEq] at hwq
  obtain ⟨hstart, hstream, hindex⟩ := hwq
  obtain ⟨hstreams, hevents⟩ := calls_before (.of_exec_when .refl hs)
  have hnop := hstreams 0 0 1 u n zero_lt_one hu hn 0 (by simp [huslots]) 1 (by simp [hnslots])
  have hcopy := hevents 1 w hw 0 v hstart.le hv 0 u (Nat.zero_le _) (by rwa [hstream]) 0
    (by simp [huslots]) 1 (by simp [hvslots])
  rw [huring, hnring] at hnop
  rw [huring, hvring] at hcopy
  exact ⟨s, hs, hnop, hcopy⟩

end SoftGpu.Submit
