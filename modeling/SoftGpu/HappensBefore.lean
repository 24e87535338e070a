import SoftGpu.EventOrder

/-!
# What comes before a command

A slot comes before another one if both are on one ring, if a `WAIT_FENCE` is between them, or if
its command had retired when the SUBMIT that took the other one was called. What comes before a
command has retired when the command starts.
-/

namespace SoftGpu.Submit

open Machine
open Staging (Chan Fence)

variable {Tid Sid Ev : Type*} [DecidableEq Tid] [DecidableEq Sid] [DecidableEq Ev]
  {cfg : Config Sid} {s s' : State Tid Sid Ev} {t : Tid}

abbrev Slot := Chan × ℕ

/-! ### SUBMITs and their slots -/

def Sub.Has (x : Rings Tid) (t : Tid) (u : Sub) (q : ℕ) : Prop :=
  q ∈ u.slots ∨ ∃ c, ((x u.ring).point t).claim = some (q, c)

inductive Took (s : State Tid Sid Ev) : Sub → ℕ → Prop
  | running {t : Tid} {u : Sub} {q : ℕ} : (s.thread t).sub = some u → u.Has s.ring t q → Took s u q
  | returned {u : Sub} {rc : Rc} {q : ℕ} : (u, rc) ∈ s.submits → q ∈ u.slots → Took s u q
  | accepted {sid : Sid} {u : Sub} {q : ℕ} : u ∈ (s.stream sid).calls → q ∈ u.slots → Took s u q

omit [DecidableEq Tid] [DecidableEq Sid] [DecidableEq Ev] in
theorem Took.seen_le {u : Sub} {q : ℕ} (h : Took s u q) (hi : Inv cfg s) (hst : Streams cfg s)
    (r : Chan) : u.seen r ≤ (s.ring r).get := by
  cases h with
  | running hu _ => exact (hi.subs _ _ hu).seen_le r
  | returned hu _ =>
    obtain ⟨i, hget⟩ := List.mem_iff_getElem?.mp hu
    exact (hi.returned i _ _ hget).1.seen_le r
  | accepted hu _ => exact ((hst.streams _).calls _ hu).1.seen_le r

section Fresh
variable {x : Rings Tid} {u u' : Sub} {y : Ring.State Tid Cmd} {q : ℕ}

theorem Sub.slots_h2dLoop (u : Sub) : u.h2dLoop.slots = u.slots := by
  unfold Sub.h2dLoop
  split_ifs <;> rfl

omit [DecidableEq Sid] in
theorem Sub.slots_d2hLoop (cfg : Config Sid) (m : ℕ) (u : Sub) :
    (u.d2hLoop cfg m).slots = u.slots := by
  unfold Sub.d2hLoop
  split_ifs
  · rfl
  · split <;> rfl
  · rfl

omit [DecidableEq Sid] in
theorem Sub.slots_enqueued (cfg : Config Sid) (m k : ℕ) (u : Sub) :
    (u.enqueued cfg m k).slots = u.slots ++ [k] := by
  unfold Sub.enqueued
  split_ifs
  · rfl
  · exact Sub.slots_h2dLoop _
  · exact Sub.slots_d2hLoop ..

omit [DecidableEq Tid] [DecidableEq Sid] in
theorem Sub.slots_check (cfg : Config Sid) (x : Rings Tid) (u : Sub) :
    (u.check cfg x).slots = u.slots := by
  unfold Sub.check
  split_ifs <;> rfl

omit [DecidableEq Tid] [DecidableEq Sid] in
theorem Sub.slots_dispatch (cfg : Config Sid) (x : Rings Tid) (u : Sub) :
    (u.dispatch cfg x).slots = u.slots := by
  unfold Sub.dispatch
  split
  · rfl
  all_goals split_ifs <;> simp [Sub.goto, Sub.slots_h2dLoop, Sub.slots_d2hLoop]

omit [DecidableEq Sid] in
theorem Sub.slots_copiedOut (cfg : Config Sid) (m : ℕ) (u : Sub) :
    (u.copiedOut cfg m).slots = u.slots := by
  unfold Sub.copiedOut
  split_ifs
  · rfl
  · exact Sub.slots_d2hLoop ..

omit [DecidableEq Sid] in
theorem doSubmit_slots (hp : u.point ≠ .enqueue) (hs : doSubmit cfg x t u = some (y, u')) :
    u'.slots = u.slots ∧ y.point = (x u.ring).point := by
  unfold doSubmit at hs
  split at hs
  · simp only [Option.some.injEq, Prod.mk.injEq] at hs
    obtain ⟨rfl, rfl⟩ := hs
    exact ⟨Sub.slots_check .., rfl⟩
  · split at hs
    · simp only [Option.some.injEq, Prod.mk.injEq] at hs
      obtain ⟨rfl, rfl⟩ := hs
      exact ⟨rfl, rfl⟩
    · simp only [Option.map_eq_some_iff, Prod.mk.injEq] at hs
      obtain ⟨z, hz, rfl, rfl⟩ := hs
      exact ⟨rfl, lock_point (.inl rfl) hz⟩
  · simp only [Option.some.injEq, Prod.mk.injEq] at hs
    obtain ⟨rfl, rfl⟩ := hs
    exact ⟨Sub.slots_dispatch .., rfl⟩
  · simp only [Option.some.injEq, Prod.mk.injEq] at hs
    obtain ⟨rfl, rfl⟩ := hs
    exact ⟨rfl, rfl⟩
  · next hq => exact absurd hq hp
  · simp only [Option.ite_none_right_eq_some, Option.some.injEq, Prod.mk.injEq] at hs
    obtain ⟨-, rfl, rfl⟩ := hs
    split
    · exact ⟨rfl, rfl⟩
    · exact ⟨Sub.slots_copiedOut .., rfl⟩
  · split at hs
    · simp only [Option.some.injEq, Prod.mk.injEq] at hs
      obtain ⟨rfl, rfl⟩ := hs
      exact ⟨rfl, rfl⟩
    · simp only [Option.map_eq_some_iff, Prod.mk.injEq] at hs
      obtain ⟨z, hz, rfl, rfl⟩ := hs
      exact ⟨rfl, lock_point (.inr rfl) hz⟩
  · cases hs

omit [DecidableEq Sid] in
theorem doSubmit_has (hi : Ring.Inv cfg.ring (x u.ring)) (hs : doSubmit cfg x t u = some (y, u'))
    (h : u'.Has (Function.update x u.ring y) t q) :
    u.Has x t q ∨ (x u.ring).issued.length ≤ q := by
  have hentry := doSubmit_entry hs
  simp only [Sub.entry, Prod.mk.injEq] at hentry
  obtain ⟨hring, -⟩ := hentry
  simp only [Sub.Has, hring, Function.update_self] at h ⊢
  by_cases hp : u.point = .enqueue
  · simp only [doSubmit, hp, Option.map_eq_some_iff, Prod.mk.injEq] at hs
    obtain ⟨z, hz, rfl, rfl⟩ := hs
    obtain ⟨k, c, hk, hidle⟩ | ⟨hno, k, c, hnew, hold⟩ := enqueue_cases hi hz
    · simp only [hk, Sub.slots_enqueued, hidle, Ring.Point.claim, reduceCtorEq, exists_const,
        or_false, List.mem_append, List.mem_singleton] at h ⊢
      obtain h | rfl := h
      · exact .inl (.inl h)
      · exact .inl (.inr ⟨c, rfl⟩)
    · split at h
      · next k' c' hk => exact absurd hk (hno k' c')
      · obtain h | ⟨d, h⟩ := h
        · exact .inl (.inl h)
        · rw [hnew] at h
          obtain ⟨rfl, rfl⟩ : k = q ∧ c = d := by simpa using h
          obtain hold | ⟨-, rfl, -⟩ := hold
          · exact .inl (.inr ⟨c, hold⟩)
          · exact .inr le_rfl
  · obtain ⟨hslots, hpoint⟩ := doSubmit_slots hp hs
    rw [hslots, hpoint] at h
    exact .inl h

end Fresh

omit [DecidableEq Ev] in
theorem setStream_calls {sid p : Sid} {q : Stream Tid Sid} {th : Thread Sid Ev}
    (hq : q.calls = (s.stream sid).calls) :
    (((s.setStream sid q).goto t th).stream p).calls = (s.stream p).calls := by
  by_cases hp : p = sid
  · rw [hp, State.goto_stream, State.setStream_stream, hq]
  · rw [State.goto_stream, State.setStream_stream_of_ne _ _ _ hp]

omit [DecidableEq Ev] in
theorem resume_calls (cfg : Config Sid) (s : State Tid Sid Ev) (t : Tid) (rc : Rc)
    (th : Thread Sid Ev) (p : Sid) :
    ((s.resume cfg t rc th).stream p).calls = (s.stream p).calls ∨ ∃ c u, th = .main c u ∧
      p = c.stream ∧ ((s.resume cfg t rc th).stream p).calls = (s.stream p).calls ++ [u] := by
  have habandon : ∀ c, ((s.abandon cfg t c).stream p).calls = (s.stream p).calls := fun _ =>
    setStream_calls rfl
  cases th with
  | flushing c f rest u =>
    left
    cases rc with
    | ok => rfl
    | inval | fault | io => exact setStream_calls rfl
  | tailing c u =>
    left
    cases rc with
    | ok => rfl
    | inval | fault | io => exact habandon c
  | main c u =>
    cases rc with
    | ok =>
      by_cases hp : p = c.stream
      · subst hp
        exact .inr ⟨c, u, rfl, rfl, by simp [State.resume, State.accept]⟩
      · left
        simp [State.resume, State.accept, hp]
    | inval | fault | io => exact .inl (habandon c)
  | _ => exact .inl rfl

namespace Took
variable {u : Sub} {rc : Rc} {q : ℕ}

omit [DecidableEq Sid] [DecidableEq Ev] in
theorem quiet (hi' : Inv cfg s') (hring : s'.ring = s.ring) (hsubmits : s'.submits = s.submits)
    (hthread : ∀ v ≠ t, s'.thread v = s.thread v)
    (hsub : (s'.thread t).sub = none ∨ ∃ r a, (s'.thread t).sub = some (s'.enter r a))
    (hcalls : ∀ sid, (s'.stream sid).calls = (s.stream sid).calls) (h : Took s' u q) :
    Took s u q := by
  cases h with
  | @running v _ _ hu hq =>
    by_cases hv : v = t
    · subst hv
      obtain hnone | ⟨r, a, henter⟩ := hsub
      · rw [hnone] at hu
        cases hu
      · -- A SUBMIT that is called has no slots.
        obtain rfl := Option.some.inj (henter.symm.trans hu)
        obtain hq | ⟨c, hq⟩ := hq
        · cases hq
        · cases ((hi'.subs v _ hu).claim q c hq).1
    · rw [hthread v hv] at hu
      simp only [Sub.Has, hring] at hq
      exact .running hu hq
  | returned hu hq =>
    rw [hsubmits] at hu
    exact .returned hu hq
  | @accepted sid _ _ hu hq =>
    rw [hcalls] at hu
    exact .accepted hu hq

omit [DecidableEq Ev] in
theorem leave (hi' : Inv cfg ((s.leave u rc).resume cfg t rc (s.thread t)))
    (hu : (s.thread t).sub = some u) {v : Sub}
    (h : Took ((s.leave u rc).resume cfg t rc (s.thread t)) v q) : Took s v q := by
  obtain ⟨hring, hsubmits, hthread, hsub⟩ := resume_frame cfg (s.leave u rc) t rc (s.thread t)
  have hown : ∀ w : Sub, q ∈ w.slots → w = u → Took s w q := by
    rintro w hq rfl
    exact .running hu (.inl hq)
  cases h with
  | @running w _ _ hv hq =>
    by_cases hw : w = t
    · subst hw
      obtain hnone | ⟨r, a, henter⟩ := hsub
      · rw [hnone] at hv
        cases hv
      · obtain rfl := Option.some.inj (henter.symm.trans hv)
        obtain hq | ⟨c, hq⟩ := hq
        · cases hq
        · cases ((hi'.subs w _ hv).claim q c hq).1
    · rw [hthread w hw] at hv
      simp only [Sub.Has, hring] at hq
      exact .running hv hq
  | returned hv hq =>
    rw [hsubmits, State.leave] at hv
    obtain hv | hv := List.mem_append.mp hv
    · exact .returned hv hq
    · exact hown v hq (congrArg Prod.fst (List.mem_singleton.mp hv))
  | @accepted sid _ _ hv hq =>
    obtain hsame | ⟨c, w, hth, -, hnew⟩ := resume_calls cfg (s.leave u rc) t rc (s.thread t) sid
    · rw [hsame] at hv
      exact .accepted hv hq
    · rw [hnew] at hv
      obtain hv | hv := List.mem_append.mp hv
      · exact .accepted hv hq
      · obtain rfl := List.mem_singleton.mp hv
        rw [hth] at hu
        exact hown v hq (Option.some.inj hu)

end Took

theorem step_took {a : Action Tid Sid Ev} {u : Sub} {q : ℕ} (hi : Inv cfg s)
    (hs : step cfg s a = some s') (h : Took s' u q) :
    (∃ v, Took s v q ∧ v.ring = u.ring ∧ v.seen = u.seen) ∨ (s.ring u.ring).issued.length ≤ q := by
  have hi' := step_inv hi hs
  have hsame : Took s u q → (∃ v, Took s v q ∧ v.ring = u.ring ∧ v.seen = u.seen) ∨
      (s.ring u.ring).issued.length ≤ q := fun h => .inl ⟨u, h, rfl, rfl⟩
  have hne : ∀ (p : State Tid Sid Ev) (t : Tid) (th : Thread Sid Ev), p.thread = s.thread →
      ∀ v ≠ t, (p.goto t th).thread v = s.thread v := by
    intro p t th hp v hv
    rw [State.goto_thread_of_ne _ _ _ hv, hp]
  cases step_cases hs with
  | skip => exact hsame h
  | device r a y ha hb hy =>
    have hpoint : ∀ p v, ((s.setRing r y).ring p).point v = (s.ring p).point v := by
      intro p v
      by_cases hp : p = r
      · subst hp
        rw [State.setRing_ring, (Ring.device_effect ha hy).point]
      · rw [State.setRing_ring_of_ne _ _ hp]
    apply hsame
    cases h with
    | running hu hq =>
      simp only [Sub.Has, hpoint] at hq
      exact .running hu hq
    | returned hu hq => exact .returned hu hq
    | accepted hu hq => exact .accepted hu hq
  | submit t w w' y hw hd =>
    have hring : w'.ring = w.ring ∧ w'.seen = w.seen := by
      have hentry := doSubmit_entry hd
      simp only [Sub.entry, Prod.mk.injEq] at hentry
      exact ⟨hentry.1, hentry.2.2.2.2⟩
    cases h with
    | @running v _ _ hu hq =>
      by_cases hv : v = t
      · subst hv
        rw [State.goto_thread, Inv.setSub_sub w' hw] at hu
        obtain rfl := Option.some.inj hu
        rw [hring.1, hring.2]
        obtain hq | hq := doSubmit_has (hi.rings _) hd hq
        · exact .inl ⟨w, .running hw hq, rfl, rfl⟩
        · exact .inr hq
      · rw [State.goto_thread_of_ne _ _ _ hv] at hu
        have hpoint : ∀ p, (((s.setRing w.ring y).goto t ((s.thread t).setSub w')).ring p).point v =
            (s.ring p).point v := by
          intro p
          obtain ⟨hm, -⟩ := doSubmit_ok (hi.rings _) (hi.subs t w hw) hd
          by_cases hp : p = w.ring
          · subst hp
            simp [hm.effect.point v hv]
          · simp [hp]
        simp only [Sub.Has, hpoint] at hq
        exact hsame (.running hu hq)
    | returned hu hq => exact hsame (.returned hu hq)
    | accepted hu hq => exact hsame (.accepted hu hq)
  | leave t w rc hw hp => exact hsame (.leave hi' hw h)
  | ioctl t r a hth =>
    exact hsame (.quiet hi' rfl rfl (hne _ t _ rfl) (.inr ⟨r, a, by simp [Thread.sub]; rfl⟩)
      (fun _ => rfl) h)
  | lock t c hth =>
    exact hsame (.quiet hi' rfl rfl (hne _ t _ rfl) (.inl (by simp [Thread.sub]))
      (fun _ => setStream_calls rfl) h)
  | clear t c hth =>
    exact hsame (.quiet hi' rfl rfl (hne _ t _ rfl) (.inl (by simp [Thread.sub]))
      (fun _ => setStream_calls rfl) h)
  | push t sid r hth =>
    exact hsame (.quiet hi' rfl rfl (hne _ t _ rfl) (.inl (by simp [Thread.sub]))
      (fun _ => setStream_calls rfl) h)
  | flushWait t | tailSkip t | tailWait t =>
    exact hsame (.quiet hi' rfl rfl (hne _ t _ rfl) (.inr ⟨_, _, by simp [Thread.sub]; rfl⟩)
      (fun _ => rfl) h)
  | call t | record t | waitEvent t | synchronize t | flushSame t | stamp t | synced t =>
    exact hsame (.quiet hi' rfl rfl (hne _ t _ rfl) (.inl (by simp [Thread.sub])) (fun _ => rfl) h)

/-! ### Runs -/

omit [DecidableEq Tid] in
theorem Grow.trans {x x' x'' : Rings Tid} (h : Grow x x') (h' : Grow x' x'') : Grow x x'' where
  mirror := fun r => (h.mirror r).trans (h'.mirror r)
  get := fun r => (h.get r).trans (h'.get r)
  issued := fun r q c hc => h'.issued r q c (h.issued r q c hc)

omit [DecidableEq Tid] in
theorem Grow.length_le {x x' : Rings Tid} (h : Grow x x') (r : Chan) :
    (x r).issued.length ≤ (x' r).issued.length := by
  by_contra hlt
  have hc := List.getElem?_eq_getElem (Nat.lt_of_not_le hlt)
  have hlen := (List.getElem?_eq_some_iff.mp (h.issued r _ _ hc)).1
  exact lt_irrefl _ hlen

theorem step_grow {a : Action Tid Sid Ev} (hi : Inv cfg s) (hs : step cfg s a = some s') :
    Grow s.ring s'.ring := by
  cases step_cases hs with
  | device r a y ha hb hy => exact .update (Ring.step_effect (hi.rings r) hy)
  | submit t u u' y hu hd =>
    obtain ⟨hm, -⟩ := doSubmit_ok (hi.rings _) (hi.subs t u hu) hd
    exact hm.grow (hi.rings _)
  | leave t u rc hu hp =>
    rw [(resume_frame ..).1]
    exact .refl _
  | _ => exact .refl _

theorem reach_took {ok : State Tid Sid Ev → Action Tid Sid Ev → Prop} (hi : Inv cfg s)
    (hr : Reach (step cfg) ok s s') : Inv cfg s' ∧ Grow s.ring s'.ring ∧
      ∀ u q, Took s' u q → (∃ v, Took s v q ∧ v.ring = u.ring ∧ v.seen = u.seen) ∨
        (s.ring u.ring).issued.length ≤ q := by
  induction hr with
  | refl => exact ⟨hi, .refl _, fun u q hu => .inl ⟨u, hu, rfl, rfl⟩⟩
  | tail _ _ hs ih =>
    obtain ⟨hi', hg, htook⟩ := ih
    refine ⟨step_inv hi' hs, hg.trans (step_grow hi' hs), fun u q hu => ?_⟩
    obtain ⟨v, hv, hring, hseen⟩ | hlen := step_took hi' hs hu
    · obtain ⟨w, hw, hring', hseen'⟩ | hlen := htook v q hv
      · exact .inl ⟨w, hw, hring'.trans hring, hseen'.trans hseen⟩
      · rw [hring] at hlen
        exact .inr hlen
    · exact .inr ((hg.length_le _).trans hlen)

/-! ### The order of the slots -/

inductive Edge (s : State Tid Sid Ev) : Slot → Slot → Prop
  | ring {r : Chan} {q q' : ℕ} : q < q' → Edge s (r, q) (r, q')
  | fence {r : Chan} {f : Fence} {w q q' : ℕ} : (s.ring r).issued[w]? = some (.wait f) → w ≤ q' →
      q < f.value → Edge s (f.chan, q) (r, q')
  | observed {u : Sub} {r : Chan} {q q' : ℕ} : Took s u q' → q < u.seen r →
      Edge s (r, q) (u.ring, q')

def Before (s : State Tid Sid Ev) : Slot → Slot → Prop := Relation.TransGen (Edge s)

def Works (s : State Tid Sid Ev) (b : Slot) : Prop :=
  ∃ c, (s.ring b.1).issued[b.2]? = some c ∧ c.semaphore = false

def Reached (s : State Tid Sid Ev) (b : Slot) : Prop :=
  b.2 < (s.ring b.1).get ∨ b.2 = (s.ring b.1).get ∧ Works s b

omit [DecidableEq Tid] [DecidableEq Sid] [DecidableEq Ev] in
theorem Reached.issued {b : Slot} (hi : Inv cfg s) (h : Reached s b) :
    b.2 < (s.ring b.1).issued.length := by
  obtain h | ⟨-, c, hc, -⟩ := h
  · have hlen := (hi.rings b.1).get_le.trans (hi.rings b.1).put_le
    omega
  · exact (List.getElem?_eq_some_iff.mp hc).1

/-- Whatever the run goes on to, what comes before a command in the end has retired when the
command starts. -/
theorem Edge.retired {ok : State Tid Sid Ev → Action Tid Sid Ev → Prop} {a b : Slot}
    (hi : Inv cfg s) (hst : Streams cfg s) (hw : WaitsDue s) (hr : Reach (step cfg) ok s s')
    (h : Edge s' a b) (hb : Reached s b) : a.2 < (s.ring a.1).get := by
  obtain ⟨-, hg, htook⟩ := reach_took hi hr
  have hlen := hb.issued hi
  cases h with
  | @ring r q q' hq =>
    obtain h | ⟨h, -⟩ := hb
    · exact hq.trans h
    · exact h ▸ hq
  | @fence r f w q q' hwait hle hq =>
    dsimp only at hlen
    have hc := List.getElem?_eq_getElem (hle.trans_lt hlen)
    have hsame := hg.issued r w _ hc
    rw [hwait] at hsame
    rw [← hsame] at hc
    have hlt : w < (s.ring r).get := by
      obtain h | ⟨h, c, hwork, hsem⟩ := hb
      · exact hle.trans_lt h
      · -- The wait is not the command itself.
        dsimp only at h hwork
        have hne : w ≠ q' := by
          rintro rfl
          rw [hc] at hwork
          obtain rfl := Option.some.inj hwork
          cases hsem
        omega
    exact hq.trans_le (hw.retired r w f hlt hc)
  | @observed u r q q' hu hq =>
    obtain ⟨v, hv, -, hseen⟩ | hnew := htook u q' hu
    · rw [← hseen] at hq
      exact hq.trans_le (hv.seen_le hi hst r)
    · exact absurd hnew (Nat.not_le.mpr hlen)

theorem Before.retired {ok : State Tid Sid Ev → Action Tid Sid Ev → Prop} {a b : Slot}
    (hi : Inv cfg s) (hst : Streams cfg s) (hw : WaitsDue s) (hr : Reach (step cfg) ok s s')
    (h : Before s' a b) (hb : Reached s b) : a.2 < (s.ring a.1).get := by
  induction h using Relation.TransGen.head_induction_on with
  | single h => exact h.retired hi hst hw hr hb
  | head h _ ih => exact h.retired hi hst hw hr (.inl ih)

theorem step_get {a : Action Tid Sid Ev} (hi : Inv cfg s) (hs : step cfg s a = some s') (r : Chan) :
    (s'.ring r).get = (s.ring r).get ∨ (∃ err, a = .device r (.retire err)) ∨
      a = .device r .failHead := by
  cases step_cases hs with
  | device p a y ha hb hy =>
    by_cases hp : r = p
    · subst hp
      rw [State.setRing_ring]
      obtain ⟨t, ht, -⟩ | he | hf := Ring.step_cases hy
      · rw [ha] at ht
        cases ht
      · cases a with
        | retire err => exact .inr (.inl ⟨err, rfl⟩)
        | failHead => exact .inr (.inr rfl)
        | exchange | probe =>
          simp only [Ring.engineStep] at he
          split at he <;> try simp only [reduceCtorEq] at he
          split_ifs at he <;> obtain rfl := Option.some.inj he <;> exact .inl rfl
        | load | leave =>
          simp only [Ring.engineStep] at he
          split at he <;> simp only [Option.some.injEq, reduceCtorEq] at he
          exact .inl (he ▸ rfl)
        | start | reload | park =>
          simp only [Ring.engineStep] at he
          split at he <;> try simp only [reduceCtorEq] at he
          split_ifs at he
          obtain rfl := Option.some.inj he
          exact .inl rfl
        | _ => simp [Ring.engineStep] at he
      · cases a with
        | migrated | migrationFailed | unpark =>
          simp only [Ring.faultStep, Option.ite_none_right_eq_some, Option.some.injEq] at hf
          obtain ⟨-, rfl⟩ := hf
          exact .inl rfl
        | _ => simp [Ring.faultStep] at hf
    · rw [State.setRing_ring_of_ne _ _ hp]
      exact .inl rfl
  | submit t u u' y hu hd =>
    left
    obtain ⟨hm, -⟩ := doSubmit_ok (hi.rings _) (hi.subs t u hu) hd
    by_cases hp : r = u.ring
    · rw [hp, State.goto_ring, State.setRing_ring, hm.effect.get]
    · rw [State.goto_ring, State.setRing_ring_of_ne _ _ hp]
  | leave t u rc hu hp =>
    left
    rw [(resume_frame ..).1]
    rfl
  | _ => exact .inl rfl

theorem start_head {r : Chan} (hi : Inv cfg s) (hs : step cfg s (.device r .start) = some s') :
    (s.ring r).issued[(s.ring r).get]? = some (head cfg (s.ring r)) := by
  have hir := hi.rings r
  simp only [step, deviceStep, Option.ite_none_right_eq_some, Option.map_eq_some_iff] at hs
  obtain ⟨-, y, hy, -⟩ := hs
  obtain ⟨t, ht, -⟩ | he | hf := Ring.step_cases hy
  · cases ht
  · simp only [Ring.engineStep] at he
    split at he <;> try simp only [reduceCtorEq] at he
    next p hv =>
    split_ifs at he with hne
    have hseen := hir.engine.seen p (.inr (.inr (.inr hv)))
    have hput := hir.put_le
    obtain ⟨c, hc⟩ : ∃ c, (s.ring r).issued[(s.ring r).get]? = some c :=
      ⟨_, List.getElem?_eq_getElem (by omega)⟩
    rw [hc, head, hir.content _ c le_rfl (by omega) hc]
  · simp [Ring.faultStep] at hf

end SoftGpu.Submit
