import SoftGpu.Staging
import Mathlib.Algebra.Order.BigOperators.Group.Finset

/-!
# Headroom in the staging pool

A device-to-host copy that still has chunks to issue waits in `acquire_slot`
with at most `prime - 1` slots in its window. As long as these numbers add up to
less than the pool, some thread that holds a slot is past its last
`acquire_slot` before a `release_slot`. The default window of half the pool is
enough for two such copies and not for three.

A `wait_fence` that fails makes a copy return with its window still marked busy.
These slots are lost, but the failing thread gives one slot back, and every
later owner of that slot fails as well and gives it back again.
-/

namespace SoftGpu.Staging

open Machine

variable {n : ℕ} {cfg : Config} {s : State n} {t : Fin n} {c : Copy}

def Copy.need (cfg : Config) (c : Copy) : ℕ :=
  if c.kind = .d2h ∧ c.point ≠ .lock ∧ c.issued < cfg.nchunks c.total then c.prime cfg - 1 else 0

def State.needOf (cfg : Config) (s : State n) (t : Fin n) : ℕ :=
  ((s.copies t).map (Copy.need cfg)).getD 0

/-- A device-to-host copy enters its branch of `do_submit` only if the copies in
flight, with this one, leave one slot over. -/
def headroom (cfg : Config) (s : State n) : Action n → Prop
  | .run t => ∀ c ∈ s.copies t, c.kind = .d2h → c.point = .lock →
      ∑ u, s.needOf cfg u + (c.prime cfg - 1) < cfg.slots
  | _ => True

instance (s : State n) (a : Action n) : Decidable (headroom cfg s a) :=
  match a with
  | .run t => inferInstanceAs (Decidable (∀ c ∈ s.copies t, c.kind = .d2h → c.point = .lock →
      ∑ u, s.needOf cfg u + (c.prime cfg - 1) < cfg.slots))
  | .submit .. | .publish _ | .retire .. => isTrue trivial

def State.AllBusy (cfg : Config) (s : State n) : Prop := ∀ i < cfg.slots, (s.slot i).busy = true

instance (s : State n) : Decidable (s.AllBusy cfg) :=
  inferInstanceAs (Decidable (∀ i < cfg.slots, (s.slot i).busy = true))

/-- Every slot is busy and every thread that holds one spins for another. -/
def State.Deadlocked (cfg : Config) (s : State n) : Prop :=
  s.AllBusy cfg ∧ ∀ t, ∀ c ∈ s.copies t, c.held ≠ [] → c.point = .acquire

instance (s : State n) : Decidable (s.Deadlocked cfg) :=
  inferInstanceAs (Decidable (s.AllBusy cfg ∧
    ∀ t, ∀ c ∈ s.copies t, c.held ≠ [] → c.point = .acquire))

/-- With the steps of thread `t` and the device alone a slot becomes free. -/
def CanRelease (cfg : Config) (s : State n) (t : Fin n) : Prop :=
  ∃ as s', (∀ a ∈ as, a = .run t ∨ ∃ chan, a = .retire chan false) ∧
    exec (step cfg) s as = some s' ∧ ∃ i < cfg.slots, (s'.slot i).busy = false

/-! ### What holds of one copy -/

def Point.fences : Point → List Fence
  | .waitPrev _ f | .release _ f | .failed _ f => [f]
  | .lock | .acquire | .enqueue _ | .drain _ => []

/-- The chunks in flight: `done` of the `issued` chunks are copied out, one is
in hand while it is drained, the others are in the window. -/
def Copy.Counts (cfg : Config) (c : Copy) : Prop :=
  match c.point with
  | .lock => c.window = [] ∧ c.issued = 0 ∧ c.done = 0
  | .acquire | .waitPrev .. | .enqueue _ => c.kind = .h2d ∧ c.window = [] ∨
      c.kind = .d2h ∧ c.done + c.window.length = c.issued ∧ c.window.length < c.prime cfg ∧
        c.issued < cfg.nchunks c.total
  | .drain _ => c.kind = .d2h ∧ c.done + c.window.length + 1 = c.issued ∧
      c.window.length < c.prime cfg ∧ c.prime cfg ≤ c.issued ∧ c.issued ≤ cfg.nchunks c.total
  | .release .. => c.kind = .h2d ∧ c.window = [] ∨
      c.kind = .d2h ∧ c.done + c.window.length + 1 = c.issued ∧
      c.window.length < c.prime cfg ∧ c.prime cfg ≤ c.issued ∧ c.issued ≤ cfg.nchunks c.total
  | .failed .. => True

structure Copy.Ok (cfg : Config) (published : Chan → ℕ) (c : Copy) : Prop where
  counts : c.Counts cfg
  slots : ∀ i ∈ c.held, i < cfg.slots
  window : ∀ w ∈ c.window, w.fence ≤ published c.chan
  fences : ∀ f ∈ c.point.fences, f.value ≤ published f.chan
  drain : ∀ w, c.point = .drain w → w.fence ≤ published c.chan

theorem Copy.Ok.mono {p p' : Chan → ℕ} (h : c.Ok cfg p) (hp : ∀ x, p x ≤ p' x) : c.Ok cfg p' where
  counts := h.counts
  slots := h.slots
  window := fun w hw => (h.window w hw).trans (hp _)
  fences := fun f hf => (h.fences f hf).trans (hp _)
  drain := fun w hw => (h.drain w hw).trans (hp _)

theorem Config.window_pos (cfg : Config) : 0 < cfg.window := Nat.le_max_left ..

theorem Copy.prime_le (cfg : Config) (c : Copy) : c.prime cfg ≤ cfg.nchunks c.total :=
  Nat.min_le_right ..

section Loops
variable {p : Chan → ℕ} {c' : Copy}

/-- The loop heads of the device-to-host branch, entered with every chunk in
flight in the window. -/
theorem Copy.Ok.d2hLoop (h : c.d2hLoop cfg = some c') (hk : c.kind = .d2h)
    (hcount : c.done + c.window.length = c.issued)
    (hlen : c.window.length ≤ c.prime cfg) (hissued : c.issued ≤ cfg.nchunks c.total)
    (hslots : ∀ w ∈ c.window, w.slot < cfg.slots)
    (hfence : ∀ w ∈ c.window, w.fence ≤ p c.chan) : c'.Ok cfg p := by
  have hprime := c.prime_le cfg
  unfold Copy.d2hLoop at h
  split at h
  · next hlt =>
    obtain rfl := Option.some.inj h
    constructor
    · have hwindow : c.window.length < c.prime cfg := by omega
      exact .inr ⟨hk, hcount, hwindow, hlt.trans_le hprime⟩
    · simpa [Copy.held, goto] using hslots
    · exact hfence
    · simp [goto, Point.fences]
    · simp [goto]
  · next hge =>
    split at h
    · cases hw : c.window with
      | nil => simp [hw] at h
      | cons w rest =>
        simp only [hw, Option.some.injEq] at h
        subst h
        rw [hw] at hcount hlen hslots hfence
        simp only [List.length_cons] at hcount hlen
        constructor
        · exact ⟨hk, by omega, by simp only [Copy.prime] at *; omega,
            by simp only [Copy.prime] at *; omega, hissued⟩
        · intro i hi
          simp only [Copy.held, List.mem_append, List.mem_map, List.mem_singleton] at hi
          obtain ⟨x, hx, rfl⟩ | rfl := hi
          · exact hslots x (List.mem_cons_of_mem _ hx)
          · exact hslots w List.mem_cons_self
        · intro x hx
          exact hfence x (List.mem_cons_of_mem _ hx)
        · simp [Point.fences]
        · intro x hx
          obtain rfl : w = x := by simpa using hx
          exact hfence w List.mem_cons_self
    · cases h

theorem Copy.Ok.h2dLoop (h : c.h2dLoop = some c') (hk : c.kind = .h2d) (hw : c.window = []) :
    c'.Ok cfg p := by
  unfold Copy.h2dLoop at h
  split at h
  · obtain rfl := Option.some.inj h
    constructor
    · exact .inl ⟨hk, hw⟩
    · simp [Copy.held, goto, hw]
    · simp [goto, hw]
    · simp [goto, Point.fences]
    · simp [goto]
  · cases h

theorem Copy.Ok.start (h : c.Ok cfg p) (hp : c.point = .lock) (hs : c.start cfg = some c') :
    c'.Ok cfg p := by
  have hc := h.counts
  simp only [Copy.Counts, hp] at hc
  obtain ⟨hw, hi, hd⟩ := hc
  unfold Copy.start at hs
  split at hs
  · next hk => exact .h2dLoop hs hk hw
  · next hk =>
    exact .d2hLoop hs hk (by simp [hw, hi, hd]) (by simp [hw]) (by omega) (by simp [hw])
      (by simp [hw])

theorem Copy.Ok.enqueued {k f : ℕ} (h : c.Ok cfg p) (hp : c.point = .enqueue k)
    (hf : f ≤ p c.chan) (hs : c.enqueued cfg k f = some c') : c'.Ok cfg p := by
  have hc := h.counts
  simp only [Copy.Counts, hp] at hc
  have hk : k < cfg.slots := h.slots k (by simp [Copy.held, hp])
  have hslots : ∀ w ∈ c.window, w.slot < cfg.slots := fun w hw =>
    h.slots _ (List.mem_append_left _ (List.mem_map_of_mem hw))
  unfold Copy.enqueued at hs
  obtain ⟨hkind, hw⟩ | ⟨hkind, hcount, hlen, hissued⟩ := hc
  · simp only [hkind, Option.some.injEq] at hs
    subst hs
    constructor
    · exact .inl ⟨hkind, hw⟩
    · simpa [Copy.held, goto, hw] using hk
    · simp [goto, hw]
    · simpa [goto, Point.fences] using hf
    · simp [goto]
  · simp only [hkind] at hs
    refine .d2hLoop hs rfl ?_ ?_ ?_ ?_ ?_
    · simp only [List.length_append, List.length_singleton]
      omega
    · simp only [List.length_append, List.length_singleton]
      exact hlen
    · exact hissued
    · intro w hw
      obtain hw | rfl := by simpa using hw
      · exact hslots w hw
      · exact hk
    · intro w hw
      obtain hw | rfl := by simpa using hw
      · exact h.window w hw
      · exact hf

theorem Copy.Ok.released {k : ℕ} {f : Fence} (h : c.Ok cfg p) (hp : c.point = .release k f)
    (hs : c.released cfg = some c') : c'.Ok cfg p := by
  have hc := h.counts
  simp only [Copy.Counts, hp] at hc
  have hslots : ∀ w ∈ c.window, w.slot < cfg.slots := fun w hw =>
    h.slots _ (List.mem_append_left _ (List.mem_map_of_mem hw))
  unfold Copy.released at hs
  obtain ⟨hkind, hw⟩ | ⟨hkind, hcount, hlen, hprime, hissued⟩ := hc
  · simp only [hkind] at hs
    exact .h2dLoop hs rfl hw
  · simp only [hkind] at hs
    split at hs
    · next hlt =>
      obtain rfl := Option.some.inj hs
      constructor
      · exact .inr ⟨rfl, by simp only; omega, hlen, hlt⟩
      · simpa [Copy.held] using hslots
      · exact h.window
      · simp [Point.fences]
      · simp
    · refine .d2hLoop hs rfl ?_ hlen.le hissued hslots h.window
      simp only
      omega

end Loops

/-! ### The steps of a thread -/

inductive Move (cfg : Config) (s : State n) (t : Fin n) (c : Copy) : State n → Prop
  | start : c.point = .lock → Move cfg s t c (s.setCopy t (c.start cfg))
  | acquire (k j : ℕ) : c.point = .acquire → k < cfg.slots → (s.slot k).busy = false →
      Move cfg s t c (State.setCopy { s with
        slot := Function.update s.slot k { s.slot k with busy := true }
        nextSlot := j } t (some (c.goto (.waitPrev k (s.slot k).fence))))
  | waited (k : ℕ) (prev : Fence) : c.point = .waitPrev k prev → s.sticky = false →
      Move cfg s t c (s.setCopy t (some (c.goto (.enqueue k))))
  | waitFailed (k : ℕ) (prev : Fence) : c.point = .waitPrev k prev → s.sticky = true →
      Move cfg s t c (s.setCopy t (some (c.goto (.failed k prev))))
  | enqueued (k : ℕ) : c.point = .enqueue k →
      Move cfg s t c (State.setCopy { s with
        published := Function.update s.published c.chan (s.published c.chan + 1) } t
        (c.enqueued cfg k (s.published c.chan + 1)))
  | drained (w : Issued) : c.point = .drain w → s.sticky = false →
      Move cfg s t c (s.setCopy t (some (c.goto (.release w.slot ⟨c.chan, w.fence⟩))))
  | drainFailed (w : Issued) : c.point = .drain w → s.sticky = true →
      Move cfg s t c (s.setCopy t (some (c.goto (.failed w.slot ⟨c.chan, w.fence⟩))))
  | released (k : ℕ) (f : Fence) : c.point = .release k f →
      Move cfg s t c ((s.releaseSlot k f).setCopy t (c.released cfg))
  | failed (k : ℕ) (f : Fence) : c.point = .failed k f →
      Move cfg s t c ((s.releaseSlot k f).setCopy t none)

theorem State.waitFence_eq_some {f : Fence} {err : Bool} (h : s.waitFence f = some err) :
    err = s.sticky := by
  simp only [State.waitFence, Option.ite_none_right_eq_some, Option.some.injEq] at h
  exact h.2.symm

theorem copyStep_cases {s' : State n} (h : s.copyStep cfg t c = some s') : Move cfg s t c s' := by
  unfold State.copyStep at h
  split at h
  · next hp =>
    simp only [Option.ite_none_right_eq_some, Option.some.injEq] at h
    exact h.2 ▸ .start hp
  · next hp =>
    simp only [Option.map_eq_some_iff, State.acquireSlot] at h
    obtain ⟨⟨k, prev, u⟩, h, rfl⟩ := h
    split at h
    · cases h
    · next i hi =>
      simp only [Option.some.injEq, Prod.mk.injEq] at h
      obtain ⟨rfl, rfl, rfl⟩ := h
      have hfree := List.find?_some hi
      exact .acquire _ _ hp (Nat.mod_lt _ cfg.slots_pos) (by simpa using hfree)
  · next k prev hp =>
    obtain ⟨err, herr, rfl⟩ := Option.map_eq_some_iff.mp h
    obtain rfl := State.waitFence_eq_some herr
    cases hst : s.sticky with
    | false => exact .waited k prev hp hst
    | true => exact .waitFailed k prev hp hst
  · next k hp =>
    simp only [Option.map_eq_some_iff, State.enqueue, Option.ite_none_right_eq_some,
      Option.some.injEq] at h
    obtain ⟨_, ⟨-, rfl⟩, rfl⟩ := h
    exact .enqueued k hp
  · next w hp =>
    obtain ⟨err, herr, rfl⟩ := Option.map_eq_some_iff.mp h
    obtain rfl := State.waitFence_eq_some herr
    cases hst : s.sticky with
    | false => exact .drained w hp hst
    | true => exact .drainFailed w hp hst
  · next k f hp =>
    obtain rfl := Option.some.inj h
    exact .released k f hp
  · next k f hp =>
    obtain rfl := Option.some.inj h
    exact .failed k f hp

theorem Copy.Ok.goto {p : Chan → ℕ} {q : Point} (h : c.Ok cfg p) (hheld : (c.goto q).held = c.held)
    (hcounts : (c.goto q).Counts cfg) (hf : ∀ f ∈ q.fences, f.value ≤ p f.chan)
    (hd : ∀ w, q ≠ .drain w) : (c.goto q).Ok cfg p where
  counts := hcounts
  slots := fun i hi => h.slots i (hheld ▸ hi)
  window := h.window
  fences := hf
  drain := fun w hw => absurd hw (hd w)

theorem Move.published_le {s' : State n} (h : Move cfg s t c s') (x : Chan) :
    s.published x ≤ s'.published x := by
  cases h with
  | enqueued k _ =>
    by_cases hx : x = c.chan
    · simp [hx]
    · simp [hx]
  | _ => exact le_rfl

theorem Move.copies_of_ne {s' : State n} {u : Fin n} (h : Move cfg s t c s') (hu : u ≠ t) :
    s'.copies u = s.copies u := by
  cases h <;> exact Function.update_of_ne hu ..

theorem Move.ok {s' : State n} {c' : Copy} (h : Move cfg s t c s') (hc : c.Ok cfg s.published)
    (hslot : ∀ i, (s.slot i).fence.value ≤ s.published (s.slot i).fence.chan)
    (hc' : s'.copies t = some c') : c'.Ok cfg s'.published := by
  have hcounts := hc.counts
  cases h with
  | start hp => exact hc.start hp (by simpa using hc')
  | acquire k j hp hk hfree =>
    obtain rfl : c.goto _ = c' := by simpa using hc'
    simp only [Copy.Counts, hp] at hcounts
    constructor
    · exact hcounts
    · intro i hi
      simp only [Copy.held, Copy.goto, List.mem_append, List.mem_singleton] at hi
      obtain hi | rfl := hi
      · exact hc.slots i (List.mem_append_left _ hi)
      · exact hk
    · exact hc.window
    · simpa [Copy.goto, Point.fences] using hslot k
    · simp [Copy.goto]
  | waited k prev hp hst =>
    obtain rfl : c.goto _ = c' := by simpa using hc'
    simp only [Copy.Counts, hp] at hcounts
    exact hc.goto (by simp [Copy.held, Copy.goto, hp]) hcounts (by simp [Point.fences]) (by simp)
  | waitFailed k prev hp hst =>
    obtain rfl : c.goto _ = c' := by simpa using hc'
    have hf := hc.fences prev (by simp [hp, Point.fences])
    exact hc.goto (by simp [Copy.held, Copy.goto, hp]) trivial
      (by simpa [Point.fences] using hf) (by simp)
  | enqueued k hp =>
    have hmove : Move cfg s t c _ := .enqueued k hp
    have hnew : c.enqueued cfg k (s.published c.chan + 1) = some c' := by simpa using hc'
    exact (hc.mono hmove.published_le).enqueued hp (by simp) hnew
  | drained w hp hst =>
    obtain rfl : c.goto _ = c' := by simpa using hc'
    simp only [Copy.Counts, hp] at hcounts
    exact hc.goto (by simp [Copy.held, Copy.goto, hp]) (.inr hcounts)
      (by simpa [Point.fences] using hc.drain w hp) (by simp)
  | drainFailed w hp hst =>
    obtain rfl : c.goto _ = c' := by simpa using hc'
    exact hc.goto (by simp [Copy.held, Copy.goto, hp]) trivial
      (by simpa [Point.fences] using hc.drain w hp) (by simp)
  | released k f hp => exact hc.released hp (by simpa using hc')
  | failed k f hp => simp at hc'

/-! ### The pool -/

def State.Holds (s : State n) (t : Fin n) (i : ℕ) : Prop := ∃ c, s.copies t = some c ∧ i ∈ c.held

structure Owned (cfg : Config) (s : State n) : Prop where
  holder : ∀ i < cfg.slots, (s.slot i).busy = true → ∃ t, s.Holds t i
  running : ∀ t c, s.copies t = some c → ∀ k f, c.point ≠ .failed k f
  room : ∑ t, s.needOf cfg t < cfg.slots

structure Returning (cfg : Config) (s : State n) : Prop where
  sticky : s.sticky = true
  slot : ∃ i < cfg.slots, (s.slot i).busy = false ∨ ∃ t c, s.copies t = some c ∧
    ∃ f, c.point = .waitPrev i f ∨ c.point = .failed i f

structure Inv (cfg : Config) (s : State n) : Prop where
  slotFence : ∀ i, (s.slot i).fence.value ≤ s.published (s.slot i).fence.chan
  copies : ∀ t c, s.copies t = some c → c.Ok cfg s.published
  pool : Owned cfg s ∨ Returning cfg s

theorem init_inv (cfg : Config) : Inv cfg (init n) where
  slotFence := fun _ => le_rfl
  copies := by simp [init]
  pool := .inl ⟨by simp [init], by simp [init], by simpa [init, State.needOf] using cfg.slots_pos⟩

section Loops
variable {c' : Copy}

theorem Copy.d2hLoop_fields (h : c.d2hLoop cfg = some c') :
    c'.kind = c.kind ∧ c'.total = c.total ∧ c'.issued = c.issued ∧
      (∀ k f, c'.point ≠ .failed k f) ∧ ∀ w ∈ c.window, w.slot ∈ c'.held := by
  unfold Copy.d2hLoop at h
  split at h
  · obtain rfl := Option.some.inj h
    refine ⟨rfl, rfl, rfl, by simp [goto], fun w hw => ?_⟩
    exact List.mem_append_left _ (List.mem_map_of_mem hw)
  · split at h
    · cases hw : c.window with
      | nil => simp [hw] at h
      | cons w rest =>
        simp only [hw, Option.some.injEq] at h
        subst h
        refine ⟨rfl, rfl, rfl, by simp, fun x hx => ?_⟩
        obtain rfl | hx := List.mem_cons.mp hx
        · simp [Copy.held]
        · exact List.mem_append_left _ (List.mem_map_of_mem hx)
    · cases h

theorem Copy.h2dLoop_fields (h : c.h2dLoop = some c') :
    c'.kind = c.kind ∧ ∀ k f, c'.point ≠ .failed k f := by
  unfold Copy.h2dLoop at h
  split at h
  · obtain rfl := Option.some.inj h
    exact ⟨rfl, by simp [goto]⟩
  · cases h

theorem Copy.d2hLoop_drain {o : Option Copy} (h : c.d2hLoop cfg = o) (hp : c.prime cfg ≤ c.issued)
    (hd : c.done < cfg.nchunks c.total) (hw : c.window ≠ []) :
    ∃ c' w, o = some c' ∧ c'.point = .drain w := by
  obtain ⟨w, rest, hw⟩ := List.exists_cons_of_ne_nil hw
  unfold Copy.d2hLoop at h
  rw [if_neg (by omega), if_pos hd, hw] at h
  exact ⟨_, w, h.symm, rfl⟩

theorem Copy.d2hLoop_none (hcount : c.done + c.window.length = c.issued)
    (hissued : c.issued ≤ cfg.nchunks c.total) (h : c.d2hLoop cfg = none) : c.window = [] := by
  unfold Copy.d2hLoop at h
  split at h
  · cases h
  · split at h
    · cases hw : c.window with
      | nil => rfl
      | cons w rest => simp [hw] at h
    · exact List.eq_nil_of_length_eq_zero (by omega)

theorem Copy.need_le_prime (cfg : Config) (c : Copy) : c.need cfg ≤ c.prime cfg - 1 := by
  unfold Copy.need
  split <;> omega

theorem Copy.need_h2d (hk : c.kind = .h2d) : c.need cfg = 0 := by simp [Copy.need, hk]

theorem Copy.need_mono (hk : c'.kind = c.kind) (ht : c'.total = c.total)
    (hi : c.issued ≤ c'.issued) (hp : c.point ≠ .lock) : c'.need cfg ≤ c.need cfg := by
  by_cases hc : c'.kind = .d2h ∧ c'.point ≠ .lock ∧ c'.issued < cfg.nchunks c'.total
  · have hc₀ : c.kind = .d2h ∧ c.point ≠ .lock ∧ c.issued < cfg.nchunks c.total :=
      ⟨hk ▸ hc.1, hp, by rw [← ht]; omega⟩
    rw [Copy.need, Copy.need, if_pos hc, if_pos hc₀, Copy.prime, Copy.prime, ht]
  · rw [Copy.need, if_neg hc]
    exact Nat.zero_le _

end Loops

theorem needOf_some (hc : s.copies t = some c) : s.needOf cfg t = c.need cfg := by
  simp [State.needOf, hc]

theorem Move.needOf_le {s' : State n} (h : Move cfg s t c s') (hp : c.point ≠ .lock) :
    s'.needOf cfg t ≤ c.need cfg := by
  cases h with
  | start hlock => exact absurd hlock hp
  | enqueued k _ =>
    simp only [State.needOf, State.setCopy_self]
    cases he : c.enqueued cfg k (s.published c.chan + 1) with
    | none => simp
    | some c' =>
      simp only [Option.map_some, Option.getD_some]
      unfold Copy.enqueued at he
      split at he
      · obtain rfl := Option.some.inj he
        exact Copy.need_mono rfl rfl le_rfl hp
      · obtain ⟨hk, ht, hi, -⟩ := Copy.d2hLoop_fields he
        exact Copy.need_mono hk ht (by rw [hi]; exact Nat.le_succ _) hp
  | released k f _ =>
    simp only [State.needOf, State.setCopy_self]
    cases he : c.released cfg with
    | none => simp
    | some c' =>
      simp only [Option.map_some, Option.getD_some]
      unfold Copy.released at he
      split at he
      · next hk =>
        obtain ⟨hk', -⟩ := Copy.h2dLoop_fields he
        rw [Copy.need_h2d (hk'.trans hk)]
        exact Nat.zero_le _
      · split at he
        · obtain rfl := Option.some.inj he
          exact Copy.need_mono rfl rfl le_rfl hp
        · obtain ⟨hk, ht, hi, -⟩ := Copy.d2hLoop_fields he
          exact Copy.need_mono hk ht hi.ge hp
  | failed k f _ => simp [State.needOf]
  | _ =>
    simp only [State.needOf, State.setCopy_self, Option.map_some, Option.getD_some]
    exact Copy.need_mono rfl rfl le_rfl hp

theorem Move.needOf_start {s' : State n} (h : Move cfg s t c s') (hp : c.point = .lock) :
    s'.needOf cfg t ≤ if c.kind = .d2h then c.prime cfg - 1 else 0 := by
  cases h with
  | start _ =>
    simp only [State.needOf, State.setCopy_self]
    cases he : c.start cfg with
    | none => simp
    | some c' =>
      simp only [Option.map_some, Option.getD_some]
      unfold Copy.start at he
      split at he
      · next hk =>
        obtain ⟨hk', -⟩ := Copy.h2dLoop_fields he
        rw [Copy.need_h2d (hk'.trans hk)]
        exact Nat.zero_le _
      · next hk =>
        obtain ⟨-, ht, -, -⟩ := Copy.d2hLoop_fields he
        rw [if_pos hk]
        calc c'.need cfg ≤ c'.prime cfg - 1 := c'.need_le_prime cfg
          _ = c.prime cfg - 1 := by rw [Copy.prime, Copy.prime, ht]
  | _ => simp_all

theorem Move.room {s' : State n} (h : Move cfg s t c s') (hc : s.copies t = some c)
    (hok : headroom cfg s (.run t)) (hroom : ∑ u, s.needOf cfg u < cfg.slots) :
    ∑ u, s'.needOf cfg u < cfg.slots := by
  have hrest : ∑ u ∈ Finset.univ.erase t, s'.needOf cfg u =
      ∑ u ∈ Finset.univ.erase t, s.needOf cfg u := by
    refine Finset.sum_congr rfl fun u hu => ?_
    simp only [State.needOf, h.copies_of_ne (Finset.ne_of_mem_erase hu)]
  have hsum := Finset.add_sum_erase Finset.univ (s.needOf cfg) (Finset.mem_univ t)
  have hsum' := Finset.add_sum_erase Finset.univ (s'.needOf cfg) (Finset.mem_univ t)
  rw [hrest] at hsum'
  by_cases hp : c.point = .lock
  · have hstart := h.needOf_start hp
    have hadd := hok c hc
    by_cases hk : c.kind = .d2h
    · have := hadd hk hp
      rw [if_pos hk] at hstart
      omega
    · rw [if_neg hk] at hstart
      omega
  · have hle := h.needOf_le hp
    rw [← needOf_some hc] at hle
    omega

theorem Copy.enqueued_d2h (hk : c.kind = .d2h) (k f : ℕ) : c.enqueued cfg k f =
    Copy.d2hLoop cfg { c with window := c.window ++ [⟨k, f⟩], issued := c.issued + 1 } := by
  simp only [Copy.enqueued, hk]

theorem Copy.released_d2h (hk : c.kind = .d2h) : c.released cfg =
    if c.issued < cfg.nchunks c.total then some { c with done := c.done + 1, point := .acquire }
    else Copy.d2hLoop cfg { c with done := c.done + 1 } := by
  simp only [Copy.released, hk]

theorem Copy.d2hLoop_holds {o : Option Copy} (h : c.d2hLoop cfg = o)
    (hcount : c.done + c.window.length = c.issued) (hissued : c.issued ≤ cfg.nchunks c.total)
    {w : Issued} (hw : w ∈ c.window) : ∃ c', o = some c' ∧ w.slot ∈ c'.held := by
  cases o with
  | none =>
    rw [Copy.d2hLoop_none hcount hissued h] at hw
    cases hw
  | some c' =>
    obtain ⟨-, -, -, -, hheld⟩ := Copy.d2hLoop_fields h
    exact ⟨c', rfl, hheld w hw⟩

theorem Move.keeps {s' : State n} {i : ℕ} (h : Move cfg s t c s') (hc : c.Ok cfg s.published)
    (hrun : ∀ k f, c.point ≠ .failed k f) (hi : i ∈ c.held) (hb : (s'.slot i).busy = true) :
    s'.Holds t i := by
  have hcounts := hc.counts
  cases h with
  | start hp =>
    simp only [Copy.Counts, hp] at hcounts
    simp [Copy.held, hp, hcounts.1] at hi
  | acquire k j hp hk hfree =>
    refine ⟨_, State.setCopy_self .., ?_⟩
    have hw : i ∈ c.window.map Issued.slot := by simpa [Copy.held, hp] using hi
    exact List.mem_append_left _ hw
  | enqueued k hp =>
    simp only [Copy.Counts, hp] at hcounts
    simp only [Copy.held, hp, List.mem_append, List.mem_singleton] at hi
    simp only [State.Holds, State.setCopy_self]
    obtain ⟨hkind, hw⟩ | ⟨hkind, hcount, hlen, hissued⟩ := hcounts
    · simp only [hw, List.map_nil, List.not_mem_nil, false_or] at hi
      refine ⟨c.goto (.release k ⟨c.chan, s.published c.chan + 1⟩), ?_, ?_⟩
      · simp only [Copy.enqueued, hkind]
      · simp [Copy.held, Copy.goto, hi]
    · have hmem : ∃ w ∈ c.window ++ [⟨k, s.published c.chan + 1⟩], w.slot = i := by
        obtain hi | rfl := hi
        · obtain ⟨w, hw, rfl⟩ := List.mem_map.mp hi
          exact ⟨w, List.mem_append_left _ hw, rfl⟩
        · exact ⟨_, List.mem_append_right _ (List.mem_singleton_self _), rfl⟩
      obtain ⟨w, hw, rfl⟩ := hmem
      refine Copy.d2hLoop_holds (Copy.enqueued_d2h hkind ..).symm ?_ hissued hw
      simp only [List.length_append, List.length_singleton]
      omega
  | released k f hp =>
    have hne : i ≠ k := by
      intro heq
      subst heq
      simp [State.releaseSlot] at hb
    simp only [Copy.Counts, hp] at hcounts
    simp only [Copy.held, hp, List.mem_append, List.mem_singleton, hne, or_false] at hi
    obtain ⟨w, hw, rfl⟩ := List.mem_map.mp hi
    simp only [State.Holds, State.setCopy_self]
    obtain ⟨hkind, hnil⟩ | ⟨hkind, hcount, hlen, hprime, hissued⟩ := hcounts
    · rw [hnil] at hw
      cases hw
    · by_cases hlt : c.issued < cfg.nchunks c.total
      · refine ⟨{ c with done := c.done + 1, point := .acquire }, ?_, List.mem_append_left _ hi⟩
        rw [Copy.released_d2h hkind, if_pos hlt]
      · have hnew : c.released cfg = _ := Copy.released_d2h hkind
        rw [if_neg hlt] at hnew
        refine Copy.d2hLoop_holds hnew.symm ?_ hissued hw
        simp only
        omega
  | failed k f hp => exact absurd hp (hrun k f)
  | waited k prev hp _ =>
    exact ⟨_, State.setCopy_self .., by simpa [Copy.held, Copy.goto, hp] using hi⟩
  | waitFailed k prev hp _ =>
    exact ⟨_, State.setCopy_self .., by simpa [Copy.held, Copy.goto, hp] using hi⟩
  | drained w hp _ => exact ⟨_, State.setCopy_self .., by simpa [Copy.held, Copy.goto, hp] using hi⟩
  | drainFailed w hp _ =>
    exact ⟨_, State.setCopy_self .., by simpa [Copy.held, Copy.goto, hp] using hi⟩

theorem Move.busy {s' : State n} {i : ℕ} (h : Move cfg s t c s') (hb : (s'.slot i).busy = true) :
    (s.slot i).busy = true ∨ s'.Holds t i := by
  cases h with
  | acquire k j hp hk hfree =>
    by_cases hik : i = k
    · exact .inr ⟨_, State.setCopy_self .., by simp [Copy.held, Copy.goto, hik]⟩
    · exact .inl (by simpa [hik] using hb)
  | released k f hp =>
    by_cases hik : i = k
    · simp [State.releaseSlot, hik] at hb
    · exact .inl (by simpa [State.releaseSlot, hik] using hb)
  | failed k f hp =>
    by_cases hik : i = k
    · simp [State.releaseSlot, hik] at hb
    · exact .inl (by simpa [State.releaseSlot, hik] using hb)
  | _ => exact .inl hb

theorem Move.running {s' : State n} (h : Move cfg s t c s') :
    (∀ c', s'.copies t = some c' → ∀ k f, c'.point ≠ .failed k f) ∨
      s'.sticky = true ∧ ∃ k f c', s'.copies t = some c' ∧ k ∈ c.held ∧ c'.point = .failed k f := by
  cases h with
  | start hp =>
    left
    intro c' hc'
    simp only [State.setCopy_self, Copy.start] at hc'
    split at hc'
    · exact (Copy.h2dLoop_fields hc').2
    · exact (Copy.d2hLoop_fields hc').2.2.2.1
  | enqueued k hp =>
    left
    intro c' hc'
    simp only [State.setCopy_self, Copy.enqueued] at hc'
    split at hc'
    · obtain rfl := Option.some.inj hc'
      simp [Copy.goto]
    · exact (Copy.d2hLoop_fields hc').2.2.2.1
  | released k f hp =>
    left
    intro c' hc'
    simp only [State.setCopy_self, Copy.released] at hc'
    split at hc'
    · exact (Copy.h2dLoop_fields hc').2
    · split at hc'
      · obtain rfl := Option.some.inj hc'
        simp
      · exact (Copy.d2hLoop_fields hc').2.2.2.1
  | failed k f hp => left; simp
  | acquire k j hp hk hfree => left; simp [Copy.goto]
  | waited k prev hp _ => left; simp [Copy.goto]
  | drained w hp _ => left; simp [Copy.goto]
  | waitFailed k prev hp hst =>
    exact .inr ⟨hst, k, prev, _, State.setCopy_self .., by simp [Copy.held, hp], rfl⟩
  | drainFailed w hp hst =>
    exact .inr ⟨hst, w.slot, _, _, State.setCopy_self .., by simp [Copy.held, hp], rfl⟩

theorem Move.sticky {s' : State n} (h : Move cfg s t c s') : s'.sticky = s.sticky := by
  cases h <;> rfl

theorem Owned.move {s' : State n} (h : Owned cfg s) (hm : Move cfg s t c s')
    (hc : s.copies t = some c) (hok : c.Ok cfg s.published) (hroom : headroom cfg s (.run t)) :
    Owned cfg s' ∨ Returning cfg s' := by
  obtain hrun | ⟨hst, k, f, c', hc', hk, hp⟩ := hm.running
  · left
    constructor
    · intro i hi hb
      obtain hb₀ | hholds := hm.busy hb
      · obtain ⟨u, c₀, hu, hheld⟩ := h.holder i hi hb₀
        by_cases hut : u = t
        · subst hut
          obtain rfl := Option.some.inj (hu.symm.trans hc)
          exact ⟨u, hm.keeps hok (h.running u c₀ hu) hheld hb⟩
        · exact ⟨u, c₀, (hm.copies_of_ne hut).trans hu, hheld⟩
      · exact ⟨t, hholds⟩
    · intro u c' hu
      by_cases hut : u = t
      · subst hut
        exact hrun c' hu
      · exact h.running u c' ((hm.copies_of_ne hut).symm.trans hu)
    · exact hm.room hc hroom h.room
  · exact .inr ⟨hst, k, hok.slots k hk, .inr ⟨t, c', hc', f, .inr hp⟩⟩

theorem Returning.move {s' : State n} (h : Returning cfg s) (hm : Move cfg s t c s')
    (hc : s.copies t = some c) : Returning cfg s' := by
  refine ⟨hm.sticky.trans h.sticky, ?_⟩
  obtain ⟨i, hi, hfree | ⟨u, c₀, hu, f, hp⟩⟩ := h.slot
  · refine ⟨i, hi, ?_⟩
    cases hb : (s'.slot i).busy with
    | false => exact .inl rfl
    | true =>
      -- The slot was free, so this step acquired it.
      cases hm with
      | acquire k j hp hk _ =>
        by_cases hik : i = k
        · subst hik
          exact .inr ⟨t, _, State.setCopy_self .., _, .inl rfl⟩
        · simp [hik, hfree] at hb
      | released k f _ =>
        by_cases hik : i = k
        · simp [State.releaseSlot, hik] at hb
        · simp [State.releaseSlot, hik, hfree] at hb
      | failed k f _ =>
        by_cases hik : i = k
        · simp [State.releaseSlot, hik] at hb
        · simp [State.releaseSlot, hik, hfree] at hb
      | _ => simp [hfree] at hb
  · refine ⟨i, hi, ?_⟩
    by_cases hut : u = t
    · subst hut
      obtain rfl := Option.some.inj (hu.symm.trans hc)
      cases hm with
      | waited k prev _ hst => simp [h.sticky] at hst
      | waitFailed k prev hk _ =>
        obtain ⟨rfl, -⟩ : k = i ∧ prev = f := by simpa [hk] using hp
        exact .inr ⟨u, _, State.setCopy_self .., prev, .inr rfl⟩
      | failed k f' hk =>
        obtain ⟨rfl, -⟩ : k = i ∧ f' = f := by simpa [hk] using hp
        left
        simp [State.releaseSlot]
      | _ => simp_all
    · exact .inr ⟨u, c₀, (hm.copies_of_ne hut).trans hu, f, hp⟩

theorem Move.slotFence {s' : State n} (h : Move cfg s t c s') (hc : c.Ok cfg s.published)
    (hslot : ∀ i, (s.slot i).fence.value ≤ s.published (s.slot i).fence.chan) (i : ℕ) :
    (s'.slot i).fence.value ≤ s'.published (s'.slot i).fence.chan := by
  have hrelease : ∀ k f, f.value ≤ s.published f.chan →
      ((s.releaseSlot k f).slot i).fence.value ≤
        s.published ((s.releaseSlot k f).slot i).fence.chan := by
    intro k f hf
    by_cases hik : i = k
    · simpa [State.releaseSlot, hik] using hf
    · simpa [State.releaseSlot, hik] using hslot i
  cases h with
  | acquire k j _ _ _ =>
    by_cases hik : i = k
    · simpa [hik] using hslot k
    · simpa [hik] using hslot i
  | enqueued k hp =>
    have hmove : Move cfg s t c _ := .enqueued k hp
    exact (hslot i).trans (hmove.published_le _)
  | released k f hp => exact hrelease k f (hc.fences f (by simp [hp, Point.fences]))
  | failed k f hp => exact hrelease k f (hc.fences f (by simp [hp, Point.fences]))
  | _ => exact hslot i

theorem Inv.move {s' : State n} (h : Inv cfg s) (hm : Move cfg s t c s')
    (hc : s.copies t = some c) (hroom : headroom cfg s (.run t)) : Inv cfg s' := by
  have hok := h.copies t c hc
  refine ⟨hm.slotFence hok h.slotFence, ?_, ?_⟩
  · intro u c' hu
    by_cases hut : u = t
    · subst hut
      exact hm.ok hok h.slotFence hu
    · exact (h.copies u c' ((hm.copies_of_ne hut).symm.trans hu)).mono hm.published_le
  · obtain howned | hret := h.pool
    · exact howned.move hm hc hok hroom
    · exact .inr (hret.move hm hc)

theorem Inv.submit (h : Inv cfg s) (hc : s.copies t = none) (kind : Kind) (chan : Chan)
    (total : ℕ) : Inv cfg (s.setCopy t (some (.submitted kind chan total))) := by
  have hold : ∀ u c, s.copies u = some c →
      (s.setCopy t (some (.submitted kind chan total))).copies u = some c := by
    intro u c hu
    by_cases hut : u = t
    · simp [← hut, hu] at hc
    · simpa [hut] using hu
  have hnew : ∀ u c, (s.setCopy t (some (.submitted kind chan total))).copies u = some c →
      s.copies u = some c ∨ c = .submitted kind chan total := by
    intro u c hu
    by_cases hut : u = t
    · subst hut
      exact .inr (by simpa using hu.symm)
    · exact .inl (by simpa [hut] using hu)
  refine ⟨h.slotFence, fun u c hu => ?_, ?_⟩
  · obtain hu | rfl := hnew u c hu
    · exact h.copies u c hu
    · constructor <;> simp [Copy.submitted, Copy.Counts, Copy.held, Point.fences]
  · obtain howned | hret := h.pool
    · left
      constructor
      · intro i hi hb
        obtain ⟨u, c, hu, hheld⟩ := howned.holder i hi hb
        exact ⟨u, c, hold u c hu, hheld⟩
      · intro u c hu
        obtain hu | rfl := hnew u c hu
        · exact howned.running u c hu
        · simp [Copy.submitted]
      · refine lt_of_le_of_lt (Finset.sum_le_sum fun u _ => ?_) howned.room
        by_cases hut : u = t
        · subst hut
          simp [State.needOf, Copy.need, Copy.submitted]
        · simp [State.needOf, hut]
    · obtain ⟨i, hi, hfree | ⟨u, c, hu, hp⟩⟩ := hret.slot
      · exact .inr ⟨hret.sticky, i, hi, .inl hfree⟩
      · exact .inr ⟨hret.sticky, i, hi, .inr ⟨u, c, hold u c hu, hp⟩⟩

theorem Inv.device (h : Inv cfg s) {p r : Chan → ℕ} {e : Bool} (hp : ∀ x, s.published x ≤ p x)
    (he : s.sticky = true → e = true) :
    Inv cfg { s with published := p, retired := r, sticky := e } where
  slotFence := fun i => (h.slotFence i).trans (hp _)
  copies := fun u c hu => (h.copies u c hu).mono hp
  pool := h.pool.imp (fun ho => ⟨ho.holder, ho.running, ho.room⟩)
    fun hr => ⟨he hr.sticky, hr.slot⟩

theorem step_inv {a : Action n} {s' : State n} (h : Inv cfg s) (hroom : headroom cfg s a)
    (hs : step cfg s a = some s') : Inv cfg s' := by
  cases a with
  | submit t kind chan total =>
    simp only [step, Option.ite_none_right_eq_some, Option.some.injEq] at hs
    obtain ⟨⟨hc, -⟩, rfl⟩ := hs
    exact h.submit hc kind chan total
  | run t =>
    simp only [step] at hs
    split at hs
    · cases hs
    · next c hc => exact h.move (copyStep_cases hs) hc hroom
  | publish chan =>
    simp only [step, State.enqueue, Option.map_eq_some_iff, Option.ite_none_right_eq_some,
      Option.some.injEq] at hs
    obtain ⟨_, ⟨-, rfl⟩, rfl⟩ := hs
    refine h.device (fun x => ?_) id
    by_cases hx : x = chan
    · simp [hx]
    · simp [hx]
  | retire chan err =>
    simp only [step, Option.ite_none_right_eq_some, Option.some.injEq] at hs
    obtain ⟨-, rfl⟩ := hs
    exact h.device (fun _ => le_rfl) (by simp_all)

theorem reach_inv (h : Reach (step cfg) (headroom cfg) (init n) s) : Inv cfg s :=
  h.invariant (init_inv cfg) fun _ _ _ hi hok hs => step_inv hi hok hs

/-! ### Progress -/

namespace CanRelease

theorem step {a : Action n} {s' : State n} (ha : a = .run t ∨ ∃ chan, a = .retire chan false)
    (hs : step cfg s a = some s') (h : CanRelease cfg s' t) : CanRelease cfg s t := by
  obtain ⟨as, u, has, hexec, hfree⟩ := h
  refine ⟨a :: as, u, ?_, ?_, hfree⟩
  · intro b hb
    obtain rfl | hb := List.mem_cons.mp hb
    · exact ha
    · exact has b hb
  · simpa [exec, hs] using hexec

theorem run (hc : s.copies t = some c) (hs : (s.copyStep cfg t c).isSome)
    (h : ∀ s', Move cfg s t c s' → CanRelease cfg s' t) : CanRelease cfg s t := by
  obtain ⟨s', hs⟩ := Option.isSome_iff_exists.mp hs
  exact (h s' (copyStep_cases hs)).step (.inl rfl) (by simpa [Staging.step, hc] using hs)

theorem wait {f : Fence} (hf : f.value ≤ s.published f.chan)
    (h : ∀ u : State n, u.copies = s.copies → u.published = s.published → u.sticky = s.sticky →
      f.value ≤ u.retired f.chan → CanRelease cfg u t) : CanRelease cfg s t := by
  generalize hd : f.value - s.retired f.chan = d
  induction d generalizing s with
  | zero => exact h s rfl rfl rfl (by omega)
  | succ d ih =>
    have hs : Staging.step cfg s (.retire f.chan false) = some { s with
        retired := Function.update s.retired f.chan (s.retired f.chan + 1) } := by
      simp [Staging.step, show s.retired f.chan < s.published f.chan by omega]
    refine CanRelease.step (.inr ⟨f.chan, rfl⟩) hs (ih hf h ?_)
    simp only [Function.update_self]
    omega

theorem free {k : ℕ} {f : Fence} (o : Option Copy) (hk : k < cfg.slots) :
    CanRelease cfg ((s.releaseSlot k f).setCopy t o) t :=
  ⟨[], _, by simp, rfl, k, hk, by simp [State.releaseSlot]⟩

theorem of_release {k : ℕ} {f : Fence} (hc : s.copies t = some c) (hp : c.point = .release k f)
    (hk : k < cfg.slots) : CanRelease cfg s t := by
  apply run hc (by simp [State.copyStep, hp])
  intro s' hm
  cases hm with
  | released j g hj =>
    obtain ⟨rfl, rfl⟩ : k = j ∧ f = g := by simpa [hp] using hj
    exact free _ hk
  | _ => simp_all

theorem of_failed {k : ℕ} {f : Fence} (hc : s.copies t = some c) (hp : c.point = .failed k f)
    (hk : k < cfg.slots) : CanRelease cfg s t := by
  apply run hc (by simp [State.copyStep, hp])
  intro s' hm
  cases hm with
  | failed j g hj =>
    obtain ⟨rfl, rfl⟩ : k = j ∧ f = g := by simpa [hp] using hj
    exact free _ hk
  | _ => simp_all

theorem of_drain {w : Issued} (hc : s.copies t = some c) (hok : c.Ok cfg s.published)
    (hp : c.point = .drain w) : CanRelease cfg s t := by
  have hk : w.slot < cfg.slots := hok.slots _ (by simp [Copy.held, hp])
  apply wait (f := ⟨c.chan, w.fence⟩) (hok.drain w hp)
  intro u hcopies _ _ hr
  apply run ((congrFun hcopies t).trans hc) (by simp [State.copyStep, hp, State.waitFence, hr])
  intro s' hm
  cases hm with
  | drained x hx _ =>
    obtain rfl : w = x := by simpa [hp] using hx
    exact of_release (State.setCopy_self ..) rfl hk
  | drainFailed x hx _ =>
    obtain rfl : w = x := by simpa [hp] using hx
    exact of_failed (State.setCopy_self ..) rfl hk
  | _ => simp_all

theorem of_enqueue {k : ℕ} (hc : s.copies t = some c) (hok : c.Ok cfg s.published)
    (hp : c.point = .enqueue k) (hlast : c.kind = .d2h → c.prime cfg ≤ c.window.length + 1) :
    CanRelease cfg s t := by
  have hcounts := hok.counts
  simp only [Copy.Counts, hp] at hcounts
  have hk : k < cfg.slots := hok.slots _ (by simp [Copy.held, hp])
  apply wait (f := ⟨c.chan, s.published c.chan⟩) le_rfl
  intro u hcopies hpub _ hr
  have hroom : u.published c.chan < u.retired c.chan + cfg.depth := by
    rw [hpub]
    exact Nat.lt_of_le_of_lt hr (Nat.lt_add_of_pos_right cfg.depth_pos)
  apply run ((congrFun hcopies t).trans hc) (by simp [State.copyStep, hp, State.enqueue, hroom])
  intro s' hm
  cases hm with
  | enqueued j hj =>
    obtain rfl : k = j := by simpa [hp] using hj
    obtain ⟨hkind, -⟩ | ⟨hkind, hcount, hlen, hissued⟩ := hcounts
    · have hnew : c.enqueued cfg k (u.published c.chan + 1) =
          some (c.goto (.release k ⟨c.chan, u.published c.chan + 1⟩)) := by
        simp only [Copy.enqueued, hkind]
      exact of_release ((State.setCopy_self ..).trans hnew) rfl hk
    · have hfull := hlast hkind
      have hnew : c.enqueued cfg k (u.published c.chan + 1) = _ := Copy.enqueued_d2h hkind ..
      obtain ⟨c', w, hc', hw⟩ := Copy.d2hLoop_drain hnew.symm
        (by simp only [Copy.prime] at *; omega) (by simp only; omega) (by simp)
      have hmove : Move cfg u t c _ := .enqueued k hp
      rw [← hpub] at hok
      have hok' := (hok.mono hmove.published_le).enqueued hp (by simp) hc'
      exact of_drain ((State.setCopy_self ..).trans hc') hok' hw
  | _ => simp_all

theorem of_waitPrev {k : ℕ} {prev : Fence} (hc : s.copies t = some c) (hok : c.Ok cfg s.published)
    (hp : c.point = .waitPrev k prev)
    (hlast : s.sticky = true ∨ (c.kind = .d2h → c.prime cfg ≤ c.window.length + 1)) :
    CanRelease cfg s t := by
  have hk : k < cfg.slots := hok.slots _ (by simp [Copy.held, hp])
  have hcounts := hok.counts
  simp only [Copy.Counts, hp] at hcounts
  apply wait (hok.fences prev (by simp [hp, Point.fences]))
  intro u hcopies hpub hst hr
  apply run ((congrFun hcopies t).trans hc) (by simp [State.copyStep, hp, State.waitFence, hr])
  intro s' hm
  cases hm with
  | waited j f hj hclean =>
    obtain ⟨rfl, rfl⟩ : k = j ∧ prev = f := by simpa [hp] using hj
    obtain hbad | hlast := hlast
    · rw [hst, hbad] at hclean
      cases hclean
    · have hok' : (c.goto (.enqueue k)).Ok cfg u.published := by
        rw [hpub]
        exact hok.goto (by simp [Copy.held, Copy.goto, hp]) hcounts (by simp [Point.fences])
          (by simp)
      exact of_enqueue (State.setCopy_self ..) hok' rfl hlast
  | waitFailed j f hj _ =>
    obtain ⟨rfl, rfl⟩ : k = j ∧ prev = f := by simpa [hp] using hj
    exact of_failed (State.setCopy_self ..) rfl hk
  | _ => simp_all

theorem of_need_lt (hc : s.copies t = some c) (hok : c.Ok cfg s.published)
    (hheld : c.need cfg < c.held.length) : c.point ≠ .acquire ∧ CanRelease cfg s t := by
  have hcounts := hok.counts
  have hslots := hok.slots
  cases hp : c.point with
  | lock =>
    simp only [Copy.Counts, hp] at hcounts
    simp [Copy.held, hp, hcounts.1] at hheld
  | acquire =>
    simp only [Copy.Counts, hp] at hcounts
    simp only [Copy.held, hp, List.append_nil, List.length_map] at hheld
    obtain ⟨-, hw⟩ | ⟨hkind, -, hlen, hissued⟩ := hcounts
    · simp [hw] at hheld
    · rw [Copy.need, if_pos ⟨hkind, by simp [hp], hissued⟩] at hheld
      omega
  | waitPrev k prev =>
    refine ⟨by simp, of_waitPrev hc hok hp (.inr fun hk => ?_)⟩
    simp only [Copy.Counts, hp, hk] at hcounts
    simp only [Copy.held, hp, List.length_append, List.length_map, List.length_singleton] at hheld
    obtain ⟨⟨⟩, -⟩ | ⟨-, -, hlen, hissued⟩ := hcounts
    rw [Copy.need, if_pos ⟨hk, by simp [hp], hissued⟩] at hheld
    omega
  | enqueue k =>
    refine ⟨by simp, of_enqueue hc hok hp fun hk => ?_⟩
    simp only [Copy.Counts, hp, hk] at hcounts
    simp only [Copy.held, hp, List.length_append, List.length_map, List.length_singleton] at hheld
    obtain ⟨⟨⟩, -⟩ | ⟨-, -, hlen, hissued⟩ := hcounts
    rw [Copy.need, if_pos ⟨hk, by simp [hp], hissued⟩] at hheld
    omega
  | drain w => exact ⟨by simp, of_drain hc hok hp⟩
  | release k f => exact ⟨by simp, of_release hc hp (hslots k (by simp [Copy.held, hp]))⟩
  | failed k f => exact ⟨by simp, of_failed hc hp (hslots k (by simp [Copy.held, hp]))⟩

end CanRelease

theorem Owned.exists_need_lt (h : Owned cfg s) (hall : s.AllBusy cfg) :
    ∃ t c, s.copies t = some c ∧ c.need cfg < c.held.length := by
  by_contra hno
  push Not at hno
  let heldBy : Fin n → Finset ℕ := fun t => ((s.copies t).map Copy.held).getD [] |>.toFinset
  have hcover : Finset.range cfg.slots ⊆ Finset.univ.biUnion heldBy := by
    intro i hi
    have hi := Finset.mem_range.mp hi
    obtain ⟨t, c, hc, hheld⟩ := h.holder i hi (hall i hi)
    exact Finset.mem_biUnion.mpr ⟨t, Finset.mem_univ t, by simpa [heldBy, hc] using hheld⟩
  have hheldBy : ∀ t, (heldBy t).card ≤ s.needOf cfg t := by
    intro t
    cases hc : s.copies t with
    | none => simp [heldBy, hc]
    | some c =>
      rw [needOf_some hc]
      have hle := (List.toFinset_card_le c.held).trans (hno t c hc)
      simpa [heldBy, hc] using hle
  have hcard : cfg.slots ≤ ∑ t, s.needOf cfg t :=
    calc cfg.slots = (Finset.range cfg.slots).card := (Finset.card_range _).symm
      _ ≤ (Finset.univ.biUnion heldBy).card := Finset.card_le_card hcover
      _ ≤ ∑ t, (heldBy t).card := Finset.card_biUnion_le
      _ ≤ ∑ t, s.needOf cfg t := Finset.sum_le_sum fun t _ => hheldBy t
  exact absurd h.room (Nat.not_lt.mpr hcard)

/-- The pool never deadlocks while the device-to-host copies in flight leave
headroom: with all slots busy, some thread that holds a slot is not in
`acquire_slot` and frees one with its own steps and the device's. -/
theorem staging_pool_progress (h : Reach (step cfg) (headroom cfg) (init n) s) :
    ¬s.Deadlocked cfg ∧ (s.AllBusy cfg → ∃ t c, s.copies t = some c ∧ c.held ≠ [] ∧
      c.point ≠ .acquire ∧ CanRelease cfg s t) := by
  have hi := reach_inv h
  have hprogress : s.AllBusy cfg → ∃ t c, s.copies t = some c ∧ c.held ≠ [] ∧
      c.point ≠ .acquire ∧ CanRelease cfg s t := by
    intro hall
    obtain howned | hret := hi.pool
    · obtain ⟨t, c, hc, hlt⟩ := howned.exists_need_lt hall
      have hheld : c.held ≠ [] := List.ne_nil_of_length_pos (by omega)
      exact ⟨t, c, hc, hheld, CanRelease.of_need_lt hc (hi.copies t c hc) hlt⟩
    · obtain ⟨i, hlt, hfree | ⟨t, c, hc, f, hp⟩⟩ := hret.slot
      · rw [hall i hlt] at hfree
        cases hfree
      · obtain hp | hp := hp
        · exact ⟨t, c, hc, by simp [Copy.held, hp], by simp [hp],
            .of_waitPrev hc (hi.copies t c hc) hp (.inl hret.sticky)⟩
        · exact ⟨t, c, hc, by simp [Copy.held, hp], by simp [hp], .of_failed hc hp hlt⟩
  refine ⟨fun hdead => ?_, hprogress⟩
  obtain ⟨t, c, hc, hheld, hp, -⟩ := hprogress hdead.1
  exact hp (hdead.2 t c hc hheld)

/-- Submits of device-to-host copies of `chunks` default chunks, one thread and
channel each, followed by `rounds` rounds of the acquire, wait and enqueue of
every thread. -/
def primingRun (chunks : ℕ) (threads : List (Fin n)) (rounds : ℕ) : List (Action n) :=
  (threads.map fun t => .submit t .d2h (1, t) (chunks * Config.default.chunk)) ++
    threads.map .run ++
    (List.replicate rounds (threads.flatMap fun t => [.run t, .run t, .run t])).flatten

/-- Two copies fill the default pool and go on. -/
theorem staging_pool_progress_two :
    ∃ s : State 2, Reach (step .default) (headroom .default) (init 2) s ∧
      s.AllBusy .default ∧ ∃ t c, s.copies t = some c ∧ c.held ≠ [] ∧ c.point ≠ .acquire ∧
        CanRelease .default s t := by
  have hrun : (exec (when (headroom .default) (step .default)) (init 2)
      (primingRun 4 [0, 1] 4)).map (fun s => decide (s.AllBusy .default)) =
        some true := by decide +kernel
  obtain ⟨s, hs, hq⟩ := Option.map_eq_some_iff.mp hrun
  have hreach : Reach (step .default) (headroom .default) (init 2) s := .of_exec_when .refl hs
  have hall : s.AllBusy .default := of_decide_eq_true hq
  exact ⟨s, hreach, hall, (staging_pool_progress hreach).2 hall⟩

/-- Three copies of four chunks deadlock the default pool while they prime their
windows: they hold three, three and two slots. -/
theorem staging_pool_deadlock :
    ∃ s : State 3, Reach (step .default) anyStep (init 3) s ∧ s.Deadlocked .default := by
  have hrun : (exec (step .default) (init 3) (primingRun 4 [0, 1, 2] 2 ++
      [.run 0, .run 0, .run 0, .run 1, .run 1, .run 1])).map
        (fun s => decide (s.Deadlocked .default)) = some true := by decide +kernel
  obtain ⟨s, hs, hq⟩ := Option.map_eq_some_iff.mp hrun
  exact ⟨s, .of_exec .refl hs, of_decide_eq_true hq⟩

end SoftGpu.Staging
