import SoftGpu.StagingPool

/-!
# What becomes of the staging slots of a copy

The staging pool with a record of each call of `do_submit`: the slots it
acquired and the DMAs it issued on them. When a call has returned, each of its
slots should be free again, or in the hands of a later call, and whoever waits
for the fence that is recorded in the slot should have waited for all DMAs of
the call on it.

A device-to-host copy that gets an error from `wait_fence` releases the slot in
its hand and returns; the slots in its window stay busy.
-/

namespace SoftGpu.SlotLog

open Machine Staging

variable {n : ℕ}

/-- The calls are numbered: `call t` is the number of the last call of thread `t`, `owner i` that
of the call that acquired slot `i` last. -/
structure Log (n : ℕ) where
  pool : State n
  calls : ℕ
  call : Fin n → ℕ
  took : ℕ → List ℕ
  dmas : ℕ → List (ℕ × Fence)
  owner : ℕ → ℕ

def init (n : ℕ) : Log n where
  pool := Staging.init n
  calls := 0
  call := fun _ => 0
  took := fun _ => []
  dmas := fun _ => []
  owner := fun _ => 0

namespace Log

def begin (x : Log n) (t : Fin n) : Log n :=
  { x with calls := x.calls + 1, call := Function.update x.call t x.calls }

def recordSlot (x : Log n) (t : Fin n) (k : ℕ) : Log n :=
  { x with
    took := Function.update x.took (x.call t) (k :: x.took (x.call t))
    owner := Function.update x.owner k (x.call t) }

def recordDma (x : Log n) (t : Fin n) (k : ℕ) (f : Fence) : Log n :=
  { x with dmas := Function.update x.dmas (x.call t) ((k, f) :: x.dmas (x.call t)) }

def record (cfg : Config) (x : Log n) (t : Fin n) (c : Copy) : Log n :=
  match c.point with
  | .acquire =>
    match x.pool.acquireSlot cfg with
    | some (k, _) => x.recordSlot t k
    | none => x
  | .enqueue k => x.recordDma t k ⟨c.chan, x.pool.published c.chan + 1⟩
  | _ => x

end Log

def step (cfg : Config) (x : Log n) : Action n → Option (Log n)
  | .submit t kind chan total => (Staging.step cfg x.pool (.submit t kind chan total)).map fun s =>
    { x.begin t with pool := s }
  | .run t =>
    match x.pool.copies t with
    | none => none
    | some c => (x.pool.copyStep cfg t c).map fun s => { x.record cfg t c with pool := s }
  | a => (Staging.step cfg x.pool a).map fun s => { x with pool := s }

/-! ### Returned calls -/

def Retired (s : State n) (f : Fence) : Prop := f.value ≤ s.retired f.chan

def Covers (g f : Fence) : Prop := g.chan = f.chan ∧ f.value ≤ g.value

def Log.Returned (x : Log n) (k : ℕ) : Prop :=
  k < x.calls ∧ ∀ t, x.pool.copies t ≠ none → x.call t ≠ k

/-- Every slot of the call is free or was acquired by another call since, and its DMAs on it have
retired or are covered by the recorded fence. -/
structure Log.Clean (x : Log n) (k : ℕ) : Prop where
  slots : ∀ i ∈ x.took k, (x.pool.slot i).busy = false ∨ x.owner i ≠ k
  fences : ∀ d ∈ x.dmas k, Retired x.pool d.2 ∨ Covers (x.pool.slot d.1).fence d.2

def waits : Point → Bool
  | .waitPrev .. | .drain _ => true
  | .lock | .acquire | .enqueue _ | .release .. | .failed .. => false

/-- A `wait_fence` reports the error only to a copy that has nothing in its window. -/
def windowEmpty (x : Log n) : Action n → Prop
  | .run t => ∀ c ∈ x.pool.copies t, x.pool.sticky = true → waits c.point = true → c.window = []
  | .submit .. | .publish _ | .retire .. => True

instance (x : Log n) (a : Action n) : Decidable (windowEmpty x a) :=
  match a with
  | .run t => inferInstanceAs (Decidable (∀ c ∈ x.pool.copies t, x.pool.sticky = true →
      waits c.point = true → c.window = []))
  | .submit .. | .publish _ | .retire .. => .isTrue trivial

/-! ### The invariant -/

def Pending (c : Copy) (i : ℕ) (f : Fence) : Prop :=
  f.chan = c.chan ∧
    (⟨i, f.value⟩ ∈ c.window ∨ c.point = .drain ⟨i, f.value⟩ ∨ c.point = .release i f)

structure Copy.Safe (s : State n) (owner : ℕ → ℕ) (k : ℕ) (c : Copy) : Prop where
  busy : ∀ i ∈ c.held, (s.slot i).busy = true ∧ owner i = k
  nodup : c.held.Nodup
  prev : ∀ i g, c.point = .waitPrev i g → (s.slot i).fence = g
  /-- The copy waited for the fence of every other slot that it holds. -/
  waited : ∀ i ∈ c.held, (∀ g, c.point ≠ .waitPrev i g) → Retired s (s.slot i).fence
  failed : ∀ i g, c.point = .failed i g → Retired s g ∧ c.window = []

structure Inv (cfg : Config) (x : Log n) : Prop where
  fresh : ∀ k, x.calls ≤ k → x.took k = [] ∧ x.dmas k = []
  numbered : ∀ t, x.pool.copies t ≠ none → x.call t < x.calls
  distinct : ∀ t u, x.pool.copies t ≠ none → x.pool.copies u ≠ none → x.call t = x.call u → t = u
  slotFence : ∀ i, (x.pool.slot i).fence.value ≤ x.pool.published (x.pool.slot i).fence.chan
  ok : ∀ t c, x.pool.copies t = some c → c.Ok cfg x.pool.published
  safe : ∀ t c, x.pool.copies t = some c → Copy.Safe x.pool x.owner (x.call t) c
  slots : ∀ k, ∀ i ∈ x.took k, (x.pool.slot i).busy = false ∨ x.owner i ≠ k ∨
    ∃ t c, x.pool.copies t = some c ∧ x.call t = k ∧ i ∈ c.held
  fences : ∀ k, ∀ d ∈ x.dmas k, Retired x.pool d.2 ∨ Covers (x.pool.slot d.1).fence d.2 ∨
    ∃ t c, x.pool.copies t = some c ∧ x.call t = k ∧ Pending c d.1 d.2

theorem Inv.clean {cfg : Config} {x : Log n} (h : Inv cfg x) {k : ℕ} (hk : x.Returned k) :
    x.Clean k where
  slots := by
    intro i hi
    obtain hfree | hother | ⟨t, c, hc, ht, -⟩ := h.slots k i hi
    · exact .inl hfree
    · exact .inr hother
    · exact absurd ht (hk.2 t (by simp [hc]))
  fences := by
    intro d hd
    obtain hret | hcov | ⟨t, c, hc, ht, -⟩ := h.fences k d hd
    · exact .inl hret
    · exact .inr hcov
    · exact absurd ht (hk.2 t (by simp [hc]))

section Rules
variable {cfg : Config} {x : Log n} {t : Fin n} {c : Copy} {s : State n} {o : Option Copy}

theorem Covers.retired {g f : Fence} (h : Covers g f) (hg : Retired s g) : Retired s f := by
  obtain ⟨hchan, hle⟩ := h
  rw [Retired, hchan] at hg
  exact hle.trans hg

theorem Inv.not_held (h : Inv cfg x) (hc : x.pool.copies t = some c) {u : Fin n} {c' : Copy}
    (hu : x.pool.copies u = some c') (hne : u ≠ t) {i : ℕ} (hi : i ∈ c'.held) : i ∉ c.held := by
  intro hit
  have howner := ((h.safe t c hc).busy i hit).2
  have howner' := ((h.safe u c' hu).busy i hi).2
  exact hne (h.distinct u t (by simp [hu]) (by simp [hc]) (howner'.symm.trans howner))

structure Steps (x : Log n) (t : Fin n) (c : Copy) (o : Option Copy) (s : State n) : Prop where
  copies : s.copies = Function.update x.pool.copies t o
  retired : s.retired = x.pool.retired
  published : ∀ ch, x.pool.published ch ≤ s.published ch
  slot : ∀ i, i ∉ c.held → s.slot i = x.pool.slot i
  fence : ∀ i ∈ c.held, (s.slot i).fence = (x.pool.slot i).fence ∨
    Retired x.pool (x.pool.slot i).fence
  held : ∀ i ∈ c.held, (s.slot i).busy = false ∨ ∃ c' ∈ o, i ∈ c'.held
  pending : ∀ i f, Pending c i f → Retired x.pool f ∨ Covers (s.slot i).fence f ∨
    ∃ c' ∈ o, Pending c' i f

theorem Steps.copies_of_ne (hs : Steps x t c o s) {u : Fin n} (hu : u ≠ t) :
    s.copies u = x.pool.copies u := by
  rw [hs.copies, Function.update_of_ne hu]

theorem Steps.copies_self (hs : Steps x t c o s) : s.copies t = o := by
  rw [hs.copies, Function.update_self]

theorem Copy.Safe.of_slots {s s' : State n} {owner : ℕ → ℕ} {k : ℕ} {c : Copy}
    (h : Copy.Safe s owner k c) (hslot : ∀ i ∈ c.held, s'.slot i = s.slot i)
    (hret : ∀ ch, s.retired ch ≤ s'.retired ch) : Copy.Safe s' owner k c where
  busy := by
    intro i hi
    rw [hslot i hi]
    exact h.busy i hi
  nodup := h.nodup
  prev := by
    intro i g hp
    rw [hslot i (by simp [Copy.held, hp])]
    exact h.prev i g hp
  waited := by
    intro i hi hp
    rw [hslot i hi]
    exact (h.waited i hi hp).trans (hret _)
  failed := fun i g hp => ⟨(h.failed i g hp).1.trans (hret _), (h.failed i g hp).2⟩

theorem Inv.steps (h : Inv cfg x) (hc : x.pool.copies t = some c) (hs : Steps x t c o s)
    (hok : ∀ c' ∈ o, c'.Ok cfg s.published)
    (hsafe : ∀ c' ∈ o, Copy.Safe s x.owner (x.call t) c')
    (hfence : ∀ i, (s.slot i).fence.value ≤ s.published (s.slot i).fence.chan) :
    Inv cfg { x with pool := s } := by
  have hsome : ∀ u, s.copies u ≠ none → x.pool.copies u ≠ none := by
    intro u hu
    by_cases hut : u = t
    · subst hut
      simp [hc]
    · rwa [← hs.copies_of_ne hut]
  have hret : ∀ f, Retired s f ↔ Retired x.pool f := by
    intro f
    rw [Retired, Retired, hs.retired]
  refine ⟨h.fresh, fun u hu => h.numbered u (hsome u hu), fun u v hu hv => ?_,
    hfence, ?_, ?_, ?_, ?_⟩
  · exact h.distinct u v (hsome u hu) (hsome v hv)
  · intro u c' hu
    by_cases hut : u = t
    · subst hut
      exact hok c' (hs.copies_self ▸ hu)
    · exact (h.ok u c' ((hs.copies_of_ne hut).symm.trans hu)).mono hs.published
  · intro u c' hu
    by_cases hut : u = t
    · subst hut
      exact hsafe c' (hs.copies_self ▸ hu)
    · have hu' : x.pool.copies u = some c' := (hs.copies_of_ne hut).symm.trans hu
      refine (h.safe u c' hu').of_slots (fun i hi => ?_) fun ch => (congrFun hs.retired ch).ge
      exact hs.slot i (h.not_held hc hu' hut hi)
  · intro k i hi
    obtain hfree | hother | ⟨u, c', hu, hk, hheld⟩ := h.slots k i hi
    · have hnot : i ∉ c.held := by
        intro hit
        have := ((h.safe t c hc).busy i hit).1
        rw [hfree] at this
        cases this
      exact .inl ((congrArg Slot.busy (hs.slot i hnot)).trans hfree)
    · exact .inr (.inl hother)
    · by_cases hut : u = t
      · subst hut
        obtain rfl := Option.some.inj (hu.symm.trans hc)
        obtain hfree | ⟨c'', hc'', hheld⟩ := hs.held i hheld
        · exact .inl hfree
        · exact .inr (.inr ⟨u, c'', hs.copies_self.trans hc'', hk, hheld⟩)
      · exact .inr (.inr ⟨u, c', (hs.copies_of_ne hut).trans hu, hk, hheld⟩)
  · intro k d hd
    dsimp only
    rw [hret]
    obtain hdone | hcov | ⟨u, c', hu, hk, hpend⟩ := h.fences k d hd
    · exact .inl hdone
    · by_cases hit : d.1 ∈ c.held
      · obtain heq | hdone := hs.fence d.1 hit
        · rw [heq]
          exact .inr (.inl hcov)
        · exact .inl (hcov.retired hdone)
      · rw [hs.slot d.1 hit]
        exact .inr (.inl hcov)
    · by_cases hut : u = t
      · subst hut
        obtain rfl := Option.some.inj (hu.symm.trans hc)
        obtain hdone | hcov | ⟨c'', hc'', hpend⟩ := hs.pending d.1 d.2 hpend
        · exact .inl hdone
        · exact .inr (.inl hcov)
        · exact .inr (.inr ⟨u, c'', hs.copies_self.trans hc'', hk, hpend⟩)
      · exact .inr (.inr ⟨u, c', (hs.copies_of_ne hut).trans hu, hk, hpend⟩)

theorem Inv.recordDma (h : Inv cfg x) (hc : x.pool.copies t = some c) {k : ℕ} {f : Fence}
    (hpend : Pending c k f) : Inv cfg (x.recordDma t k f) := by
  refine ⟨fun j hj => ⟨(h.fresh j hj).1, ?_⟩, h.numbered, h.distinct, h.slotFence,
    h.ok, h.safe, h.slots, ?_⟩
  · have hnum := h.numbered t (by simp [hc])
    have hne : j ≠ x.call t := by
      have hj' : x.calls ≤ j := hj
      omega
    simpa [Log.recordDma, hne] using (h.fresh j hj).2
  · intro j d hd
    by_cases hj : j = x.call t
    · subst hj
      simp only [Log.recordDma, Function.update_self, List.mem_cons] at hd
      obtain rfl | hd := hd
      · exact .inr (.inr ⟨t, c, hc, rfl, hpend⟩)
      · exact h.fences _ d hd
    · simp only [Log.recordDma, Function.update_of_ne hj] at hd
      exact h.fences j d hd

def acquired (s : State n) (t : Fin n) (c : Copy) (k j : ℕ) : State n :=
  State.setCopy { s with
    slot := Function.update s.slot k { s.slot k with busy := true }
    nextSlot := j } t (some (c.goto (.waitPrev k (s.slot k).fence)))

theorem acquired_fence (s : State n) (t : Fin n) (c : Copy) (k j i : ℕ) :
    ((acquired s t c k j).slot i).fence = (s.slot i).fence := by
  by_cases hik : i = k
  · subst hik
    simp [acquired]
  · simp [acquired, hik]

theorem Copy.held_acquire (hp : c.point = .acquire) : c.held = c.window.map Issued.slot := by
  simp [Copy.held, hp]

theorem Copy.held_waitPrev (c : Copy) (k : ℕ) (g : Fence) :
    (c.goto (.waitPrev k g)).held = c.window.map Issued.slot ++ [k] := rfl

theorem Inv.acquire (h : Inv cfg x) (hc : x.pool.copies t = some c) {k j : ℕ}
    (hp : c.point = .acquire) (hk : k < cfg.slots) (hfree : (x.pool.slot k).busy = false) :
    Inv cfg { x.recordSlot t k with pool := acquired x.pool t c k j } := by
  have hmove : Move cfg x.pool t c (acquired x.pool t c k j) := .acquire k j hp hk hfree
  have hself : (acquired x.pool t c k j).copies t =
      some (c.goto (.waitPrev k (x.pool.slot k).fence)) := State.setCopy_self ..
  have hnone : ∀ u c', x.pool.copies u = some c' → k ∉ c'.held := by
    intro u c' hu hi
    have := ((h.safe u c' hu).busy k hi).1
    rw [hfree] at this
    cases this
  have hslot : ∀ i, i ≠ k → (acquired x.pool t c k j).slot i = x.pool.slot i := by
    intro i hi
    simp [acquired, hi]
  have howner : ∀ i, i ≠ k → (x.recordSlot t k).owner i = x.owner i := by
    intro i hi
    simp [Log.recordSlot, hi]
  have hsome : ∀ u, (acquired x.pool t c k j).copies u ≠ none → x.pool.copies u ≠ none := by
    intro u hu
    by_cases hut : u = t
    · subst hut
      simp [hc]
    · rwa [← hmove.copies_of_ne hut]
  have hcur : x.call t < x.calls := h.numbered t (by simp [hc])
  have hold : ∀ u c', x.pool.copies u = some c' → ∀ i ∈ c'.held,
      ∃ c'', (acquired x.pool t c k j).copies u = some c'' ∧ i ∈ c''.held := by
    intro u c' hu i hi
    by_cases hut : u = t
    · subst hut
      obtain rfl := Option.some.inj (hu.symm.trans hc)
      refine ⟨_, hself, ?_⟩
      rw [Copy.held_acquire hp] at hi
      exact List.mem_append_left _ hi
    · exact ⟨c', (hmove.copies_of_ne hut).trans hu, hi⟩
  refine ⟨?_, fun u hu => h.numbered u (hsome u hu), fun u v hu hv => ?_, ?_, ?_, ?_, ?_, ?_⟩
  · intro i hi
    have hne : i ≠ x.call t := by
      have hi' : x.calls ≤ i := hi
      omega
    refine ⟨?_, (h.fresh i hi).2⟩
    simpa [Log.recordSlot, hne] using (h.fresh i hi).1
  · exact h.distinct u v (hsome u hu) (hsome v hv)
  · intro i
    rw [acquired_fence]
    exact h.slotFence i
  · intro u c' hu
    by_cases hut : u = t
    · subst hut
      exact hmove.ok (h.ok u c hc) h.slotFence hu
    · exact h.ok u c' ((hmove.copies_of_ne hut).symm.trans hu)
  · intro u c' hu
    by_cases hut : u = t
    · subst hut
      obtain rfl := Option.some.inj (hself.symm.trans hu)
      have hsafe := h.safe u c hc
      have hwin : ∀ i ∈ c.window.map Issued.slot, i ∈ c.held ∧ i ≠ k := by
        intro i hi
        have hheld : i ∈ c.held := List.mem_append_left _ hi
        refine ⟨hheld, ?_⟩
        rintro rfl
        exact hnone u c hc hheld
      constructor
      · intro i hi
        rw [Copy.held_waitPrev, List.mem_append, List.mem_singleton] at hi
        obtain hi | rfl := hi
        · obtain ⟨hheld, hne⟩ := hwin i hi
          rw [hslot i hne]
          exact ⟨(hsafe.busy i hheld).1, (howner i hne).trans (hsafe.busy i hheld).2⟩
        · exact ⟨by simp [acquired], by simp [Log.recordSlot]⟩
      · rw [Copy.held_waitPrev, List.nodup_append]
        refine ⟨Copy.held_acquire hp ▸ hsafe.nodup, List.nodup_singleton k,
          fun i hi i' hi' heq => ?_⟩
        exact (hwin i hi).2 (heq.trans (List.mem_singleton.mp hi'))
      · intro i g hpoint
        rw [acquired_fence]
        simp only [Copy.goto, Point.waitPrev.injEq] at hpoint
        rw [← hpoint.1, hpoint.2]
      · intro i hi hpoint
        rw [acquired_fence]
        rw [Copy.held_waitPrev, List.mem_append, List.mem_singleton] at hi
        obtain hi | rfl := hi
        · exact hsafe.waited i (hwin i hi).1 (by simp [hp])
        · exact absurd rfl (hpoint _)
      · intro i g hpoint
        simp [Copy.goto] at hpoint
    · have hu' : x.pool.copies u = some c' := (hmove.copies_of_ne hut).symm.trans hu
      have hsafe := h.safe u c' hu'
      have hne : ∀ i ∈ c'.held, i ≠ k := by
        rintro i hi rfl
        exact hnone u c' hu' hi
      have hsafe' := hsafe.of_slots (fun i hi => hslot i (hne i hi)) fun _ => le_rfl
      exact ⟨fun i hi => ⟨(hsafe'.busy i hi).1, (howner i (hne i hi)).trans (hsafe'.busy i hi).2⟩,
        hsafe'.nodup, hsafe'.prev, hsafe'.waited, hsafe'.failed⟩
  · intro m i hi
    dsimp only
    by_cases hik : i = k
    · subst hik
      by_cases hm : m = x.call t
      · subst hm
        exact .inr (.inr ⟨t, _, hself, rfl, by simp [Copy.held_waitPrev]⟩)
      · exact .inr (.inl (by simpa [Log.recordSlot] using fun h => hm h.symm))
    · have hmem : i ∈ x.took m := by
        by_cases hm : m = x.call t
        · subst hm
          simpa [Log.recordSlot, hik] using hi
        · simpa [Log.recordSlot, hm] using hi
      rw [hslot i hik, howner i hik]
      obtain hfree' | hother | ⟨u, c', hu, hcall, hheld⟩ := h.slots m i hmem
      · exact .inl hfree'
      · exact .inr (.inl hother)
      · obtain ⟨c'', hu', hheld'⟩ := hold u c' hu i hheld
        exact .inr (.inr ⟨u, c'', hu', hcall, hheld'⟩)
  · intro m d hd
    dsimp only
    rw [acquired_fence]
    obtain hdone | hcov | ⟨u, c', hu, hcall, hpend⟩ := h.fences m d hd
    · exact .inl hdone
    · exact .inr (.inl hcov)
    · by_cases hut : u = t
      · subst hut
        obtain rfl := Option.some.inj (hu.symm.trans hc)
        have hwin : ⟨d.1, d.2.value⟩ ∈ c'.window := by simpa [hp] using hpend.2
        exact .inr (.inr ⟨u, _, hself, hcall, hpend.1, .inl hwin⟩)
      · exact .inr (.inr ⟨u, c', (hmove.copies_of_ne hut).trans hu, hcall, hpend⟩)

theorem Inv.begin (h : Inv cfg x) (hnone : x.pool.copies t = none) (kind : Kind) (chan : Chan)
    (total : ℕ) : Inv cfg { x.begin t with
      pool := x.pool.setCopy t (some (.submitted kind chan total)) } := by
  have hcopies : ∀ u, u ≠ t → (x.pool.setCopy t (some (.submitted kind chan total))).copies u =
      x.pool.copies u := fun u hu => State.setCopy_of_ne _ _ _ hu
  have hself : (x.pool.setCopy t (some (.submitted kind chan total))).copies t =
      some (.submitted kind chan total) := State.setCopy_self ..
  have hcall : ∀ u, u ≠ t → (x.begin t).call u = x.call u := fun u hu => Function.update_of_ne hu ..
  have hcall' : (x.begin t).call t = x.calls := Function.update_self ..
  have hne : ∀ u c', x.pool.copies u = some c' → u ≠ t := by
    rintro u c' hu rfl
    rw [hnone] at hu
    cases hu
  have hlt : ∀ u, u ≠ t → (x.pool.setCopy t (some (.submitted kind chan total))).copies u ≠ none →
      x.call u < x.calls := fun u hut hu => h.numbered u (by rwa [hcopies u hut] at hu)
  refine ⟨fun k hk => h.fresh k (Nat.le_of_succ_le hk), fun u hu => ?_, fun u v hu hv heq => ?_,
    h.slotFence, fun u c' hu => ?_, fun u c' hu => ?_, fun k i hi => ?_, fun k d hd => ?_⟩
  · by_cases hut : u = t
    · subst hut
      exact hcall'.trans_lt (Nat.lt_succ_self _)
    · exact (hcall u hut).trans_lt ((hlt u hut hu).trans (Nat.lt_succ_self _))
  · dsimp only at heq
    by_cases hut : u = t <;> by_cases hvt : v = t
    · rw [hut, hvt]
    · subst hut
      rw [hcall', hcall v hvt] at heq
      exact absurd heq.symm (hlt v hvt hv).ne
    · subst hvt
      rw [hcall', hcall u hut] at heq
      exact absurd heq (hlt u hut hu).ne
    · rw [hcall u hut, hcall v hvt] at heq
      exact h.distinct u v (by rwa [hcopies u hut] at hu) (by rwa [hcopies v hvt] at hv) heq
  · by_cases hut : u = t
    · subst hut
      obtain rfl := Option.some.inj (hself.symm.trans hu)
      constructor <;> simp [Copy.submitted, Copy.Counts, Copy.held, Point.fences]
    · exact h.ok u c' ((hcopies u hut).symm.trans hu)
  · by_cases hut : u = t
    · subst hut
      obtain rfl := Option.some.inj (hself.symm.trans hu)
      constructor <;> simp [Copy.submitted, Copy.held]
    · dsimp only
      rw [hcall u hut]
      exact (h.safe u c' ((hcopies u hut).symm.trans hu)).of_slots (fun _ _ => rfl) fun _ => le_rfl
  · obtain hfree | hother | ⟨u, c', hu, hk, hheld⟩ := h.slots k i hi
    · exact .inl hfree
    · exact .inr (.inl hother)
    · exact .inr (.inr ⟨u, c', (hcopies u (hne u c' hu)).trans hu,
        (hcall u (hne u c' hu)).trans hk, hheld⟩)
  · obtain hdone | hcov | ⟨u, c', hu, hk, hpend⟩ := h.fences k d hd
    · exact .inl hdone
    · exact .inr (.inl hcov)
    · exact .inr (.inr ⟨u, c', (hcopies u (hne u c' hu)).trans hu,
        (hcall u (hne u c' hu)).trans hk, hpend⟩)

theorem Inv.device (h : Inv cfg x) {p r : Chan → ℕ} {e : Bool}
    (hp : ∀ ch, x.pool.published ch ≤ p ch)
    (hr : ∀ ch, x.pool.retired ch ≤ r ch) :
    Inv cfg { x with pool := { x.pool with published := p, retired := r, sticky := e } } where
  fresh := h.fresh
  numbered := h.numbered
  distinct := h.distinct
  slotFence := fun i => (h.slotFence i).trans (hp _)
  ok := fun u c hu => (h.ok u c hu).mono hp
  safe := fun u c hu => (h.safe u c hu).of_slots (fun _ _ => rfl) hr
  slots := h.slots
  fences := fun k d hd => (h.fences k d hd).imp_left fun hdone => hdone.trans (hr _)

end Rules

/-! ### The steps of a copy -/

structure Loops (c : Copy) (o : Option Copy) : Prop where
  held : ∀ c' ∈ o, c'.held.Perm (c.window.map Issued.slot)
  none : o = none → c.window = []
  chan : ∀ c' ∈ o, c'.chan = c.chan
  kept : ∀ c' ∈ o, ∀ w ∈ c.window, w ∈ c'.window ∨ c'.point = .drain w
  point : ∀ c' ∈ o, ∀ i g, c'.point ≠ .waitPrev i g ∧ c'.point ≠ .failed i g

section Loops
variable {cfg : Config} {c : Copy}

theorem loops_goto_acquire (c : Copy) : Loops c (some (c.goto .acquire)) := by
  constructor <;> simp [Copy.goto, Copy.held]

theorem loops_d2hLoop (hcount : c.done + c.window.length = c.issued)
    (hissued : c.issued ≤ cfg.nchunks c.total) : Loops c (c.d2hLoop cfg) := by
  have hnone : c.d2hLoop cfg = none → c.window = [] := fun h => Copy.d2hLoop_none hcount hissued h
  unfold Copy.d2hLoop at hnone ⊢
  split
  · exact loops_goto_acquire c
  · split
    · cases hw : c.window with
      | nil => constructor <;> simp [hw]
      | cons w rest =>
        constructor
        · simp only [Option.mem_def, Option.some.injEq, forall_eq', Copy.held, hw, List.map_cons]
          exact List.perm_append_singleton w.slot (rest.map Issued.slot)
        · simp
        · simp
        · simp only [Option.mem_def, Option.some.injEq, forall_eq', hw, List.mem_cons]
          rintro v (rfl | hv)
          · exact .inr rfl
          · exact .inl hv
        · simp
    · next h₁ h₂ =>
      rw [if_neg h₁, if_neg h₂] at hnone
      constructor <;> simp [hnone]

theorem loops_h2dLoop (hw : c.window = []) : Loops c c.h2dLoop := by
  unfold Copy.h2dLoop
  split
  · exact loops_goto_acquire c
  · constructor <;> simp [hw]

theorem loops_start (hok : c.Counts cfg) (hp : c.point = .lock) : Loops c (c.start cfg) := by
  simp only [Copy.Counts, hp] at hok
  unfold Copy.start
  split
  · exact loops_h2dLoop hok.1
  · refine loops_d2hLoop ?_ ?_
    · rw [hok.1, hok.2.1, hok.2.2]
      rfl
    · rw [hok.2.1]
      exact Nat.zero_le _

theorem loops_released {k : ℕ} {f : Fence} (hok : c.Counts cfg) (hp : c.point = .release k f) :
    Loops c (c.released cfg) := by
  simp only [Copy.Counts, hp] at hok
  obtain ⟨hkind, hw⟩ | ⟨hkind, hcount, -, -, hissued⟩ := hok
  · have hnew : c.released cfg = Copy.h2dLoop { c with off := c.off + cfg.chunk } := by
      simp only [Copy.released, hkind]
    rw [hnew]
    have hloop := loops_h2dLoop (c := { c with off := c.off + cfg.chunk }) hw
    exact ⟨hloop.held, hloop.none, hloop.chan, hloop.kept, hloop.point⟩
  · rw [Copy.released_d2h hkind]
    split
    · have hloop := loops_goto_acquire { c with done := c.done + 1 }
      exact ⟨hloop.held, hloop.none, hloop.chan, hloop.kept, hloop.point⟩
    · have hcount' : c.done + 1 + c.window.length = c.issued := by omega
      have hloop : Loops { c with done := c.done + 1 }
        (Copy.d2hLoop cfg { c with done := c.done + 1 }) :=
        loops_d2hLoop hcount' hissued
      exact ⟨hloop.held, hloop.none, hloop.chan, hloop.kept, hloop.point⟩

theorem Loops.mem_held {o : Option Copy} (h : Loops c o) {w : Issued} (hw : w ∈ c.window) :
    ∃ c' ∈ o, w.slot ∈ c'.held := by
  cases ho : o with
  | none =>
    rw [h.none ho] at hw
    cases hw
  | some c' => exact ⟨c', rfl, (h.held c' ho).mem_iff.mpr (List.mem_map_of_mem hw)⟩

theorem Loops.pending {o : Option Copy} (h : Loops c o) {i : ℕ} {f : Fence}
    (hchan : f.chan = c.chan)
    (hw : ⟨i, f.value⟩ ∈ c.window) : ∃ c' ∈ o, Pending c' i f := by
  cases ho : o with
  | none =>
    rw [h.none ho] at hw
    cases hw
  | some c' =>
    refine ⟨c', rfl, hchan.trans (h.chan c' ho).symm, ?_⟩
    obtain hw | hd := h.kept c' ho _ hw
    · exact .inl hw
    · exact .inr (.inl hd)

end Loops

section Moves
variable {cfg : Config} {x : Log n} {t : Fin n} {c : Copy}

theorem Inv.goto (h : Inv cfg x) (hc : x.pool.copies t = some c) {q : Point}
    (hok : (c.goto q).Ok cfg x.pool.published) (hheld : (c.goto q).held = c.held)
    (hq : ∀ i g, q ≠ .waitPrev i g) (hwait : ∀ i g, c.point = .waitPrev i g → Retired x.pool g)
    (hfail : ∀ i g, q = .failed i g → Retired x.pool g ∧ c.window = [])
    (hpend : ∀ i f, Pending c i f → Retired x.pool f ∨ Pending (c.goto q) i f) :
    Inv cfg { x with pool := x.pool.setCopy t (some (c.goto q)) } := by
  have hsafe := h.safe t c hc
  refine h.steps hc ⟨rfl, rfl, fun _ => le_rfl, fun _ _ => rfl, fun _ _ => .inl rfl, ?_, ?_⟩ ?_ ?_
    h.slotFence
  · exact fun i hi => .inr ⟨_, rfl, hheld ▸ hi⟩
  · intro i f hp
    obtain hdone | hp := hpend i f hp
    · exact .inl hdone
    · exact .inr (.inr ⟨_, rfl, hp⟩)
  · rintro c' ⟨⟩
    exact hok
  · rintro c' ⟨⟩
    refine ⟨fun i hi => hsafe.busy i (hheld ▸ hi), hheld ▸ hsafe.nodup, fun i g hp => ?_, ?_, hfail⟩
    · exact absurd hp (hq i g)
    · intro i hi _
      by_cases hw : ∃ g, c.point = .waitPrev i g
      · obtain ⟨g, hg⟩ := hw
        rw [State.setCopy_slot, hsafe.prev i g hg]
        exact hwait i g hg
      · push Not at hw
        exact hsafe.waited i (hheld ▸ hi) hw

theorem Inv.loops (h : Inv cfg x) (hc : x.pool.copies t = some c) {c₁ : Copy} {o : Option Copy}
    {p : Chan → ℕ} (hloop : Loops c₁ o) (hheld : c₁.window.map Issued.slot = c.held)
    (hchan : c₁.chan = c.chan) (hwin : ∀ w ∈ c.window, w ∈ c₁.window)
    (hpoint : ∀ i g, c.point ≠ .waitPrev i g ∧ c.point ≠ .release i g)
    (hdrain : ∀ w, c.point ≠ .drain w) (hp : ∀ ch, x.pool.published ch ≤ p ch)
    (hok : ∀ c' ∈ o, c'.Ok cfg p) :
    Inv cfg { x with pool := State.setCopy { x.pool with published := p } t o } := by
  have hsafe := h.safe t c hc
  refine h.steps hc ⟨rfl, rfl, hp, fun _ _ => rfl, fun _ _ => .inl rfl, ?_, ?_⟩ hok ?_
    fun i => (h.slotFence i).trans (hp _)
  · intro i hi
    rw [← hheld] at hi
    obtain ⟨w, hw, rfl⟩ := List.mem_map.mp hi
    exact .inr (hloop.mem_held hw)
  · rintro i f ⟨hf, hw | hd | hr⟩
    · exact .inr (.inr (hloop.pending (hf.trans hchan.symm) (hwin _ hw)))
    · exact absurd hd (hdrain _)
    · exact absurd hr (hpoint i f).2
  · intro c' hc'
    have hperm : c'.held.Perm c.held := hheld ▸ hloop.held c' hc'
    refine ⟨fun i hi => hsafe.busy i (hperm.mem_iff.mp hi), hperm.nodup_iff.mpr hsafe.nodup,
      fun i g hg => absurd hg (hloop.point c' hc' i g).1, fun i hi _ => ?_,
      fun i g hg => absurd hg (hloop.point c' hc' i g).2⟩
    exact hsafe.waited i (hperm.mem_iff.mp hi) fun g => (hpoint i g).1

theorem Inv.release (h : Inv cfg x) (hc : x.pool.copies t = some c) {o : Option Copy} {k : ℕ}
    {f : Fence} (hloop : Loops c o) (hheld : c.held = c.window.map Issued.slot ++ [k])
    (hpoint : ∀ i g, c.point ≠ .waitPrev i g) (hf : f.value ≤ x.pool.published f.chan)
    (hpend : ∀ i g, Pending c i g → ⟨i, g.value⟩ ∈ c.window ∨ i = k ∧ g = f)
    (hok : ∀ c' ∈ o, c'.Ok cfg x.pool.published) :
    Inv cfg { x with pool := (x.pool.releaseSlot k f).setCopy t o } := by
  have hsafe := h.safe t c hc
  have hk : k ∈ c.held := by simp [hheld]
  have hne : ∀ i ∈ c.window.map Issued.slot, i ≠ k := by
    intro i hi
    have hnd := hsafe.nodup
    rw [hheld, List.nodup_append] at hnd
    exact hnd.2.2 i hi k (List.mem_singleton_self k)
  have hslot : ∀ i, i ≠ k → (x.pool.releaseSlot k f).slot i = x.pool.slot i := fun i hi =>
    Function.update_of_ne hi ..
  have hself : (x.pool.releaseSlot k f).slot k = ⟨f, false⟩ := Function.update_self ..
  have hold : ∀ c' ∈ o, ∀ i ∈ c'.held, i ∈ c.held ∧ i ≠ k := by
    intro c' hc' i hi
    have hwin := (hloop.held c' hc').mem_iff.mp hi
    exact ⟨hheld ▸ List.mem_append_left _ hwin, hne i hwin⟩
  refine h.steps hc ⟨rfl, rfl, fun _ => le_rfl, fun i hi => ?_, fun i hi => ?_, fun i hi => ?_,
    fun i g hg => ?_⟩ hok (fun c' hc' => ?_) fun i => ?_
  · refine hslot i ?_
    rintro rfl
    exact hi hk
  · exact .inr (hsafe.waited i hi (hpoint i))
  · rw [hheld, List.mem_append, List.mem_singleton] at hi
    obtain hi | rfl := hi
    · obtain ⟨w, hw, rfl⟩ := List.mem_map.mp hi
      exact .inr (hloop.mem_held hw)
    · exact .inl (by rw [State.setCopy_slot, hself])
  · obtain hw | ⟨rfl, rfl⟩ := hpend i g hg
    · exact .inr (.inr (hloop.pending hg.1 hw))
    · exact .inr (.inl (by rw [State.setCopy_slot, hself]; exact ⟨rfl, le_rfl⟩))
  · have hperm := hloop.held c' hc'
    refine ⟨fun i hi => ?_, ?_, fun i g hg => absurd hg (hloop.point c' hc' i g).1,
      fun i hi _ => ?_,
      fun i g hg => absurd hg (hloop.point c' hc' i g).2⟩
    · obtain ⟨hi', hik⟩ := hold c' hc' i hi
      rw [State.setCopy_slot, hslot i hik]
      exact hsafe.busy i hi'
    · have hnd := hsafe.nodup
      rw [hheld, List.nodup_append] at hnd
      exact hperm.nodup_iff.mpr hnd.1
    · obtain ⟨hi', hik⟩ := hold c' hc' i hi
      rw [State.setCopy_slot, hslot i hik]
      exact hsafe.waited i hi' (hpoint i)
  · rw [State.setCopy_slot]
    by_cases hik : i = k
    · subst hik
      rw [hself]
      exact hf
    · rw [hslot i hik]
      exact h.slotFence i

end Moves

/-! ### Runs -/

section Runs
variable {cfg : Config} {x x' : Log n} {t : Fin n} {c : Copy} {s : State n}

theorem acquireSlot_eq_some {k : ℕ} {g : Fence} {s' : State n}
    (h : s.acquireSlot cfg = some (k, g, s')) : k < cfg.slots ∧ (s.slot k).busy = false ∧
      g = (s.slot k).fence ∧ s' = { s with
        slot := Function.update s.slot k { s.slot k with busy := true }
        nextSlot := (k + 1) % cfg.slots } := by
  unfold State.acquireSlot at h
  split at h
  · cases h
  · next i hi =>
    simp only [Option.some.injEq, Prod.mk.injEq] at h
    obtain ⟨rfl, rfl, rfl⟩ := h
    have hfree := List.find?_some hi
    exact ⟨Nat.mod_lt _ cfg.slots_pos, by simpa using hfree, rfl, rfl⟩

theorem waitFence_retired {f : Fence} {err : Bool} (h : s.waitFence f = some err) :
    Retired s f := by
  simp only [State.waitFence, Option.ite_none_right_eq_some] at h
  exact h.1

theorem inv_acquire (h : Inv cfg x) (hc : x.pool.copies t = some c) (hp : c.point = .acquire)
    (hs : x.pool.copyStep cfg t c = some s) : Inv cfg { x.record cfg t c with pool := s } := by
  simp only [State.copyStep, hp, Option.map_eq_some_iff] at hs
  obtain ⟨⟨k, g, s'⟩, hacq, rfl⟩ := hs
  obtain ⟨hk, hfree, rfl, rfl⟩ := acquireSlot_eq_some hacq
  simp only [Log.record, hp, hacq]
  exact h.acquire hc hp hk hfree

theorem inv_waitPrev (h : Inv cfg x) (hc : x.pool.copies t = some c) {k : ℕ} {prev : Fence}
    (hp : c.point = .waitPrev k prev) (hwin : x.pool.sticky = true → c.window = [])
    (hs : x.pool.copyStep cfg t c = some s) : Inv cfg { x with pool := s } := by
  have hmove := copyStep_cases hs
  simp only [State.copyStep, hp, Option.map_eq_some_iff] at hs
  obtain ⟨err, hwait, rfl⟩ := hs
  obtain rfl := State.waitFence_eq_some hwait
  have hret := waitFence_retired hwait
  have hok := hmove.ok (h.ok t c hc) h.slotFence (State.setCopy_self ..)
  have hprev : ∀ i g, c.point = .waitPrev i g → Retired x.pool g := by
    intro i g hg
    rw [hp] at hg
    cases hg
    exact hret
  have hpend : ∀ q i f, Pending c i f → Pending (c.goto q) i f := by
    rintro q i f ⟨hchan, hw | hd | hr⟩
    · exact ⟨hchan, .inl hw⟩
    · rw [hp] at hd
      cases hd
    · rw [hp] at hr
      cases hr
  cases hst : x.pool.sticky with
  | false =>
    simp only [hst, Bool.false_eq_true, if_false] at hok
    refine h.goto hc hok ?_ (fun _ _ => by simp) hprev (fun _ _ => by simp)
      fun i f hf => .inr (hpend _ i f hf)
    simp [Copy.held, Copy.goto, hp]
  | true =>
    simp only [hst, if_true] at hok
    refine h.goto hc hok ?_ (fun _ _ => by simp) hprev ?_ fun i f hf => .inr (hpend _ i f hf)
    · simp [Copy.held, Copy.goto, hp]
    · rintro i g hg
      cases hg
      exact ⟨hret, hwin hst⟩

theorem inv_drain (h : Inv cfg x) (hc : x.pool.copies t = some c) {w : Issued}
    (hp : c.point = .drain w) (hwin : x.pool.sticky = true → c.window = [])
    (hs : x.pool.copyStep cfg t c = some s) : Inv cfg { x with pool := s } := by
  have hmove := copyStep_cases hs
  simp only [State.copyStep, hp, Option.map_eq_some_iff] at hs
  obtain ⟨err, hwait, rfl⟩ := hs
  obtain rfl := State.waitFence_eq_some hwait
  have hret := waitFence_retired hwait
  have hok := hmove.ok (h.ok t c hc) h.slotFence (State.setCopy_self ..)
  have hprev : ∀ i g, c.point = .waitPrev i g → Retired x.pool g := by
    intro i g hg
    rw [hp] at hg
    cases hg
  have hpend : ∀ q i f, Pending c i f → Retired x.pool f ∨ Pending (c.goto q) i f := by
    rintro q i f ⟨hchan, hw | hd | hr⟩
    · exact .inr ⟨hchan, .inl hw⟩
    · -- The DMA that was waited for.
      rw [hp] at hd
      cases hd
      left
      rw [Retired, hchan]
      exact hret
    · rw [hp] at hr
      cases hr
  cases hst : x.pool.sticky with
  | false =>
    simp only [hst, Bool.false_eq_true, if_false] at hok
    refine h.goto hc hok ?_ (fun _ _ => by simp) hprev (fun _ _ => by simp) (hpend _)
    simp [Copy.held, Copy.goto, hp]
  | true =>
    simp only [hst, if_true] at hok
    refine h.goto hc hok ?_ (fun _ _ => by simp) hprev ?_ (hpend _)
    · simp [Copy.held, Copy.goto, hp]
    · rintro i g hg
      cases hg
      exact ⟨hret, hwin hst⟩

theorem inv_start (h : Inv cfg x) (hc : x.pool.copies t = some c) (hp : c.point = .lock)
    (hs : x.pool.copyStep cfg t c = some s) : Inv cfg { x with pool := s } := by
  have hmove := copyStep_cases hs
  simp only [State.copyStep, hp, Option.ite_none_right_eq_some, Option.some.injEq] at hs
  obtain ⟨-, rfl⟩ := hs
  have hcounts := (h.ok t c hc).counts
  refine h.loops hc (loops_start hcounts hp) ?_ rfl (fun _ hw => hw) (by simp [hp]) (by simp [hp])
    (fun _ => le_rfl) fun c' hc' => hmove.ok (h.ok t c hc) h.slotFence ?_
  · simp [Copy.held, hp]
  · exact (State.setCopy_self ..).trans hc'

theorem inv_enqueue (h : Inv cfg x) (hc : x.pool.copies t = some c) {k : ℕ}
    (hp : c.point = .enqueue k) (hs : x.pool.copyStep cfg t c = some s) :
    Inv cfg { x.record cfg t c with pool := s } := by
  have hmove := copyStep_cases hs
  simp only [State.copyStep, hp, State.enqueue, Option.map_eq_some_iff,
    Option.ite_none_right_eq_some,
    Option.some.injEq] at hs
  obtain ⟨_, ⟨-, rfl⟩, rfl⟩ := hs
  have hok := h.ok t c hc
  have hcounts := hok.counts
  simp only [Copy.Counts, hp] at hcounts
  have hnew : ∀ c' ∈ c.enqueued cfg k (x.pool.published c.chan + 1), c'.Ok cfg
      (Function.update x.pool.published c.chan (x.pool.published c.chan + 1)) := fun c' hc' =>
    hmove.ok hok h.slotFence ((State.setCopy_self ..).trans hc')
  have hheld : c.held = c.window.map Issued.slot ++ [k] := by simp [Copy.held, hp]
  simp only [Log.record, hp]
  obtain ⟨hkind, hw⟩ | ⟨hkind, hcount, -, hissued⟩ := hcounts
  · have heq : c.enqueued cfg k (x.pool.published c.chan + 1) =
        some (c.goto (.release k ⟨c.chan, x.pool.published c.chan + 1⟩)) := by
      simp only [Copy.enqueued, hkind]
    rw [heq] at hnew ⊢
    have hinv := h.steps (s := State.setCopy { x.pool with
        published := Function.update x.pool.published c.chan (x.pool.published c.chan + 1) } t
        (some (c.goto (.release k ⟨c.chan, x.pool.published c.chan + 1⟩)))) hc
      ⟨rfl, rfl, hmove.published_le, fun _ _ => rfl, fun _ _ => .inl rfl,
        fun i hi => .inr ⟨_, rfl, by simpa [Copy.held, Copy.goto, hp] using hi⟩,
        fun i f hf => .inr (.inr ⟨_, rfl, hf.1, .inl (by simpa [hw, hp] using hf.2)⟩)⟩ hnew ?_
      fun i => (h.slotFence i).trans (hmove.published_le _)
    · exact hinv.recordDma (State.setCopy_self ..) ⟨rfl, .inr (.inr rfl)⟩
    · rintro c' ⟨⟩
      have hsafe := h.safe t c hc
      have hsame : (c.goto (.release k ⟨c.chan, x.pool.published c.chan + 1⟩)).held = c.held := by
        simp [Copy.held, Copy.goto, hp]
      refine ⟨fun i hi => hsafe.busy i (hsame ▸ hi), hsame ▸ hsafe.nodup, fun i g hg => ?_,
        fun i hi _ => hsafe.waited i (hsame ▸ hi) (by simp [hp]), fun i g hg => ?_⟩
      · simp [Copy.goto] at hg
      · simp [Copy.goto] at hg
  · let c₁ : Copy := { c with
      window := c.window ++ [⟨k, x.pool.published c.chan + 1⟩], issued := c.issued + 1 }
    have hloop : Loops c₁ (c.enqueued cfg k (x.pool.published c.chan + 1)) := by
      rw [Copy.enqueued_d2h hkind]
      refine loops_d2hLoop ?_ hissued
      simp only [c₁, List.length_append, List.length_singleton]
      omega
    have hinv := h.loops hc hloop (by simp [c₁, hheld]) rfl (fun w hw => List.mem_append_left _ hw)
      (by simp [hp]) (by simp [hp]) hmove.published_le hnew
    obtain ⟨c', hc', hpend⟩ := hloop.pending (i := k)
      (f := ⟨c.chan, x.pool.published c.chan + 1⟩) rfl
      (List.mem_append_right _ (List.mem_singleton_self _))
    exact hinv.recordDma ((State.setCopy_self ..).trans hc') hpend

theorem inv_release (h : Inv cfg x) (hc : x.pool.copies t = some c) {k : ℕ} {f : Fence}
    (hp : c.point = .release k f) (hs : x.pool.copyStep cfg t c = some s) :
    Inv cfg { x with pool := s } := by
  have hmove := copyStep_cases hs
  simp only [State.copyStep, hp, Option.some.injEq] at hs
  subst hs
  have hok := h.ok t c hc
  refine h.release hc (loops_released hok.counts hp) (by simp [Copy.held, hp]) (by simp [hp])
    (hok.fences f (by simp [hp, Point.fences])) ?_ fun c' hc' =>
      hmove.ok hok h.slotFence ((State.setCopy_self ..).trans hc')
  rintro i g ⟨-, hw | hd | hr⟩
  · exact .inl hw
  · rw [hp] at hd
    cases hd
  · rw [hp] at hr
    cases hr
    exact .inr ⟨rfl, rfl⟩

theorem inv_failed (h : Inv cfg x) (hc : x.pool.copies t = some c) {k : ℕ} {f : Fence}
    (hp : c.point = .failed k f) (hs : x.pool.copyStep cfg t c = some s) :
    Inv cfg { x with pool := s } := by
  simp only [State.copyStep, hp, Option.some.injEq] at hs
  subst hs
  have hok := h.ok t c hc
  have hw := ((h.safe t c hc).failed k f hp).2
  have hloop : Loops c none := by constructor <;> simp [hw]
  refine h.release hc hloop (by simp [Copy.held, hp]) (by simp [hp])
    (hok.fences f (by simp [hp, Point.fences])) ?_ (by simp)
  rintro i g ⟨-, hw | hd | hr⟩
  · exact .inl hw
  · rw [hp] at hd
    cases hd
  · rw [hp] at hr
    cases hr

theorem inv_run (h : Inv cfg x) (hc : x.pool.copies t = some c) (hok : windowEmpty x (.run t))
    (hs : x.pool.copyStep cfg t c = some s) : Inv cfg { x.record cfg t c with pool := s } := by
  have hwin : waits c.point = true → x.pool.sticky = true → c.window = [] := fun hw hst =>
    hok c hc hst hw
  cases hp : c.point with
  | acquire => exact inv_acquire h hc hp hs
  | enqueue k => exact inv_enqueue h hc hp hs
  | lock =>
    simp only [Log.record, hp]
    exact inv_start h hc hp hs
  | waitPrev k prev =>
    simp only [Log.record, hp]
    exact inv_waitPrev h hc hp (hwin (by rw [hp]; rfl)) hs
  | drain w =>
    simp only [Log.record, hp]
    exact inv_drain h hc hp (hwin (by rw [hp]; rfl)) hs
  | release k f =>
    simp only [Log.record, hp]
    exact inv_release h hc hp hs
  | failed k f =>
    simp only [Log.record, hp]
    exact inv_failed h hc hp hs

theorem inv_step {a : Action n} (h : Inv cfg x) (hok : windowEmpty x a)
    (hs : step cfg x a = some x') :
    Inv cfg x' := by
  cases a with
  | submit t kind chan total =>
    obtain ⟨s, hstep, rfl⟩ := Option.map_eq_some_iff.mp hs
    simp only [Staging.step, Option.ite_none_right_eq_some, Option.some.injEq] at hstep
    obtain ⟨⟨hnone, -⟩, rfl⟩ := hstep
    exact h.begin hnone kind chan total
  | run t =>
    simp only [step] at hs
    split at hs
    · cases hs
    · next c hc =>
      obtain ⟨s, hstep, rfl⟩ := Option.map_eq_some_iff.mp hs
      exact inv_run h hc hok hstep
  | publish chan =>
    obtain ⟨s, hstep, rfl⟩ := Option.map_eq_some_iff.mp hs
    simp only [Staging.step, State.enqueue, Option.map_eq_some_iff, Option.ite_none_right_eq_some,
      Option.some.injEq] at hstep
    obtain ⟨_, ⟨-, rfl⟩, rfl⟩ := hstep
    refine h.device (fun ch => ?_) fun _ => le_rfl
    by_cases hch : ch = chan
    · simp [hch]
    · simp [hch]
  | retire chan err =>
    obtain ⟨s, hstep, rfl⟩ := Option.map_eq_some_iff.mp hs
    simp only [Staging.step, Option.ite_none_right_eq_some, Option.some.injEq] at hstep
    obtain ⟨-, rfl⟩ := hstep
    refine h.device (fun _ => le_rfl) fun ch => ?_
    by_cases hch : ch = chan
    · simp [hch]
    · simp [hch]

theorem inv_init (cfg : Config) : Inv cfg (init n) := by
  constructor <;> simp [init, Staging.init]

end Runs

/-- In every run in which no copy is told of the error with chunks in its window, every call that
has returned has given its slots back. -/
theorem slots_returned (cfg : Config) (x : Log n) (h : Reach (step cfg) windowEmpty (init n) x) :
    ∀ k, x.Returned k → x.Clean k := by
  have hi : Inv cfg x := h.invariant (inv_init cfg) fun _ _ _ hi hok hs => inv_step hi hok hs
  exact fun k hk => hi.clean hk

/-- A copy of two chunks to the device that fails on the second of them: its slot 0 is recorded
with the fence of the first. -/
def failedIn : List (Action 1) :=
  [.submit 0 .h2d (1, 0) (2 * 256 * 1024)] ++ List.replicate 6 (.run 0) ++
    [.retire (1, 0) true, .run 0, .run 0]

theorem slots_returned_failedIn :
    ∃ x, exec (when windowEmpty (step .default)) (init 1) failedIn = some x ∧ x.Returned 0 ∧
      x.pool.sticky = true ∧ x.took 0 = [1, 0] ∧ x.Clean 0 := by
  have hrun : (exec (when windowEmpty (step .default)) (init 1) failedIn).map
      (fun x => (x.calls, x.pool.copies 0, x.pool.sticky, x.took 0)) =
      some (1, none, true, [1, 0]) := by decide
  obtain ⟨x, hx, hq⟩ := Option.map_eq_some_iff.mp hrun
  simp only [Prod.mk.injEq] at hq
  obtain ⟨hcalls, hnone, hst, htook⟩ := hq
  have hret : x.Returned 0 := by
    refine ⟨by omega, fun t ht => ?_⟩
    obtain rfl := Subsingleton.elim t 0
    exact absurd hnone ht
  exact ⟨x, hx, hret, hst, htook, slots_returned .default x (.of_exec_when .refl hx) 0 hret⟩

def failedOut : List (Action 1) :=
  [.submit 0 .d2h (1, 0) (2 * 256 * 1024)] ++ List.replicate 7 (.run 0) ++
    [.retire (1, 0) true, .run 0, .run 0]

theorem failedOut_not_clean :
    ¬∀ x : Log 1, Reach (step .default) anyStep (init 1) x → ∀ k, x.Returned k → x.Clean k := by
  have hrun : (exec (step .default) (init 1) failedOut).map
      (fun x => (x.calls, x.pool.copies 0, x.took 0, (x.pool.slot 1).busy, x.owner 1)) =
      some (1, none, [1, 0], true, 0) := by decide
  obtain ⟨x, hx, hq⟩ := Option.map_eq_some_iff.mp hrun
  simp only [Prod.mk.injEq] at hq
  obtain ⟨hcalls, hnone, htook, hbusy, howner⟩ := hq
  intro h
  have hret : x.Returned 0 := by
    refine ⟨by omega, fun t ht => ?_⟩
    obtain rfl := Subsingleton.elim t 0
    exact absurd hnone ht
  obtain hfree | hother := (h x (.of_exec .refl hx) 0 hret).slots 1 (by simp [htook])
  · rw [hbusy] at hfree
    cases hfree
  · exact hother howner

end SoftGpu.SlotLog
