import SoftGpu.StagedCopy

/-!
# Where the chunks of the staged copies are

Each chunk of each call waits, or is in one slot, or has been delivered, or was lost to an error.
The invariant says where the commands of the ring and the copies have their chunks, and which
commands may still refer to a slot: to a free one only such as its recorded fence covers, to one
that a copy fills none.
-/

namespace SoftGpu.StagedCopy
open Machine Staging
open SlotLog (Covers Retired)
open Relay (Place)

variable {n : ℕ} {cfg : Config}

/-! ### The pool -/

structure PoolInv (cfg : Config) (s : Staging.State n) : Prop where
  slotFence : ∀ i, (s.slot i).fence.value ≤ s.published (s.slot i).fence.chan
  ok : ∀ t c, s.copies t = some c → c.Ok cfg s.published
  busy : ∀ t c, s.copies t = some c → ∀ i ∈ c.held, (s.slot i).busy = true
  nodup : ∀ t c, s.copies t = some c → c.held.Nodup
  apart : ∀ t u c c', t ≠ u → s.copies t = some c → s.copies u = some c' → ∀ i ∈ c.held, i ∉ c'.held

section Pool
variable {s s' : Staging.State n} {t : Fin n} {c : Copy} {o : Option Copy}

theorem poolInv_init (cfg : Config) : PoolInv cfg (Staging.init n) := by
  constructor <;> simp [Staging.init]

theorem PoolInv.become (h : PoolInv cfg s) (hcopies : s'.copies = Function.update s.copies t o)
    (hpub : ∀ ch, s.published ch ≤ s'.published ch)
    (hslot : ∀ u c', u ≠ t → s.copies u = some c' → ∀ i ∈ c'.held, s'.slot i = s.slot i)
    (hfence : ∀ i, (s'.slot i).fence.value ≤ s'.published (s'.slot i).fence.chan)
    (hok : ∀ c' ∈ o, c'.Ok cfg s'.published) (hbusy : ∀ c' ∈ o, ∀ i ∈ c'.held,
    (s'.slot i).busy = true)
    (hnodup : ∀ c' ∈ o, c'.held.Nodup)
    (hnew : ∀ c' ∈ o, ∀ i ∈ c'.held, ∀ u c'', u ≠ t → s.copies u = some c'' → i ∉ c''.held) :
    PoolInv cfg s' := by
  have hself : s'.copies t = o := by rw [hcopies, Function.update_self]
  have hother : ∀ u, u ≠ t → s'.copies u = s.copies u := fun u hu => by
    rw [hcopies, Function.update_of_ne hu]
  refine ⟨hfence, ?_, ?_, ?_, ?_⟩
  · intro u c' hu
    by_cases hut : u = t
    · subst hut
      exact hok c' (hself.symm.trans hu)
    · exact (h.ok u c' ((hother u hut).symm.trans hu)).mono hpub
  · intro u c' hu i hi
    by_cases hut : u = t
    · subst hut
      exact hbusy c' (hself.symm.trans hu) i hi
    · have hu := (hother u hut).symm.trans hu
      rw [hslot u c' hut hu i hi]
      exact h.busy u c' hu i hi
  · intro u c' hu
    by_cases hut : u = t
    · subst hut
      exact hnodup c' (hself.symm.trans hu)
    · exact h.nodup u c' ((hother u hut).symm.trans hu)
  · intro u v c' c'' huv hu hv i hi hi'
    by_cases hut : u = t
    · subst hut
      exact hnew c' (hself.symm.trans hu) i hi v c'' huv.symm
        ((hother v huv.symm).symm.trans hv) hi'
    · have hu := (hother u hut).symm.trans hu
      by_cases hvt : v = t
      · subst hvt
        exact hnew c'' (hself.symm.trans hv) i hi' u c' hut hu hi
      · exact h.apart u v c' c'' huv hu ((hother v hvt).symm.trans hv) i hi hi'

theorem PoolInv.onward (h : PoolInv cfg s) (hc : s.copies t = some c) {p : Chan → ℕ}
    (hpub : ∀ ch, s.published ch ≤ p ch) (hok : ∀ c' ∈ o, c'.Ok cfg p)
    (hheld : ∀ c' ∈ o, c'.held.Perm c.held) :
    PoolInv cfg (State.setCopy { s with published := p } t o) := by
  refine h.become rfl hpub (fun _ _ _ _ _ _ => rfl)
    (fun i => (h.slotFence i).trans (hpub _)) hok ?_ ?_ ?_
  · exact fun c' hc' i hi => h.busy t c hc i ((hheld c' hc').mem_iff.mp hi)
  · exact fun c' hc' => (hheld c' hc').nodup_iff.mpr (h.nodup t c hc)
  · exact fun c' hc' i hi u c'' hut hu => h.apart t u c c'' (Ne.symm hut) hc hu i
      ((hheld c' hc').mem_iff.mp hi)

theorem PoolInv.giveBack (h : PoolInv cfg s) (hc : s.copies t = some c) {k : ℕ} {f : Fence}
    (hheld : c.held = c.window.map Issued.slot ++ [k]) (hf : f.value ≤ s.published f.chan)
    (hok : ∀ c' ∈ o, c'.Ok cfg s.published)
    (hnew : ∀ c' ∈ o, c'.held.Perm (c.window.map Issued.slot)) :
    PoolInv cfg ((s.releaseSlot k f).setCopy t o) := by
  have hnd := h.nodup t c hc
  rw [hheld, List.nodup_append] at hnd
  have hk : k ∈ c.held := by simp [hheld]
  have hslot : ∀ i, i ≠ k → (s.releaseSlot k f).slot i = s.slot i :=
    fun i hi => Function.update_of_ne hi ..
  have hmem : ∀ c' ∈ o, ∀ i ∈ c'.held, i ∈ c.held ∧ i ≠ k := by
    intro c' hc' i hi
    have hw := (hnew c' hc').mem_iff.mp hi
    exact ⟨hheld ▸ List.mem_append_left _ hw, hnd.2.2 i hw k (List.mem_singleton_self k)⟩
  refine h.become rfl (fun _ => le_rfl) ?_ ?_ hok ?_ ?_ ?_
  · intro u c' hut hu i hi
    apply hslot
    rintro rfl
    exact h.apart t u c c' (Ne.symm hut) hc hu i hk hi
  · intro i
    rw [State.setCopy_slot]
    by_cases hik : i = k
    · subst hik
      have hself : (s.releaseSlot i f).slot i = ⟨f, false⟩ := Function.update_self ..
      rw [hself]
      exact hf
    · rw [hslot i hik]
      exact h.slotFence i
  · intro c' hc' i hi
    rw [State.setCopy_slot, hslot i (hmem c' hc' i hi).2]
    exact h.busy t c hc i (hmem c' hc' i hi).1
  · exact fun c' hc' => (hnew c' hc').nodup_iff.mpr hnd.1
  · exact fun c' hc' i hi u c'' hut hu =>
      h.apart t u c c'' (Ne.symm hut) hc hu i (hmem c' hc' i hi).1

theorem PoolInv.move (h : PoolInv cfg s) (hc : s.copies t = some c) (hs : Move cfg s t c s') :
    PoolInv cfg s' := by
  have hok : ∀ c', s'.copies t = some c' → c'.Ok cfg s'.published := fun c' hc' =>
    hs.ok (h.ok t c hc) h.slotFence hc'
  have hcounts := (h.ok t c hc).counts
  have hpub := hs.published_le
  cases hs with
  | start hp =>
    refine h.onward hc (fun _ => le_rfl)
      (fun c' hc' => hok c' ((State.setCopy_self ..).trans hc')) ?_
    intro c' hc'
    rw [show c.held = c.window.map Issued.slot by simp [Copy.held, hp]]
    exact (SlotLog.loops_start hcounts hp).held c' hc'
  | acquire k j hp hk hfree =>
    have hnone : ∀ u c', s.copies u = some c' → k ∉ c'.held := by
      intro u c' hu hi
      have hbusy := h.busy u c' hu k hi
      rw [hfree] at hbusy
      cases hbusy
    have hheld : (c.goto (.waitPrev k (s.slot k).fence)).held = c.held ++ [k] := by
      simp [Copy.held, Copy.goto, hp]
    refine h.become rfl (fun _ => le_rfl) ?_ ?_ ?_ ?_ ?_ ?_
    · intro u c' _ hu i hi
      have hik : i ≠ k := by
        rintro rfl
        exact hnone u c' hu hi
      simp [hik]
    · intro i
      have hfence := SlotLog.acquired_fence s t c k j i
      rw [SlotLog.acquired] at hfence
      rw [hfence]
      exact h.slotFence i
    · exact fun c' hc' => hok c' ((State.setCopy_self ..).trans hc')
    · rintro c' ⟨⟩ i hi
      rw [hheld, List.mem_append, List.mem_singleton] at hi
      by_cases hik : i = k
      · simp [hik]
      · simpa [hik] using h.busy t c hc i (hi.resolve_right hik)
    · rintro c' ⟨⟩
      rw [hheld, List.nodup_append]
      refine ⟨h.nodup t c hc, List.nodup_singleton k, fun i hi i' hi' heq => ?_⟩
      rw [List.mem_singleton] at hi'
      exact hnone t c hc (hi' ▸ heq ▸ hi)
    · rintro c' ⟨⟩ i hi u c'' hut hu
      rw [hheld, List.mem_append, List.mem_singleton] at hi
      obtain hi | rfl := hi
      · exact h.apart t u c c'' (Ne.symm hut) hc hu i hi
      · exact hnone u c'' hu
  | waited k prev hp hst | waitFailed k prev hp hst | drained k hp hst | drainFailed k hp hst =>
    refine h.onward hc (fun _ => le_rfl)
      (fun c' hc' => hok c' ((State.setCopy_self ..).trans hc')) ?_
    rintro c' ⟨⟩
    simp [Copy.held, Copy.goto, hp]
  | enqueued k hp =>
    refine h.onward hc hpub (fun c' hc' => hok c' ((State.setCopy_self ..).trans hc')) ?_
    have hheld : c.held = c.window.map Issued.slot ++ [k] := by simp [Copy.held, hp]
    simp only [Copy.Counts, hp] at hcounts
    obtain ⟨hkind, -⟩ | ⟨hkind, hcount, -, hissued⟩ := hcounts
    · rw [show c.enqueued cfg k (s.published c.chan + 1) =
        some (c.goto (.release k ⟨c.chan, s.published c.chan + 1⟩)) by
          simp only [Copy.enqueued, hkind]]
      rintro c' ⟨⟩
      simp [Copy.held, Copy.goto, hp]
    · rw [Copy.enqueued_d2h hkind, hheld]
      intro c' hc'
      have hloop : SlotLog.Loops { c with
          window := c.window ++ [⟨k, s.published c.chan + 1⟩], issued := c.issued + 1 }
          (Copy.d2hLoop cfg { c with
            window := c.window ++ [⟨k, s.published c.chan + 1⟩], issued := c.issued + 1 }) := by
        apply SlotLog.loops_d2hLoop
        · simp only [List.length_append, List.length_singleton]
          omega
        · exact hissued
      simpa using hloop.held c' hc'
  | released k f hp =>
    refine h.giveBack hc (by simp [Copy.held, hp])
      ((h.ok t c hc).fences f (by simp [hp, Point.fences]))
      (fun c' hc' => hok c' ((State.setCopy_self ..).trans hc')) ?_
    exact fun c' hc' => (SlotLog.loops_released hcounts hp).held c' hc'
  | failed k f hp =>
    exact h.giveBack hc (by simp [Copy.held, hp])
      ((h.ok t c hc).fences f (by simp [hp, Point.fences]))
      (by simp) (by simp)

theorem PoolInv.submit (h : PoolInv cfg s) (kind : Kind) (chan : Chan)
    (total : ℕ) : PoolInv cfg (s.setCopy t (some (.submitted kind chan total))) := by
  refine h.become rfl (fun _ => le_rfl) (fun _ _ _ _ _ _ => rfl) h.slotFence ?_ ?_ ?_ ?_
  · rintro c' ⟨⟩
    constructor <;> simp [Copy.submitted, Copy.Counts, Copy.held, Point.fences]
  all_goals
    rintro c' ⟨⟩
    simp [Copy.submitted, Copy.held]

theorem PoolInv.device (h : PoolInv cfg s) {p r : Chan → ℕ} {e : Bool}
    (hp : ∀ ch, s.published ch ≤ p ch) :
    PoolInv cfg { s with published := p, retired := r, sticky := e } where
  slotFence := fun i => (h.slotFence i).trans (hp _)
  ok := fun t c hc => (h.ok t c hc).mono hp
  busy := h.busy
  nodup := h.nodup
  apart := h.apart

end Pool

/-! ### The chunks -/

def State.relay (x : State n) (place : ℕ × ℕ → Place ℕ) : Relay.State (ℕ × ℕ) ℕ UInt8 :=
  ⟨place, x.slots, x.reads, x.writes⟩

def State.len (cfg : Config) (x : State n) (p : ℕ × ℕ) : ℕ := chunkSize cfg (x.job p.1).total p.2

def State.progress (x : State n) (chan : Chan) (f size : ℕ) : ℕ :=
  if f ≤ x.pool.retired chan then size
  else if f = x.pool.retired chan + 1 then x.moved chan else 0

def Live (x : State n) (chan : Chan) (f : ℕ) (d : Dma) : Prop :=
  match d.kind with
  | .h2d => x.pool.retired chan < f
  | .d2h => x.drained chan f = false ∧ x.failed chan f = false

def Only (x : State n) (slot : ℕ) (P : Kind → Chan → ℕ → Prop) : Prop :=
  ∀ chan f d, x.ring chan f = some d → Live x chan f d → d.slot = slot → P d.kind chan f

def Settling (x : State n) (slot : ℕ) (g : Fence) : Prop :=
  Only x slot fun kind chan f => kind = .h2d ∧ Covers g ⟨chan, f⟩

structure EntryOk (cfg : Config) (x : State n) (place : ℕ × ℕ → Place ℕ)
    (chan : Chan) (f : ℕ) (d : Dma) :
    Prop where
  published : f ≤ x.pool.published chan
  call : d.call < x.calls
  kind : d.kind = (x.job d.call).kind
  size : d.size = x.len cfg (d.call, d.chunk)
  addr : d.addr = (x.job d.call).dev + d.chunk * cfg.chunk
  h2d : d.kind = .h2d → x.pool.retired chan < f →
    place (d.call, d.chunk) = .aboard d.slot d.size (x.progress chan f d.size)
  retired : d.kind = .h2d → f ≤ x.pool.retired chan → x.failed chan f = false →
    place (d.call, d.chunk) = .delivered
  d2h : d.kind = .d2h → Live x chan f d →
    place (d.call, d.chunk) = .aboard d.slot (x.progress chan f d.size) 0

def Flying (x : State n) (k : ℕ) (chan : Chan) (w : Issued) (q : ℕ) : Prop :=
  ∃ d, x.ring chan w.fence = some d ∧ d.call = k ∧ d.chunk = q ∧ d.kind = .d2h ∧ d.slot = w.slot ∧
    x.drained chan w.fence = false

/-- The chunks that have left their source, counted from the first. -/
def next (cfg : Config) (c : Copy) : ℕ :=
  match c.kind, c.point with
  | .h2d, .enqueue _ | .h2d, .release .. => c.off / cfg.chunk + 1
  | .h2d, _ => c.off / cfg.chunk
  | .d2h, _ => c.issued

def sent (cfg : Config) (c : Copy) : ℕ :=
  match c.kind, c.point with
  | .h2d, .release .. => c.off / cfg.chunk + 1
  | .h2d, _ => c.off / cfg.chunk
  | .d2h, _ => c.issued

def first (c : Copy) : ℕ :=
  match c.point with
  | .drain _ | .release .. => c.done + 1
  | _ => c.done

structure CopyOk (cfg : Config) (x : State n) (place : ℕ × ℕ → Place ℕ) (t : Fin n)
    (c : Copy) : Prop where
  kind : (x.job (x.call t)).kind = c.kind
  total : (x.job (x.call t)).total = c.total
  aligned : c.kind = .h2d → c.off = c.off / cfg.chunk * cfg.chunk
  inside : c.kind = .h2d → c.point ≠ .lock → c.off < c.total
  start : c.point = .lock → c.off = 0
  waiting : ∀ q, next cfg c ≤ q → place (x.call t, q) = .waiting
  mine : ∀ chan f d, x.ring chan f = some d → d.call = x.call t → chan = c.chan ∧
    d.chunk < sent cfg c ∧
    (c.kind = .h2d → x.fence (x.call t) = ⟨c.chan, (x.fence (x.call t)).value⟩ ∧
      f ≤ (x.fence (x.call t)).value)
  all : c.kind = .h2d → ∀ q < sent cfg c, ∃ f d, x.ring c.chan f = some d ∧
    d.call = x.call t ∧ d.chunk = q
  filling : ∀ s, c.point = .enqueue s → c.kind = .h2d →
    place (x.call t, c.off / cfg.chunk) = .aboard s (x.copied t) 0
  emptying : ∀ s f, c.point = .release s f → c.kind = .d2h →
    place (x.call t, c.done) = .aboard s (x.len cfg (x.call t, c.done)) (x.copied t)
  window : isFailed c.point = false → ∀ j w, c.window[j]? = some w →
    Flying x (x.call t) c.chan w (first c + j)
  drain : ∀ w, c.point = .drain w → Flying x (x.call t) c.chan w c.done
  done : c.kind = .d2h → ∀ q < c.done, place (x.call t, q) = .delivered

structure Guarded (x : State n) (c : Copy) : Prop where
  waitPrev : ∀ s g, c.point = .waitPrev s g → Settling x s g
  enqueue : ∀ s, c.point = .enqueue s → Only x s fun _ _ _ => False
  window : ∀ w, w ∈ c.window ∨ c.point = .drain w →
    Only x w.slot fun _ chan f => chan = c.chan ∧ f = w.fence
  release : ∀ s g, c.point = .release s g → Settling x s g
  failed : ∀ s g, c.point = .failed s g → Settling x s g

structure Returned (cfg : Config) (x : State n) (place : ℕ × ℕ → Place ℕ) (k : ℕ) : Prop where
  h2d : (x.job k).kind = .h2d → ∀ q < cfg.nchunks (x.job k).total, ∃ f d,
    x.ring (x.fence k).chan f = some d ∧ d.call = k ∧ d.chunk = q ∧ f ≤ (x.fence k).value
  d2h : (x.job k).kind = .d2h → ∀ q < cfg.nchunks (x.job k).total, place (k, q) = .delivered
  rest : ∀ q, cfg.nchunks (x.job k).total ≤ q → place (k, q) = .waiting

def InHand (cfg : Config) (x : State n) (p : ℕ × ℕ) (slot : ℕ) (t : Fin n) (c : Copy) : Prop :=
  c.kind = .h2d ∧ c.point = .enqueue slot ∧ p = (x.call t, c.off / cfg.chunk) ∨
    c.kind = .d2h ∧ (∃ f, c.point = .release slot f) ∧ p = (x.call t, c.done)

structure ChunkInv (cfg : Config) (x : State n) (place : ℕ × ℕ → Place ℕ) : Prop where
  pool : PoolInv cfg x.pool
  order : ∀ chan, x.pool.retired chan ≤ x.pool.published chan
  relay : Relay.Ok (x.len cfg) (x.relay place)
  numbered : ∀ t, x.pool.copies t ≠ none → x.call t < x.calls ∧ x.result (x.call t) = none
  distinct : ∀ t u, x.pool.copies t ≠ none → x.pool.copies u ≠ none → x.call t = x.call u → t = u
  fresh : ∀ k, x.calls ≤ k → x.result k = none ∧ ∀ q, place (k, q) = .waiting
  entry : ∀ chan f d, x.ring chan f = some d → EntryOk cfg x place chan f d
  unique : ∀ chan f d chan' f' d', x.ring chan f = some d → x.ring chan' f' = some d' →
    d.call = d'.call → d.chunk = d'.chunk → chan = chan' ∧ f = f'
  failed : ∀ chan f, x.failed chan f = true → x.pool.sticky = true ∧ f ≤ x.pool.retired chan
  drained : ∀ chan f, x.drained chan f = true → f ≤ x.pool.retired chan
  idle : ∀ chan, x.ring chan (x.pool.retired chan + 1) = none → x.moved chan = 0
  located : ∀ p s a b, place p = .aboard s a b →
    (∃ chan f d, x.ring chan f = some d ∧ Live x chan f d ∧ (d.call, d.chunk) = p ∧ d.slot = s) ∨
      ∃ t c, x.pool.copies t = some c ∧ InHand cfg x p s t c
  copies : ∀ t c, x.pool.copies t = some c → CopyOk cfg x place t c ∧ Guarded x c
  free : ∀ s, (x.pool.slot s).busy = false → Settling x s (x.pool.slot s).fence
  returned : ∀ k, x.result k = some true → Returned cfg x place k

theorem chunkInv_init (cfg : Config) (mem : Side → ℕ → UInt8) :
    ChunkInv cfg (init n mem) fun _ => .waiting := by
  refine ⟨poolInv_init cfg, fun _ => le_rfl, ⟨?_, ?_⟩, ?_, ?_, ?_, ?_, ?_, ?_, ?_,
    ?_, ?_, ?_, ?_, ?_⟩ <;>
    simp [init, Staging.init, State.relay, Relay.State.At, Relay.State.Untouched, Settling, Only]

/-! ### Bytes that move -/

structure Same (x x' : State n) : Prop where
  pool : x'.pool = x.pool
  ring : x'.ring = x.ring
  calls : x'.calls = x.calls
  call : x'.call = x.call
  job : x'.job = x.job
  fence : x'.fence = x.fence
  result : x'.result = x.result
  failed : x'.failed = x.failed
  drained : x'.drained = x.drained

section Bytes
variable {x x' : State n} {place place' : ℕ × ℕ → Place ℕ} {t : Fin n} {c : Copy} {p : ℕ × ℕ}
  {chan : Chan} {f slot : ℕ} {d : Dma}

theorem Same.live (h : Same x x') : Live x' chan f d ↔ Live x chan f d := by
  rw [Live, Live, h.pool, h.drained, h.failed]

theorem Same.only (h : Same x x') {P : Kind → Chan → ℕ → Prop} (ho : Only x slot P) :
    Only x' slot P := by
  intro chan f d hd hl
  exact ho chan f d (h.ring ▸ hd) (h.live.mp hl)

theorem Same.guarded (h : Same x x') (hg : Guarded x c) : Guarded x' c where
  waitPrev := fun s g hp => h.only (hg.waitPrev s g hp)
  enqueue := fun s hp => h.only (hg.enqueue s hp)
  window := fun w hw => h.only (hg.window w hw)
  release := fun s g hp => h.only (hg.release s g hp)
  failed := fun s g hp => h.only (hg.failed s g hp)

theorem Same.flying (h : Same x x') {k q : ℕ} {w : Issued} (hf : Flying x k chan w q) :
    Flying x' k chan w q := by
  rw [Flying, h.ring, h.drained]
  exact hf

theorem Same.len (h : Same x x') : x'.len cfg = x.len cfg := by
  funext q
  rw [State.len, State.len, h.job]

theorem ChunkInv.live_place (h : ChunkInv cfg x place) (hd : x.ring chan f = some d)
    (hl : Live x chan f d) : ∃ a b, place (d.call, d.chunk) = .aboard d.slot a b := by
  have he := h.entry chan f d hd
  cases hk : d.kind with
  | h2d =>
    simp only [Live, hk] at hl
    exact ⟨_, _, he.h2d hk hl⟩
  | d2h => exact ⟨_, _, he.d2h hk hl⟩

theorem ChunkInv.unretired_live (h : ChunkInv cfg x place) (d : Dma)
    (hlt : x.pool.retired chan < f) : Live x chan f d := by
  have hdrained : x.drained chan f = false := by
    rw [← Bool.not_eq_true]
    intro htrue
    have hle := h.drained chan f htrue
    omega
  have hfailed : x.failed chan f = false := by
    rw [← Bool.not_eq_true]
    intro htrue
    have hle := (h.failed chan f htrue).2
    omega
  rw [Live]
  cases d.kind with
  | h2d => exact hlt
  | d2h => exact ⟨hdrained, hfailed⟩

theorem ChunkInv.hand_place (h : ChunkInv cfg x place) (hc : x.pool.copies t = some c)
    (hh : InHand cfg x p slot t c) : ∃ a b, place p = .aboard slot a b := by
  have hok := (h.copies t c hc).1
  obtain ⟨hk, hp, rfl⟩ | ⟨hk, ⟨f, hp⟩, rfl⟩ := hh
  · exact ⟨_, _, hok.filling slot hp hk⟩
  · exact ⟨_, _, hok.emptying slot f hp hk⟩

theorem ChunkInv.hand_not_live (h : ChunkInv cfg x place) (hc : x.pool.copies t = some c)
    (hh : InHand cfg x p slot t c) (hd : x.ring chan f = some d) (hl : Live x chan f d) :
    (d.call, d.chunk) ≠ p := by
  obtain ⟨hok, hguard⟩ := h.copies t c hc
  rintro rfl
  obtain ⟨hk, hp, heq⟩ | ⟨hk, ⟨g, hp⟩, heq⟩ := hh
  · rw [Prod.mk.injEq] at heq
    have hlt := (hok.mine chan f d hd heq.1).2.1
    simp only [sent, hk, hp] at hlt
    omega
  · obtain ⟨a, b, hplace⟩ := h.live_place hd hl
    rw [heq, hok.emptying slot g hp hk, Place.aboard.injEq] at hplace
    have hkind := (hguard.release slot g hp chan f d hd hl hplace.1.symm).1
    rw [Prod.mk.injEq] at heq
    have hkind' := (h.entry chan f d hd).kind
    rw [heq.1, hok.kind, hk, hkind] at hkind'
    cases hkind'

theorem ChunkInv.hands_apart (h : ChunkInv cfg x place) (hc : x.pool.copies t = some c)
    (hh : InHand cfg x p slot t c) {u : Fin n} {c' : Copy} {p' : ℕ × ℕ} {slot' : ℕ} (hut : u ≠ t)
    (hu : x.pool.copies u = some c') (hh' : InHand cfg x p' slot' u c') : p' ≠ p := by
  have hfst : ∀ {v : Fin n} {e : Copy} {r : ℕ × ℕ} {i : ℕ}, InHand cfg x r i v e →
    r.1 = x.call v := by
    rintro v e r i (⟨-, -, rfl⟩ | ⟨-, -, rfl⟩) <;> rfl
  rintro rfl
  exact hut (h.distinct u t (by simp [hu]) (by simp [hc]) ((hfst hh').symm.trans (hfst hh)))

theorem ChunkInv.shift (h : ChunkInv cfg x place) (hs : Same x x')
    (hrelay : Relay.Ok (x'.len cfg) (x'.relay place'))
    (hstay : ∀ q, (∀ s a b, place q ≠ .aboard s a b) → place' q = place q)
    (haboard : ∀ q s a b, place q = .aboard s a b → ∃ a' b', place' q = .aboard s a' b')
    (hidle : ∀ chan, x.ring chan (x.pool.retired chan + 1) = none → x'.moved chan = 0)
    (hh2d : ∀ chan f d, x.ring chan f = some d → d.kind = .h2d → x.pool.retired chan < f →
      place' (d.call, d.chunk) = .aboard d.slot d.size (x'.progress chan f d.size))
    (hd2h : ∀ chan f d, x.ring chan f = some d → d.kind = .d2h → Live x chan f d →
      place' (d.call, d.chunk) = .aboard d.slot (x'.progress chan f d.size) 0)
    (hfill : ∀ t c s, x.pool.copies t = some c → c.point = .enqueue s → c.kind = .h2d →
      place' (x.call t, c.off / cfg.chunk) = .aboard s (x'.copied t) 0)
    (hempty : ∀ t c s f, x.pool.copies t = some c → c.point = .release s f → c.kind = .d2h →
      place' (x.call t, c.done) = .aboard s (x.len cfg (x.call t, c.done)) (x'.copied t)) :
    ChunkInv cfg x' place' := by
  have hwait : ∀ q, place q = .waiting → place' q = .waiting := fun q hq => by
    rw [hstay q (by simp [hq]), hq]
  have hdone : ∀ q, place q = .delivered → place' q = .delivered := fun q hq => by
    rw [hstay q (by simp [hq]), hq]
  refine ⟨hs.pool ▸ h.pool, hs.pool ▸ h.order, hrelay, ?_, ?_, ?_, ?_, ?_, ?_,
    ?_, ?_, ?_, ?_, ?_, ?_⟩
  · rw [hs.pool, hs.call, hs.calls, hs.result]
    exact h.numbered
  · rw [hs.pool, hs.call]
    exact h.distinct
  · rw [hs.calls, hs.result]
    exact fun k hk => ⟨(h.fresh k hk).1, fun q => hwait _ ((h.fresh k hk).2 q)⟩
  · intro chan f d hd
    rw [hs.ring] at hd
    have he := h.entry chan f d hd
    refine ⟨?_, ?_, ?_, ?_, ?_, ?_, ?_, ?_⟩
    · rw [hs.pool]
      exact he.published
    · rw [hs.calls]
      exact he.call
    · rw [hs.job]
      exact he.kind
    · rw [hs.len]
      exact he.size
    · rw [hs.job]
      exact he.addr
    · rw [hs.pool]
      exact hh2d chan f d hd
    · rw [hs.pool, hs.failed]
      exact fun hk hle hf => hdone _ (he.retired hk hle hf)
    · rw [hs.live]
      exact hd2h chan f d hd
  · rw [hs.ring]
    exact h.unique
  · rw [hs.failed, hs.pool]
    exact h.failed
  · rw [hs.drained, hs.pool]
    exact h.drained
  · rw [hs.ring, hs.pool]
    exact hidle
  · intro q s a b hq
    have hold : ∃ a' b', place q = .aboard s a' b' := by
      cases hl : place q with
      | aboard s' a' b' =>
        obtain ⟨a'', b'', hq'⟩ := haboard q s' a' b' hl
        rw [hq, Place.aboard.injEq] at hq'
        exact ⟨a', b', by rw [hq'.1]⟩
      | _ =>
        rw [hstay q (by simp [hl]), hl] at hq
        cases hq
    obtain ⟨a', b', hold⟩ := hold
    obtain ⟨chan, f, d, hd, hl, hd'⟩ | ⟨t, c, hc, hh⟩ := h.located q s a' b' hold
    · exact .inl ⟨chan, f, d, hs.ring ▸ hd, hs.live.mpr hl, hd'⟩
    · refine .inr ⟨t, c, hs.pool ▸ hc, ?_⟩
      rw [InHand, hs.call]
      exact hh
  · intro t c hc
    rw [hs.pool] at hc
    obtain ⟨hok, hguard⟩ := h.copies t c hc
    refine ⟨⟨?_, ?_, hok.aligned, hok.inside, hok.start, ?_, ?_, ?_, ?_, ?_, ?_, ?_, ?_⟩,
      hs.guarded hguard⟩
    · rw [hs.job, hs.call]
      exact hok.kind
    · rw [hs.job, hs.call]
      exact hok.total
    · rw [hs.call]
      exact fun q hq => hwait _ (hok.waiting q hq)
    · rw [hs.ring, hs.call, hs.fence]
      exact hok.mine
    · rw [hs.ring, hs.call]
      exact hok.all
    · rw [hs.call]
      exact fun s hp hk => hfill t c s hc hp hk
    · rw [hs.call, hs.len]
      exact fun s f hp hk => hempty t c s f hc hp hk
    · rw [hs.call]
      exact fun hf j w hw => hs.flying (hok.window hf j w hw)
    · rw [hs.call]
      exact fun w hw => hs.flying (hok.drain w hw)
    · rw [hs.call]
      exact fun hk q hq => hdone _ (hok.done hk q hq)
  · rw [hs.pool]
    exact fun s hfree => hs.only (h.free s hfree)
  · intro k hk
    rw [hs.result] at hk
    have hret := h.returned k hk
    refine ⟨?_, ?_, ?_⟩
    · rw [hs.job, hs.ring, hs.fence]
      exact hret.h2d
    · rw [hs.job]
      exact fun hkind q hq => hdone _ (hret.d2h hkind q hq)
    · rw [hs.job]
      exact fun q hq => hwait _ (hret.rest q hq)

theorem ChunkInv.store (h : ChunkInv cfg x place) (side : Side) (a : ℕ) (v : UInt8) :
    ChunkInv cfg (x.store side a v none) place := by
  have hs : Same x (x.store side a v none) := ⟨rfl, rfl, rfl, rfl, rfl, rfl, rfl, rfl, rfl⟩
  apply h.shift hs h.relay
  · exact fun _ _ => rfl
  · exact fun _ _ _ _ hq => ⟨_, _, hq⟩
  · exact h.idle
  · exact fun chan f d hd hk hlt => (h.entry chan f d hd).h2d hk hlt
  · exact fun chan f d hd hk hl => (h.entry chan f d hd).d2h hk hl
  · exact fun t c s hc hp hk => (h.copies t c hc).1.filling s hp hk
  · exact fun t c s f hc hp hk => (h.copies t c hc).1.emptying s f hp hk

theorem ChunkInv.shift_one (h : ChunkInv cfg x place) (hs : Same x x') {a b a' b' : ℕ}
    (hp : place p = .aboard slot a b)
    (hrelay : Relay.Ok (x'.len cfg) (x'.relay (Function.update place p (.aboard slot a' b'))))
    (hidle : ∀ chan, x.ring chan (x.pool.retired chan + 1) = none → x'.moved chan = 0)
    (hentry : ∀ chan f d, x.ring chan f = some d → Live x chan f d →
      (d.call, d.chunk) = p ∧ (d.kind = .h2d ∧ a' = d.size ∧ b' = x'.progress chan f d.size ∨
        d.kind = .d2h ∧ a' = x'.progress chan f d.size ∧ b' = 0) ∨
      (d.call, d.chunk) ≠ p ∧ x'.progress chan f d.size = x.progress chan f d.size)
    (hhand : ∀ t c q s, x.pool.copies t = some c → InHand cfg x q s t c →
      q = p ∧ (c.kind = .h2d ∧ a' = x'.copied t ∧ b' = 0 ∨
        c.kind = .d2h ∧ a' = x.len cfg q ∧ b' = x'.copied t) ∨ q ≠ p ∧ x'.copied t = x.copied t) :
    ChunkInv cfg x' (Function.update place p (.aboard slot a' b')) := by
  have hslot : ∀ chan f d, x.ring chan f = some d → Live x chan f d →
    (d.call, d.chunk) = p → d.slot = slot := by
    intro chan f d hd hl heq
    obtain ⟨e, g, hplace⟩ := h.live_place hd hl
    rw [heq, hp, Place.aboard.injEq] at hplace
    exact hplace.1.symm
  have hslot' : ∀ t c q s, x.pool.copies t = some c → InHand cfg x q s t c → q = p → s = slot := by
    intro t c q s hc hh heq
    obtain ⟨e, g, hplace⟩ := h.hand_place hc hh
    rw [heq, hp, Place.aboard.injEq] at hplace
    exact hplace.1.symm
  apply h.shift hs hrelay
  · intro q hq
    have hqp : q ≠ p := by
      rintro rfl
      exact hq _ _ _ hp
    rw [Function.update_of_ne hqp]
  · intro q s e g hq
    by_cases hqp : q = p
    · subst hqp
      rw [hp, Place.aboard.injEq] at hq
      exact ⟨a', b', by rw [Function.update_self, hq.1]⟩
    · exact ⟨e, g, by rw [Function.update_of_ne hqp, hq]⟩
  · exact hidle
  · intro chan f d hd hk hlt
    have hl := h.unretired_live d hlt
    obtain ⟨heq, ⟨-, ha, hb⟩ | ⟨hk', -⟩⟩ | ⟨hne, hsame⟩ := hentry chan f d hd hl
    · rw [heq, Function.update_self, ← hb, ← ha, hslot chan f d hd hl heq]
    · rw [hk] at hk'
      cases hk'
    · rw [Function.update_of_ne hne, hsame]
      exact (h.entry chan f d hd).h2d hk hlt
  · intro chan f d hd hk hl
    obtain ⟨heq, ⟨hk', -⟩ | ⟨-, ha, hb⟩⟩ | ⟨hne, hsame⟩ := hentry chan f d hd hl
    · rw [hk] at hk'
      cases hk'
    · rw [heq, Function.update_self, ← ha, hb, hslot chan f d hd hl heq]
    · rw [Function.update_of_ne hne, hsame]
      exact (h.entry chan f d hd).d2h hk hl
  · intro t c s hc hpoint hk
    have hh : InHand cfg x (x.call t, c.off / cfg.chunk) s t c := .inl ⟨hk, hpoint, rfl⟩
    obtain ⟨heq, ⟨-, ha, hb⟩ | ⟨hk', -⟩⟩ | ⟨hne, hsame⟩ := hhand t c _ s hc hh
    · rw [heq, Function.update_self, ← ha, hb, hslot' t c _ s hc hh heq]
    · rw [hk] at hk'
      cases hk'
    · rw [Function.update_of_ne hne, hsame]
      exact (h.copies t c hc).1.filling s hpoint hk
  · intro t c s f hc hpoint hk
    have hh : InHand cfg x (x.call t, c.done) s t c := .inr ⟨hk, ⟨f, hpoint⟩, rfl⟩
    obtain ⟨heq, ⟨hk', -⟩ | ⟨-, ha, hb⟩⟩ | ⟨hne, hsame⟩ := hhand t c _ s hc hh
    · rw [hk] at hk'
      cases hk'
    · rw [heq, Function.update_self, ← heq, ← ha, ← hb, hslot' t c _ s hc hh heq]
    · rw [Function.update_of_ne hne, hsame]
      exact (h.copies t c hc).1.emptying s f hpoint hk

theorem progress_head {m size : ℕ} (hpool : x'.pool = x.pool)
    (hmoved : x'.moved = Function.update x.moved chan m) :
    x'.progress chan (x.pool.retired chan + 1) size = m := by
  simp [State.progress, hpool, hmoved]

theorem progress_other {m size : ℕ} {chan' : Chan} {f' : ℕ} (hpool : x'.pool = x.pool)
    (hmoved : x'.moved = Function.update x.moved chan m)
    (hne : (chan', f') ≠ (chan, x.pool.retired chan + 1)) :
    x'.progress chan' f' size = x.progress chan' f' size := by
  simp only [State.progress, hpool, hmoved]
  by_cases hch : chan' = chan
  · subst hch
    have hf : f' ≠ x.pool.retired chan' + 1 := fun heq => hne (by rw [heq])
    simp [hf]
  · simp [hch]

theorem ChunkInv.dma (h : ChunkInv cfg x place) (hs : x.dma chan = some x') :
    ∃ place', ChunkInv cfg x' place' := by
  simp only [State.dma] at hs
  cases hd : x.ring chan (x.pool.retired chan + 1) with
  | none => simp [hd] at hs
  | some d =>
    simp only [hd, Option.ite_none_right_eq_some, Option.some.injEq] at hs
    obtain ⟨hj, rfl⟩ := hs
    have he := h.entry chan _ d hd
    have hl := h.unretired_live d (Nat.lt_succ_self (x.pool.retired chan))
    have hnow : x.progress chan (x.pool.retired chan + 1) d.size = x.moved chan := by
      simp [State.progress]
    -- Every other live command has another chunk.
    have hother : ∀ chan' f' d', x.ring chan' f' = some d' →
        d' = d ∧ chan' = chan ∧ f' = x.pool.retired chan + 1 ∨
          (d'.call, d'.chunk) ≠ (d.call, d.chunk) ∧
            (chan', f') ≠ (chan, x.pool.retired chan + 1) := by
      intro chan' f' d' hd'
      by_cases heq : (chan', f') = (chan, x.pool.retired chan + 1)
      · rw [Prod.mk.injEq] at heq
        obtain ⟨rfl, rfl⟩ := heq
        rw [hd, Option.some.injEq] at hd'
        exact .inl ⟨hd'.symm, rfl, rfl⟩
      · refine .inr ⟨fun hsame => heq ?_, heq⟩
        rw [Prod.mk.injEq] at hsame
        obtain ⟨rfl, rfl⟩ := h.unique chan' f' d' chan _ d hd' hd hsame.1 hsame.2
        rfl
    have hidle : ∀ chan', x.ring chan' (x.pool.retired chan' + 1) = none →
        Function.update x.moved chan (x.moved chan + 1) chan' = 0 := by
      intro chan' hnone
      have hne : chan' ≠ chan := by
        rintro rfl
        rw [hd] at hnone
        cases hnone
      rw [Function.update_of_ne hne]
      exact h.idle chan' hnone
    cases hk : d.kind with
    | h2d =>
      have hplace := he.h2d hk (Nat.lt_succ_self _)
      rw [hnow] at hplace
      refine ⟨Function.update place (d.call, d.chunk)
        (.aboard d.slot d.size (x.moved chan + 1)), ?_⟩
      refine h.shift_one ?_ hplace ?_ hidle ?_ ?_
      · exact ⟨rfl, rfl, rfl, rfl, rfl, rfl, rfl, rfl, rfl⟩
      · exact h.relay.unload hplace hj
      · intro chan' f' d' hd' hl'
        obtain ⟨rfl, rfl, rfl⟩ | ⟨hne, hother⟩ := hother chan' f' d' hd'
        · exact .inl ⟨rfl, .inl ⟨hk, rfl, Eq.symm (progress_head rfl rfl)⟩⟩
        · exact .inr ⟨hne, progress_other rfl rfl hother⟩
      · exact fun t c q s hc hh => .inr ⟨(h.hand_not_live hc hh hd hl).symm, rfl⟩
    | d2h =>
      have hplace := he.d2h hk hl
      rw [hnow] at hplace
      have hlen : x.moved chan < x.len cfg (d.call, d.chunk) := he.size ▸ hj
      refine ⟨Function.update place (d.call, d.chunk) (.aboard d.slot (x.moved chan + 1) 0), ?_⟩
      refine h.shift_one ?_ hplace ?_ hidle ?_ ?_
      · exact ⟨rfl, rfl, rfl, rfl, rfl, rfl, rfl, rfl, rfl⟩
      · exact h.relay.load hplace hlen (x.mem .dev (d.addr + x.moved chan))
      · intro chan' f' d' hd' hl'
        obtain ⟨rfl, rfl, rfl⟩ | ⟨hne, hother⟩ := hother chan' f' d' hd'
        · exact .inl ⟨rfl, .inr ⟨hk, Eq.symm (progress_head rfl rfl), rfl⟩⟩
        · exact .inr ⟨hne, progress_other rfl rfl hother⟩
      · exact fun t c q s hc hh => .inr ⟨(h.hand_not_live hc hh hd hl).symm, rfl⟩

theorem piece_aligned (total : ℕ) {off : ℕ} (ho : off = off / cfg.chunk * cfg.chunk) :
    piece cfg total off = chunkSize cfg total (off / cfg.chunk) := by
  rw [chunkSize, ← ho]

theorem ChunkInv.memcpy (h : ChunkInv cfg x place) (hc : x.pool.copies t = some c)
    (hs : x.memcpy cfg t c = some x') : ∃ place', ChunkInv cfg x' place' := by
  have hok := (h.copies t c hc).1
  -- The chunk in this hand is in no other and in no live command.
  have hentry : ∀ {y : State n} {q : ℕ × ℕ} {s : ℕ}, y.pool = x.pool → y.moved = x.moved →
      InHand cfg x q s t c → ∀ chan f d, x.ring chan f = some d → Live x chan f d →
      (d.call, d.chunk) ≠ q ∧ y.progress chan f d.size = x.progress chan f d.size := by
    intro y q s hpool hmoved hh chan f d hd hl
    refine ⟨h.hand_not_live hc hh hd hl, ?_⟩
    rw [State.progress, State.progress, hpool, hmoved]
  have hhand : ∀ {q : ℕ × ℕ} {s : ℕ}, InHand cfg x q s t c → ∀ u c' q' s',
    x.pool.copies u = some c' →
      InHand cfg x q' s' u c' → u ≠ t →
      q' ≠ q ∧ Function.update x.copied t (x.copied t + 1) u = x.copied u := by
    intro q s hh u c' q' s' hu hh' hut
    exact ⟨h.hands_apart hc hh hut hu hh', Function.update_of_ne hut ..⟩
  simp only [State.memcpy] at hs
  split at hs
  · rename_i slot hk hp
    simp only [Option.ite_none_right_eq_some, Option.some.injEq] at hs
    obtain ⟨hj, rfl⟩ := hs
    have hh : InHand cfg x (x.call t, c.off / cfg.chunk) slot t c := .inl ⟨hk, hp, rfl⟩
    have hplace := hok.filling slot hp hk
    have hlen : x.copied t < x.len cfg (x.call t, c.off / cfg.chunk) := by
      rw [State.len, hok.total, ← piece_aligned c.total (hok.aligned hk)]
      exact hj
    refine ⟨Function.update place (x.call t, c.off / cfg.chunk)
      (.aboard slot (x.copied t + 1) 0), ?_⟩
    refine h.shift_one ?_ hplace ?_ h.idle ?_ ?_
    · exact ⟨rfl, rfl, rfl, rfl, rfl, rfl, rfl, rfl, rfl⟩
    · exact h.relay.load hplace hlen (x.mem .host ((x.job (x.call t)).host + c.off + x.copied t))
    · exact fun chan f d hd hl => .inr (hentry rfl rfl hh chan f d hd hl)
    · intro u c' q' s' hu hh'
      by_cases hut : u = t
      · subst hut
        obtain rfl := Option.some.inj (hc.symm.trans hu)
        obtain ⟨-, -, rfl⟩ | ⟨hk', -⟩ := hh'
        · exact .inl ⟨rfl, .inl ⟨hk, by simp, rfl⟩⟩
        · rw [hk] at hk'
          cases hk'
      · exact .inr (hhand hh u c' q' s' hu hh' hut)
  · rename_i slot g hk hp
    simp only [Option.ite_none_right_eq_some, Option.some.injEq] at hs
    obtain ⟨hj, rfl⟩ := hs
    have hh : InHand cfg x (x.call t, c.done) slot t c := .inr ⟨hk, ⟨g, hp⟩, rfl⟩
    have hplace := hok.emptying slot g hp hk
    have hlen : x.copied t < x.len cfg (x.call t, c.done) := by
      rw [State.len, hok.total]
      exact hj
    refine ⟨Function.update place (x.call t, c.done)
      (.aboard slot (x.len cfg (x.call t, c.done)) (x.copied t + 1)), ?_⟩
    refine h.shift_one ?_ hplace ?_ h.idle ?_ ?_
    · exact ⟨rfl, rfl, rfl, rfl, rfl, rfl, rfl, rfl, rfl⟩
    · exact h.relay.unload hplace hlen
    · exact fun chan f d hd hl => .inr (hentry rfl rfl hh chan f d hd hl)
    · intro u c' q' s' hu hh'
      by_cases hut : u = t
      · subst hut
        obtain rfl := Option.some.inj (hc.symm.trans hu)
        obtain ⟨hk', -⟩ | ⟨-, -, rfl⟩ := hh'
        · rw [hk] at hk'
          cases hk'
        · exact .inl ⟨rfl, .inr ⟨hk, rfl, by simp⟩⟩
      · exact .inr (hhand hh u c' q' s' hu hh' hut)
  · cases hs

end Bytes

/-! ### What a step leaves alone -/

section Frames
variable {x x' : State n} {place place' : ℕ × ℕ → Place ℕ} {t : Fin n} {c : Copy} {k slot : ℕ}
  {chan : Chan} {f : ℕ} {d : Dma}

theorem Only.frame {P : Kind → Chan → ℕ → Prop} (h : Only x slot P)
    (hlive : ∀ chan f d, x'.ring chan f = some d → Live x' chan f d → d.slot = slot →
      x.ring chan f = some d ∧ Live x chan f d) : Only x' slot P := by
  intro chan f d hd hl hslot
  obtain ⟨hd', hl'⟩ := hlive chan f d hd hl hslot
  exact h chan f d hd' hl' hslot

theorem Guarded.frame (h : Guarded x c)
    (hlive : ∀ chan f d, x'.ring chan f = some d → Live x' chan f d → d.slot ∈ c.held →
      x.ring chan f = some d ∧ Live x chan f d) : Guarded x' c := by
  have hheld : ∀ {s : ℕ} {P : Kind → Chan → ℕ → Prop}, s ∈ c.held → Only x s P → Only x' s P := by
    intro s P hs ho
    exact ho.frame fun chan f d hd hl hslot => hlive chan f d hd hl (hslot ▸ hs)
  refine ⟨fun s g hp => hheld ?_ (h.waitPrev s g hp), fun s hp => hheld ?_ (h.enqueue s hp),
    fun w hw => hheld ?_ (h.window w hw), fun s g hp => hheld ?_ (h.release s g hp),
    fun s g hp => hheld ?_ (h.failed s g hp)⟩
  · simp [Copy.held, hp]
  · simp [Copy.held, hp]
  · obtain hw | hp := hw
    · exact List.mem_append_left _ (List.mem_map_of_mem hw)
    · simp [Copy.held, hp]
  · simp [Copy.held, hp]
  · simp [Copy.held, hp]

theorem CopyOk.frame (h : CopyOk cfg x place t c) (hcall : x'.call t = x.call t)
    (hjob : x'.job (x.call t) = x.job (x.call t))
    (hfence : x'.fence (x.call t) = x.fence (x.call t))
    (hring : ∀ chan f d, d.call = x.call t → (x'.ring chan f = some d ↔ x.ring chan f = some d))
    (hdrained : ∀ chan f d, x.ring chan f = some d → d.call = x.call t → x.drained chan f = false →
      x'.drained chan f = false)
    (hplace : ∀ q, place (x.call t, q) = .waiting ∨ place (x.call t, q) = .delivered →
      place' (x.call t, q) = place (x.call t, q))
    (hhand : ∀ s q, InHand cfg x q s t c → place' q = place q ∧ x'.copied t = x.copied t) :
    CopyOk cfg x' place' t c := by
  have hlen : ∀ q, x'.len cfg (x.call t, q) = x.len cfg (x.call t, q) := fun q => by
    rw [State.len, State.len, hjob]
  have hfly : ∀ {w q}, Flying x (x.call t) c.chan w q → Flying x' (x.call t) c.chan w q := by
    rintro w q ⟨d, hd, hcall', hchunk, hk, hslot, hdr⟩
    exact ⟨d, (hring _ _ _ hcall').mpr hd, hcall', hchunk, hk, hslot, hdrained _ _ _ hd hcall' hdr⟩
  refine ⟨?_, ?_, h.aligned, h.inside, h.start, ?_, ?_, ?_, ?_, ?_, ?_, ?_, ?_⟩
  · rw [hcall, hjob]
    exact h.kind
  · rw [hcall, hjob]
    exact h.total
  · rw [hcall]
    intro q hq
    have hw := h.waiting q hq
    rw [hplace q (.inl hw), hw]
  · rw [hcall, hfence]
    intro chan f d hd hd'
    exact h.mine chan f d ((hring _ _ _ hd').mp hd) hd'
  · rw [hcall]
    intro hk q hq
    obtain ⟨f, d, hd, hd', hchunk⟩ := h.all hk q hq
    exact ⟨f, d, (hring _ _ _ hd').mpr hd, hd', hchunk⟩
  · rw [hcall]
    intro s hp hk
    obtain ⟨hplace, hcopied⟩ := hhand s _ (.inl ⟨hk, hp, rfl⟩)
    rw [hplace, hcopied]
    exact h.filling s hp hk
  · rw [hcall]
    intro s f hp hk
    obtain ⟨hplace, hcopied⟩ := hhand s _ (.inr ⟨hk, ⟨f, hp⟩, rfl⟩)
    rw [hplace, hcopied, hlen]
    exact h.emptying s f hp hk
  · rw [hcall]
    exact fun hf j w hw => hfly (h.window hf j w hw)
  · rw [hcall]
    exact fun w hw => hfly (h.drain w hw)
  · rw [hcall]
    intro hk q hq
    have hd := h.done hk q hq
    rw [hplace q (.inr hd), hd]

theorem Returned.frame (h : Returned cfg x place k) (hjob : x'.job k = x.job k)
    (hfence : x'.fence k = x.fence k)
    (hring : ∀ chan f d, x.ring chan f = some d → x'.ring chan f = some d)
    (hplace : ∀ q, place (k, q) = .waiting ∨ place (k, q) = .delivered →
    place' (k, q) = place (k, q)) :
    Returned cfg x' place' k := by
  refine ⟨?_, ?_, ?_⟩
  · rw [hjob, hfence]
    intro hk q hq
    obtain ⟨f, d, hd, hrest⟩ := h.h2d hk q hq
    exact ⟨f, d, hring _ _ _ hd, hrest⟩
  · rw [hjob]
    intro hk q hq
    have hd := h.d2h hk q hq
    rw [hplace q (.inr hd), hd]
  · rw [hjob]
    intro q hq
    have hw := h.rest q hq
    rw [hplace q (.inl hw), hw]

theorem EntryOk.frame (h : EntryOk cfg x place chan f d)
    (hpub : x.pool.published chan ≤ x'.pool.published chan) (hcalls : x.calls ≤ x'.calls)
    (hjob : x'.job d.call = x.job d.call) (hret : x'.pool.retired chan = x.pool.retired chan)
    (hmoved : x'.moved chan = x.moved chan) (hfailed : x'.failed chan f = x.failed chan f)
    (hdrained : x'.drained chan f = x.drained chan f)
    (hplace : place' (d.call, d.chunk) = place (d.call, d.chunk)) :
    EntryOk cfg x' place' chan f d := by
  have hprog : x'.progress chan f d.size = x.progress chan f d.size := by
    rw [State.progress, State.progress, hret, hmoved]
  refine ⟨h.published.trans hpub, h.call.trans_le hcalls, ?_, ?_, ?_, ?_, ?_, ?_⟩
  · rw [hjob]
    exact h.kind
  · rw [State.len, hjob]
    exact h.size
  · rw [hjob]
    exact h.addr
  · rw [hret, hplace, hprog]
    exact h.h2d
  · rw [hret, hfailed, hplace]
    exact h.retired
  · rw [Live, hret, hdrained, hfailed, hplace, hprog]
    exact h.d2h

end Frames

/-! ### The device and the other commands -/

section Device
variable {x : State n} {place place' : ℕ × ℕ → Place ℕ} {t : Fin n} {chan : Chan}

theorem ChunkInv.publish (h : ChunkInv cfg x place) {p : Chan → ℕ}
    (hp : ∀ ch, x.pool.published ch ≤ p ch) :
    ChunkInv cfg { x with pool := { x.pool with published := p } } place where
  pool := h.pool.device hp
  order := fun ch => (h.order ch).trans (hp ch)
  relay := h.relay
  numbered := h.numbered
  distinct := h.distinct
  fresh := h.fresh
  entry := fun chan f d hd => (h.entry chan f d hd).frame (hp chan) le_rfl rfl rfl rfl rfl rfl rfl
  unique := h.unique
  failed := h.failed
  drained := h.drained
  idle := h.idle
  located := h.located
  copies := by
    intro t c hc
    obtain ⟨hok, hguard⟩ := h.copies t c hc
    refine ⟨hok.frame rfl rfl rfl (fun _ _ _ _ => Iff.rfl)
      (fun _ _ _ _ _ hdr => hdr) (fun _ _ => rfl)
      fun _ _ _ => ⟨rfl, rfl⟩, hguard.frame fun _ _ _ hd hl _ => ⟨hd, hl⟩⟩
  free := h.free
  returned := fun k hk => (h.returned k hk).frame rfl rfl (fun _ _ _ hd => hd) fun _ _ => rfl

def afterRetire (x : State n) (chan : Chan) (err : Bool) : State n :=
  { x with
    pool := { x.pool with
      retired := Function.update x.pool.retired chan (x.pool.retired chan + 1)
      sticky := x.pool.sticky || err }
    moved := Function.update x.moved chan 0
    failed := put x.failed chan (x.pool.retired chan + 1) err }

def retirePlace (x : State n) (place : ℕ × ℕ → Place ℕ) (chan : Chan) (err : Bool) :
    ℕ × ℕ → Place ℕ :=
  match x.ring chan (x.pool.retired chan + 1) with
  | none => place
  | some d =>
    if err then Function.update place (d.call, d.chunk) .lost
    else
      match d.kind with
      | .h2d => Function.update place (d.call, d.chunk) .delivered
      | .d2h => place

theorem put_self {α β γ : Type*} [DecidableEq α] [DecidableEq β] (g : α → β → γ)
    (a : α) (b : β) (v : γ) :
    put g a b v a b = v := by
  simp [put]

theorem put_of_ne {α β γ : Type*} [DecidableEq α] [DecidableEq β] (g : α → β → γ)
    {a a' : α} {b b' : β}
    (v : γ) (h : (a', b') ≠ (a, b)) : put g a b v a' b' = g a' b' := by
  by_cases ha : a' = a
  · subst ha
    have hb : b' ≠ b := fun hb => h (by rw [hb])
    simp [put, hb]
  · simp [put, ha]

theorem retirePlace_ne {q : ℕ × ℕ} {err : Bool}
    (hq : ∀ d, x.ring chan (x.pool.retired chan + 1) = some d → q ≠ (d.call, d.chunk)) :
    retirePlace x place chan err q = place q := by
  rw [retirePlace]
  cases hd : x.ring chan (x.pool.retired chan + 1) with
  | none => rfl
  | some d =>
    have hne := hq d hd
    cases err with
    | true => exact Function.update_of_ne hne ..
    | false =>
      cases hk : d.kind with
      | h2d => simp [hk, hne]
      | d2h => simp [hk]

theorem ChunkInv.retirePlace_settled (h : ChunkInv cfg x place) {q : ℕ × ℕ} (err : Bool)
    (hq : ∀ s a b, place q ≠ .aboard s a b) : retirePlace x place chan err q = place q := by
  apply retirePlace_ne
  rintro d hd rfl
  obtain ⟨a, b, hplace⟩ := h.live_place hd
    (h.unretired_live d (Nat.lt_succ_self (x.pool.retired chan)))
  exact hq _ _ _ hplace

theorem ChunkInv.head_place (h : ChunkInv cfg x place) {d : Dma} {err : Bool}
    (hd : x.ring chan (x.pool.retired chan + 1) = some d) (hdone : err || x.complete chan) :
    err = false → place (d.call, d.chunk) =
      .aboard d.slot d.size (match d.kind with | .h2d => d.size | .d2h => 0) := by
  rintro rfl
  have he := h.entry chan _ d hd
  have hl := h.unretired_live d (Nat.lt_succ_self (x.pool.retired chan))
  have hmoved : x.moved chan = d.size := by simpa [State.complete, hd] using hdone
  have hnow : x.progress chan (x.pool.retired chan + 1) d.size = d.size := by
    simp [State.progress, hmoved]
  cases hk : d.kind with
  | h2d =>
    have hplace := he.h2d hk (Nat.lt_succ_self _)
    rwa [hnow] at hplace
  | d2h =>
    have hplace := he.d2h hk hl
    rwa [hnow] at hplace

theorem ChunkInv.retire_relay (h : ChunkInv cfg x place) {err : Bool}
    (hdone : err || x.complete chan) :
    Relay.Ok (x.len cfg) (x.relay (retirePlace x place chan err)) := by
  rw [retirePlace]
  cases hd : x.ring chan (x.pool.retired chan + 1) with
  | none => exact h.relay
  | some d =>
    have hplace := h.head_place hd hdone
    cases err with
    | true => exact h.relay.lose (d.call, d.chunk)
    | false =>
      cases hk : d.kind with
      | d2h => simpa [hk] using h.relay
      | h2d =>
        have hsize := (h.entry chan _ d hd).size
        simp only [hk, forall_const, hsize] at hplace
        simpa [hk, State.relay, Relay.State.put] using h.relay.deliver hplace

theorem retire_live {err : Bool} {chan' : Chan} {f : ℕ} {d : Dma}
    (hne : (chan', f) ≠ (chan, x.pool.retired chan + 1)) :
    Live (afterRetire x chan err) chan' f d ↔ Live x chan' f d := by
  have hlt : (afterRetire x chan err).pool.retired chan' < f ↔ x.pool.retired chan' < f := by
    by_cases hch : chan' = chan
    · subst hch
      have hf : f ≠ x.pool.retired chan' + 1 := fun hf => hne (by rw [hf])
      simp only [afterRetire, Function.update_self]
      omega
    · simp [afterRetire, hch]
  have hfailed : (afterRetire x chan err).failed chan' f = x.failed chan' f := put_of_ne _ _ hne
  rw [Live, Live, hfailed]
  cases d.kind with
  | h2d => exact hlt
  | d2h => exact Iff.rfl

theorem ChunkInv.live_of_retire (h : ChunkInv cfg x place) {err : Bool}
    {chan' : Chan} {f : ℕ} {d : Dma}
    (hd : x.ring chan' f = some d) (hl : Live (afterRetire x chan err) chan' f d) :
    Live x chan' f d := by
  by_cases heq : (chan', f) = (chan, x.pool.retired chan + 1)
  · rw [Prod.mk.injEq] at heq
    obtain ⟨rfl, rfl⟩ := heq
    exact h.unretired_live d (Nat.lt_succ_self (x.pool.retired chan'))
  · exact (retire_live heq).mp hl

theorem retire_le (x : State n) (chan : Chan) (err : Bool) (chan' : Chan) :
    x.pool.retired chan' ≤ (afterRetire x chan err).pool.retired chan' := by
  by_cases hch : chan' = chan
  · simp [afterRetire, hch]
  · simp [afterRetire, hch]

theorem ChunkInv.retire_entry (h : ChunkInv cfg x place) {err : Bool}
    (hdone : err || x.complete chan)
    {chan' : Chan} {f : ℕ} {d : Dma} (hd : x.ring chan' f = some d) :
    EntryOk cfg (afterRetire x chan err) (retirePlace x place chan err) chan' f d := by
  have he := h.entry chan' f d hd
  have hmono := retire_le x chan err chan'
  by_cases heq : (chan', f) = (chan, x.pool.retired chan + 1)
  · rw [Prod.mk.injEq] at heq
    obtain ⟨rfl, rfl⟩ := heq
    have hret : (afterRetire x chan' err).pool.retired chan' = x.pool.retired chan' + 1 := by
      simp [afterRetire]
    have hfailed : (afterRetire x chan' err).failed chan' (x.pool.retired chan' + 1) = err :=
      put_self ..
    have hplace := h.head_place hd hdone
    refine ⟨he.published, he.call, he.kind, he.size, he.addr, fun _ hlt => ?_, ?_, ?_⟩
    · rw [hret] at hlt
      exact absurd hlt (lt_irrefl _)
    · intro hk _ herr
      rw [hfailed] at herr
      simp [retirePlace, hd, herr, hk]
    · intro hk hl
      simp only [Live, hk, hfailed] at hl
      have hplace := hplace hl.2
      simp only [hk] at hplace
      have hprog :
          (afterRetire x chan' err).progress chan' (x.pool.retired chan' + 1) d.size = d.size := by
        simp [State.progress, hret]
      rw [hprog]
      simp [retirePlace, hd, hl.2, hk, hplace]
  · have hplace : retirePlace x place chan err (d.call, d.chunk) = place (d.call, d.chunk) := by
      apply retirePlace_ne
      intro d' hd' hsame
      rw [Prod.mk.injEq] at hsame
      obtain ⟨rfl, rfl⟩ := h.unique chan' f d chan _ d' hd hd' hsame.1 hsame.2
      exact heq rfl
    have hfailed : (afterRetire x chan err).failed chan' f = x.failed chan' f := put_of_ne _ _ heq
    have hprog : (afterRetire x chan err).progress chan' f d.size = x.progress chan' f d.size := by
      by_cases hch : chan' = chan
      · subst hch
        have hf : f ≠ x.pool.retired chan' + 1 := fun hf => heq (by rw [hf])
        have hle : f ≤ x.pool.retired chan' + 1 ↔ f ≤ x.pool.retired chan' := by omega
        simp [State.progress, afterRetire, hf, hle]
      · simp [State.progress, afterRetire, hch]
    refine ⟨he.published, he.call, he.kind, he.size, he.addr, ?_, ?_, ?_⟩
    · intro hk hlt
      rw [hplace, hprog]
      exact he.h2d hk (hmono.trans_lt hlt)
    · intro hk hle hf
      rw [hfailed] at hf
      rw [hplace]
      apply he.retired hk ?_ hf
      by_contra hlt
      have hl : Live x chan' f d := by
        rw [Live, hk]
        exact not_le.mp hlt
      have hl' : Live (afterRetire x chan err) chan' f d := (retire_live heq).mpr hl
      rw [Live, hk] at hl'
      exact absurd hle (not_le.mpr hl')
    · intro hk hl
      rw [hplace, hprog]
      exact he.d2h hk ((retire_live heq).mp hl)

theorem ChunkInv.retire (h : ChunkInv cfg x place) {err : Bool}
    (hlt : x.pool.retired chan < x.pool.published chan) (hdone : err || x.complete chan) :
    ChunkInv cfg (afterRetire x chan err) (retirePlace x place chan err) where
  pool := h.pool.device fun _ => le_rfl
  order := by
    intro ch
    by_cases hch : ch = chan
    · subst hch
      simpa [afterRetire, Nat.succ_le_iff] using hlt
    · simpa [afterRetire, hch] using h.order ch
  relay := h.retire_relay hdone
  numbered := h.numbered
  distinct := h.distinct
  fresh := by
    intro k hk
    refine ⟨(h.fresh k hk).1, fun q => ?_⟩
    have hw := (h.fresh k hk).2 q
    rw [h.retirePlace_settled err (by simp [hw]), hw]
  entry := fun chan' f d hd => h.retire_entry hdone hd
  unique := h.unique
  failed := by
    intro chan' f hf
    by_cases heq : (chan', f) = (chan, x.pool.retired chan + 1)
    · rw [Prod.mk.injEq] at heq
      obtain ⟨rfl, rfl⟩ := heq
      have hfailed : (afterRetire x chan' err).failed chan' (x.pool.retired chan' + 1) = err :=
        put_self ..
      rw [hfailed] at hf
      simp [afterRetire, hf]
    · have hfailed : (afterRetire x chan err).failed chan' f = x.failed chan' f := put_of_ne _ _ heq
      rw [hfailed] at hf
      obtain ⟨hst, hle⟩ := h.failed chan' f hf
      exact ⟨by simp [afterRetire, hst], hle.trans (retire_le x chan err chan')⟩
  drained := fun chan' f hdr => (h.drained chan' f hdr).trans (retire_le x chan err chan')
  idle := by
    intro chan' hnone
    by_cases hch : chan' = chan
    · simp [afterRetire, hch]
    · simp only [afterRetire, Function.update_of_ne hch] at hnone ⊢
      exact h.idle chan' hnone
  located := by
    intro p s a b hp
    by_cases hhead : ∃ d, x.ring chan (x.pool.retired chan + 1) = some d ∧ p = (d.call, d.chunk)
    · obtain ⟨d, hd, rfl⟩ := hhead
      cases err with
      | true => simp [retirePlace, hd] at hp
      | false =>
        cases hk : d.kind with
        | h2d => simp [retirePlace, hd, hk] at hp
        | d2h =>
          have hl := h.unretired_live d (Nat.lt_succ_self (x.pool.retired chan))
          obtain ⟨a', b', hplace⟩ := h.live_place hd hl
          have hsame : place (d.call, d.chunk) = .aboard s a b := by
            simpa [retirePlace, hd, hk] using hp
          rw [hsame, Place.aboard.injEq] at hplace
          refine .inl ⟨chan, _, d, hd, ?_, rfl, hplace.1.symm⟩
          simp only [Live, hk] at hl ⊢
          exact ⟨hl.1, put_self ..⟩
    · have hsame : retirePlace x place chan err p = place p := by
        apply retirePlace_ne
        exact fun d hd heq => hhead ⟨d, hd, heq⟩
      rw [hsame] at hp
      obtain ⟨chan', f, d, hd, hl, hpd, hslot⟩ | hhand := h.located p s a b hp
      · refine .inl ⟨chan', f, d, hd, (retire_live ?_).mpr hl, hpd, hslot⟩
        intro heq
        rw [Prod.mk.injEq] at heq
        obtain ⟨rfl, rfl⟩ := heq
        exact hhead ⟨d, hd, hpd.symm⟩
      · exact .inr hhand
  copies := by
    intro t c hc
    obtain ⟨hok, hguard⟩ := h.copies t c hc
    refine ⟨?_, hguard.frame fun chan' f d hd hl _ => ⟨hd, h.live_of_retire hd hl⟩⟩
    refine hok.frame rfl rfl rfl (fun _ _ _ _ => Iff.rfl) (fun _ _ _ _ _ hdr => hdr) ?_ ?_
    · intro q hq
      apply h.retirePlace_settled
      obtain hq | hq := hq <;> simp [hq]
    · intro s q hh
      refine ⟨retirePlace_ne fun d hd => ?_, rfl⟩
      exact (h.hand_not_live hc hh hd (h.unretired_live d
        (Nat.lt_succ_self (x.pool.retired chan)))).symm
  free := fun s hfree => (h.free s hfree).frame fun chan' f d hd hl _ => ⟨hd,
    h.live_of_retire hd hl⟩
  returned := by
    intro k hk
    refine (h.returned k hk).frame rfl rfl (fun _ _ _ hd => hd) ?_
    intro q hq
    apply h.retirePlace_settled
    obtain hq | hq := hq <;> simp [hq]

theorem ChunkInv.submit (h : ChunkInv cfg x place) (hnone : x.pool.copies t = none) (job : Job)
    (orig : ℕ → UInt8) : ChunkInv cfg { x with
      pool := x.pool.setCopy t (some (.submitted job.kind chan job.total))
      calls := x.calls + 1
      call := Function.update x.call t x.calls
      job := Function.update x.job x.calls job
      copied := Function.update x.copied t 0
      touched := Function.update x.touched x.calls false
      orig := Function.update x.orig x.calls orig } place := by
  have hother : ∀ u, u ≠ t →
      (x.pool.setCopy t (some (.submitted job.kind chan job.total))).copies u =
      x.pool.copies u := fun u hu => State.setCopy_of_ne _ _ _ hu
  have hself : (x.pool.setCopy t (some (.submitted job.kind chan job.total))).copies t =
      some (.submitted job.kind chan job.total) := State.setCopy_self ..
  have hjob : ∀ k, k < x.calls → Function.update x.job x.calls job k = x.job k := fun k hk =>
    Function.update_of_ne hk.ne ..
  have hlive : ∀ u c, u ≠ t → x.pool.copies u = some c → x.call u < x.calls := fun u c _ hu =>
    (h.numbered u (by simp [hu])).1
  have hcall : ∀ u, u ≠ t → Function.update x.call t x.calls u = x.call u := fun u hu =>
    Function.update_of_ne hu ..
  refine ⟨h.pool.submit job.kind chan job.total, h.order, ?_, ?_, ?_, ?_, ?_, h.unique, h.failed,
    h.drained, h.idle, ?_, ?_,
    h.free, ?_⟩
  · apply h.relay.congr_len
    intro p hp
    have hlt : p.1 < x.calls := by
      by_contra hge
      exact hp ((h.fresh p.1 (not_lt.mp hge)).2 p.2)
    simp only [State.len, hjob p.1 hlt]
  · intro u hu
    by_cases hut : u = t
    · subst hut
      simp only [Function.update_self]
      exact ⟨Nat.lt_succ_self _, (h.fresh x.calls le_rfl).1⟩
    · rw [hother u hut] at hu
      simp only [hcall u hut]
      exact ⟨(h.numbered u hu).1.trans (Nat.lt_succ_self _), (h.numbered u hu).2⟩
  · intro u v hu hv heq
    by_cases hut : u = t <;> by_cases hvt : v = t
    · rw [hut, hvt]
    · subst hut
      rw [hother v hvt] at hv
      simp only [Function.update_self, hcall v hvt] at heq
      exact absurd heq.symm (h.numbered v hv).1.ne
    · subst hvt
      rw [hother u hut] at hu
      simp only [Function.update_self, hcall u hut] at heq
      exact absurd heq (h.numbered u hu).1.ne
    · rw [hother u hut] at hu
      rw [hother v hvt] at hv
      simp only [hcall u hut, hcall v hvt] at heq
      exact h.distinct u v hu hv heq
  · exact fun k hk => h.fresh k (Nat.le_of_succ_le hk)
  · intro chan' f d hd
    have he := h.entry chan' f d hd
    exact he.frame le_rfl (Nat.le_succ _) (hjob _ he.call) rfl rfl rfl rfl rfl
  · intro p s a b hp
    obtain hring | ⟨u, c, hu, hh⟩ := h.located p s a b hp
    · exact .inl hring
    · have hut : u ≠ t := by
        rintro rfl
        rw [hnone] at hu
        cases hu
      refine .inr ⟨u, c, (hother u hut).trans hu, ?_⟩
      simp only [InHand, hcall u hut]
      exact hh
  · intro u c hu
    by_cases hut : u = t
    · subst hut
      obtain rfl := Option.some.inj (hself.symm.trans hu)
      refine ⟨⟨?_, ?_, ?_, ?_, ?_, ?_, ?_, ?_, ?_, ?_, ?_, ?_, ?_⟩, ⟨?_, ?_, ?_, ?_, ?_⟩⟩
      · simp [Copy.submitted]
      · simp [Copy.submitted]
      · simp [Copy.submitted]
      · simp [Copy.submitted]
      · simp [Copy.submitted]
      · simp only [Function.update_self]
        exact fun q _ => (h.fresh x.calls le_rfl).2 q
      · simp only [Function.update_self]
        intro chan' f d hd hcalls
        exact absurd hcalls (h.entry chan' f d hd).call.ne
      · intro hk q hq
        simp only [Copy.submitted] at hk
        simp [sent, Copy.submitted, hk] at hq
      all_goals simp [Copy.submitted]
    · have hu := (hother u hut).symm.trans hu
      obtain ⟨hok, hguard⟩ := h.copies u c hu
      refine ⟨?_, hguard.frame fun _ _ _ hd hl _ => ⟨hd, hl⟩⟩
      refine hok.frame (hcall u hut) (hjob _ (hlive u c hut hu)) rfl (fun _ _ _ _ => Iff.rfl)
        (fun _ _ _ _ _ hdr => hdr) (fun _ _ => rfl) fun _ _ _ => ⟨rfl, Function.update_of_ne hut ..⟩
  · intro k hk
    have hlt : k < x.calls := by
      by_contra hge
      rw [(h.fresh k (not_lt.mp hge)).1] at hk
      cases hk
    exact (h.returned k hk).frame (hjob k hlt) rfl (fun _ _ _ hd => hd) fun _ _ => rfl

end Device

end SoftGpu.StagedCopy
