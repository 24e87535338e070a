import SoftGpu.StagedTurns

/-!
# A staged copy moves every byte once

The invariant over whole runs, and from it: no slot is filled while something else refers to it,
and a call that has returned without an error has, once its commands have retired, read each byte
once and written it once.
-/

namespace SoftGpu.StagedCopy
open Machine Staging
open SlotLog (Covers Retired)
open Relay (Place)

variable {n : ℕ} {cfg : Config} {x x' : State n} {place : ℕ × ℕ → Place ℕ} {t : Fin n} {c : Copy}
  {s : Staging.State n} {a : Action n} {mem : Side → ℕ → UInt8}

/-! ### Runs -/

theorem ChunkInv.run (h : ChunkInv cfg x place) (hc : x.pool.copies t = some c)
    (hready : x.ready cfg t c = true) (hs : x.pool.copyStep cfg t c = some s) :
    ∃ place', ChunkInv cfg (turned cfg x t c s) place' := by
  have hm := copyStep_cases hs
  cases hp : c.point with
  | lock =>
    simp only [State.copyStep, hp, Option.ite_none_right_eq_some, Option.some.injEq] at hs
    obtain ⟨-, rfl⟩ := hs
    exact ⟨place, h.start hc hp⟩
  | acquire =>
    simp only [State.copyStep, hp, Option.map_eq_some_iff] at hs
    obtain ⟨⟨k, g, s'⟩, hacq, rfl⟩ := hs
    obtain ⟨hk, hfree, rfl, rfl⟩ := SlotLog.acquireSlot_eq_some hacq
    exact ⟨place, h.acquire hc hp hk hfree⟩
  | waitPrev k prev =>
    simp only [State.copyStep, hp, Option.map_eq_some_iff] at hs
    obtain ⟨err, hwait, rfl⟩ := hs
    have hret := SlotLog.waitFence_retired hwait
    obtain rfl := State.waitFence_eq_some hwait
    cases hst : x.pool.sticky with
    | false => exact h.waited hc hp hst hret
    | true => exact ⟨place, h.waitFailed hc hp hst⟩
  | enqueue k =>
    simp only [State.copyStep, hp, State.enqueue, Option.map_eq_some_iff,
      Option.ite_none_right_eq_some,
      Option.some.injEq] at hs
    obtain ⟨_, ⟨-, rfl⟩, rfl⟩ := hs
    cases hk : c.kind with
    | h2d =>
      have hcopied : x.copied t = piece cfg c.total c.off := by
        simpa [State.ready, hk, hp] using hready
      refine ⟨place, h.enqueued_h2d hc hp hk hcopied hm (by simp) rfl ?_⟩
      simp [Copy.enqueued, hk]
    | d2h =>
      refine h.enqueued_d2h hc hp hk hm (by simp) rfl ?_
      rw [State.setCopy_self, Copy.enqueued_d2h hk]
  | drain w =>
    simp only [State.copyStep, hp, Option.map_eq_some_iff] at hs
    obtain ⟨err, hwait, rfl⟩ := hs
    have hret := SlotLog.waitFence_retired hwait
    obtain rfl := State.waitFence_eq_some hwait
    cases hst : x.pool.sticky with
    | false => exact ⟨place, h.drained_ok hc hp hst hret⟩
    | true => exact h.drained_failed hc hp hst hret
  | release k f =>
    simp only [State.copyStep, hp, Option.some.injEq] at hs
    subst hs
    cases hk : c.kind with
    | h2d => exact ⟨place, h.released_h2d hc hp hk⟩
    | d2h =>
      apply h.released_d2h hc hp hk
      simpa [State.ready, hk, hp] using hready
  | failed k f =>
    simp only [State.copyStep, hp, Option.some.injEq] at hs
    subst hs
    exact ⟨place, h.failed_return hc hp⟩

theorem ChunkInv.step (h : ChunkInv cfg x place) (hs : step cfg x a = some x') :
    ∃ place', ChunkInv cfg x' place' := by
  cases a with
  | submit t chan job =>
    obtain ⟨s, hstep, rfl⟩ := Option.map_eq_some_iff.mp hs
    simp only [Staging.step, Option.ite_none_right_eq_some, Option.some.injEq] at hstep
    obtain ⟨⟨hnone, -⟩, rfl⟩ := hstep
    exact ⟨place, h.submit hnone job _⟩
  | run t =>
    simp only [StagedCopy.step] at hs
    split at hs
    · cases hs
    · next c hc =>
      simp only [Option.ite_none_right_eq_some] at hs
      obtain ⟨hready, hs⟩ := hs
      obtain ⟨s, hstep, rfl⟩ := Option.map_eq_some_iff.mp hs
      exact h.run hc hready hstep
  | memcpy t =>
    obtain ⟨c, hc, hs⟩ := Option.bind_eq_some_iff.mp hs
    exact h.memcpy hc hs
  | publish chan =>
    obtain ⟨s, hstep, rfl⟩ := Option.map_eq_some_iff.mp hs
    simp only [Staging.step, State.enqueue, Option.map_eq_some_iff, Option.ite_none_right_eq_some,
      Option.some.injEq] at hstep
    obtain ⟨_, ⟨-, rfl⟩, rfl⟩ := hstep
    refine ⟨place, h.publish fun ch => ?_⟩
    by_cases hch : ch = chan
    · simp [hch]
    · simp [hch]
  | dma chan =>
    simp only [StagedCopy.step, Option.ite_none_right_eq_some] at hs
    exact h.dma hs.2
  | retire chan err =>
    simp only [StagedCopy.step, Option.ite_none_right_eq_some] at hs
    obtain ⟨hdone, hs⟩ := hs
    obtain ⟨s, hstep, rfl⟩ := Option.map_eq_some_iff.mp hs
    simp only [Staging.step, Option.ite_none_right_eq_some, Option.some.injEq] at hstep
    obtain ⟨hlt, rfl⟩ := hstep
    exact ⟨retirePlace x place chan err, h.retire hlt hdone⟩
  | store side b v =>
    obtain rfl := Option.some.inj hs
    exact ⟨place, h.store side b v⟩

theorem reach_chunkInv (h : Reach (step cfg) anyStep (init n mem) x) :
    ∃ place, ChunkInv cfg x place :=
  h.invariant (P := fun x => ∃ place, ChunkInv cfg x place) ⟨_, chunkInv_init cfg mem⟩
    fun _ _ _ ⟨_, hi⟩ _ hs => hi.step hs

/-! ### No slot is shared -/

theorem ChunkInv.raceFree (h : ChunkInv cfg x place) : RaceFree x where
  memcpy := by
    rintro t slot ⟨c, hc, hcopying⟩
    have hheld : slot ∈ c.held := by
      obtain ⟨-, hp⟩ | ⟨-, f, hp⟩ := hcopying <;> simp [Copy.held, hp]
    have hhand : ∃ p, InHand cfg x p slot t c := by
      obtain ⟨hk, hp⟩ | ⟨hk, f, hp⟩ := hcopying
      · exact ⟨_, .inl ⟨hk, hp, rfl⟩⟩
      · exact ⟨_, .inr ⟨hk, ⟨f, hp⟩, rfl⟩⟩
    obtain ⟨p, hhand⟩ := hhand
    constructor
    · -- The chunk of such a command would be in the slot too.
      intro chan f d hd hslot
      by_contra hlt
      have hl := h.unretired_live d (not_le.mp hlt)
      obtain ⟨a, b, hplace⟩ := h.live_place hd hl
      obtain ⟨a', b', hplace'⟩ := h.hand_place hc hhand
      rw [hslot] at hplace
      exact h.hand_not_live hc hhand hd hl (h.relay.alone _ _ _ _ _ _ _ hplace hplace')
    · intro u hut c' hu
      exact h.pool.apart t u c c' (Ne.symm hut) hc hu slot hheld
  window := by
    intro t c w hc hw chan f d hd hslot hlt
    exact (h.copies t c hc).2.window w hw chan f d hd (h.unretired_live d hlt) hslot
  dma := by
    intro chan f d chan' f' d' hd hd' hlt hlt' hslot
    obtain ⟨a, b, hplace⟩ := h.live_place hd (h.unretired_live d hlt)
    obtain ⟨a', b', hplace'⟩ := h.live_place hd' (h.unretired_live d' hlt')
    rw [hslot] at hplace
    have hsame := h.relay.alone _ _ _ _ _ _ _ hplace hplace'
    rw [Prod.mk.injEq] at hsame
    exact h.unique chan f d chan' f' d' hd hd' hsame.1 hsame.2

/-! ### The bytes -/

/-- What was read is what the source held, and what was written last is still there, unless
something else has stored to the ranges of the call. -/
structure ByteInv (cfg : Config) (x : State n) : Prop where
  source : ∀ k < x.calls, x.touched k = false → ∀ i < (x.job k).total, x.source k i = x.orig k i
  read : ∀ k < x.calls, x.touched k = false → ∀ q j, ∀ v ∈ x.reads (k, q) j,
    v = x.orig k (q * cfg.chunk + j)
  written : ∀ k < x.calls, x.touched k = false → ∀ q j v, (x.writes (k, q) j).getLast? = some v →
    x.dest k (q * cfg.chunk + j) = v
  inside : ∀ k q j, x.writes (k, q) j ≠ [] → k < x.calls ∧ j < cfg.chunk ∧
    q * cfg.chunk + j < (x.job k).total

theorem byteInv_init (cfg : Config) (mem : Side → ℕ → UInt8) : ByteInv cfg (init n mem) := by
  constructor <;> simp [init]

structure SameBytes (x x' : State n) : Prop where
  mem : x'.mem = x.mem
  calls : x'.calls = x.calls
  job : x'.job = x.job
  reads : x'.reads = x.reads
  writes : x'.writes = x.writes
  touched : x'.touched = x.touched
  orig : x'.orig = x.orig

theorem ByteInv.congr (h : ByteInv cfg x) (hs : SameBytes x x') : ByteInv cfg x' := by
  have hsource : x'.source = x.source := by
    funext k i
    rw [State.source, State.source, hs.mem, hs.job]
  have hdest : x'.dest = x.dest := by
    funext k i
    rw [State.dest, State.dest, hs.mem, hs.job]
  constructor
  · rw [hs.calls, hs.touched, hs.job, hsource, hs.orig]
    exact h.source
  · rw [hs.calls, hs.touched, hs.reads, hs.orig]
    exact h.read
  · rw [hs.calls, hs.touched, hs.writes, hdest]
    exact h.written
  · rw [hs.calls, hs.writes, hs.job]
    exact h.inside

theorem store_mem {side side' : Side} {b i k : ℕ} {v : UInt8} {who : Option ℕ} (hwho : who ≠ some k)
    (htouched : (x.store side b v who).touched k = false) (hi : i < (x.job k).total) :
    (x.store side b v who).mem side' ((x.job k).base side' + i) =
      x.mem side' ((x.job k).base side' + i) := by
  simp only [State.store, ne_eq, hwho, not_false_eq_true, decide_true, Bool.true_and,
    Bool.or_eq_false_iff] at htouched
  apply put_of_ne
  intro heq
  rw [Prod.mk.injEq] at heq
  obtain ⟨rfl, rfl⟩ := heq
  simp [Job.covers, hi] at htouched

theorem store_touched {side : Side} {b k : ℕ} {v : UInt8} {who : Option ℕ}
    (h : (x.store side b v who).touched k = false) : x.touched k = false := by
  simp only [State.store, Bool.or_eq_false_iff] at h
  exact h.1

theorem ByteInv.store (h : ByteInv cfg x) (side : Side) (b : ℕ) (v : UInt8) :
    ByteInv cfg (x.store side b v none) where
  source := by
    intro k hk htouched i hi
    exact (store_mem (by simp) htouched hi).trans (h.source k hk (store_touched htouched) i hi)
  read := fun k hk htouched => h.read k hk (store_touched htouched)
  written := by
    intro k hk htouched q j w hw
    have hne : x.writes (k, q) j ≠ [] := by
      intro heq
      have hw' : (x.writes (k, q) j).getLast? = some w := hw
      simp [heq] at hw'
    exact (store_mem (by simp) htouched (h.inside k q j hne).2.2).trans
      (h.written k hk (store_touched htouched) q j w hw)
  inside := h.inside

@[simp] theorem load_reads (p : ℕ × ℕ) (slot j b : ℕ) (side : Side) :
    (x.load p slot j side b).reads =
    put x.reads p j (x.reads p j ++ [x.mem side b]) := rfl

@[simp] theorem unload_writes (p : ℕ × ℕ) (slot j b : ℕ) (side : Side) :
    (x.unload p slot j side b).writes =
    put x.writes p j (x.writes p j ++ [x.slots slot j]) := rfl

theorem ByteInv.load (h : ByteInv cfg x) {k q slot j b : ℕ} {side : Side} (hk : k < x.calls)
    (hside : side = sourceSide (x.job k).kind) (hb : b = (x.job k).base side + (q * cfg.chunk + j))
    (hi : q * cfg.chunk + j < (x.job k).total) : ByteInv cfg (x.load (k, q) slot j side b) where
  source := h.source
  read := by
    intro k' hk' htouched q' j' v hv
    by_cases heq : ((k', q'), j') = ((k, q), j)
    · simp only [Prod.mk.injEq] at heq
      obtain ⟨⟨rfl, rfl⟩, rfl⟩ := heq
      simp only [load_reads, put_self, List.mem_append, List.mem_singleton] at hv
      obtain hv | rfl := hv
      · exact h.read k' hk' htouched q' j' v hv
      · rw [hb, hside]
        exact h.source k' hk' htouched _ hi
    · rw [load_reads, put_of_ne _ _ heq] at hv
      exact h.read k' hk' htouched q' j' v hv
  written := h.written
  inside := h.inside

theorem chunk_div_mod {m q j : ℕ} (hj : j < m) : (q * m + j) / m = q ∧ (q * m + j) % m = j := by
  constructor
  · rw [Nat.add_comm, Nat.add_mul_div_right _ _ (Nat.zero_lt_of_lt hj),
      Nat.div_eq_of_lt hj, Nat.zero_add]
  · rw [Nat.mul_add_mod', Nat.mod_eq_of_lt hj]

theorem address_inj {m q q' j j' : ℕ} (hj : j < m) (hj' : j' < m) (h : q * m + j = q' * m + j') :
    q = q' ∧ j = j' := by
  have hq : q = q' := by
    rw [← (chunk_div_mod (q := q) hj).1, h, (chunk_div_mod hj').1]
  subst hq
  exact ⟨rfl, Nat.add_left_cancel h⟩

theorem ByteInv.unload (h : ByteInv cfg x) {k q slot j b : ℕ} {side : Side} (hk : k < x.calls)
    (hside : side = destSide (x.job k).kind) (hb : b = (x.job k).base side + (q * cfg.chunk + j))
    (hj : j < cfg.chunk) (hi : q * cfg.chunk + j < (x.job k).total) :
    ByteInv cfg (x.unload (k, q) slot j side b) where
  source := by
    intro k' hk' htouched i hi'
    have htouched' : (x.store side b (x.slots slot j) (some k)).touched k' = false := htouched
    by_cases heq : k' = k
    · subst heq
      have hne : sourceSide (x.job k').kind ≠ side := by
        rw [hside]
        cases (x.job k').kind <;> decide
      have hsame : (x.store side b (x.slots slot j) (some k')).source k' i = x.source k' i :=
        put_of_ne _ _ fun heq => hne (Prod.mk.inj heq).1
      exact hsame.trans (h.source k' hk' (store_touched htouched') i hi')
    · have hwho : some k ≠ some k' := fun hsome => heq (Option.some.inj hsome).symm
      exact (store_mem hwho htouched' hi').trans (h.source k' hk' (store_touched htouched') i hi')
  read := by
    intro k' hk' htouched
    have htouched' : (x.store side b (x.slots slot j) (some k)).touched k' = false := htouched
    exact h.read k' hk' (store_touched htouched')
  written := by
    intro k' hk' htouched q' j' v hv
    have htouched' : (x.store side b (x.slots slot j) (some k)).touched k' = false := htouched
    by_cases heq : ((k', q'), j') = ((k, q), j)
    · simp only [Prod.mk.injEq] at heq
      obtain ⟨⟨rfl, rfl⟩, rfl⟩ := heq
      simp only [unload_writes, put_self, List.getLast?_concat, Option.some.injEq] at hv
      subst hv
      subst hb hside
      exact put_self ..
    · rw [unload_writes, put_of_ne _ _ heq] at hv
      have hne : x.writes (k', q') j' ≠ [] := by
        intro hnil
        simp [hnil] at hv
      obtain ⟨-, hj', hi'⟩ := h.inside k' q' j' hne
      by_cases hkk : k' = k
      · subst hkk
        have hsame : (x.store side b (x.slots slot j) (some k')).dest k' (q' * cfg.chunk + j') =
            x.dest k' (q' * cfg.chunk + j') := by
          apply put_of_ne
          intro haddr
          have haddr := (Prod.mk.inj haddr).2
          rw [hb, hside] at haddr
          obtain ⟨rfl, rfl⟩ := address_inj hj' hj (Nat.add_left_cancel haddr)
          exact heq rfl
        exact hsame.trans (h.written k' hk' (store_touched htouched') q' j' v hv)
      · have hwho : some k ≠ some k' := fun hsome => hkk (Option.some.inj hsome).symm
        exact (store_mem hwho htouched' hi').trans
          (h.written k' hk' (store_touched htouched') q' j' v hv)
  inside := by
    intro k' q' j' hne
    by_cases heq : ((k', q'), j') = ((k, q), j)
    · simp only [Prod.mk.injEq] at heq
      obtain ⟨⟨rfl, rfl⟩, rfl⟩ := heq
      exact ⟨hk, hj, hi⟩
    · rw [unload_writes, put_of_ne _ _ heq] at hne
      exact h.inside k' q' j' hne

theorem ByteInv.memcpy (h : ByteInv cfg x) (hi : ChunkInv cfg x place)
    (hc : x.pool.copies t = some c)
    (hs : x.memcpy cfg t c = some x') : ByteInv cfg x' := by
  have hok := (hi.copies t c hc).1
  have hk := (hi.numbered t (by simp [hc])).1
  simp only [State.memcpy] at hs
  split at hs
  · rename_i slot hkind hp
    simp only [Option.ite_none_right_eq_some, Option.some.injEq] at hs
    obtain ⟨hj, rfl⟩ := hs
    have hlt : x.copied t < c.total - c.off := hj.trans_le (Nat.min_le_right ..)
    have haligned := hok.aligned hkind
    have hload : ByteInv cfg (x.load (x.call t, c.off / cfg.chunk) slot (x.copied t) .host
        ((x.job (x.call t)).host + c.off + x.copied t)) := by
      apply h.load hk
      · rw [hok.kind, hkind]
        rfl
      · rw [← haligned, Nat.add_assoc]
        rfl
      · rw [← haligned, hok.total]
        omega
    exact hload.congr ⟨rfl, rfl, rfl, rfl, rfl, rfl, rfl⟩
  · rename_i slot g hkind hp
    simp only [Option.ite_none_right_eq_some, Option.some.injEq] at hs
    obtain ⟨hj, rfl⟩ := hs
    have hlt : x.copied t < c.total - c.done * cfg.chunk := hj.trans_le (Nat.min_le_right ..)
    have hunload : ByteInv cfg (x.unload (x.call t, c.done) slot (x.copied t) .host
        ((x.job (x.call t)).host + c.done * cfg.chunk + x.copied t)) := by
      apply h.unload hk
      · rw [hok.kind, hkind]
        rfl
      · rw [Nat.add_assoc]
        rfl
      · exact hj.trans_le (Nat.min_le_left ..)
      · rw [hok.total]
        omega
    exact hunload.congr ⟨rfl, rfl, rfl, rfl, rfl, rfl, rfl⟩
  · cases hs

theorem ByteInv.dma (h : ByteInv cfg x) (hi : ChunkInv cfg x place) {chan : Chan}
    (hs : x.dma chan = some x') :
    ByteInv cfg x' := by
  simp only [State.dma] at hs
  cases hd : x.ring chan (x.pool.retired chan + 1) with
  | none => simp [hd] at hs
  | some d =>
    simp only [hd, Option.ite_none_right_eq_some, Option.some.injEq] at hs
    obtain ⟨hj, rfl⟩ := hs
    have he := hi.entry chan _ d hd
    have haddr : d.addr + x.moved chan =
        (x.job d.call).base .dev + (d.chunk * cfg.chunk + x.moved chan) := by
      rw [he.addr, Nat.add_assoc]
      rfl
    rw [he.size] at hj
    have hchunk : x.moved chan < cfg.chunk := hj.trans_le (Nat.min_le_left ..)
    have hlt : x.moved chan < (x.job d.call).total - d.chunk * cfg.chunk :=
      hj.trans_le (Nat.min_le_right ..)
    cases hk : d.kind with
    | h2d =>
      have hunload : ByteInv cfg (x.unload (d.call, d.chunk) d.slot (x.moved chan) .dev
          (d.addr + x.moved chan)) := by
        apply h.unload he.call ?_ haddr hchunk (by omega)
        rw [← he.kind, hk]
        rfl
      exact hunload.congr ⟨rfl, rfl, rfl, rfl, rfl, rfl, rfl⟩
    | d2h =>
      have hload : ByteInv cfg (x.load (d.call, d.chunk) d.slot (x.moved chan) .dev
          (d.addr + x.moved chan)) := by
        apply h.load he.call ?_ haddr (by omega)
        rw [← he.kind, hk]
        rfl
      exact hload.congr ⟨rfl, rfl, rfl, rfl, rfl, rfl, rfl⟩

theorem ChunkInv.untouched (h : ChunkInv cfg x place) {k q : ℕ}
    (hp : place (k, q) = .waiting) (j : ℕ) :
    x.reads (k, q) j = [] ∧ x.writes (k, q) j = [] := by
  have hw := h.relay.parcel (k, q)
  rw [show (x.relay place).place (k, q) = .waiting from hp] at hw
  exact hw j

theorem ByteInv.step (h : ByteInv cfg x) (hi : ChunkInv cfg x place)
    (hs : StagedCopy.step cfg x a = some x') :
    ByteInv cfg x' := by
  cases a with
  | submit t chan job =>
    obtain ⟨s, -, rfl⟩ := Option.map_eq_some_iff.mp hs
    have hjob : ∀ k, k ≠ x.calls → Function.update x.job x.calls job k = x.job k := fun k hk =>
      Function.update_of_ne hk ..
    have hempty : ∀ q j, x.reads (x.calls, q) j = [] ∧ x.writes (x.calls, q) j = [] := fun q j =>
      hi.untouched ((hi.fresh x.calls le_rfl).2 q) j
    have hold : ∀ k, k < x.calls + 1 → k ≠ x.calls → k < x.calls := by omega
    constructor
    · intro k hk htouched i hlt
      by_cases hkc : k = x.calls
      · subst hkc
        simp [State.source]
      · simp only [Function.update_of_ne hkc] at htouched hlt ⊢
        simp only [State.source, hjob k hkc]
        exact h.source k (hold k hk hkc) htouched i hlt
    · intro k hk htouched q j v hv
      by_cases hkc : k = x.calls
      · subst hkc
        simp [(hempty q j).1] at hv
      · simp only [Function.update_of_ne hkc] at htouched ⊢
        exact h.read k (hold k hk hkc) htouched q j v hv
    · intro k hk htouched q j v hv
      by_cases hkc : k = x.calls
      · subst hkc
        simp [(hempty q j).2] at hv
      · simp only [Function.update_of_ne hkc] at htouched
        simp only [State.dest, hjob k hkc]
        exact h.written k (hold k hk hkc) htouched q j v hv
    · intro k q j hne
      obtain ⟨hk, hj, hlt⟩ := h.inside k q j hne
      simp only [hjob k hk.ne]
      exact ⟨Nat.lt_succ_of_lt hk, hj, hlt⟩
  | run t =>
    simp only [StagedCopy.step] at hs
    split at hs
    · cases hs
    · next c hc =>
      simp only [Option.ite_none_right_eq_some] at hs
      obtain ⟨s, -, rfl⟩ := Option.map_eq_some_iff.mp hs.2
      refine h.congr ⟨?_, ?_, ?_, ?_, ?_, ?_, ?_⟩ <;>
        (simp only [State.finish, State.record]; split <;> rfl)
  | memcpy t =>
    obtain ⟨c, hc, hs⟩ := Option.bind_eq_some_iff.mp hs
    exact h.memcpy hi hc hs
  | publish chan =>
    obtain ⟨s, -, rfl⟩ := Option.map_eq_some_iff.mp hs
    exact h.congr ⟨rfl, rfl, rfl, rfl, rfl, rfl, rfl⟩
  | dma chan =>
    simp only [StagedCopy.step, Option.ite_none_right_eq_some] at hs
    exact h.dma hi hs.2
  | retire chan err =>
    simp only [StagedCopy.step, Option.ite_none_right_eq_some] at hs
    obtain ⟨s, -, rfl⟩ := Option.map_eq_some_iff.mp hs.2
    exact h.congr ⟨rfl, rfl, rfl, rfl, rfl, rfl, rfl⟩
  | store side b v =>
    obtain rfl := Option.some.inj hs
    exact h.store side b v

theorem reach_byteInv (h : Reach (step cfg) anyStep (init n mem) x) : ByteInv cfg x :=
  h.invariant_of (P := fun x => ByteInv cfg x) (fun _ => reach_chunkInv) (byteInv_init cfg mem)
    fun _ _ _ ⟨_, hi⟩ hb _ hs => hb.step hi hs

/-! ### Returned calls -/

theorem ChunkInv.chunk_delivered (h : ChunkInv cfg x place) {k : ℕ} (hk : x.result k = some true)
    (hsettled : x.Settled k) {q : ℕ} (hq : q < cfg.nchunks (x.job k).total) :
    place (k, q) = .delivered := by
  have hret := h.returned k hk
  cases hkind : (x.job k).kind with
  | d2h => exact hret.d2h hkind q hq
  | h2d =>
    obtain ⟨hfence, hclean⟩ := hsettled hkind
    obtain ⟨f, d, hd, hcall, hchunk, hf⟩ := hret.h2d hkind q hq
    have he := h.entry _ f d hd
    have hplace := he.retired (by rw [he.kind, hcall, hkind]) (hf.trans hfence)
      (hclean f d hd hcall)
    rwa [hcall, hchunk] at hplace

theorem byte_chunk (cfg : Config) {total i : ℕ} (hi : i < total) :
    i / cfg.chunk < cfg.nchunks total ∧ i % cfg.chunk < chunkSize cfg total (i / cfg.chunk) := by
  have hpos := cfg.chunk_pos
  have hsplit : i / cfg.chunk * cfg.chunk + i % cfg.chunk = i := Nat.div_add_mod' i cfg.chunk
  constructor
  · have hsucc : i / cfg.chunk + 1 ≤ cfg.nchunks total := by
      rw [← Nat.add_div_right _ hpos]
      exact Nat.div_le_div_right (by omega)
    exact hsucc
  · apply lt_min (Nat.mod_lt i hpos)
    omega

theorem ChunkInv.called (h : ChunkInv cfg x place) {k : ℕ} (hk : x.result k = some true) :
    k < x.calls := by
  by_contra hge
  rw [(h.fresh k (not_lt.mp hge)).1] at hk
  cases hk

theorem exact_of_inv (h : ChunkInv cfg x place) (hb : ByteInv cfg x) {k : ℕ}
    (hk : x.result k = some true)
    (hsettled : x.Settled k) : Exact cfg x k := by
  have hcalls := h.called hk
  have hdelivered : ∀ q < cfg.nchunks (x.job k).total,
      (∀ j < chunkSize cfg (x.job k).total q, ∃ v, x.reads (k, q) j = [v] ∧
        x.writes (k, q) j = [v]) ∧
        ∀ j, chunkSize cfg (x.job k).total q ≤ j → x.reads (k, q) j = [] ∧
          x.writes (k, q) j = [] := by
    intro q hq
    have hp := h.relay.parcel (k, q)
    rw [show (x.relay place).place (k, q) = .delivered from h.chunk_delivered hk hsettled hq] at hp
    exact hp
  refine ⟨fun q j hq hj => (hdelivered q hq).1 j hj, ?_, ?_⟩
  · intro q j hout
    obtain hq | hj := hout
    · exact h.untouched ((h.returned k hk).rest q hq) j
    · by_cases hq : q < cfg.nchunks (x.job k).total
      · exact (hdelivered q hq).2 j hj
      · exact h.untouched ((h.returned k hk).rest q (not_lt.mp hq)) j
  · intro htouched i hi
    have hsplit : i / cfg.chunk * cfg.chunk + i % cfg.chunk = i := Nat.div_add_mod' i cfg.chunk
    obtain ⟨hq, hj⟩ := byte_chunk cfg hi
    obtain ⟨v, hr, hw⟩ := (hdelivered _ hq).1 _ hj
    have hread := hb.read k hcalls htouched (i / cfg.chunk) (i % cfg.chunk) v (by simp [hr])
    have hwritten := hb.written k hcalls htouched (i / cfg.chunk) (i % cfg.chunk) v (by simp [hw])
    rw [hsplit] at hread hwritten
    exact ⟨hwritten.trans hread, hb.source k hcalls htouched i hi⟩

theorem settled_of_clean (h : Reach (step cfg) anyStep (init n mem) x)
    (hst : x.pool.sticky = false) {k : ℕ}
    (hret : Retired x.pool (x.fence k)) : x.Settled k := by
  obtain ⟨place, hi⟩ := reach_chunkInv h
  intro _
  refine ⟨hret, fun f d _ _ => ?_⟩
  rw [← Bool.not_eq_true]
  intro hf
  rw [(hi.failed _ f hf).1] at hst
  cases hst

/-- In every run, however the `memcpy`s, the DMAs and the stores of everything else interleave. -/
theorem staged_copies_exact (cfg : Config) (mem : Side → ℕ → UInt8) (x : State n)
    (h : Reach (step cfg) anyStep (init n mem) x) :
    RaceFree x ∧ ∀ k, x.result k = some true → x.Settled k → Exact cfg x k := by
  obtain ⟨place, hi⟩ := reach_chunkInv h
  exact ⟨hi.raceFree, fun k hk hsettled => exact_of_inv hi (reach_byteInv h) hk hsettled⟩

def smallConfig : Config := ⟨2, 2, 2, true, Nat.zero_lt_two, Nat.zero_lt_two, Nat.zero_lt_two⟩

def ramp : Side → ℕ → UInt8
  | .host, a => UInt8.ofNat (a + 1)
  | .dev, a => UInt8.ofNat (a + 2)

/-- Three bytes to the device and three from it, through two slots of two bytes. -/
def bothWays : List (Action 2) :=
  [.submit 0 (1, 0) ⟨.h2d, 0, 100, 3⟩, .run 0, .run 0, .run 0, .memcpy 0, .memcpy 0,
    .submit 1 (2, 0) ⟨.d2h, 50, 200, 3⟩, .run 0, .dma (1, 0), .run 1, .run 1,
      .run 0, .dma (1, 0), .run 1,
    .run 1, .dma (2, 0), .retire (1, 0) false, .run 0, .dma (2, 0), .run 0, .memcpy 0,
      .retire (2, 0) false,
    .run 0, .run 1, .memcpy 1, .dma (1, 0), .memcpy 1, .run 0, .retire (1, 0) false,
      .run 1, .run 1, .run 1,
    .run 1, .dma (2, 0), .retire (2, 0) false, .run 1, .memcpy 1, .run 1]

theorem staged_copies_exact_bothWays :
    ∃ x, exec (step smallConfig) (init 2 ramp) bothWays = some x ∧ RaceFree x ∧
      (List.range 3).map (x.dest 0) = [1, 2, 3] ∧ (List.range 3).map (x.dest 1) = [202, 203, 204] ∧
        Exact smallConfig x 0 ∧ Exact smallConfig x 1 := by
  have hrun : (exec (step smallConfig) (init 2 ramp) bothWays).map
      (fun x => ((x.result 0, x.result 1, x.pool.sticky),
        (decide ((x.fence 0).value ≤ x.pool.retired (x.fence 0).chan),
          decide ((x.fence 1).value ≤ x.pool.retired (x.fence 1).chan)),
          (List.range 3).map (x.dest 0), (List.range 3).map (x.dest 1))) =
      some ((some true, some true, false), (true, true), [1, 2, 3], [202, 203, 204]) := by
        decide +kernel
  obtain ⟨x, hx, hq⟩ := Option.map_eq_some_iff.mp hrun
  simp only [Prod.mk.injEq, decide_eq_true_eq] at hq
  obtain ⟨⟨hres, hres', hst⟩, ⟨hret, hret'⟩, hto, hfrom⟩ := hq
  have hreach : Reach (step smallConfig) anyStep (init 2 ramp) x := .of_exec .refl hx
  obtain ⟨hrace, hexact⟩ := staged_copies_exact smallConfig ramp x hreach
  exact ⟨x, hx, hrace, hto, hfrom, hexact 0 hres (settled_of_clean hreach hst hret),
    hexact 1 hres' (settled_of_clean hreach hst hret')⟩

end SoftGpu.StagedCopy
