import SoftGpu.StagedExact

/-!
# A staged copy is a direct copy

What a copy is for: one DMA between two ranges, which takes up each byte of the source once
and puts it down once. The staging pool, with its slots, its chunks and the commands of all
channels, refines it: what a run does to the two memories, a run of direct copies does with
the same calls and the same stores of everything else.
-/

namespace SoftGpu.DirectCopy
open Machine
open StagedCopy (Side Job sourceSide destSide put)

/-- `taken k i` is what copy `k` has read of its byte `i`, `stored k i` says that it has
written it. -/
structure State where
  mem : Side → ℕ → UInt8
  jobs : List Job
  taken : ℕ → ℕ → Option UInt8
  stored : ℕ → ℕ → Bool

def init (mem : Side → ℕ → UInt8) : State := ⟨mem, [], fun _ _ => none, fun _ _ => false⟩

inductive Action
  | submit (job : Job)
  | read (k i : ℕ)
  | write (k i : ℕ)
  | store (side : Side) (a : ℕ) (v : UInt8)

def step (y : State) : Action → Option State
  | .submit job => some { y with jobs := y.jobs ++ [job] }
  | .read k i =>
    match y.jobs[k]?, y.taken k i with
    | some job, none =>
      if i < job.total then
        let v := y.mem (sourceSide job.kind) (job.base (sourceSide job.kind) + i)
        some { y with taken := put y.taken k i (some v) }
      else none
    | _, _ => none
  | .write k i =>
    match y.jobs[k]?, y.taken k i with
    | some job, some v =>
      if y.stored k i then none
      else
        some { y with
          mem := put y.mem (destSide job.kind) (job.base (destSide job.kind) + i) v
          stored := put y.stored k i true }
    | _, _ => none
  | .store side a v => some { y with mem := put y.mem side a v }

def State.Complete (y : State) (k : ℕ) : Prop :=
  ∃ job, y.jobs[k]? = some job ∧ ∀ i < job.total, y.stored k i = true

/-- The calls, and the stores of everything else. -/
inductive Event
  | submit (job : Job)
  | store (side : Side) (a : ℕ) (v : UInt8)

def Action.event : Action → Option Event
  | .submit job => some (.submit job)
  | .store side a v => some (.store side a v)
  | _ => none

end SoftGpu.DirectCopy

namespace SoftGpu.StagedCopy
open Machine Staging
open Relay (Place)

variable {n : ℕ} {cfg : Config} {x x' : State n} {place : ℕ × ℕ → Place ℕ} {t : Fin n} {c : Copy}
  {a : Action n} {mem : Side → ℕ → UInt8}

def Action.event : Action n → Option DirectCopy.Event
  | .submit _ _ job => some (.submit job)
  | .store side a v => some (.store side a v)
  | _ => none

/-- The copies as direct ones. -/
def State.direct (cfg : Config) (x : State n) : DirectCopy.State where
  mem := x.mem
  jobs := (List.range x.calls).map x.job
  taken := fun k i => (x.reads (k, i / cfg.chunk) (i % cfg.chunk)).head?
  stored := fun k i => !(x.writes (k, i / cfg.chunk) (i % cfg.chunk)).isEmpty

theorem direct_init (cfg : Config) (mem : Side → ℕ → UInt8) :
    (init n mem).direct cfg = DirectCopy.init mem := rfl

theorem SameBytes.direct (h : SameBytes x x') : x'.direct cfg = x.direct cfg := by
  simp only [State.direct, h.mem, h.calls, h.job, h.reads, h.writes]

/-- The byte `j` of chunk `q` is byte `q * chunk + j` of the copy. -/
theorem put_chunk {γ δ : Type*} (cfg : Config) (f : ℕ × ℕ → ℕ → γ) (g : γ → δ) {k q j : ℕ}
    (hj : j < cfg.chunk) (v : γ) :
    (fun k' i => g (put f (k, q) j v (k', i / cfg.chunk) (i % cfg.chunk))) =
      put (fun k' i => g (f (k', i / cfg.chunk) (i % cfg.chunk))) k (q * cfg.chunk + j) (g v) := by
  obtain ⟨hdiv, hmod⟩ := chunk_div_mod (q := q) hj
  funext k' i
  by_cases heq : (k', i) = (k, q * cfg.chunk + j)
  · rw [Prod.mk.injEq] at heq
    obtain ⟨rfl, rfl⟩ := heq
    rw [hdiv, hmod, put_self, put_self]
  · rw [put_of_ne _ _ heq, put_of_ne]
    intro hsame
    simp only [Prod.mk.injEq] at hsame
    obtain ⟨⟨rfl, rfl⟩, rfl⟩ := hsame
    rw [Nat.div_add_mod'] at heq
    exact heq rfl

theorem direct_jobs (cfg : Config) {k : ℕ} (hk : k < x.calls) :
    (x.direct cfg).jobs[k]? = some (x.job k) := by
  simp [State.direct, hk]

theorem direct_load {k q slot j b : ℕ} {side : Side} (hk : k < x.calls)
    (hside : side = sourceSide (x.job k).kind) (hb : b = (x.job k).base side + (q * cfg.chunk + j))
    (hj : j < cfg.chunk) (hi : q * cfg.chunk + j < (x.job k).total) (hnil : x.reads (k, q) j = []) :
    DirectCopy.step (x.direct cfg) (.read k (q * cfg.chunk + j)) =
      some ((x.load (k, q) slot j side b).direct cfg) := by
  obtain ⟨hdiv, hmod⟩ := chunk_div_mod (q := q) hj
  have hjob := direct_jobs cfg hk
  have htaken : (x.direct cfg).taken k (q * cfg.chunk + j) = none := by
    simp only [State.direct, hdiv, hmod, hnil, List.head?_nil]
  have hnew : ((x.load (k, q) slot j side b).direct cfg).taken =
      put (x.direct cfg).taken k (q * cfg.chunk + j) (some (x.mem side b)) := by
    have hput := put_chunk cfg x.reads List.head? hj (k := k) (q := q)
      (x.reads (k, q) j ++ [x.mem side b])
    rw [hnil, List.nil_append, List.head?_cons] at hput
    simpa only [State.direct, load_reads, hnil, List.nil_append] using hput
  simp only [DirectCopy.step, hjob, htaken, if_pos hi, Option.some.injEq]
  rw [← hside, ← hb]
  exact congrArg (fun f => { x.direct cfg with taken := f }) hnew.symm

theorem direct_unload {k q slot j b : ℕ} {side : Side} (hk : k < x.calls)
    (hside : side = destSide (x.job k).kind) (hb : b = (x.job k).base side + (q * cfg.chunk + j))
    (hj : j < cfg.chunk) (hread : x.reads (k, q) j = [x.slots slot j])
    (hnil : x.writes (k, q) j = []) :
    DirectCopy.step (x.direct cfg) (.write k (q * cfg.chunk + j)) =
      some ((x.unload (k, q) slot j side b).direct cfg) := by
  obtain ⟨hdiv, hmod⟩ := chunk_div_mod (q := q) hj
  have hjob := direct_jobs cfg hk
  have htaken : (x.direct cfg).taken k (q * cfg.chunk + j) = some (x.slots slot j) := by
    simp only [State.direct, hdiv, hmod, hread, List.head?_cons]
  have hstored : (x.direct cfg).stored k (q * cfg.chunk + j) = false := by
    simp only [State.direct, hdiv, hmod, hnil, List.isEmpty_nil, Bool.not_true]
  have hnew : ((x.unload (k, q) slot j side b).direct cfg).stored =
      put (x.direct cfg).stored k (q * cfg.chunk + j) true := by
    have hput := put_chunk cfg x.writes (fun l => !l.isEmpty) hj (k := k) (q := q)
      (x.writes (k, q) j ++ [x.slots slot j])
    simpa [State.direct, hnil] using hput
  simp only [DirectCopy.step, hjob, htaken, hstored, Bool.false_eq_true, if_false,
    Option.some.injEq]
  rw [← hside, ← hb]
  exact congrArg (fun f => { x.direct cfg with
    mem := put x.mem side b (x.slots slot j), stored := f }) hnew.symm

/-! ### The steps -/

theorem ChunkInv.untaken (h : ChunkInv cfg x place) {p : ℕ × ℕ} {slot m b : ℕ}
    (hp : place p = .aboard slot m b) : x.reads p m = [] := by
  have hat := h.relay.parcel p
  rw [show (x.relay place).place p = .aboard slot m b from hp] at hat
  exact (hat.2.2.2.2 m le_rfl).1

theorem ChunkInv.carried (h : ChunkInv cfg x place) {p : ℕ × ℕ} {slot m b : ℕ}
    (hp : place p = .aboard slot m b) (hb : b < m) :
    x.reads p b = [x.slots slot b] ∧ x.writes p b = [] := by
  have hat := h.relay.parcel p
  rw [show (x.relay place).place p = .aboard slot m b from hp] at hat
  exact hat.2.2.2.1 b le_rfl hb

theorem direct_memcpy (h : ChunkInv cfg x place) (hc : x.pool.copies t = some c)
    (hs : x.memcpy cfg t c = some x') :
    ∃ b : DirectCopy.Action, b.event = none ∧
      DirectCopy.step (x.direct cfg) b = some (x'.direct cfg) := by
  have hok := (h.copies t c hc).1
  have hk := (h.numbered t (by simp [hc])).1
  simp only [State.memcpy] at hs
  split at hs
  · rename_i slot hkind hp
    simp only [Option.ite_none_right_eq_some, Option.some.injEq] at hs
    obtain ⟨hj, rfl⟩ := hs
    have hlt : x.copied t < c.total - c.off := hj.trans_le (Nat.min_le_right ..)
    have haligned := hok.aligned hkind
    refine ⟨.read (x.call t) (c.off / cfg.chunk * cfg.chunk + x.copied t), rfl, ?_⟩
    apply direct_load hk
    · rw [hok.kind, hkind]
      rfl
    · rw [← haligned, Nat.add_assoc]
      rfl
    · exact hj.trans_le (Nat.min_le_left ..)
    · rw [← haligned, hok.total]
      omega
    · exact h.untaken (hok.filling slot hp hkind)
  · rename_i slot g hkind hp
    simp only [Option.ite_none_right_eq_some, Option.some.injEq] at hs
    obtain ⟨hj, rfl⟩ := hs
    have hlen : x.copied t < x.len cfg (x.call t, c.done) := by
      rw [State.len, hok.total]
      exact hj
    obtain ⟨hread, hwrite⟩ := h.carried (hok.emptying slot g hp hkind) hlen
    refine ⟨.write (x.call t) (c.done * cfg.chunk + x.copied t), rfl, ?_⟩
    apply direct_unload hk ?_ ?_ (hj.trans_le (Nat.min_le_left ..)) hread hwrite
    · rw [hok.kind, hkind]
      rfl
    · rw [Nat.add_assoc]
      rfl
  · cases hs

theorem direct_dma (h : ChunkInv cfg x place) {chan : Chan} (hs : x.dma chan = some x') :
    ∃ b : DirectCopy.Action, b.event = none ∧
      DirectCopy.step (x.direct cfg) b = some (x'.direct cfg) := by
  simp only [State.dma] at hs
  cases hd : x.ring chan (x.pool.retired chan + 1) with
  | none => simp [hd] at hs
  | some d =>
    simp only [hd, Option.ite_none_right_eq_some, Option.some.injEq] at hs
    obtain ⟨hj, rfl⟩ := hs
    have he := h.entry chan _ d hd
    have hnow : x.progress chan (x.pool.retired chan + 1) d.size = x.moved chan := by
      simp [State.progress]
    have haddr : d.addr + x.moved chan =
        (x.job d.call).base .dev + (d.chunk * cfg.chunk + x.moved chan) := by
      rw [he.addr, Nat.add_assoc]
      rfl
    have hlt : x.moved chan < chunkSize cfg (x.job d.call).total d.chunk := by
      rw [he.size] at hj
      exact hj
    have hchunk : x.moved chan < cfg.chunk := hlt.trans_le (Nat.min_le_left ..)
    cases hk : d.kind with
    | h2d =>
      have hplace := he.h2d hk (Nat.lt_succ_self _)
      rw [hnow] at hplace
      obtain ⟨hread, hwrite⟩ := h.carried hplace hj
      refine ⟨.write d.call (d.chunk * cfg.chunk + x.moved chan), rfl, ?_⟩
      apply direct_unload he.call ?_ haddr hchunk hread hwrite
      rw [← he.kind, hk]
      rfl
    | d2h =>
      have hplace := he.d2h hk (h.unretired_live d (Nat.lt_succ_self (x.pool.retired chan)))
      rw [hnow] at hplace
      refine ⟨.read d.call (d.chunk * cfg.chunk + x.moved chan), rfl, ?_⟩
      apply direct_load he.call ?_ haddr hchunk ?_ (h.untaken hplace)
      · rw [← he.kind, hk]
        rfl
      · have hrest : x.moved chan < (x.job d.call).total - d.chunk * cfg.chunk :=
          hlt.trans_le (Nat.min_le_right ..)
        omega

theorem direct_step (h : ChunkInv cfg x place) (hs : step cfg x a = some x') :
    a.event = none ∧ x'.direct cfg = x.direct cfg ∨ ∃ b : DirectCopy.Action,
      b.event = a.event ∧ DirectCopy.step (x.direct cfg) b = some (x'.direct cfg) := by
  cases a with
  | submit t chan job =>
    obtain ⟨s, -, rfl⟩ := Option.map_eq_some_iff.mp hs
    refine .inr ⟨.submit job, rfl, ?_⟩
    have hjobs : (List.range (x.calls + 1)).map (Function.update x.job x.calls job) =
        (List.range x.calls).map x.job ++ [job] := by
      rw [List.range_succ, List.map_append, List.map_singleton, Function.update_self]
      congr 1
      apply List.map_congr_left
      intro k hk
      exact Function.update_of_ne (List.mem_range.mp hk).ne ..
    simp only [DirectCopy.step, State.direct, hjobs]
  | run t =>
    simp only [StagedCopy.step] at hs
    split at hs
    · cases hs
    · next c hc =>
      simp only [Option.ite_none_right_eq_some] at hs
      obtain ⟨s, -, rfl⟩ := Option.map_eq_some_iff.mp hs.2
      refine .inl ⟨rfl, SameBytes.direct ⟨?_, ?_, ?_, ?_, ?_, ?_, ?_⟩⟩ <;>
        (simp only [State.finish, State.record]; split <;> rfl)
  | memcpy t =>
    obtain ⟨c, hc, hs⟩ := Option.bind_eq_some_iff.mp hs
    exact .inr (direct_memcpy h hc hs)
  | publish chan =>
    obtain ⟨s, -, rfl⟩ := Option.map_eq_some_iff.mp hs
    exact .inl ⟨rfl, rfl⟩
  | dma chan =>
    simp only [StagedCopy.step, Option.ite_none_right_eq_some] at hs
    exact .inr (direct_dma h hs.2)
  | retire chan err =>
    simp only [StagedCopy.step, Option.ite_none_right_eq_some] at hs
    obtain ⟨s, -, rfl⟩ := Option.map_eq_some_iff.mp hs.2
    exact .inl ⟨rfl, rfl⟩
  | store side b v =>
    obtain rfl := Option.some.inj hs
    exact .inr ⟨.store side b v, rfl, rfl⟩

theorem direct_complete (h : ChunkInv cfg x place) {k : ℕ} (hk : x.result k = some true)
    (hexact : Exact cfg x k) : (x.direct cfg).Complete k := by
  refine ⟨x.job k, direct_jobs cfg (h.called hk), fun i hi => ?_⟩
  obtain ⟨hq, hj⟩ := byte_chunk cfg hi
  obtain ⟨v, -, hw⟩ := hexact.once _ _ hq hj
  simp [State.direct, hw]

/-- Every run of the staging pool is, seen from the two memories, a run of direct copies. -/
theorem staged_refines_direct (cfg : Config) (mem : Side → ℕ → UInt8) (as : List (Action n))
    (x : State n) (h : exec (step cfg) (init n mem) as = some x) :
    RaceFree x ∧ ∃ bs y, exec DirectCopy.step (DirectCopy.init mem) bs = some y ∧
      bs.filterMap DirectCopy.Action.event = as.filterMap Action.event ∧ y.mem = x.mem ∧
      ∀ k, x.result k = some true → x.Settled k → y.Complete k := by
  have hreach : Reach (step cfg) anyStep (init n mem) x := .of_exec .refl h
  obtain ⟨place, hi⟩ := reach_chunkInv hreach
  obtain ⟨bs, hbs, hsee⟩ := exec_refines (fun x => ∃ place, ChunkInv cfg x place)
    (State.direct cfg) Action.event DirectCopy.Action.event (fun _ _ _ ⟨_, hc⟩ hs => hc.step hs)
    (fun _ _ _ ⟨_, hc⟩ hs => direct_step hc hs) ⟨_, chunkInv_init cfg mem⟩ h
  rw [direct_init] at hbs
  exact ⟨hi.raceFree, bs, x.direct cfg, hbs, hsee, rfl, fun k hk hsettled =>
    direct_complete hi hk (exact_of_inv hi (reach_byteInv hreach) hk hsettled)⟩

theorem staged_refines_direct_bothWays :
    ∃ x, exec (step smallConfig) (init 2 ramp) bothWays = some x ∧ RaceFree x ∧
      ∃ bs y, exec DirectCopy.step (DirectCopy.init ramp) bs = some y ∧ y.mem = x.mem ∧
        y.Complete 0 ∧ y.Complete 1 := by
  have hrun : (exec (step smallConfig) (init 2 ramp) bothWays).map
      (fun x => (x.result 0, x.result 1, x.pool.sticky,
        decide ((x.fence 0).value ≤ x.pool.retired (x.fence 0).chan),
        decide ((x.fence 1).value ≤ x.pool.retired (x.fence 1).chan))) =
      some (some true, some true, false, true, true) := by
    decide +kernel
  obtain ⟨x, hx, hq⟩ := Option.map_eq_some_iff.mp hrun
  simp only [Prod.mk.injEq, decide_eq_true_eq] at hq
  obtain ⟨hres, hres', hst, hret, hret'⟩ := hq
  have hreach : Reach (step smallConfig) anyStep (init 2 ramp) x := .of_exec .refl hx
  obtain ⟨hrace, bs, y, hy, -, hmem, hdone⟩ := staged_refines_direct smallConfig ramp bothWays x hx
  exact ⟨x, hx, hrace, bs, y, hy, hmem, hdone 0 hres (settled_of_clean hreach hst hret),
    hdone 1 hres' (settled_of_clean hreach hst hret')⟩

/-- Three bytes in two chunks, the first of which fails after the second has been submitted. -/
def failing : List (Action 1) :=
  [.submit 0 (1, 0) ⟨.h2d, 0, 100, 3⟩, .run 0, .run 0, .run 0, .memcpy 0, .memcpy 0, .run 0, .run 0,
    .run 0, .run 0, .memcpy 0, .run 0, .run 0,
    .retire (1, 0) true, .dma (1, 0), .retire (1, 0) false]

/-- The second chunk arrives without the first; one DMA that stops at an error leaves a prefix. -/
theorem failed_chunk_leaves_no_prefix :
    ∃ x, exec (step smallConfig) (init 1 ramp) failing = some x ∧ x.result 0 = some true ∧
      (x.fence 0).value ≤ x.pool.retired (x.fence 0).chan ∧
      ¬∃ p, ∀ i < 3, x.dest 0 i = if i < p then x.orig 0 i else ramp .dev (100 + i) := by
  have hrun : (exec (step smallConfig) (init 1 ramp) failing).map
      (fun x => (x.result 0, decide ((x.fence 0).value ≤ x.pool.retired (x.fence 0).chan),
        (x.dest 0 0, x.orig 0 0), x.dest 0 2)) = some (some true, true, (102, 1), 3) := by
    decide +kernel
  obtain ⟨x, hx, hq⟩ := Option.map_eq_some_iff.mp hrun
  simp only [Prod.mk.injEq, decide_eq_true_eq] at hq
  obtain ⟨hres, hret, ⟨hfirst, horig⟩, hlast⟩ := hq
  refine ⟨x, hx, hres, hret, ?_⟩
  rintro ⟨p, hp⟩
  have hzero := hp 0 (by decide)
  have htwo := hp 2 (by decide)
  cases p with
  | zero =>
    rw [hlast, if_neg (by decide)] at htwo
    exact absurd htwo (by decide)
  | succ p =>
    rw [hfirst, horig] at hzero
    exact absurd hzero (by simp)

end SoftGpu.StagedCopy
