import SoftGpu.Attempts
import SoftGpu.Clock
import SoftGpu.Driver
import SoftGpu.Tiling
import Mathlib.Algebra.BigOperators.Group.Finset.Piecewise
import Mathlib.Order.Interval.Finset.Nat

/-!
# The retry loop of a faulting command

One channel that runs alone: an attempt faults, the fault thread migrates the page and
unparks the channel, and the next attempt goes on from the replay state. A fault that
continues one of the channel's streams starts a prefetch, which goes on a page at a time
while the channel already runs again; a fault that comes meanwhile waits for its end.

Nobody else sets reference bits, and pages that are evicted are published. The CLOCK
list, its reference bits and the frames that are left are a queue in the sense of
`Clock`, and the loop is a client of it.
-/

namespace SoftGpu.Retry

open Machine Exec
open Driver (FaultStream matchStream)

structure Ahead where
  stream : ℕ
  page : ℕ
  va : ℕ
  stop : ℕ
  left : ℕ

structure State where
  world : World
  replay : Replay
  fault : Option ℕ
  ahead : Option Ahead
  streams : List FaultStream
  clock : ℕ
  retired : Option (Outcome Unit)

def State.mem (s : State) : Mem := s.world.mem

def State.setMem (s : State) (m : Mem) : State := { s with world := ⟨m, s.world.host⟩ }

def State.start (w : World) (streams : List FaultStream) (clock : ℕ) : State :=
  ⟨w, .init, none, none, streams, clock, none⟩

inductive Action
  | attempt
  | service (env : Env)
  | prefetch (env : Env)

namespace State

def attempt (fl : Floats) (engine : ℕ) (c : Cmd) (s : State) : State :=
  match execute fl engine s.world s.replay c with
  | (.pageFault va, r, w) => { s with world := w, replay := r, fault := some va }
  | (o, r, w) => { s with world := w, replay := r.reset, retired := some o }

def beginAhead (s : State) (stream va : ℕ) : Option Ahead :=
  (s.mem.ranges.atMost (va + pageSize)).map fun e =>
    ⟨stream, va / pageSize, va + pageSize, e.2.stop, s.mem.prefetchBudget⟩

def service (s : State) (f : ℕ) (env : Env) : State :=
  let va := f / pageSize * pageSize
  match s.mem.migrateLocked va env with
  | (.error e, m) => { s.setMem m with fault := none, retired := some (.error e) }
  | (.ok false, m) => { s.setMem m with fault := none }
  | (.ok true, m) =>
    let (i, sequential) := matchStream s.streams va
    let t := { s.setMem m with
      fault := none
      streams := s.streams.set i ⟨va + pageSize, s.clock + 1⟩
      clock := s.clock + 1 }
    if sequential && m.prefetchPages ≠ 0 then { t with ahead := t.beginAhead i va } else t

def endAhead (s : State) (p : Ahead) : State :=
  { s with
    ahead := none
    streams := s.streams.modify p.stream fun f => { f with next := p.va } }

def prefetch (s : State) (p : Ahead) (env : Env) : State :=
  match p.left with
  | 0 => s.endAhead p
  | k + 1 =>
    if p.va < p.stop then
      match s.mem.migrateLocked p.va env with
      | (.error _, m) => (s.setMem m).endAhead p
      | (.ok _, m) => { s.setMem m with ahead := some { p with va := p.va + pageSize, left := k } }
    else s.endAhead p

end State

def step (fl : Floats) (engine : ℕ) (c : Cmd) (s : State) (a : Action) : Option State :=
  if s.retired.isSome then none
  else match a with
  | .attempt => if s.fault.isSome then none else some (s.attempt fl engine c)
  | .service env =>
    match s.fault, s.ahead with
    | some f, none => some (s.service f env)
    | _, _ => none
  | .prefetch env =>
    match s.ahead with
    | some p => some (s.prefetch p env)
    | none => none

def quietEnv (env : Env) : Prop := env.copyError = none ∧ env.referenced = fun _ => false

def alone (_ : State) : Action → Prop
  | .attempt => True
  | .service env | .prefetch env => quietEnv env

/-- No run goes on for ever, and one that stops has retired the command. -/
def Retires (fl : Floats) (engine : ℕ) (c : Cmd) (s : State) : Prop :=
  Acc (fun t s => ∃ a, alone s a ∧ step fl engine c s a = some t) s ∧
  ∀ t, Reach (step fl engine c) alone s t → t.retired = none →
    ∃ a t', alone t a ∧ step fl engine c t a = some t'

/-! ### The queue -/

def pages (l : List (ℕ × ℕ)) : List ℕ := l.map fun e => e.2 / pageSize

def queue (m : Mem) : Clock.Queue ℕ := ⟨pages m.resident, fun v => (m.mmu.pte v).accessed⟩

def freeFrames (m : Mem) : ℕ := (m.vramSize - m.vram.liveBytes) / pageSize

def capacity (m : Mem) : ℕ := freeFrames m + m.resident.length

variable {m m' : Mem} {loose blocks : List (ℕ × ℕ)} {regions : List Region} {va v : ℕ} {env : Env}

theorem mem_pages (h : MemInv m loose blocks regions) :
    v ∈ pages m.resident ↔ m.mmu.vramPages ≤ v ∧ (m.mmu.pte v).inVram = true := by
  simp only [pages, List.mem_map]
  constructor
  · rintro ⟨e, he, rfl⟩
    obtain ⟨-, hv, hin⟩ := h.clock.entry e he
    exact ⟨hv, hin⟩
  · rintro ⟨hv, hin⟩
    obtain ⟨e, he, heq⟩ := List.mem_map.mp (h.clock.all v hv hin)
    exact ⟨e, he, by rw [heq, mul_div_pageSize]⟩

theorem pages_nodup (h : MemInv m loose blocks regions) : (pages m.resident).Nodup := by
  refine List.Nodup.map_on (fun d hd e he heq => h.resident_vpn hd he heq) ?_
  exact h.clock.vas.of_map

/-! ### Free frames -/

section
open VramAllocator
variable {a a' : VramAllocator} {size pa : ℕ}

theorem sum_covers {b : ℕ × ℕ} (h : b.1 + b.2 ≤ size) :
    ∑ x ∈ Finset.range size, covers b x = b.2 := by
  simp only [covers]
  rw [← Finset.card_filter]
  have heq : (Finset.range size).filter (fun x => b.1 ≤ x ∧ x < b.1 + b.2) =
      Finset.Ico b.1 (b.1 + b.2) := by
    ext x
    simp only [Finset.mem_filter, Finset.mem_range, Finset.mem_Ico]
    omega
  rw [heq, Nat.card_Ico]
  omega

theorem sum_coverage {l : List (ℕ × ℕ)} (h : ∀ b ∈ l, b.1 + b.2 ≤ size) :
    ∑ x ∈ Finset.range size, coverage l x = (l.map Prod.snd).sum := by
  induction l with
  | nil => simp
  | cons b l ih =>
    simp only [coverage_cons, Finset.sum_add_distrib, List.map_cons, List.sum_cons]
    rw [sum_covers (h b List.mem_cons_self), ih fun c hc => h c (List.mem_cons_of_mem b hc)]

theorem liveBytes_sum (h : a.WF 0 size) :
    a.liveBytes = ∑ x ∈ Finset.range size, coverage a.live.entries x := by
  rw [h.bytes, sum_coverage]
  intro b hb
  have := (h.live_in_range hb).2
  omega

theorem liveBytes_le (h : a.WF 0 size) : a.liveBytes ≤ size := by
  have hle := Finset.sum_le_card_nsmul (Finset.range size) (coverage a.live.entries) 1
    fun x _ => h.live_at_most
  rw [liveBytes_sum h]
  simpa using hle

theorem liveBytes_eq (h : a.WF 0 size) (hfree : a.free.entries = []) : a.liveBytes = size := by
  have hone : ∀ x ∈ Finset.range size, coverage a.live.entries x = 1 := by
    intro x hx
    have hcov := h.cover x
    rwa [hfree, coverage_nil, Nat.zero_add, if_pos ⟨Nat.zero_le x, by simpa using hx⟩] at hcov
  rw [liveBytes_sum h, Finset.sum_congr rfl hone]
  simp

end

theorem roundUp_pageSize : VramAllocator.roundUp pageSize pageSize = pageSize := by
  simp [VramAllocator.roundUp, pageSize]

theorem allocFrame_some {pa : ℕ} (h : MemInv m loose blocks regions)
    (hs : m.allocFrame pageSize = some (pa, m')) :
    m' = { m with vram := m'.vram } ∧ freeFrames m = freeFrames m' + 1 := by
  have hi := h.allocFrame hs (by rw [roundUp_pageSize]; exact pageSize_pos)
  simp only [Mem.allocFrame, Option.map_eq_some_iff] at hs
  obtain ⟨⟨x, vram⟩, hal, heq⟩ := hs
  rw [Prod.mk.injEq] at heq
  obtain ⟨rfl, rfl⟩ := heq
  obtain ⟨-, len, -, -, hvram⟩ := VramAllocator.alloc_eq_some hal
  have hbytes : vram.liveBytes = m.vram.liveBytes + pageSize := by
    rw [hvram, h.align, roundUp_pageSize]
  have hle : vram.liveBytes ≤ m.vramSize := liveBytes_le (MemInv.wf hi)
  refine ⟨rfl, ?_⟩
  have hsub : m.vramSize - m.vram.liveBytes = m.vramSize - vram.liveBytes + pageSize := by omega
  rw [freeFrames, hsub, Nat.add_div_right _ pageSize_pos]
  rfl

theorem allocFrame_none (h : MemInv m loose blocks regions) (hs : m.allocFrame pageSize = none) :
    freeFrames m = 0 := by
  simp only [Mem.allocFrame, Option.map_eq_none_iff, VramAllocator.alloc_eq_none pageSize_pos,
    h.align, roundUp_pageSize] at hs
  have hfree : m.vram.free.entries = [] := by
    rw [List.eq_nil_iff_forall_not_mem]
    intro b hb
    obtain ⟨-, hdvd, hpos⟩ := h.wf.free_block b hb
    rw [h.align] at hdvd
    have hle := Nat.le_of_dvd hpos hdvd
    have hlt := hs b hb
    omega
  rw [freeFrames, liveBytes_eq h.wf hfree, Nat.sub_self, Nat.zero_div]

/-! ### The hand -/

theorem orFlags_false (mmu : Mmu) (va : ℕ) : mmu.orFlags va false false = mmu := by
  simp [Mmu.orFlags, Mmu.setPte]

theorem testAndClearAccessed_eq {mmu : Mmu} (h : va / pageSize < mmu.npages) :
    mmu.testAndClearAccessed va = ((mmu.pte (va / pageSize)).accessed,
      mmu.setPte (va / pageSize) { mmu.pte (va / pageSize) with accessed := false }) := by
  rw [Mmu.testAndClearAccessed]
  exact if_neg (Nat.not_le.mpr h)

theorem accessed_setPte (mmu : Mmu) (v : ℕ) (p : Pte) :
    (fun w => ((mmu.setPte v p).pte w).accessed) =
      Function.update (fun w => (mmu.pte w).accessed) v p.accessed := by
  funext w
  by_cases hw : w = v
  · subst hw
    simp
  · simp [Function.update_of_ne hw]

theorem passHand_frame (m : Mem) (ref : ℕ → Bool) (n : ℕ) :
    (m.passHand ref n).vram = m.vram ∧ (m.passHand ref n).resident.length = m.resident.length := by
  induction n generalizing m with
  | zero => exact ⟨rfl, rfl⟩
  | succ n ih =>
    simp only [Mem.passHand]
    split
    · exact ⟨rfl, rfl⟩
    · next e rest hres =>
      split_ifs
      · obtain ⟨hvram, hlen⟩ := ih { m with
          mmu := ((m.mmu.orFlags e.2 false (ref n)).testAndClearAccessed e.2).2
          resident := rest ++ [e] }
        refine ⟨hvram, hlen.trans ?_⟩
        simp [hres]
      · exact ⟨rfl, rfl⟩

theorem passHand_sweep (h : MemInv m loose blocks regions) (hne : m.resident ≠ []) (n : ℕ)
    (hclear : ∀ e ∈ m.resident.drop n, (m.mmu.pte (e.2 / pageSize)).accessed = false) :
    ∃ e rest k, (m.passHand (fun _ => false) n).resident = e :: rest ∧
      ((m.passHand (fun _ => false) n).mmu.pte (e.2 / pageSize)).accessed = false ∧
      Clock.Sweep (queue m) (e.2 / pageSize)
        ⟨pages rest, fun v => ((m.passHand (fun _ => false) n).mmu.pte v).accessed⟩ k := by
  induction n generalizing m with
  | zero =>
    obtain ⟨e, rest, hres⟩ := List.exists_cons_of_ne_nil hne
    have hacc : (m.mmu.pte (e.2 / pageSize)).accessed = false := hclear e (by simp [hres])
    refine ⟨e, rest, 1, hres, hacc, ?_⟩
    have hq : queue m = ⟨e.2 / pageSize :: pages rest, fun v => (m.mmu.pte v).accessed⟩ := by
      simp [queue, pages, hres]
    rw [hq]
    exact .take hacc
  | succ n ih =>
    obtain ⟨e, rest, hres⟩ := List.exists_cons_of_ne_nil hne
    obtain ⟨hva, hv, hin⟩ := h.clock.entry e (by simp [hres])
    have hn := (h.managed_page hv (h.table.valid _ hin)).1
    have hq : queue m = ⟨e.2 / pageSize :: pages rest, fun v => (m.mmu.pte v).accessed⟩ := by
      simp [queue, pages, hres]
    have hupd := accessed_setPte m.mmu (e.2 / pageSize)
      { m.mmu.pte (e.2 / pageSize) with accessed := false }
    simp only [Mem.passHand, hres, orFlags_false, testAndClearAccessed_eq hn]
    by_cases hacc : (m.mmu.pte (e.2 / pageSize)).accessed = true
    · rw [if_pos hacc]
      have hsame : Mmu.Same m.mmu (m.mmu.setPte (e.2 / pageSize)
          { m.mmu.pte (e.2 / pageSize) with accessed := false }) := .update rfl rfl rfl
      have hperm : (rest ++ [e]).Perm m.resident := by
        rw [hres]
        exact List.perm_append_singleton e rest
      have hnd : m.resident.Nodup := h.clock.vas.of_map
      rw [hres, List.nodup_cons] at hnd
      obtain ⟨d, rest', k, hd, hdacc, hsweep⟩ := ih (h.same hsame hperm) (by simp) (by
        intro x hx
        rw [List.drop_append, List.mem_append] at hx
        dsimp only
        obtain hx | hx := hx
        · have hxr : x ∈ rest := List.mem_of_mem_drop hx
          have hne' : x.2 / pageSize ≠ e.2 / pageSize := by
            intro heq
            have hxe : x = e := h.resident_vpn (by simp [hres, hxr]) (by simp [hres]) heq
            exact hnd.1 (hxe ▸ hxr)
          rw [Mmu.setPte_pte, Function.update_of_ne hne']
          exact hclear x (by simpa [hres] using hx)
        · rw [List.mem_singleton.mp (List.mem_of_mem_drop hx), Mmu.setPte_pte,
            Function.update_self])
      refine ⟨d, rest', k + 1, hd, hdacc, ?_⟩
      rw [hq]
      refine .pass hacc ?_
      simpa only [queue, pages, List.map_append, List.map_cons, List.map_nil, hupd] using hsweep
    · rw [if_neg hacc]
      rw [Bool.not_eq_true] at hacc
      have hself : Function.update (fun w => (m.mmu.pte w).accessed) (e.2 / pageSize) false =
          fun w => (m.mmu.pte w).accessed := by
        rw [← hacc]
        exact Function.update_eq_self _ _
      refine ⟨e, rest, 1, rfl, by simp, ?_⟩
      rw [hq]
      simp only [hupd, hself]
      exact .take hacc

/-! ### Migration -/

theorem filter_front {e : ℕ × ℕ} {rest : List (ℕ × ℕ)} (h : ((e :: rest).map Prod.fst).Nodup) :
    (e :: rest).filter (fun d => d.1 ≠ e.1) = rest := by
  rw [List.map_cons, List.nodup_cons] at h
  rw [List.filter_cons_of_neg (by simp), List.filter_eq_self]
  intro d hd
  have hne : d.1 ≠ e.1 := fun heq => h.1 (heq ▸ List.mem_map_of_mem hd)
  simpa using hne

theorem evictLocked_front {e : ℕ × ℕ} {rest : List (ℕ × ℕ)} (h : MemInv m loose blocks regions)
    (hres : m.resident = e :: rest) (hacc : (m.mmu.pte (e.2 / pageSize)).accessed = false)
    (henv : quietEnv env) :
    (m.evictLocked e.2 env).1 ≠ none ∧ (m.evictLocked e.2 env).2.vram = m.vram ∧
      (m.evictLocked e.2 env).2.resident = rest ∧
      (fun v => ((m.evictLocked e.2 env).2.mmu.pte v).accessed) =
        fun v => (m.mmu.pte v).accessed := by
  obtain ⟨hva, hv, hin⟩ := h.clock.entry e (by simp [hres])
  have hpos : m.residentPos e.2 = some e.1 := (h.clock.pos e.2 e.1).mpr (by simp [hres])
  have hnodes := h.clock.nodes
  rw [hres] at hnodes
  obtain ⟨-, ⟨-, hcopy⟩, -⟩ | ⟨hm, -, heq⟩ := evictLocked_cases h hva hv hin env
  · exact absurd henv.1 hcopy
  · rw [heq]
    simp only [Mem.forgetResident, hpos]
    refine ⟨by simp, trivial, ?_, ?_⟩
    · rw [hres, filter_front hnodes]
    · have hself : Function.update (fun v => (m.mmu.pte v).accessed) (e.2 / pageSize) false =
          fun v => (m.mmu.pte v).accessed := by
        rw [← hacc]
        exact Function.update_eq_self _ _
      rw [accessed_setPte]
      exact hself

theorem evictOneLocked_sweep (h : MemInv m loose blocks regions) (hne : m.resident ≠ [])
    (henv : quietEnv env) :
    (m.evictOneLocked env).1 ≠ none ∧ (m.evictOneLocked env).2.vram = m.vram ∧
      (m.evictOneLocked env).2.resident.length + 1 = m.resident.length ∧
      ∃ y k, Clock.Sweep (queue m) y (queue (m.evictOneLocked env).2) k := by
  obtain ⟨e, rest, k, hres, hacc, hsweep⟩ := passHand_sweep h hne m.resident.length (by simp)
  obtain ⟨hvram, hlen⟩ := passHand_frame m (fun _ => false) m.resident.length
  have hi := h.passHand (fun _ => false) m.resident.length
  obtain ⟨hsome, hvram', hres', hacc'⟩ := evictLocked_front hi hres hacc henv
  simp only [Mem.evictOneLocked, henv.2, hres]
  refine ⟨hsome, hvram'.trans hvram, ?_, e.2 / pageSize, k, ?_⟩
  · rw [hres', ← hlen, hres, List.length_cons]
  · simpa only [queue, hres', hacc'] using hsweep

theorem takeFrame_brings (h : MemInv m loose blocks regions) (hcap : 0 < capacity m)
    (henv : quietEnv env) (v : ℕ) :
    (m.takeFrame env).1 ≠ none ∧
      Clock.Brings (queue m) v (freeFrames m) ((queue (m.takeFrame env).2).push v)
        (freeFrames (m.takeFrame env).2) ∧
      freeFrames (m.takeFrame env).2 + (m.takeFrame env).2.resident.length + 1 = capacity m := by
  simp only [Mem.takeFrame]
  split
  · next pa m' hal =>
    obtain ⟨heq, hfree⟩ := allocFrame_some h hal
    have hq : queue m' = queue m := by rw [heq]; rfl
    have hlen : m'.resident = m.resident := by rw [heq]
    refine ⟨by simp, ?_, ?_⟩
    · rw [hq, hfree]
      exact .place
    · change freeFrames m' + m'.resident.length + 1 = capacity m
      rw [capacity, hlen, hfree]
      omega
  · next hal =>
    have hfree := allocFrame_none h hal
    have hne : m.resident ≠ [] := by
      rintro hnil
      simp [capacity, hfree, hnil] at hcap
    obtain ⟨hsome, hvram, hlen, y, k, hsweep⟩ := evictOneLocked_sweep h hne henv
    have hshape := Shape.takeFrame m env
    simp only [Mem.takeFrame, hal] at hshape
    have hfree' : freeFrames (m.evictOneLocked env).2 = 0 := by
      rw [← hfree, freeFrames, freeFrames, hvram, Mem.vramSize,
        hshape.pages.vramPages, Mem.vramSize]
    refine ⟨hsome, ?_, ?_⟩
    · rw [hfree, hfree']
      exact .victim hsweep
    · rw [capacity, hfree, hfree']
      omega

theorem queue_installed (m : Mem) (va pa host : ℕ) (env : Env) :
    queue (m.installed va pa host env) = (queue m).push (va / pageSize) := by
  simp only [queue, Mem.installed, Clock.Queue.push, pages, List.map_append, List.map_cons,
    List.map_nil, accessed_setPte]
  rfl

theorem migrateLocked_brings (h : MemInv m loose blocks regions) (hva : va % pageSize = 0)
    (hcap : 0 < capacity m) (henv : quietEnv env) :
    (m.migrateLocked va env = (.ok false, m) ∧ (m.mmu.pte (va / pageSize)).inVram = true) ∨
    (m.migrateLocked va env = (.error .efault, m) ∧ (m.mmu.page va).kind = .absent) ∨
    ∃ m', m.migrateLocked va env = (.ok true, m') ∧ va / pageSize ∉ pages m.resident ∧
      Clock.Brings (queue m) (va / pageSize) (freeFrames m) (queue m') (freeFrames m') ∧
      capacity m' = capacity m := by
  obtain ⟨hsome, hb, hcount⟩ := takeFrame_brings h hcap henv (va / pageSize)
  cases hk : (m.mmu.page va).kind with
  | vram =>
    obtain ⟨-, -, hin, -⟩ := Mmu.page_kind_vram hk
    exact .inl ⟨by simp only [Mem.migrateLocked, hk], hin⟩
  | absent => exact .inr (.inl ⟨by simp only [Mem.migrateLocked, hk], rfl⟩)
  | host =>
    right
    obtain ⟨hn, hp, hin, hhost⟩ := Mmu.page_kind_host hk
    obtain ⟨-, -, -, ⟨-, hkind⟩ | ⟨-, hnone⟩⟩ | ⟨m₁, frame, rfl, -, -, -, -, -, heq⟩ :=
      h.migrateLocked_cases hva env
    · exact absurd hk hkind
    · exact absurd hnone hsome
    · right
      refine ⟨_, heq, ?_, ?_, ?_⟩
      · rw [mem_pages h]
        simp [hin]
      · rw [queue_installed]
        exact hb
      · rw [← hcount, capacity]
        simp only [Mem.installed, List.length_append, List.length_singleton]
        exact (Nat.add_assoc _ _ _).symm

end SoftGpu.Retry
