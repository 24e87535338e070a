import SoftGpu.CopyExact
import SoftGpu.RetryAttempt

/-!
# When the retry loop ends

The loop is a client of the CLOCK queue, so it ends if the pages that an attempt looks
for fit into the frames that managed memory can use, with what a prefetch brings in after
them. A prefetch is at most half of these frames; so one page always fits, and two of
them fit unless there is only one frame. With one frame a `COPY_D2D` without overlap whose
two sides are not in the same page never ends: each side evicts the other.
-/

namespace SoftGpu.Retry

open Machine Exec

variable {loose blocks : List (ℕ × ℕ)} {regions : List Region} {cap ahead : ℕ} {fl : Floats}
  {engine : ℕ} {c : Cmd} {s t : State} {env : Env}

/-! ### The client -/

def client (fl : Floats) (c : Cmd) (s : State) : Clock.Client ℕ where
  queue := queue s.mem
  free := freeFrames s.mem
  work := (plan fl c s.replay).work
  first := (plan fl c s.replay).first
  second := (plan fl c s.replay).second
  fault := s.fault.map fun f => f / pageSize
  run := s.ahead.map fun p => (p.page, p.left)

def budget (ahead cap : ℕ) : ℕ := min ahead (if 0 < cap / 2 then cap / 2 - 1 else 0)

def reach (b v : ℕ) : Finset ℕ := Finset.Icc v (v + b)

structure LoopInv (loose blocks : List (ℕ × ℕ)) (regions : List Region) (cap ahead : ℕ)
    (s : State) : Prop where
  mem : MemInv s.mem loose blocks regions
  frames : capacity s.mem = cap
  window : s.mem.prefetchPages = ahead
  fault : ∀ f ∈ s.fault, f % pageSize = 0 ∧ s.mem.mmu.vramPages ≤ f / pageSize
  run : ∀ p ∈ s.ahead, p.va % pageSize = 0 ∧ p.page < p.va / pageSize ∧
    p.va / pageSize + p.left ≤ p.page + 1 + budget ahead cap

theorem LoopInv.start {w : World} (h : MemInv w.mem loose blocks regions)
    (streams : List Driver.FaultStream) (clock : ℕ) :
    LoopInv loose blocks regions (capacity w.mem) w.mem.prefetchPages (.start w streams clock) where
  mem := h
  frames := rfl
  window := rfl
  fault := nofun
  run := nofun

theorem Faults.managed {m : Mem} {f : ℕ} (h : Faults m f) (hi : MemInv m loose blocks regions) :
    m.mmu.vramPages ≤ f / pageSize := by
  obtain ⟨-, hp, hin⟩ := h
  by_contra hlt
  have hvram := (hi.table.ident _ (by omega) hp).1
  simp [hin] at hvram

theorem Faults.not_mem {m : Mem} {f : ℕ} (h : Faults m f) (hi : MemInv m loose blocks regions) :
    f / pageSize ∉ pages m.resident := by
  rw [mem_pages hi]
  simp [h.2.2]

/-! ### Each step -/

theorem attempt_cases (fl : Floats) (engine : ℕ) (c : Cmd) (s : State) :
    (∃ o r w, s.attempt fl engine c = { s with world := w, replay := r, retired := some o }) ∨
    ∃ f r w, s.attempt fl engine c = { s with world := w, replay := r, fault := some f } ∧
      execute fl engine s.world s.replay c = (.pageFault f, r, w) ∧
      Worked s.mem w.mem ∧ Faults s.mem f ∧
      Held (plan fl c s.replay) (plan fl c r) s.mem w.mem f := by
  obtain ⟨hw, hfault⟩ := execute_attempted fl engine c s.world s.replay
  cases hx : execute fl engine s.world s.replay c with
  | mk o rest =>
    obtain ⟨r, w⟩ := rest
    rw [hx] at hw hfault
    cases o with
    | pageFault f =>
      refine .inr ⟨f, r, w, by simp only [State.attempt, hx], rfl, hw, ?_⟩
      exact hfault f rfl
    | done u => exact .inl ⟨.done u, r.reset, w, by simp only [State.attempt, hx]⟩
    | split => exact .inl ⟨.split, r.reset, w, by simp only [State.attempt, hx]⟩
    | error e => exact .inl ⟨.error e, r.reset, w, by simp only [State.attempt, hx]⟩

theorem attempt_client (h : LoopInv loose blocks regions cap ahead s) (hfault : s.fault = none) :
    (s.attempt fl engine c).retired ≠ none ∨
    LoopInv loose blocks regions cap ahead (s.attempt fl engine c) ∧
      Clock.Step (reach (budget ahead cap)) (budget ahead cap) (client fl c s)
        (client fl c (s.attempt fl engine c)) := by
  obtain ⟨o, r, w, heq⟩ | ⟨f, r, w, heq, -, hw, hf, hheld⟩ := attempt_cases fl engine c s
  · left
    rw [heq]
    simp
  · right
    have hmanaged := hf.managed h.mem
    rw [heq]
    refine ⟨⟨hw.inv h.mem, hw.capacity.trans h.frames, hw.prefetchPages.trans h.window, ?_, h.run⟩,
      ?_⟩
    · rintro g ⟨⟩
      exact ⟨hf.1, hw.same.vramPages.le.trans hmanaged⟩
    · obtain hlt | ⟨hplan, hpage⟩ := hheld
      · exact .advance (by simp [client, hfault]) hlt
      · have hclient : client fl c { s with world := w, replay := r, fault := some f } =
            { client fl c s with
              queue := ⟨(queue s.mem).pages, (queue w.mem).ref⟩
              fault := some (f / pageSize) } := by
          have hfree := hw.freeFrames
          have hres := hw.resident
          simp only [client, State.mem, queue, hplan] at *
          simp only [hfree, hres, Option.map_some]
        rw [hclient]
        refine .stall (by simp [client, hfault]) (hf.not_mem h.mem) ?_
        exact hpage.imp_right fun hp => ⟨hp.1, by rw [hp.2]; rfl⟩

theorem LoopInv.migrated {va : ℕ} (h : LoopInv loose blocks regions cap ahead s)
    (hva : va % pageSize = 0) (hcap : capacity (s.mem.migrateLocked va env).2 = capacity s.mem)
    (hfault : ∀ f ∈ t.fault, f ∈ s.fault) (hmem : t.mem = (s.mem.migrateLocked va env).2)
    (hrun : ∀ p ∈ t.ahead, p.va % pageSize = 0 ∧ p.page < p.va / pageSize ∧
      p.va / pageSize + p.left ≤ p.page + 1 + budget ahead cap) :
    LoopInv loose blocks regions cap ahead t := by
  have hshape := Shape.migrateLocked s.mem va env
  refine ⟨?_, ?_, ?_, fun f hf => ?_, hrun⟩
  · rw [hmem]
    exact h.mem.migrateLocked hva env
  · rw [hmem, hcap, h.frames]
  · rw [hmem, hshape.prefetchPages, h.window]
  · obtain ⟨hmod, hv⟩ := h.fault f (hfault f hf)
    rw [hmem, hshape.pages.vramPages]
    exact ⟨hmod, hv⟩

theorem prefetchBudget_eq (m : Mem) : m.prefetchBudget = budget m.prefetchPages (capacity m) := rfl

theorem service_moved {m' : Mem} {f : ℕ} (hmod : f % pageSize = 0)
    (hx : s.mem.migrateLocked f env = (.ok true, m')) (hahead : s.ahead = none) :
    ∃ streams clock run, s.service f env =
        { s.setMem m' with fault := none, streams := streams, clock := clock, ahead := run } ∧
      ∀ p ∈ run, p.page = f / pageSize ∧ p.va = f + pageSize ∧ p.left = m'.prefetchBudget := by
  simp only [State.service, div_mul_pageSize hmod, hx]
  split
  · refine ⟨_, _, _, rfl, fun p hp => ?_⟩
    simp only [State.beginAhead, Option.mem_def, Option.map_eq_some_iff] at hp
    obtain ⟨e, -, rfl⟩ := hp
    exact ⟨rfl, rfl, rfl⟩
  · refine ⟨_, _, s.ahead, rfl, fun p hp => ?_⟩
    simp [hahead] at hp

theorem service_client {f : ℕ} (h : LoopInv loose blocks regions cap ahead s) (hcap : 0 < cap)
    (hfault : s.fault = some f) (hahead : s.ahead = none) (henv : quietEnv env) :
    (s.service f env).retired ≠ none ∨
    LoopInv loose blocks regions cap ahead (s.service f env) ∧
      Clock.Step (reach (budget ahead cap)) (budget ahead cap) (client fl c s)
        (client fl c (s.service f env)) := by
  obtain ⟨hmod, hv⟩ := h.fault f hfault
  have hva : f / pageSize * pageSize = f := div_mul_pageSize hmod
  have hcap' : 0 < capacity s.mem := h.frames ▸ hcap
  obtain ⟨hx, hin⟩ | ⟨hx, -⟩ | ⟨m', hx, hnot, hb, hframes⟩ :=
    migrateLocked_brings h.mem hmod hcap' henv
  · right
    have heq : s.service f env = { s with fault := none } := by
      simp only [State.service, hva, hx]
      rfl
    rw [heq]
    refine ⟨⟨h.mem, h.frames, h.window, nofun, h.run⟩, ?_⟩
    exact .present (by simp [client, hfault]) (by simp [client, hahead])
      ((mem_pages h.mem).mpr ⟨hv, hin⟩)
  · left
    simp [State.service, hva, hx]
  · right
    obtain ⟨streams, clock, run, heq, hrun⟩ := service_moved hmod hx hahead
    have hm : (s.mem.migrateLocked f env).2 = m' := by rw [hx]
    have hshape := Shape.migrateLocked s.mem f env
    rw [hm] at hshape
    have hleft : m'.prefetchBudget = budget ahead cap := by
      rw [prefetchBudget_eq, hshape.prefetchPages, h.window, hframes, h.frames]
    rw [heq]
    constructor
    · refine h.migrated hmod (by rw [hm, hframes]) nofun hm.symm fun p hp => ?_
      obtain ⟨hpage, hnext, hbud⟩ := hrun p hp
      have hdiv : (f + pageSize) / pageSize = f / pageSize + 1 := Nat.add_div_right _ pageSize_pos
      rw [hpage, hnext, hbud, hleft, hdiv, Nat.add_mod_right]
      exact ⟨hmod, Nat.lt_succ_self _, Nat.le_refl _⟩
    · refine .demand (by simp [client, hfault]) (by simp [client, hahead]) hnot hb ?_
      intro x hp
      simp only [Option.mem_def, Option.map_eq_some_iff] at hp
      obtain ⟨p, hp, rfl⟩ := hp
      obtain ⟨hpage, -, hbud⟩ := hrun p hp
      exact ⟨hpage, (hbud.trans hleft).le⟩

theorem endAhead_client {p : Ahead} (h : LoopInv loose blocks regions cap ahead s)
    (hahead : s.ahead = some p) :
    LoopInv loose blocks regions cap ahead (s.endAhead p) ∧
      Clock.Step (reach (budget ahead cap)) (budget ahead cap) (client fl c s)
        (client fl c (s.endAhead p)) := by
  refine ⟨⟨h.mem, h.frames, h.window, h.fault, nofun⟩, ?_⟩
  exact .finish (v := p.page) (k := p.left) (by simp [client, hahead])

theorem prefetch_client {p : Ahead} (h : LoopInv loose blocks regions cap ahead s)
    (hcap : 0 < cap) (hahead : s.ahead = some p) (henv : quietEnv env) :
    LoopInv loose blocks regions cap ahead (s.prefetch p env) ∧
      Clock.Step (reach (budget ahead cap)) (budget ahead cap) (client fl c s)
        (client fl c (s.prefetch p env)) := by
  obtain ⟨hmod, hlt, hle⟩ := h.run p hahead
  have hcap' : 0 < capacity s.mem := h.frames ▸ hcap
  cases hleft : p.left with
  | zero =>
    simp only [State.prefetch, hleft]
    exact endAhead_client h hahead
  | succ k =>
    rw [hleft] at hle
    simp only [State.prefetch, hleft]
    split
    · have hnext : (p.va + pageSize) / pageSize = p.va / pageSize + 1 :=
        Nat.add_div_right _ pageSize_pos
      have hrest : ∀ q ∈ some { p with va := p.va + pageSize, left := k },
          q.va % pageSize = 0 ∧ q.page < q.va / pageSize ∧
            q.va / pageSize + q.left ≤ q.page + 1 + budget ahead cap := by
        rintro q ⟨⟩
        dsimp only
        rw [hnext, Nat.add_mod_right]
        exact ⟨hmod, by omega, by omega⟩
      have hrun : (client fl c s).run = some (p.page, k + 1) := by simp [client, hahead, hleft]
      obtain ⟨hx, -⟩ | ⟨hx, -⟩ | ⟨m', hx, hnot, hb, hframes⟩ :=
        migrateLocked_brings h.mem hmod hcap' henv
      · simp only [hx]
        exact ⟨⟨h.mem, h.frames, h.window, h.fault, hrest⟩, .skip hrun⟩
      · simp only [hx]
        exact endAhead_client h hahead
      · have hm : (s.mem.migrateLocked p.va env).2 = m' := by rw [hx]
        simp only [hx]
        refine ⟨h.migrated hmod (by rw [hm, hframes]) (fun f hf => hf) hm.symm hrest, ?_⟩
        refine .ahead hrun (Finset.mem_Icc.mpr ⟨hlt.le, ?_⟩) hnot hb
        change p.va / pageSize ≤ p.page + budget ahead cap
        omega
    · exact endAhead_client h hahead

theorem step_client {a : Action} (h : LoopInv loose blocks regions cap ahead s) (hcap : 0 < cap)
    (ha : alone s a) (hs : step fl engine c s a = some t) :
    t.retired ≠ none ∨
    LoopInv loose blocks regions cap ahead t ∧
      Clock.Step (reach (budget ahead cap)) (budget ahead cap) (client fl c s) (client fl c t) := by
  simp only [step] at hs
  split at hs
  · cases hs
  · cases a with
    | attempt =>
      dsimp only at hs
      split at hs
      · cases hs
      · next hf =>
        cases hs
        exact attempt_client h (by simpa using hf)
    | service env =>
      dsimp only at hs
      split at hs
      · next f hf hahead =>
        cases hs
        exact service_client h hcap hf hahead ha
      · cases hs
    | prefetch env =>
      dsimp only at hs
      split at hs
      · next p hahead =>
        cases hs
        exact .inr (prefetch_client h hcap hahead ha)
      · cases hs

/-! ### Enough frames -/

/-- What a command needs at once has room: both sides of a `COPY_D2D` without overlap have
a frame each, unless they always lie in the same page. -/
def HasRoom (cap : ℕ) (c : Cmd) : Prop :=
  c.opcode = .copyD2D → c.overlap = false → 2 ≤ cap ∨
    ∀ i < c.size.toNat, (c.dst.toNat + i) / pageSize = (c.src0.toNat + i) / pageSize

theorem plan_pages (h : HasRoom cap c) (fl : Floats) (r : Replay) :
    (plan fl c r).first = (plan fl c r).second ∨ 2 ≤ cap := by
  cases hop : c.opcode with
  | copyD2D =>
    simp only [plan, hop]
    split
    · left
      simp only [movePlan, Plan.operand]
      split_ifs <;> rfl
    · next hover =>
      rw [Bool.not_eq_true] at hover
      simp only [copyPlan]
      split
      · next hdone =>
        obtain hcap | hsame := h hop hover
        · exact .inr hcap
        · exact .inl (hsame _ hdone)
      · exact .inl rfl
  | nop | waitFence | fill | copyH2D | copyD2H =>
    left
    simp only [plan, hop, Plan.operand]
  | vaddF32 | gemmF32 =>
    left
    simp only [plan, hop, computePlan, Plan.operand]
    split_ifs <;> rfl

theorem reach_card (b v : ℕ) : (reach b v).card = b + 1 := by
  rw [reach, Nat.card_Icc]
  omega

theorem budget_lt (ahead : ℕ) (hcap : 0 < cap) : budget ahead cap + 1 ≤ cap := by
  simp only [budget]
  split_ifs <;> omega

theorem budget_two (ahead : ℕ) (hcap : 2 ≤ cap) : 2 * (budget ahead cap + 1) ≤ cap := by
  simp only [budget]
  split_ifs <;> omega

theorem LoopInv.ok (h : LoopInv loose blocks regions cap ahead s) (hcap : 0 < cap)
    (hroom : HasRoom cap c) : (client fl c s).Ok (reach (budget ahead cap)) cap where
  nodup := pages_nodup h.mem
  full := by
    rw [← h.frames, capacity, Nat.add_comm]
    simp [client, queue, pages]
  fits := by
    simp only [Clock.Client.needs, client]
    obtain heq | htwo := plan_pages hroom fl s.replay
    · rw [heq, Finset.union_self, reach_card]
      exact budget_lt ahead hcap
    · refine (Finset.card_union_le _ _).trans ?_
      rw [reach_card, reach_card]
      have := budget_two ahead htwo
      omega
  own := fun v => Finset.mem_Icc.mpr ⟨Nat.le_refl v, Nat.le_add_right v _⟩

theorem acc_of_retired (h : t.retired ≠ none) :
    Acc (fun t s => ∃ a, alone s a ∧ step fl engine c s a = some t) t := by
  refine .intro _ fun u hu => ?_
  obtain ⟨a, -, hs⟩ := hu
  simp [step, Option.isSome_iff_ne_none.mpr h] at hs

theorem acc_of_hasRoom (hcap : 0 < cap) (hroom : HasRoom cap c)
    (h : LoopInv loose blocks regions cap ahead s) :
    Acc (fun t s => ∃ a, alone s a ∧ step fl engine c s a = some t) s := by
  -- By induction on the client; the loop may have several states for one of its.
  obtain ⟨x, hx⟩ : ∃ x, client fl c s = x := ⟨_, rfl⟩
  induction x using (Clock.wellFounded (reach (budget ahead cap)) (budget ahead cap) cap).induction
    generalizing s with
  | _ x ih =>
    subst hx
    refine .intro s fun t ht => ?_
    obtain ⟨a, ha, hs⟩ := ht
    obtain hret | ⟨ht, hstep⟩ := step_client h hcap ha hs
    · exact acc_of_retired hret
    · exact ih _ ⟨h.ok hcap hroom, hstep⟩ ht rfl

def still : Env := ⟨fun _ => false, false, none, false⟩

theorem exists_step (fl : Floats) (engine : ℕ) (c : Cmd) (h : t.retired = none) :
    ∃ a t', alone t a ∧ step fl engine c t a = some t' := by
  cases hf : t.fault with
  | none => exact ⟨.attempt, t.attempt fl engine c, trivial, by simp [step, h, hf]⟩
  | some f =>
    cases hp : t.ahead with
    | none => exact ⟨.service still, t.service f still, ⟨rfl, rfl⟩, by simp [step, h, hf, hp]⟩
    | some p => exact ⟨.prefetch still, t.prefetch p still, ⟨rfl, rfl⟩, by simp [step, h, hp]⟩

/-! ### One frame for two pages -/

def Managed (m : Mem) (va len : ℕ) : Prop :=
  ∀ i < len, m.mmu.vramPages ≤ (va + i) / pageSize ∧
    (m.mmu.pte ((va + i) / pageSize)).present = true

section
variable {m m' : Mem} {va len v w : ℕ} {write : Bool}

theorem Managed.pages (h : Managed m va len) (hs : Mmu.SamePages m.mmu m'.mmu) :
    Managed m' va len := by
  intro i hi
  rw [hs.vramPages, hs.present]
  exact h i hi

theorem pfn_lt (h : MemInv m loose blocks regions) (hin : (m.mmu.pte v).inVram = true) :
    (m.mmu.pte v).pfn < m.mmu.vramPages := by
  by_cases hv : v < m.mmu.vramPages
  · rw [(h.table.ident v hv (h.table.valid v hin)).2]
    exact hv
  · obtain ⟨e, he, heq⟩ := List.mem_map.mp (h.clock.all v (Nat.not_lt.mp hv) hin)
    have hlt := h.resident_frame he
    rwa [heq, mul_div_pageSize] at hlt

theorem runOk_bound {base n : ℕ} (h : RunOk m va base n write) (hi : MemInv m loose blocks regions)
    (hn : 0 < n) : base + n ≤ m.vramSize := by
  have hphys := h.phys (n - 1) (by omega)
  have hlt := pfn_lt hi (h.inVram (n - 1) (by omega))
  have hmod := Nat.mod_lt (va + (n - 1)) pageSize_pos
  have hle : ((m.mmu.pte ((va + (n - 1)) / pageSize)).pfn + 1) * pageSize ≤
      m.mmu.vramPages * pageSize := Nat.mul_le_mul_right _ hlt
  rw [Nat.succ_mul] at hle
  simp only [Pte.pa] at hphys
  rw [Mem.vramSize]
  omega

theorem runAt_ok (h : MemInv m loose blocks regions) (hm : Managed m va len) (hlen : 0 < len)
    (write : Bool) (e : Errno) : (runAt m va len write).1 ≠ .error e := by
  obtain ⟨hv, hp⟩ := hm 0 hlen
  rw [Nat.add_zero] at hv hp
  have hn := (h.managed_page hv hp).1
  have hzero : RunOk m va 0 0 write := ⟨nofun, nofun, fun _ => nofun⟩
  obtain ⟨hflag, -, hdone⟩ := runLoop_spec len 0 0 m hzero (Nat.zero_le len) fun _ h => h
  -- The loop itself.
  have hloop : (runLoop va len write len 0 0 m).1 ≠ .error e := by
    obtain ⟨n, rfl⟩ := Nat.exists_eq_succ_of_ne_zero hlen.ne'
    simp only [runLoop, if_pos hlen, Nat.add_zero, Exec.translate, hp]
    rw [if_neg (by simpa using hn)]
    by_cases hin : (m.mmu.pte (va / pageSize)).inVram = false
    · simp [hin]
    · have hpos : 0 + min (n + 1 - 0) (pageSize - va % pageSize) ≠ 0 := by
        have := Nat.mod_lt va pageSize_pos
        omega
      obtain ⟨run, hrun⟩ := runLoop_done hpos
      simp only [if_neg hin, if_true]
      rw [hrun]
      simp
  simp only [runAt]
  cases hx : runLoop va len write len 0 0 m with
  | mk o m' =>
    rw [hx] at hflag hdone hloop
    cases o with
    | done run =>
      obtain ⟨hok, hpos, -⟩ := hdone run.1 run.2 rfl
      have hsize : m'.vramSize = m.vramSize := by
        rw [Mem.vramSize, hflag.same.vramPages, Mem.vramSize]
      have hle := runOk_bound hok (hflag.inv h) (by omega)
      dsimp only at hle
      simp only [Outcome.andThen]
      rw [if_neg (by omega)]
      simp
    | pageFault f => simp [Outcome.andThen]
    | split => simp [Outcome.andThen]
    | error e' => simpa [Outcome.andThen] using hloop

theorem inVram_unique (h : MemInv m loose blocks regions) (hcap : capacity m = 1)
    (hv : m.mmu.vramPages ≤ v) (hw : m.mmu.vramPages ≤ w) (hvin : (m.mmu.pte v).inVram = true)
    (hwin : (m.mmu.pte w).inVram = true) : v = w := by
  have hmv := (mem_pages h).mpr ⟨hv, hvin⟩
  have hmw := (mem_pages h).mpr ⟨hw, hwin⟩
  have hle : (pages m.resident).length ≤ 1 := by
    simp only [pages, List.length_map]
    rw [capacity] at hcap
    omega
  have hpos := List.length_pos_of_mem hmv
  obtain ⟨x, hp⟩ := List.length_eq_one_iff.mp (show (pages m.resident).length = 1 by omega)
  rw [hp, List.mem_singleton] at hmv hmw
  rw [hmv, hmw]

theorem copyRuns_stuck {dst src i : ℕ} (hi : i < len)
    (hne : (dst + i) / pageSize ≠ (src + i) / pageSize) {turns : ℕ} :
    ∀ {done : ℕ} {m : Mem}, MemInv m loose blocks regions → capacity m = 1 → Managed m dst len →
      Managed m src len → done ≤ i → len ≤ done + turns →
      ∃ f d m', copyRuns dst src len turns done m = (.pageFault f, d, m') ∧ d ≤ i := by
  induction turns with
  | zero => omega
  | succ turns ih =>
    intro done m h hcap hd hs hle hturns
    have hlt : done < len := by omega
    have htail : ∀ {va : ℕ}, Managed m va len → Managed m (va + done) (len - done) := by
      intro va hm j hj
      rw [Nat.add_assoc]
      exact hm _ (by omega)
    simp only [copyRuns, if_pos hlt]
    obtain ⟨hflag, hsplit, hdone⟩ := runAt_spec m (dst + done) (len - done) true
    have hok := runAt_ok h (htail hd) (by omega) true
    cases hrun : runAt m (dst + done) (len - done) true with
    | mk r m₁ =>
      rw [hrun] at hflag hsplit hdone hok
      cases r with
      | pageFault g => exact ⟨g, done, m₁, rfl, hle⟩
      | split => exact absurd rfl hsplit
      | error e => exact absurd rfl (hok e)
      | done run =>
        obtain ⟨hrunOk, hpos, -⟩ := hdone run.1 run.2 rfl
        have hw : Worked m m₁ := .of_flagged hflag
        have h₁ := hw.inv h
        obtain ⟨hflag₂, hsplit₂, hdone₂⟩ := runAt_spec m₁ (src + done) (len - done) false
        have hok₂ := runAt_ok h₁ ((htail hs).pages hflag.same.pages) (by omega) false
        simp only [Outcome.andThen]
        cases hrun₂ : runAt m₁ (src + done) (len - done) false with
        | mk r₂ m₂ =>
          rw [hrun₂] at hflag₂ hsplit₂ hdone₂ hok₂
          cases r₂ with
          | pageFault g => exact ⟨g, done, m₂, rfl, hle⟩
          | split => exact absurd rfl hsplit₂
          | error e => exact absurd rfl (hok₂ e)
          | done run₂ =>
            obtain ⟨hrunOk₂, hpos₂, -⟩ := hdone₂ run₂.1 run₂.2 rfl
            have hw₂ : Worked m m₂ := hw.trans (.of_flagged hflag₂)
            have hstep : done + min run.2 run₂.2 ≤ i := by
              by_contra hgt
              have hd' := (hrunOk.flagged hflag₂).inVram (i - done) (by omega)
              have hs' := hrunOk₂.inVram (i - done) (by omega)
              rw [Nat.add_assoc, Nat.add_sub_cancel' hle] at hd' hs'
              have hv := (hd i hi).1
              have hv' := (hs i hi).1
              rw [← hw₂.same.vramPages] at hv hv'
              exact hne (inVram_unique (hw₂.inv h) (hw₂.capacity.trans hcap) hv hv' hd' hs')
            have hw₃ := hw₂.setBytes (patch m₂.bytes run.1 (min run.2 run₂.2) fun i =>
              m₂.bytes (run₂.1 + i))
            exact ih (hw₃.inv h) (hw₃.capacity.trans hcap) (hd.pages hw₃.same.pages)
              (hs.pages hw₃.same.pages) hstep (by omega)

end

structure Stuck (c : Cmd) (i : ℕ) (s : State) : Prop where
  dst : Managed s.mem c.dst.toNat c.size.toNat
  src : Managed s.mem c.src0.toNat c.size.toNat
  before : s.replay.done ≤ i
  going : s.retired = none
  fault : ∀ f ∈ s.fault, (s.mem.mmu.pte (f / pageSize)).present = true

section
variable {i : ℕ}

theorem Stuck.attempt (h : Stuck c i s) (hl : LoopInv loose blocks regions 1 ahead s)
    (hop : c.opcode = .copyD2D) (hover : c.overlap = false)
    (hplace : c.opcode.misplaced engine = false) (hi : i < c.size.toNat)
    (hne : (c.dst.toNat + i) / pageSize ≠ (c.src0.toNat + i) / pageSize) :
    Stuck c i (s.attempt fl engine c) := by
  have hturns : c.size.toNat ≤ s.replay.done + c.size.toNat := Nat.le_add_left _ _
  obtain ⟨f, d, m', hx, hd⟩ :=
    copyRuns_stuck hi hne hl.mem hl.frames h.dst h.src h.before hturns
  rw [hop] at hplace
  have hexec : execute fl engine s.world s.replay c =
      (.pageFault f, { s.replay with done := d }, ⟨m', s.world.host⟩) := by
    simp only [execute, hplace, hop, hover, Bool.false_eq_true, if_false]
    simp only [State.mem] at hx
    rw [hx]
  obtain ⟨hw, hfault⟩ := execute_attempted fl engine c s.world s.replay
  simp only [hexec] at hw hfault
  obtain ⟨-, hp, -⟩ := (hfault f rfl).1
  simp only [State.attempt, hexec]
  refine ⟨h.dst.pages hw.same.pages, h.src.pages hw.same.pages, hd, h.going, ?_⟩
  rintro g ⟨⟩
  exact (hw.same.present _).trans hp

theorem Stuck.migrated {va : ℕ} (h : Stuck c i s)
    (hmem : t.mem = (s.mem.migrateLocked va env).2) (hreplay : t.replay = s.replay)
    (hgoing : t.retired = none) (hfault : ∀ f ∈ t.fault, f ∈ s.fault) : Stuck c i t := by
  have hpages := (Shape.migrateLocked s.mem va env).pages
  rw [← hmem] at hpages
  refine ⟨h.dst.pages hpages, h.src.pages hpages, hreplay ▸ h.before, hgoing, fun f hf => ?_⟩
  rw [hpages.present]
  exact h.fault f (hfault f hf)

theorem Stuck.service {f : ℕ} (h : Stuck c i s) (hl : LoopInv loose blocks regions 1 ahead s)
    (hfault : s.fault = some f) (hahead : s.ahead = none) (henv : quietEnv env) :
    Stuck c i (s.service f env) := by
  obtain ⟨hmod, hv⟩ := hl.fault f hfault
  have hp := h.fault f hfault
  have hn := (hl.mem.managed_page hv hp).1
  have hva : f / pageSize * pageSize = f := div_mul_pageSize hmod
  have hcap : 0 < capacity s.mem := by rw [hl.frames]; exact Nat.one_pos
  obtain ⟨hx, -⟩ | ⟨-, habsent⟩ | ⟨m', hx, -, -, -⟩ := migrateLocked_brings hl.mem hmod hcap henv
  · simp only [State.service, hva, hx]
    exact ⟨h.dst, h.src, h.before, h.going, fun g hg => by cases hg⟩
  · exfalso
    simp only [Mmu.page, hp, Bool.true_eq_false, if_false, if_neg (Nat.not_le.mpr hn)] at habsent
    split at habsent <;> cases habsent
  · obtain ⟨streams, clock, run, heq, -⟩ := service_moved hmod hx hahead
    have hm : (s.mem.migrateLocked f env).2 = m' := by rw [hx]
    rw [heq]
    exact h.migrated hm.symm rfl h.going fun g hg => by cases hg

theorem Stuck.prefetch {p : Ahead} (h : Stuck c i s) : Stuck c i (s.prefetch p env) := by
  have hend : ∀ {u : State}, Stuck c i u → Stuck c i (u.endAhead p) := fun hu =>
    ⟨hu.dst, hu.src, hu.before, hu.going, hu.fault⟩
  have hmoved : ∀ {u : State}, u.mem = (s.mem.migrateLocked p.va env).2 → u.replay = s.replay →
      u.retired = s.retired → u.fault = s.fault → Stuck c i u := fun hm hr hg hf =>
    h.migrated hm hr (hg.trans h.going) fun f hff => hf ▸ hff
  simp only [State.prefetch]
  split
  · exact hend h
  · split
    · split
      · next heq => exact hend (hmoved (by rw [heq]; rfl) rfl rfl rfl)
      · next heq => exact hmoved (by rw [heq]; rfl) rfl rfl rfl
    · exact hend h

theorem Stuck.step {a : Action} (h : Stuck c i s) (hl : LoopInv loose blocks regions 1 ahead s)
    (hop : c.opcode = .copyD2D) (hover : c.overlap = false)
    (hplace : c.opcode.misplaced engine = false) (hi : i < c.size.toNat)
    (hne : (c.dst.toNat + i) / pageSize ≠ (c.src0.toNat + i) / pageSize) (ha : alone s a)
    (hs : step fl engine c s a = some t) : Stuck c i t := by
  simp only [Retry.step, h.going, Option.isSome_none, Bool.false_eq_true, if_false] at hs
  cases a with
  | attempt =>
    dsimp only at hs
    split at hs
    · cases hs
    · cases hs
      exact h.attempt hl hop hover hplace hi hne
  | service env =>
    dsimp only at hs
    split at hs
    · next f hf hahead =>
      cases hs
      exact h.service hl hf hahead ha
    · cases hs
  | prefetch env =>
    dsimp only at hs
    split at hs
    · cases hs
      exact h.prefetch
    · cases hs

theorem not_acc_of_stuck (hop : c.opcode = .copyD2D) (hover : c.overlap = false)
    (hplace : c.opcode.misplaced engine = false) (hi : i < c.size.toNat)
    (hne : (c.dst.toNat + i) / pageSize ≠ (c.src0.toNat + i) / pageSize)
    (hl : LoopInv loose blocks regions 1 ahead s) (h : Stuck c i s) :
    ¬Acc (fun t s => ∃ a, alone s a ∧ step fl engine c s a = some t) s := by
  intro hacc
  induction hacc with
  | intro s _ ih =>
    obtain ⟨a, t, ha, hs⟩ := exists_step fl engine c h.going
    have ht := h.step hl hop hover hplace hi hne ha hs
    obtain hret | ⟨hl', -⟩ := step_client hl Nat.one_pos ha hs
    · exact hret ht.going
    · exact ih t ⟨a, ha, hs⟩ hl' ht

end

def OverManaged (fl : Floats) (m : Mem) (c : Cmd) : Prop :=
  match c.opcode with
  | .nop | .waitFence => True
  | .fill | .copyH2D => Managed m c.dst.toNat c.size.toNat
  | .copyD2H => Managed m c.src0.toNat c.size.toNat
  | .copyD2D => Managed m c.dst.toNat c.size.toNat ∧ Managed m c.src0.toNat c.size.toNat
  | .vaddF32 | .gemmF32 => Managed m c.src0.toNat (c.kernel fl).bytesA ∧
    Managed m c.src1.toNat (c.kernel fl).bytesB ∧ Managed m c.dst.toNat (c.kernel fl).bytesD

/-- With a frame for managed memory the loop ends for every command, on any operands and
from any state of the CLOCK list and the streams, but for a `COPY_D2D` without overlap
that finds two pages for one frame. -/
theorem retries_end_iff {w : World} (h : MemInv w.mem loose blocks regions)
    (hcap : 1 ≤ capacity w.mem) (hplace : c.opcode.misplaced engine = false)
    (hover : OverManaged fl w.mem c) (streams : List Driver.FaultStream) (clock : ℕ) :
    Retires fl engine c (.start w streams clock) ↔ HasRoom (capacity w.mem) c := by
  have hstart := LoopInv.start h streams clock
  constructor
  · rintro ⟨hacc, -⟩ hop hoverlap
    by_contra hno
    rw [not_or] at hno
    obtain ⟨hone, hpage⟩ := hno
    push Not at hpage
    obtain ⟨i, hi, hne⟩ := hpage
    have hframes : capacity w.mem = 1 := by omega
    rw [hframes] at hstart
    simp only [OverManaged, hop] at hover
    have hstuck : Stuck c i (.start w streams clock) :=
      ⟨hover.1, hover.2, Nat.zero_le i, rfl, nofun⟩
    exact not_acc_of_stuck hop hoverlap hplace hi hne hstart hstuck hacc
  · intro hroom
    exact ⟨acc_of_hasRoom hcap hroom hstart, fun t _ ht => exists_step fl engine c ht⟩

def takeBlock : List Driver.Action := [.lock (.alloc 268431360), .reclaim, .take]

def takePages : List Driver.Action :=
  [.lock (.allocManaged 8192), .reclaim, .mapManaged (some 409600), .addRange]

def tightBlock : Driver.State :=
  (exec (when Driver.noWrap (Driver.step ⟨1, 1, false, 16⟩)) (Driver.init ⟨1, 1, false, 16⟩)
    takeBlock).getD (Driver.init ⟨1, 1, false, 16⟩)

def tightTable : Mmu := { tightBlock.mem.mmu with
  pte := Mmu.setRange tightBlock.mem.mmu.pte 0 65535 fun i => .inFrame (0 + i) false }

def tightMalloc : Driver.State := { tightBlock with
  mem := { tightBlock.mem with mmu := tightTable }
  allocs := tightBlock.allocs.emplace 0 ⟨268431360, 0⟩
  holder := .free }

def tightStart : Driver.State :=
  (exec (when Driver.noWrap (Driver.step ⟨1, 1, false, 16⟩)) tightMalloc takePages).getD tightMalloc

theorem tightTable_mapped : tightBlock.mem.mmu.mapVram 0 0 65535 = .ok tightTable := by
  obtain ⟨mmu, hmap⟩ : ∃ mmu, tightBlock.mem.mmu.mapVram 0 0 65535 = .ok mmu := by
    refine Mmu.mapVram_defined rfl rfl (by omega) ?_ ?_ fun i hi => rfl
    · decide
    · decide
  obtain ⟨-, -, -, -, -, -, rfl⟩ := Mmu.mapVram_ok hmap
  exact hmap

theorem tightBlock_reach :
    Reach (Driver.step ⟨1, 1, false, 16⟩) Driver.noWrap
    (Driver.init ⟨1, 1, false, 16⟩) tightBlock := by
  have hrun : exec (when Driver.noWrap (Driver.step ⟨1, 1, false, 16⟩))
      (Driver.init ⟨1, 1, false, 16⟩) takeBlock = some tightBlock := rfl
  exact .of_exec_when .refl hrun

theorem mapBlock_step {cfg : Driver.Config} {d : Driver.State} {addr size : ℕ} {mmu : Mmu}
    (hh : d.holder = .mapBlock addr size)
    (hmap : d.mem.mmu.mapVram addr addr (VramAllocator.roundUp pageSize size / pageSize) =
      .ok mmu) :
    Driver.step cfg d .mapBlock = some { d with
      mem := { d.mem with mmu := mmu }
      allocs := d.allocs.emplace addr ⟨VramAllocator.roundUp pageSize size, 0⟩
      holder := .free } := by
  simp only [Driver.step, Driver.holderStep, hh, hmap, Option.orElse_some]

theorem tightMalloc_step : Driver.step ⟨1, 1, false, 16⟩ tightBlock .mapBlock =
    some tightMalloc := by
  have hholder : tightBlock.holder = .mapBlock 0 268431360 := rfl
  have hround : VramAllocator.roundUp pageSize 268431360 = 268431360 := by decide
  have hmap : tightBlock.mem.mmu.mapVram 0 0
      (VramAllocator.roundUp pageSize 268431360 / pageSize) = .ok tightTable := by
    have hpages : VramAllocator.roundUp pageSize 268431360 / pageSize = 65535 := by decide
    rw [hpages]
    exact tightTable_mapped
  have hstep : Driver.step ⟨1, 1, false, 16⟩ tightBlock .mapBlock = some _ :=
    mapBlock_step hholder hmap
  rw [hround] at hstep
  exact hstep

theorem tightStart_reach :
    Reach (Driver.step ⟨1, 1, false, 16⟩) Driver.noWrap
    (Driver.init ⟨1, 1, false, 16⟩) tightStart := by
  have hrun : exec (when Driver.noWrap (Driver.step ⟨1, 1, false, 16⟩)) tightMalloc takePages =
      some tightStart := rfl
  exact .of_exec_when (.tail (a := .mapBlock) tightBlock_reach trivial tightMalloc_step) hrun

theorem tightStart_inv : Driver.Inv tightStart := Driver.reach_inv (fun _ _ => id) tightStart_reach

theorem tightStart_managed : Managed tightStart.mem 268435456 8192 := by
  intro i hi
  obtain hlt | hge := Nat.lt_or_ge i 4096
  · have hpage : (268435456 + i) / pageSize = 65536 := by
      simp only [pageSize]
      omega
    rw [hpage]
    decide +kernel
  · have hpage : (268435456 + i) / pageSize = 65537 := by
      simp only [pageSize]
      omega
    rw [hpage]
    decide +kernel

theorem tightStart_capacity : capacity tightStart.mem = 1 := by decide +kernel

def fillBoth : Cmd := ⟨.fill, 0, 268435456, 0, 0, 8192, 0, 0, 0, 7, 0⟩

def copyAcross : Cmd := ⟨.copyD2D, 0, 268435456, 268439552, 0, 4096, 0, 0, 0, 0, 0⟩

theorem retries_end_fillBoth :
    Retires zeroFloats 0 fillBoth (.start ⟨tightStart.mem, fun _ => 0⟩ [] 0) := by
  have hover : OverManaged zeroFloats tightStart.mem fillBoth := tightStart_managed
  have hroom : HasRoom (capacity tightStart.mem) fillBoth := nofun
  have hplace : fillBoth.opcode.misplaced 0 = false := rfl
  exact (retries_end_iff (w := ⟨tightStart.mem, fun _ => 0⟩) tightStart_inv.mem
    tightStart_capacity.ge hplace hover [] 0).mpr hroom

/-- The two pages take the only frame from each other. -/
theorem copyAcross_never_retires :
    ¬∀ (fl : Floats) (engine : ℕ) (c : Cmd) (w : World) (loose blocks : List (ℕ × ℕ))
      (regions : List Region) (streams : List Driver.FaultStream) (clock : ℕ),
      MemInv w.mem loose blocks regions → 1 ≤ capacity w.mem →
      c.opcode.misplaced engine = false → OverManaged fl w.mem c →
      Retires fl engine c (.start w streams clock) := by
  intro hall
  have hdst : Managed tightStart.mem 268435456 4096 := fun i hi => tightStart_managed i (by omega)
  have hsrc : Managed tightStart.mem 268439552 4096 := by
    intro i hi
    have hmem := tightStart_managed (4096 + i) (by omega)
    rwa [← Nat.add_assoc] at hmem
  have hstart := LoopInv.start (w := ⟨tightStart.mem, fun _ => 0⟩) tightStart_inv.mem [] 0
  rw [tightStart_capacity] at hstart
  have hstuck : Stuck copyAcross 0 (.start ⟨tightStart.mem, fun _ => 0⟩ [] 0) :=
    ⟨hdst, hsrc, Nat.le_refl 0, rfl, nofun⟩
  have hplace : copyAcross.opcode.misplaced 1 = false := rfl
  have hretires := hall zeroFloats 1 copyAcross ⟨tightStart.mem, fun _ => 0⟩ _ _ _ [] 0
    tightStart_inv.mem tightStart_capacity.ge hplace ⟨hdst, hsrc⟩
  exact not_acc_of_stuck rfl (by decide) hplace (by decide) (by decide) hstart hstuck hretires.1

end SoftGpu.Retry
