import SoftGpu.DriverSteps

/-!
# Where a prefetch goes

`prefetch_locked` looks up the managed range that starts last at or before the
page after the faulting one. It stays in the faulting page's allocation unless
that page is the last of its allocation and another range starts right behind
it. The lock is released between the demand migration and the prefetch, so the
faulting page may also have changed hands by then.

The invariant counts how often the mapped items cover a page: at most once, and
only if the page is present. No assumption on request sizes is needed, because
`map_vram` and `map_host` refuse an empty range and a page that is mapped.
-/

namespace SoftGpu.Driver
open Machine VramAllocator

def pagesOf (r : Region) : ℕ × ℕ := (r.addr / pageSize, r.size / pageSize)

def Uniform (owner : ℕ → ℕ) (r : Region) : Prop :=
  ∀ v w, covers (pagesOf r) v = 1 → covers (pagesOf r) w = 1 → owner v = owner w

structure VaInv (s : State) : Prop where
  once : ∀ v, coverage ((s.holder.fresh ++ s.items).map pagesOf) v ≤
    if (s.mem.mmu.pte v).present then 1 else 0
  sized : ∀ r ∈ s.holder.fresh ++ s.items, r.addr % pageSize = 0 ∧ r.size % pageSize = 0 ∧
    0 < r.size
  fresh : ∀ r ∈ s.holder.fresh, r.host ≠ 0 ∧ Uniform s.owner r
  ranges : ∀ e ∈ s.mem.ranges.entries, ∃ r ∈ s.items, r.addr = e.1 ∧
    e.2.stop = r.addr + r.size ∧ r.host ≠ 0 ∧ Uniform s.owner r
  quiet : Quiet s
  faults : ∀ f ∈ s.faults, f.2 % pageSize = 0
  service : s.service.Aligned

variable {cfg : Config} {s s' : State} {a : Action} {r : Region} {l : List Region} {v : ℕ}

theorem covers_eq_one {b : ℕ × ℕ} {x : ℕ} : covers b x = 1 ↔ b.1 ≤ x ∧ x < b.1 + b.2 := by
  simp [covers]

theorem covers_le_one (b : ℕ × ℕ) (x : ℕ) : covers b x ≤ 1 := by
  simp only [covers]
  split_ifs <;> omega

theorem covers_first (hs : r.size % pageSize = 0) (hpos : 0 < r.size) :
    covers (pagesOf r) (r.addr / pageSize) = 1 := by
  have : 0 < r.size / pageSize := Nat.div_pos
    (Nat.le_of_dvd hpos (Nat.dvd_of_mod_eq_zero hs)) pageSize_pos
  rw [covers_eq_one]
  simp only [pagesOf]
  omega

theorem Uniform.onRange {owner : ℕ → ℕ} (addr bytes id host : ℕ) :
    Uniform (onRange owner addr bytes id) ⟨addr, bytes, host⟩ := by
  intro v w hv hw
  rw [covers_eq_one] at hv hw
  simp only [Driver.onRange, pagesOf] at hv hw ⊢
  rw [if_pos hv, if_pos hw]

namespace VaInv

theorem present (h : VaInv s) (hr : r ∈ s.holder.fresh ++ s.items)
    (hv : covers (pagesOf r) v = 1) : (s.mem.mmu.pte v).present = true := by
  have hle := (covers_le_coverage (x := v) (List.mem_map_of_mem (f := pagesOf) hr)).trans (h.once v)
  rw [hv] at hle
  split_ifs at hle with hp
  · exact hp
  · omega

theorem keep (h : VaInv s) (hpres : ∀ v, (s'.mem.mmu.pte v).present = (s.mem.mmu.pte v).present)
    (hranges : s'.mem.ranges = s.mem.ranges) (howner : s'.owner = s.owner)
    (hitems : s'.items.Perm s.items) (hfresh : s'.holder.fresh = s.holder.fresh)
    (hquiet : Quiet s') (hfaults : ∀ f ∈ s'.faults, f.2 % pageSize = 0)
    (hservice : s'.service.Aligned) : VaInv s' where
  once := by
    intro v
    rw [hpres, hfresh, coverage_perm ((hitems.append_left _).map pagesOf)]
    exact h.once v
  sized := by
    intro r hr
    rw [hfresh, (hitems.append_left _).mem_iff] at hr
    exact h.sized r hr
  fresh := by
    rw [hfresh, howner]
    exact h.fresh
  ranges := by
    rw [hranges, howner]
    intro e he
    obtain ⟨r, hr, hrest⟩ := h.ranges e he
    exact ⟨r, hitems.mem_iff.mpr hr, hrest⟩
  quiet := hquiet
  faults := hfaults
  service := hservice

theorem outside (h : VaInv s) (ho : Outside s s') (hquiet : Quiet s')
    (hfaults : ∀ f ∈ s'.faults, f.2 % pageSize = 0) (hservice : s'.service.Aligned) : VaInv s' :=
  h.keep ho.shape.pages.present ho.shape.ranges ho.owner (.of_eq ho.items) (by rw [ho.holder])
    hquiet hfaults hservice

theorem mapped (h : VaInv s) (hr : r.addr % pageSize = 0 ∧ r.size % pageSize = 0 ∧ 0 < r.size)
    (hnew : ∀ v, covers (pagesOf r) v = 1 → (s.mem.mmu.pte v).present = false)
    (hpres : ∀ v, (s'.mem.mmu.pte v).present =
      ((s.mem.mmu.pte v).present || covers (pagesOf r) v == 1))
    (hitems : (s'.holder.fresh ++ s'.items).Perm (r :: (s.holder.fresh ++ s.items)))
    (hkeep : ∀ q ∈ s.items, q ∈ s'.items)
    (howner : ∀ v, covers (pagesOf r) v ≠ 1 → s'.owner v = s.owner v)
    (hranges : s'.mem.ranges = s.mem.ranges)
    (hfresh : ∀ q ∈ s'.holder.fresh, q.host ≠ 0 ∧ Uniform s'.owner q) (hquiet : Quiet s')
    (hfaults : s'.faults = s.faults) (hservice : s'.service = s.service) : VaInv s' where
  once := by
    intro v
    have hold := h.once v
    rw [coverage_perm (hitems.map pagesOf), List.map_cons, coverage_cons, hpres]
    by_cases hv : covers (pagesOf r) v = 1
    · rw [hnew v hv] at hold
      simp only [Bool.false_eq_true, if_false, Nat.le_zero] at hold
      rw [hv, hold]
      simp
    · have hz : covers (pagesOf r) v = 0 := by
        have := covers_le_one (pagesOf r) v
        omega
      simpa [hz] using hold
  sized := by
    intro q hq
    rw [hitems.mem_iff, List.mem_cons] at hq
    rcases hq with rfl | hq
    · exact hr
    · exact h.sized q hq
  fresh := hfresh
  ranges := by
    rw [hranges]
    intro e he
    obtain ⟨q, hq, haddr, hstop, hhost, huni⟩ := h.ranges e he
    have hout : ∀ v, covers (pagesOf q) v = 1 → s'.owner v = s.owner v := by
      intro v hv
      refine howner v fun hrv => ?_
      have hp := h.present (List.mem_append_right _ hq) hv
      simp [hnew v hrv] at hp
    refine ⟨q, hkeep q hq, haddr, hstop, hhost, fun v w hv hw => ?_⟩
    rw [hout v hv, hout w hw]
    exact huni v w hv hw
  quiet := hquiet
  faults := hfaults ▸ h.faults
  service := hservice ▸ h.service

theorem allocs_find (h : VaInv s) {addr : ℕ}
    (hnew : (s.mem.mmu.pte (addr / pageSize)).present = false) : s.allocs.find addr = none := by
  rw [KeyMap.find_eq_none]
  intro e he heq
  have hr : (⟨e.1, e.2.size, e.2.host⟩ : Region) ∈ s.holder.fresh ++ s.items :=
    List.mem_append_right _ (List.mem_append_left _ (List.mem_map_of_mem he))
  obtain ⟨-, hsize, hpos⟩ := h.sized _ hr
  have hp := h.present hr (covers_first hsize hpos)
  rw [heq] at hp
  simp [hnew] at hp

theorem fresh_addr (h : VaInv s) (hf : s.holder.fresh = [r]) (q : Region) (hq : q ∈ s.items) :
    q.addr ≠ r.addr := by
  intro heq
  have hsized := h.sized
  have honce := h.once (r.addr / pageSize)
  rw [hf] at hsized honce
  obtain ⟨-, hrs, hrp⟩ := hsized r (by simp)
  obtain ⟨-, hqs, hqp⟩ := hsized q (by simp [hq])
  have hle := covers_le_coverage (x := r.addr / pageSize) (List.mem_map_of_mem (f := pagesOf) hq)
  have hqc := covers_first hqs hqp
  rw [heq] at hqc
  rw [List.singleton_append, List.map_cons, coverage_cons, covers_first hrs hrp] at honce
  split_ifs at honce <;> omega

theorem allocs_find_fresh (h : VaInv s) (hf : s.holder.fresh = [r]) :
    s.allocs.find r.addr = none := by
  rw [KeyMap.find_eq_none]
  intro e he
  exact h.fresh_addr hf ⟨e.1, e.2.size, e.2.host⟩ (List.mem_append_left _ (List.mem_map_of_mem he))

end VaInv

theorem setRange_present {f g : ℕ → Pte} {first n : ℕ} (hg : ∀ i, (g i).present = true)
    (hfree : ∀ i < n, (f (first + i)).present = false) (v : ℕ) :
    (covers (first, n) v = 1 → (f v).present = false) ∧
    (Mmu.setRange f first n g v).present = ((f v).present || covers (first, n) v == 1) := by
  constructor
  · intro hv
    obtain ⟨hlo, hhi⟩ := covers_eq_one.mp hv
    have := hfree (v - first) (by omega)
    rwa [Nat.add_sub_cancel' hlo] at this
  · simp only [Mmu.setRange, covers]
    split_ifs <;> simp [hg]

theorem recycle_mem (p : Pending) :
    (s.recycle p).mem.mmu = s.mem.mmu.unmap p.addr (p.size / pageSize) ∧
    (∀ e ∈ (s.recycle p).mem.ranges.entries, e ∈ s.mem.ranges.entries ∧
      (p.host ≠ 0 → e.1 ≠ p.addr)) := by
  by_cases hp : p.host = 0
  · simp only [State.recycle, if_pos hp]
    exact ⟨rfl, fun e he => ⟨he, fun hne => absurd hp hne⟩⟩
  · simp only [State.recycle, if_neg hp]
    obtain ⟨-, hranges, hmmu, -⟩ := recycleManaged_keeps s.mem p.addr p.size p.host
    refine ⟨hmmu, fun e he => ?_⟩
    rw [hranges] at he
    obtain ⟨he, hne⟩ := KeyMap.mem_erase.mp he
    exact ⟨he, fun _ => hne⟩

theorem VaInv.holder (h : VaInv s) (hs : HolderEffect s s') (hquiet : Quiet s') : VaInv s' := by
  cases hs with
  | handOver vram va allocs pending holder hs hitems hfresh =>
    subst hs
    exact h.keep (fun _ => rfl) rfl rfl hitems hfresh hquiet h.faults h.service
  | evictAll envs holder hs hitems hfresh =>
    subst hs
    have hshape := Shape.evictAllLocked s.mem envs s.mem.resident.length
    exact h.keep hshape.pages.present hshape.ranges rfl (.of_eq hitems) hfresh hquiet h.faults
      h.service
  | mapBlock addr bytes mmu hpark hfresh hdvd hmap hs =>
    subst hs
    obtain ⟨hva, -, hpos, -, -, hfree, hmmu⟩ := Mmu.mapVram_ok hmap
    have hitems := Owned.emplace_items ⟨bytes, 0⟩ (h.allocs_find (by simpa using hfree 0 hpos))
      { s.mem with mmu := mmu } hpark
    have hpres := setRange_present (g := fun i => .inFrame (addr / pageSize + i) false)
      (fun _ => rfl) hfree
    refine h.mapped (r := ⟨addr, bytes, 0⟩)
      ⟨hva, Nat.mod_eq_zero_of_dvd hdvd, Nat.pos_of_div_pos hpos⟩ (fun v => (hpres v).1) ?_ ?_
      (fun q hq => hitems.mem_iff.mpr (List.mem_cons_of_mem _ hq)) (fun _ _ => rfl) rfl
      (by simp [Holder.fresh]) hquiet rfl rfl
    · intro v
      rw [hmmu]
      exact (hpres v).2
    · rw [hfresh]
      exact hitems
  | create addr bytes host va mmu hpark hfresh hdvd hhost hmap hs =>
    subst hs
    obtain ⟨hva, -, hpos, -, hfree, hmmu⟩ := Mmu.mapHost_ok hmap
    have hpres := setRange_present (g := fun _ => Pte.hostResident) (fun _ => rfl) hfree
    simp only [State.hostOk, Bool.decide_and, Bool.and_eq_true, decide_eq_true_eq] at hhost
    have hitems : (s.created va mmu addr bytes host).items = s.items := by
      simp only [State.created, State.items, hpark]
      rfl
    refine h.mapped (r := ⟨addr, bytes, host⟩)
      ⟨hva, Nat.mod_eq_zero_of_dvd hdvd, Nat.pos_of_div_pos hpos⟩ (fun v => (hpres v).1) ?_ ?_
      (fun q hq => hitems ▸ hq) ?_ rfl ?_ hquiet rfl rfl
    · intro v
      simp only [State.created, hmmu]
      exact (hpres v).2
    · rw [hitems, hfresh]
      exact .refl _
    · intro v hv
      rw [Ne, covers_eq_one] at hv
      exact if_neg hv
    · intro q hq
      simp only [State.created, Holder.fresh, List.mem_singleton] at hq
      subst hq
      exact ⟨Nat.ne_of_gt hhost.2.1, .onRange _ _ _ _⟩
  | addRange addr bytes host id hh hs =>
    subst hs
    have hfresh : s.holder.fresh = [⟨addr, bytes, host⟩] := by rw [hh]; rfl
    have hother := h.fresh_addr hfresh
    have hnone := h.allocs_find_fresh hfresh
    have hrnone : s.mem.ranges.find addr = none := by
      rw [KeyMap.find_eq_none]
      intro e he
      obtain ⟨q, hq, haddr, -⟩ := h.ranges e he
      exact haddr ▸ hother q hq
    have hitems := Owned.emplace_items ⟨bytes, host⟩ hnone
      { s.mem with ranges := s.mem.ranges.emplace addr ⟨addr + bytes, host, id⟩ } (by rw [hh]; rfl)
    obtain ⟨hhost, huni⟩ := h.fresh ⟨addr, bytes, host⟩ (by simp [hfresh])
    have honce := h.once
    have hsized := h.sized
    rw [hfresh] at honce hsized
    refine ⟨?_, ?_, by simp [Holder.fresh], ?_, hquiet, h.faults, h.service⟩
    · intro v
      refine le_trans (le_of_eq ?_) (honce v)
      exact coverage_perm (hitems.map pagesOf)
    · intro q hq
      exact hsized q (hitems.mem_iff.mp hq)
    · intro e he
      rcases (KeyMap.mem_emplace hrnone).mp he with rfl | he
      · exact ⟨⟨addr, bytes, host⟩, hitems.mem_iff.mpr (by simp), rfl, rfl, hhost, huni⟩
      · obtain ⟨q, hq, hrest⟩ := h.ranges e he
        exact ⟨q, hitems.mem_iff.mpr (List.mem_cons_of_mem _ hq), hrest⟩
  | recycle p l holder hitems hs hitems' hfresh hfresh' =>
    subst hs
    obtain ⟨hmmu, hranges⟩ := recycle_mem (s := s) p
    have howner : (s.recycle p).owner = s.owner := by
      simp only [State.recycle]
      split_ifs <;> rfl
    have honce := h.once
    have hsized := h.sized
    rw [hfresh] at honce hsized
    refine ⟨?_, ?_, by simp [hfresh'], ?_, hquiet, ?_, ?_⟩
    · intro v
      have hold := honce v
      rw [List.nil_append, coverage_perm (hitems.map pagesOf), List.map_cons, coverage_cons] at hold
      rw [hfresh', List.nil_append, coverage_perm (hitems'.map pagesOf)]
      by_cases hv : covers (pagesOf p.item) v = 0
      · rw [hv, Nat.zero_add] at hold
        have hout : ¬(p.addr / pageSize ≤ v ∧ v < p.addr / pageSize + p.size / pageSize) := by
          intro hin
          have hone : covers (pagesOf p.item) v = 1 := covers_eq_one.mpr hin
          omega
        dsimp only
        rw [hmmu, (Mmu.unmap_outside s.mem.mmu hout).1]
        exact hold
      · have hz : coverage (l.map pagesOf) v = 0 := by
          split_ifs at hold <;> omega
        rw [hz]
        exact Nat.zero_le _
    · intro q hq
      rw [hfresh', List.nil_append, hitems'.mem_iff] at hq
      exact hsized q (hitems.mem_iff.mpr (List.mem_cons_of_mem _ hq))
    · intro e he
      obtain ⟨he, hne⟩ := hranges e he
      obtain ⟨q, hq, haddr, hstop, hhost, huni⟩ := h.ranges e he
      refine ⟨q, hitems'.mem_iff.mpr ?_, haddr, hstop, hhost, ?_⟩
      · rcases List.mem_cons.mp (hitems.mem_iff.mp hq) with rfl | hq
        · exact absurd haddr.symm (hne hhost)
        · exact hq
      · exact howner ▸ huni
    · simp only [State.recycle]
      split_ifs <;> exact h.faults
    · simp only [State.recycle]
      split_ifs <;> exact h.service

theorem va_init (cfg : Config) : VaInv (init cfg) where
  once := by simp [init, State.items, KeyMap.empty, Holder.parked, Holder.fresh]
  sized := by simp [init, State.items, KeyMap.empty, Holder.parked, Holder.fresh]
  fresh := by simp [init, Holder.fresh]
  ranges := by simp [init, KeyMap.empty]
  quiet := by simp [Quiet, init]
  faults := by simp [init]
  service := trivial

theorem faultStep_queue (hf : ∀ f ∈ s.faults, f.2 % pageSize = 0) (hv : s.service.Aligned)
    (hs : faultStep s a = some s') :
    (∀ f ∈ s'.faults, f.2 % pageSize = 0) ∧ s'.service.Aligned := by
  cases a with
  | raise c va =>
    simp only [faultStep, Option.ite_none_right_eq_some, Option.some.injEq] at hs
    obtain ⟨-, rfl⟩ := hs
    refine ⟨fun f hmem => ?_, hv⟩
    rcases List.mem_append.mp hmem with hmem | hmem
    · exact hf f hmem
    · rw [List.mem_singleton.mp hmem]
      exact mul_mod_pageSize _
  | pop =>
    simp only [faultStep] at hs
    split at hs <;> simp only [Option.some.injEq, reduceCtorEq] at hs
    rename_i c va rest _ hq
    subst hs
    rw [hq] at hf
    exact ⟨fun f hmem => hf f (List.mem_cons_of_mem _ hmem), hf (c, va) (by simp)⟩
  | demand env =>
    simp only [faultStep] at hs
    split at hs <;> try simp only [reduceCtorEq] at hs
    rename_i c va hsv
    rw [hsv] at hv
    split at hs <;> rw [Option.some.injEq] at hs <;> subst hs
    · refine ⟨hf, ?_⟩
      dsimp only
      split_ifs
      · exact (Nat.add_mod_right va pageSize).trans hv
      · trivial
    · exact ⟨hf, trivial⟩
  | prefetch envs =>
    simp only [faultStep] at hs
    split at hs <;> simp only [Option.some.injEq, reduceCtorEq] at hs
    exact hs ▸ ⟨hf, trivial⟩
  | hostFault addr env =>
    simp only [faultStep, Option.ite_none_right_eq_some, Option.some.injEq] at hs
    exact hs.2 ▸ ⟨hf, hv⟩
  | _ => simp [faultStep] at hs

theorem worldStep_queue (hs : worldStep s a = some s') :
    s'.faults = s.faults ∧ s'.service = s.service ∧ s'.moves = s.moves := by
  cases a <;> simp only [worldStep, reduceCtorEq] at hs
  all_goals
    repeat' split at hs
    all_goals
      simp only [Option.some.injEq, reduceCtorEq] at hs
      try exact hs ▸ ⟨rfl, rfl, rfl⟩

theorem va_step (h : VaInv s) (hs : step cfg s a = some s') : VaInv s' := by
  have hquiet := quiet_step h.quiet hs
  rcases step_cases hs with hs | hs | hs
  · exact h.holder (holderStep_cases h.quiet hs) hquiet
  · obtain ⟨hf, hv⟩ := faultStep_queue h.faults h.service hs
    exact h.outside (faultStep_outside hs) hquiet hf hv
  · obtain ⟨hf, hv, -⟩ := worldStep_queue hs
    exact h.outside (worldStep_outside hs) hquiet (hf ▸ h.faults) (hv ▸ h.service)

theorem reach_va {ok : State → Action → Prop} (h : Reach (step cfg) ok (init cfg) s) : VaInv s :=
  h.invariant (va_init cfg) fun _ _ _ hi _ hs => va_step hi hs

/-! ### The allocation of the pages that a fault moves -/

/-- When a prefetch that may move something starts at `next`, no managed range
starts there, and the page before it, which faulted, still has the owner it had
when it was migrated. -/
def staysInside (s : State) : Action → Prop
  | .prefetch _ =>
    match s.service with
    | .prefetch _ _ next id =>
      0 < s.mem.prefetchBudget →
        (∀ e ∈ s.mem.ranges.entries, e.1 ≠ next) ∧ s.owner (next / pageSize - 1) = id
    | _ => True
  | _ => True

instance (s : State) (a : Action) : Decidable (staysInside s a) := by
  unfold staysInside
  split
  · split <;> infer_instance
  · infer_instance

/-- The range found for `next` holds the page before it, so every page between
`next` and the end of that range has the same owner. -/
theorem prefetch_owner (h : VaInv s) {next : ℕ} (hnext : next % pageSize = 0)
    (hstart : ∀ e ∈ s.mem.ranges.entries, e.1 ≠ next) (envs : ℕ → Env) :
    ∀ w ∈ (s.mem.prefetchLocked next envs).2.1, s.owner (w / pageSize) =
      s.owner (next / pageSize - 1) := by
  intro w hw
  obtain ⟨hmod, hle, e, hat, hlt⟩ := (Shape.prefetchLocked s.mem next envs).2 w hw
  obtain ⟨he, hek, -⟩ := KeyMap.atMost_spec hat
  obtain ⟨r, hr, haddr, hstop, -, huni⟩ := h.ranges e he
  obtain ⟨hra, hrs, -⟩ := h.sized r (List.mem_append_right _ hr)
  have hne := hstart e he
  apply huni <;> rw [covers_eq_one] <;> simp only [pagesOf, pageSize] at * <;> omega

theorem prefetch_empty (m : Mem) (hb : m.prefetchBudget = 0) (va : ℕ) (envs : ℕ → Env) :
    (m.prefetchLocked va envs).2.1 = [] := by
  simp only [Mem.prefetchLocked]
  split
  · rfl
  · rw [hb]
    rfl

theorem step_moves (h : VaInv s) (hok : staysInside s a) (hm : ∀ p ∈ s.moves, p.1 = p.2)
    (hs : step cfg s a = some s') : ∀ p ∈ s'.moves, p.1 = p.2 := by
  rcases step_cases hs with hs | hs | hs
  · rw [(holderStep_cases h.quiet hs).moves]
    exact hm
  · cases a with
    | demand env =>
      simp only [faultStep] at hs
      split at hs <;> try simp only [reduceCtorEq] at hs
      split at hs <;> rw [Option.some.injEq] at hs <;> subst hs
      · intro p hp
        rcases List.mem_append.mp hp with hp | hp
        · exact hm p hp
        · rw [List.mem_singleton.mp hp]
      · exact hm
    | prefetch envs =>
      simp only [faultStep] at hs
      split at hs <;> simp only [Option.some.injEq, reduceCtorEq] at hs
      rename_i c i next id hsv
      subst hs
      have hnext := h.service
      simp only [staysInside, hsv] at hok hnext
      intro p hp
      rcases List.mem_append.mp hp with hp | hp
      · exact hm p hp
      · obtain ⟨w, hw, rfl⟩ := List.mem_map.mp hp
        rcases Nat.eq_zero_or_pos s.mem.prefetchBudget with hb | hb
        · rw [prefetch_empty _ hb] at hw
          simp at hw
        · obtain ⟨hstart, howner⟩ := hok hb
          dsimp only
          rw [prefetch_owner h hnext hstart envs w hw, howner]
    | raise c va =>
      simp only [faultStep, Option.ite_none_right_eq_some, Option.some.injEq] at hs
      exact hs.2 ▸ hm
    | pop =>
      simp only [faultStep] at hs
      split at hs <;> simp only [Option.some.injEq, reduceCtorEq] at hs
      exact hs ▸ hm
    | hostFault addr env =>
      simp only [faultStep, Option.ite_none_right_eq_some, Option.some.injEq] at hs
      exact hs.2 ▸ hm
    | _ => simp [faultStep] at hs
  · rw [(worldStep_queue hs).2.2]
    exact hm

/-- As long as no prefetch starts at the first page of a range, or after its
faulting page changed hands, every page a fault service migrates belongs to the
allocation of the faulting page. -/
theorem prefetch_stays (cfg : Config) (s : State)
    (h : Reach (step cfg) staysInside (init cfg) s) : ∀ p ∈ s.moves, p.1 = p.2 :=
  h.invariant_of (fun _ hr => reach_va hr) (by simp [init])
    fun _ _ _ hi hm hok hs => step_moves hi hok hm hs

/-- Two managed allocations, the first of `bytes` bytes, the second right behind
it; two sequential faults on the first, then the prefetch. -/
def adjacentRun (bytes : ℕ) : List Action :=
  [.lock (.allocManaged bytes), .reclaim, .mapManaged (some 409600), .addRange,
    .lock (.allocManaged 4096), .reclaim, .mapManaged (some 819200), .addRange,
    .raise (0, 0) vramBytes, .pop, .demand Env.calm,
    .raise (0, 0) (vramBytes + 4096), .pop, .demand Env.calm, .prefetch fun _ => Env.calm]

/-- With three pages in the first allocation the prefetch has one page to move
and stops in front of the second. -/
theorem prefetch_stays_adjacent :
    ∃ s, exec (when staysInside (step ⟨1, 1, false, 16⟩)) (init ⟨1, 1, false, 16⟩)
        (adjacentRun 12288) = some s ∧
      s.moves.length = 3 ∧ ∀ p ∈ s.moves, p.1 = p.2 := by
  have hrun : (exec (when staysInside (step ⟨1, 1, false, 16⟩)) (init ⟨1, 1, false, 16⟩)
      (adjacentRun 12288)).map (fun s => s.moves.length) = some 3 := by decide
  obtain ⟨s, hs, hlen⟩ := Option.map_eq_some_iff.mp hrun
  exact ⟨s, hs, hlen, prefetch_stays ⟨1, 1, false, 16⟩ s (.of_exec_when .refl hs)⟩

/-- With two pages the fault on the last one prefetches the second allocation. -/
theorem prefetch_leaves_allocation :
    ∃ s, Reach (step ⟨1, 1, false, 16⟩) anyStep (init ⟨1, 1, false, 16⟩) s ∧
      ∃ p ∈ s.moves, p.1 ≠ p.2 := by
  have hrun : (exec (step ⟨1, 1, false, 16⟩) (init ⟨1, 1, false, 16⟩) (adjacentRun 8192)).map
      (fun s => s.moves) = some [(0, 0), (0, 0), (0, 1)] := by decide
  obtain ⟨s, hs, hmoves⟩ := Option.map_eq_some_iff.mp hrun
  exact ⟨s, .of_exec .refl hs, (0, 1), by simp [hmoves], by decide⟩

end SoftGpu.Driver
