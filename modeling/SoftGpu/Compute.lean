import SoftGpu.Kernels
import SoftGpu.CopyExact

/-!
# Compute results and residency

A VADD or GEMM that finds each operand in one contiguous run computes in place; any
other goes through scratch buffers, phase by phase, and resumes in its phase after a
fault. By way of scratch the destination gets what the kernel computes from copies of
the sources. In place it gets the same if no source byte is read after the kernel has
stored to it.
-/

namespace SoftGpu.Exec
open Machine

variable {fl : Floats} {engine : ℕ} {c : Cmd} {x x' : Ctx} {s s' : State} {m m' : Mem}
  {dev host now : ℕ → UInt8} {d : ℕ}

def sourceA (fl : Floats) (c : Cmd) (dev : ℕ → UInt8) : ℕ → UInt8 :=
  gathered dev c.src0.toNat (c.kernel fl).bytesA

def sourceB (fl : Floats) (c : Cmd) (dev : ℕ → UInt8) : ℕ → UInt8 :=
  gathered dev c.src1.toNat (c.kernel fl).bytesB

def computed (fl : Floats) (c : Cmd) (dev : ℕ → UInt8) : ℕ → UInt8 :=
  (c.kernel fl).run (inScratch (sourceA fl c dev) (sourceB fl c dev)) fun _ => 0

inductive Phase (fl : Floats) (c : Cmd) (dev : ℕ → UInt8) : Replay → (ℕ → UInt8) → Prop
  | gatherA {d : ℕ} (h : d ≤ (c.kernel fl).bytesA) :
      Phase fl c dev ⟨d, 0, true, gathered dev c.src0.toNat d, fun _ => 0, fun _ => 0⟩ dev
  | gatherB {d : ℕ} (h : d ≤ (c.kernel fl).bytesB) :
      Phase fl c dev ⟨d, 1, true, sourceA fl c dev, gathered dev c.src1.toNat d, fun _ => 0⟩ dev
  | scatter {d : ℕ} (h : d ≤ (c.kernel fl).bytesD) :
      Phase fl c dev ⟨d, 3, true, sourceA fl c dev, sourceB fl c dev, computed fl c dev⟩
        (patch dev c.dst.toNat d (computed fl c dev))

def computing (fl : Floats) (c : Cmd) (dev host : ℕ → UInt8) : Description := fun r now now' =>
  now' = host ∧ (r = .init ∧ now = dev ∨ Phase fl c dev r now)

abbrev ComputeSpec (fl : Floats) (c : Cmd) (x : Ctx) (dev host : ℕ → UInt8) :
    Outcome Unit × Replay × Mem → Prop :=
  Leaves x (computing fl c dev host)
    (patch dev c.dst.toNat (c.kernel fl).bytesD (computed fl c dev)) host

structure Sources (fl : Floats) (c : Cmd) (x : Ctx) : Prop where
  a : ∀ i < (c.kernel fl).bytesA, x.pages ((c.src0.toNat + i) / pageSize)
  b : ∀ i < (c.kernel fl).bytesB, x.pages ((c.src1.toNat + i) / pageSize)

/-! ### By way of scratch -/

theorem scatter_compute (hd : d ≤ (c.kernel fl).bytesD)
    (h : Sees x m (patch dev c.dst.toNat d (computed fl c dev))) :
    ComputeSpec fl c x dev host (scatter m
      ⟨d, 3, true, sourceA fl c dev, sourceB fl c dev, computed fl c dev⟩
      c.dst.toNat (c.kernel fl).bytesD (computed fl c dev)) := by
  cases hs : scatter m ⟨d, 3, true, sourceA fl c dev, sourceB fl c dev, computed fl c dev⟩
      c.dst.toNat (c.kernel fl).bytesD (computed fl c dev) with
  | mk p rest =>
    obtain ⟨q, m'⟩ := rest
    obtain ⟨d', hd', rfl, hsees', -, hdone⟩ := scatter_spec hs h hd
    cases p with
    | done u =>
      obtain rfl := hdone rfl
      exact ⟨hsees', rfl⟩
    | pageFault v => exact ⟨_, hsees', rfl, .inr (.scatter hd')⟩
    | split => trivial
    | error e => trivial

theorem gatherB_compute (host : ℕ → UInt8) (hS : Sources fl c x) (hd : d ≤ (c.kernel fl).bytesB)
    (h : Sees x m dev) :
    ComputeSpec fl c x dev host (Outcome.andThen (gatherB m
      ⟨d, 1, true, sourceA fl c dev, gathered dev c.src1.toNat d, fun _ => 0⟩
      c.src1.toNat (c.kernel fl).bytesB) id fun _ s₂ =>
        scatter s₂.2 (computeC (c.kernel fl) s₂.1) c.dst.toNat (c.kernel fl).bytesD
          (computeC (c.kernel fl) s₂.1).c) := by
  cases hg : gatherB m ⟨d, 1, true, sourceA fl c dev, gathered dev c.src1.toNat d, fun _ => 0⟩
      c.src1.toNat (c.kernel fl).bytesB with
  | mk p rest =>
    obtain ⟨q, m'⟩ := rest
    obtain ⟨hsees', hsplit, hdone, hfault⟩ := gatherB_spec hg h hS.b rfl rfl hd
    cases p with
    | done u =>
      obtain rfl := hdone rfl
      refine scatter_compute (Nat.zero_le _) ?_
      rw [patch_zero]
      exact hsees'
    | pageFault v =>
      obtain ⟨d', hd', rfl⟩ := hfault nofun
      exact ⟨_, hsees', rfl, .inr (.gatherB hd')⟩
    | split => exact absurd rfl hsplit
    | error e => trivial

theorem gatherA_compute (host : ℕ → UInt8) (hS : Sources fl c x) (hd : d ≤ (c.kernel fl).bytesA)
    (h : Sees x m dev) :
    ComputeSpec fl c x dev host (computePhases m
      ⟨d, 0, true, gathered dev c.src0.toNat d, fun _ => 0, fun _ => 0⟩ c (c.kernel fl)) := by
  simp only [computePhases]
  cases hg : gatherA m ⟨d, 0, true, gathered dev c.src0.toNat d, fun _ => 0, fun _ => 0⟩
      c.src0.toNat (c.kernel fl).bytesA with
  | mk p rest =>
    obtain ⟨q, m'⟩ := rest
    obtain ⟨hsees', hsplit, hdone, hfault⟩ := gatherA_spec hg h hS.a rfl rfl hd
    cases p with
    | done u =>
      obtain rfl := hdone rfl
      have hspec := gatherB_compute host hS (Nat.zero_le _) hsees'
      rw [gathered_zero] at hspec
      exact hspec
    | pageFault v =>
      obtain ⟨d', hd', rfl⟩ := hfault nofun
      exact ⟨_, hsees', rfl, .inr (.gatherA hd')⟩
    | split => exact absurd rfl hsplit
    | error e => trivial

theorem computePhases_spec (hS : Sources fl c x) {r : Replay} (hr : Phase fl c dev r now)
    (h : Sees x m now) : ComputeSpec fl c x dev host (computePhases m r c (c.kernel fl)) := by
  cases hr with
  | gatherA hd => exact gatherA_compute host hS hd h
  | gatherB hd => exact gatherB_compute host hS hd h
  | scatter hd => exact scatter_compute hd h

/-! ### In place -/

theorem resolveAll_spec {k : Kernel} {p : Outcome (ℕ × ℕ × ℕ)} (hx : resolveAll m c k = (p, m')) :
    Flagged m m' ∧ ∀ d s₀ s₁, p = .done (d, s₀, s₁) → RunOk m' c.dst.toNat d k.bytesD true ∧
      RunOk m' c.src0.toNat s₀ k.bytesA false ∧ RunOk m' c.src1.toNat s₁ k.bytesB false := by
  obtain ⟨s₀, m₁, hf₁, h₀, hx⟩ | ⟨hf, hne⟩ := resolve_then hx
  · obtain ⟨s₁, m₂, hf₂, h₁, hx⟩ | ⟨hf₂, hne⟩ := resolve_then hx
    · obtain ⟨d, m₃, hf₃, hd, hx⟩ | ⟨hf₃, hne⟩ := resolve_then hx
      · cases hx
        refine ⟨(hf₁.trans hf₂).trans hf₃, fun d' s₀' s₁' heq => ?_⟩
        cases heq
        exact ⟨hd, h₀.flagged (hf₂.trans hf₃), h₁.flagged hf₃⟩
      · exact ⟨(hf₁.trans hf₂).trans hf₃, fun _ _ _ heq => absurd heq (hne _)⟩
    · exact ⟨hf₁.trans hf₂, fun _ _ _ heq => absurd heq (hne _)⟩
  · exact ⟨hf, fun _ _ _ heq => absurd heq (hne _)⟩

theorem Sees.placed {s₀ s₁ : ℕ} (hS : Sources fl c x) (h : Sees x m dev)
    (hd : RunOk m c.dst.toNat d (c.kernel fl).bytesD true)
    (h₀ : RunOk m c.src0.toNat s₀ (c.kernel fl).bytesA false)
    (h₁ : RunOk m c.src1.toNat s₁ (c.kernel fl).bytesB false) :
    Placed m.bytes c (c.kernel fl) d s₀ s₁ (sourceA fl c dev) (sourceB fl c dev) where
  bytesA := fun i hi => (h.read h₀ hi (hS.a i hi)).trans (gathered_apply hi).symm
  bytesB := fun i hi => (h.read h₁ hi (hS.b i hi)).trans (gathered_apply hi).symm
  aliasA := fun _ hi _ hj heq => h.va_eq h₀ hd hi hj heq
  aliasB := fun _ hi _ hj heq => h.va_eq h₁ hd hi hj heq

theorem compute_spec (hop : c.opcode = .vaddF32 ∨ c.opcode = .gemmF32) (hfit : c.LoopsFit)
    (hfirst : c.ReadsFirst) (hS : Sources fl c x) {r : Replay} (h : Sees x m now)
    (hr : computing fl c dev host r now host) :
    ComputeSpec fl c x dev host (compute m r c (c.kernel fl)) := by
  obtain ⟨-, ⟨rfl, rfl⟩ | hphase⟩ := hr
  · -- The first attempt.
    simp only [compute, Replay.init, Bool.false_eq_true, if_false]
    cases hall : resolveAll m c (c.kernel fl) with
    | mk p m₁ =>
      obtain ⟨hf, hruns⟩ := resolveAll_spec hall
      have h₁ := h.flagged hf
      cases p with
      | done y =>
        obtain ⟨hd, h₀, h₁'⟩ := hruns y.1 y.2.1 y.2.2 rfl
        have hkernel := kernel_inPlace (z := fun _ => 0) hop hfit hfirst (h₁.placed hS hd h₀ h₁')
        have hstore := h₁.store hd (computed fl c now)
        rw [computed, ← hkernel] at hstore
        exact ⟨hstore, rfl⟩
      | pageFault v =>
        have hphase : Phase fl c now ⟨0, 0, true, fun _ => 0, fun _ => 0, fun _ => 0⟩ now := by
          have hstart : Phase fl c now ⟨0, 0, true, gathered now c.src0.toNat 0,
            fun _ => 0, fun _ => 0⟩ now :=
            .gatherA (Nat.zero_le _)
          rwa [gathered_zero] at hstart
        exact ⟨now, h₁, rfl, .inr hphase⟩
      | split =>
        have hspec := gatherA_compute (d := 0) host hS (Nat.zero_le _) h₁
        rw [gathered_zero] at hspec
        exact hspec
      | error e => trivial
  · have hgather : r.gather = true := by
      cases hphase <;> rfl
    simp only [compute, hgather, if_true]
    exact computePhases_spec hS hphase h

theorem resumes_compute (hop : c.opcode = .vaddF32 ∨ c.opcode = .gemmF32) (hfit : c.LoopsFit)
    (hfirst : c.ReadsFirst) (hS : Sources fl c x) :
    Resumes fl engine c x (computing fl c dev host)
      (patch dev c.dst.toNat (c.kernel fl).bytesD (computed fl c dev)) host := by
  refine resumes_of_leaves (f := fun m r => compute m r c (c.kernel fl)) ?_ (fun _ _ _ hD => hD.1)
    fun m r now hsees hD => compute_spec hop hfit hfirst hS hsees hD
  intro w r _
  obtain hop | hop := hop
  · simp only [execute, hop]
    split
    · exact .inl rfl
    · exact .inr rfl
  · simp only [execute, hop]
    split
    · exact .inl rfl
    · exact .inr rfl

/-! ### Runs -/

/-- A state that a compute command can start from: frame ownership holds, its operands
are mapped and nobody else has written them. -/
structure Ready (fl : Floats) (c : Cmd) (x : Ctx) (m : Mem) : Prop where
  inv : MemInv m x.loose x.blocks x.regions
  ranges : ∀ e ∈ m.ranges.entries, e.1 ≤ e.2.stop ∧
    (⟨e.1, e.2.stop - e.1, e.2.host⟩ : Region) ∈ x.regions
  mapped : ∀ v, x.pages v → (m.mmu.pte v).present = true
  settled : Settled m x.pages
  sources : Sources fl c x
  dst : ∀ i < (c.kernel fl).bytesD, x.pages ((c.dst.toNat + i) / pageSize)

theorem reach_computed (hop : c.opcode = .vaddF32 ∨ c.opcode = .gemmF32) (hfit : c.LoopsFit)
    (hfirst : c.ReadsFirst) {start : World} (hready : Ready fl c x start.mem)
    (h : Reach (step fl engine c) (undisturbed x.pages) ⟨start, .init, none⟩ s)
    (hdone : s.retired = some (.done ())) {i : ℕ} (hi : i < (c.kernel fl).bytesD) :
    view s.world.mem (c.dst.toNat + i) = computed fl c (view start.mem) i := by
  have hdesc := reach_described (resumes_compute hop hfit hfirst hready.sources)
    ⟨hready.inv, hready.ranges, hready.mapped, hready.settled.backed⟩ ⟨rfl, .inl ⟨rfl, rfl⟩⟩ h
  simp only [Described, hdone] at hdesc
  rw [hdesc.1.view_eq (hready.dst i hi), patch_add hi]

theorem computed_congr {dev' : ℕ → UInt8}
    (ha : ∀ i < (c.kernel fl).bytesA, dev (c.src0.toNat + i) = dev' (c.src0.toNat + i))
    (hb : ∀ i < (c.kernel fl).bytesB, dev (c.src1.toNat + i) = dev' (c.src1.toNat + i)) :
    computed fl c dev = computed fl c dev' := by
  have hA : sourceA fl c dev = sourceA fl c dev' := patch_congr ha
  have hB : sourceB fl c dev = sourceB fl c dev' := patch_congr hb
  rw [computed, computed, hA, hB]

/-- The kernel of the command, run in place on flat memory, leaves what it computes from
copies of the sources, whatever the arithmetic and the bytes. -/
def Cmd.SameInPlace (c : Cmd) : Prop := ∀ (fl : Floats) (dev : ℕ → UInt8),
  (c.kernel fl).run (inPlace c.dst.toNat c.src0.toNat c.src1.toNat) dev =
    patch dev c.dst.toNat (c.kernel fl).bytesD (computed fl c dev)

theorem element_patch {g : ℕ → UInt8} {i n : ℕ} (hi : 4 * (i + 1) ≤ n) :
    element (patch dev d n g) d i = element g 0 i := by
  funext j
  have hj := j.isLt
  simp only [element, Nat.zero_add, Nat.add_assoc]
  exact patch_add (by omega)

theorem gathered_ones {va n i : ℕ} (hi : 4 * (i + 1) ≤ n) (j : Fin 4) :
    element (gathered (fun _ => 1) va n) 0 i j = 1 := by
  have hj := j.isLt
  simp only [element, Nat.zero_add]
  exact gathered_apply (by omega)

theorem sameInPlace_iff (hop : c.opcode = .vaddF32 ∨ c.opcode = .gemmF32) (hfit : c.LoopsFit) :
    c.SameInPlace ↔ c.ReadsFirst := by
  constructor
  · intro hsame
    obtain hop | hop := hop
    · have hones := hsame (marking 1) fun _ => 1
      simp only [computed, sourceA, sourceB, Cmd.kernel, hop, if_true, vectorBytes_exact] at hones
      rw [vadd_ones (fun i hi => gathered_ones (by omega)) fun i hi => gathered_ones (by omega)]
        at hones
      refine vadd_readsFirst (fun _ => 1) hop fun i hi => ?_
      rw [hones, element_patch (by omega)]
      rfl
    · have hne : ¬c.opcode = .vaddF32 := by simp [hop]
      obtain ⟨hmk, hkn, hmn⟩ := hfit hop
      have hones := hsame (marking 0) fun _ => 1
      simp only [computed, sourceA, sourceB, Cmd.kernel, if_neg hne, matrixBytes_exact.mpr hmk,
        matrixBytes_exact.mpr hmn] at hones
      rw [gemm_ones (fun i hi => gathered_ones (by omega)) fun hm i hi => gathered_ones (by
        rw [matrixBytes_exact.mpr (hkn.resolve_left hm.ne')]; omega)] at hones
      refine gemm_readsFirst (fun _ => 1) hop fun q hq => ?_
      rw [hones, element_patch (by omega)]
      rfl
  · intro hfirst fl dev
    exact kernel_inPlace hop hfit hfirst
      { bytesA := fun i hi => (gathered_apply hi).symm
        bytesB := fun i hi => (gathered_apply hi).symm
        aliasA := fun _ _ _ _ => id
        aliasB := fun _ _ _ _ => id }

/-- For a VADD or GEMM whose loops stay inside its operands, running in place is the same
as running on copies exactly if no source byte is read that the kernel has stored before.
Such a command leaves the same destination in any two runs that find the same sources and
retire with status 0, whatever is resident when it starts and whatever happens to
residency between its attempts. -/
theorem compute_independent_of_residency (hop : c.opcode = .vaddF32 ∨ c.opcode = .gemmF32)
    (hfit : c.LoopsFit) :
    (c.SameInPlace ↔ c.ReadsFirst) ∧
    (c.ReadsFirst → ∀ (fl : Floats) (engine : ℕ) (x x' : Ctx) (start start' : World)
      (s s' : State), Ready fl c x start.mem → Ready fl c x' start'.mem →
      (∀ i < (c.kernel fl).bytesA,
        view start.mem (c.src0.toNat + i) = view start'.mem (c.src0.toNat + i)) →
      (∀ i < (c.kernel fl).bytesB,
        view start.mem (c.src1.toNat + i) = view start'.mem (c.src1.toNat + i)) →
      Reach (step fl engine c) (undisturbed x.pages) ⟨start, .init, none⟩ s →
      Reach (step fl engine c) (undisturbed x'.pages) ⟨start', .init, none⟩ s' →
      s.retired = some (.done ()) → s'.retired = some (.done ()) →
      ∀ i < (c.kernel fl).bytesD,
        view s.world.mem (c.dst.toNat + i) = view s'.world.mem (c.dst.toNat + i)) := by
  refine ⟨sameInPlace_iff hop hfit, ?_⟩
  intro hfirst fl engine x x' start start' s s' hready hready' ha hb h h' hdone hdone' i hi
  rw [reach_computed hop hfit hfirst hready h hdone hi,
    reach_computed hop hfit hfirst hready' h' hdone' hi, computed_congr ha hb]

def plainFloats : Floats :=
  ⟨fun u v => if ∀ i, v i = 0 then u else v, fun _ _ => Word.zero⟩

/-- A VADD of two elements, of which the second source has zeros, on the first managed page. -/
def vaddAt (dst : UInt64) : Cmd := ⟨.vaddF32, 0, dst, 268435456, 268435520, 0, 2, 0, 0, 0, 0⟩

def managedWorld : World := ⟨managedStart.mem, fun _ => 0⟩

def residentRun : List Action := [.migrate Driver.vramBytes Driver.Env.calm, .attempt]

def faultingRun : List Action := [.attempt, .migrate Driver.vramBytes Driver.Env.calm, .attempt]

theorem quiet_run {as : List Action}
    (has : as = residentRun ∨ as = faultingRun) (h : exec (step fl engine c)
      ⟨managedWorld, .init, none⟩ as = some s) :
    Reach (step fl engine c) (undisturbed managedCtx.pages) ⟨managedWorld, .init, none⟩ s := by
  refine .of_exec_of (fun a ha s => ?_) .refl h
  have ha' : a = .attempt ∨ a = .migrate Driver.vramBytes Driver.Env.calm := by
    rcases has with rfl | rfl
    · simp only [residentRun, List.mem_cons, List.not_mem_nil, or_false] at ha
      exact ha.symm
    · simp only [faultingRun, List.mem_cons, List.not_mem_nil, or_false] at ha
      tauto
  obtain rfl | rfl := ha'
  · trivial
  · exact fun _ => rfl

/-- Both ways agree when the destination is the first source. -/
theorem compute_in_place_of_source : ∃ s s',
    exec (step plainFloats 0 (vaddAt 268435456)) ⟨managedWorld, .init, none⟩ residentRun = some s ∧
    exec (step plainFloats 0 (vaddAt 268435456)) ⟨managedWorld, .init, none⟩ faultingRun = some s' ∧
    ∀ i < 8, view s.world.mem (268435456 + i) = view s'.world.mem (268435456 + i) := by
  have hrun : (exec (step plainFloats 0 (vaddAt 268435456)) ⟨managedWorld, .init, none⟩
      residentRun).map State.succeeded = some true := by decide +kernel
  have hrun' : (exec (step plainFloats 0 (vaddAt 268435456)) ⟨managedWorld, .init, none⟩
      faultingRun).map State.succeeded = some true := by decide +kernel
  obtain ⟨s, hs, hsucc⟩ := Option.map_eq_some_iff.mp hrun
  obtain ⟨s', hs', hsucc'⟩ := Option.map_eq_some_iff.mp hrun'
  have hbytes : ((vaddAt 268435456).kernel plainFloats).bytesD = 8 := by decide
  have hready : Ready plainFloats (vaddAt 268435456) managedCtx managedWorld.mem :=
    { inv := managedStart_inv.mem
      ranges := managedStart_ranges
      mapped := managedStart_mapped
      settled := managedStart_settled
      sources := ⟨by decide, by decide⟩
      dst := by decide }
  have hfirst : (vaddAt 268435456).ReadsFirst := .inr ⟨.inl (by decide), .inl (by decide)⟩
  refine ⟨s, s', hs, hs', ?_⟩
  rw [← hbytes]
  exact (compute_independent_of_residency (c := vaddAt 268435456) (.inl rfl) nofun).2 hfirst
    plainFloats 0 managedCtx managedCtx managedWorld managedWorld s s' hready hready
      (fun _ _ => rfl) (fun _ _ => rfl)
    (quiet_run (.inl rfl) hs) (quiet_run (.inr rfl) hs') (State.retired_of_succeeded hsucc)
    (State.retired_of_succeeded hsucc')

def managedView : View := { onePage with
  allocs := fun _ => ⟨KeyMap.empty.emplace 268435456 12288, by decide⟩ }

/-- The destination starts at the second element of the first source. In place the second
sum reads the first one. -/
theorem compute_shifted_depends_on_residency :
    ¬∀ (d : View) (a : Args) (fl : Floats) (x : Ctx) (start : World) (s s' : State),
      doSubmit d a = .ok [a.cmd] → a.cmd.opcode = .vaddF32 ∨ a.cmd.opcode = .gemmF32 →
      Ready fl a.cmd x start.mem →
      Reach (step fl a.engine a.cmd) (undisturbed x.pages) ⟨start, .init, none⟩ s →
      Reach (step fl a.engine a.cmd) (undisturbed x.pages) ⟨start, .init, none⟩ s' →
      s.retired = some (.done ()) → s'.retired = some (.done ()) →
      ∀ i < (a.cmd.kernel fl).bytesD,
        view s.world.mem (a.cmd.dst.toNat + i) = view s'.world.mem (a.cmd.dst.toNat + i) := by
  intro hall
  have hsub : doSubmit managedView ⟨vaddAt 268435460, 0, 0, 0⟩ = .ok [vaddAt 268435460] := by
    decide +kernel
  have hrun : (exec (step plainFloats 0 (vaddAt 268435460)) ⟨managedWorld, .init, none⟩
      residentRun).map (fun s => (s.succeeded, view s.world.mem 268435467)) =
      some (true, 0x3f) := by decide +kernel
  have hrun' : (exec (step plainFloats 0 (vaddAt 268435460)) ⟨managedWorld, .init, none⟩
      faultingRun).map (fun s => (s.succeeded, view s.world.mem 268435467)) =
      some (true, 0) := by decide +kernel
  obtain ⟨s, hs, hsum⟩ := Option.map_eq_some_iff.mp hrun
  obtain ⟨s', hs', hsum'⟩ := Option.map_eq_some_iff.mp hrun'
  simp only [Prod.mk.injEq] at hsum hsum'
  have hready : Ready plainFloats (vaddAt 268435460) managedCtx managedWorld.mem :=
    { inv := managedStart_inv.mem
      ranges := managedStart_ranges
      mapped := managedStart_mapped
      settled := managedStart_settled
      sources := ⟨by decide, by decide⟩
      dst := by decide }
  have heq := hall managedView ⟨vaddAt 268435460, 0, 0, 0⟩ plainFloats managedCtx managedWorld s s'
    hsub (.inl rfl) hready (quiet_run (.inl rfl) hs) (quiet_run (.inr rfl) hs')
    (State.retired_of_succeeded hsum.1) (State.retired_of_succeeded hsum'.1) 7 (by decide)
  have haddr : (vaddAt 268435460).dst.toNat + 7 = 268435467 := by decide
  simp only [haddr] at heq
  rw [hsum.2, hsum'.2] at heq
  exact absurd heq (by decide)

end SoftGpu.Exec
