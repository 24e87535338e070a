import SoftGpu.Attempts
import SoftGpu.FrameOwnership

/-!
# Fills and copies are exact

Whatever happens between its attempts, a fill or a copy that retires with status 0 has
done what the same command does at once on flat memory, and the replay state is back
to its initial value.
-/

namespace SoftGpu.Exec
open Machine

/-- The byte at a device address: in its frame, or in the host page that backs it. -/
def view (m : Mem) (va : ℕ) : UInt8 :=
  let p := m.mmu.pte (va / pageSize)
  let off : Fin pageSize := ⟨va % pageSize, Nat.mod_lt va pageSize_pos⟩
  if p.inVram then m.frames p.pa off
  else ((m.hostMem (m.mmu.host (va / pageSize))).getD .zero) off

/-- The effect of a fill or a copy on flat memory, `memset` and `memmove`. -/
def flat (c : Cmd) (dev host : ℕ → UInt8) : (ℕ → UInt8) × (ℕ → UInt8) :=
  match c.opcode with
  | .fill =>
    (patch dev c.dst.toNat c.size.toNat fun _ => UInt8.ofNat c.value.toNat, host)
  | .copyH2D =>
    (patch dev c.dst.toNat c.size.toNat fun i => host (c.src0.toNat + i), host)
  | .copyD2H =>
    (dev, patch host c.dst.toNat c.size.toNat fun i => dev (c.src0.toNat + i))
  | .copyD2D =>
    (patch dev c.dst.toNat c.size.toNat fun i => dev (c.src0.toNat + i), host)
  | _ => (dev, host)

variable {fl : Floats} {engine : ℕ} {c : Cmd} {x : Ctx} {s : State} {m m' : Mem}
  {dev host : ℕ → UInt8} {w : World}

theorem Sees.view_eq (h : Sees x m dev) {va : ℕ} (hS : x.pages (va / pageSize)) :
    view m va = dev va := by
  have hva : va / pageSize * pageSize + va % pageSize = va := by
    rw [Nat.mul_comm]
    exact Nat.div_add_mod va pageSize
  simp only [view]
  split
  · next hin =>
    rw [h.backed.frame _ hS hin, pageOf]
    exact congrArg dev hva
  · next hout =>
    rw [h.backed.host _ hS (h.mapped _ hS) (by simpa using hout), Option.getD_some, pageOf]
    exact congrArg dev hva

/-- No other writer has touched the pages in `S` behind the device: a host page that is
needed is there, and a frame that an eviction would drop agrees with its host page. -/
structure Settled (m : Mem) (S : ℕ → Prop) : Prop where
  host : ∀ v, S v → (m.mmu.pte v).present = true → (m.mmu.pte v).inVram = false →
    m.hostMem (m.mmu.host v) ≠ none
  clean : m.uffd = false → ∀ v, S v → m.mmu.vramPages ≤ v → (m.mmu.pte v).inVram = true →
    (m.mmu.pte v).dirty = false → m.hostMem (m.mmu.host v) = some (m.frames (m.mmu.pte v).pa)
  dropped : m.uffd = true → ∀ v, S v → m.mmu.vramPages ≤ v → (m.mmu.pte v).inVram = true →
    m.hostMem (m.mmu.host v) = none

theorem pageOf_view (m : Mem) (v : ℕ) : pageOf (view m) v =
    if (m.mmu.pte v).inVram then m.frames (m.mmu.pte v).pa
    else (m.hostMem (m.mmu.host v)).getD .zero := by
  funext off
  have hdiv : (v * pageSize + off) / pageSize = v := by
    rw [Nat.mul_comm, Nat.mul_add_div pageSize_pos, Nat.div_eq_of_lt off.isLt, Nat.add_zero]
  have hmod : (v * pageSize + off) % pageSize = off := by
    rw [Nat.mul_comm, Nat.mul_add_mod, Nat.mod_eq_of_lt off.isLt]
  simp only [pageOf, view, hdiv, hmod]
  split <;> rfl

theorem Settled.backed {S : ℕ → Prop} (h : Settled m S) : Backed m (view m) S where
  frame := by
    intro v _ hin
    rw [pageOf_view, if_pos hin]
  host := by
    intro v hS hp hout
    obtain ⟨page, hpage⟩ := Option.ne_none_iff_exists'.mp (h.host v hS hp hout)
    rw [pageOf_view, hpage, hout]
    rfl
  clean := by
    intro hu v hS hv hin hd
    rw [pageOf_view, if_pos hin]
    exact h.clean hu v hS hv hin hd
  dropped := h.dropped

/-! ### Commands that count their bytes -/

def counted (len : ℕ) (devAt hostAt : ℕ → ℕ → UInt8) : Description :=
  fun r dev host => ∃ d ≤ len, r = { Replay.init with done := d } ∧ dev = devAt d ∧ host = hostAt d

theorem resumes_scatter {data : ℕ → UInt8} (hexec : ∀ (w : World) (r : Replay), w.host = host →
      execute fl engine w r c = (.error .einval, r, w) ∨ execute fl engine w r c =
        ((scatter w.mem r c.dst.toNat c.size.toNat data).1,
          (scatter w.mem r c.dst.toNat c.size.toNat data).2.1,
          ⟨(scatter w.mem r c.dst.toNat c.size.toNat data).2.2, w.host⟩)) :
    Resumes fl engine c x
      (counted c.size.toNat (fun d => patch dev c.dst.toNat d data) fun _ => host)
      (patch dev c.dst.toNat c.size.toNat data) host := by
  refine resumes_of_leaves (f := fun m r => scatter m r c.dst.toNat c.size.toNat data) hexec
    (fun r now now' ⟨d, _, _, _, hhost⟩ => hhost) ?_
  rintro m r now hsees ⟨d, hd, rfl, rfl, -⟩
  cases hs : scatter m { Replay.init with done := d } c.dst.toNat c.size.toNat data with
  | mk p rest =>
    obtain ⟨q, m'⟩ := rest
    obtain ⟨d', hd', rfl, hsees', -, hdone⟩ := scatter_spec hs hsees hd
    cases p with
    | done u =>
      obtain rfl := hdone rfl
      exact ⟨hsees', rfl⟩
    | pageFault v => exact ⟨_, hsees', d', hd', rfl, rfl, rfl⟩
    | split => trivial
    | error e => trivial

theorem resumes_fill (hop : c.opcode = .fill) : Resumes fl engine c x
    (counted c.size.toNat (fun d => patch dev c.dst.toNat d fun _ => UInt8.ofNat c.value.toNat)
      fun _ => host) (flat c dev host).1 (flat c dev host).2 := by
  simp only [flat, hop]
  apply resumes_scatter
  intro w r _
  simp only [execute, hop]
  split
  · exact .inl rfl
  · exact .inr rfl

theorem resumes_copyH2D (hop : c.opcode = .copyH2D) : Resumes fl engine c x
    (counted c.size.toNat (fun d => patch dev c.dst.toNat d fun i => host (c.src0.toNat + i))
      fun _ => host) (flat c dev host).1 (flat c dev host).2 := by
  simp only [flat, hop]
  apply resumes_scatter
  intro w r hhost
  simp only [execute, hop, ← hhost]
  split
  · exact .inl rfl
  · exact .inr rfl

theorem resumes_copyD2H (hop : c.opcode = .copyD2H)
    (hS : ∀ i < c.size.toNat, x.pages ((c.src0.toNat + i) / pageSize)) : Resumes fl engine c x
    (counted c.size.toNat (fun _ => dev)
      fun d => patch host c.dst.toNat d fun i => dev (c.src0.toNat + i))
    (flat c dev host).1 (flat c dev host).2 := by
  intro w w' r r' o dev₁ hx hsees hD
  obtain ⟨d, hd, rfl, rfl, hhost⟩ := hD
  simp only [flat, hop]
  simp only [execute, hop] at hx
  split at hx
  · cases hx
    trivial
  · cases hread : readRuns w.mem d c.src0.toNat c.size.toNat c.dst.toNat w.host with
    | mk p rest =>
      obtain ⟨d', m', buf⟩ := rest
      simp only [hread] at hx
      cases hx
      obtain ⟨⟨hsees', rfl⟩, hd', -, hdone⟩ := readRuns_spec hread hsees hS hhost hd
      cases o with
      | done u =>
        obtain rfl := hdone rfl
        exact ⟨hsees', rfl, rfl⟩
      | pageFault v => exact ⟨_, hsees', d', hd', rfl, rfl, rfl⟩
      | split => trivial
      | error e => trivial

theorem resumes_copyD2D_apart (hop : c.opcode = .copyD2D) (hapart : c.overlap = false)
    (hS : ∀ i < c.size.toNat, x.pages ((c.src0.toNat + i) / pageSize)) : Resumes fl engine c x
    (counted c.size.toNat (fun d => patch dev c.dst.toNat d fun i => dev (c.src0.toNat + i))
      fun _ => host) (flat c dev host).1 (flat c dev host).2 := by
  intro w w' r r' o dev₁ hx hsees hD
  obtain ⟨d, hd, rfl, rfl, hhost⟩ := hD
  simp only [flat, hop]
  simp only [execute, hop, hapart, Bool.false_eq_true, if_false] at hx
  split at hx
  · cases hx
    trivial
  · cases hcopy : copyRuns c.dst.toNat c.src0.toNat c.size.toNat c.size.toNat d w.mem with
    | mk p rest =>
      obtain ⟨d', m'⟩ := rest
      simp only [hcopy] at hx
      cases hx
      by_cases hzero : c.size.toNat = 0
      · -- Nothing to copy.
        obtain rfl : d = 0 := by omega
        rw [hzero] at hcopy
        cases hcopy
        rw [hzero]
        exact ⟨hsees, hhost, rfl⟩
      · have hdisjoint : c.dst.toNat + c.size.toNat ≤ c.src0.toNat ∨
            c.src0.toNat + c.size.toNat ≤ c.dst.toNat := by
          simp only [Cmd.overlap, decide_eq_false_iff_not] at hapart
          omega
        obtain ⟨hsees', hd', -, hdone⟩ := copyRuns_spec hdisjoint hS hcopy hsees hd
          (Nat.sub_le _ _)
        cases o with
        | done u =>
          obtain rfl := hdone rfl
          exact ⟨hsees', hhost, rfl⟩
        | pageFault v => exact ⟨_, hsees', d', hd', rfl, rfl, hhost⟩
        | split => trivial
        | error e => trivial

/-! ### Overlapping ranges -/

def moving (c : Cmd) (dev host : ℕ → UInt8) : Description := fun r now now' => now' = host ∧
  (r = .init ∧ now = dev ∨ r.gather = true ∧ r.done ≤ c.size.toNat ∧
    (r.phase = 0 ∧ r.a = gathered dev c.src0.toNat r.done ∧ now = dev ∨
      r.phase = 1 ∧ r.a = gathered dev c.src0.toNat c.size.toNat ∧
        now = patch dev c.dst.toNat r.done fun i => dev (c.src0.toNat + i)))

abbrev MoveSpec (c : Cmd) (x : Ctx) (dev host : ℕ → UInt8) : Outcome Unit × Replay × Mem → Prop :=
  Leaves x (moving c dev host) (patch dev c.dst.toNat c.size.toNat fun i => dev (c.src0.toNat + i))
    host

theorem scatter_move {r : Replay} (hgather : r.gather = true) (hphase : r.phase = 1)
    (hbuf : r.a = gathered dev c.src0.toNat c.size.toNat) (hle : r.done ≤ c.size.toNat)
    (h : Sees x m (patch dev c.dst.toNat r.done fun i => dev (c.src0.toNat + i))) :
    MoveSpec c x dev host (scatter m r c.dst.toNat c.size.toNat r.a) := by
  have hsame : ∀ d ≤ c.size.toNat, patch dev c.dst.toNat d r.a =
      patch dev c.dst.toNat d fun i => dev (c.src0.toNat + i) := by
    intro d hd
    rw [hbuf]
    exact patch_congr fun i hi => gathered_apply (hi.trans_le hd)
  rw [← hsame _ hle] at h
  cases hs : scatter m r c.dst.toNat c.size.toNat r.a with
  | mk p rest =>
    obtain ⟨q, m'⟩ := rest
    obtain ⟨d', hd', rfl, hsees', -, hdone⟩ := scatter_spec hs h hle
    rw [hsame d' hd'] at hsees'
    cases p with
    | done u =>
      obtain rfl := hdone rfl
      exact ⟨hsees', by simp [Replay.reset, hgather]⟩
    | pageFault v => exact ⟨_, hsees', rfl, .inr ⟨hgather, hd', .inr ⟨hphase, hbuf, rfl⟩⟩⟩
    | split => trivial
    | error e => trivial

theorem movePhases_spec {r : Replay} (hgather : r.gather = true) (hle : r.done ≤ c.size.toNat)
    (hS : ∀ i < c.size.toNat, x.pages ((c.src0.toNat + i) / pageSize)) {now : ℕ → UInt8}
    (h : Sees x m now)
    (hr : r.phase = 0 ∧ r.a = gathered dev c.src0.toNat r.done ∧ now = dev ∨
      r.phase = 1 ∧ r.a = gathered dev c.src0.toNat c.size.toNat ∧
        now = patch dev c.dst.toNat r.done fun i => dev (c.src0.toNat + i)) :
    MoveSpec c x dev host (movePhases m r c) := by
  simp only [movePhases]
  obtain ⟨hphase, hbuf, rfl⟩ | ⟨hphase, hbuf, rfl⟩ := hr
  · cases hg : gatherA m r c.src0.toNat c.size.toNat with
    | mk p rest =>
      obtain ⟨q, m'⟩ := rest
      obtain ⟨hsees', hsplit, hdone, hfault⟩ := gatherA_spec hg h hS hphase hbuf hle
      cases p with
      | done u =>
        obtain rfl := hdone rfl
        refine scatter_move hgather rfl rfl (Nat.zero_le _) ?_
        rw [patch_zero]
        exact hsees'
      | pageFault v =>
        obtain ⟨d', hd', rfl⟩ := hfault nofun
        exact ⟨_, hsees', rfl, .inr ⟨hgather, hd', .inl ⟨hphase, rfl, rfl⟩⟩⟩
      | split => exact absurd rfl hsplit
      | error e => trivial
  · have hskip : gatherA m r c.src0.toNat c.size.toNat = (.done (), r, m) := by
      simp [gatherA, hphase]
    rw [hskip]
    exact scatter_move hgather hphase hbuf hle h

theorem resolveBoth_spec {p : Outcome (ℕ × ℕ)} (hx : resolveBoth m c = (p, m')) :
    Flagged m m' ∧ ∀ d q, p = .done (d, q) → RunOk m' c.dst.toNat d c.size.toNat true ∧
      RunOk m' c.src0.toNat q c.size.toNat false := by
  obtain ⟨d, m₁, hf₁, hd, hx⟩ | ⟨hf, hne⟩ := resolve_then hx
  · obtain ⟨q, m₂, hf₂, hq, hx⟩ | ⟨hf₂, hne⟩ := resolve_then hx
    · cases hx
      refine ⟨hf₁.trans hf₂, fun d' q' heq => ?_⟩
      cases heq
      exact ⟨hd.flagged hf₂, hq⟩
    · exact ⟨hf₁.trans hf₂, fun _ _ heq => absurd heq (hne _)⟩
  · exact ⟨hf, fun _ _ heq => absurd heq (hne _)⟩

theorem move_spec {r : Replay} (hS : ∀ i < c.size.toNat, x.pages ((c.src0.toNat + i) / pageSize))
    {now : ℕ → UInt8} (h : Sees x m now) (hr : moving c dev host r now host) :
    MoveSpec c x dev host (move m r c) := by
  obtain ⟨-, ⟨rfl, rfl⟩ | ⟨hgather, hle, hphase⟩⟩ := hr
  · -- The first attempt.
    simp only [move, Replay.init, Bool.false_eq_true, if_false]
    cases hb : resolveBoth m c with
    | mk p m₁ =>
      obtain ⟨hf, hruns⟩ := resolveBoth_spec hb
      have h₁ := h.flagged hf
      cases p with
      | done dq =>
        obtain ⟨hd, hq⟩ := hruns dq.1 dq.2 rfl
        have hread : (patch now c.dst.toNat c.size.toNat fun i => m₁.bytes (dq.2 + i)) =
            patch now c.dst.toNat c.size.toNat fun i => now (c.src0.toNat + i) :=
          patch_congr fun i hi => h₁.read hq hi (hS i hi)
        have hstore := h₁.store hd fun i => m₁.bytes (dq.2 + i)
        rw [hread] at hstore
        exact ⟨hstore, rfl⟩
      | pageFault v =>
        exact ⟨now, h₁, rfl, .inr ⟨rfl, Nat.zero_le _, .inl ⟨rfl, by simp [gathered], rfl⟩⟩⟩
      | split =>
        exact movePhases_spec rfl (Nat.zero_le _) hS h₁ (.inl ⟨rfl, by simp [gathered], rfl⟩)
      | error e => trivial
  · simp only [move, hgather, if_true]
    exact movePhases_spec hgather hle hS h hphase

theorem resumes_copyD2D_overlap (hop : c.opcode = .copyD2D) (hover : c.overlap = true)
    (hS : ∀ i < c.size.toNat, x.pages ((c.src0.toNat + i) / pageSize)) :
    Resumes fl engine c x (moving c dev host) (flat c dev host).1 (flat c dev host).2 := by
  simp only [flat, hop]
  refine resumes_of_leaves (f := fun m r => move m r c) ?_ (fun _ _ _ hD => hD.1)
    fun m r now hsees hD => move_spec hS hsees hD
  intro w r _
  simp only [execute, hop, hover, if_true]
  split
  · exact .inl rfl
  · exact .inr rfl

/-! ### Every fill and copy -/

/-- Fills and copies are exact under any fault schedule. From a state in which frame
ownership holds and nobody else has written the mapped pages `x.pages`, which have the
operands, in any run of attempts, migrations, prefetches, evictions and writes of others
outside them: a command that retires with status 0 has changed device memory on these pages and
host memory as on flat memory, and the replay state is back to its initial value. -/
theorem copies_exact (hop : c.opcode = .fill ∨ c.opcode.isCopyOp = true) {start : World}
    (hinv : MemInv start.mem x.loose x.blocks x.regions)
    (hranges : ∀ e ∈ start.mem.ranges.entries, e.1 ≤ e.2.stop ∧
      (⟨e.1, e.2.stop - e.1, e.2.host⟩ : Region) ∈ x.regions)
    (hmapped : ∀ v, x.pages v → (start.mem.mmu.pte v).present = true)
    (hsettled : Settled start.mem x.pages)
    (hS : ∀ a, Touches c a → x.pages (a / pageSize))
    (h : Reach (step fl engine c) (undisturbed x.pages) ⟨start, .init, none⟩ s)
    (hdone : s.retired = some (.done ())) :
    (∀ a, x.pages (a / pageSize) →
      view s.world.mem a = (flat c (view start.mem) start.host).1 a) ∧
    s.world.host = (flat c (view start.mem) start.host).2 ∧ s.replay = .init := by
  have hend : ∃ D : Description, D .init (view start.mem) start.host ∧ Resumes fl engine c x D
      (flat c (view start.mem) start.host).1 (flat c (view start.mem) start.host).2 := by
    cases hopc : c.opcode with
    | fill => exact ⟨_, ⟨0, Nat.zero_le _, rfl, by simp, rfl⟩, resumes_fill hopc⟩
    | copyH2D => exact ⟨_, ⟨0, Nat.zero_le _, rfl, by simp, rfl⟩, resumes_copyH2D hopc⟩
    | copyD2H =>
      refine ⟨_, ⟨0, Nat.zero_le _, rfl, rfl, by simp⟩, resumes_copyD2H hopc fun i hi => hS _ ?_⟩
      simp only [Touches, hopc]
      omega
    | copyD2D =>
      have hsrc : ∀ i < c.size.toNat, x.pages ((c.src0.toNat + i) / pageSize) := by
        intro i hi
        refine hS _ ?_
        simp only [Touches, hopc]
        omega
      cases hover : c.overlap with
      | false =>
        exact ⟨_, ⟨0, Nat.zero_le _, rfl, by simp, rfl⟩, resumes_copyD2D_apart hopc hover hsrc⟩
      | true => exact ⟨_, ⟨rfl, .inl ⟨rfl, rfl⟩⟩, resumes_copyD2D_overlap hopc hover hsrc⟩
    | _ => simp [hopc, Opcode.isCopyOp] at hop
  obtain ⟨D, hD, hres⟩ := hend
  have hdesc := reach_described hres ⟨hinv, hranges, hmapped, hsettled.backed⟩ hD h
  simp only [Described, hdone] at hdesc
  obtain ⟨hsees, hhost, hreplay⟩ := hdesc
  exact ⟨fun a ha => hsees.view_eq ha, hhost, hreplay⟩

def managedRun : List Driver.Action :=
  [.lock (.allocManaged 12288), .reclaim, .mapManaged (some 409600), .addRange,
    .hostStore 65536 ⟨2, by decide⟩ 0x80, .hostStore 65536 ⟨3, by decide⟩ 0x3f]

def managedStart : Driver.State :=
  (exec (when Driver.noWrap (Driver.step ⟨1, 1, false, 16⟩)) (Driver.init ⟨1, 1, false, 16⟩)
    managedRun).getD (Driver.init ⟨1, 1, false, 16⟩)

theorem managedStart_inv : Driver.Inv managedStart := by
  have hrun : (exec (when Driver.noWrap (Driver.step ⟨1, 1, false, 16⟩))
      (Driver.init ⟨1, 1, false, 16⟩) managedRun).isSome = true := by decide
  obtain ⟨s, hs⟩ := Option.isSome_iff_exists.mp hrun
  have heq : managedStart = s := by rw [managedStart, hs, Option.getD_some]
  rw [heq]
  exact Driver.reach_inv (fun _ _ => id) (.of_exec_when .refl hs)

def managedCtx : Ctx where
  loose := managedStart.holder.loose
  blocks := Driver.blocksOf managedStart.items
  regions := managedStart.holder.fresh ++ Driver.regionsOf managedStart.items
  pages v := v = 65536 ∨ v = 65537

instance (v : ℕ) : Decidable (managedCtx.pages v) := inferInstanceAs (Decidable (_ ∨ _))

theorem managedStart_ranges : ∀ e ∈ managedStart.mem.ranges.entries, e.1 ≤ e.2.stop ∧
    (⟨e.1, e.2.stop - e.1, e.2.host⟩ : Region) ∈ managedCtx.regions := by
  intro e he
  obtain ⟨hle, hmem⟩ := managedStart_inv.ranges e he
  exact ⟨hle, List.mem_append_right _ hmem⟩

theorem managedStart_settled : Settled managedStart.mem managedCtx.pages where
  host := by rintro v (rfl | rfl) - - <;> decide
  clean := by rintro - v (rfl | rfl) - hin <;> exact absurd hin (by decide)
  dropped := fun hu => absurd hu (by decide)

theorem managedStart_mapped :
    ∀ v, managedCtx.pages v → (managedStart.mem.mmu.pte v).present = true := by
  rintro v (rfl | rfl)
  · decide
  · decide

/-- Eight bytes, four on the first managed page and four on the second. -/
def crossingFill : Cmd := ⟨.fill, 0, 268439548, 0, 0, 8, 0, 0, 0, 7, 0⟩

def zeroFloats : Floats := ⟨fun _ _ => Word.zero, fun _ _ => Word.zero⟩

def State.succeeded (s : State) : Bool :=
  match s.retired with
  | some (.done _) => true
  | _ => false

theorem State.retired_of_succeeded (h : s.succeeded = true) : s.retired = some (.done ()) := by
  simp only [State.succeeded] at h
  split at h
  · next heq => exact heq
  · cases h

/-- Both pages fault; the first four bytes are stored before the second fault. -/
def faultingFill : List Action :=
  [.attempt, .migrate Driver.vramBytes Driver.Env.calm, .attempt,
    .migrate (Driver.vramBytes + 4096) Driver.Env.calm, .attempt]

theorem faultingFill_exact : ∃ s,
    exec (step zeroFloats 0 crossingFill) ⟨⟨managedStart.mem, fun _ => 0⟩, .init, none⟩
      faultingFill = some s ∧
    view s.world.mem 268439551 = 7 ∧ view s.world.mem 268439552 = 7 ∧ s.replay = .init := by
  have hrun : (exec (step zeroFloats 0 crossingFill)
      ⟨⟨managedStart.mem, fun _ => 0⟩, .init, none⟩ faultingFill).map State.succeeded =
      some true := by decide +kernel
  obtain ⟨s, hs, hsucc⟩ := Option.map_eq_some_iff.mp hrun
  have hdone := State.retired_of_succeeded hsucc
  have hreach : Reach (step zeroFloats 0 crossingFill) (undisturbed managedCtx.pages)
      ⟨⟨managedStart.mem, fun _ => 0⟩, .init, none⟩ s := by
    refine .of_exec_of (fun a ha s => ?_) .refl hs
    simp only [faultingFill, List.mem_cons, List.not_mem_nil, or_false] at ha
    rcases ha with rfl | rfl | rfl | rfl | rfl
    all_goals first | trivial | exact fun _ => rfl
  have htouch : ∀ a, Touches crossingFill a → managedCtx.pages (a / pageSize) := by
    intro a ha
    simp only [Touches, crossingFill, managedCtx, pageSize] at ha ⊢
    have hd : (268439548 : UInt64).toNat = 268439548 := by decide
    have hn : (8 : UInt64).toNat = 8 := by decide
    rw [hd, hn] at ha
    omega
  obtain ⟨hview, -, hreplay⟩ := copies_exact (x := managedCtx) (.inl rfl) managedStart_inv.mem
    managedStart_ranges managedStart_mapped managedStart_settled htouch hreach hdone
  refine ⟨s, hs, ?_, ?_, hreplay⟩
  · rw [hview _ (.inl rfl)]
    decide
  · rw [hview _ (.inr rfl)]
    decide

def staleRun : List Driver.Action := managedRun ++
  [.submit 0, .raise (0, 0) 268439552, .pop, .demand Driver.Env.calm, .access 0 65537 none,
    .hostStore 65537 ⟨0, by decide⟩ 9]

def crossingCopy : Cmd := ⟨.copyD2H, 0, 0, 268439548, 0, 8, 0, 0, 0, 0, 0⟩

def evictedCopy : List Action :=
  [.attempt, .evictAll fun _ => Driver.Env.calm, .migrate Driver.vramBytes Driver.Env.calm,
    .attempt, .migrate (Driver.vramBytes + 4096) Driver.Env.calm, .attempt]

theorem evictedCopy_undisturbed (a : Action) (ha : a ∈ evictedCopy) (s : State) :
    undisturbed x.pages s a := by
  simp only [evictedCopy, List.mem_cons, List.not_mem_nil, or_false] at ha
  rcases ha with rfl | rfl | rfl | rfl | rfl | rfl
  all_goals first | trivial | exact fun _ => rfl

/-- Without a settled start the eviction of a clean page brings the host's store in. -/
theorem stale_copy_differs :
    ¬∀ (d : Driver.State) (c : Cmd) (pages : ℕ → Prop) (s : State),
      Reach (Driver.step ⟨2, 1, false, 16⟩) Driver.noWrap (Driver.init ⟨2, 1, false, 16⟩) d →
      c.opcode = .fill ∨ c.opcode.isCopyOp = true →
      (∀ v, pages v → (d.mem.mmu.pte v).present = true) →
      (∀ a, Touches c a → pages (a / pageSize)) →
      Reach (step zeroFloats 1 c) (undisturbed pages) ⟨⟨d.mem, fun _ => 0⟩, .init, none⟩ s →
      s.retired = some (.done ()) →
      (∀ a, pages (a / pageSize) → view s.world.mem a = (flat c (view d.mem) fun _ => 0).1 a) ∧
        s.world.host = (flat c (view d.mem) fun _ => 0).2 := by
  intro hall
  have hrun : ((exec (when Driver.noWrap (Driver.step ⟨2, 1, false, 16⟩))
      (Driver.init ⟨2, 1, false, 16⟩) staleRun).bind fun d =>
        (exec (step zeroFloats 1 crossingCopy) ⟨⟨d.mem, fun _ => 0⟩, .init, none⟩
          evictedCopy).map fun s =>
            decide ((d.mem.mmu.pte 65536).present = true ∧ (d.mem.mmu.pte 65537).present = true ∧
              s.succeeded = true ∧ s.world.host 4 = 9 ∧
              (flat crossingCopy (view d.mem) fun _ => 0).2 4 = 0)) = some true := by
    decide +kernel
  obtain ⟨d, hd, hrun⟩ := Option.bind_eq_some_iff.mp hrun
  obtain ⟨s, hs, hq⟩ := Option.map_eq_some_iff.mp hrun
  obtain ⟨hp, hp', hsucc, hnine, hzero⟩ := of_decide_eq_true hq
  have hreach : Reach (step zeroFloats 1 crossingCopy) (undisturbed managedCtx.pages)
      ⟨⟨d.mem, fun _ => 0⟩, .init, none⟩ s := .of_exec_of evictedCopy_undisturbed .refl hs
  have htouch : ∀ a, Touches crossingCopy a → managedCtx.pages (a / pageSize) := by
    intro a ha
    simp only [Touches, crossingCopy, managedCtx, pageSize] at ha ⊢
    have hd : (268439548 : UInt64).toNat = 268439548 := by decide
    have hn : (8 : UInt64).toNat = 8 := by decide
    rw [hd, hn] at ha
    omega
  have hpages : ∀ v, managedCtx.pages v → (d.mem.mmu.pte v).present = true := by
    rintro v (rfl | rfl)
    · exact hp
    · exact hp'
  have hhost := (hall d crossingCopy managedCtx.pages s (.of_exec_when .refl hd) (.inr rfl) hpages
    htouch hreach (State.retired_of_succeeded hsucc)).2
  rw [hhost, hzero] at hnine
  exact absurd hnine (by decide)

end SoftGpu.Exec
