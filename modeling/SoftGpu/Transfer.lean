import SoftGpu.Footprint
import SoftGpu.Compute

/-!
# Commands as jobs

Every command writes one range of device memory or of host memory with bytes that depend on what it
reads. A command that faults has stored the bytes from the start of its range up to some point, or
none of them while it is still gathering its sources; its replay state says which. So a command is
a job that is run in parts, and an attempt at it is a part or the rest.
-/

namespace SoftGpu.Exec
open Footprint

abbrev Place := ℕ ⊕ ℕ

def devOf (μ : Place → UInt8) : ℕ → UInt8 := fun a => μ (.inl a)
def hostOf (μ : Place → UInt8) : ℕ → UInt8 := fun a => μ (.inr a)

def both (dev host : ℕ → UInt8) : Place → UInt8 := Sum.elim dev host

section Both
variable {dev host : ℕ → UInt8} {μ ν : Place → UInt8}

@[simp] theorem devOf_both : devOf (both dev host) = dev := rfl
@[simp] theorem hostOf_both : hostOf (both dev host) = host := rfl

theorem both_eta (μ : Place → UInt8) : both (devOf μ) (hostOf μ) = μ := by
  funext p
  cases p <;> rfl

theorem place_ext (hdev : devOf μ = devOf ν) (hhost : hostOf μ = hostOf ν) : μ = ν := by
  rw [← both_eta μ, ← both_eta ν, hdev, hhost]

end Both

def place (host : Bool) (a : ℕ) : Place := if host then .inr a else .inl a

def places (host : Bool) (a n : ℕ) : Set Place := {p | ∃ i < n, p = place host (a + i)}

def blit (host : Bool) (μ : Place → UInt8) (a n : ℕ) (g : ℕ → UInt8) : Place → UInt8 :=
  if host then both (devOf μ) (patch (hostOf μ) a n g) else both (patch (devOf μ) a n g) (hostOf μ)

section Blit
variable {host : Bool} {μ ν μ' ν' : Place → UInt8} {a n i : ℕ} {g g' : ℕ → UInt8} {p : Place}

theorem blit_zero : blit host μ a 0 g = μ := by
  cases host <;> simp [blit, both_eta]

theorem blit_place (hi : i < n) : blit host μ a n g (place host (a + i)) = g i := by
  cases host with
  | true => exact patch_add hi
  | false => exact patch_add hi

theorem blit_of_not_mem (hp : p ∉ places host a n) : blit host μ a n g p = μ p := by
  have hout : ∀ x, p = place host x → ¬(a ≤ x ∧ x < a + n) := by
    rintro x rfl ⟨hle, hlt⟩
    exact hp ⟨x - a, by omega, by rw [Nat.add_sub_cancel' hle]⟩
  cases host with
  | true =>
    cases p with
    | inl x => rfl
    | inr x => exact patch_of_not (hout x rfl)
  | false =>
    cases p with
    | inl x => exact patch_of_not (hout x rfl)
    | inr x => rfl

theorem eq_blit (hin : ∀ i < n, ν (place host (a + i)) = g i)
    (hout : ∀ p ∉ places host a n, ν p = μ p) : ν = blit host μ a n g := by
  funext p
  by_cases hp : p ∈ places host a n
  · obtain ⟨i, hi, rfl⟩ := hp
    rw [hin i hi, blit_place hi]
  · rw [hout p hp, blit_of_not_mem hp]

end Blit

/-! ### The jobs -/

/-- What a command stores, where, and what it reads for it. `progress μ r d` says that in the replay
state `r`, with `μ` what the command found, the first `d` bytes are stored. -/
structure Transfer where
  host : Bool
  dst : ℕ
  len : ℕ
  reads : Set Place
  data : (Place → UInt8) → ℕ → UInt8
  progress : (Place → UInt8) → Replay → ℕ → Prop
  data_local : ∀ {μ ν}, (∀ p ∈ reads, μ p = ν p) → ∀ i < len, data μ i = data ν i
  progress_local : ∀ {μ ν r d}, (∀ p ∈ reads, μ p = ν p) → progress μ r d → progress ν r d
  progress_le : ∀ {μ r d}, progress μ r d → d ≤ len
  progress_init : ∀ μ, progress μ .init 0

namespace Transfer
variable (t : Transfer)

def job : Job Place UInt8 where
  run μ := blit t.host μ t.dst t.len (t.data μ)
  reads := t.reads
  writes := places t.host t.dst t.len
  frame _ _ ha := blit_of_not_mem ha
  local_reads := by
    rintro μ ν hread a ⟨i, hi, rfl⟩
    rw [blit_place hi, blit_place hi, t.data_local hread i hi]

theorem places_mono {host : Bool} {a d n : ℕ} (h : d ≤ n) : places host a d ⊆ places host a n :=
  fun _ ⟨i, hi, hp⟩ => ⟨i, hi.trans_le h, hp⟩

def staged : Staged Place UInt8 Replay where
  toJob := t.job
  during μ r ν := ∃ d, t.progress μ r d ∧ ν = blit t.host μ t.dst d (t.data μ)
  during_frame := by
    rintro μ r ν ⟨d, hp, rfl⟩ a ha
    exact blit_of_not_mem fun h => ha (places_mono (t.progress_le hp) h)
  during_local := by
    rintro μ r ν μ' ν' ⟨d, hp, rfl⟩ hμ hν hout
    have hread : ∀ p ∈ t.reads, μ p = μ' p := fun p h => (hμ p (.inl h)).symm
    have hle := t.progress_le hp
    refine ⟨d, t.progress_local hread hp, eq_blit (fun i hi => ?_) fun p hp' => ?_⟩
    · have hmem : place t.host (t.dst + i) ∈ t.job.touches := .inr ⟨i, hi.trans_le hle, rfl⟩
      rw [hν _ hmem, blit_place hi, t.data_local hread i (hi.trans_le hle)]
    · by_cases htouch : p ∈ t.job.touches
      · rw [hν p htouch, blit_of_not_mem hp', hμ p htouch]
      · exact hout p htouch

theorem start (μ : Place → UInt8) : t.staged.during μ .init μ :=
  ⟨0, t.progress_init μ, blit_zero.symm⟩

end Transfer

abbrev counting (d : ℕ) : Replay := { Replay.init with done := d }

theorem gathered_local {μ ν : Place → UInt8} {va n d : ℕ}
    (h : ∀ p ∈ places false va n, μ p = ν p) (hd : d ≤ n) :
    gathered (devOf μ) va d = gathered (devOf ν) va d :=
  patch_congr fun i hi => h _ ⟨i, hi.trans_le hd, rfl⟩

def counter (host : Bool) (dst len : ℕ) (reads : Set Place) (data : (Place → UInt8) → ℕ → UInt8)
    (hdata : ∀ {μ ν}, (∀ p ∈ reads, μ p = ν p) → ∀ i < len, data μ i = data ν i) : Transfer where
  host := host
  dst := dst
  len := len
  reads := reads
  data := data
  progress _ r d := d ≤ len ∧ r = counting d
  data_local := hdata
  progress_local _ h := h
  progress_le h := h.1
  progress_init _ := ⟨Nat.zero_le _, rfl⟩

def fillTransfer (c : Cmd) : Transfer :=
  counter false c.dst.toNat c.size.toNat ∅ (fun _ _ => UInt8.ofNat c.value.toNat) fun _ _ _ => rfl

def copyTransfer (hostDst hostSrc : Bool) (c : Cmd) : Transfer :=
  counter hostDst c.dst.toNat c.size.toNat (places hostSrc c.src0.toNat c.size.toNat)
    (fun μ i => μ (place hostSrc (c.src0.toNat + i))) fun h i hi => h _ ⟨i, hi, rfl⟩

def moveTransfer (c : Cmd) : Transfer where
  host := false
  dst := c.dst.toNat
  len := c.size.toNat
  reads := places false c.src0.toNat c.size.toNat
  data μ i := devOf μ (c.src0.toNat + i)
  progress μ r d := d ≤ c.size.toNat ∧ (d = 0 ∧ r = .init ∨ r.gather = true ∧
    (d = 0 ∧ r.phase = 0 ∧ r.done ≤ c.size.toNat ∧
        r.a = gathered (devOf μ) c.src0.toNat r.done ∨
      r.done = d ∧ r.phase = 1 ∧ r.a = gathered (devOf μ) c.src0.toNat c.size.toNat))
  data_local h i hi := h _ ⟨i, hi, rfl⟩
  progress_local := by
    rintro μ ν r d h ⟨hd, hinit | ⟨hgather, ⟨hz, hphase, hle, ha⟩ | ⟨hdone, hphase, ha⟩⟩⟩
    · exact ⟨hd, .inl hinit⟩
    · rw [gathered_local h hle] at ha
      exact ⟨hd, .inr ⟨hgather, .inl ⟨hz, hphase, hle, ha⟩⟩⟩
    · rw [gathered_local h le_rfl] at ha
      exact ⟨hd, .inr ⟨hgather, .inr ⟨hdone, hphase, ha⟩⟩⟩
  progress_le h := h.1
  progress_init _ := ⟨Nat.zero_le _, .inl ⟨rfl, rfl⟩⟩

inductive Computing (fl : Floats) (c : Cmd) (dev : ℕ → UInt8) : Replay → ℕ → Prop
  | init : Computing fl c dev .init 0
  | gatherA {d : ℕ} (h : d ≤ (c.kernel fl).bytesA) :
      Computing fl c dev ⟨d, 0, true, gathered dev c.src0.toNat d, fun _ => 0, fun _ => 0⟩ 0
  | gatherB {d : ℕ} (h : d ≤ (c.kernel fl).bytesB) :
      Computing fl c dev ⟨d, 1, true, sourceA fl c dev, gathered dev c.src1.toNat d, fun _ => 0⟩ 0
  | scatter {d : ℕ} (h : d ≤ (c.kernel fl).bytesD) :
      Computing fl c dev ⟨d, 3, true, sourceA fl c dev, sourceB fl c dev, computed fl c dev⟩ d

section Compute
variable {fl : Floats} {c : Cmd} {μ ν : Place → UInt8}

def sourcePlaces (fl : Floats) (c : Cmd) : Set Place :=
  places false c.src0.toNat (c.kernel fl).bytesA ∪ places false c.src1.toNat (c.kernel fl).bytesB

theorem sources_local (h : ∀ p ∈ sourcePlaces fl c, μ p = ν p) :
    (∀ d ≤ (c.kernel fl).bytesA,
        gathered (devOf μ) c.src0.toNat d = gathered (devOf ν) c.src0.toNat d) ∧
      (∀ d ≤ (c.kernel fl).bytesB,
        gathered (devOf μ) c.src1.toNat d = gathered (devOf ν) c.src1.toNat d) ∧
      computed fl c (devOf μ) = computed fl c (devOf ν) := by
  have hA : ∀ p ∈ places false c.src0.toNat (c.kernel fl).bytesA, μ p = ν p :=
    fun p hp => h p (.inl hp)
  have hB : ∀ p ∈ places false c.src1.toNat (c.kernel fl).bytesB, μ p = ν p :=
    fun p hp => h p (.inr hp)
  refine ⟨fun d hd => gathered_local hA hd, fun d hd => gathered_local hB hd, ?_⟩
  apply computed_congr
  · exact fun i hi => hA _ ⟨i, hi, rfl⟩
  · exact fun i hi => hB _ ⟨i, hi, rfl⟩

theorem Computing.congr {r : Replay} {d : ℕ} (h : ∀ p ∈ sourcePlaces fl c, μ p = ν p)
    (hr : Computing fl c (devOf μ) r d) : Computing fl c (devOf ν) r d := by
  obtain ⟨hA, hB, hC⟩ := sources_local h
  have hsA : sourceA fl c (devOf μ) = sourceA fl c (devOf ν) := hA _ le_rfl
  have hsB : sourceB fl c (devOf μ) = sourceB fl c (devOf ν) := hB _ le_rfl
  cases hr with
  | init => exact .init
  | gatherA hd =>
    rw [hA _ hd]
    exact .gatherA hd
  | gatherB hd =>
    rw [hsA, hB _ hd]
    exact .gatherB hd
  | scatter hd =>
    rw [hsA, hsB, hC]
    exact .scatter hd

end Compute

def computeTransfer (fl : Floats) (c : Cmd) : Transfer where
  host := false
  dst := c.dst.toNat
  len := (c.kernel fl).bytesD
  reads := sourcePlaces fl c
  data μ := computed fl c (devOf μ)
  progress μ := Computing fl c (devOf μ)
  data_local h _ _ := by rw [(sources_local h).2.2]
  progress_local h hr := hr.congr h
  progress_le hr := by cases hr <;> first | exact Nat.zero_le _ | assumption
  progress_init _ := .init

def Cmd.transfer (fl : Floats) (c : Cmd) : Transfer :=
  match c.opcode with
  | .nop | .waitFence => counter false 0 0 ∅ (fun _ _ => 0) fun _ _ _ => rfl
  | .fill => fillTransfer c
  | .copyH2D => copyTransfer false true c
  | .copyD2H => copyTransfer true false c
  | .copyD2D => if c.overlap then moveTransfer c else copyTransfer false false c
  | .vaddF32 | .gemmF32 => computeTransfer fl c

def Cmd.job (fl : Floats) (c : Cmd) : Staged Place UInt8 Replay := (c.transfer fl).staged

/-! ### Attempts -/

/-- A command whose loops stay inside its operands, that reads no byte it has stored before, and
whose sources are on the pages of the context. -/
structure Cmd.Fits (fl : Floats) (c : Cmd) (x : Ctx) : Prop where
  loops : c.LoopsFit
  first : c.ReadsFirst
  pages : ∀ a, .inl a ∈ (c.job fl).reads → x.pages (a / pageSize)

structure Holds (x : Ctx) (w : World) (μ : Place → UInt8) : Prop where
  sees : Sees x w.mem (devOf μ)
  host : w.host = hostOf μ

def Attempted (x : Ctx) (t : Transfer) (μ : Place → UInt8) (o : Outcome Unit) (r : Replay)
    (w : World) : Prop :=
  match o with
  | .done _ => Holds x w (t.job.run μ) ∧ r.reset = .init
  | .pageFault _ => ∃ ν, Holds x w ν ∧ t.staged.during μ r ν
  | _ => True

section Attempt
variable {fl : Floats} {engine : ℕ} {c : Cmd} {x : Ctx} {μ ν : Place → UInt8} {w w' : World}
  {r r' : Replay} {o : Outcome Unit} {t : Transfer} {D : Description} {dev' host' : ℕ → UInt8}

theorem attempted_of_resumes (hres : Resumes fl engine c x D dev' host')
    (h : execute fl engine w r c = (o, r', w')) (hw : Holds x w ν)
    (hbefore : D r (devOf ν) (hostOf ν)) (hdone : t.job.run μ = both dev' host')
    (hafter : ∀ r ν, D r (devOf ν) (hostOf ν) → t.staged.during μ r ν) :
    Attempted x t μ o r' w' := by
  have hout := hres w w' r r' o (devOf ν) h hw.sees (by rw [hw.host]; exact hbefore)
  cases o with
  | done u =>
    obtain ⟨hsees, hhost, hreset⟩ := hout
    refine ⟨⟨?_, ?_⟩, hreset⟩
    · rw [hdone]
      exact hsees
    · rw [hdone]
      exact hhost
  | pageFault v =>
    obtain ⟨now, hsees, hD⟩ := hout
    exact ⟨both now w'.host, ⟨hsees, rfl⟩, hafter _ _ hD⟩
  | split => trivial
  | error e => trivial

theorem blit_device {d : ℕ} {a : ℕ} {g : ℕ → UInt8} :
    ν = blit false μ a d g ↔ devOf ν = patch (devOf μ) a d g ∧ hostOf ν = hostOf μ := by
  constructor
  · rintro rfl
    exact ⟨rfl, rfl⟩
  · rintro ⟨hdev, hhost⟩
    exact place_ext hdev hhost

theorem attempted_counter {host : Bool} {dst len : ℕ} {reads : Set Place}
    {data : (Place → UInt8) → ℕ → UInt8} {hdata} {devAt hostAt : ℕ → ℕ → UInt8}
    (hres : Resumes fl engine c x (counted len devAt hostAt) (devAt len) (hostAt len))
    (hat : ∀ d, blit host μ dst d (data μ) = both (devAt d) (hostAt d))
    (h : execute fl engine w r c = (o, r', w')) (hw : Holds x w ν)
    (hd : (counter host dst len reads data hdata).staged.during μ r ν) :
    Attempted x (counter host dst len reads data hdata) μ o r' w' := by
  apply attempted_of_resumes hres h hw
  · obtain ⟨d, ⟨hle, rfl⟩, rfl⟩ := hd
    refine ⟨d, hle, rfl, ?_, ?_⟩
    · change devOf (blit host μ dst d (data μ)) = devAt d
      rw [hat, devOf_both]
    · change hostOf (blit host μ dst d (data μ)) = hostAt d
      rw [hat, hostOf_both]
  · exact hat len
  · rintro r ν ⟨d, hle, rfl, hdev, hhost⟩
    refine ⟨d, ⟨hle, rfl⟩, place_ext ?_ ?_⟩
    · change devOf ν = devOf (blit host μ dst d (data μ))
      rw [hat, devOf_both, hdev]
    · change hostOf ν = hostOf (blit host μ dst d (data μ))
      rw [hat, hostOf_both, hhost]

theorem attempted_move (hop : c.opcode = .copyD2D) (hover : c.overlap = true)
    (hS : ∀ i < c.size.toNat, x.pages ((c.src0.toNat + i) / pageSize))
    (h : execute fl engine w r c = (o, r', w')) (hw : Holds x w ν)
    (hd : (moveTransfer c).staged.during μ r ν) : Attempted x (moveTransfer c) μ o r' w' := by
  have hres : Resumes fl engine c x (moving c (devOf μ) (hostOf μ))
      (flat c (devOf μ) (hostOf μ)).1 (flat c (devOf μ) (hostOf μ)).2 :=
    resumes_copyD2D_overlap hop hover hS
  apply attempted_of_resumes hres h hw
  · obtain ⟨d, ⟨hle, hprog⟩, hν⟩ := hd
    obtain ⟨hdev, hhost⟩ := blit_device.mp hν
    refine ⟨hhost, ?_⟩
    obtain ⟨rfl, rfl⟩ | ⟨hgather, ⟨rfl, hphase, hdone, ha⟩ | ⟨rfl, hphase, ha⟩⟩ := hprog
    · rw [patch_zero] at hdev
      exact .inl ⟨rfl, hdev⟩
    · rw [patch_zero] at hdev
      exact .inr ⟨hgather, hdone, .inl ⟨hphase, ha, hdev⟩⟩
    · exact .inr ⟨hgather, hle, .inr ⟨hphase, ha, hdev⟩⟩
  · simp only [flat, hop]
    rfl
  · rintro r ν ⟨hhost, ⟨rfl, hdev⟩ | ⟨hgather, hle, ⟨hphase, ha, hdev⟩ | ⟨hphase, ha, hdev⟩⟩⟩
    · have hν : ν = μ := place_ext hdev hhost
      rw [hν]
      exact (moveTransfer c).start μ
    · have hν : ν = μ := place_ext hdev hhost
      rw [hν]
      exact ⟨0, ⟨Nat.zero_le _, .inr ⟨hgather, .inl ⟨rfl, hphase, hle, ha⟩⟩⟩, blit_zero.symm⟩
    · exact ⟨r.done, ⟨hle, .inr ⟨hgather, .inr ⟨rfl, hphase, ha⟩⟩⟩, blit_device.mpr ⟨hdev, hhost⟩⟩

theorem attempted_compute (hop : c.opcode = .vaddF32 ∨ c.opcode = .gemmF32) (hfit : c.LoopsFit)
    (hfirst : c.ReadsFirst) (hS : Sources fl c x) (h : execute fl engine w r c = (o, r', w'))
    (hw : Holds x w ν) (hd : (computeTransfer fl c).staged.during μ r ν) :
    Attempted x (computeTransfer fl c) μ o r' w' := by
  have hres : Resumes fl engine c x (computing fl c (devOf μ) (hostOf μ))
      (patch (devOf μ) c.dst.toNat (c.kernel fl).bytesD (computed fl c (devOf μ))) (hostOf μ) :=
    resumes_compute hop hfit hfirst hS
  apply attempted_of_resumes hres h hw
  · obtain ⟨d, hprog, hν⟩ := hd
    obtain ⟨hdev, hhost⟩ := blit_device.mp hν
    refine ⟨hhost, ?_⟩
    cases hprog with
    | init =>
      rw [patch_zero] at hdev
      exact .inl ⟨rfl, hdev⟩
    | gatherA hle =>
      rw [patch_zero] at hdev
      rw [hdev]
      exact .inr (.gatherA hle)
    | gatherB hle =>
      rw [patch_zero] at hdev
      rw [hdev]
      exact .inr (.gatherB hle)
    | scatter hle =>
      rw [hdev]
      exact .inr (.scatter hle)
  · rfl
  · rintro r ν ⟨hhost, ⟨rfl, hdev⟩ | hphase⟩
    · have hν : ν = μ := place_ext hdev hhost
      rw [hν]
      exact (computeTransfer fl c).start μ
    · generalize hnow : devOf ν = now at hphase
      cases hphase with
      | gatherA hle =>
        rw [place_ext hnow hhost]
        exact ⟨0, .gatherA hle, blit_zero.symm⟩
      | gatherB hle =>
        rw [place_ext hnow hhost]
        exact ⟨0, .gatherB hle, blit_zero.symm⟩
      | scatter hle => exact ⟨_, .scatter hle, blit_device.mpr ⟨hnow, hhost⟩⟩

/-- An attempt at a command that has got as far as its replay state says: a part of its job, or the
rest of it. -/
theorem Cmd.Fits.attempted (hfit : c.Fits fl x) (h : execute fl engine w r c = (o, r', w'))
    (hw : Holds x w ν) (hd : (c.job fl).during μ r ν) :
    Attempted x (c.transfer fl) μ o r' w' := by
  obtain ⟨hloops, hfirst, hpages⟩ := hfit
  simp only [Cmd.job, Cmd.transfer] at hd hpages ⊢
  cases hop : c.opcode with
  | nop =>
    simp only [hop] at hd ⊢
    obtain ⟨d, ⟨hle, rfl⟩, rfl⟩ := hd
    obtain rfl := Nat.le_zero.mp hle
    simp only [execute, hop] at h
    split at h
    · cases h
      trivial
    · cases h
      rw [blit_zero] at hw
      refine ⟨?_, rfl⟩
      change Holds x w (blit false μ 0 0 _)
      rw [blit_zero]
      exact hw
  | waitFence =>
    simp only [execute, hop] at h
    split at h
    · cases h
      trivial
    · cases h
      trivial
  | fill =>
    simp only [hop] at hd ⊢
    have hres : Resumes fl engine c x (counted c.size.toNat
        (fun d => patch (devOf μ) c.dst.toNat d fun _ => UInt8.ofNat c.value.toNat)
        fun _ => hostOf μ) (flat c (devOf μ) (hostOf μ)).1 (flat c (devOf μ) (hostOf μ)).2 :=
      resumes_fill hop
    simp only [flat, hop] at hres
    exact attempted_counter hres (fun d => rfl) h hw hd
  | copyH2D =>
    simp only [hop] at hd ⊢
    have hres : Resumes fl engine c x (counted c.size.toNat
        (fun d => patch (devOf μ) c.dst.toNat d fun i => hostOf μ (c.src0.toNat + i))
        fun _ => hostOf μ) (flat c (devOf μ) (hostOf μ)).1 (flat c (devOf μ) (hostOf μ)).2 :=
      resumes_copyH2D hop
    simp only [flat, hop] at hres
    exact attempted_counter hres (fun d => rfl) h hw hd
  | copyD2H =>
    simp only [hop] at hd hpages ⊢
    have hS : ∀ i < c.size.toNat, x.pages ((c.src0.toNat + i) / pageSize) :=
      fun i hi => hpages _ ⟨i, hi, rfl⟩
    have hres : Resumes fl engine c x (counted c.size.toNat (fun _ => devOf μ)
        fun d => patch (hostOf μ) c.dst.toNat d fun i => devOf μ (c.src0.toNat + i))
        (flat c (devOf μ) (hostOf μ)).1 (flat c (devOf μ) (hostOf μ)).2 :=
      resumes_copyD2H hop hS
    simp only [flat, hop] at hres
    exact attempted_counter hres (fun d => rfl) h hw hd
  | copyD2D =>
    simp only [hop] at hd hpages ⊢
    have hS : ∀ i < c.size.toNat, x.pages ((c.src0.toNat + i) / pageSize) := by
      intro i hi
      apply hpages
      split
      · exact ⟨i, hi, rfl⟩
      · exact ⟨i, hi, rfl⟩
    cases hover : c.overlap with
    | true =>
      simp only [hover, if_true] at hd ⊢
      exact attempted_move hop hover hS h hw hd
    | false =>
      simp only [hover, Bool.false_eq_true, if_false] at hd ⊢
      have hres : Resumes fl engine c x (counted c.size.toNat
          (fun d => patch (devOf μ) c.dst.toNat d fun i => devOf μ (c.src0.toNat + i))
          fun _ => hostOf μ) (flat c (devOf μ) (hostOf μ)).1 (flat c (devOf μ) (hostOf μ)).2 :=
        resumes_copyD2D_apart hop hover hS
      simp only [flat, hop] at hres
      exact attempted_counter hres (fun d => rfl) h hw hd
  | vaddF32 | gemmF32 =>
    simp only [hop] at hd hpages ⊢
    have hS : Sources fl c x := ⟨fun i hi => hpages _ (.inl ⟨i, hi, rfl⟩),
      fun i hi => hpages _ (.inr ⟨i, hi, rfl⟩)⟩
    exact attempted_compute (by simp [hop]) hloops hfirst hS h hw hd

end Attempt

end SoftGpu.Exec
