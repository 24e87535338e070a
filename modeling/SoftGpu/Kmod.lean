import SoftGpu.Machine
import Mathlib.Data.Int.Notation
import Mathlib.Data.Nat.Basic

/-!
# The char device

`/dev/softgpu` as one open file: any number of threads that call MAP, IRQ, SLEEP and
`mmap`, and the work item of the interrupt. A step is one access to a field of
`sg_file` or to the mapping behind `s->ctrl`, or one call that may fail.

Only MAP takes the lock of the file. SLEEP and the work item test `s->ctrl` once and
load it again each time they read or store `irq_seq`; the wait macro reads the
condition again after every wake-up, its timeout and every signal. MAP publishes the
mapping before its `copy_to_user`, and when that fails it frees the mapping and only
then clears `s->mem` and `s->ctrl`.
-/

namespace SoftGpu.Kmod

open Machine

structure MapArgs where
  numEngines : ℕ
  numChannels : ℕ
  depth : ℕ
  deriving DecidableEq, Repr

def maxEngines : ℕ := 4
def maxChannels : ℕ := 8

def ringBytes (depth : ℕ) : ℕ := (depth * 64 + 4095) / 4096 * 4096

def mapBytes (m : MapArgs) : ℕ := 4096 + m.numEngines * m.numChannels * ringBytes m.depth

/-- The checks of `sg_do_map`. `depth & (depth - 1)` is 0 for the powers of two. -/
def MapArgs.valid (m : MapArgs) : Bool :=
  m.numEngines != 0 && decide (m.numEngines ≤ maxEngines) &&
    m.numChannels != 0 && decide (m.numChannels ≤ maxChannels) &&
    decide (2 ≤ m.depth) && decide (m.depth ≤ 65536) && m.depth &&& (m.depth - 1) == 0

structure Block where
  bytes : ℕ
  irqSeq : BitVec 32
  deriving DecidableEq, Repr

inductive Pc
  /-- Outside, with the return code of the last call. -/
  | idle (rc : ℤ)
  | mapLock (m : MapArgs)
  | mapCopyIn (m : MapArgs)
  | mapBusy (m : MapArgs)
  | mapAlloc (m : MapArgs)
  | mapSetMem (m : MapArgs) (p : ℕ)
  | mapSetCtrl (m : MapArgs) (p : ℕ)
  | mapSetBytes (m : MapArgs) (p : ℕ)
  | mapCopyOut (p : ℕ)
  | mapFree (p : ℕ)
  | mapClearMem
  | mapClearCtrl
  | mapClearBytes
  | mapUnlock (rc : ℤ)
  | irqTest
  | irqSchedule
  | sleepCopyIn (seen : BitVec 32)
  | sleepTest (seen : BitVec 32)
  | sleepLoad (seen : BitVec 32)
  | sleepRead (seen : BitVec 32) (p : ℕ)
  /-- The condition did not hold. -/
  | sleepUnmet (seen : BitVec 32)
  | mmapTest (len : ℕ)
  | mmapBytes (len : ℕ)
  | mmapRemap (len : ℕ)
  /-- The thread has used a pointer to no mapping. -/
  | oops
  deriving DecidableEq, Repr

inductive Work
  | idle
  | test
  | loadSeq
  | readSeq (p : ℕ)
  | loadStore (seq : BitVec 32)
  | storeSeq (p : ℕ) (seq : BitVec 32)
  | wake
  | oops
  deriving DecidableEq, Repr

/-- `sg_file`, the threads in it and the mappings that are allocated. -/
structure State where
  numThreads : ℕ
  thread : ℕ → Pc
  lock : Option ℕ
  mem : Option ℕ
  ctrl : Option ℕ
  bytes : ℕ
  heap : ℕ → Option Block
  pending : Bool
  work : Work

/-- The calls of a thread. `len` is the length of the area that `mmap` fills. -/
inductive Call
  | map (m : MapArgs)
  | irq
  | sleep (seen : BitVec 32)
  | mmap (len : ℕ)
  deriving DecidableEq, Repr

namespace State

def new (threads : ℕ) : State where
  numThreads := threads
  thread := fun _ => .idle 0
  lock := none
  mem := none
  ctrl := none
  bytes := 0
  heap := fun _ => none
  pending := false
  work := .idle

def goto (s : State) (i : ℕ) (pc : Pc) : State :=
  { s with thread := fun j => if j = i then pc else s.thread j }

def setHeap (s : State) (p : ℕ) (b : Option Block) : State :=
  { s with heap := fun q => if q = p then b else s.heap q }

def enter (s : State) (i : ℕ) : Call → State
  | .map m => s.goto i (.mapLock m)
  | .irq => s.goto i .irqTest
  | .sleep seen => s.goto i (.sleepCopyIn seen)
  | .mmap len => s.goto i (.mmapTest len)

/-- The next access of a thread, where nothing outside decides how it ends. -/
def run (s : State) (i : ℕ) : Option State :=
  match s.thread i with
  | .mapLock m =>
    if s.lock = none then some ({ s with lock := some i }.goto i (.mapCopyIn m)) else none
  | .mapBusy m =>
    some (if s.mem.isSome then s.goto i (.mapUnlock (-16))
      else if m.valid then s.goto i (.mapAlloc m)
      else s.goto i (.mapUnlock (-22)))
  | .mapSetMem m p => some ({ s with mem := some p }.goto i (.mapSetCtrl m p))
  | .mapSetCtrl m p => some ({ s with ctrl := some p }.goto i (.mapSetBytes m p))
  | .mapSetBytes m p => some ({ s with bytes := mapBytes m }.goto i (.mapCopyOut p))
  | .mapFree p => some ((s.setHeap p none).goto i .mapClearMem)
  | .mapClearMem => some ({ s with mem := none }.goto i .mapClearCtrl)
  | .mapClearCtrl => some ({ s with ctrl := none }.goto i .mapClearBytes)
  | .mapClearBytes => some ({ s with bytes := 0 }.goto i (.mapUnlock (-14)))
  | .mapUnlock rc => some ({ s with lock := none }.goto i (.idle rc))
  | .irqTest => some (s.goto i (if s.ctrl.isSome then .irqSchedule else .idle (-19)))
  | .irqSchedule => some ({ s with pending := true }.goto i (.idle 0))
  | .sleepTest seen => some (s.goto i (if s.ctrl.isSome then .sleepLoad seen else .idle (-19)))
  | .sleepLoad seen =>
    match s.ctrl with
    | some p => some (s.goto i (.sleepRead seen p))
    | none => some (s.goto i .oops)
  | .sleepRead seen p =>
    match s.heap p with
    | some b => some (s.goto i (if b.irqSeq ≠ seen then .idle 0 else .sleepUnmet seen))
    | none => some (s.goto i .oops)
  | .mmapTest len => some (s.goto i (if s.mem.isSome then .mmapBytes len else .idle (-19)))
  | .mmapBytes len => some (s.goto i (if s.bytes < len then .idle (-22) else .mmapRemap len))
  | .mmapRemap len =>
    -- `remap_vmalloc_range` looks the area up and fails when there is none
    some (s.goto i (.idle (if s.mem.any fun p => (s.heap p).any fun b => decide (len ≤ b.bytes)
      then 0 else -22)))
  | _ => none

def copied (s : State) (i : ℕ) (ok : Bool) : Option State :=
  match s.thread i with
  | .mapCopyIn m => some (s.goto i (if ok then .mapBusy m else .mapUnlock (-14)))
  | .mapCopyOut p => some (s.goto i (if ok then .mapUnlock 0 else .mapFree p))
  | .sleepCopyIn seen => some (s.goto i (if ok then .sleepTest seen else .idle (-14)))
  | _ => none

def allocated (s : State) (i : ℕ) (p : Option ℕ) : Option State :=
  match s.thread i, p with
  | .mapAlloc _, none => some (s.goto i (.mapUnlock (-12)))
  | .mapAlloc m, some p =>
    if s.heap p = none then
      some ((s.setHeap p (some ⟨mapBytes m, 0⟩)).goto i (.mapSetMem m p))
    else none
  | _, _ => none

def runWork (s : State) : Option State :=
  match s.work with
  | .test => some { s with work := if s.ctrl.isSome then .loadSeq else .idle }
  | .loadSeq =>
    match s.ctrl with
    | some p => some { s with work := .readSeq p }
    | none => some { s with work := .oops }
  | .readSeq p =>
    match s.heap p with
    | some b => some { s with work := .loadStore b.irqSeq }
    | none => some { s with work := .oops }
  | .loadStore seq =>
    match s.ctrl with
    | some p => some { s with work := .storeSeq p seq }
    | none => some { s with work := .oops }
  | .storeSeq p seq =>
    match s.heap p with
    | some b => some { s.setHeap p (some { b with irqSeq := seq + 1 }) with work := .wake }
    | none => some { s with work := .oops }
  | .wake => some { s with work := .idle }
  | _ => none

end State

inductive Wait
  /-- A wake-up, or the last look after the timeout. -/
  | again
  | timedOut
  | signalled
  deriving DecidableEq, Repr

inductive Action
  | call (i : ℕ) (c : Call)
  | run (i : ℕ)
  | copied (i : ℕ) (ok : Bool)
  | allocated (i : ℕ) (p : Option ℕ)
  | wait (i : ℕ) (w : Wait)
  /-- The workqueue takes the item; it runs one instance at a time. -/
  | startWork
  | work
  /-- The process stores into its mapping. -/
  | store (p : ℕ) (v : BitVec 32)

def step (s : State) : Action → Option State
  | .call i c =>
    match s.thread i with
    | .idle _ => if i < s.numThreads then some (s.enter i c) else none
    | _ => none
  | .run i => if i < s.numThreads then s.run i else none
  | .copied i ok => if i < s.numThreads then s.copied i ok else none
  | .allocated i p => if i < s.numThreads then s.allocated i p else none
  | .wait i w =>
    match s.thread i with
    | .sleepUnmet seen =>
      if i < s.numThreads then
        some (s.goto i (match w with
          | .again => .sleepLoad seen
          | .timedOut => .idle 0
          | .signalled => .idle (-4)))
      else none
    | _ => none
  | .startWork =>
    if s.pending ∧ s.work = .idle then some { s with pending := false, work := .test } else none
  | .work => s.runWork
  | .store p v =>
    match s.heap p with
    | some b => some (s.setHeap p (some { b with irqSeq := v }))
    | none => none

/-! ### Who uses the mapping -/

def Pc.uses : Pc → Bool
  | .sleepLoad _ | .sleepRead _ _ | .sleepUnmet _ => true
  | _ => false

/-- The work item, past its test of `s->ctrl`, until it has stored `irq_seq`. -/
def Work.uses : Work → Bool
  | .loadSeq | .readSeq _ | .loadStore _ | .storeSeq _ _ => true
  | _ => false

def Pc.pointer : Pc → Option ℕ
  | .sleepRead _ p => some p
  | _ => none

def Work.pointer : Work → Option ℕ
  | .readSeq p | .storeSeq p _ => some p
  | _ => none

def InUse (s : State) : Prop :=
  s.work.uses = true ∨ ∃ i < s.numThreads, (s.thread i).uses = true

def CtrlLive (s : State) : Prop := ∃ p, s.ctrl = some p ∧ (s.heap p).isSome = true

def Dangling (s : State) : Prop := ∃ p ∈ s.ctrl, s.heap p = none

instance (s : State) : Decidable (InUse s) :=
  inferInstanceAs (Decidable (s.work.uses = true ∨ ∃ i < s.numThreads, (s.thread i).uses = true))

instance (s : State) : Decidable (Dangling s) :=
  inferInstanceAs (Decidable (∃ p ∈ s.ctrl, s.heap p = none))

def Pc.frees : Pc → Bool
  | .mapFree _ => true
  | _ => false

def Pc.tests : Pc → Bool
  | .sleepTest _ => true
  | _ => false

/-- MAP frees the mapping only when nobody is past the test of `s->ctrl`, and nobody
tests `s->ctrl` before MAP has cleared it. -/
def quiet (s : State) : Action → Prop
  | .run i => ((s.thread i).frees = true → ¬InUse s) ∧ ((s.thread i).tests = true → ¬Dangling s)
  | .work => s.work = .test → ¬Dangling s
  | _ => True

instance (s : State) (a : Action) : Decidable (quiet s a) :=
  match a with
  | .run _ => inferInstanceAs (Decidable ((_ → ¬InUse s) ∧ (_ → ¬Dangling s)))
  | .work => inferInstanceAs (Decidable (_ → ¬Dangling s))
  | .call .. | .copied .. | .allocated .. | .wait .. | .startWork | .store .. => .isTrue trivial

/-! ### What the holder of the lock knows -/

def Pc.critical : Pc → Bool
  | .mapCopyIn _ | .mapBusy _ | .mapAlloc _ | .mapSetMem _ _ | .mapSetCtrl _ _
  | .mapSetBytes _ _ | .mapCopyOut _ | .mapFree _ | .mapClearMem | .mapClearCtrl
  | .mapClearBytes | .mapUnlock _ => true
  | _ => false

/-- There is no mapping, or it is allocated and both pointers are set. -/
def Settled (s : State) : Prop := s.mem = s.ctrl ∧ ∀ p, s.ctrl = some p → (s.heap p).isSome = true

def Holds (s : State) : Pc → Prop
  | .mapAlloc _ => s.mem = none ∧ s.ctrl = none
  | .mapSetMem _ p => s.mem = none ∧ s.ctrl = none ∧ (s.heap p).isSome = true
  | .mapSetCtrl _ p => s.mem = some p ∧ s.ctrl = none ∧ (s.heap p).isSome = true
  | .mapSetBytes _ p | .mapCopyOut p | .mapFree p =>
    s.mem = some p ∧ s.ctrl = some p ∧ (s.heap p).isSome = true
  | .mapClearMem => Dangling s
  | .mapClearCtrl => s.mem = none ∧ Dangling s
  | .mapClearBytes => s.mem = none ∧ s.ctrl = none
  | _ => Settled s

structure Locking (s : State) : Prop where
  holder : ∀ i, s.lock = some i → (s.thread i).critical = true ∧ Holds s (s.thread i)
  free : s.lock = none → Settled s
  locked : ∀ i < s.numThreads, (s.thread i).critical = true → s.lock = some i

structure Found (s : State) : Prop where
  live : InUse s → CtrlLive s
  pointer : ∀ i < s.numThreads, ∀ p, (s.thread i).pointer = some p → s.ctrl = some p
  workPointer : ∀ p, s.work.pointer = some p → s.ctrl = some p
  noOops : ∀ i < s.numThreads, s.thread i ≠ .oops
  workNoOops : s.work ≠ .oops

structure Inv (s : State) : Prop where
  locking : Locking s
  found : Found s

variable {s t : State} {i p : ℕ} {pc : Pc}

@[simp] theorem State.goto_thread : (s.goto i pc).thread i = pc := by simp [State.goto]

theorem State.goto_thread_ne {j : ℕ} (h : j ≠ i) : (s.goto i pc).thread j = s.thread j := by
  simp [State.goto, h]

theorem Pc.uses_of_pointer (h : pc.pointer = some p) : pc.uses = true := by
  cases pc with
  | sleepRead seen q => rfl
  | _ => cases h

theorem Pc.not_uses_of_critical (h : pc.critical = true) : pc.uses = false := by
  cases pc <;> first | rfl | cases h

theorem Work.uses_of_pointer {w : Work} (h : w.pointer = some p) : w.uses = true := by
  cases w with
  | readSeq q | storeSeq q seq => rfl
  | _ => cases h

theorem CtrlLive.not_dangling (h : CtrlLive s) : ¬Dangling s := by
  obtain ⟨p, hp, hlive⟩ := h
  rintro ⟨q, hq, hfree⟩
  obtain rfl : p = q := Option.some.inj (hp.symm.trans hq)
  simp [hfree] at hlive

theorem ctrlLive_of_not_dangling (h : ¬Dangling s) (hc : s.ctrl.isSome = true) : CtrlLive s := by
  obtain ⟨p, hp⟩ := Option.isSome_iff_exists.mp hc
  refine ⟨p, hp, Option.isSome_iff_ne_none.mpr fun hfree => h ⟨p, hp, hfree⟩⟩

theorem not_ctrlLive (h : s.ctrl = none) : ¬CtrlLive s := by
  rintro ⟨p, hp, -⟩
  cases h.symm.trans hp

theorem CtrlLive.congr (h : CtrlLive s) (hctrl : t.ctrl = s.ctrl)
    (hheap : ∀ p, (t.heap p).isSome = (s.heap p).isSome) : CtrlLive t := by
  obtain ⟨p, hp, hlive⟩ := h
  exact ⟨p, hctrl.trans hp, (hheap p).trans hlive⟩

theorem Holds.congr (h : Holds s pc) (hmem : t.mem = s.mem) (hctrl : t.ctrl = s.ctrl)
    (hheap : ∀ p, (t.heap p).isSome = (s.heap p).isSome) : Holds t pc := by
  have hnone : ∀ p, t.heap p = none ↔ s.heap p = none := by
    intro p
    rw [← Option.isNone_iff_eq_none, ← Option.isNone_iff_eq_none, ← Option.not_isSome,
      ← Option.not_isSome, hheap]
  cases pc <;> simpa only [Holds, Settled, Dangling, hmem, hctrl, hheap, hnone] using h

/-! ### Steps of one thread -/

theorem InUse.of_goto (h : InUse (t.goto i pc)) (hthread : t.thread = s.thread)
    (hn : t.numThreads = s.numThreads) (hwork : t.work = s.work) :
    pc.uses = true ∨ InUse s := by
  obtain hw | ⟨j, hj, huse⟩ := h
  · exact .inr (.inl (hwork ▸ hw))
  · by_cases hji : j = i
    · subst hji
      rw [State.goto_thread] at huse
      exact .inl huse
    · rw [State.goto_thread_ne hji, hthread] at huse
      exact .inr (.inr ⟨j, hn ▸ hj, huse⟩)

theorem Found.goto (h : Found s) (hthread : t.thread = s.thread)
    (hn : t.numThreads = s.numThreads) (hwork : t.work = s.work)
    (hkeep : InUse s → t.ctrl = s.ctrl ∧ CtrlLive t) (hu : pc.uses = true → CtrlLive t)
    (hp : ∀ p, pc.pointer = some p → t.ctrl = some p) (ho : pc ≠ .oops) :
    Found (t.goto i pc) where
  live hin := by
    obtain huse | hin := hin.of_goto hthread hn hwork
    · exact hu huse
    · exact (hkeep hin).2
  pointer j hj q hq := by
    by_cases hji : j = i
    · subst hji
      rw [State.goto_thread] at hq
      exact hp q hq
    · rw [State.goto_thread_ne hji, hthread] at hq
      have hin : InUse s := .inr ⟨j, hn ▸ hj, Pc.uses_of_pointer hq⟩
      exact (hkeep hin).1.trans (h.pointer j (hn ▸ hj) q hq)
  workPointer q hq := by
    have hq' : s.work.pointer = some q := hwork ▸ hq
    exact (hkeep (.inl (Work.uses_of_pointer hq'))).1.trans (h.workPointer q hq')
  noOops j hj := by
    by_cases hji : j = i
    · subst hji
      rwa [State.goto_thread]
    · rw [State.goto_thread_ne hji, hthread]
      exact h.noOops j (hn ▸ hj)
  workNoOops := by
    intro hoops
    exact h.workNoOops (hwork ▸ hoops)

theorem Locking.not_holder (h : Locking s) (hc : (s.thread i).critical = false) {j : ℕ}
    (hj : s.lock = some j) : j ≠ i := by
  rintro rfl
  cases hc.symm.trans (h.holder j hj).1

theorem Locking.goto (h : Locking s) (hc : (s.thread i).critical = false)
    (hc' : pc.critical = false) : Locking (s.goto i pc) where
  holder j hj := by
    rw [State.goto_thread_ne (h.not_holder hc hj)]
    exact h.holder j hj
  free := h.free
  locked j hj hcrit := by
    by_cases hji : j = i
    · subst hji
      rw [State.goto_thread, hc'] at hcrit
      cases hcrit
    · rw [State.goto_thread_ne hji] at hcrit
      exact h.locked j hj hcrit

theorem Locking.hold (h : Locking s) (hi : i < s.numThreads) (hc : (s.thread i).critical = true)
    (hthread : t.thread = s.thread) (hn : t.numThreads = s.numThreads) (hlock : t.lock = s.lock)
    (hc' : pc.critical = true) (hholds : Holds t pc) : Locking (t.goto i pc) := by
  have hown : s.lock = some i := h.locked i hi hc
  refine ⟨fun j hj => ?_, fun hf => ?_, fun j hj hcrit => ?_⟩
  · obtain rfl : i = j := Option.some.inj (hown.symm.trans (hlock.symm.trans hj))
    rw [State.goto_thread]
    exact ⟨hc', hholds⟩
  · cases hown.symm.trans (hlock.symm.trans hf)
  · by_cases hji : j = i
    · subst hji
      exact hlock.trans hown
    · rw [State.goto_thread_ne hji, hthread] at hcrit
      exact hlock.trans (h.locked j (hn ▸ hj) hcrit)

theorem Locking.acquire (h : Locking s) (hl : s.lock = none)
    (hc' : pc.critical = true) (hholds : Settled s → Holds s pc) :
    Locking ({ s with lock := some i }.goto i pc) where
  holder j hj := by
    obtain rfl : i = j := Option.some.inj hj
    rw [State.goto_thread]
    exact ⟨hc', (hholds (h.free hl)).congr rfl rfl fun _ => rfl⟩
  free hf := by cases hf
  locked j hj hcrit := by
    by_cases hji : j = i
    · exact congrArg some hji.symm
    · rw [State.goto_thread_ne hji] at hcrit
      cases hl.symm.trans (h.locked j hj hcrit)

theorem Locking.release (h : Locking s) (hi : i < s.numThreads)
    (hc : (s.thread i).critical = true) (hset : Settled s) (hc' : pc.critical = false) :
    Locking ({ s with lock := none }.goto i pc) where
  holder j hj := by cases hj
  free _ := hset
  locked j hj hcrit := by
    by_cases hji : j = i
    · subst hji
      rw [State.goto_thread, hc'] at hcrit
      cases hcrit
    · rw [State.goto_thread_ne hji] at hcrit
      have hown := h.locked i hi hc
      exact absurd (Option.some.inj ((h.locked j hj hcrit).symm.trans hown)) hji

/-! ### The steps keep the invariant -/

theorem Inv.holds (h : Inv s) (hi : i < s.numThreads) (hpc : s.thread i = pc)
    (hc : pc.critical = true) : Holds s pc := by
  obtain ⟨-, hholds⟩ := h.locking.holder i (h.locking.locked i hi (hpc ▸ hc))
  exact hpc ▸ hholds

theorem Inv.goto (h : Inv s) (hc : (s.thread i).critical = false) (hc' : pc.critical = false)
    (hu : pc.uses = true → CtrlLive s) (hp : ∀ p, pc.pointer = some p → s.ctrl = some p)
    (ho : pc ≠ .oops) : Inv (s.goto i pc) :=
  ⟨h.locking.goto hc hc', h.found.goto rfl rfl rfl (fun hin => ⟨rfl, h.found.live hin⟩) hu hp ho⟩

def Pc.plain (pc : Pc) : Bool := !pc.critical && !pc.uses && pc != .oops

theorem Found.leave (h : Found s) (hthread : t.thread = s.thread)
    (hn : t.numThreads = s.numThreads) (hwork : t.work = s.work) (hctrl : t.ctrl = s.ctrl)
    (hheap : t.heap = s.heap) (hpc : pc.uses = false ∧ pc ≠ .oops) : Found (t.goto i pc) := by
  refine h.goto hthread hn hwork (fun hin => ⟨hctrl, ?_⟩) (fun hu => ?_) (fun p hp => ?_) hpc.2
  · exact (h.live hin).congr hctrl fun p => by rw [hheap]
  · cases hpc.1.symm.trans hu
  · cases hpc.1.symm.trans (Pc.uses_of_pointer hp)

theorem Inv.leave (h : Inv s) (hc : (s.thread i).critical = false) (hpc : pc.plain = true) :
    Inv (s.goto i pc) := by
  simp only [Pc.plain, Bool.and_eq_true, Bool.not_eq_true', bne_iff_ne] at hpc
  obtain ⟨⟨hc', hu⟩, ho⟩ := hpc
  exact ⟨h.locking.goto hc hc', h.found.leave rfl rfl rfl rfl rfl ⟨hu, ho⟩⟩

theorem Inv.hold (h : Inv s) (hi : i < s.numThreads) (hc : (s.thread i).critical = true)
    (hthread : t.thread = s.thread) (hn : t.numThreads = s.numThreads) (hlock : t.lock = s.lock)
    (hwork : t.work = s.work) (hc' : pc.critical = true) (hholds : Holds t pc)
    (hkeep : InUse s → t.ctrl = s.ctrl ∧ CtrlLive t) : Inv (t.goto i pc) := by
  refine ⟨h.locking.hold hi hc hthread hn hlock hc' hholds,
    h.found.goto hthread hn hwork hkeep (fun hu => ?_) (fun p hp => ?_) ?_⟩
  · cases (Pc.not_uses_of_critical hc').symm.trans hu
  · cases (Pc.not_uses_of_critical hc').symm.trans (Pc.uses_of_pointer hp)
  · rintro rfl
    cases hc'

theorem Inv.mapGoto (h : Inv s) (hi : i < s.numThreads) (hc : (s.thread i).critical = true)
    (hc' : pc.critical = true) (hholds : Holds s pc) : Inv (s.goto i pc) :=
  h.hold hi hc rfl rfl rfl rfl hc' hholds fun hin => ⟨rfl, h.found.live hin⟩

theorem Inv.alone (h : Inv s) (hd : ¬CtrlLive s) {P : Prop} (hin : InUse s) : P :=
  absurd (h.found.live hin) hd

theorem Inv.outside (h : Inv s) (hthread : t.thread = s.thread) (hn : t.numThreads = s.numThreads)
    (hlock : t.lock = s.lock) (hmem : t.mem = s.mem) (hctrl : t.ctrl = s.ctrl)
    (hheap : ∀ p, (t.heap p).isSome = (s.heap p).isSome)
    (hu : t.work.uses = true → CtrlLive s)
    (hp : ∀ p, t.work.pointer = some p → s.ctrl = some p) (ho : t.work ≠ .oops) : Inv t := by
  refine ⟨⟨fun i hi => ?_, fun hf => ?_, fun i hi hc => ?_⟩, ⟨fun hin => ?_, fun i hi p hq => ?_,
    fun p hq => hctrl.trans (hp p hq), fun i hi => ?_, ho⟩⟩
  · obtain ⟨hcrit, hholds⟩ := h.locking.holder i (hlock ▸ hi)
    rw [hthread]
    exact ⟨hcrit, hholds.congr hmem hctrl hheap⟩
  · have hset : Holds s (.idle 0) := h.locking.free (hlock ▸ hf)
    exact hset.congr hmem hctrl hheap
  · rw [hthread] at hc
    exact hlock.trans (h.locking.locked i (hn ▸ hi) hc)
  · obtain hw | ⟨i, hi, huse⟩ := hin
    · exact (hu hw).congr hctrl hheap
    · rw [hthread] at huse
      exact (h.found.live (.inr ⟨i, hn ▸ hi, huse⟩)).congr hctrl hheap
  · rw [hthread] at hq
    exact hctrl.trans (h.found.pointer i (hn ▸ hi) p hq)
  · rw [hthread]
    exact h.found.noOops i (hn ▸ hi)

theorem Inv.publish (h : Inv s) (hi : i < s.numThreads) (hpc : s.thread i = pc)
    (hs : s.run i = some t) {m : MapArgs} {p : ℕ}
    (hset : pc = .mapSetMem m p ∨ pc = .mapSetCtrl m p ∨ pc = .mapSetBytes m p) : Inv t := by
  have hc : pc.critical = true := by
    obtain rfl | rfl | rfl := hset <;> rfl
  have hholds := h.holds hi hpc hc
  rw [← hpc] at hc
  obtain rfl | rfl | rfl := hset
  · obtain ⟨-, hctrl, hlive⟩ := hholds
    simp only [State.run, hpc, Option.some.injEq] at hs
    subst hs
    exact h.hold hi hc rfl rfl rfl rfl rfl ⟨rfl, hctrl, hlive⟩ (h.alone (not_ctrlLive hctrl))
  · obtain ⟨hmem, hctrl, hlive⟩ := hholds
    simp only [State.run, hpc, Option.some.injEq] at hs
    subst hs
    exact h.hold hi hc rfl rfl rfl rfl rfl ⟨hmem, rfl, hlive⟩ (h.alone (not_ctrlLive hctrl))
  · simp only [State.run, hpc, Option.some.injEq] at hs
    subst hs
    exact h.hold hi hc rfl rfl rfl rfl rfl hholds fun hin => ⟨rfl, h.found.live hin⟩

theorem Inv.unwind (h : Inv s) (hi : i < s.numThreads) (hpc : s.thread i = pc)
    (hfrees : pc.frees = true → ¬InUse s) (hs : s.run i = some t)
    (hset : (∃ p, pc = .mapFree p) ∨ pc = .mapClearMem ∨ pc = .mapClearCtrl ∨
      pc = .mapClearBytes) : Inv t := by
  have hc : pc.critical = true := by
    obtain ⟨p, rfl⟩ | rfl | rfl | rfl := hset <;> rfl
  have hholds := h.holds hi hpc hc
  rw [← hpc] at hc
  obtain ⟨p, rfl⟩ | rfl | rfl | rfl := hset
  · obtain ⟨-, hctrl, -⟩ := hholds
    simp only [State.run, hpc, Option.some.injEq] at hs
    subst hs
    refine h.hold hi hc rfl rfl rfl rfl rfl ⟨p, hctrl, ?_⟩ fun hin => absurd hin (hfrees rfl)
    simp [State.setHeap]
  · have hd : ¬CtrlLive s := fun hlive => hlive.not_dangling hholds
    simp only [State.run, hpc, Option.some.injEq] at hs
    subst hs
    exact h.hold hi hc rfl rfl rfl rfl rfl ⟨rfl, hholds⟩ (h.alone hd)
  · obtain ⟨hmem, hd⟩ := hholds
    simp only [State.run, hpc, Option.some.injEq] at hs
    subst hs
    exact h.hold hi hc rfl rfl rfl rfl rfl ⟨hmem, rfl⟩
      (h.alone fun hlive => hlive.not_dangling hd)
  · obtain ⟨hmem, hctrl⟩ := hholds
    simp only [State.run, hpc, Option.some.injEq] at hs
    subst hs
    refine h.hold hi hc rfl rfl rfl rfl rfl ⟨hmem.trans hctrl.symm, fun p hp => ?_⟩
      (h.alone (not_ctrlLive hctrl))
    cases hctrl.symm.trans hp

theorem Inv.mapBusy {m : MapArgs} (h : Inv s) (hi : i < s.numThreads)
    (hpc : s.thread i = .mapBusy m) (hs : s.run i = some t) : Inv t := by
  have hset : Settled s := h.holds hi hpc rfl
  have hc : (s.thread i).critical = true := by rw [hpc]; rfl
  simp only [State.run, hpc, Option.some.injEq] at hs
  subst hs
  split_ifs with hmem hvalid
  · exact h.mapGoto hi hc rfl hset
  · have hnone : s.mem = none := by simpa using hmem
    exact h.mapGoto hi hc rfl ⟨hnone, hset.1 ▸ hnone⟩
  · exact h.mapGoto hi hc rfl hset

theorem Inv.sleepLoad {seen : BitVec 32} (h : Inv s) (hi : i < s.numThreads)
    (hpc : s.thread i = .sleepLoad seen) (hs : s.run i = some t) : Inv t := by
  have hlive : CtrlLive s := h.found.live (.inr ⟨i, hi, by rw [hpc]; rfl⟩)
  obtain ⟨p, hp, -⟩ := id hlive
  simp only [State.run, hpc, hp, Option.some.injEq] at hs
  subst hs
  refine h.goto (by rw [hpc]; rfl) rfl (fun _ => hlive) (fun q hq => ?_) (by simp)
  rwa [← Option.some.inj hq]

theorem Inv.sleepRead {seen : BitVec 32} (h : Inv s) (hi : i < s.numThreads)
    (hpc : s.thread i = .sleepRead seen p) (hs : s.run i = some t) : Inv t := by
  have hlive : CtrlLive s := h.found.live (.inr ⟨i, hi, by rw [hpc]; rfl⟩)
  have hp : s.ctrl = some p := h.found.pointer i hi p (by rw [hpc]; rfl)
  obtain ⟨q, hq, hsome⟩ := id hlive
  obtain rfl : p = q := Option.some.inj (hp.symm.trans hq)
  obtain ⟨b, hb⟩ := Option.isSome_iff_exists.mp hsome
  simp only [State.run, hpc, hb, Option.some.injEq] at hs
  subst hs
  split_ifs with hseq
  · exact h.leave (by rw [hpc]; rfl) rfl
  · exact h.goto (by rw [hpc]; rfl) rfl (fun _ => hlive) (fun q hq => by cases hq) (by simp)

theorem Inv.sleepTest {seen : BitVec 32} (h : Inv s) (hpc : s.thread i = .sleepTest seen)
    (hd : ¬Dangling s) (hs : s.run i = some t) : Inv t := by
  simp only [State.run, hpc, Option.some.injEq] at hs
  subst hs
  split_ifs with hctrl
  · have hlive := ctrlLive_of_not_dangling hd hctrl
    exact h.goto (by rw [hpc]; rfl) rfl (fun _ => hlive) (fun q hq => by cases hq) (by simp)
  · exact h.leave (by rw [hpc]; rfl) rfl

theorem Inv.run (h : Inv s) (hi : i < s.numThreads) (hok : quiet s (.run i))
    (hs : s.run i = some t) : Inv t := by
  obtain ⟨hfrees, htests⟩ := hok
  cases hpc : s.thread i with
  | mapLock m =>
    simp only [State.run, hpc, Option.ite_none_right_eq_some, Option.some.injEq] at hs
    obtain ⟨hl, rfl⟩ := hs
    have hholds : Settled s → Holds s (.mapCopyIn m) := id
    exact ⟨h.locking.acquire hl rfl hholds, h.found.leave rfl rfl rfl rfl rfl ⟨rfl, by simp⟩⟩
  | mapBusy m => exact h.mapBusy hi hpc hs
  | mapSetMem m p => exact h.publish hi hpc hs (.inl rfl)
  | mapSetCtrl m p => exact h.publish hi hpc hs (.inr (.inl rfl))
  | mapSetBytes m p => exact h.publish hi hpc hs (.inr (.inr rfl))
  | mapFree p => exact h.unwind hi hpc (hpc ▸ hfrees) hs (.inl ⟨p, rfl⟩)
  | mapClearMem => exact h.unwind hi hpc (hpc ▸ hfrees) hs (.inr (.inl rfl))
  | mapClearCtrl => exact h.unwind hi hpc (hpc ▸ hfrees) hs (.inr (.inr (.inl rfl)))
  | mapClearBytes => exact h.unwind hi hpc (hpc ▸ hfrees) hs (.inr (.inr (.inr rfl)))
  | mapUnlock rc =>
    have hset : Settled s := h.holds hi hpc rfl
    simp only [State.run, hpc, Option.some.injEq] at hs
    subst hs
    exact ⟨h.locking.release hi (by rw [hpc]; rfl) hset rfl,
      h.found.leave rfl rfl rfl rfl rfl ⟨rfl, by simp⟩⟩
  | sleepTest seen => exact h.sleepTest hpc (htests (by rw [hpc]; rfl)) hs
  | sleepLoad seen => exact h.sleepLoad hi hpc hs
  | sleepRead seen p => exact h.sleepRead hi hpc hs
  | irqSchedule =>
    simp only [State.run, hpc, Option.some.injEq] at hs
    subst hs
    have hpend : Inv { s with pending := true } :=
      h.outside rfl rfl rfl rfl rfl (fun _ => rfl) (fun hu => h.found.live (.inl hu))
        h.found.workPointer h.found.workNoOops
    exact hpend.leave (by rw [hpc]; rfl) rfl
  | irqTest =>
    simp only [State.run, hpc, Option.some.injEq] at hs
    subst hs
    exact h.leave (by rw [hpc]; rfl) (by split_ifs <;> rfl)
  | mmapTest len | mmapBytes len =>
    simp only [State.run, hpc, Option.some.injEq] at hs
    subst hs
    exact h.leave (by rw [hpc]; rfl) (by split_ifs <;> rfl)
  | mmapRemap len =>
    simp only [State.run, hpc, Option.some.injEq] at hs
    subst hs
    exact h.leave (by rw [hpc]; rfl) rfl
  | _ => simp [State.run, hpc] at hs

theorem Inv.copied {ok : Bool} (h : Inv s) (hi : i < s.numThreads)
    (hs : s.copied i ok = some t) : Inv t := by
  cases hpc : s.thread i with
  | mapCopyIn m =>
    have hset : Settled s := h.holds hi hpc rfl
    simp only [State.copied, hpc, Option.some.injEq] at hs
    subst hs
    cases ok <;> exact h.mapGoto hi (by rw [hpc]; rfl) rfl hset
  | mapCopyOut p =>
    have hholds : Holds s (.mapCopyOut p) := h.holds hi hpc rfl
    simp only [State.copied, hpc, Option.some.injEq] at hs
    subst hs
    cases ok with
    | false => exact h.mapGoto hi (by rw [hpc]; rfl) rfl hholds
    | true =>
      obtain ⟨hmem, hctrl, hlive⟩ := hholds
      refine h.mapGoto hi (by rw [hpc]; rfl) rfl ⟨hmem.trans hctrl.symm, fun q hq => ?_⟩
      obtain rfl : p = q := Option.some.inj (hctrl.symm.trans hq)
      exact hlive
  | sleepCopyIn seen =>
    simp only [State.copied, hpc, Option.some.injEq] at hs
    subst hs
    cases ok <;> exact h.leave (by rw [hpc]; rfl) rfl
  | _ => simp [State.copied, hpc] at hs

theorem Inv.allocated {a : Option ℕ} (h : Inv s) (hi : i < s.numThreads)
    (hs : s.allocated i a = some t) : Inv t := by
  cases hpc : s.thread i with
  | mapAlloc m =>
    obtain ⟨hmem, hctrl⟩ := h.holds hi hpc rfl
    cases a with
    | none =>
      simp only [State.allocated, hpc, Option.some.injEq] at hs
      subst hs
      refine h.mapGoto hi (by rw [hpc]; rfl) rfl ⟨hmem.trans hctrl.symm, fun q hq => ?_⟩
      cases hctrl.symm.trans hq
    | some p =>
      simp only [State.allocated, hpc, Option.ite_none_right_eq_some, Option.some.injEq] at hs
      obtain ⟨-, rfl⟩ := hs
      refine h.hold hi (by rw [hpc]; rfl) rfl rfl rfl rfl rfl ⟨hmem, hctrl, ?_⟩
        (h.alone (not_ctrlLive hctrl))
      simp [State.setHeap]
  | _ => simp [State.allocated, hpc] at hs

theorem isSome_setHeap {q : ℕ} {b : Block} (hb : (s.heap p).isSome = true) :
    ((s.setHeap p (some b)).heap q).isSome = (s.heap q).isSome := by
  by_cases hqp : q = p
  · subst hqp
    simp [State.setHeap, hb]
  · simp [State.setHeap, hqp]

theorem Inv.runWork (h : Inv s) (hok : quiet s .work) (hs : s.runWork = some t) : Inv t := by
  cases hw : s.work with
  | test =>
    simp only [State.runWork, hw, Option.some.injEq] at hs
    subst hs
    refine h.outside rfl rfl rfl rfl rfl (fun _ => rfl) (fun hu => ?_) (fun p hp => ?_) ?_
    · by_cases hctrl : s.ctrl.isSome = true
      · exact ctrlLive_of_not_dangling (hok hw) hctrl
      · simp [hctrl, Work.uses] at hu
    · split_ifs at hp <;> cases hp
    · split_ifs <;> simp
  | loadSeq =>
    have hlive : CtrlLive s := h.found.live (.inl (by rw [hw]; rfl))
    obtain ⟨p, hp, -⟩ := id hlive
    simp only [State.runWork, hw, hp, Option.some.injEq] at hs
    subst hs
    refine h.outside rfl rfl rfl rfl hp.symm (fun _ => rfl) (fun _ => hlive) (fun q hq => ?_)
      (by simp)
    rwa [← Option.some.inj hq]
  | readSeq p =>
    have hlive : CtrlLive s := h.found.live (.inl (by rw [hw]; rfl))
    have hp : s.ctrl = some p := h.found.workPointer p (by rw [hw]; rfl)
    obtain ⟨q, hq, hsome⟩ := id hlive
    obtain rfl : p = q := Option.some.inj (hp.symm.trans hq)
    obtain ⟨b, hb⟩ := Option.isSome_iff_exists.mp hsome
    simp only [State.runWork, hw, hb, Option.some.injEq] at hs
    subst hs
    exact h.outside rfl rfl rfl rfl rfl (fun _ => rfl) (fun _ => hlive) (fun q hq => by cases hq)
      (by simp)
  | loadStore seq =>
    have hlive : CtrlLive s := h.found.live (.inl (by rw [hw]; rfl))
    obtain ⟨p, hp, -⟩ := id hlive
    simp only [State.runWork, hw, hp, Option.some.injEq] at hs
    subst hs
    refine h.outside rfl rfl rfl rfl hp.symm (fun _ => rfl) (fun _ => hlive) (fun q hq => ?_)
      (by simp)
    rwa [← Option.some.inj hq]
  | storeSeq p seq =>
    have hp : s.ctrl = some p := h.found.workPointer p (by rw [hw]; rfl)
    obtain ⟨q, hq, hsome⟩ := h.found.live (.inl (by rw [hw]; rfl))
    obtain rfl : p = q := Option.some.inj (hp.symm.trans hq)
    obtain ⟨b, hb⟩ := Option.isSome_iff_exists.mp hsome
    simp only [State.runWork, hw, hb, Option.some.injEq] at hs
    subst hs
    exact h.outside rfl rfl rfl rfl rfl (fun _ => isSome_setHeap hsome) (fun hu => by cases hu)
      (fun q hq => by cases hq) (by simp)
  | wake =>
    simp only [State.runWork, hw, Option.some.injEq] at hs
    subst hs
    exact h.outside rfl rfl rfl rfl rfl (fun _ => rfl) (fun hu => by cases hu)
      (fun q hq => by cases hq) (by simp)
  | _ => simp [State.runWork, hw] at hs

theorem Inv.step {a : Action} (h : Inv s) (hok : quiet s a) (hs : Kmod.step s a = some t) :
    Inv t := by
  cases a with
  | call i c =>
    simp only [Kmod.step] at hs
    split at hs
    next rc hpc =>
      simp only [Option.ite_none_right_eq_some, Option.some.injEq] at hs
      obtain ⟨-, rfl⟩ := hs
      cases c <;> exact h.leave (by rw [hpc]; rfl) rfl
    next => cases hs
  | run i =>
    simp only [Kmod.step, Option.ite_none_right_eq_some] at hs
    exact h.run hs.1 hok hs.2
  | copied i ok =>
    simp only [Kmod.step, Option.ite_none_right_eq_some] at hs
    exact h.copied hs.1 hs.2
  | allocated i p =>
    simp only [Kmod.step, Option.ite_none_right_eq_some] at hs
    exact h.allocated hs.1 hs.2
  | wait i w =>
    simp only [Kmod.step] at hs
    split at hs
    next seen hpc =>
      simp only [Option.ite_none_right_eq_some, Option.some.injEq] at hs
      obtain ⟨hi, rfl⟩ := hs
      have hlive : CtrlLive s := h.found.live (.inr ⟨i, hi, by rw [hpc]; rfl⟩)
      cases w with
      | again =>
        exact h.goto (by rw [hpc]; rfl) rfl (fun _ => hlive) (fun q hq => by cases hq) (by simp)
      | timedOut | signalled => exact h.leave (by rw [hpc]; rfl) rfl
    next => cases hs
  | startWork =>
    simp only [Kmod.step, Option.ite_none_right_eq_some, Option.some.injEq] at hs
    obtain ⟨-, rfl⟩ := hs
    exact h.outside rfl rfl rfl rfl rfl (fun _ => rfl) (fun hu => by cases hu)
      (fun q hq => by cases hq) (by simp)
  | work => exact h.runWork hok hs
  | store p v =>
    simp only [Kmod.step] at hs
    split at hs
    next b hb =>
      simp only [Option.some.injEq] at hs
      subst hs
      exact h.outside rfl rfl rfl rfl rfl (fun _ => isSome_setHeap (by rw [hb]; rfl))
        (fun hu => h.found.live (.inl hu)) h.found.workPointer h.found.workNoOops
    next => cases hs

theorem Inv.new (threads : ℕ) : Inv (.new threads) := by
  have hunused : ¬InUse (.new threads) := by
    rintro (hw | ⟨i, -, hu⟩)
    · cases hw
    · cases hu
  refine ⟨⟨fun i hi => ?_, fun _ => ⟨rfl, fun p hp => ?_⟩, fun i _ hc => ?_⟩,
    ⟨fun hin => absurd hin hunused, fun i _ p hp => ?_, fun p hp => ?_, fun i _ => ?_, ?_⟩⟩
  · cases hi
  · cases hp
  · cases hc
  · cases hp
  · cases hp
  · exact Pc.noConfusion
  · exact Work.noConfusion

/-- In a run in which MAP frees the mapping only when nobody is past the test of
`s->ctrl`, and nobody tests it before it is cleared: whenever a SLEEP evaluates its
condition, or the work item reads or stores `irq_seq`, `s->ctrl` points to the mapping
that is allocated, and so does the pointer they have loaded. No access goes wrong. -/
theorem mapping_outlives_users {threads : ℕ} (h : Reach step quiet (.new threads) s) :
    (InUse s → CtrlLive s) ∧
    (∀ i < s.numThreads, ∀ p, (s.thread i).pointer = some p → s.ctrl = some p) ∧
    (∀ p, s.work.pointer = some p → s.ctrl = some p) ∧
    (∀ i < s.numThreads, s.thread i ≠ .oops) ∧ s.work ≠ .oops := by
  have hinv : Inv s := h.invariant (P := Inv) (.new threads) fun _ _ _ hi hok hs => hi.step hok hs
  exact ⟨hinv.found.live, hinv.found.pointer, hinv.found.workPointer, hinv.found.noOops,
    hinv.found.workNoOops⟩

def mapped : List Action :=
  let m : MapArgs := ⟨1, 1, 64⟩
  [.call 0 (.map m), .run 0, .copied 0 true, .run 0, .allocated 0 (some 0), .run 0, .run 0]

def failedThenMapped : List Action :=
  mapped ++ [.run 0, .copied 0 false] ++ List.replicate 5 (.run 0) ++ mapped ++
    [.call 1 (.sleep 0), .copied 1 true, .run 1, .run 1, .call 2 .irq, .run 2, .run 2, .startWork,
      .work, .work, .work, .work]

theorem mapping_outlives_users_failedThenMapped : ∃ s, Reach step quiet (.new 3) s ∧
    s.thread 1 = .sleepRead 0 0 ∧ s.work = .storeSeq 0 0 ∧ CtrlLive s ∧ s.ctrl = some 0 := by
  have hrun : (exec (when quiet step) (.new 3) failedThenMapped).map (fun s =>
      decide (s.thread 1 = .sleepRead 0 0 ∧ s.work = .storeSeq 0 0)) = some true := by
    decide +kernel
  obtain ⟨s, hs, hq⟩ := Option.map_eq_some_iff.mp hrun
  have hreach : Reach step quiet (.new 3) s := .of_exec_when .refl hs
  obtain ⟨hpc, hwork⟩ := of_decide_eq_true hq
  obtain ⟨hlive, -, hptr, -, -⟩ := mapping_outlives_users hreach
  exact ⟨s, hreach, hpc, hwork, hlive (.inl (by rw [hwork]; rfl)), hptr 0 (by rw [hwork]; rfl)⟩

/-- A second thread goes to sleep after MAP has published the mapping and before its
`copy_to_user` fails; the mapping is freed and the wait looks at its condition again. -/
def freedAsleep : List Action :=
  mapped ++ [.run 0, .call 1 (.sleep 0), .copied 1 true, .run 1, .run 1, .run 1, .copied 0 false,
    .run 0, .wait 1 .again]

theorem freedAsleep_dangling : ∃ s, Reach step anyStep (.new 2) s ∧
    s.thread 1 = .sleepLoad 0 ∧ s.ctrl = some 0 ∧ s.heap 0 = none := by
  have hrun : (exec step (.new 2) freedAsleep).map (fun s =>
      decide (s.thread 1 = .sleepLoad 0 ∧ s.ctrl = some 0 ∧ s.heap 0 = none)) = some true := by
    decide +kernel
  obtain ⟨s, hs, hq⟩ := Option.map_eq_some_iff.mp hrun
  exact ⟨s, .of_exec .refl hs, of_decide_eq_true hq⟩

end SoftGpu.Kmod
