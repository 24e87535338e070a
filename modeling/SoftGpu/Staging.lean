import SoftGpu.Machine
import Mathlib.Algebra.BigOperators.Fin

/-!
# The staging pool of pageable copies

`acquire_slot`, `release_slot` and the pageable branches of `do_submit`, run by
any number of threads against one pool. A thread's step is one of the waits and
pool operations of the source: the scan of `acquire_slot` that takes a slot, the
return of `wait_fence`, `enqueue`, `release_slot`. `enqueue` is one step here,
enabled when its back-pressure wait is over; what happens inside it is the
subject of `SoftGpu.Ring`. The device retires published commands one at a time
and may raise the sticky error with any of them. The bytes the chunks carry are
left out.
-/

namespace SoftGpu.Staging

abbrev Chan := ℕ × ℕ

structure Fence where
  chan : Chan
  value : ℕ
  deriving DecidableEq, Repr

structure Slot where
  fence : Fence
  busy : Bool
  deriving DecidableEq, Repr

/-- The driver's settings: `slots`, `chunk` and `depth` come from the
environment and are positive powers of two, `mutex` is `SG_SUBMIT_MUTEX`. -/
structure Config where
  slots : ℕ
  chunk : ℕ
  depth : ℕ
  mutex : Bool
  slots_pos : 0 < slots
  chunk_pos : 0 < chunk
  depth_pos : 0 < depth

def Config.default : Config where
  slots := 8
  chunk := 256 * 1024
  depth := 1024
  mutex := true
  slots_pos := by decide
  chunk_pos := by decide
  depth_pos := by decide

def Config.window (cfg : Config) : ℕ := max 1 (cfg.slots / 2)

def Config.nchunks (cfg : Config) (total : ℕ) : ℕ := (total + cfg.chunk - 1) / cfg.chunk

inductive Kind
  | h2d
  | d2h
  deriving DecidableEq, Repr

structure Issued where
  slot : ℕ
  fence : ℕ
  deriving DecidableEq, Repr

/-- Where a copy stands. `lock` is between the sticky check of `do_submit` and
`Producer::lock`, `failed` between a `wait_fence` that returned an error and the
`release_slot` before the return. -/
inductive Point
  | lock
  | acquire
  | waitPrev (slot : ℕ) (prev : Fence)
  | enqueue (slot : ℕ)
  | drain (w : Issued)
  | release (slot : ℕ) (fence : Fence)
  | failed (slot : ℕ) (fence : Fence)
  deriving DecidableEq, Repr

/-- One pageable copy inside `do_submit`. `off` is the loop variable of the
host-to-device branch; `issued`, `done` and `window` are those of the
device-to-host branch. -/
structure Copy where
  kind : Kind
  chan : Chan
  total : ℕ
  off : ℕ
  issued : ℕ
  done : ℕ
  window : List Issued
  point : Point
  deriving DecidableEq, Repr

namespace Copy

def goto (c : Copy) (p : Point) : Copy := { c with point := p }

def prime (cfg : Config) (c : Copy) : ℕ := min cfg.window (cfg.nchunks c.total)

/-- The heads of the two loops of the device-to-host branch: the priming loop,
then the loop that takes the oldest chunk in flight. `none` is the return. -/
def d2hLoop (cfg : Config) (c : Copy) : Option Copy :=
  if c.issued < c.prime cfg then some (c.goto .acquire)
  else if c.done < cfg.nchunks c.total then
    match c.window with
    | w :: rest => some { c with window := rest, point := .drain w }
    | [] => none
  else none

def h2dLoop (c : Copy) : Option Copy := if c.off < c.total then some (c.goto .acquire) else none

def submitted (kind : Kind) (chan : Chan) (total : ℕ) : Copy :=
  ⟨kind, chan, total, 0, 0, 0, [], .lock⟩

def start (cfg : Config) (c : Copy) : Option Copy :=
  match c.kind with
  | .h2d => c.h2dLoop
  | .d2h => c.d2hLoop cfg

def enqueued (cfg : Config) (c : Copy) (slot fence : ℕ) : Option Copy :=
  match c.kind with
  | .h2d => some (c.goto (.release slot ⟨c.chan, fence⟩))
  | .d2h => d2hLoop cfg { c with window := c.window ++ [⟨slot, fence⟩], issued := c.issued + 1 }

def released (cfg : Config) (c : Copy) : Option Copy :=
  match c.kind with
  | .h2d => h2dLoop { c with off := c.off + cfg.chunk }
  | .d2h =>
    if c.issued < cfg.nchunks c.total then some { c with done := c.done + 1, point := .acquire }
    else d2hLoop cfg { c with done := c.done + 1 }

def held (c : Copy) : List ℕ :=
  c.window.map Issued.slot ++
    match c.point with
    | .lock | .acquire => []
    | .waitPrev s _ | .enqueue s | .release s _ | .failed s _ => [s]
    | .drain w => [w.slot]

end Copy

structure State (n : ℕ) where
  slot : ℕ → Slot
  nextSlot : ℕ
  published : Chan → ℕ
  retired : Chan → ℕ
  sticky : Bool
  copies : Fin n → Option Copy

def init (n : ℕ) : State n where
  slot := fun _ => ⟨⟨(0, 0), 0⟩, false⟩
  nextSlot := 0
  published := fun _ => 0
  retired := fun _ => 0
  sticky := false
  copies := fun _ => none

namespace State
variable {n : ℕ}

def setCopy (s : State n) (t : Fin n) (c : Option Copy) : State n :=
  { s with copies := Function.update s.copies t c }

section SetCopy
variable (s : State n) (t : Fin n) (c : Option Copy)

@[simp] theorem setCopy_slot : (s.setCopy t c).slot = s.slot := rfl
@[simp] theorem setCopy_published : (s.setCopy t c).published = s.published := rfl
@[simp] theorem setCopy_retired : (s.setCopy t c).retired = s.retired := rfl
@[simp] theorem setCopy_sticky : (s.setCopy t c).sticky = s.sticky := rfl
@[simp] theorem setCopy_self : (s.setCopy t c).copies t = c := Function.update_self ..

@[simp] theorem setCopy_of_ne {u : Fin n} (h : u ≠ t) : (s.setCopy t c).copies u = s.copies u :=
  Function.update_of_ne h ..

end SetCopy

def acquireSlot (cfg : Config) (s : State n) : Option (ℕ × Fence × State n) :=
  match (List.range cfg.slots).find? fun i => !(s.slot ((s.nextSlot + i) % cfg.slots)).busy with
  | none => none
  | some i =>
    let k := (s.nextSlot + i) % cfg.slots
    some (k, (s.slot k).fence,
      { s with
        slot := Function.update s.slot k { s.slot k with busy := true }
        nextSlot := (k + 1) % cfg.slots })

def releaseSlot (s : State n) (k : ℕ) (f : Fence) : State n :=
  { s with slot := Function.update s.slot k ⟨f, false⟩ }

def enqueue (cfg : Config) (s : State n) (chan : Chan) : Option (ℕ × State n) :=
  if s.published chan < s.retired chan + cfg.depth then
    some (s.published chan + 1,
      { s with published := Function.update s.published chan (s.published chan + 1) })
  else none

def waitFence (s : State n) (f : Fence) : Option Bool :=
  if f.value ≤ s.retired f.chan then some s.sticky else none

def channelFree (s : State n) (chan : Chan) : Prop :=
  ∀ t, ∀ c ∈ s.copies t, c.point ≠ .lock → c.chan ≠ chan

instance (s : State n) (chan : Chan) : Decidable (s.channelFree chan) :=
  inferInstanceAs (Decidable (∀ t, ∀ c ∈ s.copies t, c.point ≠ .lock → c.chan ≠ chan))

def copyStep (cfg : Config) (s : State n) (t : Fin n) (c : Copy) : Option (State n) :=
  match c.point with
  | .lock =>
    if cfg.mutex = true → s.channelFree c.chan then some (s.setCopy t (c.start cfg)) else none
  | .acquire => (s.acquireSlot cfg).map fun (k, prev, s') =>
    s'.setCopy t (some (c.goto (.waitPrev k prev)))
  | .waitPrev k prev => (s.waitFence prev).map fun err =>
    s.setCopy t (some (c.goto (if err then .failed k prev else .enqueue k)))
  | .enqueue k => (s.enqueue cfg c.chan).map fun (f, s') => s'.setCopy t (c.enqueued cfg k f)
  | .drain w => (s.waitFence ⟨c.chan, w.fence⟩).map fun err =>
    s.setCopy t (some (c.goto
      (if err then .failed w.slot ⟨c.chan, w.fence⟩ else .release w.slot ⟨c.chan, w.fence⟩)))
  | .release k f => some ((s.releaseSlot k f).setCopy t (c.released cfg))
  | .failed k f => some ((s.releaseSlot k f).setCopy t none)

end State

/-- `submit` is a pageable copy that passes the sticky check of `do_submit` and
will pass the checks up to `pinned`; `publish` is the `enqueue` of any other
command; `retire` is the device, which reports an error or not. -/
inductive Action (n : ℕ)
  | submit (t : Fin n) (kind : Kind) (chan : Chan) (total : ℕ)
  | run (t : Fin n)
  | publish (chan : Chan)
  | retire (chan : Chan) (err : Bool)
  deriving DecidableEq, Repr

variable {n : ℕ}

def step (cfg : Config) (s : State n) : Action n → Option (State n)
  | .submit t kind chan total =>
    if s.copies t = none ∧ s.sticky = false then
      some (s.setCopy t (some (.submitted kind chan total)))
    else none
  | .run t => match s.copies t with
    | none => none
    | some c => s.copyStep cfg t c
  | .publish chan => (s.enqueue cfg chan).map Prod.snd
  | .retire chan err =>
    if s.retired chan < s.published chan then
      some { s with
        retired := Function.update s.retired chan (s.retired chan + 1)
        sticky := s.sticky || err }
    else none

end SoftGpu.Staging
