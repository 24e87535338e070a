import SoftGpu.SlotLog
import SoftGpu.Relay

/-!
# What a staged copy moves

The staging pool with the bytes. A host-to-device copy fills a slot with `memcpy` and leaves
the rest to a DMA of the ring; a device-to-host copy lets the DMA fill the slot and copies it
out. `memcpy`, the DMAs of all channels and the stores of everything else go byte by byte, in any
order.

What is recorded besides: for each chunk of each call the bytes that were read from its source and
written to its destination, what the source held when the call began, and whether anything else
has stored to either range since.
-/

namespace SoftGpu.StagedCopy
open Machine Staging

structure Job where
  kind : Kind
  host : ℕ
  dev : ℕ
  total : ℕ
  deriving DecidableEq, Repr

inductive Side
  | host
  | dev
  deriving DecidableEq, Repr

def Job.base (j : Job) : Side → ℕ
  | .host => j.host
  | .dev => j.dev

def Job.covers (j : Job) (side : Side) (a : ℕ) : Bool := j.base side ≤ a ∧ a < j.base side + j.total

def sourceSide : Kind → Side
  | .h2d => .host
  | .d2h => .dev

def destSide : Kind → Side
  | .h2d => .dev
  | .d2h => .host

/-- A command of the ring that moves a chunk between a slot and device memory. The call and the
number of the chunk are for stating properties only. -/
structure Dma where
  kind : Kind
  slot : ℕ
  addr : ℕ
  size : ℕ
  call : ℕ
  chunk : ℕ
  deriving DecidableEq, Repr

/-- `copied t` and `moved chan` count the bytes of the `memcpy` and of the DMA in progress; the
fields from `calls` on are history, but for `fence`, which is `a.fence`. -/
structure State (n : ℕ) where
  pool : Staging.State n
  ring : Chan → ℕ → Option Dma
  moved : Chan → ℕ
  copied : Fin n → ℕ
  slots : ℕ → ℕ → UInt8
  mem : Side → ℕ → UInt8
  calls : ℕ
  call : Fin n → ℕ
  job : ℕ → Job
  fence : ℕ → Fence
  result : ℕ → Option Bool
  failed : Chan → ℕ → Bool
  drained : Chan → ℕ → Bool
  reads : ℕ × ℕ → ℕ → List UInt8
  writes : ℕ × ℕ → ℕ → List UInt8
  touched : ℕ → Bool
  orig : ℕ → ℕ → UInt8

def init (n : ℕ) (mem : Side → ℕ → UInt8) : State n where
  pool := Staging.init n
  ring := fun _ _ => none
  moved := fun _ => 0
  copied := fun _ => 0
  slots := fun _ _ => 0
  mem := mem
  calls := 0
  call := fun _ => 0
  job := fun _ => ⟨.h2d, 0, 0, 0⟩
  fence := fun _ => ⟨(0, 0), 0⟩
  result := fun _ => none
  failed := fun _ _ => false
  drained := fun _ _ => false
  reads := fun _ _ => []
  writes := fun _ _ => []
  touched := fun _ => false
  orig := fun _ _ => 0

inductive Action (n : ℕ)
  | submit (t : Fin n) (chan : Chan) (job : Job)
  | run (t : Fin n)
  | memcpy (t : Fin n)
  | publish (chan : Chan)
  | dma (chan : Chan)
  | retire (chan : Chan) (err : Bool)
  | store (side : Side) (a : ℕ) (v : UInt8)

def piece (cfg : Config) (total off : ℕ) : ℕ := min cfg.chunk (total - off)

def put {α β γ : Type*} [DecidableEq α] [DecidableEq β] (f : α → β → γ) (a : α) (b : β) (c : γ) :
    α → β → γ := Function.update f a (Function.update (f a) b c)

def isFailed : Point → Bool
  | .failed .. => true
  | _ => false

namespace State
variable {n : ℕ}

def source (x : State n) (k i : ℕ) : UInt8 :=
  x.mem (sourceSide (x.job k).kind) ((x.job k).base (sourceSide (x.job k).kind) + i)

def dest (x : State n) (k i : ℕ) : UInt8 :=
  x.mem (destSide (x.job k).kind) ((x.job k).base (destSide (x.job k).kind) + i)

def store (x : State n) (side : Side) (a : ℕ) (v : UInt8) (who : Option ℕ) : State n :=
  { x with
    mem := put x.mem side a v
    touched := fun k => x.touched k || (who ≠ some k && (x.job k).covers side a) }

def logRead (x : State n) (p : ℕ × ℕ) (j : ℕ) (v : UInt8) : State n :=
  { x with reads := put x.reads p j (x.reads p j ++ [v]) }

def logWrite (x : State n) (p : ℕ × ℕ) (j : ℕ) (v : UInt8) : State n :=
  { x with writes := put x.writes p j (x.writes p j ++ [v]) }

def load (x : State n) (p : ℕ × ℕ) (slot j : ℕ) (side : Side) (a : ℕ) : State n :=
  State.logRead { x with slots := put x.slots slot j (x.mem side a) } p j (x.mem side a)

def unload (x : State n) (p : ℕ × ℕ) (slot j : ℕ) (side : Side) (a : ℕ) : State n :=
  (x.store side a (x.slots slot j) (some p.1)).logWrite p j (x.slots slot j)

def ready (cfg : Config) (x : State n) (t : Fin n) (c : Copy) : Bool :=
  match c.kind, c.point with
  | .h2d, .enqueue _ => x.copied t = piece cfg c.total c.off
  | .d2h, .release .. => x.copied t = piece cfg c.total (c.done * cfg.chunk)
  | _, _ => true

def command (cfg : Config) (x : State n) (t : Fin n) (c : Copy) (slot : ℕ) : Dma :=
  let off := match c.kind with
    | .h2d => c.off
    | .d2h => c.issued * cfg.chunk
  ⟨c.kind, slot, (x.job (x.call t)).dev + off, piece cfg c.total off, x.call t, off / cfg.chunk⟩

def record (cfg : Config) (x : State n) (t : Fin n) (c : Copy) : State n :=
  match c.point with
  | .enqueue slot =>
    { x with
      ring := put x.ring c.chan (x.pool.published c.chan + 1) (some (x.command cfg t c slot))
      fence := match c.kind with
        | .h2d => Function.update x.fence (x.call t) ⟨c.chan, x.pool.published c.chan + 1⟩
        | .d2h => x.fence }
  | .drain w => { x with drained := put x.drained c.chan w.fence true }
  | _ => x

def finish (x : State n) (t : Fin n) (c : Copy) (s : Staging.State n) : State n :=
  { x with
    pool := s
    copied := Function.update x.copied t 0
    fence := match s.copies t, c.kind with
      | none, .d2h => Function.update x.fence (x.call t) ⟨c.chan, s.published c.chan⟩
      | _, _ => x.fence
    result := match s.copies t with
      | none => Function.update x.result (x.call t) (some (!isFailed c.point))
      | some _ => x.result }

def memcpy (cfg : Config) (x : State n) (t : Fin n) (c : Copy) : Option (State n) :=
  let k := x.call t
  let j := x.copied t
  match c.kind, c.point with
  | .h2d, .enqueue slot =>
    if j < piece cfg c.total c.off then
      some { x.load (k, c.off / cfg.chunk) slot j .host ((x.job k).host + c.off + j) with
        copied := Function.update x.copied t (j + 1) }
    else none
  | .d2h, .release slot _ =>
    if j < piece cfg c.total (c.done * cfg.chunk) then
      some { x.unload (k, c.done) slot j .host ((x.job k).host + c.done * cfg.chunk + j) with
        copied := Function.update x.copied t (j + 1) }
    else none
  | _, _ => none

def dma (x : State n) (chan : Chan) : Option (State n) :=
  match x.ring chan (x.pool.retired chan + 1) with
  | none => none
  | some d =>
    let j := x.moved chan
    if j < d.size then
      let y := match d.kind with
        | .h2d => x.unload (d.call, d.chunk) d.slot j .dev (d.addr + j)
        | .d2h => x.load (d.call, d.chunk) d.slot j .dev (d.addr + j)
      some { y with moved := Function.update x.moved chan (j + 1) }
    else none

def complete (x : State n) (chan : Chan) : Bool :=
  match x.ring chan (x.pool.retired chan + 1) with
  | none => true
  | some d => x.moved chan = d.size

end State

variable {n : ℕ}

def step (cfg : Config) (x : State n) : Action n → Option (State n)
  | .submit t chan job => (Staging.step cfg x.pool (.submit t job.kind chan job.total)).map fun s =>
    { x with
      pool := s
      calls := x.calls + 1
      call := Function.update x.call t x.calls
      job := Function.update x.job x.calls job
      copied := Function.update x.copied t 0
      touched := Function.update x.touched x.calls false
      orig := Function.update x.orig x.calls fun i =>
        x.mem (sourceSide job.kind) (job.base (sourceSide job.kind) + i) }
  | .run t =>
    match x.pool.copies t with
    | none => none
    | some c =>
      if x.ready cfg t c then
        (x.pool.copyStep cfg t c).map fun s => (x.record cfg t c).finish t c s
      else none
  | .memcpy t => (x.pool.copies t).bind fun c => x.memcpy cfg t c
  | .publish chan => (Staging.step cfg x.pool (.publish chan)).map fun s => { x with pool := s }
  | .dma chan => if x.pool.retired chan < x.pool.published chan then x.dma chan else none
  | .retire chan err =>
    -- A command that fails may have done part of its work.
    if err || x.complete chan then
      (Staging.step cfg x.pool (.retire chan err)).map fun s =>
        { x with
          pool := s
          moved := Function.update x.moved chan 0
          failed := put x.failed chan (x.pool.retired chan + 1) err }
    else none
  | .store side a v => some (x.store side a v none)

/-! ### What a copy that has returned has done -/

def chunkSize (cfg : Config) (total q : ℕ) : ℕ := piece cfg total (q * cfg.chunk)

/-- The fence has retired and no command of the call has failed. A device-to-host copy has waited
for its commands before it returns. -/
def State.Settled (x : State n) (k : ℕ) : Prop :=
  (x.job k).kind = .h2d → (x.fence k).value ≤ x.pool.retired (x.fence k).chan ∧
    ∀ f d, x.ring (x.fence k).chan f = some d → d.call = k → x.failed (x.fence k).chan f = false

/-- Every byte was read once and written once, and nothing else was; so unless something else
stored to one of the ranges, the destination holds what the source held when the call began. -/
structure Exact (cfg : Config) (x : State n) (k : ℕ) : Prop where
  once : ∀ q j, q < cfg.nchunks (x.job k).total → j < chunkSize cfg (x.job k).total q →
    ∃ v, x.reads (k, q) j = [v] ∧ x.writes (k, q) j = [v]
  only : ∀ q j, cfg.nchunks (x.job k).total ≤ q ∨ chunkSize cfg (x.job k).total q ≤ j →
    x.reads (k, q) j = [] ∧ x.writes (k, q) j = []
  effect : x.touched k = false → ∀ i < (x.job k).total,
    x.dest k i = x.orig k i ∧ x.source k i = x.orig k i

def Copying (s : Staging.State n) (t : Fin n) (slot : ℕ) : Prop :=
  ∃ c, s.copies t = some c ∧ (c.kind = .h2d ∧ c.point = .enqueue slot ∨
    c.kind = .d2h ∧ ∃ f, c.point = .release slot f)

/-- A slot is never filled while something else refers to it: no DMA that has not retired refers to
the slot of a `memcpy`, nor another thread; none but its own refers to the slot of a chunk that is
not copied out yet; and no two that have not retired share a slot. -/
structure RaceFree (x : State n) : Prop where
  memcpy : ∀ t slot, Copying x.pool t slot → (∀ chan f d, x.ring chan f = some d → d.slot = slot →
    f ≤ x.pool.retired chan) ∧ ∀ u, u ≠ t → ∀ c, x.pool.copies u = some c → slot ∉ c.held
  window : ∀ t c w, x.pool.copies t = some c → w ∈ c.window ∨ c.point = .drain w →
    ∀ chan f d, x.ring chan f = some d → d.slot = w.slot → x.pool.retired chan < f →
      chan = c.chan ∧ f = w.fence
  dma : ∀ chan f d chan' f' d', x.ring chan f = some d → x.ring chan' f' = some d' →
    x.pool.retired chan < f → x.pool.retired chan' < f' → d.slot = d'.slot → chan = chan' ∧ f = f'

end SoftGpu.StagedCopy
