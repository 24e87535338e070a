import SoftGpu.DriverSteps

/-!
# Submission and deferred release

The driver of `Driver` together with the threads in `SG_IOC_SUBMIT` and
`SG_IOC_UNPIN` and with the pending list as it is, one vector of released blocks and
released pins. `reclaim_locked` walks the vector and compacts it in place: `walk` has
the index of the entry it looks at and the end of those it keeps. `drv` has the
blocks of the vector once more, which `blocks_synced` says.

A submit validates its ranges one call of `owns` at a time, each under the shared lock,
and publishes its commands later, one for each chunk of a staged copy.

The fields from `born` on are history. Allocations are numbered in the order in which
they are entered in `allocs`; `current` has the last one at an address, `freed` what was
published on each channel when `SG_IOC_FREE` took the allocation out, and `due` the
allocations on the list whose snapshot had retired when the last reclaim began.
-/

namespace SoftGpu.Release
open Machine Driver

inductive Entry
  | pin (addr size : ℕ) (fence : Chan → ℕ)
  | block (id : ℕ) (p : Pending)

def Entry.fence : Entry → Chan → ℕ
  | .pin _ _ fence => fence
  | .block _ p => p.fence

def Entry.block? : Entry → Option Pending
  | .pin .. => none
  | .block _ p => some p

def Entry.id? : Entry → Option ℕ
  | .pin .. => none
  | .block id _ => some id

inductive Unpin
  | idle
  | snapshot (addr size : ℕ) (fence : Chan → ℕ) (todo : List Chan)

structure Operand where
  id : ℕ
  addr : ℕ
  len : ℕ
  deriving DecidableEq, Repr

inductive Submit
  | idle
  | running (chan : Chan) (ranges : List (ℕ × ℕ)) (operands : List Operand) (left : ℕ)
  deriving DecidableEq, Repr

structure State where
  drv : Driver.State
  pins : KeyMap ℕ
  unpin : ℕ → Unpin
  submit : ℕ → Submit
  queue : List Entry
  walk : Option (ℕ × ℕ)
  log : Chan → List (List Operand)
  born : List Region
  current : ℕ → ℕ
  freed : ℕ → Option (Chan → ℕ)
  recycled : List ℕ
  due : List ℕ

def init (cfg : Config) : State where
  drv := Driver.init cfg
  pins := .empty
  unpin := fun _ => .idle
  submit := fun _ => .idle
  queue := []
  walk := none
  log := fun _ => []
  born := []
  current := fun _ => 0
  freed := fun _ => none
  recycled := []
  due := []

inductive Action
  | drv (a : Driver.Action)
  | pin (addr size : ℕ)
  | unpin (t addr : ℕ)
  | unpinSnap (t : ℕ)
  | unpinPush (t : ℕ)
  | submit (t : ℕ) (c : Chan) (ranges : List (ℕ × ℕ)) (commands : ℕ)
  | owns (t : ℕ)
  | enqueue (t : ℕ)
  | giveUp (t : ℕ)

/-! ### Under `alloc_lock` -/

def State.startWalk (cfg : Config) (s : State) (d : Driver.State) : State :=
  { s with
    drv := d
    walk := some (0, 0)
    due := (s.queue.filter fun e => allRetired cfg s.drv e.fence).filterMap Entry.id? }

def State.reclaim (cfg : Config) (s : State) : Option State :=
  match s.walk with
  | none => none
  | some (i, keep) =>
    match s.queue[i]? with
    | none => (Driver.step cfg s.drv .reclaim).map fun d =>
        { s with drv := d, queue := s.queue.take keep, walk := none }
    | some (.pin addr size fence) =>
      if allRetired cfg s.drv fence then some { s with walk := some (i + 1, keep) }
      else some { s with
        queue := s.queue.set keep (.pin addr size fence)
        walk := some (i + 1, keep + 1) }
    | some (.block id p) => (Driver.step cfg s.drv .reclaim).map fun d =>
        if allRetired cfg s.drv p.fence then
          { s with drv := d, walk := some (i + 1, keep), recycled := s.recycled ++ [id] }
        else { s with
          drv := d
          queue := s.queue.set keep (.block id p)
          walk := some (i + 1, keep + 1) }

def State.allocated (s : State) (d : Driver.State) (r : Region) : State :=
  { s with
    drv := d
    born := s.born ++ [r]
    current := Function.update s.current r.addr s.born.length }

def State.driverStep (cfg : Config) (s : State) (a : Driver.Action) : Option State :=
  match a with
  | .publish _ => none
  | .reclaim => s.reclaim cfg
  | .lock _ => (Driver.step cfg s.drv a).map (s.startWalk cfg)
  | .drain ok => (Driver.step cfg s.drv a).map fun d =>
      if ok then s.startWalk cfg d else { s with drv := d }
  | .mapBlock => (Driver.step cfg s.drv a).map fun d =>
      match s.drv.holder, d.holder with
      | .mapBlock addr size, .free => s.allocated d ⟨addr, VramAllocator.roundUp pageSize size, 0⟩
      | _, _ => { s with drv := d }
  | .addRange => (Driver.step cfg s.drv a).map fun d =>
      match s.drv.holder with
      | .addRange addr bytes host _ => s.allocated d ⟨addr, bytes, host⟩
      | _ => { s with drv := d }
  | .lookup => (Driver.step cfg s.drv a).map fun d =>
      match d.holder with
      | .snapshot p _ => { s with
          drv := d
          freed := Function.update s.freed (s.current p.addr) (some s.drv.published) }
      | _ => { s with drv := d }
  | .snap => (Driver.step cfg s.drv a).map fun d =>
      match s.drv.holder with
      | .snapshot p [] =>
        if allRetired cfg s.drv p.fence then
          { s with drv := d, recycled := s.recycled ++ [s.current p.addr] }
        else { s with drv := d, queue := s.queue ++ [.block (s.current p.addr) p] }
      | _ => { s with drv := d }
  | _ => (Driver.step cfg s.drv a).map fun d => { s with drv := d }

/-! ### Threads -/

def State.owner (s : State) (addr len : ℕ) : Option ℕ :=
  match s.drv.allocs.atMost addr with
  | none => none
  | some (first, al) =>
    if addr - first ≤ al.size ∧ len ≤ al.size - (addr - first) then some (s.current first)
    else none

def step (cfg : Config) (s : State) (a : Action) : Option State :=
  match a with
  | .drv a => s.driverStep cfg a
  | .pin addr size =>
    if addr ≠ 0 ∧ size ≠ 0 ∧ addr + size < 2 ^ 64 ∧
        s.pins.entries.all fun e => e.1 + e.2 ≤ addr ∨ addr + size ≤ e.1 then
      some { s with pins := s.pins.emplace addr size }
    else none
  | .unpin t addr =>
    match s.unpin t, s.pins.find addr with
    | .idle, some size => some { s with
        pins := s.pins.erase addr
        unpin := Function.update s.unpin t (.snapshot addr size (fun _ => 0) cfg.chans) }
    | _, _ => none
  | .unpinSnap t =>
    match s.unpin t with
    | .snapshot addr size fence (c :: todo) => some { s with
        unpin := Function.update s.unpin t
          (.snapshot addr size (Function.update fence c (s.drv.published c)) todo) }
    | _ => none
  | .unpinPush t =>
    match s.unpin t with
    | .snapshot addr size fence [] =>
      if s.drv.holder.isFree then some { s with
        queue := s.queue ++ [.pin addr size fence]
        unpin := Function.update s.unpin t .idle }
      else none
    | _ => none
  | .submit t c ranges commands =>
    match s.submit t with
    | .idle =>
      if c ∈ cfg.chans ∧ commands ≠ 0 then
        some { s with submit := Function.update s.submit t (.running c ranges [] commands) }
      else none
    | _ => none
  | .owns t =>
    match s.submit t with
    | .running c ((addr, len) :: ranges) operands left =>
      if s.drv.holder.isFree then
        match s.owner addr len with
        | some id => some { s with
            submit := Function.update s.submit t
              (.running c ranges (operands ++ [⟨id, addr, len⟩]) left) }
        | none => some { s with submit := Function.update s.submit t .idle }
      else none
    | _ => none
  | .enqueue t =>
    match s.submit t with
    | .running c [] operands (left + 1) =>
      (Driver.step cfg s.drv (.publish c)).map fun d =>
        { s with
          drv := d
          log := Function.update s.log c (s.log c ++ [operands])
          submit := Function.update s.submit t
            (if left = 0 then .idle else .running c [] operands left) }
    | _ => none
  | .giveUp t =>
    -- A wait between two chunks reports the sticky error.
    match s.submit t with
    | .running _ [] _ _ => some { s with submit := Function.update s.submit t .idle }
    | _ => none

end SoftGpu.Release
