import SoftGpu.Machine
import Mathlib.Data.Nat.Bitwise
import Mathlib.Data.List.Zip

/-!
# One command ring: `enqueue` against the engine's run loop

The state holds the per-channel registers (`Channel::put`, `Channel::get`,
`parked`, `fault_fail`, `sticky_error`), the producer side of the channel (`Producer::lock`,
`reserve`, `put`), the ring memory, the program point of every producer inside
`enqueue`, and the program point of the engine with respect to this channel.
Each action is one atomic access of the source, so a run is a sequentially
consistent interleaving. Counters are unbounded.

The engine's private cursor `k.get` always equals the register `get` between
its atomic steps, so only the register is kept. `issued`, `retired` and
`returned` are history: the commands in the order their slots were claimed, the
retirements with their slot, and the fences handed back.
-/

namespace SoftGpu.Ring

inductive Mode
  | mutex
  | ticket
  deriving DecidableEq, Repr

/-- The depth is `2 ^ order`. `semaphore` marks the commands the run loop
handles itself and never passes to `execute` (`SG_OP_WAIT_FENCE`); they cannot
raise a page fault. -/
structure Config (Cmd : Type*) where
  mode : Mode
  order : ℕ
  semaphore : Cmd → Bool

def Config.depth {Cmd : Type*} (cfg : Config Cmd) : ℕ := 2 ^ cfg.order
def Config.mask {Cmd : Type*} (cfg : Config Cmd) : ℕ := cfg.depth - 1

inductive Point (Cmd : Type*)
  | idle
  | reserved (slot : ℕ) (cmd : Cmd)
  | stalled (slot : ℕ) (cmd : Cmd)
  | cleared (slot : ℕ) (cmd : Cmd)
  | written (slot : ℕ) (cmd : Cmd)
  | turn (slot : ℕ) (cmd : Cmd)
  | rung (slot : ℕ) (cmd : Cmd)
  | published (slot : ℕ) (cmd : Cmd)
  deriving DecidableEq, Repr

/-- Program points of `Device::run` for one channel. `loaded` lies between the
scan's load of PUT and its `fault_fail.exchange`, `probed` between that and its
load of `parked`, `failing` between an exchange that found an error and the
store of GET. `put` is the value the scan or the visit loaded last. -/
inductive EnginePoint (Cmd : Type*)
  | scan
  | loaded (put : ℕ)
  | failing (put : ℕ)
  | probed (put : ℕ)
  | visit (put : ℕ)
  | executing (put : ℕ) (cmd : Cmd)
  deriving DecidableEq, Repr

inductive FaultStage
  | none
  | pending
  | reported
  deriving DecidableEq, Repr

structure State (Tid Cmd : Type*) where
  lock : Option Tid
  reserve : ℕ
  mirror : ℕ
  put : ℕ
  get : ℕ
  ring : ℕ → Cmd
  point : Tid → Point Cmd
  engine : EnginePoint Cmd
  parked : Bool
  faultFail : Bool
  fault : FaultStage
  sticky : Bool
  backwards : Bool
  issued : List Cmd
  retired : List (Cmd × ℕ)
  returned : List (ℕ × Cmd)

variable {Tid Cmd : Type*}

def init [Inhabited Cmd] : State Tid Cmd where
  lock := none
  reserve := 0
  mirror := 0
  put := 0
  get := 0
  ring := fun _ => default
  point := fun _ => .idle
  engine := .scan
  parked := false
  faultFail := false
  fault := .none
  sticky := false
  backwards := false
  issued := []
  retired := []
  returned := []

inductive Action (Tid Cmd : Type*)
  | acquire (t : Tid)
  | release (t : Tid)
  | reserve (t : Tid) (cmd : Cmd)
  | test (t : Tid)
  | unstall (t : Tid)
  | write (t : Tid)
  | await (t : Tid)
  | ring (t : Tid)
  | hand (t : Tid)
  | ret (t : Tid)
  | load
  | exchange
  | probe
  | start
  | retire (err : Bool)
  | reload
  | leave
  | park
  | failHead
  | migrated
  | migrationFailed
  | unpark
  deriving DecidableEq, Repr

variable [DecidableEq Tid]

def State.goto (s : State Tid Cmd) (t : Tid) (p : Point Cmd) : State Tid Cmd :=
  { s with point := Function.update s.point t p }

/-- `enqueue`'s first lines: `fetch_add` on `reserve`, or a load of the mirror
by the lock holder. -/
def State.claim (cfg : Config Cmd) (s : State Tid Cmd) (t : Tid) (cmd : Cmd) :
    Option (State Tid Cmd) :=
  match cfg.mode with
  | .ticket =>
    some { s with
      reserve := s.reserve + 1
      point := Function.update s.point t (.reserved s.reserve cmd)
      issued := s.issued ++ [cmd] }
  | .mutex =>
    if s.lock = some t then
      some { s with
        point := Function.update s.point t (.reserved s.mirror cmd)
        issued := s.issued ++ [cmd] }
    else none

def State.advance (s : State Tid Cmd) (cmd : Cmd) : State Tid Cmd :=
  { s with get := s.get + 1, retired := s.retired ++ [(cmd, s.get)] }

def producerStep (cfg : Config Cmd) (s : State Tid Cmd) (t : Tid) :
    Action Tid Cmd → Option (State Tid Cmd)
  | .acquire _ =>
    if cfg.mode = .mutex ∧ s.lock = none then some { s with lock := some t } else none
  | .release _ =>
    match s.point t with
    | .idle => if s.lock = some t then some { s with lock := none } else none
    | _ => none
  | .reserve _ cmd =>
    match s.point t with
    | .idle => s.claim cfg t cmd
    | _ => none
  | .test _ =>
    match s.point t with
    | .reserved k c =>
      if cfg.depth ≤ k - s.get then some (s.goto t (.stalled k c))
      else some (s.goto t (.cleared k c))
    | _ => none
  | .unstall _ =>
    match s.point t with
    | .stalled k c => if k - cfg.depth + 1 ≤ s.get then some (s.goto t (.cleared k c)) else none
    | _ => none
  | .write _ =>
    match s.point t with
    | .cleared k c =>
      some { s with
        ring := Function.update s.ring (k &&& cfg.mask) c
        point := Function.update s.point t (.written k c) }
    | _ => none
  | .await _ =>
    match s.point t with
    | .written k c =>
      -- In mutex mode there is no wait: the holder goes straight on.
      if cfg.mode = .mutex ∨ s.mirror = k then some (s.goto t (.turn k c)) else none
    | _ => none
  | .ring _ =>
    match s.point t with
    | .turn k c =>
      some { s with put := k + 1, point := Function.update s.point t (.rung k c) }
    | _ => none
  | .hand _ =>
    match s.point t with
    | .rung k c =>
      some { s with mirror := k + 1, point := Function.update s.point t (.published k c) }
    | _ => none
  | .ret _ =>
    match s.point t with
    | .published k c =>
      some { s with
        point := Function.update s.point t .idle
        returned := s.returned ++ [(k + 1, c)] }
    | _ => none
  | _ => none

def engineStep (cfg : Config Cmd) (s : State Tid Cmd) : Action Tid Cmd → Option (State Tid Cmd)
  | .load =>
    match s.engine with
    | .scan => some { s with engine := .loaded s.put }
    | _ => none
  | .exchange =>
    match s.engine with
    | .loaded p =>
      if s.faultFail then some { s with engine := .failing p, faultFail := false, sticky := true }
      else some { s with engine := .probed p }
    | _ => none
  | .probe =>
    match s.engine with
    | .probed p =>
      if s.parked ∨ p = s.get then some { s with engine := .scan }
      else if p < s.get then some { s with engine := .scan, sticky := true, backwards := true }
      else some { s with engine := .visit p }
    | _ => none
  | .start =>
    match s.engine with
    | .visit p =>
      if p = s.get then none
      else some { s with engine := .executing p (s.ring (s.get &&& cfg.mask)) }
    | _ => none
  | .retire err =>
    match s.engine with
    | .executing p c =>
      some { s.advance c with engine := .visit p, sticky := s.sticky || err }
    | _ => none
  | .reload =>
    match s.engine with
    | .visit p => if p = s.get then some { s with engine := .visit s.put } else none
    | _ => none
  | .leave =>
    match s.engine with
    | .visit _ => some { s with engine := .scan }
    | _ => none
  | .park =>
    match s.engine with
    | .executing _ c =>
      if cfg.semaphore c then none
      else some { s with engine := .scan, parked := true, fault := .pending }
    | _ => none
  | .failHead =>
    match s.engine with
    | .failing p =>
      -- An error that finds nothing queued is dropped.
      if p = s.get then some { s with engine := .scan }
      else some { s.advance (s.ring (s.get &&& cfg.mask)) with engine := .scan }
    | _ => none
  | _ => none

/-- `service_faults` for the fault of this channel: on success `unpark`, on
failure the error is stored first and `unpark` follows. -/
def faultStep (s : State Tid Cmd) : Action Tid Cmd → Option (State Tid Cmd)
  | .migrated =>
    if s.fault = .pending then some { s with parked := false, fault := .none } else none
  | .migrationFailed =>
    if s.fault = .pending then some { s with faultFail := true, fault := .reported } else none
  | .unpark =>
    if s.fault = .reported then some { s with parked := false, fault := .none } else none
  | _ => none

def Action.producer : Action Tid Cmd → Option Tid
  | .acquire t | .release t | .reserve t _ | .test t | .unstall t | .write t | .await t
  | .ring t | .hand t | .ret t => some t
  | _ => none

def step (cfg : Config Cmd) (s : State Tid Cmd) (a : Action Tid Cmd) : Option (State Tid Cmd) :=
  match a.producer with
  | some t => producerStep cfg s t a
  | none => (engineStep cfg s a).orElse fun _ => faultStep s a

end SoftGpu.Ring
