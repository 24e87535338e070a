import SoftGpu.DriverSteps

/-!
# Host faults against engines

With userfaultfd an access to the host side of a managed page that is in VRAM blocks until
the host-fault thread has evicted the page. The driver of `Driver` together with those who
can block: the engines, which access host memory in a copy, and the threads of the
process. A copy whose host range is pinned accesses that range itself; any other copy goes
through the staging pool, and it is the thread in `SG_IOC_SUBMIT` that accesses the range.
`SG_IOC_PIN` takes every range that does not overlap another one.

The steps of `Driver` under `mem_lock` are critical sections here: a thread takes the lock,
calls `quiesce` as often as it evicts, and then does its step. How often that is, and which
bytes of its host range a command accesses in which order, is left open. A command that
faults leaves the engine and stays at the head of its ring.
-/

namespace SoftGpu.HostFault
open Machine Driver

structure Config where
  drv : Driver.Config
  pool : ℕ × ℕ

structure Op where
  direct : Bool
  addr : ℕ
  size : ℕ
  deriving DecidableEq, Repr

def Op.bytes (op : Op) (x : ℕ) : Prop := op.addr ≤ x ∧ x < op.addr + op.size

instance (op : Op) (x : ℕ) : Decidable (op.bytes x) := inferInstanceAs (Decidable (_ ∧ _))

/-- `access_`, the channel whose head is executed, and the host page that the engine
blocks on. -/
structure Engine where
  seq : ℕ
  channel : Option ℕ
  blocked : Option ℕ
  deriving DecidableEq, Repr

inductive Thread
  | device
  | host
  | ioctl
  deriving DecidableEq, Repr

inductive Point
  | inside
  | quiesce (todo : List ℕ)
  | wait (e seq : ℕ) (todo : List ℕ)
  deriving DecidableEq, Repr

structure State where
  drv : Driver.State
  pins : KeyMap ℕ
  rings : Chan → List Op
  engines : ℕ → Engine
  users : ℕ → Option ℕ
  messages : List ℕ
  fault : Option ℕ
  lock : Option (Thread × Point)

def init (cfg : Config) : State where
  drv := Driver.init cfg.drv
  pins := .empty
  rings := fun _ => []
  engines := fun _ => ⟨0, none, none⟩
  users := fun _ => none
  messages := []
  fault := none
  lock := none

inductive Action
  | drv (a : Driver.Action)
  | pin (addr size : ℕ)
  | unpin (addr : ℕ)
  | submit (c : Chan) (op : Op)
  | enter (e channel : ℕ)
  | access (e x : ℕ)
  | resume (e : ℕ)
  | leave (e : ℕ) (retires : Bool)
  | userAccess (u x : ℕ)
  | userResume (u : ℕ)
  | popMessage
  | lock (t : Thread)
  | evict
  | quiesce
  | finish (a : Driver.Action)

/-! ### Missing pages -/

def pageOf (x : ℕ) : ℕ := x / pageSize * pageSize

def registered (d : Driver.State) (x : ℕ) : Prop :=
  ∃ r ∈ regionsOf (d.holder.fresh ++ d.items), r.host ≤ x ∧ x < r.host + r.size

def missing (d : Driver.State) (x : ℕ) : Prop :=
  registered d x ∧ d.mem.hostMem (pageOf x) = none

instance (d : Driver.State) (x : ℕ) : Decidable (registered d x) :=
  inferInstanceAs (Decidable (∃ r ∈ regionsOf (d.holder.fresh ++ d.items), _))

instance (d : Driver.State) (x : ℕ) : Decidable (missing d x) :=
  decidable_of_iff (registered d x ∧ (d.mem.hostMem (pageOf x)).isNone)
    (and_congr_right fun _ => Option.isNone_iff_eq_none)

/-! ### Critical sections -/

def lockedBy (cfg : Config) (d : Driver.State) : Driver.Action → Option Thread
  | .demand _ | .prefetch _ => some .device
  | .hostFault .. => some .host
  | .take | .evictAll _ | .undo | .addRange => some .ioctl
  | .reclaim =>
    match d.holder with
    | .reclaim (p :: _) _ _ => if allRetired cfg.drv d p.fence then some .ioctl else none
    | _ => none
  | .snap =>
    match d.holder with
    | .snapshot p [] => if allRetired cfg.drv d p.fence then some .ioctl else none
    | _ => none
  | _ => none

def wants (cfg : Config) (s : State) : Thread → Bool
  | .device => s.drv.service ≠ .idle
  | .host => s.fault.isSome
  | .ioctl =>
    match s.drv.holder with
    | .run (.take _ _) | .evictAll _ | .undo _ _ | .addRange .. => true
    | .reclaim (p :: _) _ _ | .snapshot p [] => allRetired cfg.drv s.drv p.fence
    | _ => false

def mayEvict (d : Driver.State) : Thread → Bool
  | .device | .host => true
  | .ioctl =>
    match d.holder with
    | .evictAll _ => true
    | _ => false

def Point.quiesceStep (engines : ℕ → Engine) : Point → Option Point
  | .inside => none
  | .quiesce [] => some .inside
  | .quiesce (e :: todo) =>
    if (engines e).seq % 2 = 0 then some (.quiesce todo) else some (.wait e (engines e).seq todo)
  | .wait e seq todo => if (engines e).seq = seq then none else some (.quiesce todo)

/-! ### The steps -/

def besidePool (cfg : Config) (d : Driver.State) : Bool :=
  d.holder.fresh.all fun r =>
    cfg.pool.1 + cfg.pool.2 ≤ r.host ∨ r.host + r.size ≤ cfg.pool.1

def drive (cfg : Config) (d : Driver.State) (a : Driver.Action) : Option Driver.State :=
  (Driver.step cfg.drv d a).filter (besidePool cfg)

def pinned (pins : KeyMap ℕ) (addr size : ℕ) : Bool :=
  match pins.atMost addr with
  | none => false
  | some (first, len) => addr - first ≤ len ∧ size ≤ len - (addr - first)

def accepts (cfg : Config) (s : State) (op : Op) : Bool :=
  if op.direct then pinned s.pins op.addr op.size
  else op.size = 0 ∨ cfg.pool.1 ≤ op.addr ∧ op.addr + op.size ≤ cfg.pool.1 + cfg.pool.2

def State.setEngine (s : State) (e : ℕ) (x : Engine) : State :=
  { s with engines := Function.update s.engines e x }

def engineStep (cfg : Config) (s : State) : Action → Option State
  | .enter e ch =>
    match (s.engines e).channel, s.rings (e, ch) with
    | none, _ :: _ => some (s.setEngine e ⟨(s.engines e).seq + 1, some ch, none⟩)
    | _, _ => none
  | .access e x =>
    match (s.engines e).channel, (s.engines e).blocked with
    | some ch, none =>
      match s.rings (e, ch) with
      | op :: _ =>
        if op.bytes x then
          if missing s.drv x then
            some { s.setEngine e { s.engines e with blocked := some (pageOf x) } with
              messages := s.messages ++ [pageOf x] }
          else some s
        else none
      | [] => none
    | _, _ => none
  | .resume e =>
    match (s.engines e).blocked with
    | some h => if missing s.drv h then none
      else some (s.setEngine e { s.engines e with blocked := none })
    | none => none
  | .leave e retires =>
    match (s.engines e).channel, (s.engines e).blocked with
    | some ch, none =>
      let t := s.setEngine e ⟨(s.engines e).seq + 1, none, none⟩
      if retires then
        (drive cfg s.drv (.retire (e, ch))).map fun d =>
          { t with drv := d, rings := Function.update s.rings (e, ch) (s.rings (e, ch)).tail }
      else some t
    | _, _ => none
  | _ => none

def processStep (cfg : Config) (s : State) : Action → Option State
  | .drv a =>
    match a with
    | .publish _ | .retire _ => none
    | a => if lockedBy cfg s.drv a = none then
        (drive cfg s.drv a).map fun d => { s with drv := d }
      else none
  | .pin addr size =>
    if addr ≠ 0 ∧ size ≠ 0 ∧ addr + size < 2 ^ 64 ∧
        s.pins.entries.all fun e => e.1 + e.2 ≤ addr ∨ addr + size ≤ e.1 then
      some { s with pins := s.pins.emplace addr size }
    else none
  | .unpin addr =>
    match s.pins.find addr with
    | some _ => some { s with pins := s.pins.erase addr }
    | none => none
  | .submit c op =>
    if c ∈ cfg.drv.chans ∧ accepts cfg s op then
      (drive cfg s.drv (.publish c)).map fun d =>
        { s with drv := d, rings := Function.update s.rings c (s.rings c ++ [op]) }
    else none
  | .userAccess u x =>
    match s.users u with
    | none =>
      if missing s.drv x then
        some { s with
          users := Function.update s.users u (some (pageOf x))
          messages := s.messages ++ [pageOf x] }
      else some s
    | some _ => none
  | .userResume u =>
    match s.users u with
    | some h => if missing s.drv h then none
      else some { s with users := Function.update s.users u none }
    | none => none
  | _ => none

def State.serves (s : State) : Driver.Action → Bool
  | .hostFault x _ => s.fault = some x
  | _ => true

def lockStep (cfg : Config) (s : State) : Action → Option State
  | .popMessage =>
    match s.fault, s.messages with
    | none, h :: rest => some { s with fault := some h, messages := rest }
    | _, _ => none
  | .lock t =>
    match s.lock with
    | none => if wants cfg s t then some { s with lock := some (t, .inside) } else none
    | some _ => none
  | .evict =>
    match s.lock with
    | some (t, .inside) =>
      if mayEvict s.drv t then
        some { s with lock := some (t, .quiesce (List.range cfg.drv.engines)) }
      else none
    | _ => none
  | .quiesce =>
    match s.lock with
    | some (t, p) => (p.quiesceStep s.engines).map fun q => { s with lock := some (t, q) }
    | none => none
  | .finish a =>
    match s.lock with
    | some (t, .inside) =>
      if lockedBy cfg s.drv a = some t ∧ s.serves a then
        (drive cfg s.drv a).map fun d =>
          { s with drv := d, lock := none, fault := if t = .host then none else s.fault }
      else none
    | _ => none
  | _ => none

def step (cfg : Config) (s : State) (a : Action) : Option State :=
  ((engineStep cfg s a).orElse fun _ => processStep cfg s a).orElse fun _ => lockStep cfg s a

end SoftGpu.HostFault
