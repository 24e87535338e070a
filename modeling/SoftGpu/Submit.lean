import SoftGpu.Ring
import SoftGpu.Staging

/-!
# SUBMIT and the streams above it

`do_submit` over the command rings of all channels, and the runtime's
`stream_submit`, `sgEventRecord`, `sgStreamWaitEvent` and `sgStreamSynchronize`
over `do_submit`. Every `enqueue` runs on the ring machine of its channel one
atomic access at a time, and so does every engine; the one thing the rings learn
from each other is whether the fence of a `WAIT_FENCE` has retired.

The answers of `owns` and `pinned` and the bytes of a command come with the call.
Taking a staging slot is a step that may happen at any time; `SoftGpu.Staging`
has the pool. The channels of one engine are scheduled independently here, which
allows every order the engine's run list can produce.
-/

namespace SoftGpu.Submit

open Staging (Chan Fence)

inductive Cmd
  | nop
  | fill
  | copyH2D
  | copyD2H
  | copyD2D
  | vadd
  | gemm
  | wait (f : Fence)
  deriving DecidableEq, Repr

instance : Inhabited Cmd := ⟨.nop⟩

def Cmd.semaphore : Cmd → Bool
  | .wait _ => true
  | _ => false

def Cmd.isCopyOp : Cmd → Bool
  | .copyH2D | .copyD2H | .copyD2D => true
  | _ => false

def Cmd.isComputeOp : Cmd → Bool
  | .fill | .vadd | .gemm => true
  | _ => false

/-- Engine classes: copies only on copy engines, compute only on engine 0. -/
def Cmd.misplaced (c : Cmd) (engine : ℕ) : Bool :=
  if engine = 0 then c.isCopyOp else c.isComputeOp

inductive Rc
  | ok
  | inval
  | fault
  | io
  deriving DecidableEq, Repr

/-- The driver's settings, and the copy engine and the channel of each stream. -/
structure Config (Sid : Type*) where
  mode : Ring.Mode
  order : ℕ
  engines : ℕ
  channels : ℕ
  slots : ℕ
  chunk : ℕ
  ce : Sid → ℕ
  channel : Sid → ℕ
  engines_pos : 0 < engines
  ce_lt : ∀ sid, ce sid < engines
  channel_lt : ∀ sid, channel sid < channels

variable {Tid Sid Ev : Type*}

def Config.ring (cfg : Config Sid) : Ring.Config Cmd := ⟨cfg.mode, cfg.order, Cmd.semaphore⟩

def Config.valid (cfg : Config Sid) (r : Chan) : Prop := r.1 < cfg.engines ∧ r.2 < cfg.channels

instance (cfg : Config Sid) (r : Chan) : Decidable (cfg.valid r) :=
  inferInstanceAs (Decidable (_ ∧ _))

def Config.engine (cfg : Config Sid) (sid : Sid) (c : Cmd) : ℕ :=
  if c.isCopyOp then cfg.ce sid else 0

def Config.window (cfg : Config Sid) : ℕ := max 1 (cfg.slots / 2)
def Config.nchunks (cfg : Config Sid) (total : ℕ) : ℕ := (total + cfg.chunk - 1) / cfg.chunk

abbrev Rings (Tid : Type*) := Chan → Ring.State Tid Cmd

def sticky (cfg : Config Sid) (x : Rings Tid) : Bool :=
  (List.range cfg.engines).any fun e => (List.range cfg.channels).any fun c => (x (e, c)).sticky

/-- `sg_submit_args`, with the answers of `owns` (and that `host_ptr` is not null)
and of `pinned`. `fence` is the value the caller left in the output field. -/
structure Args where
  cmd : Cmd
  size : ℕ
  owned : Bool
  pinned : Bool
  fence : ℕ
  deriving DecidableEq, Repr

def Args.staged (a : Args) : Bool := (a.cmd = .copyH2D ∨ a.cmd = .copyD2H) ∧ a.pinned = false

/-- A staged host-to-device copy of no bytes: no chunk and no command. -/
def Args.emptyH2D (a : Args) : Bool := a.cmd = .copyH2D ∧ a.pinned = false ∧ a.size = 0

/-- Program points of `do_submit`. `slot` is `acquire_slot` with the wait for the
slot's previous user, `drain` the wait for the oldest chunk of the window. -/
inductive Point
  | check
  | lock
  | dispatch
  | slot
  | enqueue
  | drain (fence : ℕ)
  | unlock (rc : Rc)
  | done (rc : Rc)
  deriving DecidableEq, Repr

/-- A thread inside `do_submit`. The last four fields are history: PUT's mirror,
the SUBMITs that had returned and the GETs when this one was called, and the
slots its commands took. -/
structure Sub where
  ring : Chan
  args : Args
  fence : ℕ
  off : ℕ
  issued : ℕ
  drained : ℕ
  window : List ℕ
  point : Point
  base : ℕ
  before : ℕ
  seen : Chan → ℕ
  slots : List ℕ

namespace Sub

def goto (u : Sub) (p : Point) : Sub := { u with point := p }

def check (cfg : Config Sid) (x : Rings Tid) (u : Sub) : Sub :=
  if ¬cfg.valid u.ring then u.goto (.done .inval)
  else if u.args.cmd.misplaced u.ring.1 = true then u.goto (.done .inval)
  else if sticky cfg x = true then u.goto (.done .io)
  else u.goto .lock

def h2dLoop (u : Sub) : Sub :=
  if u.off < u.args.size then u.goto .slot else u.goto (.unlock .ok)

def d2hLoop (cfg : Config Sid) (published : ℕ) (u : Sub) : Sub :=
  if u.issued < min cfg.window (cfg.nchunks u.args.size) then u.goto .slot
  else if u.drained < cfg.nchunks u.args.size then
    match u.window with
    | f :: rest => { u with window := rest, point := .drain f }
    | [] => { u with fence := published, point := .unlock .ok }
  else { u with fence := published, point := .unlock .ok }

def dispatch (cfg : Config Sid) (x : Rings Tid) (u : Sub) : Sub :=
  match u.args.cmd with
  | .nop => u.goto .enqueue
  | .wait f =>
    if cfg.valid f.chan ∧ f.value ≤ (x f.chan).mirror then u.goto .enqueue
    else u.goto (.unlock .inval)
  | .copyH2D =>
    if u.args.owned = false then u.goto (.unlock .fault)
    else if u.args.pinned = true then u.goto .enqueue
    else u.h2dLoop
  | .copyD2H =>
    if u.args.owned = false then u.goto (.unlock .fault)
    else if u.args.pinned = true then u.goto .enqueue
    else u.d2hLoop cfg (x u.ring).mirror
  | .fill | .copyD2D | .vadd | .gemm =>
    if u.args.owned = false then u.goto (.unlock .fault) else u.goto .enqueue

def enqueued (cfg : Config Sid) (published k : ℕ) (u : Sub) : Sub :=
  if u.args.staged = false then
    { u with fence := k + 1, slots := u.slots ++ [k], point := .unlock .ok }
  else if u.args.cmd = .copyH2D then
    h2dLoop { u with fence := k + 1, slots := u.slots ++ [k], off := u.off + cfg.chunk }
  else
    d2hLoop cfg published
      { u with slots := u.slots ++ [k], window := u.window ++ [k + 1], issued := u.issued + 1 }

def copiedOut (cfg : Config Sid) (published : ℕ) (u : Sub) : Sub :=
  if u.issued < cfg.nchunks u.args.size then { u with drained := u.drained + 1, point := .slot }
  else d2hLoop cfg published { u with drained := u.drained + 1 }

end Sub

def enqueueAction (t : Tid) (cmd : Cmd) : Ring.Point Cmd → Ring.Action Tid Cmd
  | .idle => .reserve t cmd
  | .reserved _ _ => .test t
  | .stalled _ _ => .unstall t
  | .cleared _ _ => .write t
  | .written _ _ => .await t
  | .turn _ _ => .ring t
  | .rung _ _ => .hand t
  | .published _ _ => .ret t

/-- One step of `do_submit`: the new state of the ring it submits to, and of the
call. -/
def doSubmit [DecidableEq Tid] (cfg : Config Sid) (x : Rings Tid) (t : Tid) (u : Sub) :
    Option (Ring.State Tid Cmd × Sub) :=
  match u.point with
  | .check => some (x u.ring, u.check cfg x)
  | .lock => match cfg.mode with
    | .ticket => some (x u.ring, u.goto .dispatch)
    | .mutex => (Ring.step cfg.ring (x u.ring) (.acquire t)).map (·, u.goto .dispatch)
  | .dispatch => some (x u.ring, u.dispatch cfg x)
  | .slot => some (x u.ring, u.goto (if sticky cfg x then (.unlock .io) else .enqueue))
  | .enqueue =>
    (Ring.step cfg.ring (x u.ring) (enqueueAction t u.args.cmd ((x u.ring).point t))).map
      fun y => (y, match (x u.ring).point t with
        | .published k _ => u.enqueued cfg y.mirror k
        | _ => u)
  | .drain f =>
    if f ≤ (x u.ring).get then
      some (x u.ring, if sticky cfg x then u.goto (.unlock .io) else
        u.copiedOut cfg (x u.ring).mirror)
    else none
  | .unlock rc => match cfg.mode with
    | .ticket => some (x u.ring, u.goto (.done rc))
    | .mutex => (Ring.step cfg.ring (x u.ring) (.release t)).map (·, u.goto (.done rc))
  | .done _ => none

/-- A call of `stream_submit`; `event` is the event that `sgEventRecord` stamps
with its fence. `flushed` is history: the waits it took from `extra_waits`. -/
structure Call (Sid Ev : Type*) where
  stream : Sid
  engine : ℕ
  args : Args
  event : Option Ev
  flushed : List Fence

def Call.ring (cfg : Config Sid) (c : Call Sid Ev) : Chan := (c.engine, cfg.channel c.stream)

structure Recorded (Sid : Type*) where
  fence : Fence
  stream : Sid
  index : ℕ

/-- Where a thread of the program stands. `flushing`, `tailing` and `main` are
inside the `raw_submit` of a wait for an event, of the wait for the tail and of
the command itself. -/
inductive Thread (Sid Ev : Type*)
  | idle
  | ioctl (u : Sub)
  | lock (c : Call Sid Ev)
  | flush (c : Call Sid Ev) (rest : List Fence)
  | flushing (c : Call Sid Ev) (f : Fence) (rest : List Fence) (u : Sub)
  | tail (c : Call Sid Ev)
  | tailing (c : Call Sid Ev) (u : Sub)
  | main (c : Call Sid Ev) (u : Sub)
  | stamp (ev : Ev) (r : Recorded Sid)
  | push (sid : Sid) (r : Recorded Sid)
  | sync (sid : Sid) (n : ℕ) (f : Fence)

/-- A `sgStreamWaitEvent` that took effect after `start` accepted calls. -/
structure Wait (Sid : Type*) where
  start : ℕ
  event : Recorded Sid

/-- `sgStream`. History: the accepted calls in their order, the event waits that
a call flushed to its ring before it failed, since the last accepted call, and
the event waits of the stream. -/
structure Stream (Tid Sid : Type*) where
  mutex : Option Tid
  tail : Option Fence
  extraWaits : List Fence
  calls : List Sub
  orphans : List (Chan × Fence)
  waits : List (Wait Sid)

/-- `submits` is history: the SUBMITs that returned, with their result. -/
structure State (Tid Sid Ev : Type*) where
  ring : Rings Tid
  thread : Tid → Thread Sid Ev
  stream : Sid → Stream Tid Sid
  event : Ev → Option (Recorded Sid)
  submits : List (Sub × Rc)

def init : State Tid Sid Ev where
  ring := fun _ => Ring.init
  thread := fun _ => .idle
  stream := fun _ => ⟨none, none, [], [], [], []⟩
  event := fun _ => none
  submits := []

inductive Action (Tid Sid Ev : Type*)
  | ioctl (t : Tid) (r : Chan) (a : Args)
  | call (t : Tid) (sid : Sid) (a : Args)
  | record (t : Tid) (ev : Ev) (sid : Sid)
  | waitEvent (t : Tid) (sid : Sid) (ev : Ev)
  | synchronize (t : Tid) (sid : Sid)
  | run (t : Tid)
  | device (r : Chan) (a : Ring.Action Tid Cmd)

namespace State

section Threads
variable [DecidableEq Tid]

def goto (s : State Tid Sid Ev) (t : Tid) (th : Thread Sid Ev) : State Tid Sid Ev :=
  { s with thread := Function.update s.thread t th }

variable (s : State Tid Sid Ev) (t : Tid) (th : Thread Sid Ev)

@[simp] theorem goto_thread : (s.goto t th).thread t = th := Function.update_self ..

@[simp] theorem goto_thread_of_ne {v : Tid} (h : v ≠ t) : (s.goto t th).thread v = s.thread v :=
  Function.update_of_ne h ..

@[simp] theorem goto_ring : (s.goto t th).ring = s.ring := rfl
@[simp] theorem goto_stream : (s.goto t th).stream = s.stream := rfl
@[simp] theorem goto_event : (s.goto t th).event = s.event := rfl
@[simp] theorem goto_submits : (s.goto t th).submits = s.submits := rfl

end Threads

section Rings

def setRing (s : State Tid Sid Ev) (r : Chan) (y : Ring.State Tid Cmd) : State Tid Sid Ev :=
  { s with ring := Function.update s.ring r y }

variable (s : State Tid Sid Ev)

@[simp] theorem setRing_ring (r : Chan) (y : Ring.State Tid Cmd) : (s.setRing r y).ring r = y :=
  Function.update_self ..

@[simp] theorem setRing_ring_of_ne {r p : Chan} (y : Ring.State Tid Cmd) (h : p ≠ r) :
    (s.setRing r y).ring p = s.ring p := Function.update_of_ne h ..

@[simp] theorem setRing_thread (r y) : (s.setRing r y).thread = s.thread := rfl
@[simp] theorem setRing_stream (r y) : (s.setRing r y).stream = s.stream := rfl
@[simp] theorem setRing_event (r y) : (s.setRing r y).event = s.event := rfl
@[simp] theorem setRing_submits (r y) : (s.setRing r y).submits = s.submits := rfl

end Rings

section Streams
variable [DecidableEq Sid]

def setStream (s : State Tid Sid Ev) (sid : Sid) (q : Stream Tid Sid) : State Tid Sid Ev :=
  { s with stream := Function.update s.stream sid q }

variable (s : State Tid Sid Ev) (sid : Sid) (q : Stream Tid Sid)

@[simp] theorem setStream_stream : (s.setStream sid q).stream sid = q := Function.update_self ..

@[simp] theorem setStream_stream_of_ne {v : Sid} (h : v ≠ sid) :
    (s.setStream sid q).stream v = s.stream v := Function.update_of_ne h ..

@[simp] theorem setStream_ring : (s.setStream sid q).ring = s.ring := rfl
@[simp] theorem setStream_thread : (s.setStream sid q).thread = s.thread := rfl
@[simp] theorem setStream_event : (s.setStream sid q).event = s.event := rfl
@[simp] theorem setStream_submits : (s.setStream sid q).submits = s.submits := rfl

end Streams

variable [DecidableEq Tid] [DecidableEq Sid] [DecidableEq Ev]

def enter (s : State Tid Sid Ev) (r : Chan) (a : Args) : Sub where
  ring := r
  args := a
  fence := a.fence
  off := 0
  issued := 0
  drained := 0
  window := []
  point := .check
  base := (s.ring r).mirror
  before := s.submits.length
  seen := fun q => (s.ring q).get
  slots := []

def leave (s : State Tid Sid Ev) (u : Sub) (rc : Rc) : State Tid Sid Ev :=
  { s with submits := s.submits ++ [(u, rc)] }

def enterWait (cfg : Config Sid) (s : State Tid Sid Ev) (c : Call Sid Ev) (f : Fence) : Sub :=
  s.enter (c.ring cfg) ⟨.wait f, 0, true, false, 0⟩

def enterMain (cfg : Config Sid) (s : State Tid Sid Ev) (c : Call Sid Ev) : Sub :=
  s.enter (c.ring cfg) { c.args with fence := 0 }

def abandon (cfg : Config Sid) (s : State Tid Sid Ev) (t : Tid) (c : Call Sid Ev) :
    State Tid Sid Ev :=
  let q := s.stream c.stream
  (s.setStream c.stream { q with
    mutex := none
    orphans := q.orphans ++ c.flushed.map (c.ring cfg, ·) }).goto t .idle

def accept (s : State Tid Sid Ev) (t : Tid) (c : Call Sid Ev) (u : Sub) : State Tid Sid Ev :=
  let q := s.stream c.stream
  (s.setStream c.stream { q with
    mutex := none
    tail := some ⟨u.ring, u.fence⟩
    calls := q.calls ++ [u]
    orphans := [] }).goto t (match c.event with
      | some ev => .stamp ev ⟨⟨u.ring, u.fence⟩, c.stream, q.calls.length⟩
      | none => .idle)

def resume (cfg : Config Sid) (s : State Tid Sid Ev) (t : Tid) (rc : Rc) :
    Thread Sid Ev → State Tid Sid Ev
  | .flushing c _ rest _ => match rc with
    | .ok => s.goto t (.flush c rest)
    | _ => (s.setStream c.stream { s.stream c.stream with mutex := none }).goto t .idle
  | .tailing c _ => match rc with
    | .ok => s.goto t (.main c (s.enterMain cfg c))
    | _ => s.abandon cfg t c
  | .main c u => match rc with
    | .ok => s.accept t c u
    | _ => s.abandon cfg t c
  | _ => s.goto t .idle

end State

variable [DecidableEq Tid] [DecidableEq Sid] [DecidableEq Ev]

def Thread.sub : Thread Sid Ev → Option Sub
  | .ioctl u | .flushing _ _ _ u | .tailing _ u | .main _ u => some u
  | _ => none

def Thread.setSub (u : Sub) : Thread Sid Ev → Thread Sid Ev
  | .ioctl _ => .ioctl u
  | .flushing c f rest _ => .flushing c f rest u
  | .tailing c _ => .tailing c u
  | .main c _ => .main c u
  | th => th

def runtimeStep (cfg : Config Sid) (s : State Tid Sid Ev) (t : Tid) :
    Thread Sid Ev → Option (State Tid Sid Ev)
  | .lock c =>
    if (s.stream c.stream).mutex = none then
      some ((s.setStream c.stream { s.stream c.stream with mutex := some t }).goto t
        (.flush c (s.stream c.stream).extraWaits))
    else none
  | .flush c (f :: rest) =>
    if f.chan = c.ring cfg then some (s.goto t (.flush c rest))
    else some (s.goto t (.flushing c f rest (s.enterWait cfg c f)))
  | .flush c [] =>
    some ((s.setStream c.stream { s.stream c.stream with extraWaits := [] }).goto t
      (.tail { c with flushed := (s.stream c.stream).extraWaits }))
  | .tail c => match (s.stream c.stream).tail with
    | none => some (s.goto t (.main c (s.enterMain cfg c)))
    | some f =>
      if f.chan = c.ring cfg then some (s.goto t (.main c (s.enterMain cfg c)))
      else some (s.goto t (.tailing c (s.enterWait cfg c f)))
  | .stamp ev r => some ({ s with event := Function.update s.event ev (some r) }.goto t .idle)
  | .push sid r =>
    let q := s.stream sid
    if q.mutex = none then
      some ((s.setStream sid { q with
        extraWaits := q.extraWaits ++ [r.fence]
        waits := q.waits ++ [⟨q.calls.length, r⟩] }).goto t .idle)
    else none
  | .sync _ _ f => if f.value ≤ (s.ring f.chan).get then some (s.goto t .idle) else none
  | _ => none

def threadStep (cfg : Config Sid) (s : State Tid Sid Ev) (t : Tid) : Option (State Tid Sid Ev) :=
  match (s.thread t).sub with
  | none => runtimeStep cfg s t (s.thread t)
  | some u => match u.point with
    | .done rc => some ((s.leave u rc).resume cfg t rc (s.thread t))
    | _ => (doSubmit cfg s.ring t u).map fun (y, u') =>
      (s.setRing u.ring y).goto t ((s.thread t).setSub u')

/-- The WAIT_FENCE at the head of a ring is not due: `wait_blocked`. -/
def waitBlocked (cfg : Config Sid) (x : Rings Tid) : Cmd → Prop
  | .wait f => cfg.valid f.chan ∧ (x f.chan).get < f.value
  | _ => False

instance (cfg : Config Sid) (x : Rings Tid) (c : Cmd) : Decidable (waitBlocked cfg x c) :=
  match c with
  | .wait _ => inferInstanceAs (Decidable (_ ∧ _))
  | .nop | .fill | .copyH2D | .copyD2H | .copyD2D | .vadd | .gemm => isFalse id

def head (cfg : Config Sid) (y : Ring.State Tid Cmd) : Cmd := y.ring (y.get &&& cfg.ring.mask)

def deviceStep (cfg : Config Sid) (s : State Tid Sid Ev) (r : Chan) (a : Ring.Action Tid Cmd) :
    Option (State Tid Sid Ev) :=
  if a.producer = none ∧ (a = .start → ¬waitBlocked cfg s.ring (head cfg (s.ring r))) then
    (Ring.step cfg.ring (s.ring r) a).map (s.setRing r)
  else none

def step (cfg : Config Sid) (s : State Tid Sid Ev) : Action Tid Sid Ev → Option (State Tid Sid Ev)
  | .ioctl t r a => match s.thread t with
    | .idle => some (s.goto t (.ioctl (s.enter r a)))
    | _ => none
  | .call t sid a => match s.thread t with
    | .idle =>
      if a.cmd.semaphore = false then
        some (s.goto t (.lock ⟨sid, cfg.engine sid a.cmd, a, none, []⟩))
      else none
    | _ => none
  | .record t ev sid => match s.thread t with
    | .idle =>
      if (s.stream sid).mutex = none then
        some (s.goto t (.lock ⟨sid, ((s.stream sid).tail.map (·.chan.1)).getD 0,
          ⟨.nop, 0, true, false, 0⟩, some ev, []⟩))
      else none
    | _ => none
  | .waitEvent t sid ev => match s.thread t with
    | .idle => match s.event ev with
      | none => some s
      | some r => some (s.goto t (.push sid r))
    | _ => none
  | .synchronize t sid => match s.thread t with
    | .idle =>
      if (s.stream sid).mutex = none then
        match (s.stream sid).tail with
        | none => some s
        | some f => some (s.goto t (.sync sid (s.stream sid).calls.length f))
      else none
    | _ => none
  | .run t => threadStep cfg s t
  | .device r a => deviceStep cfg s r a

end SoftGpu.Submit
