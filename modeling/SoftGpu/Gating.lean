import SoftGpu.Event
import SoftGpu.Machine
import SoftGpu.Staging

/-!
# Idle gating

The run loop of the engines with its idle path, the doorbells of the producers and
of the fault service, and the wake-ups after a retirement. An engine that finds
nothing to run samples its bell, publishes that it is asleep, looks at every
channel again and sleeps unless the bell has been rung. Every access to a shared
word is a step of its own; the interleaving is sequentially consistent, as it is
with the fences on.

A ring is the sequence of the commands published on it: the slot is written before
PUT is stored. The length of an idle gap, the choice among runnable channels, the
outcome of a command and the preemption points are left open. `bell` counts the
signals of each bell, and a sample is the count at that moment; what an engine compares
are the words of the counts.
-/

namespace SoftGpu.Gating

open Machine
open Staging (Chan Fence)

inductive Cmd
  | work
  | wait (f : Fence)
  deriving DecidableEq, Repr

structure Config where
  engines : ℕ
  channels : ℕ

def Config.valid (cfg : Config) (r : Chan) : Prop := r.1 < cfg.engines ∧ r.2 < cfg.channels

instance (cfg : Config) (r : Chan) : Decidable (cfg.valid r) := inferInstanceAs (Decidable (_ ∧ _))

/-- Program points of `Device::run`. `scan` to `head` look at the `i`-th channel of the
round, `visit` to `boundary` run commands of channel `c` up to PUT `p`, and `sample`
to `uncount` are the idle path. -/
inductive Point
  | scan (i : ℕ)
  | exchange (i : ℕ)
  | failHead (i : ℕ)
  | probe (i : ℕ)
  | head (i : ℕ)
  | visit (c p : ℕ)
  | retiring (c p : ℕ)
  | faulting (c : ℕ)
  | waking (c p : ℕ)
  | wakeLoop (c p j : ℕ)
  | wakeSignal (c p j : ℕ)
  | boundary (c p : ℕ)
  | idle
  | sample
  | setAsleep (seen : ℕ)
  | setBlocked (seen : ℕ)
  | count (seen : ℕ)
  | recheck (seen i : ℕ)
  | recheckPut (seen i : ℕ)
  | recheckHead (seen i : ℕ)
  | enter (seen : ℕ)
  | asleep (seen : ℕ)
  | clearAsleep
  | clearBlocked
  | uncount
  deriving DecidableEq, Repr

structure Engine where
  point : Point
  rr : ℕ
  seenPut : ℕ → ℕ
  progress : Bool
  pending : Bool
  chosen : Option ℕ
  skipped : ℕ → Bool

inductive Service
  | idle
  | handling (r : Chan)
  | reported (r : Chan)
  | ringing (r : Chan)
  | signalling (r : Chan)
  deriving DecidableEq, Repr

/-- `producer t` is the channel on which `t` has stored PUT and not yet finished its
doorbell, and whether it has found the engine asleep. `bell e` is the number of signals
of the bell of engine `e`. -/
structure State (Tid : Type*) where
  put : Chan → ℕ
  get : Chan → ℕ
  ring : Chan → ℕ → Cmd
  parked : Chan → Bool
  faultFail : Chan → Bool
  faults : List Chan
  service : Service
  producer : Tid → Option (Chan × Bool)
  bell : ℕ → ℕ
  asleep : ℕ → Bool
  asleepBlocked : ℕ → Bool
  numAsleepBlocked : ℕ
  engine : ℕ → Engine

variable {Tid : Type*}

def init : State Tid where
  put := fun _ => 0
  get := fun _ => 0
  ring := fun _ _ => .work
  parked := fun _ => false
  faultFail := fun _ => false
  faults := []
  service := .idle
  producer := fun _ => none
  bell := fun _ => 0
  asleep := fun _ => false
  asleepBlocked := fun _ => false
  numAsleepBlocked := 0
  engine := fun _ => ⟨.scan 0, 0, fun _ => 0, false, false, none, fun _ => false⟩

/-- `engine` takes an answer for what the model leaves open at its point. -/
inductive Action (Tid : Type*)
  | publish (t : Tid) (r : Chan) (cmd : Cmd)
  | doorbell (t : Tid)
  | service (ok : Bool)
  | engine (e : ℕ) (answer : Bool)
  deriving DecidableEq, Repr

namespace Engine

def goto (g : Engine) (p : Point) : Engine := { g with point := p }

def again (g : Engine) : Engine :=
  { g with point := .scan 0, progress := false, pending := false, chosen := none }

end Engine

namespace State

def setEngine (s : State Tid) (e : ℕ) (g : Engine) : State Tid :=
  { s with engine := Function.update s.engine e g }

def signal (s : State Tid) (e : ℕ) : State Tid :=
  { s with bell := Function.update s.bell e (s.bell e + 1) }

@[simp] theorem setEngine_engine (s : State Tid) (e : ℕ) (g : Engine) :
    (s.setEngine e g).engine e = g := Function.update_self ..

@[simp] theorem setEngine_engine_of_ne (s : State Tid) {e j : ℕ} (g : Engine) (h : j ≠ e) :
    (s.setEngine e g).engine j = s.engine j := Function.update_of_ne h ..

def headOf (s : State Tid) (r : Chan) : Cmd := s.ring r (s.get r)

def waitBlocked (cfg : Config) (s : State Tid) (r : Chan) : Bool :=
  match s.headOf r with
  | .wait f => cfg.valid f.chan ∧ s.get f.chan < f.value
  | .work => false

def advance (s : State Tid) (r : Chan) : State Tid :=
  { s with get := Function.update s.get r (s.get r + 1) }

end State

def Engine.channel (cfg : Config) (g : Engine) (i : ℕ) : ℕ := (g.rr + i) % cfg.channels

def scanStep (cfg : Config) (s : State Tid) (e : ℕ) (g : Engine) (answer : Bool) :
    Point → Option (State Tid)
  | .scan i =>
    if i < cfg.channels then
      some (s.setEngine e { g with
        point := .exchange i
        seenPut := Function.update g.seenPut (g.channel cfg i) (s.put (e, g.channel cfg i)) })
    else match g.chosen with
      | some c => some (s.setEngine e { g with
          rr := (c + 1) % cfg.channels
          point := .visit c (g.seenPut c) })
      | none =>
        if g.progress then some (s.setEngine e g.again)
        else some (s.setEngine e (g.goto .idle))
  | .exchange i =>
    let c := g.channel cfg i
    if s.faultFail (e, c) then
      -- An error that finds nothing queued is dropped.
      some ({ s with faultFail := Function.update s.faultFail (e, c) false }.setEngine e
        (g.goto (if g.seenPut c = s.get (e, c) then .scan (i + 1) else .failHead i)))
    else some (s.setEngine e (g.goto (.probe i)))
  | .failHead i =>
    some ((s.advance (e, g.channel cfg i)).setEngine e
      { g with point := .scan (i + 1), progress := true })
  | .probe i =>
    let c := g.channel cfg i
    if s.parked (e, c) then
      some (s.setEngine e { g with
        point := .scan (i + 1)
        pending := g.pending || g.seenPut c ≠ s.get (e, c) })
    else if g.seenPut c ≤ s.get (e, c) then some (s.setEngine e (g.goto (.scan (i + 1))))
    else some (s.setEngine e (g.goto (.head i)))
  | .head i =>
    let c := g.channel cfg i
    if s.waitBlocked cfg (e, c) then
      some (s.setEngine e { g with point := .scan (i + 1), pending := true })
    else
      some (s.setEngine e { g with
        point := .scan (i + 1)
        pending := true
        chosen := if g.chosen = none ∨ answer then some c else g.chosen })
  | _ => none

def visitStep (cfg : Config) (s : State Tid) (e : ℕ) (g : Engine) (answer : Bool) :
    Point → Option (State Tid)
  | .visit c p => match s.headOf (e, c) with
    | .wait _ =>
      if s.waitBlocked cfg (e, c) then some (s.setEngine e g.again)
      else some (s.setEngine e (g.goto (.retiring c p)))
    | .work =>
      if answer then some (s.setEngine e (g.goto (.retiring c p)))
      else some ({ s with parked := Function.update s.parked (e, c) true }.setEngine e
        (g.goto (.faulting c)))
  | .faulting c => some ({ s with faults := s.faults ++ [(e, c)] }.setEngine e g.again)
  | .retiring c p => some ((s.advance (e, c)).setEngine e (g.goto (.waking c p)))
  | .waking c p =>
    some (s.setEngine e
      (g.goto (if s.numAsleepBlocked = 0 then .boundary c p else .wakeLoop c p 0)))
  | .wakeLoop c p j =>
    if j < cfg.engines then
      some (s.setEngine e (g.goto (if j ≠ e ∧ s.asleepBlocked j then .wakeSignal c p j
        else .wakeLoop c p (j + 1))))
    else some (s.setEngine e (g.goto (.boundary c p)))
  | .wakeSignal c p j => some ((s.signal j).setEngine e (g.goto (.wakeLoop c p (j + 1))))
  | .boundary c p =>
    let p' := if s.get (e, c) = p then s.put (e, c) else p
    if s.get (e, c) = p' ∨ answer then some (s.setEngine e g.again)
    else some (s.setEngine e (g.goto (.visit c p')))
  | _ => none

def idleStep (cfg : Config) (s : State Tid) (e : ℕ) (g : Engine) (answer : Bool) :
    Point → Option (State Tid)
  | .idle => some (s.setEngine e (if answer then g.goto .sample else g.again))
  | .sample => some (s.setEngine e (g.goto (.setAsleep (s.bell e))))
  | .setAsleep seen =>
    some ({ s with asleep := Function.update s.asleep e true }.setEngine e
      (g.goto (if g.pending then .setBlocked seen else .recheck seen 0)))
  | .setBlocked seen =>
    some ({ s with asleepBlocked := Function.update s.asleepBlocked e true }.setEngine e
      (g.goto (.count seen)))
  | .count seen =>
    some ({ s with numAsleepBlocked := s.numAsleepBlocked + 1 }.setEngine e
      (g.goto (.recheck seen 0)))
  | .recheck seen i =>
    if i < cfg.channels then
      if s.parked (e, i) then
        some (s.setEngine e { g with
          point := .recheck seen (i + 1)
          skipped := Function.update g.skipped i true })
      else some (s.setEngine e (g.goto (.recheckPut seen i)))
    else some (s.setEngine e (g.goto (.enter seen)))
  | .recheckPut seen i =>
    if s.put (e, i) ≠ g.seenPut i then some (s.setEngine e (g.goto .clearAsleep))
    else
      some (s.setEngine e { g with
        point := if s.put (e, i) ≠ s.get (e, i) then .recheckHead seen i else .recheck seen (i + 1)
        skipped := Function.update g.skipped i false })
  | .recheckHead seen i =>
    some (s.setEngine e (g.goto (if s.waitBlocked cfg (e, i) then .recheck seen (i + 1)
      else .clearAsleep)))
  | .enter seen =>
    some (s.setEngine e (g.goto (if Event.word (s.bell e) = Event.word seen then .asleep seen
      else .clearAsleep)))
  -- Woken by the bell or by the timeout.
  | .asleep seen =>
    if Event.word (s.bell e) ≠ Event.word seen ∨ answer then
      some (s.setEngine e (g.goto .clearAsleep))
    else none
  | .clearAsleep =>
    some ({ s with asleep := Function.update s.asleep e false }.setEngine e
      (if g.pending then g.goto .clearBlocked else g.again))
  | .clearBlocked =>
    some ({ s with asleepBlocked := Function.update s.asleepBlocked e false }.setEngine e
      (g.goto .uncount))
  | .uncount =>
    some ({ s with numAsleepBlocked := s.numAsleepBlocked - 1 }.setEngine e g.again)
  | _ => none

def serviceStep (s : State Tid) (ok : Bool) : Service → Option (State Tid)
  | .idle => match s.faults with
    | [] => none
    | r :: rest => some { s with faults := rest, service := .handling r }
  | .handling r =>
    if ok then some { s with parked := Function.update s.parked r false, service := .ringing r }
    else some { s with faultFail := Function.update s.faultFail r true, service := .reported r }
  | .reported r => some { s with parked := Function.update s.parked r false, service := .ringing r }
  | .ringing r => some { s with service := if s.asleep r.1 then .signalling r else .idle }
  | .signalling r => some { s.signal r.1 with service := .idle }

variable [DecidableEq Tid]

def doorbellStep (s : State Tid) (t : Tid) : Option (State Tid) :=
  match s.producer t with
  | none => none
  | some (r, false) =>
    some { s with
      producer := Function.update s.producer t (if s.asleep r.1 then some (r, true) else none) }
  | some (r, true) => some { s.signal r.1 with producer := Function.update s.producer t none }

def step (cfg : Config) (s : State Tid) : Action Tid → Option (State Tid)
  | .publish t r cmd =>
    if s.producer t = none ∧ cfg.valid r then
      some { s with
        ring := Function.update s.ring r (Function.update (s.ring r) (s.put r) cmd)
        put := Function.update s.put r (s.put r + 1)
        producer := Function.update s.producer t (some (r, false)) }
    else none
  | .doorbell t => doorbellStep s t
  | .service ok => serviceStep s ok s.service
  | .engine e answer =>
    if e < cfg.engines then
      let g := s.engine e
      (scanStep cfg s e g answer g.point).orElse fun _ =>
        (visitStep cfg s e g answer g.point).orElse fun _ => idleStep cfg s e g answer g.point
    else none

end SoftGpu.Gating
