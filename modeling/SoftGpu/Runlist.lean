import SoftGpu.Machine
import SoftGpu.Execute

/-!
# The runlist of an engine

`Device::run` for all engines, with the fault thread and the submitters. A round
of an engine scans its channels from the cursor `rr` on, takes the first one of
the highest priority that it found runnable, and visits it: it executes the
commands of that channel until the channel is drained, blocks, faults, is
preempted, or its time slice is up.

A step of an engine is one access to a variable that another thread writes: the
scan of one channel is five of them, and so is its turn in `other_runnable`. How
`execute` ends and whether the time slice is over are up to the action. Commands
are numbered by the fence that retires them. An engine may pause between any two
steps, which is all that power gating adds here; the statistics and the interrupt
line are left out.

The log of a channel is a ghost, newest event first.
-/

namespace SoftGpu.Runlist

open Machine
open Exec (Replay)

inductive Cmd
  | waitFence (engine channel fence : ℕ)
  | work
  deriving DecidableEq, Repr

inductive Event
  /-- `execute` is called for command `index` with this replay state. -/
  | start (index : ℕ) (replay : Replay)
  /-- It returns `kPageFault`. -/
  | fault (replay : Replay)
  /-- It returns `rc`. -/
  | finish (rc : ℤ) (replay : Replay)
  /-- A WAIT at the head does not block, or names no channel. -/
  | waited (rc : ℤ)
  /-- The migration of the page ends with `rc`. -/
  | serviced (rc : ℤ)
  /-- The scan takes `rc` out of `fault_fail`. -/
  | takeFail (rc : ℤ)
  /-- GET moves past command `index`. -/
  | retire (index : ℕ)

/-- `Channel`, with the engine's replay state for it. `faultFail` and
`stickyError` are 0 when they hold no error. -/
structure Chan where
  put : ℕ
  get : ℕ
  ring : ℕ → Cmd
  parked : Bool
  faultFail : ℤ
  stickyError : ℤ
  priority : ℤ
  replay : Replay
  log : List Event

namespace Chan

def new : Chan := ⟨0, 0, fun _ => .work, false, 0, 0, 0, .init, []⟩

def fail (x : Chan) (rc : ℤ) : Chan :=
  { x with stickyError := if x.stickyError = 0 then rc else x.stickyError }

def note (x : Chan) (v : Event) : Chan := { x with log := v :: x.log }

def retire (x : Chan) : Chan := { x with get := x.get + 1 }.note (.retire x.get)

def head (x : Chan) : Cmd := x.ring x.get

def publish (x : Chan) (cmds : List Cmd) : Chan :=
  { x with
    put := x.put + cmds.length
    ring := fun i => if i < x.put then x.ring i else cmds.getD (i - x.put) (x.ring i) }

end Chan

structure Pick where
  channel : ℕ
  prio : ℤ
  put : ℕ
  deriving DecidableEq, Repr

inductive Stage
  | prio
  | parked
  | put
  | wait
  deriving DecidableEq, Repr

inductive Pc
  | loadPut (i : ℕ) (best : Option Pick)
  | takeFail (i : ℕ) (best : Option Pick) (put : ℕ)
  | failRetire (i : ℕ) (best : Option Pick)
  | loadParked (i : ℕ) (best : Option Pick) (put : ℕ)
  | waitCheck (i : ℕ) (best : Option Pick) (put : ℕ)
  | loadPrio (i : ℕ) (best : Option Pick) (put : ℕ)
  | head (c put : ℕ)
  | executing (c put : ℕ)
  | pushing (c va : ℕ)
  | publish (c put : ℕ)
  | reload (c put : ℕ)
  | boundary (c put : ℕ)
  | loadSelf (c put : ℕ) (mixed due : Bool)
  /-- `other_runnable`, at channel `j`. `due` says that the time slice is over. -/
  | other (c put : ℕ) (self : ℤ) (due better : Bool) (j : ℕ) (stage : Stage)
  deriving DecidableEq, Repr

structure Engine where
  rr : ℕ
  pc : Pc
  deriving DecidableEq, Repr

structure Fault where
  va : ℕ
  engine : ℕ
  channel : ℕ
  deriving DecidableEq, Repr

inductive Handler
  | idle
  | migrating (f : Fault)
  | failing (f : Fault) (rc : ℤ)
  | unparking (f : Fault)
  deriving DecidableEq, Repr

/-- `setting` says that a SET_PRIORITY call has stored its priority and not yet
`mixed_priority_`. -/
structure State where
  numEngines : ℕ
  numChannels : ℕ
  ch : ℕ → ℕ → Chan
  eng : ℕ → Engine
  faults : List Fault
  handler : Handler
  mixedPriority : Bool
  setting : Bool

namespace State

def new (engines channels : ℕ) : State where
  numEngines := engines
  numChannels := channels
  ch := fun _ _ => .new
  eng := fun _ => ⟨0, .loadPut 0 none⟩
  faults := []
  handler := .idle
  mixedPriority := false
  setting := false

def setPc (s : State) (e : ℕ) (pc : Pc) : State :=
  { s with eng := fun e' => if e' = e then { s.eng e with pc := pc } else s.eng e' }

def setRr (s : State) (e rr : ℕ) : State :=
  { s with eng := fun e' => if e' = e then { s.eng e with rr := rr } else s.eng e' }

def setCh (s : State) (e c : ℕ) (x : Chan) : State :=
  { s with ch := fun e' c' => if e' = e ∧ c' = c then x else s.ch e' c' }

def waitBlocked (s : State) : Cmd → Bool
  | .waitFence a b fence =>
    decide (a < s.numEngines) && decide (b < s.numChannels) && decide ((s.ch a b).get < fence)
  | .work => false

def waitCode (s : State) : Cmd → ℤ
  | .waitFence a b _ => if s.numEngines ≤ a ∨ s.numChannels ≤ b then -22 else 0
  | .work => 0

def scanned (s : State) (e i : ℕ) : ℕ := ((s.eng e).rr + i) % s.numChannels

def better (best : Option Pick) (p : Pick) : Option Pick :=
  match best with
  | none => some p
  | some q => if p.prio < q.prio then some p else some q

def endVisit (s : State) (e : ℕ) : State := s.setPc e (.loadPut 0 none)

/-! ### The scan -/

def choose (s : State) (e : ℕ) : Option Pick → State
  | none => s.endVisit e
  | some p => (s.setRr e ((p.channel + 1) % s.numChannels)).setPc e (.head p.channel p.put)

def takeFail (s : State) (e i : ℕ) (best : Option Pick) (put : ℕ) : State :=
  let c := s.scanned e i
  let x := s.ch e c
  if x.faultFail = 0 then s.setPc e (.loadParked i best put)
  else
    let y := ({ x with faultFail := 0 }.fail x.faultFail).note (.takeFail x.faultFail)
    if put = x.get then (s.setCh e c y).setPc e (.loadPut (i + 1) best)
    else (s.setCh e c { y with replay := .init }).setPc e (.failRetire i best)

def loadParked (s : State) (e i : ℕ) (best : Option Pick) (put : ℕ) : State :=
  let c := s.scanned e i
  let x := s.ch e c
  if x.parked then s.setPc e (.loadPut (i + 1) best)
  else if put = x.get then s.setPc e (.loadPut (i + 1) best)
  else if put < x.get then (s.setCh e c (x.fail (-5))).setPc e (.loadPut (i + 1) best)
  else s.setPc e (.waitCheck i best put)

/-! ### The visit -/

def atHead (s : State) (e c put : ℕ) : State :=
  let x := s.ch e c
  if x.get = put then s.endVisit e
  else if s.waitBlocked x.head then s.endVisit e
  else match x.head with
    | .work => (s.setCh e c (x.note (.start x.get x.replay))).setPc e (.executing c put)
    | cmd =>
      let rc := s.waitCode cmd
      (s.setCh e c ((x.fail rc).note (.waited rc))).setPc e (.publish c put)

def finished (r : Replay) : Replay := if r.gather then .init else { r with done := 0 }

end State

inductive Outcome
  | pageFault (va : ℕ) (replay : Replay)
  | done (rc : ℤ) (replay : Replay)

namespace State

def finishExecute (s : State) (e c put : ℕ) : Outcome → State
  | .pageFault va r =>
    (s.setCh e c ({ s.ch e c with replay := r, parked := true }.note (.fault r))).setPc e
      (.pushing c va)
  | .done rc r =>
    (s.setCh e c (({ s.ch e c with replay := finished r }.fail rc).note (.finish rc r))).setPc e
      (.publish c put)

def atBoundary (s : State) (e c put : ℕ) (due : Bool) : State :=
  if s.mixedPriority || due then s.setPc e (.loadSelf c put s.mixedPriority due)
  else s.setPc e (.head c put)

def noOther (s : State) (e c put : ℕ) (self : ℤ) (due better : Bool) : State :=
  if better && due then s.setPc e (.other c put self due false 0 .prio)
  else s.setPc e (.head c put)

def passes (s : State) (e c : ℕ) (self : ℤ) (better : Bool) (j : ℕ) : Stage → Bool
  | .prio => j ≠ c &&
    if better then decide ((s.ch e j).priority < self) else decide ((s.ch e j).priority = self)
  | .parked => !(s.ch e j).parked
  | .put => decide ((s.ch e j).get < (s.ch e j).put)
  | .wait => !s.waitBlocked (s.ch e j).head

def nextStage : Stage → Option Stage
  | .prio => some .parked
  | .parked => some .put
  | .put => some .wait
  | .wait => none

def otherStep (s : State) (e c put : ℕ) (self : ℤ) (due better : Bool) (j : ℕ) (stage : Stage) :
    State :=
  if s.numChannels ≤ j then s.noOther e c put self due better
  else if s.passes e c self better j stage then
    match nextStage stage with
    | some stage => s.setPc e (.other c put self due better j stage)
    | none => s.endVisit e
  else s.setPc e (.other c put self due better (j + 1) .prio)

def pushFault (s : State) (f : Fault) : State := { s with faults := s.faults ++ [f] }

def engineStep (s : State) (e : ℕ) : Option State :=
  match (s.eng e).pc with
  | .loadPut i best =>
    some (if s.numChannels ≤ i then s.choose e best
      else s.setPc e (.takeFail i best (s.ch e (s.scanned e i)).put))
  | .takeFail i best put => some (s.takeFail e i best put)
  | .failRetire i best =>
    let c := s.scanned e i
    some ((s.setCh e c (s.ch e c).retire).setPc e (.loadPut (i + 1) best))
  | .loadParked i best put => some (s.loadParked e i best put)
  | .waitCheck i best put =>
    some (if s.waitBlocked (s.ch e (s.scanned e i)).head then s.setPc e (.loadPut (i + 1) best)
      else s.setPc e (.loadPrio i best put))
  | .loadPrio i best put =>
    let c := s.scanned e i
    some (s.setPc e (.loadPut (i + 1) (better best ⟨c, (s.ch e c).priority, put⟩)))
  | .head c put => some (s.atHead e c put)
  | .executing _ _ => none
  | .pushing c va => some ((s.pushFault ⟨va, e, c⟩).endVisit e)
  | .publish c put => some ((s.setCh e c (s.ch e c).retire).setPc e (.reload c put))
  | .reload c put =>
    let x := s.ch e c
    let put := if x.get = put then x.put else put
    some (if x.get = put then s.endVisit e else s.setPc e (.boundary c put))
  | .boundary _ _ => none
  | .loadSelf c put mixed due =>
    some (s.setPc e (.other c put (s.ch e c).priority due mixed 0 .prio))
  | .other c put self due better j stage => some (s.otherStep e c put self due better j stage)

def serviced (s : State) (rc : ℤ) : Option State :=
  match s.handler with
  | .migrating f =>
    let s := s.setCh f.engine f.channel ((s.ch f.engine f.channel).note (.serviced rc))
    some { s with handler := if rc = 0 then .unparking f else .failing f rc }
  | _ => none

end State

inductive Action
  | engine (e : ℕ)
  | execute (e : ℕ) (out : Outcome)
  | boundary (e : ℕ) (due : Bool)
  | popFault
  | serviced (rc : ℤ)
  | storeFail
  | unpark
  | submit (e c : ℕ) (cmds : List Cmd)
  | setPriority (e c : ℕ) (p : ℤ)
  | setMixed

def step (s : State) : Action → Option State
  | .engine e => if e < s.numEngines then s.engineStep e else none
  | .execute e out =>
    match (s.eng e).pc with
    | .executing c put => if e < s.numEngines then some (s.finishExecute e c put out) else none
    | _ => none
  | .boundary e due =>
    match (s.eng e).pc with
    | .boundary c put => if e < s.numEngines then some (s.atBoundary e c put due) else none
    | _ => none
  | .popFault =>
    match s.handler, s.faults with
    | .idle, f :: fs => some { s with faults := fs, handler := .migrating f }
    | _, _ => none
  | .serviced rc => s.serviced rc
  | .storeFail =>
    match s.handler with
    | .failing f rc =>
      let s := s.setCh f.engine f.channel { s.ch f.engine f.channel with faultFail := rc }
      some { s with handler := .unparking f }
    | _ => none
  | .unpark =>
    match s.handler with
    | .unparking f =>
      let s := s.setCh f.engine f.channel { s.ch f.engine f.channel with parked := false }
      some { s with handler := .idle }
    | _ => none
  | .submit e c cmds =>
    if e < s.numEngines ∧ c < s.numChannels then some (s.setCh e c ((s.ch e c).publish cmds))
    else none
  | .setPriority e c p =>
    if s.setting = false ∧ e < s.numEngines ∧ c < s.numChannels ∧ -7 ≤ p ∧ p ≤ 0 then
      some { s.setCh e c { s.ch e c with priority := p } with setting := true }
    else none
  | .setMixed =>
    if s.setting then
      some { s with
        setting := false
        mixedPriority := decide (∃ e < s.numEngines, ∃ c < s.numChannels, (s.ch e c).priority ≠ 0) }
    else none

def Runnable (s : State) (e c : ℕ) : Prop :=
  (s.ch e c).parked = false ∧ (s.ch e c).get < (s.ch e c).put ∧
    s.waitBlocked (s.ch e c).head = false

instance (s : State) (e c : ℕ) : Decidable (Runnable s e c) :=
  inferInstanceAs (Decidable (_ ∧ _ ∧ _))

def visits (s : State) (e : ℕ) : Action → Option ℕ
  | .engine e' =>
    match (s.eng e).pc with
    | .loadPut i (some p) => if e' = e ∧ s.numChannels ≤ i then some p.channel else none
    | _ => none
  | _ => none

/-- The channel of which a step of engine `e` starts a command, a WAIT included. -/
def starts (s : State) (e : ℕ) : Action → Option ℕ
  | .engine e' =>
    match (s.eng e).pc with
    | .head c put =>
      if e' = e ∧ (s.ch e c).get ≠ put ∧ s.waitBlocked (s.ch e c).head = false then some c else none
    | _ => none
  | _ => none

/-! ### What the updates leave alone -/

namespace State
variable (s : State) (e c : ℕ) (pc : Pc) (x : Chan)

@[simp] theorem setPc_pc : ((s.setPc e pc).eng e).pc = pc := by simp [setPc]
@[simp] theorem setPc_rr (e' : ℕ) : ((s.setPc e pc).eng e').rr = (s.eng e').rr := by
  by_cases he : e' = e
  · subst he
    simp [setPc]
  · simp [setPc, he]
theorem setPc_eng_ne {e' : ℕ} (he : e' ≠ e) : (s.setPc e pc).eng e' = s.eng e' := by
  simp [setPc, he]
@[simp] theorem setPc_ch : (s.setPc e pc).ch = s.ch := rfl
@[simp] theorem setPc_numChannels : (s.setPc e pc).numChannels = s.numChannels := rfl
@[simp] theorem setPc_numEngines : (s.setPc e pc).numEngines = s.numEngines := rfl
@[simp] theorem setPc_faults : (s.setPc e pc).faults = s.faults := rfl
@[simp] theorem setPc_handler : (s.setPc e pc).handler = s.handler := rfl
@[simp] theorem setPc_mixedPriority : (s.setPc e pc).mixedPriority = s.mixedPriority := rfl
@[simp] theorem setPc_setting : (s.setPc e pc).setting = s.setting := rfl
@[simp] theorem setPc_scanned (e' i : ℕ) : (s.setPc e pc).scanned e' i = s.scanned e' i := by
  simp [scanned]

@[simp] theorem setRr_pc (e' rr : ℕ) : ((s.setRr e rr).eng e').pc = (s.eng e').pc := by
  by_cases he : e' = e
  · subst he
    simp [setRr]
  · simp [setRr, he]
@[simp] theorem setRr_rr (rr : ℕ) : ((s.setRr e rr).eng e).rr = rr := by simp [setRr]
theorem setRr_eng_ne {e' : ℕ} (rr : ℕ) (he : e' ≠ e) : (s.setRr e rr).eng e' = s.eng e' := by
  simp [setRr, he]
@[simp] theorem setRr_ch (rr : ℕ) : (s.setRr e rr).ch = s.ch := rfl
@[simp] theorem setRr_numChannels (rr : ℕ) : (s.setRr e rr).numChannels = s.numChannels := rfl
@[simp] theorem setRr_numEngines (rr : ℕ) : (s.setRr e rr).numEngines = s.numEngines := rfl
@[simp] theorem setRr_faults (rr : ℕ) : (s.setRr e rr).faults = s.faults := rfl
@[simp] theorem setRr_handler (rr : ℕ) : (s.setRr e rr).handler = s.handler := rfl
@[simp] theorem setRr_mixedPriority (rr : ℕ) :
    (s.setRr e rr).mixedPriority = s.mixedPriority := rfl
@[simp] theorem setRr_setting (rr : ℕ) : (s.setRr e rr).setting = s.setting := rfl

@[simp] theorem setCh_self : (s.setCh e c x).ch e c = x := by simp [setCh]
theorem setCh_ne {e' c' : ℕ} (h : ¬(e' = e ∧ c' = c)) :
    (s.setCh e c x).ch e' c' = s.ch e' c' := if_neg h
@[simp] theorem setCh_eng : (s.setCh e c x).eng = s.eng := rfl
@[simp] theorem setCh_numChannels : (s.setCh e c x).numChannels = s.numChannels := rfl
@[simp] theorem setCh_numEngines : (s.setCh e c x).numEngines = s.numEngines := rfl
@[simp] theorem setCh_faults : (s.setCh e c x).faults = s.faults := rfl
@[simp] theorem setCh_handler : (s.setCh e c x).handler = s.handler := rfl
@[simp] theorem setCh_mixedPriority : (s.setCh e c x).mixedPriority = s.mixedPriority := rfl
@[simp] theorem setCh_setting : (s.setCh e c x).setting = s.setting := rfl
@[simp] theorem setCh_scanned (e' i : ℕ) : (s.setCh e c x).scanned e' i = s.scanned e' i := rfl

theorem setCh_field {α : Type*} (f : Chan → α) (hf : f x = f (s.ch e c)) (e' c' : ℕ) :
    f ((s.setCh e c x).ch e' c') = f (s.ch e' c') := by
  by_cases h : e' = e ∧ c' = c
  · obtain ⟨rfl, rfl⟩ := h
    rw [setCh_self, hf]
  · rw [setCh_ne s e c x h]

end State

/-- What a step of engine `e` can change: its own place, and of its own channels GET,
the flags of the fault protocol and the replay state. -/
structure Local (s : State) (e : ℕ) (t : State) : Prop where
  numChannels : t.numChannels = s.numChannels
  numEngines : t.numEngines = s.numEngines
  handler : t.handler = s.handler
  mixedPriority : t.mixedPriority = s.mixedPriority
  setting : t.setting = s.setting
  eng : ∀ e' ≠ e, t.eng e' = s.eng e'
  ch : ∀ e' ≠ e, t.ch e' = s.ch e'
  priority : ∀ c, (t.ch e c).priority = (s.ch e c).priority
  put : ∀ c, (t.ch e c).put = (s.ch e c).put
  ring : ∀ c, (t.ch e c).ring = (s.ch e c).ring

namespace Local
variable {s t u : State} {e c : ℕ} {x : Chan}

theorem refl (s : State) (e : ℕ) : Local s e s :=
  ⟨rfl, rfl, rfl, rfl, rfl, fun _ _ => rfl, fun _ _ => rfl, fun _ => rfl,
    fun _ => rfl, fun _ => rfl⟩

theorem trans (h : Local s e t) (h' : Local t e u) : Local s e u where
  numChannels := h'.numChannels.trans h.numChannels
  numEngines := h'.numEngines.trans h.numEngines
  handler := h'.handler.trans h.handler
  mixedPriority := h'.mixedPriority.trans h.mixedPriority
  setting := h'.setting.trans h.setting
  eng := fun e' he => (h'.eng e' he).trans (h.eng e' he)
  ch := fun e' he => (h'.ch e' he).trans (h.ch e' he)
  priority := fun c => (h'.priority c).trans (h.priority c)
  put := fun c => (h'.put c).trans (h.put c)
  ring := fun c => (h'.ring c).trans (h.ring c)

theorem setPc (h : Local s e t) (pc : Pc) : Local s e (t.setPc e pc) :=
  h.trans ⟨rfl, rfl, rfl, rfl, rfl, fun _ he => t.setPc_eng_ne e pc he, fun _ _ => rfl,
    fun _ => rfl, fun _ => rfl, fun _ => rfl⟩

theorem setRr (h : Local s e t) (rr : ℕ) : Local s e (t.setRr e rr) :=
  h.trans ⟨rfl, rfl, rfl, rfl, rfl, fun _ he => t.setRr_eng_ne e rr he, fun _ _ => rfl,
    fun _ => rfl, fun _ => rfl, fun _ => rfl⟩

theorem setCh (s : State) (e : ℕ) (hp : x.priority = (s.ch e c).priority)
    (hput : x.put = (s.ch e c).put) (hr : x.ring = (s.ch e c).ring) :
    Local s e (s.setCh e c x) where
  numChannels := rfl
  numEngines := rfl
  handler := rfl
  mixedPriority := rfl
  setting := rfl
  eng := fun _ _ => rfl
  ch := fun _ he => funext fun _ => s.setCh_ne e c x fun h => he h.1
  priority := s.setCh_field e c x Chan.priority hp e
  put := s.setCh_field e c x Chan.put hput e
  ring := s.setCh_field e c x Chan.ring hr e

theorem setChPc {pc : Pc} (hp : x.priority = (s.ch e c).priority)
    (hput : x.put = (s.ch e c).put) (hr : x.ring = (s.ch e c).ring) :
    Local s e ((s.setCh e c x).setPc e pc) :=
  (setCh s e hp hput hr).setPc pc

theorem pushFault (s : State) (e : ℕ) (f : Fault) : Local s e (s.pushFault f) :=
  ⟨rfl, rfl, rfl, rfl, rfl, fun _ _ => rfl, fun _ _ => rfl, fun _ => rfl,
    fun _ => rfl, fun _ => rfl⟩

theorem choose (s : State) (e : ℕ) (best : Option Pick) : Local s e (s.choose e best) := by
  cases best with
  | none => exact (refl s e).setPc _
  | some p => exact ((refl s e).setRr _).setPc _

theorem takeFail (s : State) (e i : ℕ) (best : Option Pick) (put : ℕ) :
    Local s e (s.takeFail e i best put) := by
  simp only [State.takeFail]
  split_ifs
  · exact (refl s e).setPc _
  · exact setChPc rfl rfl rfl
  · exact setChPc rfl rfl rfl

theorem loadParked (s : State) (e i : ℕ) (best : Option Pick) (put : ℕ) :
    Local s e (s.loadParked e i best put) := by
  simp only [State.loadParked]
  split_ifs
  · exact (refl s e).setPc _
  · exact (refl s e).setPc _
  · exact setChPc rfl rfl rfl
  · exact (refl s e).setPc _

theorem atHead (s : State) (e c put : ℕ) : Local s e (s.atHead e c put) := by
  simp only [State.atHead]
  split_ifs
  · exact (refl s e).setPc _
  · exact (refl s e).setPc _
  · split
    · exact setChPc rfl rfl rfl
    · exact setChPc rfl rfl rfl

theorem otherStep (s : State) (e c put : ℕ) (self : ℤ) (due better : Bool) (j : ℕ)
    (stage : Stage) : Local s e (s.otherStep e c put self due better j stage) := by
  simp only [State.otherStep, State.noOther]
  split_ifs
  · exact (refl s e).setPc _
  · exact (refl s e).setPc _
  · split <;> exact (refl s e).setPc _
  · exact (refl s e).setPc _

theorem engineStep (h : s.engineStep e = some t) : Local s e t := by
  unfold State.engineStep at h
  split at h <;> simp only [Option.some.injEq, reduceCtorEq] at h <;> subst h
  next i best _ =>
    split
    · exact choose s e best
    · exact (refl s e).setPc _
  next i best put _ => exact takeFail s e i best put
  next => exact setChPc rfl rfl rfl
  next i best put _ => exact loadParked s e i best put
  next => split <;> exact (refl s e).setPc _
  next => exact (refl s e).setPc _
  next c put _ => exact atHead s e c put
  next => exact (pushFault s e _).setPc _
  next => exact setChPc rfl rfl rfl
  next => split_ifs <;> exact (refl s e).setPc _
  next => exact (refl s e).setPc _
  next => exact otherStep s e _ _ _ _ _ _ _

theorem finishExecute (s : State) (e c put : ℕ) (out : Outcome) :
    Local s e (s.finishExecute e c put out) := by
  cases out with
  | pageFault va r => exact setChPc rfl rfl rfl
  | done rc r => exact setChPc rfl rfl rfl

theorem atBoundary (s : State) (e c put : ℕ) (due : Bool) :
    Local s e (s.atBoundary e c put due) := by
  simp only [State.atBoundary]
  split_ifs <;> exact (refl s e).setPc _

end Local

def Action.engineOf : Action → Option ℕ
  | .engine e | .execute e _ | .boundary e _ => some e
  | _ => none

theorem step_local {s t : State} {a : Action} {e : ℕ} (ha : a.engineOf = some e)
    (h : step s a = some t) : Local s e t := by
  cases a with
  | engine e' =>
    obtain rfl := Option.some.inj ha
    simp only [step, Option.ite_none_right_eq_some] at h
    exact .engineStep h.2
  | execute e' out =>
    obtain rfl := Option.some.inj ha
    simp only [step] at h
    split at h
    · simp only [Option.ite_none_right_eq_some, Option.some.injEq] at h
      exact h.2 ▸ .finishExecute s e' _ _ out
    · cases h
  | boundary e' due =>
    obtain rfl := Option.some.inj ha
    simp only [step] at h
    split at h
    · simp only [Option.ite_none_right_eq_some, Option.some.injEq] at h
      exact h.2 ▸ .atBoundary s e' _ _ due
    · cases h
  | _ => cases ha

structure External (s : State) (a : Action) (t : State) : Prop where
  numChannels : t.numChannels = s.numChannels
  numEngines : t.numEngines = s.numEngines
  eng : t.eng = s.eng
  get : ∀ e c, (t.ch e c).get = (s.ch e c).get
  replay : ∀ e c, (t.ch e c).replay = (s.ch e c).replay
  priority : (∀ e c p, a ≠ .setPriority e c p) →
    ∀ e c, (t.ch e c).priority = (s.ch e c).priority
  flags : (∀ e c p, a ≠ .setPriority e c p) → a ≠ .setMixed →
    t.setting = s.setting ∧ t.mixedPriority = s.mixedPriority

theorem External.of_setCh {s t : State} {a : Action} {e c : ℕ} {x : Chan}
    (hch : t.ch = (s.setCh e c x).ch) (heng : t.eng = s.eng)
    (hc : t.numChannels = s.numChannels) (he : t.numEngines = s.numEngines)
    (hg : x.get = (s.ch e c).get) (hr : x.replay = (s.ch e c).replay)
    (hp : (∀ e c p, a ≠ .setPriority e c p) → x.priority = (s.ch e c).priority)
    (hf : (∀ e c p, a ≠ .setPriority e c p) → a ≠ .setMixed →
      t.setting = s.setting ∧ t.mixedPriority = s.mixedPriority) : External s a t where
  numChannels := hc
  numEngines := he
  eng := heng
  get := hch ▸ s.setCh_field e c x Chan.get hg
  replay := hch ▸ s.setCh_field e c x Chan.replay hr
  priority := fun ha => hch ▸ s.setCh_field e c x Chan.priority (hp ha)
  flags := hf

theorem step_external {s t : State} {a : Action} (ha : a.engineOf = none) (h : step s a = some t) :
    External s a t := by
  cases a with
  | popFault =>
    simp only [step] at h
    split at h <;> cases h
    exact ⟨rfl, rfl, rfl, fun _ _ => rfl, fun _ _ => rfl, fun _ _ _ => rfl, fun _ _ => ⟨rfl, rfl⟩⟩
  | serviced rc =>
    simp only [step, State.serviced] at h
    split at h <;> cases h
    exact .of_setCh rfl rfl rfl rfl rfl rfl (fun _ => rfl) fun _ _ => ⟨rfl, rfl⟩
  | storeFail =>
    simp only [step] at h
    split at h <;> cases h
    exact .of_setCh rfl rfl rfl rfl rfl rfl (fun _ => rfl) fun _ _ => ⟨rfl, rfl⟩
  | unpark =>
    simp only [step] at h
    split at h <;> cases h
    exact .of_setCh rfl rfl rfl rfl rfl rfl (fun _ => rfl) fun _ _ => ⟨rfl, rfl⟩
  | submit e c cmds =>
    simp only [step, Option.ite_none_right_eq_some, Option.some.injEq] at h
    obtain ⟨-, rfl⟩ := h
    exact .of_setCh rfl rfl rfl rfl rfl rfl (fun _ => rfl) fun _ _ => ⟨rfl, rfl⟩
  | setPriority e c p =>
    simp only [step, Option.ite_none_right_eq_some, Option.some.injEq] at h
    obtain ⟨-, rfl⟩ := h
    exact .of_setCh rfl rfl rfl rfl rfl rfl (fun ha => absurd rfl (ha e c p))
      fun ha => absurd rfl (ha e c p)
  | setMixed =>
    simp only [step, Option.ite_none_right_eq_some, Option.some.injEq] at h
    obtain ⟨-, rfl⟩ := h
    exact ⟨rfl, rfl, rfl, fun _ _ => rfl, fun _ _ => rfl, fun _ _ _ => rfl,
      fun _ hm => absurd rfl hm⟩
  | _ => cases ha

theorem step_priority {s t : State} {a : Action} (ha : ∀ e c p, a ≠ .setPriority e c p)
    (h : step s a = some t) (e c : ℕ) : (t.ch e c).priority = (s.ch e c).priority := by
  cases hown : a.engineOf with
  | none => exact (step_external hown h).priority ha e c
  | some e' =>
    have hl := step_local hown h
    by_cases he : e = e'
    · subst he
      exact hl.priority c
    · rw [hl.ch e he]

theorem step_flags {s t : State} {a : Action} (ha : ∀ e c p, a ≠ .setPriority e c p)
    (hm : a ≠ .setMixed) (h : step s a = some t) :
    t.setting = s.setting ∧ t.mixedPriority = s.mixedPriority := by
  cases hown : a.engineOf with
  | none => exact (step_external hown h).flags ha hm
  | some e' => exact ⟨(step_local hown h).setting, (step_local hown h).mixedPriority⟩

theorem step_numChannels {s t : State} {a : Action} (h : step s a = some t) :
    t.numChannels = s.numChannels := by
  cases hown : a.engineOf with
  | none => exact (step_external hown h).numChannels
  | some e' => exact (step_local hown h).numChannels

theorem step_numEngines {s t : State} {a : Action} (h : step s a = some t) :
    t.numEngines = s.numEngines := by
  cases hown : a.engineOf with
  | none => exact (step_external hown h).numEngines
  | some e' => exact (step_local hown h).numEngines

theorem step_frame {s t : State} {a : Action} {e : ℕ} (ha : a.engineOf ≠ some e)
    (h : step s a = some t) : t.eng e = s.eng e ∧ ∀ c, (t.ch e c).get = (s.ch e c).get := by
  cases hown : a.engineOf with
  | none =>
    have hx := step_external hown h
    exact ⟨by rw [hx.eng], hx.get e⟩
  | some e' =>
    have hl := step_local hown h
    have he : e ≠ e' := fun he => ha (he ▸ hown)
    exact ⟨hl.eng e he, fun c => by rw [hl.ch e he]⟩

/-! ### Places in a scan -/

def place (s : State) (e c : ℕ) : ℕ :=
  (c + (s.numChannels - (s.eng e).rr % s.numChannels)) % s.numChannels

theorem place_lt {s : State} {e c : ℕ} (hc : c < s.numChannels) : place s e c < s.numChannels :=
  Nat.mod_lt _ (by omega)

theorem scanned_place {s : State} {e c : ℕ} (hc : c < s.numChannels) :
    s.scanned e (place s e c) = c := by
  have hrr := Nat.mod_lt (s.eng e).rr (Nat.zero_lt_of_lt hc)
  have hdiv := Nat.div_add_mod (s.eng e).rr s.numChannels
  have hsum : (s.eng e).rr + (c + (s.numChannels - (s.eng e).rr % s.numChannels)) =
      c + s.numChannels * ((s.eng e).rr / s.numChannels + 1) := by
    rw [Nat.mul_add]
    omega
  rw [State.scanned, place, Nat.add_mod_mod, hsum, Nat.add_mul_mod_self_left, Nat.mod_eq_of_lt hc]

theorem place_scanned {s : State} {e i : ℕ} (hi : i < s.numChannels) :
    place s e (s.scanned e i) = i := by
  have hrr := Nat.mod_lt (s.eng e).rr (Nat.zero_lt_of_lt hi)
  have hdiv := Nat.div_add_mod (s.eng e).rr s.numChannels
  have hsum : (s.eng e).rr + i + (s.numChannels - (s.eng e).rr % s.numChannels) =
      i + s.numChannels * ((s.eng e).rr / s.numChannels + 1) := by
    rw [Nat.mul_add]
    omega
  rw [State.scanned, place, Nat.mod_add_mod, hsum, Nat.add_mul_mod_self_left, Nat.mod_eq_of_lt hi]

theorem place_inj {s : State} {e c d : ℕ} (hc : c < s.numChannels) (hd : d < s.numChannels)
    (h : place s e c = place s e d) : c = d := by
  rw [← scanned_place (e := e) hc, ← scanned_place (e := e) hd, h]

theorem eq_place {s : State} {e c i : ℕ} (hi : i < s.numChannels) (h : s.scanned e i = c) :
    i = place s e c := by
  rw [← h, place_scanned hi]

end SoftGpu.Runlist
