import SoftGpu.Runlist

/-!
# Parking on a page fault

What a channel goes through, seen from outside: its head command starts, faults and
waits for the page, is resumed from its replay state or retired with the error of the
migration, and GET moves on by one. `Life.Step` says so; the log of a channel follows
it in every run in which no command starts while a failed migration of its channel
waits to be taken.

The scan reads `fault_fail` before `parked`. The fault thread may store the one and
clear the other in between; then the scan finds neither a failure nor a parked channel
and the command that failed starts again. That is the run that the condition excludes.
-/

namespace SoftGpu.Runlist

open Machine
open Exec (Replay)

/-! ### The life of a channel -/

inductive Phase
  /-- The head command starts from this replay state. -/
  | ready (replay : Replay)
  | running
  /-- The head command waits for a page. -/
  | parked (replay : Replay)
  /-- The migration failed. -/
  | failed (rc : ℤ)
  /-- The head command is done; GET has not moved yet. -/
  | retiring (replay : Replay)

structure Life where
  next : ℕ
  sticky : ℤ
  phase : Phase

namespace Life

def init : Life := ⟨0, 0, .ready .init⟩

def first (sticky rc : ℤ) : ℤ := if sticky = 0 then rc else sticky

inductive Step : Life → Event → Life → Prop
  | start {n : ℕ} {st : ℤ} {r : Replay} : Step ⟨n, st, .ready r⟩ (.start n r) ⟨n, st, .running⟩
  | fault {n : ℕ} {st : ℤ} {r : Replay} : Step ⟨n, st, .running⟩ (.fault r) ⟨n, st, .parked r⟩
  | resume {n : ℕ} {st : ℤ} {r : Replay} :
      Step ⟨n, st, .parked r⟩ (.serviced 0) ⟨n, st, .ready r⟩
  | fail {n : ℕ} {st rc : ℤ} {r : Replay} : rc ≠ 0 →
      Step ⟨n, st, .parked r⟩ (.serviced rc) ⟨n, st, .failed rc⟩
  | take {n : ℕ} {st rc : ℤ} :
      Step ⟨n, st, .failed rc⟩ (.takeFail rc) ⟨n, first st rc, .retiring .init⟩
  | finish {n : ℕ} {st rc : ℤ} {r : Replay} : Step ⟨n, st, .running⟩ (.finish rc r)
      ⟨n, first st rc, .retiring (State.finished r)⟩
  | waited {n : ℕ} {st rc : ℤ} {r : Replay} :
      Step ⟨n, st, .ready r⟩ (.waited rc) ⟨n, first st rc, .retiring r⟩
  | retire {n : ℕ} {st : ℤ} {r : Replay} :
      Step ⟨n, st, .retiring r⟩ (.retire n) ⟨n + 1, st, .ready r⟩

inductive Run : List Event → Life → Prop
  | nil : Run [] init
  | cons {log : List Event} {x y : Life} {v : Event} : Run log x → Step x v y → Run (v :: log) y

end Life

/-! ### Where a fault is -/

inductive Role
  | none
  | executing
  | pushing
  | retiring
  deriving DecidableEq, Repr

def role (s : State) (e c : ℕ) : Role :=
  match (s.eng e).pc with
  | .executing c' _ => if c' = c then .executing else .none
  | .pushing c' _ => if c' = c then .pushing else .none
  | .publish c' _ => if c' = c then .retiring else .none
  | .failRetire i _ => if s.scanned e i = c then .retiring else .none
  | _ => .none

inductive Task
  | none
  | migrating
  | failing (rc : ℤ)
  | unparking
  deriving DecidableEq, Repr

def Fault.isFor (f : Fault) (e c : ℕ) : Bool := f.engine == e && f.channel == c

def task (h : Handler) (e c : ℕ) : Task :=
  match h with
  | .idle => .none
  | .migrating f => if f.isFor e c then .migrating else .none
  | .failing f rc => if f.isFor e c then .failing rc else .none
  | .unparking f => if f.isFor e c then .unparking else .none

def queued (s : State) (e c : ℕ) : ℕ := s.faults.countP fun f => f.isFor e c

/-- The faults of the channel that are being pushed, queued or being serviced. -/
def outstanding (s : State) (e c : ℕ) : ℕ :=
  (if role s e c = .pushing then 1 else 0) + queued s e c +
    match task s.handler e c with
    | .migrating | .failing _ => 1
    | _ => 0

/-- No command starts on a channel whose failed migration waits to be taken. -/
def startsClean (s : State) (a : Action) : Prop :=
  ∀ e c, starts s e a = some c → (s.ch e c).faultFail = 0

/-! ### The invariant of a channel -/

/-- The channel `x` is in this phase, when the engine does `r` with it, `q` faults of
it are queued and the fault thread does `h`. -/
def Fits (x : Chan) (r : Role) (q : ℕ) (h : Task) : Phase → Prop
  | .ready p => x.replay = p ∧ x.get ≤ x.put ∧ r = .none ∧ q = 0 ∧ x.faultFail = 0 ∧
      (h = .none ∧ x.parked = false ∨ h = .unparking ∧ x.parked = true)
  | .running => x.get < x.put ∧ r = .executing ∧ q = 0 ∧ x.faultFail = 0 ∧
      h = .none ∧ x.parked = false
  | .parked p => x.replay = p ∧ x.get < x.put ∧ x.faultFail = 0 ∧ x.parked = true ∧
      (r = .pushing ∧ q = 0 ∧ h = .none ∨ r = .none ∧ q = 1 ∧ h = .none ∨
        r = .none ∧ q = 0 ∧ h = .migrating)
  | .failed rc => rc ≠ 0 ∧ x.get < x.put ∧ r = .none ∧ q = 0 ∧
      (h = .failing rc ∧ x.parked = true ∧ x.faultFail = 0 ∨
        x.faultFail = rc ∧ (h = .none ∧ x.parked = false ∨ h = .unparking ∧ x.parked = true))
  | .retiring p => x.replay = p ∧ x.get < x.put ∧ r = .retiring ∧ q = 0 ∧ x.faultFail = 0 ∧
      (h = .none ∧ x.parked = false ∨ h = .unparking ∧ x.parked = true)

def Follows (s : State) (e c : ℕ) : Prop :=
  ∃ x, Life.Run (s.ch e c).log x ∧ x.next = (s.ch e c).get ∧ x.sticky = (s.ch e c).stickyError ∧
    Fits (s.ch e c) (role s e c) (queued s e c) (task s.handler e c) x.phase

def Seen (x : Chan) (put : ℕ) : Prop := x.parked = false ∧ x.get < put ∧ put ≤ x.put

def SeenBest (s : State) (e i : ℕ) (best : Option Pick) : Prop :=
  ∀ p, best = some p → Seen (s.ch e p.channel) p.put ∧
    ∃ j < i, j < s.numChannels ∧ s.scanned e j = p.channel

def Relies (s : State) (e : ℕ) : Prop :=
  match (s.eng e).pc with
  | .loadPut i best => SeenBest s e i best
  | .failRetire i best => i < s.numChannels ∧ SeenBest s e i best
  | .takeFail i best put =>
    let x := s.ch e (s.scanned e i)
    i < s.numChannels ∧ SeenBest s e i best ∧ x.get ≤ put ∧ put ≤ x.put ∧
      (x.faultFail ≠ 0 ∨ 0 < outstanding s e (s.scanned e i) → x.get < put)
  | .loadParked i best put =>
    let x := s.ch e (s.scanned e i)
    i < s.numChannels ∧ SeenBest s e i best ∧ x.get ≤ put ∧ put ≤ x.put
  | .waitCheck i best put | .loadPrio i best put =>
    i < s.numChannels ∧ SeenBest s e i best ∧ Seen (s.ch e (s.scanned e i)) put
  | .head c put | .executing c put | .publish c put | .boundary c put | .loadSelf c put _ _
  | .other c put .. => Seen (s.ch e c) put
  | .reload c put => (s.ch e c).parked = false ∧ (s.ch e c).get ≤ put ∧ put ≤ (s.ch e c).put
  | .pushing _ _ => True

structure Parking (s : State) : Prop where
  follows : ∀ e c, Follows s e c
  relies : ∀ e, Relies s e

variable {s t : State} {e c : ℕ} {x : Chan} {pc : Pc}

/-! ### Steps elsewhere -/

def Pending (s : State) (e c : ℕ) : Prop := (s.ch e c).faultFail ≠ 0 ∨ 0 < outstanding s e c

theorem role_frame (heng : t.eng e = s.eng e) (hn : t.numChannels = s.numChannels) :
    role t e c = role s e c := by
  simp only [role, State.scanned, heng, hn]
  rfl

structure Untouched (s t : State) (e c : ℕ) : Prop where
  log : (t.ch e c).log = (s.ch e c).log
  get : (t.ch e c).get = (s.ch e c).get
  sticky : (t.ch e c).stickyError = (s.ch e c).stickyError
  replay : (t.ch e c).replay = (s.ch e c).replay
  parked : (t.ch e c).parked = (s.ch e c).parked
  fail : (t.ch e c).faultFail = (s.ch e c).faultFail
  put : (s.ch e c).put ≤ (t.ch e c).put
  role : role t e c = role s e c
  queued : queued t e c = queued s e c
  task : task t.handler e c = task s.handler e c

theorem Untouched.of_eq (hch : t.ch e c = s.ch e c) (hr : Runlist.role t e c = Runlist.role s e c)
    (hq : t.faults = s.faults) (hh : t.handler = s.handler) : Untouched s t e c :=
  ⟨by rw [hch], by rw [hch], by rw [hch], by rw [hch], by rw [hch], by rw [hch], by rw [hch], hr,
    by rw [Runlist.queued, Runlist.queued, hq], by rw [hh]⟩

theorem Untouched.outstanding (h : Untouched s t e c) : outstanding t e c = outstanding s e c := by
  rw [Runlist.outstanding, Runlist.outstanding, h.role, h.queued, h.task]

theorem Untouched.pending (h : Untouched s t e c) (hp : Pending t e c) : Pending s e c := by
  rwa [Pending, h.fail, h.outstanding] at hp

theorem Fits.congr {y : Chan} {r : Role} {q : ℕ} {k : Task} {ph : Phase} (h : Fits x r q k ph)
    (hrep : y.replay = x.replay) (hget : y.get = x.get) (hput : x.put ≤ y.put)
    (hf : y.faultFail = x.faultFail) (hp : y.parked = x.parked) : Fits y r q k ph := by
  cases ph <;> simp only [Fits, hrep, hget, hf, hp] at h ⊢
  case ready => exact ⟨h.1, h.2.1.trans hput, h.2.2⟩
  case running => exact ⟨h.1.trans_le hput, h.2⟩
  case parked => exact ⟨h.1, h.2.1.trans_le hput, h.2.2⟩
  case failed => exact ⟨h.1, h.2.1.trans_le hput, h.2.2⟩
  case retiring => exact ⟨h.1, h.2.1.trans_le hput, h.2.2⟩

theorem Untouched.follows (h : Untouched s t e c) (hf : Follows s e c) : Follows t e c := by
  obtain ⟨x, hrun, hnext, hst, hfit⟩ := hf
  refine ⟨x, h.log ▸ hrun, hnext.trans h.get.symm, hst.trans h.sticky.symm, ?_⟩
  rw [h.role, h.queued, h.task]
  exact hfit.congr h.replay h.get h.put h.fail h.parked

/-- What the other threads may do to a channel of engine `e`, as far as `e` relies
on it. -/
structure Spares (s t : State) (e c : ℕ) : Prop where
  get : (t.ch e c).get = (s.ch e c).get
  put : (s.ch e c).put ≤ (t.ch e c).put
  parked : (s.ch e c).parked = false → (t.ch e c).parked = false
  pending : Pending t e c → Pending s e c

theorem Untouched.spares (h : Untouched s t e c) : Spares s t e c :=
  ⟨h.get, h.put, fun hp => h.parked.trans hp, h.pending⟩

theorem Spares.seen {put : ℕ} (h : Spares s t e c) (hs : Seen (s.ch e c) put) :
    Seen (t.ch e c) put :=
  ⟨h.parked hs.1, h.get ▸ hs.2.1, hs.2.2.trans h.put⟩

theorem SeenBest.spares {i : ℕ} {best : Option Pick} (hs : SeenBest s e i best)
    (hn : t.numChannels = s.numChannels) (hsc : ∀ j, t.scanned e j = s.scanned e j)
    (h : ∀ c, Spares s t e c) : SeenBest t e i best := by
  intro p hp
  obtain ⟨hseen, j, hji, hjn, hj⟩ := hs p hp
  exact ⟨(h p.channel).seen hseen, j, hji, hn ▸ hjn, (hsc j).trans hj⟩

theorem Relies.frame (hs : Relies s e) (heng : t.eng e = s.eng e)
    (hn : t.numChannels = s.numChannels) (h : ∀ c, Spares s t e c) : Relies t e := by
  have hsc : ∀ i, t.scanned e i = s.scanned e i := fun i => by
    rw [State.scanned, State.scanned, heng, hn]
  unfold Relies at hs ⊢
  rw [heng]
  cases hpc : (s.eng e).pc with
  | loadPut i best =>
    rw [hpc] at hs
    exact hs.spares hn hsc h
  | failRetire i best =>
    rw [hpc] at hs
    exact ⟨hn ▸ hs.1, hs.2.spares hn hsc h⟩
  | takeFail i best put =>
    rw [hpc] at hs
    obtain ⟨hi, hb, hg, hp, hpend⟩ := hs
    have hx := h (s.scanned e i)
    simp only [hsc]
    refine ⟨hn ▸ hi, hb.spares hn hsc h, hx.get ▸ hg, hp.trans hx.put, fun ht => ?_⟩
    rw [hx.get]
    exact hpend (hx.pending ht)
  | loadParked i best put =>
    rw [hpc] at hs
    obtain ⟨hi, hb, hg, hp⟩ := hs
    have hx := h (s.scanned e i)
    simp only [hsc]
    exact ⟨hn ▸ hi, hb.spares hn hsc h, hx.get ▸ hg, hp.trans hx.put⟩
  | waitCheck i best put | loadPrio i best put =>
    rw [hpc] at hs
    simp only [hsc]
    exact ⟨hn ▸ hs.1, hs.2.1.spares hn hsc h, (h _).seen hs.2.2⟩
  | head c put | executing c put | publish c put | boundary c put | loadSelf c put _ _
  | other c put =>
    rw [hpc] at hs
    exact (h c).seen hs
  | reload c put =>
    rw [hpc] at hs
    exact ⟨(h c).parked hs.1, (h c).get ▸ hs.2.1, hs.2.2.trans (h c).put⟩
  | pushing c va => trivial

theorem Parking.own (h : Parking s) (hf : Follows ((s.setCh e c x).setPc e pc) e c)
    (hrel : Relies ((s.setCh e c x).setPc e pc) e)
    (hrole : ∀ c' ≠ c, role ((s.setCh e c x).setPc e pc) e c' = role s e c') :
    Parking ((s.setCh e c x).setPc e pc) := by
  have hun : ∀ e' c', ¬(e' = e ∧ c' = c) → Untouched s ((s.setCh e c x).setPc e pc) e' c' := by
    intro e' c' hne
    refine .of_eq (s.setCh_ne e c x hne) ?_ rfl rfl
    by_cases he : e' = e
    · subst he
      exact hrole c' fun hc => hne ⟨rfl, hc⟩
    · exact role_frame (State.setPc_eng_ne _ _ _ he) rfl
  refine ⟨fun e' c' => ?_, fun e' => ?_⟩
  · by_cases hc : e' = e ∧ c' = c
    · obtain ⟨rfl, rfl⟩ := hc
      exact hf
    · exact (hun e' c' hc).follows (h.follows e' c')
  · by_cases he : e' = e
    · subst he
      exact hrel
    · exact (h.relies e').frame (State.setPc_eng_ne _ _ _ he) rfl
        fun c' => (hun e' c' fun hc => he hc.1).spares

theorem Parking.move (h : Parking s) (hl : Local s e t) (hch : t.ch = s.ch)
    (hq : t.faults = s.faults) (hrole : ∀ c, role t e c = role s e c) (hrel : Relies t e) :
    Parking t := by
  have hun : ∀ e' c', Untouched s t e' c' := by
    intro e' c'
    refine .of_eq (by rw [hch]) ?_ hq hl.handler
    by_cases he : e' = e
    · subst he
      exact hrole c'
    · exact role_frame (hl.eng e' he) hl.numChannels
  refine ⟨fun e' c' => (hun e' c').follows (h.follows e' c'), fun e' => ?_⟩
  by_cases he : e' = e
  · subst he
    exact hrel
  · exact (h.relies e').frame (hl.eng e' he) hl.numChannels fun c' => (hun e' c').spares

theorem Parking.new (engines channels : ℕ) : Parking (.new engines channels) where
  follows := fun _ _ => ⟨.init, .nil, rfl, rfl, rfl, le_refl 0, rfl, rfl, rfl, .inl ⟨rfl, rfl⟩⟩
  relies := fun _ => nofun

/-! ### The steps of the engine on a channel -/

theorem Follows.of_step {y : Chan} {l l' : Life} {v : Event} (hch : t.ch e c = y)
    (hrun : Life.Run (s.ch e c).log l) (hstep : Life.Step l v l')
    (hlog : y.log = v :: (s.ch e c).log) (hnext : l'.next = y.get)
    (hst : l'.sticky = y.stickyError)
    (hfit : Fits y (role t e c) (queued t e c) (task t.handler e c) l'.phase) : Follows t e c := by
  subst hch
  exact ⟨l', hlog ▸ .cons hrun hstep, hnext, hst, hfit⟩

theorem Follows.takeFail (h : Follows s e c) (hf : (s.ch e c).faultFail ≠ 0)
    (hch : t.ch e c = { (({ s.ch e c with faultFail := 0 }.fail (s.ch e c).faultFail).note
      (.takeFail (s.ch e c).faultFail)) with replay := .init })
    (hrole : role t e c = .retiring) (hq : queued t e c = queued s e c)
    (hk : task t.handler e c = task s.handler e c) : Follows t e c := by
  obtain ⟨⟨n, st, ph⟩, hrun, hnext, hst, hfit⟩ := h
  cases ph with
  | failed rc =>
    obtain ⟨-, hlt, -, hq₀, ⟨-, -, hf₀⟩ | ⟨hrc, hpark⟩⟩ := hfit
    · exact absurd hf₀ hf
    · subst hrc
      refine .of_step hch hrun .take rfl hnext ?_ ?_
      · exact congrArg (Life.first · (s.ch e c).faultFail) hst
      · rw [hrole, hq, hk]
        exact ⟨rfl, hlt, rfl, hq₀, rfl, hpark⟩
  | ready r => exact absurd hfit.2.2.2.2.1 hf
  | running => exact absurd hfit.2.2.2.1 hf
  | parked r => exact absurd hfit.2.2.1 hf
  | retiring r => exact absurd hfit.2.2.2.2.1 hf

theorem Follows.retire (h : Follows s e c) (hr : role s e c = .retiring)
    (hch : t.ch e c = (s.ch e c).retire) (hrole : role t e c = .none)
    (hq : queued t e c = queued s e c) (hk : task t.handler e c = task s.handler e c) :
    Follows t e c := by
  obtain ⟨⟨n, st, ph⟩, hrun, hnext, hst, hfit⟩ := h
  cases ph with
  | retiring r =>
    obtain ⟨hrep, hlt, -, hq₀, hf, hpark⟩ := hfit
    obtain rfl : n = (s.ch e c).get := hnext
    refine .of_step hch hrun .retire rfl rfl hst ?_
    rw [hrole, hq, hk]
    exact ⟨hrep, hlt, rfl, hq₀, hf, hpark⟩
  | ready r => exact absurd (hr.symm.trans hfit.2.2.1) nofun
  | running => exact absurd (hr.symm.trans hfit.2.1) nofun
  | parked r =>
    obtain ⟨-, -, -, -, ⟨h', -⟩ | ⟨h', -⟩ | ⟨h', -⟩⟩ :=
      hfit <;> exact absurd (hr.symm.trans h') nofun
  | failed rc => exact absurd (hr.symm.trans hfit.2.2.1) nofun

theorem Follows.ready (h : Follows s e c) (hr : role s e c = .none)
    (hp : (s.ch e c).parked = false) (hf : (s.ch e c).faultFail = 0) :
    ∃ n st, Life.Run (s.ch e c).log ⟨n, st, .ready (s.ch e c).replay⟩ ∧ n = (s.ch e c).get ∧
      st = (s.ch e c).stickyError ∧ queued s e c = 0 ∧ task s.handler e c = .none := by
  obtain ⟨⟨n, st, ph⟩, hrun, hnext, hst, hfit⟩ := h
  cases ph with
  | ready r =>
    obtain ⟨rfl, -, -, hq, -, ⟨hk, -⟩ | ⟨-, hp'⟩⟩ := hfit
    · exact ⟨n, st, hrun, hnext, hst, hq, hk⟩
    · exact absurd (hp.symm.trans hp') nofun
  | running => exact absurd (hr.symm.trans hfit.2.1) nofun
  | parked r => exact absurd (hp.symm.trans hfit.2.2.2.1) nofun
  | failed rc =>
    obtain ⟨hrc, -, -, -, ⟨-, hp', -⟩ | ⟨hf', -⟩⟩ := hfit
    · exact absurd (hp.symm.trans hp') nofun
    · exact absurd (hf'.symm.trans hf) hrc
  | retiring r => exact absurd (hr.symm.trans hfit.2.2.1) nofun

theorem Follows.start (h : Follows s e c) (hr : role s e c = .none)
    (hp : (s.ch e c).parked = false) (hf : (s.ch e c).faultFail = 0)
    (hlt : (s.ch e c).get < (s.ch e c).put)
    (hch : t.ch e c = (s.ch e c).note (.start (s.ch e c).get (s.ch e c).replay))
    (hrole : role t e c = .executing) (hq : queued t e c = queued s e c)
    (hk : task t.handler e c = task s.handler e c) : Follows t e c := by
  obtain ⟨n, st, hrun, rfl, rfl, hq₀, hk₀⟩ := h.ready hr hp hf
  refine .of_step hch hrun .start rfl rfl rfl ?_
  rw [hrole, hq, hk]
  exact ⟨hlt, rfl, hq₀, hf, hk₀, hp⟩

theorem Follows.waited {rc : ℤ} (h : Follows s e c) (hr : role s e c = .none)
    (hp : (s.ch e c).parked = false) (hf : (s.ch e c).faultFail = 0)
    (hlt : (s.ch e c).get < (s.ch e c).put)
    (hch : t.ch e c = ((s.ch e c).fail rc).note (.waited rc))
    (hrole : role t e c = .retiring) (hq : queued t e c = queued s e c)
    (hk : task t.handler e c = task s.handler e c) : Follows t e c := by
  obtain ⟨n, st, hrun, rfl, rfl, hq₀, hk₀⟩ := h.ready hr hp hf
  refine .of_step hch hrun .waited rfl rfl rfl ?_
  rw [hrole, hq, hk]
  exact ⟨rfl, hlt, rfl, hq₀, hf, .inl ⟨hk₀, hp⟩⟩

theorem Follows.running (h : Follows s e c) (hr : role s e c = .executing) :
    ∃ n st, Life.Run (s.ch e c).log ⟨n, st, .running⟩ ∧ n = (s.ch e c).get ∧
      st = (s.ch e c).stickyError ∧ (s.ch e c).get < (s.ch e c).put ∧ queued s e c = 0 ∧
      (s.ch e c).faultFail = 0 ∧ task s.handler e c = .none ∧ (s.ch e c).parked = false := by
  obtain ⟨⟨n, st, ph⟩, hrun, hnext, hst, hfit⟩ := h
  cases ph with
  | running =>
    obtain ⟨hlt, -, hq, hf, hk, hp⟩ := hfit
    exact ⟨n, st, hrun, hnext, hst, hlt, hq, hf, hk, hp⟩
  | ready r => exact absurd (hr.symm.trans hfit.2.2.1) nofun
  | parked r =>
    obtain ⟨-, -, -, -, ⟨h', -⟩ | ⟨h', -⟩ | ⟨h', -⟩⟩ :=
      hfit <;> exact absurd (hr.symm.trans h') nofun
  | failed rc => exact absurd (hr.symm.trans hfit.2.2.1) nofun
  | retiring r => exact absurd (hr.symm.trans hfit.2.2.1) nofun

theorem Follows.fault {r : Replay} (h : Follows s e c) (hr : role s e c = .executing)
    (hch : t.ch e c = { s.ch e c with replay := r, parked := true }.note (.fault r))
    (hrole : role t e c = .pushing) (hq : queued t e c = queued s e c)
    (hk : task t.handler e c = task s.handler e c) : Follows t e c := by
  obtain ⟨n, st, hrun, rfl, rfl, hlt, hq₀, hf, hk₀, hp⟩ := h.running hr
  refine .of_step hch hrun .fault rfl rfl rfl ?_
  rw [hrole, hq, hk]
  exact ⟨rfl, hlt, hf, rfl, .inl ⟨rfl, hq₀, hk₀⟩⟩

theorem Follows.finish {rc : ℤ} {r : Replay} (h : Follows s e c)
    (hr : role s e c = .executing)
    (hch : t.ch e c = ({ s.ch e c with replay := State.finished r }.fail rc).note (.finish rc r))
    (hrole : role t e c = .retiring) (hq : queued t e c = queued s e c)
    (hk : task t.handler e c = task s.handler e c) : Follows t e c := by
  obtain ⟨n, st, hrun, rfl, rfl, hlt, hq₀, hf, hk₀, hp⟩ := h.running hr
  refine .of_step hch hrun .finish rfl rfl rfl ?_
  rw [hrole, hq, hk]
  exact ⟨rfl, hlt, rfl, hq₀, hf, .inl ⟨hk₀, hp⟩⟩

theorem Follows.get_le (h : Follows s e c) : (s.ch e c).get ≤ (s.ch e c).put := by
  obtain ⟨⟨n, st, ph⟩, -, -, -, hfit⟩ := h
  cases ph with
  | ready r => exact hfit.2.1
  | running => exact hfit.1.le
  | parked r => exact hfit.2.1.le
  | failed rc => exact hfit.2.1.le
  | retiring r => exact hfit.2.1.le

theorem Follows.get_lt (h : Follows s e c) (hp : Pending s e c) :
    (s.ch e c).get < (s.ch e c).put := by
  obtain ⟨⟨n, st, ph⟩, -, -, -, hfit⟩ := h
  cases ph with
  | ready r =>
    obtain ⟨-, -, hr, hq, hf, hk⟩ := hfit
    exfalso
    rcases hp with hp | hp
    · exact hp hf
    · rcases hk with ⟨hk, -⟩ | ⟨hk, -⟩ <;> simp [outstanding, hr, hq, hk] at hp
  | running => exact hfit.1
  | parked r => exact hfit.2.1
  | failed rc => exact hfit.2.1
  | retiring r => exact hfit.2.1

/-! ### The scan and the visit -/

theorem SeenBest.mono {i j : ℕ} {best : Option Pick} (h : SeenBest s e i best) (hij : i ≤ j) :
    SeenBest s e j best := by
  intro p hp
  obtain ⟨hseen, k, hki, hk⟩ := h p hp
  exact ⟨hseen, k, by omega, hk⟩

theorem Parking.setPc (h : Parking s) (hrole : ∀ c, role (s.setPc e pc) e c = role s e c)
    (hrel : Relies (s.setPc e pc) e) : Parking (s.setPc e pc) :=
  h.move ((Local.refl s e).setPc pc) rfl rfl hrole hrel

theorem Parking.endVisit (h : Parking s) (hrole : ∀ c, role s e c = .none) :
    Parking (s.endVisit e) := by
  refine h.setPc (fun c => ?_) ?_
  · rw [hrole]
    simp [role]
  · simp only [Relies, State.setPc_pc]
    exact nofun

theorem Parking.next {i : ℕ} {best : Option Pick} (h : Parking s)
    (hrole : ∀ c, role s e c = .none) (hb : SeenBest s e i best) :
    Parking (s.setPc e (.loadPut (i + 1) best)) := by
  refine h.setPc (fun c => ?_) ?_
  · rw [hrole]
    simp [role]
  · simp only [Relies, State.setPc_pc]
    intro p hp
    obtain ⟨hseen, j, hji, hjn, hj⟩ := hb p hp
    exact ⟨hseen, j, by omega, hjn, by simpa using hj⟩

theorem Parking.choose {i : ℕ} {best : Option Pick} (h : Parking s)
    (hrole : ∀ c, role s e c = .none) (hb : SeenBest s e i best) : Parking (s.choose e best) := by
  cases best with
  | none => exact h.endVisit hrole
  | some p =>
    refine h.move (Local.choose s e _) rfl rfl (fun c => ?_) ?_
    · rw [hrole]
      simp [role, State.choose]
    · simp only [Relies, State.choose, State.setPc_pc]
      exact (hb p rfl).1

theorem seenBest_setPc {i : ℕ} {best : Option Pick} :
    SeenBest (s.setPc e pc) e i best ↔ SeenBest s e i best := by
  simp [SeenBest]

theorem SeenBest.better {i put : ℕ} {best : Option Pick} {prio : ℤ} (h : SeenBest s e i best)
    (hi : i < s.numChannels) (hseen : Seen (s.ch e (s.scanned e i)) put) :
    SeenBest s e (i + 1) (State.better best ⟨s.scanned e i, prio, put⟩) := by
  have hnew : SeenBest s e (i + 1) (some ⟨s.scanned e i, prio, put⟩) := by
    intro p hp
    obtain rfl := Option.some.inj hp
    exact ⟨hseen, i, by omega, hi, rfl⟩
  cases best with
  | none => exact hnew
  | some q =>
    simp only [State.better]
    split
    · exact hnew
    · exact h.mono (by omega)

theorem SeenBest.setCh {i : ℕ} {best : Option Pick} (h : SeenBest s e i best)
    (hg : x.get = (s.ch e c).get) (hput : x.put = (s.ch e c).put)
    (hp : x.parked = (s.ch e c).parked) : SeenBest (s.setCh e c x) e i best := by
  intro p hbest
  obtain ⟨⟨hpark, hlt, hle⟩, hj⟩ := h p hbest
  refine ⟨⟨?_, ?_, ?_⟩, hj⟩
  · rw [s.setCh_field e c x Chan.parked hp]
    exact hpark
  · rw [s.setCh_field e c x Chan.get hg]
    exact hlt
  · rw [s.setCh_field e c x Chan.put hput]
    exact hle

theorem Parking.takeFail {i put : ℕ} {best : Option Pick} (h : Parking s)
    (hpc : (s.eng e).pc = .takeFail i best put) : Parking (s.takeFail e i best put) := by
  have hrel := h.relies e
  simp only [Relies, hpc] at hrel
  obtain ⟨hi, hb, hg, hp, hpend⟩ := hrel
  have hrole : ∀ c, role s e c = .none := fun c => by simp [role, hpc]
  simp only [State.takeFail]
  split_ifs with h₁ h₂
  · refine h.setPc (fun c => ?_) ?_
    · rw [hrole]
      simp [role]
    · simp only [Relies, State.setPc_pc, State.setPc_scanned]
      exact ⟨hi, seenBest_setPc.mpr hb, hg, hp⟩
  · exact absurd (hpend (.inl h₁)) (by omega)
  · refine h.own ?_ ?_ fun c' hc' => ?_
    · exact (h.follows e _).takeFail h₁ (by simp) (by simp [role]) rfl rfl
    · simp only [Relies, State.setPc_pc]
      exact ⟨hi, seenBest_setPc.mpr (hb.setCh rfl rfl rfl)⟩
    · rw [hrole]
      simp [role, Ne.symm hc']

theorem Parking.failRetire {i : ℕ} {best : Option Pick} (h : Parking s)
    (hpc : (s.eng e).pc = .failRetire i best) :
    Parking ((s.setCh e (s.scanned e i) (s.ch e (s.scanned e i)).retire).setPc e
      (.loadPut (i + 1) best)) := by
  have hrel := h.relies e
  simp only [Relies, hpc] at hrel
  obtain ⟨hi, hb⟩ := hrel
  refine h.own ?_ ?_ fun c' hc' => ?_
  · exact (h.follows e _).retire (by simp [role, hpc]) (by simp) (by simp [role]) rfl rfl
  · simp only [Relies, State.setPc_pc]
    intro p hp
    obtain ⟨hseen, j, hji, hjn, hj⟩ := hb p hp
    -- the candidate is from an earlier place
    have hne : p.channel ≠ s.scanned e i := by
      rw [← hj]
      intro hsc
      have hji' := (eq_place hjn hsc).trans (place_scanned hi)
      omega
    refine ⟨?_, j, by omega, hjn, by simpa using hj⟩
    rw [State.setPc_ch, s.setCh_ne e (s.scanned e i) _ fun hc => hne hc.2]
    exact hseen
  · simp [role, hpc, Ne.symm hc']

theorem Parking.loadParked {i put : ℕ} {best : Option Pick} (h : Parking s)
    (hpc : (s.eng e).pc = .loadParked i best put) : Parking (s.loadParked e i best put) := by
  have hrel := h.relies e
  simp only [Relies, hpc] at hrel
  obtain ⟨hi, hb, hg, hp⟩ := hrel
  have hrole : ∀ c, role s e c = .none := fun c => by simp [role, hpc]
  simp only [State.loadParked]
  split_ifs with h₁ h₂ h₃
  · exact h.next hrole hb
  · exact h.next hrole hb
  · omega
  · refine h.setPc (fun c => ?_) ?_
    · rw [hrole]
      simp [role]
    · simp only [Relies, State.setPc_pc, State.setPc_scanned]
      exact ⟨hi, seenBest_setPc.mpr hb, by simpa using h₁, by show (s.ch e _).get < put; omega, hp⟩

theorem Parking.atHead {c put : ℕ} (h : Parking s) (hpc : (s.eng e).pc = .head c put)
    (hok : startsClean s (.engine e)) : Parking (s.atHead e c put) := by
  have hrel := h.relies e
  simp only [Relies, hpc] at hrel
  obtain ⟨hp, hlt, hle⟩ := hrel
  have hrole : ∀ c, role s e c = .none := fun c => by simp [role, hpc]
  simp only [State.atHead]
  split_ifs with h₁ h₂
  · exact h.endVisit hrole
  · exact h.endVisit hrole
  have hf : (s.ch e c).faultFail = 0 := by
    refine hok e c ?_
    simp only [starts, hpc]
    rw [if_pos ⟨trivial, h₁, by simpa using h₂⟩]
  split
  · refine h.own ?_ ?_ fun c' hc' => ?_
    · exact (h.follows e c).start (hrole c) hp hf (hlt.trans_le hle) (by simp) (by simp [role])
        rfl rfl
    · simp only [Relies, State.setPc_pc, State.setPc_ch, State.setCh_self]
      exact ⟨hp, hlt, hle⟩
    · rw [hrole]
      simp [role, Ne.symm hc']
  · refine h.own ?_ ?_ fun c' hc' => ?_
    · exact (h.follows e c).waited (hrole c) hp hf (hlt.trans_le hle) (State.setCh_self _ _ _ _)
        (by simp [role]) rfl rfl
    · simp only [Relies, State.setPc_pc, State.setPc_ch, State.setCh_self]
      exact ⟨hp, hlt, hle⟩
    · rw [hrole]
      simp [role, Ne.symm hc']

theorem Follows.pushing (h : Follows s e c) (hr : role s e c = .pushing)
    (hlog : t.ch e c = s.ch e c)
    (hrole : role t e c = .none) (hq : queued t e c = queued s e c + 1)
    (hk : t.handler = s.handler) : Follows t e c := by
  obtain ⟨⟨n, st, ph⟩, hrun, hnext, hst, hfit⟩ := h
  cases ph with
  | parked r =>
    obtain ⟨hrep, hlt, hf, hp, ⟨-, hq₀, hk₀⟩ | ⟨h', -⟩ | ⟨h', -⟩⟩ := hfit
    · refine ⟨_, hlog ▸ hrun, hlog ▸ hnext, hlog ▸ hst, ?_⟩
      rw [hlog, hrole, hq, hk]
      exact ⟨hrep, hlt, hf, hp, .inr (.inl ⟨rfl, by omega, hk₀⟩)⟩
    · exact absurd (hr.symm.trans h') nofun
    · exact absurd (hr.symm.trans h') nofun
  | ready r => exact absurd (hr.symm.trans hfit.2.2.1) nofun
  | running => exact absurd (hr.symm.trans hfit.2.1) nofun
  | failed rc => exact absurd (hr.symm.trans hfit.2.2.1) nofun
  | retiring r => exact absurd (hr.symm.trans hfit.2.2.1) nofun

theorem queued_push (s : State) (f : Fault) (e c : ℕ) :
    queued (s.pushFault f) e c = queued s e c + if f.isFor e c then 1 else 0 := by
  simp [queued, State.pushFault, List.countP_append]

theorem isFor_self (va e c : ℕ) : Fault.isFor ⟨va, e, c⟩ e c = true := by simp [Fault.isFor]

theorem isFor_ne {f : Fault} {e' c' : ℕ} (h : ¬(e' = f.engine ∧ c' = f.channel)) :
    f.isFor e' c' = false := by
  rw [Bool.eq_false_iff]
  intro hf
  simp only [Fault.isFor, Bool.and_eq_true, beq_iff_eq] at hf
  exact h ⟨hf.1.symm, hf.2.symm⟩

theorem Parking.pushing {c va : ℕ} (h : Parking s) (hpc : (s.eng e).pc = .pushing c va) :
    Parking ((s.pushFault ⟨va, e, c⟩).endVisit e) := by
  have hun : ∀ e' c', ¬(e' = e ∧ c' = c) →
      Untouched s ((s.pushFault ⟨va, e, c⟩).endVisit e) e' c' := by
    intro e' c' hne
    refine ⟨rfl, rfl, rfl, rfl, rfl, rfl, le_refl _, ?_, ?_, rfl⟩
    · by_cases he : e' = e
      · subst he
        have hc : c' ≠ c := fun hc => hne ⟨rfl, hc⟩
        simp [role, State.endVisit, hpc, Ne.symm hc]
      · exact role_frame (State.setPc_eng_ne _ _ _ he) rfl
    · have hq := queued_push s ⟨va, e, c⟩ e' c'
      rw [isFor_ne hne] at hq
      exact hq
  refine ⟨fun e' c' => ?_, fun e' => ?_⟩
  · by_cases hc : e' = e ∧ c' = c
    · obtain ⟨rfl, rfl⟩ := hc
      refine (h.follows e' c').pushing (by simp [role, hpc]) rfl
        (by simp [role, State.endVisit]) ?_ rfl
      have hq := queued_push s ⟨va, e', c'⟩ e' c'
      rw [isFor_self, if_pos rfl] at hq
      exact hq
    · exact (hun e' c' hc).follows (h.follows e' c')
  · by_cases he : e' = e
    · subst he
      simp only [Relies, State.endVisit, State.setPc_pc]
      exact nofun
    · exact (h.relies e').frame (State.setPc_eng_ne _ _ _ he) rfl
        fun c' => (hun e' c' fun hc => he hc.1).spares

theorem Parking.publish {c put : ℕ} (h : Parking s) (hpc : (s.eng e).pc = .publish c put) :
    Parking ((s.setCh e c (s.ch e c).retire).setPc e (.reload c put)) := by
  have hrel := h.relies e
  simp only [Relies, hpc] at hrel
  refine h.own ?_ ?_ fun c' hc' => ?_
  · exact (h.follows e _).retire (by simp [role, hpc]) (by simp) (by simp [role]) rfl rfl
  · simp only [Relies, State.setPc_pc, State.setPc_ch, State.setCh_self]
    exact ⟨hrel.1, hrel.2.1, hrel.2.2⟩
  · simp [role, hpc, Ne.symm hc']

theorem Parking.finishExecute {c put : ℕ} (h : Parking s)
    (hpc : (s.eng e).pc = .executing c put) (out : Outcome) :
    Parking (s.finishExecute e c put out) := by
  have hrel := h.relies e
  simp only [Relies, hpc] at hrel
  cases out with
  | pageFault va r =>
    refine h.own ?_ ?_ fun c' hc' => ?_
    · exact (h.follows e c).fault (by simp [role, hpc]) (State.setCh_self _ _ _ _) (by simp [role])
        rfl rfl
    · simp [Relies]
    · simp [role, hpc, Ne.symm hc']
  | done rc r =>
    refine h.own ?_ ?_ fun c' hc' => ?_
    · exact (h.follows e c).finish (by simp [role, hpc]) (State.setCh_self _ _ _ _) (by simp [role])
        rfl rfl
    · simp only [Relies, State.setPc_pc, State.setPc_ch, State.setCh_self]
      exact hrel
    · simp [role, hpc, Ne.symm hc']

theorem Parking.visit {c put : ℕ} (h : Parking s) (hrole : ∀ c, role s e c = .none)
    (hseen : Seen (s.ch e c) put)
    (hpc : pc = .head c put ∨ pc = .boundary c put ∨ (∃ mixed due, pc = .loadSelf c put mixed due) ∨
      ∃ self due better j stage, pc = .other c put self due better j stage) :
    Parking (s.setPc e pc) := by
  refine h.setPc (fun c => ?_) ?_
  · rw [hrole]
    rcases hpc with rfl | rfl | ⟨_, _, rfl⟩ | ⟨_, _, _, _, _, rfl⟩ <;> simp [role]
  · rcases hpc with rfl | rfl | ⟨_, _, rfl⟩ | ⟨_, _, _, _, _, rfl⟩ <;>
      simpa only [Relies, State.setPc_pc, State.setPc_ch] using hseen

theorem Parking.engineStep (h : Parking s) (hok : startsClean s (.engine e))
    (ht : s.engineStep e = some t) : Parking t := by
  have hrel := h.relies e
  unfold State.engineStep at ht
  split at ht <;> simp only [Option.some.injEq, reduceCtorEq] at ht <;> subst ht
  next i best hpc =>
    simp only [Relies, hpc] at hrel
    have hrole : ∀ c, role s e c = .none := fun c => by simp [role, hpc]
    split_ifs with hi
    · exact h.choose hrole hrel
    · refine h.setPc (fun c => ?_) ?_
      · rw [hrole]
        simp [role]
      · simp only [Relies, State.setPc_pc, State.setPc_scanned]
        have hf := h.follows e (s.scanned e i)
        refine ⟨Nat.lt_of_not_le hi, seenBest_setPc.mpr hrel, hf.get_le, le_refl _, fun hp => ?_⟩
        refine hf.get_lt (hp.imp id fun ho => ?_)
        have hun : Untouched s (s.setPc e (.takeFail i best (s.ch e (s.scanned e i)).put)) e
            (s.scanned e i) := by
          refine .of_eq rfl ?_ rfl rfl
          rw [hrole]
          simp [role]
        exact hun.outstanding ▸ ho
  next i best put hpc => exact h.takeFail hpc
  next i best hpc => exact h.failRetire hpc
  next i best put hpc => exact h.loadParked hpc
  next i best put hpc =>
    simp only [Relies, hpc] at hrel
    have hrole : ∀ c, role s e c = .none := fun c => by simp [role, hpc]
    split_ifs with hw
    · exact h.next hrole hrel.2.1
    · refine h.setPc (fun c => ?_) ?_
      · rw [hrole]
        simp [role]
      · simp only [Relies, State.setPc_pc, State.setPc_scanned]
        exact ⟨hrel.1, seenBest_setPc.mpr hrel.2.1, hrel.2.2⟩
  next i best put hpc =>
    simp only [Relies, hpc] at hrel
    obtain ⟨hi, hb, hseen⟩ := hrel
    have hrole : ∀ c, role s e c = .none := fun c => by simp [role, hpc]
    refine h.setPc (fun c => ?_) ?_
    · rw [hrole]
      simp [role]
    · simp only [Relies, State.setPc_pc]
      exact seenBest_setPc.mpr (hb.better hi hseen)
  next c put hpc => exact h.atHead hpc hok
  next c va hpc => exact h.pushing hpc
  next c put hpc => exact h.publish hpc
  next c put hpc =>
    simp only [Relies, hpc] at hrel
    obtain ⟨hp, hg, hle⟩ := hrel
    have hrole : ∀ c, role s e c = .none := fun c => by simp [role, hpc]
    have hle' := (h.follows e c).get_le
    split_ifs with h₁ h₂
    · exact h.endVisit hrole
    · exact h.visit hrole ⟨hp, by omega, le_refl _⟩ (.inr (.inl rfl))
    · exact h.visit hrole ⟨hp, by omega, hle⟩ (.inr (.inl rfl))
  next c put mixed due hpc =>
    simp only [Relies, hpc] at hrel
    have hrole : ∀ c, role s e c = .none := fun c => by simp [role, hpc]
    exact h.visit hrole hrel (.inr (.inr (.inr ⟨_, _, _, _, _, rfl⟩)))
  next c put self due better j stage hpc =>
    simp only [Relies, hpc] at hrel
    have hrole : ∀ c, role s e c = .none := fun c => by simp [role, hpc]
    simp only [State.otherStep, State.noOther]
    split_ifs
    · exact h.visit hrole hrel (.inr (.inr (.inr ⟨_, _, _, _, _, rfl⟩)))
    · exact h.visit hrole hrel (.inl rfl)
    · split
      · exact h.visit hrole hrel (.inr (.inr (.inr ⟨_, _, _, _, _, rfl⟩)))
      · exact h.endVisit hrole
    · exact h.visit hrole hrel (.inr (.inr (.inr ⟨_, _, _, _, _, rfl⟩)))

/-! ### The fault thread and the submitters -/

variable {f : Fault}

theorem Parking.service (h : Parking s) (heng : t.eng = s.eng)
    (hn : t.numChannels = s.numChannels)
    (hch : ∀ e c, ¬(e = f.engine ∧ c = f.channel) → t.ch e c = s.ch e c)
    (hrest : ∀ e c, f.isFor e c = false →
      queued t e c = queued s e c ∧ task t.handler e c = task s.handler e c)
    (hf : Follows t f.engine f.channel) (hsp : Spares s t f.engine f.channel) : Parking t := by
  have hrole : ∀ e c, role t e c = role s e c := fun e c => role_frame (by rw [heng]) hn
  have hun : ∀ e c, ¬(e = f.engine ∧ c = f.channel) → Untouched s t e c := by
    intro e c hne
    have hch := hch e c hne
    obtain ⟨hq, hk⟩ := hrest e c (isFor_ne hne)
    exact ⟨by rw [hch], by rw [hch], by rw [hch], by rw [hch], by rw [hch], by rw [hch],
      by rw [hch], hrole e c, hq, hk⟩
  refine ⟨fun e c => ?_, fun e => (h.relies e).frame (by rw [heng]) hn fun c => ?_⟩
  · by_cases hc : e = f.engine ∧ c = f.channel
    · obtain ⟨rfl, rfl⟩ := hc
      exact hf
    · exact (hun e c hc).follows (h.follows e c)
  · by_cases hc : e = f.engine ∧ c = f.channel
    · obtain ⟨rfl, rfl⟩ := hc
      exact hsp
    · exact (hun e c hc).spares

theorem isFor_engine (f : Fault) : f.isFor f.engine f.channel = true := by simp [Fault.isFor]

theorem Follows.pop {fs : List Fault} (h : Follows s f.engine f.channel)
    (hfs : s.faults = f :: fs) :
    Follows { s with faults := fs, handler := .migrating f } f.engine f.channel := by
  have hq : queued s f.engine f.channel = fs.countP (fun g => g.isFor f.engine f.channel) + 1 := by
    rw [queued, hfs, List.countP_cons, if_pos (isFor_engine f)]
  obtain ⟨⟨n, st, ph⟩, hrun, hnext, hst, hfit⟩ := h
  cases ph with
  | parked r =>
    obtain ⟨hrep, hlt, hf, hp, ⟨-, hq₀, -⟩ | ⟨hr, hq₁, -⟩ | ⟨-, hq₀, -⟩⟩ := hfit
    · omega
    · refine ⟨_, hrun, hnext, hst, hrep, hlt, hf, hp, .inr (.inr ⟨hr, ?_, ?_⟩)⟩
      · exact Nat.succ_injective (hq.symm.trans hq₁)
      · simp [task, isFor_engine]
    · omega
  | ready r => exact absurd hfit.2.2.2.1 (by omega)
  | running => exact absurd hfit.2.2.1 (by omega)
  | failed rc => exact absurd hfit.2.2.2.1 (by omega)
  | retiring r => exact absurd hfit.2.2.2.1 (by omega)

theorem Parking.popFault {fs : List Fault} (h : Parking s) (hh : s.handler = .idle)
    (hfs : s.faults = f :: fs) : Parking { s with faults := fs, handler := .migrating f } := by
  refine h.service (f := f) rfl rfl (fun _ _ _ => rfl) (fun e c hne => ?_)
    ((h.follows f.engine f.channel).pop hfs) ⟨rfl, le_refl _, id, fun hp => hp.imp id fun _ => ?_⟩
  · refine ⟨?_, by simp [task, hh, hne]⟩
    rw [queued, queued, hfs, List.countP_cons, hne]
    rfl
  · have hq : 0 < queued s f.engine f.channel := by
      rw [queued, hfs, List.countP_cons, if_pos (isFor_engine f)]
      omega
    rw [outstanding]
    omega

theorem Follows.serviced (rc : ℤ) {k : Handler} (h : Follows s e c)
    (hk : task s.handler e c = .migrating)
    (hch : t.ch e c = (s.ch e c).note (.serviced rc)) (hrole : role t e c = role s e c)
    (hq : queued t e c = queued s e c) (hh : t.handler = k)
    (hk' : task k e c = if rc = 0 then .unparking else .failing rc) : Follows t e c := by
  obtain ⟨⟨n, st, ph⟩, hrun, hnext, hst, hfit⟩ := h
  cases ph with
  | parked r =>
    obtain ⟨hrep, hlt, hf, hp, ⟨-, -, h'⟩ | ⟨-, -, h'⟩ | ⟨hr, hq₀, -⟩⟩ := hfit
    · exact absurd (hk.symm.trans h') nofun
    · exact absurd (hk.symm.trans h') nofun
    · by_cases hrc : rc = 0
      · subst hrc
        refine .of_step hch hrun .resume rfl hnext hst ?_
        rw [hrole, hq, hh, hk', hr]
        exact ⟨hrep, hlt.le, rfl, hq₀, hf, .inr ⟨rfl, hp⟩⟩
      · refine .of_step hch hrun (.fail hrc) rfl hnext hst ?_
        rw [hrole, hq, hh, hk', if_neg hrc, hr]
        exact ⟨hrc, hlt, rfl, hq₀, .inl ⟨rfl, hp, hf⟩⟩
  | ready r =>
    obtain ⟨-, -, -, -, -, ⟨h', -⟩ | ⟨h', -⟩⟩ := hfit <;> exact absurd (hk.symm.trans h') nofun
  | running => exact absurd (hk.symm.trans hfit.2.2.2.2.1) nofun
  | failed rc' =>
    obtain ⟨-, -, -, -, ⟨h', -⟩ | ⟨-, ⟨h', -⟩ | ⟨h', -⟩⟩⟩ := hfit <;>
      exact absurd (hk.symm.trans h') nofun
  | retiring r =>
    obtain ⟨-, -, -, -, -, ⟨h', -⟩ | ⟨h', -⟩⟩ := hfit <;> exact absurd (hk.symm.trans h') nofun

theorem Parking.serviced {rc : ℤ} (h : Parking s) (ht : s.serviced rc = some t) : Parking t := by
  unfold State.serviced at ht
  split at ht
  next f hh =>
    obtain rfl := Option.some.inj ht
    have hk : task s.handler f.engine f.channel = .migrating := by simp [task, hh, isFor_engine]
    refine h.service (f := f) rfl rfl (fun e c hne => s.setCh_ne _ _ _ hne)
      (fun e c hne => ?_) ?_ ?_
    · refine ⟨rfl, ?_⟩
      by_cases hrc : rc = 0 <;> simp [task, hh, hne, hrc]
    · refine (h.follows f.engine f.channel).serviced rc hk (State.setCh_self _ _ _ _) rfl rfl
        rfl ?_
      by_cases hrc : rc = 0 <;> simp [task, isFor_engine, hrc]
    · have hget := s.setCh_field f.engine f.channel
        ((s.ch f.engine f.channel).note (.serviced rc)) Chan.get rfl f.engine f.channel
      refine ⟨hget, ?_, fun hp => ?_, fun hp => ?_⟩
      · simp [Chan.note]
      · simpa [Chan.note] using hp
      · refine .inr ?_
        simp only [outstanding, hk]
        omega
  next => cases ht

theorem Follows.storeFail {rc : ℤ} (h : Follows s e c) (hk : task s.handler e c = .failing rc)
    (hch : t.ch e c = { s.ch e c with faultFail := rc }) (hrole : role t e c = role s e c)
    (hq : queued t e c = queued s e c) (hk' : task t.handler e c = .unparking) :
    Follows t e c := by
  obtain ⟨⟨n, st, ph⟩, hrun, hnext, hst, hfit⟩ := h
  cases ph with
  | failed rc' =>
    obtain ⟨hrc, hlt, hr, hq₀, ⟨h', hp, hf⟩ | ⟨-, ⟨h', -⟩ | ⟨h', -⟩⟩⟩ := hfit
    · obtain rfl : rc = rc' := Task.failing.inj (hk.symm.trans h')
      refine ⟨⟨n, st, .failed rc⟩, ?_, ?_, ?_, ?_⟩
      · rw [hch]
        exact hrun
      · rw [hch]
        exact hnext
      · rw [hch]
        exact hst
      · rw [hch, hrole, hq, hk', hr]
        exact ⟨hrc, hlt, rfl, hq₀, .inr ⟨rfl, .inr ⟨rfl, hp⟩⟩⟩
    · exact absurd (hk.symm.trans h') nofun
    · exact absurd (hk.symm.trans h') nofun
  | ready r =>
    obtain ⟨-, -, -, -, -, ⟨h', -⟩ | ⟨h', -⟩⟩ := hfit <;> exact absurd (hk.symm.trans h') nofun
  | running => exact absurd (hk.symm.trans hfit.2.2.2.2.1) nofun
  | parked r =>
    obtain ⟨-, -, -, -, ⟨-, -, h'⟩ | ⟨-, -, h'⟩ | ⟨-, -, h'⟩⟩ := hfit <;>
      exact absurd (hk.symm.trans h') nofun
  | retiring r =>
    obtain ⟨-, -, -, -, -, ⟨h', -⟩ | ⟨h', -⟩⟩ := hfit <;> exact absurd (hk.symm.trans h') nofun

theorem Parking.storeFail {rc : ℤ} (h : Parking s) (hh : s.handler = .failing f rc) :
    Parking { s.setCh f.engine f.channel { s.ch f.engine f.channel with faultFail := rc } with
      handler := .unparking f } := by
  have hk : task s.handler f.engine f.channel = .failing rc := by simp [task, hh, isFor_engine]
  refine h.service (f := f) rfl rfl (fun e c hne => s.setCh_ne _ _ _ hne) (fun e c hne => ?_) ?_ ?_
  · exact ⟨rfl, by simp [task, hh, hne]⟩
  · exact (h.follows f.engine f.channel).storeFail hk (State.setCh_self _ _ _ _) rfl rfl
      (by simp [task, isFor_engine])
  · refine ⟨?_, ?_, fun hp => ?_, fun hp => .inr ?_⟩
    · simp
    · simp
    · simpa using hp
    · simp only [outstanding, hk]
      omega

theorem Follows.unpark (h : Follows s e c) (hk : task s.handler e c = .unparking)
    (hch : t.ch e c = { s.ch e c with parked := false }) (hrole : role t e c = role s e c)
    (hq : queued t e c = queued s e c) (hk' : task t.handler e c = .none) : Follows t e c := by
  obtain ⟨l, hrun, hnext, hst, hfit⟩ := h
  refine ⟨l, ?_, ?_, ?_, ?_⟩
  · rw [hch]
    exact hrun
  · rw [hch]
    exact hnext
  · rw [hch]
    exact hst
  rw [hch, hrole, hq, hk']
  obtain ⟨n, st, ph⟩ := l
  cases ph with
  | ready r =>
    obtain ⟨hrep, hle, hr, hq₀, hf, -⟩ := hfit
    exact ⟨hrep, hle, hr, hq₀, hf, .inl ⟨rfl, rfl⟩⟩
  | running => exact absurd (hk.symm.trans hfit.2.2.2.2.1) nofun
  | parked r =>
    obtain ⟨-, -, -, -, ⟨-, -, h'⟩ | ⟨-, -, h'⟩ | ⟨-, -, h'⟩⟩ := hfit <;>
      exact absurd (hk.symm.trans h') nofun
  | failed rc =>
    obtain ⟨hrc, hlt, hr, hq₀, ⟨h', -⟩ | ⟨hf, -⟩⟩ := hfit
    · exact absurd (hk.symm.trans h') nofun
    · exact ⟨hrc, hlt, hr, hq₀, .inr ⟨hf, .inl ⟨rfl, rfl⟩⟩⟩
  | retiring r =>
    obtain ⟨hrep, hlt, hr, hq₀, hf, -⟩ := hfit
    exact ⟨hrep, hlt, hr, hq₀, hf, .inl ⟨rfl, rfl⟩⟩

theorem Parking.unpark (h : Parking s) (hh : s.handler = .unparking f) :
    Parking { s.setCh f.engine f.channel { s.ch f.engine f.channel with parked := false } with
      handler := .idle } := by
  have hk : task s.handler f.engine f.channel = .unparking := by simp [task, hh, isFor_engine]
  refine h.service (f := f) rfl rfl (fun e c hne => s.setCh_ne _ _ _ hne) (fun e c hne => ?_) ?_ ?_
  · exact ⟨rfl, by simp [task, hh, hne]⟩
  · exact (h.follows f.engine f.channel).unpark hk (State.setCh_self _ _ _ _) rfl rfl rfl
  · refine ⟨by simp, by simp, fun _ => by simp, fun hp => hp.imp (fun hf => ?_) fun ho => ?_⟩
    · simpa using hf
    · simp only [outstanding, hk]
      exact ho

theorem Parking.outside (h : Parking s) (heng : t.eng = s.eng) (hn : t.numChannels = s.numChannels)
    (hh : t.handler = s.handler) (hfs : t.faults = s.faults)
    (hch : ∀ e c, (t.ch e c).log = (s.ch e c).log ∧ (t.ch e c).get = (s.ch e c).get ∧
      (t.ch e c).stickyError = (s.ch e c).stickyError ∧ (t.ch e c).replay = (s.ch e c).replay ∧
      (t.ch e c).parked = (s.ch e c).parked ∧ (t.ch e c).faultFail = (s.ch e c).faultFail ∧
      (s.ch e c).put ≤ (t.ch e c).put) : Parking t := by
  have hun : ∀ e c, Untouched s t e c := by
    intro e c
    obtain ⟨h₁, h₂, h₃, h₄, h₅, h₆, h₇⟩ := hch e c
    exact ⟨h₁, h₂, h₃, h₄, h₅, h₆, h₇, role_frame (by rw [heng]) hn,
      by rw [queued, queued, hfs], by rw [hh]⟩
  exact ⟨fun e c => (hun e c).follows (h.follows e c),
    fun e => (h.relies e).frame (by rw [heng]) hn fun c => (hun e c).spares⟩

theorem Parking.step {a : Action} (h : Parking s) (hok : startsClean s a)
    (hs : step s a = some t) : Parking t := by
  cases a with
  | engine e =>
    simp only [Runlist.step, Option.ite_none_right_eq_some] at hs
    exact h.engineStep hok hs.2
  | execute e out =>
    simp only [Runlist.step] at hs
    split at hs
    next c put hpc =>
      simp only [Option.ite_none_right_eq_some, Option.some.injEq] at hs
      exact hs.2 ▸ h.finishExecute hpc out
    next => cases hs
  | boundary e due =>
    simp only [Runlist.step] at hs
    split at hs
    next c put hpc =>
      simp only [Option.ite_none_right_eq_some, Option.some.injEq] at hs
      obtain ⟨-, rfl⟩ := hs
      have hrel := h.relies e
      simp only [Relies, hpc] at hrel
      have hrole : ∀ c, role s e c = .none := fun c => by simp [role, hpc]
      simp only [State.atBoundary]
      split_ifs
      · exact h.visit hrole hrel (.inr (.inr (.inl ⟨_, _, rfl⟩)))
      · exact h.visit hrole hrel (.inl rfl)
    next => cases hs
  | popFault =>
    simp only [Runlist.step] at hs
    split at hs
    next f fs hh hfs =>
      obtain rfl := Option.some.inj hs
      exact h.popFault hh hfs
    next => cases hs
  | serviced rc => exact h.serviced hs
  | storeFail =>
    simp only [Runlist.step] at hs
    split at hs
    next f rc hh =>
      obtain rfl := Option.some.inj hs
      exact h.storeFail hh
    next => cases hs
  | unpark =>
    simp only [Runlist.step] at hs
    split at hs
    next f hh =>
      obtain rfl := Option.some.inj hs
      exact h.unpark hh
    next => cases hs
  | submit e c cmds =>
    simp only [Runlist.step, Option.ite_none_right_eq_some, Option.some.injEq] at hs
    obtain ⟨-, rfl⟩ := hs
    refine h.outside rfl rfl rfl rfl fun e' c' => ?_
    by_cases hc : e' = e ∧ c' = c
    · obtain ⟨rfl, rfl⟩ := hc
      simp [Chan.publish]
    · simp [s.setCh_ne e c _ hc]
  | setPriority e c p =>
    simp only [Runlist.step, Option.ite_none_right_eq_some, Option.some.injEq] at hs
    obtain ⟨-, rfl⟩ := hs
    refine h.outside rfl rfl rfl rfl fun e' c' => ?_
    by_cases hc : e' = e ∧ c' = c
    · obtain ⟨rfl, rfl⟩ := hc
      simp
    · simp [s.setCh_ne e c _ hc]
  | setMixed =>
    simp only [Runlist.step, Option.ite_none_right_eq_some, Option.some.injEq] at hs
    obtain ⟨-, rfl⟩ := hs
    exact h.outside rfl rfl rfl rfl fun _ _ => ⟨rfl, rfl, rfl, rfl, rfl, rfl, le_refl _⟩

theorem Follows.parked_iff (h : Follows s e c) : outstanding s e c ≤ 1 ∧
    ((s.ch e c).parked = true ↔
      outstanding s e c = 1 ∨ task s.handler e c = .unparking) := by
  obtain ⟨⟨n, st, ph⟩, -, -, -, hfit⟩ := h
  cases ph with
  | ready r =>
    obtain ⟨-, -, hr, hq, -, ⟨hk, hp⟩ | ⟨hk, hp⟩⟩ := hfit <;> simp [outstanding, hr, hq, hk, hp]
  | running =>
    obtain ⟨-, hr, hq, -, hk, hp⟩ := hfit
    simp [outstanding, hr, hq, hk, hp]
  | parked r =>
    obtain ⟨-, -, -, hp, ⟨hr, hq, hk⟩ | ⟨hr, hq, hk⟩ | ⟨hr, hq, hk⟩⟩ := hfit <;>
      simp [outstanding, hr, hq, hk, hp]
  | failed rc =>
    obtain ⟨-, -, hr, hq, ⟨hk, hp, -⟩ | ⟨-, ⟨hk, hp⟩ | ⟨hk, hp⟩⟩⟩ := hfit <;>
      simp [outstanding, hr, hq, hk, hp]
  | retiring r =>
    obtain ⟨-, -, hr, hq, -, ⟨hk, hp⟩ | ⟨hk, hp⟩⟩ := hfit <;> simp [outstanding, hr, hq, hk, hp]

theorem Relies.starts {a : Action} (h : Relies s e) (hst : starts s e a = some c) :
    (s.ch e c).parked = false := by
  cases a with
  | engine e' =>
    simp only [Runlist.starts] at hst
    split at hst
    next c' put hpc =>
      simp only [Option.ite_none_right_eq_some, Option.some.injEq] at hst
      obtain ⟨-, rfl⟩ := hst
      simp only [Relies, hpc] at h
      exact h.1
    next => cases hst
  | _ => cases hst

/-- In a run in which no command starts while a failed migration of its channel waits
to be taken: a channel has at most one fault, it is parked exactly while the fault is
under way or the unpark is to come, no command of it starts or executes meanwhile, and
its log is the life of a channel: every command is retired once and in order, and one
that faults is resumed from its replay state or, if the migration fails, retired with
that error. -/
theorem park_protocol {engines channels : ℕ}
    (h : Reach step startsClean (.new engines channels) s) (e c : ℕ) :
    outstanding s e c ≤ 1 ∧
    ((s.ch e c).parked = true ↔ outstanding s e c = 1 ∨ task s.handler e c = .unparking) ∧
    (∀ put, (s.eng e).pc = .executing c put → (s.ch e c).parked = false) ∧
    (∀ a, starts s e a = some c → (s.ch e c).parked = false) ∧
    ∃ l, Life.Run (s.ch e c).log l ∧ l.next = (s.ch e c).get ∧
      l.sticky = (s.ch e c).stickyError := by
  have hp : Parking s := h.invariant (P := Parking) (.new engines channels)
    fun _ _ _ hi hok hs => hi.step hok hs
  obtain ⟨hone, hiff⟩ := (hp.follows e c).parked_iff
  refine ⟨hone, hiff, fun put hpc => ?_, fun a hst => (hp.relies e).starts hst, ?_⟩
  · have hrel := hp.relies e
    simp only [Relies, hpc] at hrel
    exact hrel.1
  · obtain ⟨l, hrun, hnext, hst, -⟩ := hp.follows e c
    exact ⟨l, hrun, hnext, hst⟩

def mover : Action → Option ℕ
  | .engine e => some e
  | _ => none

theorem startsClean_iff {a : Action} : startsClean s a ↔
    ∀ e ∈ mover a, ∀ c ∈ starts s e a, (s.ch e c).faultFail = 0 := by
  constructor
  · intro h e _ c hc
    exact h e c hc
  · intro h e c hst
    cases a with
    | engine e' =>
      have he : e' = e := by
        simp only [starts] at hst
        split at hst
        · exact (Option.ite_none_right_eq_some.mp hst).1.1
        · cases hst
      subst he
      exact h e' rfl c hst
    | _ => cases hst

instance (a : Action) : Decidable (startsClean s a) := decidable_of_iff _ startsClean_iff.symm

/-- The first of two commands faults and its migration fails; the scan finds the
failure, retires the command and goes on with the second one. -/
def failedAlone : List Action :=
  [.submit 0 0 [.work, .work]] ++ List.replicate 7 (.engine 0) ++
    [.execute 0 (.pageFault 4096 .init), .engine 0, .popFault, .serviced (-12), .storeFail,
      .unpark] ++ List.replicate 11 (.engine 0)

theorem park_protocol_failedAlone : ∃ s, Reach step startsClean (.new 1 1) s ∧
    (s.eng 0).pc = .executing 0 2 ∧ (s.ch 0 0).parked = false ∧ (s.ch 0 0).get = 1 ∧
    (s.ch 0 0).stickyError = -12 ∧ outstanding s 0 0 ≤ 1 ∧
    ∃ l, Life.Run (s.ch 0 0).log l ∧ l.next = 1 ∧ l.sticky = -12 := by
  have hrun : (exec (when startsClean step) (.new 1 1) failedAlone).map (fun s =>
      decide ((s.eng 0).pc = .executing 0 2 ∧ (s.ch 0 0).get = 1 ∧
        (s.ch 0 0).stickyError = -12)) = some true := by
    decide +kernel
  obtain ⟨s, hs, hq⟩ := Option.map_eq_some_iff.mp hrun
  have hreach : Reach step startsClean (.new 1 1) s := .of_exec_when .refl hs
  obtain ⟨hpc, hget, hsticky⟩ := of_decide_eq_true hq
  obtain ⟨hone, -, hexec, -, l, hlife, hnext, hst⟩ := park_protocol hreach 0 0
  exact ⟨s, hreach, hpc, hexec 2 hpc, hget, hsticky, hone, l, hlife, hnext.trans hget,
    hst.trans hsticky⟩

def started (log : List Event) : List ℕ :=
  log.filterMap fun
    | .start k _ => some k
    | _ => none

def retired (log : List Event) : List ℕ :=
  log.filterMap fun
    | .retire k => some k
    | _ => none

/-- The first of two commands faults. Its migration fails between the scan's look at
`fault_fail` and its look at `parked`, so the command starts again and faults again. -/
def restarted : List Action :=
  [.submit 0 0 [.work, .work]] ++ List.replicate 7 (.engine 0) ++
    [.execute 0 (.pageFault 4096 .init), .engine 0, .popFault, .engine 0, .engine 0,
      .serviced (-12), .storeFail, .unpark] ++ List.replicate 5 (.engine 0) ++
    [.execute 0 (.pageFault 4096 .init), .engine 0]

def skipped : List Action :=
  List.replicate 4 (.engine 0) ++ [.popFault, .serviced (-12), .storeFail, .unpark] ++
    List.replicate 3 (.engine 0)

/-- The second command is retired without having been started. -/
theorem skipped_not_executed : ∃ s, Reach step anyStep (.new 1 1) s ∧
    (s.ch 0 0).ring 1 = .work ∧ (s.ch 0 0).get = 2 ∧ started (s.ch 0 0).log = [0, 0] ∧
    retired (s.ch 0 0).log = [1, 0] := by
  have hrun : (exec step (.new 1 1) (restarted ++ skipped)).map (fun s =>
      decide ((s.ch 0 0).ring 1 = .work ∧ (s.ch 0 0).get = 2 ∧
        started (s.ch 0 0).log = [0, 0] ∧ retired (s.ch 0 0).log = [1, 0])) = some true := by
    decide +kernel
  obtain ⟨s, hs, hq⟩ := Option.map_eq_some_iff.mp hrun
  exact ⟨s, .of_exec .refl hs, of_decide_eq_true hq⟩

end SoftGpu.Runlist
