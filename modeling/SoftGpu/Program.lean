import SoftGpu.Concurrent
import SoftGpu.HappensBefore

/-!
# Programs

The rings, streams and events of all channels over the memory that their commands work on. An
engine starts the command at GET and attempts it until it retires; in between its channel is parked
and pages move. A program has no race if of two commands that conflict one comes before the other.
-/

namespace SoftGpu.Program
open Machine Footprint
open Footprint.Job (Conflict)
open Staging (Chan)
open Submit (Slot Before Works Reached)

structure Config (Sid : Type*) where
  submit : Submit.Config Sid
  floats : Exec.Floats
  op : Chan → ℕ → Exec.Cmd

structure State (Tid Sid Ev : Type*) where
  submit : Submit.State Tid Sid Ev
  engines : Concurrent.State

inductive Action (Tid Sid Ev : Type*)
  | submit (a : Submit.Action Tid Sid Ev)
  | attempt (r : Chan)
  | memory (a : Concurrent.Action)

variable {Tid Sid Ev : Type*}

def init (w : Exec.World) : State Tid Sid Ev := ⟨Submit.init, Concurrent.init w⟩

def opcode : Submit.Cmd → Exec.Opcode
  | .nop => .nop
  | .fill => .fill
  | .copyH2D => .copyH2D
  | .copyD2H => .copyD2H
  | .copyD2D => .copyD2D
  | .vadd => .vaddF32
  | .gemm => .gemmF32
  | .wait _ => .waitFence

def ended : Exec.Outcome Unit → Ring.Action Tid Submit.Cmd
  | .pageFault _ => .park
  | .done _ => .retire false
  | _ => .retire true

/-- The run loop is at a `WAIT_FENCE`, which it does not pass to `execute`. -/
def waiting (y : Ring.State Tid Submit.Cmd) : Bool :=
  match y.engine with
  | .executing _ c => c.semaphore
  | _ => false

variable [DecidableEq Tid] [DecidableEq Sid] [DecidableEq Ev]

def State.start (cfg : Config Sid) (s : State Tid Sid Ev) (r : Chan) (y : Submit.State Tid Sid Ev) :
    Option (State Tid Sid Ev) :=
  let c := Submit.head cfg.submit (s.submit.ring r)
  let op := cfg.op r (s.submit.ring r).get
  if c.semaphore then some ⟨y, s.engines⟩
  else if opcode c = op.opcode then
    match s.engines.cmd r with
    | none => (Concurrent.step cfg.floats s.engines (.start r op)).map fun z => ⟨y, z⟩
    | some _ => some ⟨y, s.engines⟩
  else none

def State.submitted (cfg : Config Sid) (s : State Tid Sid Ev) (y : Submit.State Tid Sid Ev) :
    Submit.Action Tid Sid Ev → Option (State Tid Sid Ev)
  | .device r .start => s.start cfg r y
  | .device r (.retire err) =>
    if waiting (s.submit.ring r) && !err then some ⟨y, s.engines⟩ else none
  | .device _ .park => none
  | .device r .failHead =>
    if (y.ring r).get = (s.submit.ring r).get then some ⟨y, s.engines⟩
    else (Concurrent.step cfg.floats s.engines (.abandon r)).map fun z => ⟨y, z⟩
  | _ => some ⟨y, s.engines⟩

def State.attempt (cfg : Config Sid) (s : State Tid Sid Ev) (r : Chan) (c : Exec.Cmd) :
    Option (State Tid Sid Ev) :=
  let o := (Exec.execute cfg.floats r.1 s.engines.world (s.engines.replay r) c).1
  (Submit.step cfg.submit s.submit (.device r (ended o))).map fun y =>
    ⟨y, s.engines.attempt cfg.floats r c⟩

def step (cfg : Config Sid) (s : State Tid Sid Ev) : Action Tid Sid Ev → Option (State Tid Sid Ev)
  | .submit a => (Submit.step cfg.submit s.submit a).bind fun y => s.submitted cfg y a
  | .attempt r => (s.engines.cmd r).bind fun c => s.attempt cfg r c
  | .memory (.page a) =>
    (Concurrent.step cfg.floats s.engines (.page a)).map fun z => ⟨s.submit, z⟩
  | .memory (.host o) =>
    (Concurrent.step cfg.floats s.engines (.host o)).map fun z => ⟨s.submit, z⟩
  | .memory _ => none

/-- Runs of `Submit.orderly` in which `madvise` drops pages and the host's accesses are free of
races with the commands in progress. -/
def calm (cfg : Config Sid) (x : Exec.Ctx) (s : State Tid Sid Ev) : Action Tid Sid Ev → Prop
  | .submit a => Submit.orderly s.submit a
  | .attempt _ => True
  | .memory a => Concurrent.raceFree cfg.floats x s.engines a

def Config.job (cfg : Config Sid) (b : Slot) : Job Exec.Place UInt8 :=
  ((cfg.op b.1 b.2).job cfg.floats).toJob

def RaceFree (cfg : Config Sid) (s : State Tid Sid Ev) : Prop :=
  ∀ a b : Slot, a ≠ b → Works s.submit a → Works s.submit b → Conflict (cfg.job a) (cfg.job b) →
    Before s.submit a b ∨ Before s.submit b a

def Apart (cfg : Config Sid) (s : State Tid Sid Ev) : Prop :=
  ∀ r p c d, r ≠ p → s.engines.cmd r = some c → s.engines.cmd p = some d →
    ¬Conflict (c.job cfg.floats).toJob (d.job cfg.floats).toJob

variable {cfg : Config Sid} {x : Exec.Ctx} {s s' : State Tid Sid Ev} {w : Exec.World}

/-! ### The two machines -/

inductive Effect (cfg : Config Sid) (x : Exec.Ctx) (s s' : State Tid Sid Ev) : Prop
  | rings (b : Submit.Action Tid Sid Ev) : Submit.orderly s.submit b →
      Submit.step cfg.submit s.submit b = some s'.submit →
      (∀ r, (s'.submit.ring r).get = (s.submit.ring r).get) → s'.engines = s.engines →
      Effect cfg x s s'
  | start (r : Chan) : Submit.orderly s.submit (.device r .start) →
      Submit.step cfg.submit s.submit (.device r .start) = some s'.submit →
      (Submit.head cfg.submit (s.submit.ring r)).semaphore = false → s.engines.cmd r = none →
      Concurrent.step cfg.floats s.engines (.start r (cfg.op r (s.submit.ring r).get)) =
        some s'.engines → Effect cfg x s s'
  | waited (r : Chan) (err : Bool) : Submit.orderly s.submit (.device r (.retire err)) →
      Submit.step cfg.submit s.submit (.device r (.retire err)) = some s'.submit →
      waiting (s.submit.ring r) = true → s'.engines = s.engines → Effect cfg x s s'
  | failed (r : Chan) : Submit.orderly s.submit (.device r .failHead) →
      Submit.step cfg.submit s.submit (.device r .failHead) = some s'.submit →
      Concurrent.step cfg.floats s.engines (.abandon r) = some s'.engines → Effect cfg x s s'
  | attempt (r : Chan) (c : Exec.Cmd) : s.engines.cmd r = some c →
      Submit.step cfg.submit s.submit (.device r (ended (Exec.execute cfg.floats r.1
        s.engines.world (s.engines.replay r) c).1)) = some s'.submit →
      s'.engines = s.engines.attempt cfg.floats r c → Effect cfg x s s'
  | memory (b : Concurrent.Action) : Concurrent.raceFree cfg.floats x s.engines b →
      Concurrent.step cfg.floats s.engines b = some s'.engines → s'.submit = s.submit →
      s'.engines.cmd = s.engines.cmd → Effect cfg x s s'

theorem step_cases {a : Action Tid Sid Ev} (hi : Submit.Inv cfg.submit s.submit)
    (hok : calm cfg x s a) (hs : step cfg s a = some s') : Effect cfg x s s' := by
  cases a with
  | submit a =>
    simp only [step, Option.bind_eq_some_iff] at hs
    obtain ⟨y, hy, hs⟩ := hs
    have hget := Submit.step_get hi hy
    unfold State.submitted at hs
    split at hs
    · next r =>
      have hsame : ∀ p, (y.ring p).get = (s.submit.ring p).get := by
        intro p
        obtain h | ⟨err, h⟩ | h := hget p
        · exact h
        · cases h
        · cases h
      simp only [State.start] at hs
      split_ifs at hs with hsem hop
      · obtain rfl := Option.some.inj hs
        exact .rings _ hok hy hsame rfl
      · cases hc : s.engines.cmd r with
        | none =>
          simp only [hc, Option.map_eq_some_iff] at hs
          obtain ⟨z, hz, rfl⟩ := hs
          exact .start r hok hy (by simpa using hsem) hc hz
        | some c =>
          simp only [hc] at hs
          obtain rfl := Option.some.inj hs
          exact .rings _ hok hy hsame rfl
    · next r err =>
      simp only [Option.ite_none_right_eq_some, Option.some.injEq, Bool.and_eq_true] at hs
      obtain ⟨⟨hw, -⟩, rfl⟩ := hs
      exact .waited r err hok hy hw rfl
    · cases hs
    · next r =>
      split_ifs at hs with hsame
      · obtain rfl := Option.some.inj hs
        refine .rings _ hok hy (fun p => ?_) rfl
        obtain h | ⟨err, h⟩ | h := hget p
        · exact h
        · cases h
        · cases h
          exact hsame
      · simp only [Option.map_eq_some_iff] at hs
        obtain ⟨z, hz, rfl⟩ := hs
        exact .failed r hok hy hz
    · next hstart hretire hpark hfail =>
      obtain rfl := Option.some.inj hs
      refine .rings _ hok hy (fun p => ?_) rfl
      obtain h | ⟨err, h⟩ | h := hget p
      · exact h
      · exact (hretire p err h).elim
      · exact (hfail p h).elim
  | attempt r =>
    simp only [step, State.attempt, Option.bind_eq_some_iff, Option.map_eq_some_iff] at hs
    obtain ⟨c, hc, y, hy, rfl⟩ := hs
    exact .attempt r c hc hy rfl
  | memory a =>
    cases a with
    | page a =>
      simp only [step, Option.map_eq_some_iff] at hs
      obtain ⟨z, hz, rfl⟩ := hs
      refine .memory (.page a) hok hz rfl ?_
      simp only [Concurrent.step, Option.ite_none_right_eq_some, Option.map_eq_some_iff] at hz
      obtain ⟨-, y, -, rfl⟩ := hz
      rfl
    | host o =>
      simp only [step, Option.map_eq_some_iff] at hs
      obtain ⟨z, hz, rfl⟩ := hs
      refine .memory (.host o) hok hz rfl ?_
      simp only [Concurrent.step, Option.ite_none_right_eq_some, Option.some.injEq] at hz
      obtain ⟨-, rfl⟩ := hz
      rfl
    | _ => cases hs

omit [DecidableEq Tid] [DecidableEq Sid] [DecidableEq Ev] in
theorem orderly_ended (y : Submit.State Tid Sid Ev) (r : Chan) (o : Exec.Outcome Unit) :
    Submit.orderly y (.device r (ended o)) := by
  cases o <;> exact ⟨trivial, trivial⟩

theorem Effect.submit (h : Effect cfg x s s') : s'.submit = s.submit ∨ ∃ b,
    Submit.orderly s.submit b ∧ Submit.step cfg.submit s.submit b = some s'.submit := by
  cases h with
  | rings b hok hs => exact .inr ⟨b, hok, hs⟩
  | start r hok hs => exact .inr ⟨_, hok, hs⟩
  | waited r err hok hs => exact .inr ⟨_, hok, hs⟩
  | failed r hok hs => exact .inr ⟨_, hok, hs⟩
  | attempt r c hc hs => exact .inr ⟨_, orderly_ended .., hs⟩
  | memory b hok hs hsub => exact .inl hsub

theorem reach_submit (hi : Submit.Inv cfg.submit s.submit)
    (h : Reach (step cfg) (calm cfg x) s s') :
    Reach (Submit.step cfg.submit) Submit.orderly s.submit s'.submit ∧
      Submit.Inv cfg.submit s'.submit := by
  induction h with
  | refl => exact ⟨.refl, hi⟩
  | tail _ hok hs ih =>
    obtain ⟨hr, hi'⟩ := ih
    obtain hsame | ⟨b, hb, hstep⟩ := (step_cases hi' hok hs).submit
    · rw [hsame]
      exact ⟨hr, hi'⟩
    · exact ⟨.tail hr hb hstep, Submit.step_inv hi' hstep⟩

/-! ### The commands in progress -/

def Linked (cfg : Config Sid) (s : State Tid Sid Ev) : Prop :=
  ∀ r c, s.engines.cmd r = some c → c = cfg.op r (s.submit.ring r).get ∧
    Works s.submit (r, (s.submit.ring r).get)

omit [DecidableEq Tid] [DecidableEq Sid] [DecidableEq Ev] in
theorem Linked.keep (h : Linked cfg s) (hg : Submit.Grow s.submit.ring s'.submit.ring)
    (hcmd : ∀ r c, s'.engines.cmd r = some c → s.engines.cmd r = some c ∧
      (s'.submit.ring r).get = (s.submit.ring r).get) : Linked cfg s' := by
  intro r c hc
  obtain ⟨hold, hget⟩ := hcmd r c hc
  obtain ⟨heq, d, hd, hwork⟩ := h r c hold
  rw [hget]
  exact ⟨heq, d, hg.issued r _ d hd, hwork⟩

theorem attempt_cmd {e : Concurrent.State} {fl : Exec.Floats} {r p : Chan} {c d : Exec.Cmd}
    (hd : (e.attempt fl r c).cmd p = some d) : e.cmd p = some d ∧
      (p = r → ∃ va, (Exec.execute fl r.1 e.world (e.replay r) c).1 = .pageFault va) := by
  have hupdate : Function.update e.cmd r none p = some d → p ≠ r ∧ e.cmd p = some d := by
    intro h
    by_cases hp : p = r
    · rw [hp, Function.update_self] at h
      cases h
    · rw [Function.update_of_ne hp] at h
      exact ⟨hp, h⟩
  simp only [Concurrent.State.attempt] at hd
  split at hd
  · next va _ _ heq => exact ⟨hd, fun _ => ⟨va, by rw [heq]⟩⟩
  · obtain ⟨hp, h⟩ := hupdate hd
    exact ⟨h, fun hpr => absurd hpr hp⟩
  · obtain ⟨hp, h⟩ := hupdate hd
    exact ⟨h, fun hpr => absurd hpr hp⟩

theorem Effect.linked (hi : Submit.Inv cfg.submit s.submit) (h : Linked cfg s)
    (he : Effect cfg x s s') : Linked cfg s' := by
  cases he with
  | rings b hok hs hget hsame =>
    apply h.keep (Submit.step_grow hi hs)
    intro r c hc
    rw [hsame] at hc
    exact ⟨hc, hget r⟩
  | start r hok hs hsem hnone hz =>
    have hget : ∀ p, (s'.submit.ring p).get = (s.submit.ring p).get := by
      intro p
      obtain h | ⟨err, h⟩ | h := Submit.step_get hi hs p
      · exact h
      · cases h
      · cases h
    have hg := Submit.step_grow hi hs
    have hhead := Submit.start_head hi hs
    simp only [Concurrent.step, Option.ite_none_right_eq_some, Option.some.injEq] at hz
    obtain ⟨-, hz⟩ := hz
    intro p c hc
    rw [← hz] at hc
    by_cases hp : p = r
    · subst hp
      obtain rfl : cfg.op p (s.submit.ring p).get = c := by simpa using hc
      rw [hget]
      exact ⟨rfl, _, hg.issued p _ _ hhead, hsem⟩
    · have hc : s.engines.cmd p = some c := by simpa [hp] using hc
      obtain ⟨heq, d, hd, hwork⟩ := h p c hc
      rw [hget]
      exact ⟨heq, d, hg.issued p _ d hd, hwork⟩
  | waited r err hok hs hw hsame =>
    apply h.keep (Submit.step_grow hi hs)
    intro p c hc
    rw [hsame] at hc
    refine ⟨hc, ?_⟩
    obtain hget | ⟨err', heq⟩ | heq := Submit.step_get hi hs p
    · exact hget
    · -- A channel that is at a wait has no command in progress.
      cases heq
      obtain ⟨-, d, hd, hwork⟩ := h r c hc
      simp only [waiting] at hw
      split at hw
      · next k e hexec =>
        have hrun := ((hi.rings r).engine.running k e hexec).2.2
        dsimp only at hd
        rw [hrun] at hd
        obtain rfl := Option.some.inj hd
        rw [hwork] at hw
        cases hw
      · cases hw
    · cases heq
  | failed r hok hs hz =>
    apply h.keep (Submit.step_grow hi hs)
    obtain hz := Option.some.inj hz
    intro p c hc
    rw [← hz] at hc
    by_cases hp : p = r
    · subst hp
      simp at hc
    · refine ⟨by simpa [hp] using hc, ?_⟩
      obtain hget | ⟨err, heq⟩ | heq := Submit.step_get hi hs p
      · exact hget
      · cases heq
      · cases heq
        exact absurd rfl hp
  | attempt r c hc hs hz =>
    apply h.keep (Submit.step_grow hi hs)
    intro p d hd
    rw [hz] at hd
    obtain ⟨hold, hfault⟩ := attempt_cmd hd
    refine ⟨hold, ?_⟩
    obtain hget | ⟨err, heq⟩ | heq := Submit.step_get hi hs p
    · exact hget
    · injection heq with hr ha
      obtain ⟨va, hva⟩ := hfault hr.symm
      rw [hva] at ha
      cases ha
    · injection heq with hr ha
      obtain ⟨va, hva⟩ := hfault hr.symm
      rw [hva] at ha
      cases ha
  | memory b hok hs hsub hcmd =>
    intro r c hc
    rw [hcmd] at hc
    rw [hsub]
    exact h r c hc

theorem reach_linked (h : Reach (step cfg) (calm cfg x) (init w) s) : Linked cfg s := by
  induction h with
  | refl => exact fun _ _ hc => by cases hc
  | tail hr hok hs ih =>
    have hi := (reach_submit (Submit.init_inv _) hr).2
    exact (step_cases hi hok hs).linked hi ih

/-! ### Programs without a race -/

theorem works_later {y y' : Submit.State Tid Sid Ev} {b : Slot} (hi : Submit.Inv cfg.submit y)
    (hr : Reach (Submit.step cfg.submit) Submit.orderly y y') (h : Works y b) : Works y' b := by
  obtain ⟨c, hc, hwork⟩ := h
  exact ⟨c, (Submit.reach_took hi hr).2.1.issued b.1 b.2 c hc, hwork⟩

/-- In a run that goes on to a state with all conflicts ordered, the commands at two GETs do not
conflict. -/
theorem heads_apart {t : State Tid Sid Ev} (h : Reach (step cfg) (calm cfg x) (init w) s)
    (hr : Reach (step cfg) (calm cfg x) s t) (hrace : RaceFree cfg t) {r p : Chan} (hrp : r ≠ p)
    (hwr : Works s.submit (r, (s.submit.ring r).get))
    (hwp : Works s.submit (p, (s.submit.ring p).get)) :
    ¬Conflict (cfg.job (r, (s.submit.ring r).get)) (cfg.job (p, (s.submit.ring p).get)) := by
  obtain ⟨hsub, hi⟩ := reach_submit (Submit.init_inv _) h
  obtain ⟨hlater, -⟩ := reach_submit hi hr
  have hst := Submit.reach_streams (fun _ _ ha => ha.2) hsub
  have hw := Submit.reach_waitsDue (fun _ _ ha => ha.1) hsub
  have hkeep := fun b => works_later hi hlater (b := b)
  have hne : (r, (s.submit.ring r).get) ≠ (p, (s.submit.ring p).get) :=
    fun heq => hrp (congrArg Prod.fst heq)
  intro hconf
  -- The earlier one has retired when the later one is at GET.
  obtain hbefore | hbefore := hrace _ _ hne (hkeep _ hwr) (hkeep _ hwp) hconf
  · exact lt_irrefl _ (hbefore.retired hi hst hw hlater (.inr ⟨rfl, hwp⟩))
  · exact lt_irrefl _ (hbefore.retired hi hst hw hlater (.inr ⟨rfl, hwr⟩))

theorem start_apart {t : State Tid Sid Ev} (h : Reach (step cfg) (calm cfg x) (init w) s)
    (hr : Reach (step cfg) (calm cfg x) s t) (hrace : RaceFree cfg t) {r : Chan}
    (hs : Submit.step cfg.submit s.submit (.device r .start) = some s'.submit)
    (hsem : (Submit.head cfg.submit (s.submit.ring r)).semaphore = false)
    (hnone : s.engines.cmd r = none) {p : Chan} {d : Exec.Cmd} (hd : s.engines.cmd p = some d) :
    ¬Conflict (cfg.job (r, (s.submit.ring r).get)) (d.job cfg.floats).toJob := by
  obtain ⟨-, hi⟩ := reach_submit (Submit.init_inv _) h
  obtain ⟨rfl, hworks⟩ := reach_linked h p d hd
  refine heads_apart h hr hrace ?_ ⟨_, Submit.start_head hi hs, hsem⟩ hworks
  rintro rfl
  cases hd.symm.trans hnone

theorem progress_apart {t : State Tid Sid Ev} (h : Reach (step cfg) (calm cfg x) (init w) s)
    (hr : Reach (step cfg) (calm cfg x) s t) (hrace : RaceFree cfg t) : Apart cfg s := by
  intro r p c d hrp hc hd
  obtain ⟨rfl, hwr⟩ := reach_linked h r c hc
  obtain ⟨rfl, hwp⟩ := reach_linked h p d hd
  exact heads_apart h hr hrace hrp hwr hwp

theorem reach_engines (h : Reach (step cfg) (calm cfg x) (init w) s) {t : State Tid Sid Ev}
    (hr : Reach (step cfg) (calm cfg x) s t) (hrace : RaceFree cfg t)
    (hfits : ∀ b, Works t.submit b → (cfg.op b.1 b.2).Fits cfg.floats x) :
    Reach (Concurrent.step cfg.floats) (Concurrent.raceFree cfg.floats x) (Concurrent.init w)
      s.engines := by
  induction h with
  | refl => exact .refl
  | @tail s s' a hprev hok hs ih =>
    have hrest := (Reach.tail .refl hok hs).trans hr
    have hrun := ih hrest
    cases step_cases (reach_submit (Submit.init_inv _) hprev).2 hok hs with
    | rings b hob hsub hget hsame =>
      rw [hsame]
      exact hrun
    | start r hor hsub hsem hnone hz =>
      have hi := (reach_submit (Submit.init_inv _) hprev).2
      have hstart : Works s.submit (r, (s.submit.ring r).get) :=
        ⟨_, Submit.start_head hi hsub, hsem⟩
      have hworks := works_later hi (reach_submit hi hrest).1 hstart
      have hfree : Concurrent.raceFree cfg.floats x s.engines
          (.start r (cfg.op r (s.submit.ring r).get)) :=
        ⟨hfits _ hworks, fun p d hd => start_apart hprev hrest hrace hsub hsem hnone hd⟩
      exact .tail hrun hfree hz
    | waited r err hor hsub hw hsame =>
      rw [hsame]
      exact hrun
    | failed r hor hsub hz =>
      have htrue : Concurrent.raceFree cfg.floats x s.engines (.abandon r) := trivial
      exact .tail hrun htrue hz
    | attempt r c hc hsub hz =>
      have htrue : Concurrent.raceFree cfg.floats x s.engines (.attempt r) := trivial
      apply Reach.tail hrun htrue
      rw [Concurrent.step, hc, hz]
      rfl
    | memory b hob hz hsub hcmd => exact .tail hrun hob hz

/-- A program without a race is sequential. In a run that ends with every two conflicting commands
ordered by their rings, by a `WAIT_FENCE` or by what the caller saw, the engines were never at two
conflicting commands at once. If no command has failed, a place that no command in progress writes
holds what the commands that have retired and the accesses of the host leave there one after the
other, in any order in which those that conflict stand as they were done. -/
theorem race_free_program {start : Exec.World}
    (hinv : MemInv start.mem x.loose x.blocks x.regions)
    (hranges : ∀ e ∈ start.mem.ranges.entries, e.1 ≤ e.2.stop ∧
      (⟨e.1, e.2.stop - e.1, e.2.host⟩ : Region) ∈ x.regions)
    (hmapped : ∀ v, x.pages v → (start.mem.mmu.pte v).present = true)
    (hsettled : Exec.Settled start.mem x.pages)
    (h : Reach (step cfg) (calm cfg x) (init start) s) (hrace : RaceFree cfg s) :
    (∀ t, Reach (step cfg) (calm cfg x) (init start) t → Reach (step cfg) (calm cfg x) t s →
      Apart cfg t) ∧
    ((∀ b, Works s.submit b → (cfg.op b.1 b.2).Fits cfg.floats x) → s.engines.failed = false →
      ∀ l : List ℕ, l.Perm (List.range s.engines.done.length) →
      (∀ i j, i < j → j < s.engines.done.length →
        Conflict (s.engines.jobAt cfg.floats i) (s.engines.jobAt cfg.floats j) →
        [i, j].Sublist l) →
      ∀ p : Exec.Place, (∀ a, p = .inl a → x.pages (a / pageSize)) →
      (∀ r c, s.engines.cmd r = some c → p ∉ (c.job cfg.floats).writes) →
      Concurrent.load s.engines.world p = runAll (l.map (s.engines.jobAt cfg.floats))
        (Exec.both (Exec.view start.mem) start.host) p) := by
  refine ⟨fun t ht hts => progress_apart ht hts hrace, ?_⟩
  intro hfits hclean l hl hord p hp hquiet
  have hstart : Exec.Holds x start (Exec.both (Exec.view start.mem) start.host) :=
    ⟨⟨hinv, hranges, hmapped, hsettled.backed⟩, rfl⟩
  have hend := Concurrent.reach_inv hstart (reach_engines h .refl hrace hfits) hclean
  exact hend.sequential hl hord hp hquiet

/-! ### A fill and a copy -/

def readBack : Exec.Cmd := ⟨.copyD2D, 0, 268435472, 268439548, 0, 8, 0, 0, 0, 0, 0⟩

def nop : Exec.Cmd := ⟨.nop, 0, 0, 0, 0, 0, 0, 0, 0, 0, 0⟩

/-- The fill is in the first slot of its ring, the copy behind its wait for the fill. -/
def fillThenCopy : Config (Fin 2) where
  submit := Submit.twoStreams
  floats := Exec.zeroFloats
  op r q :=
    if r = (0, 0) ∧ q = 0 then Exec.crossingFill
    else if r = (1, 0) ∧ q = 1 then readBack
    else nop

def visit (r : Chan) : List (Action Unit (Fin 2) Unit) :=
  [.load, .exchange, .probe, .start].map fun a => .submit (.device r a)

def faultAt (va : ℕ) : List (Action Unit (Fin 2) Unit) :=
  [.attempt (0, 0), .memory (.page (.migrate va Driver.Env.calm)),
    .submit (.device (0, 0) .migrated)]

def fillThenCopyRun : List (Action Unit (Fin 2) Unit) :=
  (Submit.callRun 0 .fill true 15 ++ Submit.callRun 0 .copyD2D true 27).map .submit ++
    visit (0, 0) ++ faultAt Driver.vramBytes ++
    visit (0, 0) ++ faultAt (Driver.vramBytes + 4096) ++
    visit (0, 0) ++ [.attempt (0, 0)] ++
    visit (1, 0) ++ [.submit (.device (1, 0) (.retire false)), .submit (.device (1, 0) .start),
      .attempt (1, 0)]

def plain : Action Unit (Fin 2) Unit → Bool
  | .submit (.device _ .unpark) => false
  | .submit (.call _ _ a) => !a.emptyH2D
  | .submit _ | .attempt _ => true
  | .memory (.page (.migrate _ env)) => !env.madviseFails
  | .memory _ => false

theorem plain_calm {cfg : Config (Fin 2)} {a : Action Unit (Fin 2) Unit} (h : plain a = true)
    (s : State Unit (Fin 2) Unit) : calm cfg x s a := by
  cases a with
  | submit a =>
    cases a with
    | call t sid a => exact ⟨trivial, by simpa [plain, Submit.noEmptyCopy] using h⟩
    | device r a =>
      cases a with
      | unpark => cases h
      | _ => exact ⟨trivial, trivial⟩
    | _ => exact ⟨trivial, trivial⟩
  | attempt r => trivial
  | memory a =>
    cases a with
    | page a =>
      cases a with
      | migrate va env => exact fun _ => by simpa [plain] using h
      | _ => cases h
    | _ => cases h

theorem nop_touches {fl : Exec.Floats} {p : Exec.Place} : p ∉ (nop.job fl).touches := by
  rintro (hp | ⟨i, hi, -⟩)
  · exact hp
  · exact absurd hi (Nat.not_lt_zero i)

theorem nop_fits : nop.Fits Exec.zeroFloats Exec.managedCtx where
  loops := fun h => by cases h
  first := trivial
  pages := fun _ ha => ha.elim

theorem readBack_fits : readBack.Fits Exec.zeroFloats Exec.managedCtx where
  loops := fun h => by cases h
  first := trivial
  pages := by
    rintro a ⟨i, hi, ha⟩
    have hlt : i < 8 := hi
    obtain rfl : a = 268439548 + i := Sum.inl.inj ha
    by_cases hpage : i < 4
    · left
      simp only [pageSize]
      omega
    · right
      simp only [pageSize]
      omega

theorem fillThenCopy_op (b : Slot) :
    b = ((0, 0), 0) ∧ fillThenCopy.op b.1 b.2 = Exec.crossingFill ∨
      b = ((1, 0), 1) ∧ fillThenCopy.op b.1 b.2 = readBack ∨
        fillThenCopy.op b.1 b.2 = nop := by
  obtain ⟨r, q⟩ := b
  simp only [fillThenCopy]
  split_ifs with h h'
  · exact .inl ⟨by rw [h.1, h.2], rfl⟩
  · exact .inr (.inl ⟨by rw [h'.1, h'.2], rfl⟩)
  · exact .inr (.inr rfl)

theorem fillThenCopy_fits (b : Slot) :
    (fillThenCopy.op b.1 b.2).Fits Exec.zeroFloats Exec.managedCtx := by
  obtain ⟨-, hop⟩ | ⟨-, hop⟩ | hop := fillThenCopy_op b
  · rw [hop]
    exact Concurrent.crossingFill_fits
  · rw [hop]
    exact readBack_fits
  · rw [hop]
    exact nop_fits

theorem fillThenCopy_raceFree {s : State Unit (Fin 2) Unit}
    (hbefore : Before s.submit ((0, 0), 0) ((1, 0), 1)) : RaceFree fillThenCopy s := by
  have hnop : ∀ b : Slot, fillThenCopy.op b.1 b.2 = nop →
    ∀ p, p ∉ (fillThenCopy.job b).touches := by
    intro b hop p hp
    rw [Config.job, hop] at hp
    exact nop_touches hp
  intro a b hne _ _ hconf
  obtain ⟨⟨p, hp⟩, q, hq⟩ := hconf.touches
  obtain ⟨rfl, -⟩ | ⟨rfl, -⟩ | hop := fillThenCopy_op a
  · obtain ⟨rfl, -⟩ | ⟨rfl, -⟩ | hop := fillThenCopy_op b
    · exact absurd rfl hne
    · exact .inl hbefore
    · exact absurd hq (hnop b hop q)
  · obtain ⟨rfl, -⟩ | ⟨rfl, -⟩ | hop := fillThenCopy_op b
    · exact .inr hbefore
    · exact absurd rfl hne
    · exact absurd hq (hnop b hop q)
  · exact absurd hp (hnop a hop p)

/-- The copy comes after the fill by its wait, and finds what the fill wrote. -/
theorem race_free_program_copy : ∃ s,
    exec (step fillThenCopy) (init Concurrent.overlappedStart) fillThenCopyRun = some s ∧
    s.engines.done = [.command Exec.crossingFill, .command readBack] ∧
    Concurrent.load s.engines.world (.inl 268435472) = 7 ∧
    (∀ t, Reach (step fillThenCopy) (calm fillThenCopy Exec.managedCtx)
        (init Concurrent.overlappedStart) t →
      Reach (step fillThenCopy) (calm fillThenCopy Exec.managedCtx) t s → Apart fillThenCopy t) ∧
    Concurrent.load s.engines.world (.inl 268435472) =
      runAll ([0, 1].map (s.engines.jobAt Exec.zeroFloats))
        (Exec.both (Exec.view Exec.managedStart.mem) fun _ => 0) (.inl 268435472) := by
  have hrun : (exec (step fillThenCopy) (init Concurrent.overlappedStart) fillThenCopyRun).map
      (fun s => (s.engines.failed, s.engines.done, s.engines.cmd (0, 0), s.engines.cmd (1, 0),
        Concurrent.load s.engines.world (.inl 268435472))) =
      some (false, [.command Exec.crossingFill, .command readBack], none, none, 7) := by
    decide +kernel
  have hring : (exec (step fillThenCopy) (init Concurrent.overlappedStart) fillThenCopyRun).map
      (fun s => (s.submit.ring (1, 0)).issued) = some [.wait ⟨(0, 0), 1⟩, .copyD2D] := by
    decide +kernel
  obtain ⟨s, hs, hq⟩ := Option.map_eq_some_iff.mp hrun
  simp only [Prod.mk.injEq] at hq
  obtain ⟨hclean, hdone, hfill, hcopy, hload⟩ := hq
  rw [hs, Option.map_some, Option.some.injEq] at hring
  refine ⟨s, hs, hdone, hload, ?_⟩
  have hall : ∀ a ∈ fillThenCopyRun, plain a = true := by decide +kernel
  have hreach : Reach (step fillThenCopy) (calm fillThenCopy Exec.managedCtx)
      (init Concurrent.overlappedStart) s :=
    .of_exec_of (fun a ha q => plain_calm (hall a ha) q) .refl hs
  have hbefore : Before s.submit ((0, 0), 0) ((1, 0), 1) := by
    have hwait : (s.submit.ring (1, 0)).issued[0]? = some (.wait ⟨(0, 0), 1⟩) := by
      rw [hring]
      rfl
    exact .single (.fence hwait zero_le_one zero_lt_one)
  obtain ⟨hapart, hend⟩ := race_free_program Exec.managedStart_inv.mem Exec.managedStart_ranges
    Exec.managedStart_mapped Exec.managedStart_settled hreach (fillThenCopy_raceFree hbefore)
  refine ⟨hapart, hend (fun b _ => fillThenCopy_fits b) hclean _ ?_ ?_ _ ?_ ?_⟩
  · rw [hdone]
    decide
  · intro i j hij hj hconf
    rw [hdone] at hj
    obtain ⟨rfl, rfl⟩ : i = 0 ∧ j = 1 := by
      simp at hj
      omega
    exact .refl _
  · intro a ha
    obtain rfl := Sum.inl.inj ha
    decide
  · intro r c hc hp
    obtain ⟨rfl, -⟩ := reach_linked hreach r c hc
    obtain ⟨hslot, -⟩ | ⟨hslot, -⟩ | hop := fillThenCopy_op (r, (s.submit.ring r).get)
    · rw [(Prod.mk.inj hslot).1, hfill] at hc
      cases hc
    · rw [(Prod.mk.inj hslot).1, hcopy] at hc
      cases hc
    · rw [hop] at hp
      exact nop_touches (.inr hp)

end SoftGpu.Program
