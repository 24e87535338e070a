import SoftGpu.Transfer
import SoftGpu.Staging

/-!
# Commands on several channels at once

Every channel has a command in progress or none, and a replay state. The engines attempt their
commands in any order. Between attempts pages move, and the host accesses memory of its own and
managed pages. Without userfaultfd it finds its own page also while the device works on a copy in
VRAM. A run is free of races if it does not do so, and if a command that is started and an access
of the host do not conflict with the commands in progress. Then memory is what the commands and
the accesses leave one after the other, in any order that keeps those that conflict.
-/

namespace SoftGpu.Concurrent
open Machine Footprint Exec
open Footprint.Job (Conflict)
open Staging (Chan)

/-! ### Accesses of the host -/

inductive HostOp
  | store (p : Place) (b : UInt8)
  | copy (p q : Place)
  deriving DecidableEq

def reachable (w : World) : Place → Bool
  | .inl a =>
    let v := a / pageSize
    w.mem.mmu.vramPages ≤ v && (w.mem.mmu.pte v).present &&
      (w.mem.hostMem (w.mem.mmu.host v)).isSome
  | .inr _ => true

def fetch (w : World) : Place → UInt8
  | .inl a => (w.mem.hostMem (w.mem.mmu.host (a / pageSize))).getD .zero
      ⟨a % pageSize, Nat.mod_lt a pageSize_pos⟩
  | .inr a => w.host a

def load (w : World) : Place → UInt8
  | .inl a => view w.mem a
  | .inr a => w.host a

def storeAt (page : Page) (off : ℕ) (b : UInt8) : Page := fun i => if i.val = off then b else page i

def storeHome (m : Mem) (a : ℕ) (b : UInt8) : Mem :=
  let h := m.mmu.host (a / pageSize)
  { m with
    hostMem := Function.update m.hostMem h
      (some (storeAt ((m.hostMem h).getD .zero) (a % pageSize) b)) }

def put (w : World) (p : Place) (b : UInt8) : World :=
  match p with
  | .inl a => { w with mem := storeHome w.mem a b }
  | .inr a => { w with host := Function.update w.host a b }

def HostOp.possible (w : World) : HostOp → Bool
  | .store p _ => reachable w p
  | .copy p q => reachable w p && reachable w q

def HostOp.run (w : World) : HostOp → World
  | .store p b => put w p b
  | .copy p q => put w p (fetch w q)

def poke (p : Place) (reads : Set Place) (f : (Place → UInt8) → UInt8)
    (hf : ∀ μ ν, (∀ a ∈ reads, μ a = ν a) → f μ = f ν) : Job Place UInt8 where
  run μ := Function.update μ p (f μ)
  reads := reads
  writes := {p}
  frame _ _ ha := Function.update_of_ne ha ..
  local_reads := by
    rintro μ ν h a rfl
    rw [Function.update_self, Function.update_self, hf μ ν h]

def HostOp.job : HostOp → Job Place UInt8
  | .store p b => poke p ∅ (fun _ => b) fun _ _ _ => rfl
  | .copy p q => poke p {q} (fun μ => μ q) fun _ _ h => h q rfl

/-! ### The machine -/

inductive Work
  | command (c : Cmd)
  | host (o : HostOp)
  deriving DecidableEq

def Work.job (fl : Floats) : Work → Job Place UInt8
  | .command c => (c.job fl).toJob
  | .host o => o.job

structure State where
  world : World
  cmd : Chan → Option Cmd
  replay : Chan → Replay
  failed : Bool
  done : List Work

def init (w : World) : State where
  world := w
  cmd := fun _ => none
  replay := fun _ => .init
  failed := false
  done := []

inductive Action
  | start (r : Chan) (c : Cmd)
  | attempt (r : Chan)
  | abandon (r : Chan)
  | page (a : Exec.Action)
  | host (o : HostOp)

def moves : Exec.Action → Bool
  | .migrate .. | .prefetch .. | .hostFault .. | .evictAll _ => true
  | .attempt | .foreign .. | .hostStore .. => false

def State.attempt (fl : Floats) (s : State) (r : Chan) (c : Cmd) : State :=
  match execute fl r.1 s.world (s.replay r) c with
  | (.pageFault _, rep, w) => { s with world := w, replay := Function.update s.replay r rep }
  | (.done _, rep, w) =>
    { s with
      world := w
      cmd := Function.update s.cmd r none
      replay := Function.update s.replay r rep.reset
      done := s.done ++ [.command c] }
  | (_, rep, w) =>
    { s with
      world := w
      cmd := Function.update s.cmd r none
      replay := Function.update s.replay r rep.reset
      failed := true }

def step (fl : Floats) (s : State) : Action → Option State
  | .start r c =>
    if (s.cmd r).isNone then some { s with cmd := Function.update s.cmd r (some c) } else none
  | .attempt r => (s.cmd r).map fun c => s.attempt fl r c
  | .abandon r =>
    -- A page could not be migrated.
    some { s with
      cmd := Function.update s.cmd r none
      replay := Function.update s.replay r .init
      failed := true }
  | .page a =>
    -- Where pages go has nothing to do with the command.
    if moves a then
      (Exec.step fl 0 ⟨.nop, 0, 0, 0, 0, 0, 0, 0, 0, 0, 0⟩ ⟨s.world, .init, none⟩ a).map fun y =>
        { s with world := y.world }
    else none
  | .host o =>
    if o.possible s.world then
      some { s with world := o.run s.world, done := s.done ++ [.host o] }
    else none

def atHome (x : Ctx) (m : Mem) (o : HostOp) : Prop :=
  m.uffd = false → ∀ a, .inl a ∈ o.job.touches → x.pages (a / pageSize) →
    (m.mmu.pte (a / pageSize)).inVram = false

/-- What starts fits its operands and does not conflict with the commands in progress, the host
reads managed pages of the context only, and `madvise` drops pages. -/
def raceFree (fl : Floats) (x : Ctx) (s : State) : Action → Prop
  | .start _ c =>
    c.Fits fl x ∧ ∀ r d, s.cmd r = some d → ¬Conflict (c.job fl).toJob (d.job fl).toJob
  | .attempt _ | .abandon _ => True
  | .page a => undisturbed x.pages ⟨s.world, .init, none⟩ a
  | .host o => (∀ a, .inl a ∈ o.job.reads → x.pages (a / pageSize)) ∧ atHome x s.world.mem o ∧
      ∀ r d, s.cmd r = some d → ¬Conflict o.job (d.job fl).toJob

def State.cur (fl : Floats) (s : State) (r : Chan) : Option (Staged Place UInt8 Replay × Replay) :=
  (s.cmd r).map fun c => (c.job fl, s.replay r)

def State.jobAt (fl : Floats) (s : State) (i : ℕ) : Job Place UInt8 :=
  ((s.done[i]?).getD (.host (.store (.inr 0) 0))).job fl

variable {fl : Floats} {x : Ctx} {s s' : State} {w : World} {μ : Place → UInt8} {p : Place}
  {m : Mem} {dev : ℕ → UInt8} {a v : ℕ} {b : UInt8}

/-! ### Memory under the host's hands -/

theorem pageOf_update_of_ne (h : v ≠ a / pageSize) :
    pageOf (Function.update dev a b) v = pageOf dev v := by
  funext off
  apply Function.update_of_ne
  rintro rfl
  apply h
  rw [Nat.mul_comm, Nat.mul_add_div pageSize_pos, Nat.div_eq_of_lt off.isLt, Nat.add_zero]

theorem pageOf_update_self : pageOf (Function.update dev a b) (a / pageSize) =
    storeAt (pageOf dev (a / pageSize)) (a % pageSize) b := by
  funext off
  have hva : a / pageSize * pageSize + a % pageSize = a := by
    rw [Nat.mul_comm]
    exact Nat.div_add_mod a pageSize
  simp only [storeAt, pageOf]
  split
  · next h => rw [h, hva, Function.update_self]
  · next h =>
    apply Function.update_of_ne
    omega

theorem backed_store (h : Sees x m dev) (hv : m.mmu.vramPages ≤ a / pageSize)
    (hp : (m.mmu.pte (a / pageSize)).present = true)
    (hout : (m.mmu.pte (a / pageSize)).inVram = false) :
    Backed (storeHome m a b) (Function.update dev a b) x.pages := by
  have hother : ∀ v, v ≠ a / pageSize → m.mmu.vramPages ≤ v → (m.mmu.pte v).present = true →
      (storeHome m a b).hostMem (m.mmu.host v) = m.hostMem (m.mmu.host v) :=
    fun v hne hge hpv => Function.update_of_ne
      (fun heq => hne (h.inv.host_inj hge hv hpv hp heq)) ..
  have hne : ∀ v, (m.mmu.pte v).inVram = true → v ≠ a / pageSize := by
    rintro v hin rfl
    rw [hout] at hin
    cases hin
  constructor
  · intro v hS hin
    rw [pageOf_update_of_ne (hne v hin)]
    exact h.backed.frame v hS hin
  · intro v hS hpv houtv
    by_cases hva : v = a / pageSize
    · subst hva
      simp only [storeHome, Function.update_self, h.backed.host _ hS hpv houtv, Option.getD_some,
        pageOf_update_self]
    · have hge : m.mmu.vramPages ≤ v := by
        by_contra hlt
        have hin : (m.mmu.pte v).inVram = true := (h.inv.table.ident v (by omega) hpv).1
        rw [show (m.mmu.pte v).inVram = false from houtv] at hin
        cases hin
      rw [pageOf_update_of_ne hva]
      exact (hother v hva hge hpv).trans (h.backed.host v hS hpv houtv)
  · intro hu v hS hge hin hd
    rw [pageOf_update_of_ne (hne v hin)]
    exact (hother v (hne v hin) hge (h.inv.table.valid v hin)).trans
      (h.backed.clean hu v hS hge hin hd)
  · intro hu v hS hge hin
    exact (hother v (hne v hin) hge (h.inv.table.valid v hin)).trans
      (h.backed.dropped hu v hS hge hin)

theorem sees_put (h : Sees x m dev) (hv : m.mmu.vramPages ≤ a / pageSize)
    (hp : (m.mmu.pte (a / pageSize)).present = true)
    (hout : x.pages (a / pageSize) → (m.mmu.pte (a / pageSize)).inVram = false) :
    Sees x (storeHome m a b) (Function.update dev a b) where
  inv := h.inv.bytes _ _
  ranges := h.ranges
  mapped := h.mapped
  backed := by
    by_cases hS : x.pages (a / pageSize)
    · exact backed_store h hv hp (hout hS)
    · refine (h.backed.hostStore h.inv hS hv hp _).withBytes fun v hSv => pageOf_update_of_ne ?_
      rintro rfl
      exact hS hSv

theorem home_of_reachable (h : Sees x w.mem dev) (hp : reachable w (.inl a) = true)
    (hhome : w.mem.uffd = false → (w.mem.mmu.pte (a / pageSize)).inVram = false)
    (hS : x.pages (a / pageSize)) : (w.mem.mmu.pte (a / pageSize)).inVram = false := by
  simp only [reachable, Bool.and_eq_true, decide_eq_true_eq] at hp
  obtain ⟨⟨hv, -⟩, hthere⟩ := hp
  cases hu : w.mem.uffd with
  | false => exact hhome hu
  | true =>
    by_contra hin
    rw [h.backed.dropped hu _ hS hv (by simpa using hin)] at hthere
    cases hthere

theorem holds_put (h : Holds x w μ) (hp : reachable w p = true)
    (hhome : w.mem.uffd = false → ∀ a, p = .inl a → x.pages (a / pageSize) →
      (w.mem.mmu.pte (a / pageSize)).inVram = false) :
    Holds x (put w p b) (Function.update μ p b) := by
  cases p with
  | inl a =>
    have hout := fun hS => home_of_reachable h.sees hp (fun hu => hhome hu a rfl hS) hS
    simp only [reachable, Bool.and_eq_true, decide_eq_true_eq] at hp
    obtain ⟨⟨hv, hpres⟩, -⟩ := hp
    have hdev : devOf (Function.update μ (.inl a) b) = Function.update (devOf μ) a b := by
      funext i
      simp only [devOf, Function.update_apply, Sum.inl.injEq]
    constructor
    · rw [hdev]
      exact sees_put h.sees hv hpres hout
    · exact h.host
  | inr a =>
    constructor
    · exact h.sees
    · funext i
      simp only [put, hostOf, Function.update_apply, Sum.inr.injEq, h.host]

theorem load_eq (h : Holds x w μ) (hp : ∀ a, p = .inl a → x.pages (a / pageSize)) :
    load w p = μ p := by
  cases p with
  | inl a => exact h.sees.view_eq (hp a rfl)
  | inr a => exact congrFun h.host a

theorem fetch_eq (h : Holds x w μ) (hp : reachable w p = true)
    (hS : ∀ a, p = .inl a → x.pages (a / pageSize))
    (hhome : w.mem.uffd = false → ∀ a, p = .inl a → x.pages (a / pageSize) →
      (w.mem.mmu.pte (a / pageSize)).inVram = false) : fetch w p = μ p := by
  cases p with
  | inl a =>
    have hout := home_of_reachable h.sees hp (fun hu => hhome hu a rfl (hS a rfl)) (hS a rfl)
    rw [← load_eq h hS, load, view]
    simp only [hout, Bool.false_eq_true, if_false]
    rfl
  | inr a => exact congrFun h.host a

theorem holds_host {o : HostOp} (h : Holds x w μ) (hpos : o.possible w = true)
    (hread : ∀ a, .inl a ∈ o.job.reads → x.pages (a / pageSize)) (hhome : atHome x w.mem o) :
    Holds x (o.run w) (o.job.run μ) := by
  cases o with
  | store p b =>
    refine holds_put h hpos fun hu a hp => hhome hu a (.inr ?_)
    exact hp.symm
  | copy p q =>
    simp only [HostOp.possible, Bool.and_eq_true] at hpos
    have hq : fetch w q = μ q := by
      refine fetch_eq h hpos.2 (fun a hq => hread a hq.symm) fun hu a hq => hhome hu a (.inl ?_)
      exact hq.symm
    simp only [HostOp.run, hq]
    refine holds_put h hpos.1 fun hu a hp => hhome hu a (.inr ?_)
    exact hp.symm

/-! ### The invariant -/

structure Inv (fl : Floats) (x : Ctx) (μ₀ : Place → UInt8) (s : State) : Prop where
  memory : ∃ now, Holds x s.world now ∧
    Overlap (runAll (s.done.map (Work.job fl)) μ₀) now (s.cur fl)
  idle : ∀ r, s.cmd r = none → s.replay r = .init
  fits : ∀ r c, s.cmd r = some c → c.Fits fl x

theorem init_inv (h : Holds x w μ) : Inv fl x μ (init w) where
  memory := ⟨μ, h, .idle μ⟩
  idle := fun _ _ => rfl
  fits := fun _ _ hc => by cases hc

theorem cur_of_some {r : Chan} {c : Cmd} (h : s.cmd r = some c) :
    s.cur fl r = some (c.job fl, s.replay r) := by
  rw [State.cur, h]
  rfl

theorem cur_some {r : Chan} {t : Staged Place UInt8 Replay} {rep : Replay}
    (h : s.cur fl r = some (t, rep)) : ∃ c, s.cmd r = some c ∧ t = c.job fl := by
  simp only [State.cur, Option.map_eq_some_iff, Prod.mk.injEq] at h
  obtain ⟨c, hc, rfl, -⟩ := h
  exact ⟨c, hc, rfl⟩

theorem cur_update {r : Chan} (o : Option Cmd) (rep : Replay)
    (h : s'.cmd = Function.update s.cmd r o)
    (hrep : s'.replay = Function.update s.replay r rep) :
    s'.cur fl = Function.update (s.cur fl) r (o.map fun c => (c.job fl, rep)) := by
  funext q
  by_cases hq : q = r
  · subst hq
    simp only [State.cur, h, hrep, Function.update_self]
  · simp only [State.cur, h, hrep, Function.update_of_ne hq]

namespace Inv
variable {μ₀ : Place → UInt8} {r : Chan} {c : Cmd}

theorem start (h : Inv fl x μ₀ s) (hnone : s.cmd r = none) (hfit : c.Fits fl x)
    (hfree : ∀ r d, s.cmd r = some d → ¬Conflict (c.job fl).toJob (d.job fl).toJob) :
    Inv fl x μ₀ { s with cmd := Function.update s.cmd r (some c) } := by
  obtain ⟨now, hholds, hover⟩ := h.memory
  have hcur : State.cur fl { s with cmd := Function.update s.cmd r (some c) } =
      Function.update (s.cur fl) r (some (c.job fl, Replay.init)) := by
    apply cur_update (some c) .init rfl
    rw [← h.idle r hnone, Function.update_eq_self]
  constructor
  · refine ⟨now, hholds, ?_⟩
    rw [hcur]
    apply hover.begin
    · rw [State.cur, hnone]
      rfl
    · intro q t rep hq
      obtain ⟨d, hd, rfl⟩ := cur_some hq
      exact hfree q d hd
    · exact (c.transfer fl).start
  · intro q hq
    by_cases hqr : q = r
    · subst hqr
      simp at hq
    · exact h.idle q (by simpa [hqr] using hq)
  · intro q d hd
    by_cases hqr : q = r
    · subst hqr
      obtain rfl : c = d := by simpa using hd
      exact hfit
    · exact h.fits q d (by simpa [hqr] using hd)

theorem attempt (h : Inv fl x μ₀ s) (hc : s.cmd r = some c)
    (hclean : (s.attempt fl r c).failed = false) : Inv fl x μ₀ (s.attempt fl r c) := by
  obtain ⟨now, hholds, hover⟩ := h.memory
  have hcur : s.cur fl r = some (c.job fl, s.replay r) := cur_of_some hc
  cases hx : execute fl r.1 s.world (s.replay r) c with
  | mk o rest =>
    obtain ⟨rep, w⟩ := rest
    have hatt := (h.fits r c hc).attempted hx hholds (hover.during r _ _ hcur)
    simp only [State.attempt, hx] at hclean ⊢
    cases o with
    | pageFault va =>
      obtain ⟨ν, hν, hpart⟩ := hatt
      have hnew := hover.advance hcur hpart
      refine ⟨⟨ν, hν, ?_⟩, ?_, h.fits⟩
      · have heq : State.cur fl { s with world := w, replay := Function.update s.replay r rep } =
            Function.update (s.cur fl) r (some (c.job fl, rep)) := by
          apply cur_update (some c) rep _ rfl
          rw [← hc, Function.update_eq_self]
        rw [heq]
        exact hnew
      · intro q hq
        have hqr : q ≠ r := by
          rintro rfl
          rw [hc] at hq
          cases hq
        simp only [Function.update_of_ne hqr]
        exact h.idle q hq
    | done u =>
      obtain ⟨hν, hreset⟩ := hatt
      have hnew := hover.finish hcur
      refine ⟨⟨_, hν, ?_⟩, ?_, ?_⟩
      · have heq : State.cur fl { s with
              world := w
              cmd := Function.update s.cmd r none
              replay := Function.update s.replay r rep.reset
              done := s.done ++ [.command c] } = Function.update (s.cur fl) r none :=
          cur_update none rep.reset rfl rfl
        rw [heq, List.map_append, List.map_singleton, runAll_concat]
        exact hnew
      · intro q hq
        by_cases hqr : q = r
        · subst hqr
          simp only [Function.update_self]
          exact hreset
        · simp only [Function.update_of_ne hqr] at hq ⊢
          exact h.idle q hq
      · intro q d hd
        by_cases hqr : q = r
        · subst hqr
          simp at hd
        · simp only [Function.update_of_ne hqr] at hd
          exact h.fits q d hd
    | split => cases hclean
    | error e => cases hclean

theorem page (h : Inv fl x μ₀ s) {a : Exec.Action} {y : Exec.State} {c : Cmd} (ha : moves a = true)
    (hok : undisturbed x.pages ⟨s.world, .init, none⟩ a)
    (hs : Exec.step fl 0 c ⟨s.world, .init, none⟩ a = some y) :
    Inv fl x μ₀ { s with world := y.world } := by
  obtain ⟨now, hholds, hover⟩ := h.memory
  have hne : a ≠ .attempt := by
    rintro rfl
    cases ha
  obtain ⟨hsees, hhost, -⟩ := sees_other hne hok hs hholds.sees
  exact ⟨⟨now, ⟨hsees, hhost.trans hholds.host⟩, hover⟩, h.idle, h.fits⟩

theorem host (h : Inv fl x μ₀ s) {o : HostOp} (hpos : o.possible s.world = true)
    (hread : ∀ a, .inl a ∈ o.job.reads → x.pages (a / pageSize)) (hhome : atHome x s.world.mem o)
    (hfree : ∀ r d, s.cmd r = some d → ¬Conflict o.job (d.job fl).toJob) :
    Inv fl x μ₀ { s with world := o.run s.world, done := s.done ++ [.host o] } := by
  obtain ⟨now, hholds, hover⟩ := h.memory
  refine ⟨⟨o.job.run now, holds_host hholds hpos hread hhome, ?_⟩, h.idle, h.fits⟩
  simp only [List.map_append, List.map_singleton, runAll_concat]
  apply hover.between
  intro q t rep hq
  obtain ⟨d, hd, rfl⟩ := cur_some hq
  exact hfree q d hd

end Inv

theorem step_inv {a : Action} {μ₀ : Place → UInt8} (h : s.failed = false → Inv fl x μ₀ s)
    (hok : raceFree fl x s a) (hs : step fl s a = some s') (hclean : s'.failed = false) :
    Inv fl x μ₀ s' := by
  cases a with
  | start r c =>
    simp only [step, Option.ite_none_right_eq_some, Option.some.injEq,
      Option.isNone_iff_eq_none] at hs
    obtain ⟨hnone, rfl⟩ := hs
    exact (h hclean).start hnone hok.1 hok.2
  | attempt r =>
    simp only [step, Option.map_eq_some_iff] at hs
    obtain ⟨c, hc, rfl⟩ := hs
    have hold : s.failed = false := by
      simp only [State.attempt] at hclean
      split at hclean
      · exact hclean
      · exact hclean
      · cases hclean
    exact (h hold).attempt hc hclean
  | abandon r =>
    obtain rfl := Option.some.inj hs
    cases hclean
  | page a =>
    simp only [step, Option.ite_none_right_eq_some, Option.map_eq_some_iff] at hs
    obtain ⟨hm, y, hy, rfl⟩ := hs
    exact (h hclean).page hm hok hy
  | host o =>
    simp only [step, Option.ite_none_right_eq_some, Option.some.injEq] at hs
    obtain ⟨hpos, rfl⟩ := hs
    exact (h hclean).host hpos hok.1 hok.2.1 hok.2.2

theorem reach_inv {μ₀ : Place → UInt8} (hw : Holds x w μ₀)
    (h : Reach (step fl) (raceFree fl x) (init w) s) : s.failed = false → Inv fl x μ₀ s :=
  h.invariant (P := fun s => s.failed = false → Inv fl x μ₀ s) (fun _ => init_inv hw)
    fun _ _ _ hi hok hs => step_inv hi hok hs

/-! ### One after the other -/

theorem map_jobAt : (List.range s.done.length).map (s.jobAt fl) = s.done.map (Work.job fl) := by
  apply List.ext_getElem
  · simp
  · intro i h₁ h₂
    have hi : i < s.done.length := by simpa using h₂
    simp [State.jobAt, List.getElem?_eq_getElem hi]

theorem Inv.sequential {μ₀ : Place → UInt8} (h : Inv fl x μ₀ s) {l : List ℕ}
    (hl : l.Perm (List.range s.done.length))
    (hord : ∀ i j, i < j → j < s.done.length → Conflict (s.jobAt fl i) (s.jobAt fl j) →
      [i, j].Sublist l)
    (hp : ∀ a, p = .inl a → x.pages (a / pageSize))
    (hquiet : ∀ r c, s.cmd r = some c → p ∉ (c.job fl).writes) :
    load s.world p = runAll (l.map (s.jobAt fl)) μ₀ p := by
  obtain ⟨now, hholds, hover⟩ := h.memory
  have hreorder : runAll (s.done.map (Work.job fl)) μ₀ = runAll (l.map (s.jobAt fl)) μ₀ := by
    rw [← map_jobAt]
    apply runAll_reorder List.nodup_range hl.symm
    intro i j hij hconf
    have hlt : i < j := by
      have hpair := (List.pairwise_lt_range (n := s.done.length)).sublist hij
      simpa using hpair
    have hj : j < s.done.length := List.mem_range.mp (hij.subset (by simp))
    exact hord i j hlt hj hconf
  rw [load_eq hholds hp, ← hreorder]
  apply hover.quiet
  intro r t rep hr
  obtain ⟨c, hc, rfl⟩ := cur_some hr
  exact hquiet r c hc

/-- In a run that is free of races and in which no command has failed, a place that no command in
progress writes holds what the commands that have retired and the accesses of the host leave there
if they are done one after the other, whatever faulted, moved and overlapped on the way; and the
order is any in which those that conflict stand as they were done. -/
theorem race_free_sequential {start : World} (hinv : MemInv start.mem x.loose x.blocks x.regions)
    (hranges : ∀ e ∈ start.mem.ranges.entries, e.1 ≤ e.2.stop ∧
      (⟨e.1, e.2.stop - e.1, e.2.host⟩ : Region) ∈ x.regions)
    (hmapped : ∀ v, x.pages v → (start.mem.mmu.pte v).present = true)
    (hsettled : Settled start.mem x.pages)
    (h : Reach (step fl) (raceFree fl x) (init start) s) (hclean : s.failed = false)
    {l : List ℕ} (hl : l.Perm (List.range s.done.length))
    (hord : ∀ i j, i < j → j < s.done.length → Conflict (s.jobAt fl i) (s.jobAt fl j) →
      [i, j].Sublist l)
    (hp : ∀ a, p = .inl a → x.pages (a / pageSize))
    (hquiet : ∀ r c, s.cmd r = some c → p ∉ (c.job fl).writes) :
    load s.world p = runAll (l.map (s.jobAt fl)) (both (view start.mem) start.host) p := by
  have hstart : Holds x start (both (view start.mem) start.host) :=
    ⟨⟨hinv, hranges, hmapped, hsettled.backed⟩, rfl⟩
  exact (reach_inv hstart h hclean).sequential hl hord hp hquiet

/-! ### A fill and a copy at once -/

theorem step_cmd_none {a : Action} {r : Chan} (ha : ∀ c, a ≠ .start r c) (hnone : s.cmd r = none)
    (hs : step fl s a = some s') : s'.cmd r = none := by
  have hupdate : ∀ q, Function.update s.cmd q none r = none := by
    intro q
    by_cases hq : r = q
    · rw [hq, Function.update_self]
    · rw [Function.update_of_ne hq, hnone]
  cases a with
  | start q c =>
    simp only [step, Option.ite_none_right_eq_some, Option.some.injEq] at hs
    obtain ⟨-, rfl⟩ := hs
    have hq : r ≠ q := by
      rintro rfl
      exact ha c rfl
    simp only [Function.update_of_ne hq, hnone]
  | attempt q =>
    simp only [step, Option.map_eq_some_iff] at hs
    obtain ⟨c, -, rfl⟩ := hs
    simp only [State.attempt]
    split
    · exact hnone
    · exact hupdate q
    · exact hupdate q
  | abandon q =>
    obtain rfl := Option.some.inj hs
    exact hupdate q
  | page a =>
    simp only [step, Option.ite_none_right_eq_some, Option.map_eq_some_iff] at hs
    obtain ⟨-, y, -, rfl⟩ := hs
    exact hnone
  | host o =>
    simp only [step, Option.ite_none_right_eq_some, Option.some.injEq] at hs
    obtain ⟨-, rfl⟩ := hs
    exact hnone

theorem exec_cmd_none {as : List Action} {r : Chan} (ha : ∀ a ∈ as, ∀ c, a ≠ .start r c)
    (hnone : s.cmd r = none) (hs : exec (step fl) s as = some s') : s'.cmd r = none := by
  induction as generalizing s with
  | nil =>
    obtain rfl := Option.some.inj hs
    exact hnone
  | cons a as ih =>
    simp only [exec, Option.bind_eq_some_iff] at hs
    obtain ⟨t, ht, hs⟩ := hs
    exact ih (fun b hb => ha b (List.mem_cons_of_mem a hb))
      (step_cmd_none (ha a List.mem_cons_self) hnone ht) hs

/-- Four bytes of the host go to the first page that `crossingFill` writes. -/
def besideCopy : Cmd := ⟨.copyH2D, 0, 268435472, 0, 0, 4, 0, 0, 0, 0, 0⟩

/-- The fill faults on both pages; the copy retires while the fill waits for the second. -/
def overlapped : List Action :=
  [.host (.store (.inr 0) 9), .start (0, 0) crossingFill, .start (1, 0) besideCopy,
    .attempt (0, 0), .page (.migrate Driver.vramBytes Driver.Env.calm), .attempt (0, 0),
    .attempt (1, 0), .page (.migrate (Driver.vramBytes + 4096) Driver.Env.calm), .attempt (0, 0)]

def overlappedStart : World := ⟨managedStart.mem, fun _ => 0⟩

theorem crossingFill_fits : crossingFill.Fits zeroFloats managedCtx where
  loops := fun h => by cases h
  first := trivial
  pages := fun _ ha => ha.elim

theorem besideCopy_fits : besideCopy.Fits zeroFloats managedCtx where
  loops := fun h => by cases h
  first := trivial
  pages := by
    rintro a ⟨i, -, ha⟩
    cases ha

theorem crossingFill_touches {p : Place} (hp : p ∈ (crossingFill.job zeroFloats).touches) :
    ∃ i : ℕ, p = .inl (268439548 + i) := by
  obtain hp | ⟨i, -, hp⟩ := hp
  · exact hp.elim
  · exact ⟨i, hp⟩

theorem besideCopy_writes {p : Place} (hp : p ∈ (besideCopy.job zeroFloats).writes) :
    ∃ i < 4, p = .inl (268435472 + i) := by
  obtain ⟨i, hi, hp⟩ := hp
  exact ⟨i, hi, hp⟩

theorem besideCopy_apart : ¬Conflict (besideCopy.job zeroFloats).toJob
    (crossingFill.job zeroFloats).toJob := by
  have hapart : ∀ p ∈ (besideCopy.job zeroFloats).writes,
      p ∉ (crossingFill.job zeroFloats).touches := by
    intro p hp hq
    obtain ⟨i, hi, rfl⟩ := besideCopy_writes hp
    obtain ⟨j, hj⟩ := crossingFill_touches hq
    have hij := Sum.inl.inj hj
    omega
  rintro (⟨p, hp, hq⟩ | ⟨p, hp, hq⟩)
  · exact hapart p hp hq
  · obtain ⟨i, -, hread⟩ | hq := hq
    · obtain ⟨j, rfl⟩ := crossingFill_touches (.inr hp)
      cases hread
    · exact hapart p hq (.inr hp)

theorem overlapped_reach {s : State}
    (hs : exec (step zeroFloats) (init overlappedStart) overlapped = some s) :
    Reach (step zeroFloats) (raceFree zeroFloats managedCtx) (init overlappedStart) s := by
  have hstore : raceFree zeroFloats managedCtx (init overlappedStart) (.host (.store (.inr 0) 9)) :=
    ⟨fun _ ha => ha.elim, fun _ a ha => by simp [Job.touches, HostOp.job, poke] at ha,
      fun _ _ hd => by cases hd⟩
  have hfill : ∀ {q : State}, q.cmd = (fun _ => none) →
      raceFree zeroFloats managedCtx q (.start (0, 0) crossingFill) := by
    intro q hq
    refine ⟨crossingFill_fits, fun r d hd => ?_⟩
    rw [hq] at hd
    cases hd
  have hcopy : ∀ {q : State}, q.cmd = Function.update (fun _ => none) (0, 0) (some crossingFill) →
      raceFree zeroFloats managedCtx q (.start (1, 0) besideCopy) := by
    intro q hq
    refine ⟨besideCopy_fits, fun r d hd => ?_⟩
    rw [hq] at hd
    by_cases hr : r = (0, 0)
    · rw [hr, Function.update_self] at hd
      cases hd
      exact besideCopy_apart
    · rw [Function.update_of_ne hr] at hd
      cases hd
  have h₁ : Reach (step zeroFloats) (raceFree zeroFloats managedCtx) (init overlappedStart) _ :=
    .tail .refl hstore rfl
  have h₃ := Reach.tail (.tail h₁ (hfill rfl) rfl) (hcopy rfl) rfl
  apply Reach.of_exec_of _ h₃ hs
  intro a ha s
  simp only [List.mem_cons, List.not_mem_nil, or_false] at ha
  rcases ha with rfl | rfl | rfl | rfl | rfl | rfl
  all_goals first | trivial | exact fun _ => rfl

/-- The copied byte is the one stored, also if the fill had come before the store. -/
theorem race_free_sequential_overlap : ∃ s,
    exec (step zeroFloats) (init overlappedStart) overlapped = some s ∧
    s.done = [.host (.store (.inr 0) 9), .command besideCopy, .command crossingFill] ∧
    load s.world (.inl 268435472) = 9 ∧ load s.world (.inl 268435472) =
      runAll ([2, 0, 1].map (s.jobAt zeroFloats)) (both (view managedStart.mem) fun _ => 0)
        (.inl 268435472) := by
  have hrun : (exec (step zeroFloats) (init overlappedStart) overlapped).map (fun s =>
      (s.failed, s.done, s.cmd (0, 0), s.cmd (1, 0), load s.world (.inl 268435472))) =
      some (false, [.host (.store (.inr 0) 9), .command besideCopy, .command crossingFill],
        none, none, 9) := by decide +kernel
  obtain ⟨s, hs, hq⟩ := Option.map_eq_some_iff.mp hrun
  simp only [Prod.mk.injEq] at hq
  obtain ⟨hclean, hdone, hfill, hcopy, hload⟩ := hq
  refine ⟨s, hs, hdone, hload, ?_⟩
  have hjob : ∀ i, s.jobAt zeroFloats i =
      (([.host (.store (.inr 0) 9), .command besideCopy, .command crossingFill] :
        List Work)[i]?.getD
        (.host (.store (.inr 0) 0))).job zeroFloats := by
    intro i
    rw [State.jobAt, hdone]
  have hidle : ∀ r c, s.cmd r ≠ some c := by
    intro r c hc
    by_cases h₀ : r = (0, 0)
    · rw [h₀, hfill] at hc
      cases hc
    · by_cases h₁ : r = (1, 0)
      · rw [h₁, hcopy] at hc
        cases hc
      · have hnone := exec_cmd_none (r := r) ?_ rfl hs
        · rw [hnone] at hc
          cases hc
        · intro a ha d hd
          subst hd
          simp [overlapped, h₀, h₁] at ha
  apply race_free_sequential managedStart_inv.mem managedStart_ranges managedStart_mapped
    managedStart_settled (overlapped_reach hs) hclean
  · rw [hdone]
    decide
  · intro i j hij hj hconf
    rw [hdone, List.length_cons, List.length_cons, List.length_singleton] at hj
    rw [hjob, hjob] at hconf
    have hfree : ¬Conflict (HostOp.store (.inr 0) 9).job (crossingFill.job zeroFloats).toJob := by
      rintro (⟨p, rfl, hq⟩ | ⟨p, hp, hq⟩)
      · obtain ⟨k, hk⟩ := crossingFill_touches hq
        cases hk
      · obtain ⟨k, rfl⟩ := crossingFill_touches (.inr hp)
        obtain hq | hq := hq
        · exact hq.elim
        · cases hq
    obtain ⟨rfl, rfl⟩ | ⟨rfl, rfl⟩ | ⟨rfl, rfl⟩ : i = 0 ∧ j = 1 ∨ i = 0 ∧
      j = 2 ∨ i = 1 ∧ j = 2 := by
      omega
    · decide
    · exact absurd hconf hfree
    · exact absurd hconf besideCopy_apart
  · intro a ha
    obtain rfl := Sum.inl.inj ha
    decide
  · intro r c hc
    exact absurd hc (hidle r c)

end SoftGpu.Concurrent
