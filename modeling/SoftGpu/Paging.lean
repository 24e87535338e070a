import SoftGpu.Machine
import SoftGpu.Mmu

/-!
# Eviction and migration against running engines

The page table, the TLBs and the access sequence numbers at the granularity of
one atomic access. Any number of engines run commands; the holder of `mem_lock`
runs `evict_locked` and `migrate_locked`; the host loads and stores through the
managed pointers. The pages are managed and mapped; a frame is a frame number.

An engine marks itself in-command, translates addresses one after the other,
and reads and writes frames through the translations it has got, until it marks
itself out of the command. `Point` is where it is inside `Mmu::translate`: the
TLB probe with its second tag load, the walk with its `fetch_or`, and the TLB
fill with its three looks at the generation. Which slot a fill replaces is left
open. `DriverPoint` follows `begin_evict`, the shootdown, `quiesce`, `end_evict`
and `publish_host`, and `copy_in`, `make_resident` and `madvise`.

The fields of `State` from `owner` on are history: the page a frame is assigned
to, whether an engine wrote the page since it was last made resident, whether
the host stored to it since it was last copied in, the bytes engines wrote, how
often the host stored to each byte, the same at the submission of each command,
and what engines and host observed.
-/

namespace SoftGpu.Paging
open Machine

structure Cell where
  byte : UInt8
  stamp : ℕ
  deriving DecidableEq, Repr

abbrev CellPage : Type := Fin pageSize → Cell

def CellPage.zero : CellPage := fun _ => ⟨0, 0⟩

inductive Point (k : ℕ)
  | idle
  | command
  | probe (v : ℕ) (write : Bool) (i : ℕ)
  | tagged (v : ℕ) (write : Bool) (i : Fin k)
  | recheck (v : ℕ) (write : Bool) (i : Fin k) (p : Pte)
  | hitOr (v : ℕ) (i : Fin k) (p : Pte)
  | hitStore (v : ℕ) (i : Fin k) (p : Pte)
  | walk (v : ℕ) (write : Bool)
  | walkOr (v : ℕ) (write : Bool)
  | sample (v : ℕ) (write : Bool) (p : Pte)
  | clear (v : ℕ) (write : Bool) (p : Pte) (gen : ℕ)
  | fill (v : ℕ) (write : Bool) (p : Pte) (gen : ℕ) (i : Fin k)
  | check (v : ℕ) (write : Bool) (p : Pte) (gen : ℕ) (i : Fin k)
  | regen (v : ℕ) (write : Bool) (p : Pte) (gen : ℕ) (i : Fin k)
  | tag (v : ℕ) (write : Bool) (p : Pte) (gen : ℕ) (i : Fin k)
  | confirm (v : ℕ) (write : Bool) (p : Pte) (gen : ℕ) (i : Fin k)
  | drop (v : ℕ) (write : Bool) (p : Pte) (i : Fin k)
  deriving DecidableEq

abbrev Translation := ℕ × ℕ × Bool

structure Engine (k : ℕ) where
  seq : ℕ
  cmd : ℕ
  point : Point k
  held : List Translation
  tag : Fin k → Option ℕ
  slot : Fin k → Pte

inductive After
  | evict (old : Pte)
  | migrated
  | restored
  deriving DecidableEq

inductive DriverPoint (n k : ℕ)
  | idle
  | bump (v : ℕ) (after : After)
  | shoot (v : ℕ) (after : After) (todo : List (Fin n × Fin k))
  | clear (v : ℕ) (after : After) (slot : Fin n × Fin k) (todo : List (Fin n × Fin k))
  | quiesce (v : ℕ) (old : Pte) (todo : List (Fin n))
  | wait (v : ℕ) (old : Pte) (e : Fin n) (seq : ℕ) (todo : List (Fin n))
  | collect (v : ℕ) (old : Pte)
  | publish (v : ℕ) (old : Pte) (late : Bool)
  | evicted (v : ℕ) (f : ℕ)
  | restore (v : ℕ) (f : ℕ)
  | copyIn (v : ℕ) (f : ℕ)
  | install (v : ℕ) (f : ℕ)
  | madvise (v : ℕ)
  deriving DecidableEq

structure State (n k : ℕ) where
  pte : ℕ → Pte
  gen : ℕ
  engines : Fin n → Engine k
  driver : DriverPoint n k
  frames : ℕ → CellPage
  hostMem : ℕ → Option CellPage
  owner : ℕ → Option ℕ
  wrote : ℕ → Bool
  hostStored : ℕ → Bool
  deviceWrote : ℕ → Fin pageSize → Bool
  stores : ℕ → Fin pageSize → ℕ
  submitted : ℕ → Option (ℕ → Fin pageSize → ℕ)
  reads : List (ℕ × ℕ)
  loads : List (ℕ × ℕ)

def init (n k : ℕ) : State n k where
  pte := fun _ => .hostResident
  gen := 0
  engines := fun _ => ⟨0, 0, .idle, [], fun _ => none, fun _ => .zero⟩
  driver := .idle
  frames := fun _ => .zero
  hostMem := fun _ => some .zero
  owner := fun _ => none
  wrote := fun _ => false
  hostStored := fun _ => false
  deviceWrote := fun _ _ => false
  stores := fun _ _ => 0
  submitted := fun _ => none
  reads := []
  loads := []

inductive Action (n k : ℕ)
  | submit (c : ℕ)
  | enter (e : Fin n) (c : ℕ)
  | translate (e : Fin n) (v : ℕ) (write : Bool)
  | engine (e : Fin n) (i : Option (Fin k))
  | read (e : Fin n) (v f : ℕ) (off : Fin pageSize)
  | write (e : Fin n) (v f : ℕ) (off : Fin pageSize) (byte : UInt8)
  | leave (e : Fin n)
  | clearAccessed (v : ℕ)
  | evict (v : ℕ)
  | migrate (v f : ℕ)
  | driver (ok : Bool)
  | hostStore (v : ℕ) (off : Fin pageSize) (byte : UInt8)
  | hostLoad (v : ℕ) (off : Fin pageSize)

/-! ### Engines -/

namespace Engine
variable {k : ℕ}

def goto (x : Engine k) (p : Point k) : Engine k := { x with point := p }

def got (x : Engine k) (v f : ℕ) (write : Bool) : Engine k :=
  { x with point := .command, held := x.held ++ [(v, f, write)] }

def setTag (x : Engine k) (i : Fin k) (t : Option ℕ) : Engine k :=
  { x with tag := Function.update x.tag i t }

def setSlot (x : Engine k) (i : Fin k) (p : Pte) : Engine k :=
  { x with slot := Function.update x.slot i p }

end Engine

variable {n k : ℕ}

def hasBits (p : Pte) (write : Bool) : Bool := p.accessed && (p.dirty || !write)

def orPte (p : Pte) (dirty accessed : Bool) : Pte :=
  { p with dirty := p.dirty || dirty, accessed := p.accessed || accessed }

/-- One atomic access of `Mmu::translate`: the engine's new state and the entry
of the page after the access. -/
def Engine.step (x : Engine k) (pte : ℕ → Pte) (gen : ℕ) (choice : Option (Fin k)) :
    Option (Engine k × (ℕ → Pte)) :=
  match x.point with
  | .idle | .command => none
  | .probe v w i =>
    if h : i < k then
      if x.tag ⟨i, h⟩ = some v then some (x.goto (.tagged v w ⟨i, h⟩), pte)
      else some (x.goto (.probe v w (i + 1)), pte)
    else some (x.goto (.walk v w), pte)
  | .tagged v w i => some (x.goto (.recheck v w i (x.slot i)), pte)
  | .recheck v w i p =>
    -- The slot may have been reused between the two loads.
    if x.tag i ≠ some v ∨ p.present = false ∨ p.inVram = false then some (x.goto (.walk v w), pte)
    else if w && !p.dirty then some (x.goto (.hitOr v i p), pte)
    else some (x.got v p.pfn w, pte)
  | .hitOr v i p =>
    some (x.goto (.hitStore v i p), Function.update pte v (orPte (pte v) true false))
  | .hitStore v i p => some ((x.setSlot i (orPte p true false)).got v p.pfn true, pte)
  | .walk v w =>
    let p := pte v
    if p.present = false ∨ p.inVram = false then some (x.goto .command, pte)
    else if hasBits p w then some (x.goto (.sample v w p), pte)
    else some (x.goto (.walkOr v w), pte)
  | .walkOr v w =>
    let p := orPte (pte v) w true
    let pte' := Function.update pte v p
    if p.present = false ∨ p.inVram = false then some (x.goto .command, pte')
    else some (x.goto (.sample v w p), pte')
  | .sample v w p => some (x.goto (.clear v w p gen), pte)
  | .clear v w p g =>
    match choice with
    | none => none
    | some i => some ((x.setTag i none).goto (.fill v w p g i), pte)
  | .fill v w p g i => some ((x.setSlot i p).goto (.check v w p g i), pte)
  | .check v w p g i =>
    if (pte v).present && (pte v).inVram then some (x.goto (.regen v w p g i), pte)
    else some (x.got v p.pfn w, pte)
  | .regen v w p g i =>
    if gen = g then some (x.goto (.tag v w p g i), pte) else some (x.got v p.pfn w, pte)
  | .tag v w p g i => some ((x.setTag i (some v)).goto (.confirm v w p g i), pte)
  | .confirm v w p g i =>
    if gen = g then some (x.got v p.pfn w, pte) else some (x.goto (.drop v w p i), pte)
  | .drop v w p i => some ((x.setTag i none).got v p.pfn w, pte)

def State.setEngine (s : State n k) (e : Fin n) (x : Engine k) : State n k :=
  { s with engines := Function.update s.engines e x }

def engineStep (s : State n k) : Action n k → Option (State n k)
  | .submit c =>
    match s.submitted c with
    | none => some { s with submitted := Function.update s.submitted c (some s.stores) }
    | some _ => none
  | .enter e c =>
    let x := s.engines e
    if x.point = .idle ∧ (s.submitted c).isSome then
      some (s.setEngine e { x with seq := x.seq + 1, cmd := c, point := .command })
    else none
  | .translate e v w =>
    let x := s.engines e
    if x.point = .command then some (s.setEngine e (x.goto (.probe v w 0))) else none
  | .engine e i =>
    match (s.engines e).step s.pte s.gen i with
    | none => none
    | some (x, pte) => some { s.setEngine e x with pte := pte }
  | .read e v f off =>
    let x := s.engines e
    if x.point = .command ∧ ((v, f, true) ∈ x.held ∨ (v, f, false) ∈ x.held) then
      match s.submitted x.cmd with
      | none => none
      | some at₀ =>
        some { s with reads := if s.deviceWrote v off then s.reads
          else s.reads ++ [(at₀ v off, (s.frames f off).stamp)] }
    else none
  | .write e v f off byte =>
    let x := s.engines e
    if x.point = .command ∧ (v, f, true) ∈ x.held then
      some { s with
        frames := Function.update s.frames f (Function.update (s.frames f) off ⟨byte, 0⟩)
        wrote := Function.update s.wrote v true
        deviceWrote :=
          Function.update s.deviceWrote v (Function.update (s.deviceWrote v) off true) }
    else none
  | .leave e =>
    let x := s.engines e
    if x.point = .command then
      some (s.setEngine e { x with seq := x.seq + 1, point := .idle, held := [] })
    else none
  | _ => none

/-! ### The holder of `mem_lock` -/

def allSlots (n k : ℕ) : List (Fin n × Fin k) :=
  (List.finRange n).flatMap fun e => (List.finRange k).map fun i => (e, i)

def State.setPte (s : State n k) (v : ℕ) (p : Pte) : State n k :=
  { s with pte := Function.update s.pte v p }

def State.makeResident (s : State n k) (v f : ℕ) (after : After) : State n k :=
  { s.setPte v (.inFrame f true) with
    driver := .bump v after
    wrote := Function.update s.wrote v false }

def driverStep (uffd : Bool) (s : State n k) : Action n k → Option (State n k)
  | .clearAccessed v =>
    match s.driver with
    | .idle => some (s.setPte v { s.pte v with accessed := false })
    | _ => none
  | .evict v =>
    match s.driver with
    | .idle =>
      let old := s.pte v
      if old.present && old.inVram then
        some { s.setPte v .hostResident with driver := .bump v (.evict old) }
      else none
    | _ => none
  | .migrate v f =>
    match s.driver with
    | .idle =>
      if (s.pte v).present && !(s.pte v).inVram && (s.owner f).isNone then
        some { s with owner := Function.update s.owner f (some v), driver := .copyIn v f }
      else none
    | _ => none
  | .driver ok =>
    match s.driver with
    | .idle => none
    | .bump v after => some { s with gen := s.gen + 1, driver := .shoot v after (allSlots n k) }
    | .shoot v after (x :: todo) =>
      some { s with driver :=
        if (s.engines x.1).tag x.2 = some v then .clear v after x todo else .shoot v after todo }
    | .shoot v (.evict old) [] => some { s with driver := .quiesce v old (List.finRange n) }
    | .shoot v .migrated [] => some { s with driver := if uffd then .madvise v else .idle }
    | .shoot _ .restored [] => some { s with driver := .idle }
    | .clear v after x todo =>
      some { s.setEngine x.1 ((s.engines x.1).setTag x.2 none) with driver := .shoot v after todo }
    | .quiesce v old (e :: todo) =>
      some { s with driver :=
        if (s.engines e).seq % 2 = 0 then (.quiesce v old todo)
        else (.wait v old e (s.engines e).seq todo) }
    | .quiesce v old [] => some { s with driver := .collect v old }
    | .wait v old e seq todo =>
      if (s.engines e).seq = seq then none else some { s with driver := .quiesce v old todo }
    | .collect v old =>
      some { s.setPte v { s.pte v with dirty := false, accessed := false } with
        driver := .publish v old (s.pte v).dirty }
    | .publish v old late =>
      if uffd then
        if ok then
          -- A page that is there already, EEXIST, counts as success.
          some { s with
            hostMem := Function.update s.hostMem v (some ((s.hostMem v).getD (s.frames old.pfn)))
            driver := .evicted v old.pfn }
        else some { s with driver := .restore v old.pfn }
      else
        some { s with
          hostMem := if old.dirty || late then Function.update s.hostMem v (some (s.frames old.pfn))
            else s.hostMem
          driver := .evicted v old.pfn }
    | .evicted _ f => some { s with owner := Function.update s.owner f none, driver := .idle }
    | .restore v f => some (s.makeResident v f .restored)
    | .copyIn v f =>
      some { s with
        frames := Function.update s.frames f ((s.hostMem v).getD .zero)
        hostStored := Function.update s.hostStored v false
        driver := .install v f }
    | .install v f => some (s.makeResident v f .migrated)
    | .madvise v =>
      some { s with
        hostMem := if ok then Function.update s.hostMem v none else s.hostMem
        driver := .idle }
  | _ => none

/-! ### The host

An access to a missing page blocks, so it is not enabled. -/

def hostStep (s : State n k) : Action n k → Option (State n k)
  | .hostStore v off byte =>
    match s.hostMem v with
    | none => none
    | some page =>
      let count := s.stores v off + 1
      some { s with
        hostMem := Function.update s.hostMem v (some (Function.update page off ⟨byte, count⟩))
        hostStored := Function.update s.hostStored v true
        stores := Function.update s.stores v (Function.update (s.stores v) off count) }
  | .hostLoad v off =>
    match s.hostMem v with
    | none => none
    | some page =>
      some { s with loads := if s.deviceWrote v off then s.loads
        else s.loads ++ [(s.stores v off, (page off).stamp)] }
  | _ => none

def step (uffd : Bool) (s : State n k) (a : Action n k) : Option (State n k) :=
  ((engineStep s a).orElse fun _ => driverStep uffd s a).orElse fun _ => hostStep s a

end SoftGpu.Paging
