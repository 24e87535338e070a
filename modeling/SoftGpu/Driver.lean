import SoftGpu.Machine
import SoftGpu.Mapping

/-!
# The memory side of the driver at lock granularity

`SG_IOC_ALLOC`, `SG_IOC_ALLOC_MANAGED` and `SG_IOC_FREE` run under `alloc_lock`
and take `mem_lock` for each critical section; the device-fault thread and the
host-fault thread take `mem_lock` only. One action is one critical section of
`mem_lock`, one page-table operation, or one step that only the holder of
`alloc_lock` can see. Between actions anything else may run: other threads,
engines that read and write frames, the host that stores through managed
pointers, channels that publish and retire commands.

`Holder` is the program point of the thread that holds `alloc_lock`. Pins are
left out: a released pin on the pending list owns no frame and no mapping.

The fields from `nextId` on are history. `owner` names the allocation of a
managed page, `first` is the first device command that has accessed it since it
was created, `stored` is what the host has stored, `expected` is what the first
command has to find, `moves` pairs the allocation of a faulting page with that of
every page its service migrates, and `reads` has every access that the first
command makes: a command whose page is evicted between two attempts comes back
to it.
-/

namespace SoftGpu.Driver
open Machine VramAllocator

def vramBytes : ℕ := 256 * 2 ^ 20
def vaBytes : ℕ := 2 ^ 30

abbrev Chan := ℕ × ℕ

instance lawfulBEqChan : LawfulBEq Chan := inferInstance

structure Config where
  engines : ℕ
  channels : ℕ
  uffd : Bool
  prefetchPages : ℕ

def Config.chans (cfg : Config) : List Chan :=
  (List.range cfg.engines).flatMap fun e => (List.range cfg.channels).map fun c => (e, c)

structure Alloc where
  size : ℕ
  host : ℕ
  deriving DecidableEq, Repr

structure Pending where
  addr : ℕ
  size : ℕ
  host : ℕ
  fence : Chan → ℕ

structure FaultStream where
  next : ℕ
  used : ℕ
  deriving DecidableEq, Repr

inductive Request
  | alloc (size : ℕ)
  | allocManaged (size : ℕ)
  | free (addr : ℕ)
  | reclaim
  deriving DecidableEq, Repr

inductive Next
  | done
  | take (size tries : ℕ)
  | mapManaged (size tries : ℕ)
  | lookup (addr : ℕ)
  deriving DecidableEq, Repr

inductive Holder
  | free
  | reclaim (todo kept : List Pending) (next : Next)
  | run (next : Next)
  | drain (next : Next)
  | evictAll (size : ℕ)
  | mapBlock (addr size : ℕ)
  | undo (addr len : ℕ)
  | addRange (addr bytes host id : ℕ)
  | snapshot (p : Pending) (todo : List Chan)

/-- The device-fault thread: a fault popped, or a prefetch due at `next` for
the fault stream `stream` after a page of the allocation `id` came in. -/
inductive Service
  | idle
  | popped (c : Chan) (va : ℕ)
  | prefetch (c : Chan) (stream next id : ℕ)
  deriving DecidableEq, Repr

/-- A submitted command: what the host had stored, page by page, the pages it has
stored to since, and whether the command has retired. -/
structure Cmd where
  stored : ℕ → Page
  since : ℕ → Bool
  retired : Bool

/-- An access by the first command of a page. `expected` is what the host had stored
when that command was submitted, with the device's own writes over it. -/
structure Read where
  page : ℕ
  found : Page
  expected : Page

structure State where
  mem : Mem
  managedVa : VramAllocator
  allocs : KeyMap Alloc
  pending : List Pending
  holder : Holder
  published : Chan → ℕ
  retired : Chan → ℕ
  faults : List (Chan × ℕ)
  service : Service
  streams : Chan → List FaultStream
  streamClock : ℕ
  nextId : ℕ
  owner : ℕ → ℕ
  first : ℕ → Option ℕ
  stored : ℕ → Page
  expected : ℕ → Page
  cmds : ℕ → Option Cmd
  moves : List (ℕ × ℕ)
  reads : List Read

def init (cfg : Config) : State where
  mem :=
    { uffd := cfg.uffd
      vram := .new 0 vramBytes pageSize
      mmu := .new (vaBytes / pageSize) (vramBytes / pageSize)
      resident := []
      residentPos := fun _ => none
      nextNode := 0
      ranges := .empty
      prefetchPages := cfg.prefetchPages
      frames := fun _ => .zero
      hostMem := fun _ => none }
  managedVa := .new vramBytes (vaBytes - vramBytes) pageSize
  allocs := .empty
  pending := []
  holder := .free
  published := fun _ => 0
  retired := fun _ => 0
  faults := []
  service := .idle
  streams := fun _ => List.replicate 4 ⟨0, 0⟩
  streamClock := 0
  nextId := 0
  owner := fun _ => 0
  first := fun _ => none
  stored := fun _ => .zero
  expected := fun _ => .zero
  cmds := fun _ => none
  moves := []
  reads := []

inductive Action
  | publish (c : Chan)
  | retire (c : Chan)
  | lock (req : Request)
  | reclaim
  | take
  | drain (ok : Bool)
  | evictAll (envs : ℕ → Env)
  | mapBlock
  | undo
  | mapManaged (host : Option ℕ)
  | addRange
  | lookup
  | snap
  | raise (c : Chan) (va : ℕ)
  | pop
  | demand (env : Env)
  | prefetch (envs : ℕ → Env)
  | hostFault (addr : ℕ) (env : Env)
  | submit (k : ℕ)
  | access (k vpn : ℕ) (write : Option Page)
  | finish (k : ℕ)
  | hostStore (vpn : ℕ) (off : Fin pageSize) (byte : UInt8)

/-! ### Under `alloc_lock` -/

def allRetired (cfg : Config) (s : State) (fence : Chan → ℕ) : Bool :=
  cfg.chans.all fun c => fence c ≤ s.retired c

def State.recycle (s : State) (p : Pending) : State :=
  if p.host = 0 then { s with mem := s.mem.recycleVram p.addr p.size }
  else { s with
    mem := s.mem.recycleManaged p.addr p.size p.host
    managedVa := s.managedVa.freeAddr p.addr }

def State.reclaimThen (s : State) (next : Next) : State :=
  { s with pending := [], holder := .reclaim s.pending [] next }

def Request.next : Request → Next
  | .alloc size => .take size 0
  | .allocManaged size => .mapManaged size 0
  | .free addr => .lookup addr
  | .reclaim => .done

def State.backings (s : State) : List (ℕ × ℕ) :=
  (s.allocs.entries.filterMap fun e =>
    if e.2.host = 0 then none else some (e.2.host, e.2.size)) ++
  s.pending.filterMap fun p => if p.host = 0 then none else some (p.host, p.size)

def State.hostOk (s : State) (host bytes : ℕ) : Bool :=
  host % pageSize = 0 ∧ 0 < host ∧
    s.backings.all fun b => b.1 + b.2 ≤ host ∨ host + bytes ≤ b.1

def onRange {β : Type*} (f : ℕ → β) (addr bytes : ℕ) (x : β) : ℕ → β :=
  fun v => if addr / pageSize ≤ v ∧ v < addr / pageSize + bytes / pageSize then x else f v

def State.created (s : State) (va : VramAllocator) (mmu : Mmu) (addr bytes host : ℕ) : State :=
  { s with
    mem := { s.mem with
      mmu := mmu
      hostMem := fun h => if host ≤ h ∧ h < host + bytes then some .zero else s.mem.hostMem h }
    managedVa := va
    holder := .addRange addr bytes host s.nextId
    nextId := s.nextId + 1
    owner := onRange s.owner addr bytes s.nextId
    first := onRange s.first addr bytes none
    stored := onRange s.stored addr bytes .zero
    expected := onRange s.expected addr bytes .zero
    cmds := fun k => (s.cmds k).map fun c =>
      ⟨onRange c.stored addr bytes .zero, onRange c.since addr bytes false, c.retired⟩ }

def holderStep (cfg : Config) (s : State) : Action → Option State
  | .lock req =>
    match s.holder with
    | .free =>
      -- A zero size is refused before the lock.
      if req = .alloc 0 ∨ req = .allocManaged 0 then none else some (s.reclaimThen req.next)
    | _ => none
  | .reclaim =>
    match s.holder with
    | .reclaim (p :: todo) kept next =>
      if allRetired cfg s p.fence then
        some { s.recycle p with holder := .reclaim todo kept next }
      else some { s with holder := .reclaim todo (kept ++ [p]) next }
    | .reclaim [] kept next =>
      some { s with pending := kept, holder := if next = .done then .free else .run next }
    | _ => none
  | .take =>
    match s.holder with
    | .run (.take size tries) =>
      match s.mem.allocFrame size with
      | some (addr, mem) => some { s with mem := mem, holder := .mapBlock addr size }
      | none =>
        match tries with
        | 0 => some { s with holder := .drain (.take size 1) }
        | 1 => some { s with holder := .evictAll size }
        | _ => some { s with holder := .free }
    | _ => none
  | .drain ok =>
    match s.holder with
    | .drain next => some (if ok then s.reclaimThen next else { s with holder := .free })
    | _ => none
  | .evictAll envs =>
    match s.holder with
    | .evictAll size =>
      some { s with
        mem := s.mem.evictAllLocked envs s.mem.resident.length
        holder := .run (.take size 2) }
    | _ => none
  | .mapBlock =>
    match s.holder with
    | .mapBlock addr size =>
      let bytes := roundUp pageSize size
      match s.mem.mmu.mapVram addr addr (bytes / pageSize) with
      | .ok mmu =>
        some { s with
          mem := { s.mem with mmu := mmu }
          allocs := s.allocs.emplace addr ⟨bytes, 0⟩
          holder := .free }
      | .error _ => some { s with holder := .undo addr bytes }
    | _ => none
  | .undo =>
    match s.holder with
    | .undo addr _ => some { s with mem := s.mem.freeFrame addr, holder := .free }
    | _ => none
  | .mapManaged host =>
    match s.holder with
    | .run (.mapManaged size tries) =>
      match s.managedVa.alloc size with
      | none =>
        match tries with
        | 0 => some { s with holder := .drain (.mapManaged size 1) }
        | _ => some { s with holder := .free }
      | some (addr, va) =>
        let bytes := roundUp pageSize size
        match host with
        | none => some { s with managedVa := va.freeAddr addr, holder := .free }
        | some h =>
          if s.hostOk h bytes then
            match s.mem.mmu.mapHost addr h (bytes / pageSize) with
            | .error _ => some { s with managedVa := va.freeAddr addr, holder := .free }
            | .ok mmu => some (s.created va mmu addr bytes h)
          else none
    | _ => none
  | .addRange =>
    match s.holder with
    | .addRange addr bytes host id =>
      some { s with
        mem := { s.mem with ranges := s.mem.ranges.emplace addr ⟨addr + bytes, host, id⟩ }
        allocs := s.allocs.emplace addr ⟨bytes, host⟩
        holder := .free }
    | _ => none
  | .lookup =>
    match s.holder with
    | .run (.lookup addr) =>
      match s.allocs.find addr with
      | none => some { s with holder := .free }
      | some al =>
        some { s with
          allocs := s.allocs.erase addr
          holder := .snapshot ⟨addr, al.size, al.host, fun _ => 0⟩ cfg.chans }
    | _ => none
  | .snap =>
    match s.holder with
    | .snapshot p (c :: todo) =>
      some { s with
        holder := .snapshot { p with fence := Function.update p.fence c (s.published c) } todo }
    | .snapshot p [] =>
      if allRetired cfg s p.fence then some { s.recycle p with holder := .free }
      else some { s with pending := s.pending ++ [p], holder := .free }
    | _ => none
  | _ => none

/-! ### The fault threads -/

def lruStream (set : List FaultStream) : ℕ :=
  (List.range set.length).foldl
    (fun l i => if (set.getD i ⟨0, 0⟩).used < (set.getD l ⟨0, 0⟩).used then i else l) 0

/-- `match_stream`: the stream that expected this page, or the least recently
used one; the Boolean is `*sequential`. -/
def matchStream (set : List FaultStream) (va : ℕ) : ℕ × Bool :=
  match set.findIdx? fun f => f.used ≠ 0 && f.next = va with
  | some i => (i, true)
  | none => (lruStream set, false)

def faultStep (s : State) : Action → Option State
  | .raise c va =>
    -- An engine's translation found the page host-resident.
    if (s.mem.mmu.page va).kind = .host then
      some { s with faults := s.faults ++ [(c, va / pageSize * pageSize)] }
    else none
  | .pop =>
    match s.service, s.faults with
    | .idle, (c, va) :: rest => some { s with faults := rest, service := .popped c va }
    | _, _ => none
  | .demand env =>
    match s.service with
    | .popped c va =>
      match s.mem.migrateLocked va env with
      | (.ok true, mem) =>
        let id := s.owner (va / pageSize)
        let (i, sequential) := matchStream (s.streams c) va
        let set := (s.streams c).set i ⟨va + pageSize, s.streamClock + 1⟩
        some { s with
          mem := mem
          streams := Function.update s.streams c set
          streamClock := s.streamClock + 1
          moves := s.moves ++ [(id, id)]
          service :=
            if sequential && mem.prefetchPages ≠ 0 then .prefetch c i (va + pageSize) id
            else .idle }
      | (_, mem) => some { s with mem := mem, service := .idle }
    | _ => none
  | .prefetch envs =>
    match s.service with
    | .prefetch c i next id =>
      let (last, moved, mem) := s.mem.prefetchLocked next envs
      let set := (s.streams c).modify i fun f => { f with next := last }
      some { s with
        mem := mem
        streams := Function.update s.streams c set
        moves := s.moves ++ moved.map fun va => (id, s.owner (va / pageSize))
        service := .idle }
    | _ => none
  | .hostFault addr env =>
    if s.mem.uffd then
      some { s with mem := s.mem.serveHostFault (addr / pageSize * pageSize) env }
    else none
  | _ => none

/-! ### Engines, channels and the host -/

def State.firstOf (s : State) (k v : ℕ) : ℕ := (s.first v).getD k

/-- What an access by `c` has to find on page `v`: what the host had stored when the
first command was submitted, under what the device has written since. -/
def State.seen (s : State) (c : Cmd) (v : ℕ) : Page :=
  if s.first v = none then c.stored v else s.expected v

def State.accessed (s : State) (k : ℕ) (c : Cmd) (v : ℕ) (write : Option Page) : State :=
  let p := s.mem.mmu.pte v
  { s with
    mem := { s.mem with
      mmu := s.mem.mmu.orFlags (v * pageSize) write.isSome true
      frames := match write with
        | none => s.mem.frames
        | some data => Function.update s.mem.frames p.pa data }
    first := Function.update s.first v (some (s.firstOf k v))
    expected := Function.update s.expected v (write.getD (s.seen c v))
    reads := if s.firstOf k v = k ∧ s.mem.mmu.vramPages ≤ v then
        s.reads ++ [⟨v, s.mem.frames p.pa, s.seen c v⟩]
      else s.reads }

def worldStep (s : State) : Action → Option State
  | .publish c => some { s with published := Function.update s.published c (s.published c + 1) }
  | .retire c =>
    if s.retired c < s.published c then
      some { s with retired := Function.update s.retired c (s.retired c + 1) }
    else none
  | .submit k =>
    match s.cmds k with
    | none =>
      some { s with cmds := Function.update s.cmds k (some ⟨s.stored, fun _ => false, false⟩) }
    | some _ => none
  | .access k v write =>
    match s.cmds k with
    | none => none
    | some c =>
      let p := s.mem.mmu.pte v
      if p.present && p.inVram && !c.retired then
        some (s.accessed k c v write)
      else none
  | .finish k =>
    match s.cmds k with
    | none => none
    | some c =>
      if c.retired then none
      else some { s with cmds := Function.update s.cmds k (some { c with retired := true }) }
  | .hostStore v off byte =>
    let h := s.mem.mmu.host v
    if (s.mem.mmu.pte v).present ∧ s.mem.mmu.vramPages ≤ v then
      match s.mem.hostMem h with
      | none => none
      | some page =>
        some { s with
          mem := { s.mem with
            hostMem := Function.update s.mem.hostMem h (some (Function.update page off byte)) }
          stored := Function.update s.stored v (Function.update (s.stored v) off byte)
          cmds := fun k => (s.cmds k).map fun c =>
            { c with since := Function.update c.since v true } }
    else none
  | _ => none

def step (cfg : Config) (s : State) (a : Action) : Option State :=
  ((holderStep cfg s a).orElse fun _ => faultStep s a).orElse fun _ => worldStep s a

end SoftGpu.Driver
