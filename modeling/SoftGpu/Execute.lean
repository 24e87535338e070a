import SoftGpu.Managed
import SoftGpu.Command
import SoftGpu.Patch

/-!
# Execution of a command

`Device::execute` with what it calls: the walk from a virtual address to the longest
resident contiguous run, the loop over runs, and the replay state that remembers how
far a command has got when it faults. One call is one attempt. During an attempt the
pages it has translated stay where they are (`Eviction`), so translation is a lookup
in the page table; what other threads do to residency happens between attempts.

VRAM is addressed by the byte. A host buffer is memory of its own, apart from the
host pages that back managed memory. The commands are those that `do_submit` accepts,
whose operands end below `2 ^ 64`, so that addresses are natural numbers. A scratch
buffer is the function that gives its bytes, 0 beyond its size. Floats are words of
four bytes with two operations that are left open.
-/

namespace SoftGpu

abbrev Word : Type := Fin 4 → UInt8

namespace Mem

def bytes (m : Mem) (pa : ℕ) : UInt8 :=
  m.frames (pa / pageSize * pageSize) ⟨pa % pageSize, Nat.mod_lt pa pageSize_pos⟩

def setBytes (m : Mem) (f : ℕ → UInt8) : Mem := { m with frames := fun pa off => f (pa + off) }

end Mem

namespace Exec

inductive Outcome (α : Type)
  | done (x : α)
  | pageFault (va : ℕ)
  | split
  | error (e : Errno)

def Outcome.andThen {α β : Type} {σ τ : Type*} (x : Outcome α × σ) (other : σ → τ)
    (next : α → σ → Outcome β × τ) : Outcome β × τ :=
  match x with
  | (.done y, s) => next y s
  | (.pageFault va, s) => (.pageFault va, other s)
  | (.split, s) => (.split, other s)
  | (.error e, s) => (.error e, other s)

inductive Translate
  | ok (pa : ℕ)
  | hostResident
  | notPresent
  deriving DecidableEq

def translate (m : Mem) (va : ℕ) (write : Bool) : Translate × Mem :=
  let p := m.mmu.pte (va / pageSize)
  if m.mmu.npages ≤ va / pageSize ∨ p.present = false then (.notPresent, m)
  else if p.inVram = false then (.hostResident, m)
  -- `walk` sets ACCESSED, a TLB hit leaves it as it is. The bit only steers the CLOCK hand,
  -- and how long that can delay a command is proved for any bits (`Clock.Step.stall`).
  else (.ok p.pa, { m with mmu := m.mmu.orFlags va write true })

def runLoop (va len : ℕ) (write : Bool) : ℕ → ℕ → ℕ → Mem → Outcome (ℕ × ℕ) × Mem
  | 0, base, got, m => (.done (base, got), m)
  | turns + 1, base, got, m =>
    if got < len then
      let cur := va + got
      let next := got + min (len - got) (pageSize - cur % pageSize)
      match translate m cur write with
      | (.ok frame, m') =>
        let pa := frame + cur % pageSize
        if got = 0 then runLoop va len write turns pa next m'
        else if pa ≠ base + got then (.done (base, got), m')
        else runLoop va len write turns base next m'
      | (.hostResident, m') =>
        if got ≠ 0 then (.done (base, got), m')
        else (.pageFault (cur / pageSize * pageSize), m')
      | (.notPresent, m') => if got ≠ 0 then (.done (base, got), m') else (.error .efault, m')
    else (.done (base, got), m)

def runAt (m : Mem) (va len : ℕ) (write : Bool) : Outcome (ℕ × ℕ) × Mem :=
  Outcome.andThen (runLoop va len write len 0 0 m) id fun run m' =>
    if m.vramSize < run.1 ∨ m.vramSize - run.1 < run.2 then (.error .efault, m')
    else (.done run, m')

def resolve (m : Mem) (va len : ℕ) (write : Bool) : Outcome ℕ × Mem :=
  if len = 0 then (.done 0, m)
  else Outcome.andThen (runAt m va len write) id fun run m' =>
    (if run.2 = len then .done run.1 else .split, m')

structure World where
  mem : Mem
  host : ℕ → UInt8

structure Replay where
  done : ℕ
  phase : ℕ
  gather : Bool
  a : ℕ → UInt8
  b : ℕ → UInt8
  c : ℕ → UInt8

def Replay.init : Replay := ⟨0, 0, false, fun _ => 0, fun _ => 0, fun _ => 0⟩

section
variable {σ : Type}

/-- `for_runs`, on a state that the operation works on beside the memory. Every turn
covers at least a byte. Returns the bytes done. -/
def forRuns (va len : ℕ) (write : Bool) (op : ℕ → ℕ → ℕ → Mem × σ → Mem × σ) :
    ℕ → ℕ → Mem × σ → Outcome Unit × ℕ × Mem × σ
  | 0, done, s => (.done (), done, s)
  | turns + 1, done, (m, x) =>
    if done < len then
      Outcome.andThen (runAt m (va + done) (len - done) write) (fun m' => (done, m', x))
        fun run m' => forRuns va len write op turns (done + run.2) (op run.1 done run.2 (m', x))
    else (.done (), done, m, x)

end

def readRun (dst p off n : ℕ) (s : Mem × (ℕ → UInt8)) : Mem × (ℕ → UInt8) :=
  (s.1, patch s.2 (dst + off) n fun i => s.1.bytes (p + i))

def writeRun (src : ℕ → UInt8) (p off n : ℕ) (s : Mem × Unit) : Mem × Unit :=
  (s.1.setBytes (patch s.1.bytes p n fun i => src (off + i)), s.2)

def readRuns (m : Mem) (done va len dst : ℕ) (buf : ℕ → UInt8) :
    Outcome Unit × ℕ × Mem × (ℕ → UInt8) :=
  forRuns va len false (readRun dst) len done (m, buf)

def writeRuns (m : Mem) (done va len : ℕ) (src : ℕ → UInt8) : Outcome Unit × ℕ × Mem × Unit :=
  forRuns va len true (writeRun src) len done (m, ())

/-! ### The kernels -/

structure Floats where
  add : Word → Word → Word
  mul : Word → Word → Word

def Word.zero : Word := fun _ => 0

def element (f : ℕ → UInt8) (p i : ℕ) : Word := fun b => f (p + 4 * i + b)

def setElement (f : ℕ → UInt8) (p i : ℕ) (w : Word) : ℕ → UInt8 :=
  patch f (p + 4 * i) 4 fun j => if h : j < 4 then w ⟨j, h⟩ else 0

structure Operands (σ : Type) where
  a : σ → ℕ → Word
  b : σ → ℕ → Word
  out : σ → ℕ → Word
  store : σ → ℕ → Word → σ

section
variable {σ : Type}

def vaddKernel (fl : Floats) (o : Operands σ) (n : ℕ) (s : σ) : σ :=
  upto n (fun i s => o.store s i (fl.add (o.a s i) (o.b s i))) s

def gemmRow (fl : Floats) (o : Operands σ) (n k i : ℕ) (s : σ) : σ :=
  let cleared := upto n (fun j s => o.store s (i * n + j) Word.zero) s
  upto k (fun p s =>
    let aip := o.a s (i * k + p)
    upto n (fun j s => o.store s (i * n + j)
      (fl.add (o.out s (i * n + j)) (fl.mul aip (o.b s (p * n + j))))) s) cleared

def gemmKernel (fl : Floats) (o : Operands σ) (m n k : ℕ) (s : σ) : σ :=
  upto m (gemmRow fl o n k) s

end

def inPlace (d s₀ s₁ : ℕ) : Operands (ℕ → UInt8) where
  a := fun f i => element f s₀ i
  b := fun f i => element f s₁ i
  out := fun f i => element f d i
  store := fun f i w => setElement f d i w

def inScratch (a b : ℕ → UInt8) : Operands (ℕ → UInt8) where
  a := fun _ i => element a 0 i
  b := fun _ i => element b 0 i
  out := fun f i => element f 0 i
  store := fun f i w => setElement f 0 i w

structure Kernel where
  bytesA : ℕ
  bytesB : ℕ
  bytesD : ℕ
  run : Operands (ℕ → UInt8) → (ℕ → UInt8) → ℕ → UInt8

def Cmd.kernel (fl : Floats) (c : Cmd) : Kernel :=
  if c.opcode = .vaddF32 then
    { bytesA := (vectorBytes c.arg0).toNat
      bytesB := (vectorBytes c.arg0).toNat
      bytesD := (vectorBytes c.arg0).toNat
      run := fun o => vaddKernel fl o c.arg0.toNat }
  else
    { bytesA := (matrixBytes c.arg0 c.arg2).toNat
      bytesB := (matrixBytes c.arg2 c.arg1).toNat
      bytesD := (matrixBytes c.arg0 c.arg1).toNat
      run := fun o => gemmKernel fl o c.arg0.toNat c.arg1.toNat c.arg2.toNat }

/-! ### Commands -/

def scatter (m : Mem) (r : Replay) (va len : ℕ) (src : ℕ → UInt8) : Outcome Unit × Replay × Mem :=
  match writeRuns m r.done va len src with
  | (o, done, m', _) => (o, { r with done := done }, m')

def gatherA (m : Mem) (r : Replay) (va len : ℕ) : Outcome Unit × Replay × Mem :=
  if r.phase = 0 then
    match readRuns m r.done va len 0 r.a with
    | (.done _, _, m', buf) => (.done (), { r with a := buf, phase := 1, done := 0 }, m')
    | (o, done, m', buf) => (o, { r with a := buf, done := done }, m')
  else (.done (), r, m)

def gatherB (m : Mem) (r : Replay) (va len : ℕ) : Outcome Unit × Replay × Mem :=
  if r.phase = 1 then
    match readRuns m r.done va len 0 r.b with
    | (.done _, _, m', buf) => (.done (), { r with b := buf, phase := 2, done := 0 }, m')
    | (o, done, m', buf) => (o, { r with b := buf, done := done }, m')
  else (.done (), r, m)

def computeC (k : Kernel) (r : Replay) : Replay :=
  if r.phase = 2 then { r with c := k.run (inScratch r.a r.b) r.c, phase := 3 } else r

def resolveAll (m : Mem) (c : Cmd) (k : Kernel) : Outcome (ℕ × ℕ × ℕ) × Mem :=
  Outcome.andThen (resolve m c.src0.toNat k.bytesA false) id fun s₀ m₁ =>
    Outcome.andThen (resolve m₁ c.src1.toNat k.bytesB false) id fun s₁ m₂ =>
      Outcome.andThen (resolve m₂ c.dst.toNat k.bytesD true) id fun d m₃ => (.done (d, s₀, s₁), m₃)

def computePhases (m : Mem) (r : Replay) (c : Cmd) (k : Kernel) : Outcome Unit × Replay × Mem :=
  Outcome.andThen (gatherA m r c.src0.toNat k.bytesA) id fun _ s₁ =>
    Outcome.andThen (gatherB s₁.2 s₁.1 c.src1.toNat k.bytesB) id fun _ s₂ =>
      scatter s₂.2 (computeC k s₂.1) c.dst.toNat k.bytesD (computeC k s₂.1).c

def compute (m : Mem) (r : Replay) (c : Cmd) (k : Kernel) : Outcome Unit × Replay × Mem :=
  if r.gather then computePhases m r c k
  else match resolveAll m c k with
    | (.done (d, s₀, s₁), m') => (.done (), r, m'.setBytes (k.run (inPlace d s₀ s₁) m'.bytes))
    | (.pageFault va, m') => (.pageFault va, { r with gather := true }, m')
    | (.split, m') => computePhases m' { r with gather := true } c k
    | (.error e, m') => (.error e, r, m')

def copyRuns (dst src len : ℕ) : ℕ → ℕ → Mem → Outcome Unit × ℕ × Mem
  | 0, done, m => (.done (), done, m)
  | turns + 1, done, m =>
    if done < len then
      Outcome.andThen (runAt m (dst + done) (len - done) true) (fun m' => (done, m')) fun d m₁ =>
        Outcome.andThen (runAt m₁ (src + done) (len - done) false)
        (fun m' => (done, m')) fun s m₂ =>
          copyRuns dst src len turns (done + min d.2 s.2)
            (m₂.setBytes (patch m₂.bytes d.1 (min d.2 s.2) fun i => m₂.bytes (s.1 + i)))
    else (.done (), done, m)

def movePhases (m : Mem) (r : Replay) (c : Cmd) : Outcome Unit × Replay × Mem :=
  Outcome.andThen (gatherA m r c.src0.toNat c.size.toNat) id fun _ s₁ =>
    scatter s₁.2 s₁.1 c.dst.toNat c.size.toNat s₁.1.a

def resolveBoth (m : Mem) (c : Cmd) : Outcome (ℕ × ℕ) × Mem :=
  Outcome.andThen (resolve m c.dst.toNat c.size.toNat true) id fun d m₁ =>
    Outcome.andThen (resolve m₁ c.src0.toNat c.size.toNat false) id fun s m₂ => (.done (d, s), m₂)

def move (m : Mem) (r : Replay) (c : Cmd) : Outcome Unit × Replay × Mem :=
  if r.gather then movePhases m r c
  else match resolveBoth m c with
    | (.done (d, s), m') =>
      (.done (), r, m'.setBytes (patch m'.bytes d c.size.toNat fun i => m'.bytes (s + i)))
    | (.pageFault va, m') => (.pageFault va, { r with gather := true }, m')
    | (.split, m') => movePhases m' { r with gather := true } c
    | (.error e, m') => (.error e, r, m')

def Cmd.overlap (c : Cmd) : Bool :=
  c.size.toNat ≠ 0 ∧ c.dst.toNat < c.src0.toNat + c.size.toNat ∧
    c.src0.toNat < c.dst.toNat + c.size.toNat

def execute (fl : Floats) (engine : ℕ) (w : World) (r : Replay) (c : Cmd) :
    Outcome Unit × Replay × World :=
  -- The commands that only touch device memory.
  let onDevice : Outcome Unit × Replay × Mem → Outcome Unit × Replay × World :=
    fun x => (x.1, x.2.1, ⟨x.2.2, w.host⟩)
  if c.opcode.misplaced engine then (.error .einval, r, w)
  else match c.opcode with
  | .nop => (.done (), r, w)
  | .fill => onDevice (scatter w.mem r c.dst.toNat c.size.toNat fun _ => UInt8.ofNat c.value.toNat)
  | .copyH2D =>
    onDevice (scatter w.mem r c.dst.toNat c.size.toNat fun i => w.host (c.src0.toNat + i))
  | .copyD2H =>
    match readRuns w.mem r.done c.src0.toNat c.size.toNat c.dst.toNat w.host with
    | (o, done, m', host) => (o, { r with done := done }, ⟨m', host⟩)
  | .copyD2D =>
    if c.overlap then onDevice (move w.mem r c)
    else match copyRuns c.dst.toNat c.src0.toNat c.size.toNat c.size.toNat r.done w.mem with
      | (o, done, m') => (o, { r with done := done }, ⟨m', w.host⟩)
  | .vaddF32 | .gemmF32 => onDevice (compute w.mem r c (c.kernel fl))
  | .waitFence => (.error .einval, r, w)

end Exec

end SoftGpu
