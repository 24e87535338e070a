import SoftGpu.Answers
import SoftGpu.PteWord
import SoftGpu.Tlb

/-!
# The page table in words

`Mmu` as the source has it: the table and the entries of the TLBs are words of 64 bits,
addresses are split with shifts and masks, ranges are checked and host addresses are
counted up in 64-bit arithmetic, and the generation and the hit and miss counters are
there. Calls come one after the other.
-/

namespace SoftGpu.Words

open Tlb (tlbEntries maxEngines)

structure TlbEntry where
  vpn : UInt64
  pte : UInt64
  lastUsed : UInt64

structure EngineTlb where
  entry : Fin tlbEntries → TlbEntry
  clock : UInt64

inductive Translate
  | ok (pa : UInt64)
  | notPresent
  | hostResident
  deriving DecidableEq, Repr

structure PageInfo where
  kind : PageKind
  host : UInt64
  pa : UInt64
  deriving DecidableEq, Repr

structure Mmu where
  pte : UInt64 → UInt64
  host : UInt64 → UInt64
  npages : UInt64
  vramPages : UInt64
  tlb : Fin maxEngines → EngineTlb
  tlbGen : UInt64
  tlbHits : Fin maxEngines → UInt64
  tlbMisses : Fin maxEngines → UInt64

def noVpn : UInt64 := ~~~0

/-! ### One engine's TLB -/

namespace EngineTlb

def new : EngineTlb := ⟨fun _ => ⟨noVpn, 0, 0⟩, 1⟩

def set (t : EngineTlb) (i : Fin tlbEntries) (e : TlbEntry) : EngineTlb :=
  { t with entry := Function.update t.entry i e }

def invalidate (t : EngineTlb) (vpn : UInt64) : EngineTlb :=
  { t with entry := fun i =>
      if (t.entry i).vpn = vpn then { t.entry i with vpn := noVpn } else t.entry i }

theorem tlbEntries_pos : 0 < tlbEntries := by decide

def slot (entry : Fin tlbEntries → TlbEntry) :
    List (Fin tlbEntries) → Fin tlbEntries → UInt64 → Fin tlbEntries
  | [], best, _ => best
  | i :: is, best, oldest =>
    if (entry i).vpn = noVpn then i
    else if (entry i).lastUsed < oldest then slot entry is i (entry i).lastUsed
    else slot entry is best oldest

end EngineTlb

/-! ### The table -/

namespace Mmu

def new (vaBytes vramBytes : UInt64) : Mmu where
  pte := fun _ => 0
  host := fun _ => 0
  npages := vaBytes / 4096
  vramPages := vramBytes / 4096
  tlb := fun _ => .new
  tlbGen := 0
  tlbHits := fun _ => 0
  tlbMisses := fun _ => 0

def setPte (x : Mmu) (vpn pte : UInt64) : Mmu := { x with pte := Function.update x.pte vpn pte }

def setHost (x : Mmu) (vpn host : UInt64) : Mmu :=
  { x with host := Function.update x.host vpn host }

def setTlb (x : Mmu) (engine : Fin maxEngines) (t : EngineTlb) : Mmu :=
  { x with tlb := Function.update x.tlb engine t }

def bumpGen (x : Mmu) : Mmu := { x with tlbGen := x.tlbGen + 1 }

def tlbInvalidateVpn (x : Mmu) (vpn : UInt64) : Mmu :=
  { x with tlb := fun e => (x.tlb e).invalidate vpn }

def forEach (f : Mmu → UInt64 → Mmu) (x : Mmu) : ℕ → Mmu
  | 0 => x
  | n + 1 => f (forEach f x n) (UInt64.ofNat n)

def anyPresent (x : Mmu) (vpn0 npages : UInt64) : Prop :=
  ∃ i < npages.toNat, x.pte (vpn0 + UInt64.ofNat i) &&& ptePresent ≠ 0

instance (x : Mmu) (vpn0 npages : UInt64) : Decidable (x.anyPresent vpn0 npages) :=
  inferInstanceAs (Decidable
    (∃ i < npages.toNat, x.pte (vpn0 + UInt64.ofNat i) &&& ptePresent ≠ 0))

def mapVram (x : Mmu) (va pa npages : UInt64) : Option Errno × Mmu :=
  let vpn0 := va >>> pageShift
  let pfn0 := pa >>> pageShift
  if (va ||| pa) &&& pageMask ≠ 0 then (some .einval, x)
  else if npages = 0 then (some .einval, x)
  else if x.npages ≤ vpn0 ∨ x.npages - vpn0 < npages then (some .einval, x)
  else if x.vramPages ≤ pfn0 ∨ x.vramPages - pfn0 < npages then (some .einval, x)
  else if x.anyPresent vpn0 npages then (some .eexist, x)
  else (none, forEach (fun x i =>
    let pte := ptePresent ||| pteInVram ||| (pfn0 + i) <<< pteFrameShift
    (x.setPte (vpn0 + i) pte).tlbInvalidateVpn (vpn0 + i)) x npages.toNat)

def mapHost (x : Mmu) (va host npages : UInt64) : Option Errno × Mmu :=
  let vpn0 := va >>> pageShift
  if (va ||| host) &&& pageMask ≠ 0 then (some .einval, x)
  else if npages = 0 then (some .einval, x)
  else if x.npages ≤ vpn0 ∨ x.npages - vpn0 < npages then (some .einval, x)
  else if x.anyPresent vpn0 npages then (some .eexist, x)
  else (none, forEach (fun x i =>
    ((x.setHost (vpn0 + i) (host + i * 4096)).setPte (vpn0 + i) ptePresent).tlbInvalidateVpn
      (vpn0 + i)) x npages.toNat)

def makeResident (x : Mmu) (va pa : UInt64) : Option Errno × Mmu :=
  let vpn := va >>> pageShift
  let pfn := pa >>> pageShift
  let cur := x.pte vpn
  if (va ||| pa) &&& pageMask ≠ 0 then (some .einval, x)
  else if x.npages ≤ vpn ∨ x.vramPages ≤ pfn then (some .einval, x)
  else if cur &&& ptePresent = 0 then (some .einval, x)
  else if cur &&& pteInVram ≠ 0 then (none, x)
  else
    let neu := ptePresent ||| pteInVram ||| pteAccessed ||| pfn <<< pteFrameShift
    (none, (x.setPte vpn neu).bumpGen.tlbInvalidateVpn vpn)

def beginEvict (x : Mmu) (va : UInt64) : UInt64 × Mmu :=
  let vpn := va >>> pageShift
  let cur := x.pte vpn
  if x.npages ≤ vpn then (0, x)
  else if cur &&& (ptePresent ||| pteInVram) ≠ ptePresent ||| pteInVram then (0, x)
  else (x.pte vpn, (x.setPte vpn ptePresent).bumpGen.tlbInvalidateVpn vpn)

def endEvict (x : Mmu) (va : UInt64) : UInt64 × Mmu :=
  let vpn := va >>> pageShift
  if x.npages ≤ vpn then (0, x)
  else (x.pte vpn &&& (pteDirty ||| pteAccessed),
    x.setPte vpn (x.pte vpn &&& ~~~(pteDirty ||| pteAccessed)))

def testAndClearAccessed (x : Mmu) (va : UInt64) : Bool × Mmu :=
  let vpn := va >>> pageShift
  if x.npages ≤ vpn then (false, x)
  else (decide (x.pte vpn &&& pteAccessed ≠ 0), x.setPte vpn (x.pte vpn &&& ~~~pteAccessed))

def page (x : Mmu) (va : UInt64) : PageInfo :=
  let vpn := va >>> pageShift
  let pte := x.pte vpn
  if x.npages ≤ vpn then ⟨.absent, 0, 0⟩
  else if pte &&& ptePresent = 0 then ⟨.absent, 0, 0⟩
  else if pte &&& pteInVram ≠ 0 then ⟨.vram, x.host vpn, ptePa pte⟩
  else ⟨.host, x.host vpn, 0⟩

def unmap (x : Mmu) (va npages : UInt64) : Option Errno × Mmu :=
  let vpn0 := va >>> pageShift
  if va &&& pageMask ≠ 0 then (some .einval, x)
  else if npages = 0 then (none, x)
  else if x.npages ≤ vpn0 ∨ x.npages - vpn0 < npages then (some .einval, x)
  else
    let cleared := forEach (fun x i => (x.setPte (vpn0 + i) 0).setHost (vpn0 + i) 0) x npages.toNat
    (none, forEach (fun x i => x.tlbInvalidateVpn (vpn0 + i)) cleared.bumpGen npages.toNat)

/-! ### Translation -/

def setTag (x : Mmu) (engine : Fin maxEngines) (i : Fin tlbEntries) (vpn : UInt64) : Mmu :=
  let t := x.tlb engine
  x.setTlb engine (t.set i { t.entry i with vpn := vpn })

def tlbInsert (x : Mmu) (engine : Fin maxEngines) (vpn pte : UInt64) : Mmu :=
  let t := x.tlb engine
  let gen := x.tlbGen
  let i := EngineTlb.slot t.entry (List.finRange tlbEntries) ⟨0, EngineTlb.tlbEntries_pos⟩ (~~~0)
  let empty := x.setTlb engine { t.set i ⟨noVpn, pte, t.clock⟩ with clock := t.clock + 1 }
  if empty.pte vpn &&& (ptePresent ||| pteInVram) ≠ ptePresent ||| pteInVram then empty
  else if empty.tlbGen ≠ gen then empty
  else
    let tagged := empty.setTag engine i vpn
    if tagged.tlbGen ≠ gen then tagged.setTag engine i noVpn else tagged

def walk (x : Mmu) (engine : Fin maxEngines) (va : UInt64) (write : Bool) : Translate × Mmu :=
  let vpn := va >>> pageShift
  let pte := x.pte vpn
  let bits := pteAccessed ||| if write then pteDirty else 0
  if x.npages ≤ vpn then (.notPresent, x)
  else if pte &&& ptePresent = 0 then (.notPresent, x)
  else if pte &&& pteInVram = 0 then (.hostResident, x)
  else
    -- `fetch_or`, which returns the word it found
    let touched := if pte &&& bits ≠ bits then x.setPte vpn (x.pte vpn ||| bits) else x
    let pte := if pte &&& bits ≠ bits then x.pte vpn ||| bits else pte
    if pte &&& ptePresent = 0 then (.notPresent, touched)
    else if pte &&& pteInVram = 0 then (.hostResident, touched)
    else (.ok (ptePa pte), touched.tlbInsert engine vpn pte)

def hit (x : Mmu) (engine : Fin maxEngines) (va : UInt64) (write : Bool) (i : Fin tlbEntries) :
    Translate × Mmu :=
  let vpn := va >>> pageShift
  let t := x.tlb engine
  let pte := (t.entry i).pte
  let late := write && decide (pte &&& pteDirty = 0)
  let neu := if late then pte ||| pteDirty else pte
  let dirtied :=
    if late && decide (vpn < x.npages) then x.setPte vpn (x.pte vpn ||| pteDirty) else x
  let probed := dirtied.setTlb engine
    { t.set i { t.entry i with pte := neu, lastUsed := t.clock } with clock := t.clock + 1 }
  (.ok (ptePa neu),
    { probed with tlbHits := Function.update x.tlbHits engine (x.tlbHits engine + 1) })

def countMiss (x : Mmu) (engine : Fin maxEngines) : Mmu :=
  { x with tlbMisses := Function.update x.tlbMisses engine (x.tlbMisses engine + 1) }

def translate (x : Mmu) (engine : Fin maxEngines) (va : UInt64) (write : Bool) : Translate × Mmu :=
  let vpn := va >>> pageShift
  match (List.finRange tlbEntries).find? fun i => ((x.tlb engine).entry i).vpn == vpn with
  | none => (x.countMiss engine).walk engine va write
  | some i =>
    let pte := ((x.tlb engine).entry i).pte
    if pte &&& ptePresent = 0 ∨ pte &&& pteInVram = 0 then
      (x.countMiss engine).walk engine va write
    else x.hit engine va write i

def resetStats (x : Mmu) : Mmu := { x with tlbHits := fun _ => 0, tlbMisses := fun _ => 0 }

end Mmu

/-! ### Calls -/

inductive Call
  | change (c : Tlb.Call)
  | page (va : UInt64)
  | resetStats
  deriving DecidableEq, Repr

inductive Answer
  | code (e : Option Errno)
  | word (w : UInt64)
  | bit (b : Bool)
  | info (p : PageInfo)
  | translated (t : Translate)
  | done
  deriving DecidableEq, Repr

def Mmu.exec (x : Mmu) : Call → Answer × Mmu
  | .change (.mapVram va pa n) => (.code (x.mapVram va pa n).1, (x.mapVram va pa n).2)
  | .change (.mapHost va host n) => (.code (x.mapHost va host n).1, (x.mapHost va host n).2)
  | .change (.unmap va n) => (.code (x.unmap va n).1, (x.unmap va n).2)
  | .change (.makeResident va pa) => (.code (x.makeResident va pa).1, (x.makeResident va pa).2)
  | .change (.beginEvict va) => (.word (x.beginEvict va).1, (x.beginEvict va).2)
  | .change (.endEvict va) => (.word (x.endEvict va).1, (x.endEvict va).2)
  | .change (.testAndClearAccessed va) =>
    (.bit (x.testAndClearAccessed va).1, (x.testAndClearAccessed va).2)
  | .change (.translate e va write) =>
    (.translated (x.translate e va write).1, (x.translate e va write).2)
  | .page va => (.info (x.page va), x)
  | .resetStats => (.done, x.resetStats)

end SoftGpu.Words
