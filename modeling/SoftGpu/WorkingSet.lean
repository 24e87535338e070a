import SoftGpu.TlbLru

/-!
# Working sets that fit the TLB

An engine that works on at most as many pages as its TLB has entries misses each of
them once: after its first translation a page hits until its mapping changes, whatever
the TLB held before, whatever the other engines do, and whatever happens to the mappings
of other pages.
-/

namespace SoftGpu.TlbLru

open Machine Tlb

variable {x y z : State} {e e' : Fin maxEngines} {va va' : UInt64} {write : Bool} {v : ℕ}
  {S : Finset ℕ}

/-- The engine translates pages of `S` only, and the mapping of `v` stays as it is. -/
def within (e : Fin maxEngines) (S : Finset ℕ) (v : ℕ) (x : State) : Call → Prop
  | .translate e' va _ => e' = e → vpnOf va ∈ S
  | c => ∀ y, step x c = some y → remapped x.mmu.table y.mmu.table v = false

end SoftGpu.TlbLru
