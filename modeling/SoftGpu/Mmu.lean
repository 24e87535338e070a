import Mathlib.Algebra.BigOperators.Fin
import Mathlib.Tactic.Push

/-!
# The device page table

`Mmu` without its TLBs: one entry per virtual page and, beside it, the host
address that backs a managed page. A page is absent, host-resident, or in a
VRAM frame. The operations are those of the driver and check their arguments as
the source does; a failed operation leaves the table unchanged.

An entry keeps its flags as fields and its frame number as a number, so
`pte & PTE_IN_VRAM` is `inVram` and `pte_pa` is `pa`.
-/

namespace SoftGpu

def pageSize : ℕ := 4096

inductive Errno
  | einval
  | eexist
  | efault
  | enomem
  | eio
  deriving DecidableEq, Repr

structure Pte where
  present : Bool
  inVram : Bool
  dirty : Bool
  accessed : Bool
  pfn : ℕ
  deriving DecidableEq, Repr

namespace Pte

def zero : Pte := ⟨false, false, false, false, 0⟩
def hostResident : Pte := ⟨true, false, false, false, 0⟩
def inFrame (pfn : ℕ) (accessed : Bool) : Pte := ⟨true, true, false, accessed, pfn⟩

def pa (p : Pte) : ℕ := p.pfn * pageSize

end Pte

inductive PageKind
  | absent
  | host
  | vram
  deriving DecidableEq, Repr

structure PageInfo where
  kind : PageKind
  host : ℕ
  pa : ℕ
  deriving DecidableEq, Repr

structure Mmu where
  npages : ℕ
  vramPages : ℕ
  pte : ℕ → Pte
  host : ℕ → ℕ

namespace Mmu

def new (npages vramPages : ℕ) : Mmu where
  npages := npages
  vramPages := vramPages
  pte := fun _ => .zero
  host := fun _ => 0

def setPte (m : Mmu) (vpn : ℕ) (p : Pte) : Mmu := { m with pte := Function.update m.pte vpn p }

def setRange (f : ℕ → Pte) (first n : ℕ) (g : ℕ → Pte) : ℕ → Pte :=
  fun v => if first ≤ v ∧ v < first + n then g (v - first) else f v

def setHosts (f : ℕ → ℕ) (first n : ℕ) (g : ℕ → ℕ) : ℕ → ℕ :=
  fun v => if first ≤ v ∧ v < first + n then g (v - first) else f v

def mapVram (m : Mmu) (va pa n : ℕ) : Except Errno Mmu :=
  let vpn := va / pageSize
  let pfn := pa / pageSize
  if va % pageSize ≠ 0 ∨ pa % pageSize ≠ 0 then .error .einval
  else if n = 0 then .error .einval
  else if m.npages ≤ vpn ∨ m.npages - vpn < n then .error .einval
  else if m.vramPages ≤ pfn ∨ m.vramPages - pfn < n then .error .einval
  else if ∃ i < n, (m.pte (vpn + i)).present then .error .eexist
  else .ok { m with pte := setRange m.pte vpn n fun i => .inFrame (pfn + i) false }

def mapHost (m : Mmu) (va host n : ℕ) : Except Errno Mmu :=
  let vpn := va / pageSize
  if va % pageSize ≠ 0 ∨ host % pageSize ≠ 0 then .error .einval
  else if n = 0 then .error .einval
  else if m.npages ≤ vpn ∨ m.npages - vpn < n then .error .einval
  else if ∃ i < n, (m.pte (vpn + i)).present then .error .eexist
  else .ok { m with
    pte := setRange m.pte vpn n fun _ => .hostResident
    host := setHosts m.host vpn n fun i => host + i * pageSize }

def makeResident (m : Mmu) (va pa : ℕ) : Except Errno Mmu :=
  let vpn := va / pageSize
  let pfn := pa / pageSize
  if va % pageSize ≠ 0 ∨ pa % pageSize ≠ 0 then .error .einval
  else if m.npages ≤ vpn ∨ m.vramPages ≤ pfn then .error .einval
  else if (m.pte vpn).present = false then .error .einval
  else if (m.pte vpn).inVram then .ok m
  else .ok (m.setPte vpn (.inFrame pfn true))

def beginEvict (m : Mmu) (va : ℕ) : Pte × Mmu :=
  let vpn := va / pageSize
  if m.npages ≤ vpn then (.zero, m)
  else if (m.pte vpn).present && (m.pte vpn).inVram then
    (m.pte vpn, m.setPte vpn .hostResident)
  else (.zero, m)

def orFlags (m : Mmu) (va : ℕ) (dirty accessed : Bool) : Mmu :=
  let vpn := va / pageSize
  let p := m.pte vpn
  m.setPte vpn { p with dirty := p.dirty || dirty, accessed := p.accessed || accessed }

def endEvict (m : Mmu) (va : ℕ) : Bool × Mmu :=
  let vpn := va / pageSize
  if m.npages ≤ vpn then (false, m)
  else
    let p := m.pte vpn
    (p.dirty, m.setPte vpn { p with dirty := false, accessed := false })

def testAndClearAccessed (m : Mmu) (va : ℕ) : Bool × Mmu :=
  let vpn := va / pageSize
  if m.npages ≤ vpn then (false, m)
  else
    let p := m.pte vpn
    (p.accessed, m.setPte vpn { p with accessed := false })

def page (m : Mmu) (va : ℕ) : PageInfo :=
  let vpn := va / pageSize
  if m.npages ≤ vpn then ⟨.absent, 0, 0⟩
  else if (m.pte vpn).present = false then ⟨.absent, 0, 0⟩
  else if (m.pte vpn).inVram then ⟨.vram, m.host vpn, (m.pte vpn).pa⟩
  else ⟨.host, m.host vpn, 0⟩

def unmap (m : Mmu) (va n : ℕ) : Mmu :=
  let vpn := va / pageSize
  if va % pageSize ≠ 0 ∨ n = 0 ∨ m.npages ≤ vpn ∨ m.npages - vpn < n then m
  else { m with
    pte := setRange m.pte vpn n fun _ => .zero
    host := setHosts m.host vpn n fun _ => 0 }

end Mmu

/-! ### The effect of the operations on one entry -/

theorem pageSize_pos : 0 < pageSize := by simp [pageSize]

@[simp] theorem mul_div_pageSize (v : ℕ) : v * pageSize / pageSize = v :=
  Nat.mul_div_cancel v pageSize_pos

@[simp] theorem mul_mod_pageSize (v : ℕ) : v * pageSize % pageSize = 0 :=
    Nat.mul_mod_left v pageSize

theorem div_mul_pageSize {va : ℕ} (h : va % pageSize = 0) : va / pageSize * pageSize = va :=
  Nat.div_mul_cancel (Nat.dvd_of_mod_eq_zero h)

@[simp] theorem Pte.pa_div (p : Pte) : p.pa / pageSize = p.pfn := mul_div_pageSize p.pfn

@[simp] theorem Pte.pa_mod (p : Pte) : p.pa % pageSize = 0 := mul_mod_pageSize p.pfn

namespace Mmu
variable {m m' m'' : Mmu} {va pa host n v : ℕ}

@[simp] theorem setPte_pte (p : Pte) : (m.setPte v p).pte = Function.update m.pte v p := rfl
@[simp] theorem setPte_host (p : Pte) : (m.setPte v p).host = m.host := rfl
@[simp] theorem setPte_npages (p : Pte) : (m.setPte v p).npages = m.npages := rfl
@[simp] theorem setPte_vramPages (p : Pte) : (m.setPte v p).vramPages = m.vramPages := rfl

@[simp] theorem setPte_setPte (p q : Pte) : (m.setPte v p).setPte v q = m.setPte v q := by
  simp [setPte]

structure Same (m m' : Mmu) : Prop where
  npages : m'.npages = m.npages
  vramPages : m'.vramPages = m.vramPages
  host : m'.host = m.host
  present : ∀ v, (m'.pte v).present = (m.pte v).present
  inVram : ∀ v, (m'.pte v).inVram = (m.pte v).inVram
  pfn : ∀ v, (m'.pte v).pfn = (m.pte v).pfn

namespace Same

theorem refl (m : Mmu) : Same m m := ⟨rfl, rfl, rfl, fun _ => rfl, fun _ => rfl, fun _ => rfl⟩

theorem trans (h : Same m m') (h' : Same m' m'') : Same m m'' where
  npages := h'.npages.trans h.npages
  vramPages := h'.vramPages.trans h.vramPages
  host := h'.host.trans h.host
  present := fun v => (h'.present v).trans (h.present v)
  inVram := fun v => (h'.inVram v).trans (h.inVram v)
  pfn := fun v => (h'.pfn v).trans (h.pfn v)

theorem update {p : Pte} (h₁ : p.present = (m.pte v).present) (h₂ : p.inVram = (m.pte v).inVram)
    (h₃ : p.pfn = (m.pte v).pfn) : Same m (m.setPte v p) where
  npages := rfl
  vramPages := rfl
  host := rfl
  present := (Function.forall_update_iff m.pte fun w q => q.present = (m.pte w).present).mpr
    ⟨h₁, fun _ _ => rfl⟩
  inVram := (Function.forall_update_iff m.pte fun w q => q.inVram = (m.pte w).inVram).mpr
    ⟨h₂, fun _ _ => rfl⟩
  pfn := (Function.forall_update_iff m.pte fun w q => q.pfn = (m.pte w).pfn).mpr
    ⟨h₃, fun _ _ => rfl⟩

end Same

structure SamePages (m m' : Mmu) : Prop where
  npages : m'.npages = m.npages
  vramPages : m'.vramPages = m.vramPages
  host : m'.host = m.host
  present : ∀ v, (m'.pte v).present = (m.pte v).present

namespace SamePages

theorem refl (m : Mmu) : SamePages m m := ⟨rfl, rfl, rfl, fun _ => rfl⟩

theorem trans (h : SamePages m m') (h' : SamePages m' m'') : SamePages m m'' where
  npages := h'.npages.trans h.npages
  vramPages := h'.vramPages.trans h.vramPages
  host := h'.host.trans h.host
  present := fun v => (h'.present v).trans (h.present v)

theorem setPte {p : Pte} (h : p.present = (m.pte v).present) : SamePages m (m.setPte v p) where
  npages := rfl
  vramPages := rfl
  host := rfl
  present := (Function.forall_update_iff m.pte fun w q => q.present = (m.pte w).present).mpr
    ⟨h, fun _ _ => rfl⟩

end SamePages

theorem Same.pages (h : Same m m') : SamePages m m' := ⟨h.npages, h.vramPages, h.host, h.present⟩

theorem beginEvict_pages (m : Mmu) (va : ℕ) : SamePages m (m.beginEvict va).2 := by
  simp only [beginEvict]
  split_ifs with h₁ h₂
  · exact .refl m
  · rw [Bool.and_eq_true] at h₂
    exact .setPte h₂.1.symm
  · exact .refl m

theorem endEvict_pages (m : Mmu) (va : ℕ) : SamePages m (m.endEvict va).2 := by
  simp only [endEvict]
  split_ifs
  · exact .refl m
  · exact .setPte rfl

theorem makeResident_pages (h : m.makeResident va pa = .ok m') : SamePages m m' := by
  simp only [makeResident] at h
  split_ifs at h with h₁ h₂ h₃ h₄ <;> rw [Except.ok.injEq] at h <;> subst h
  · exact .refl m
  · exact .setPte (by simpa [Pte.inFrame] using h₃)

theorem orFlags_same (m : Mmu) (va : ℕ) (d a : Bool) : Same m (m.orFlags va d a) :=
  .update rfl rfl rfl

theorem orFlags_dirty (m : Mmu) (va v : ℕ) (d a : Bool) : ((m.orFlags va d a).pte v).dirty =
    ((m.pte v).dirty || (d && decide (v = va / pageSize))) := by
  by_cases hv : v = va / pageSize
  · subst hv
    simp [orFlags]
  · simp [orFlags, hv]

theorem testAndClearAccessed_dirty (m : Mmu) (va v : ℕ) :
    ((m.testAndClearAccessed va).2.pte v).dirty = (m.pte v).dirty := by
  simp only [testAndClearAccessed]
  split
  · rfl
  · by_cases hv : v = va / pageSize
    · subst hv
      simp
    · simp [hv]

theorem testAndClearAccessed_same (m : Mmu) (va : ℕ) : Same m (m.testAndClearAccessed va).2 := by
  simp only [testAndClearAccessed]
  split_ifs
  · exact .refl m
  · exact .update rfl rfl rfl

theorem page_vram (hn : va / pageSize < m.npages) (hp : (m.pte (va / pageSize)).present = true)
    (hv : (m.pte (va / pageSize)).inVram = true) :
    m.page va = ⟨.vram, m.host (va / pageSize), (m.pte (va / pageSize)).pa⟩ := by
  simp [page, Nat.not_le.mpr hn, hp, hv]

theorem page_kind_vram (h : (m.page va).kind = .vram) : va / pageSize < m.npages ∧
    (m.pte (va / pageSize)).present = true ∧ (m.pte (va / pageSize)).inVram = true ∧
    (m.page va).pa = (m.pte (va / pageSize)).pa ∧ (m.page va).host = m.host (va / pageSize) := by
  simp only [page] at h ⊢
  split_ifs at h ⊢
  simp_all

theorem page_kind_host (h : (m.page va).kind = .host) : va / pageSize < m.npages ∧
    (m.pte (va / pageSize)).present = true ∧ (m.pte (va / pageSize)).inVram = false ∧
    (m.page va).host = m.host (va / pageSize) := by
  simp only [page] at h ⊢
  split_ifs at h ⊢
  simp_all

theorem beginEvict_eq (hn : va / pageSize < m.npages)
    (hp : (m.pte (va / pageSize)).present = true) (hv : (m.pte (va / pageSize)).inVram = true) :
    m.beginEvict va = (m.pte (va / pageSize), m.setPte (va / pageSize) .hostResident) := by
  simp [beginEvict, Nat.not_le.mpr hn, hp, hv]

/-- Between the halves of an eviction only the dirty bit can change, and the
second half takes it. -/
theorem endEvict_late (hn : va / pageSize < m.npages) (d : Bool) :
    ((m.setPte (va / pageSize) .hostResident).orFlags va d false).endEvict va =
      (d, m.setPte (va / pageSize) .hostResident) := by
  simp [endEvict, orFlags, Nat.not_le.mpr hn, Pte.hostResident]

theorem makeResident_eq (hva : va % pageSize = 0) (hpa : pa % pageSize = 0)
    (hn : va / pageSize < m.npages) (hf : pa / pageSize < m.vramPages)
    (hp : (m.pte (va / pageSize)).present = true) (hv : (m.pte (va / pageSize)).inVram = false) :
    m.makeResident va pa = .ok (m.setPte (va / pageSize) (.inFrame (pa / pageSize) true)) := by
  simp [makeResident, hva, hpa, Nat.not_le.mpr hn, Nat.not_le.mpr hf, hp, hv]

theorem mapVram_ok (h : m.mapVram va pa n = .ok m') :
    va % pageSize = 0 ∧ pa % pageSize = 0 ∧ 0 < n ∧ va / pageSize + n ≤ m.npages ∧
    pa / pageSize + n ≤ m.vramPages ∧ (∀ i < n, (m.pte (va / pageSize + i)).present = false) ∧
    m' = { m with
      pte := setRange m.pte (va / pageSize) n fun i => .inFrame (pa / pageSize + i) false } := by
  simp only [mapVram] at h
  split_ifs at h with h₁ h₂ h₃ h₄ h₅
  simp only [Except.ok.injEq] at h
  push Not at h₁ h₃ h₄ h₅
  refine ⟨h₁.1, h₁.2, by omega, by omega, by omega, ?_, h.symm⟩
  simpa using h₅

theorem mapVram_defined (hva : va % pageSize = 0) (hpa : pa % pageSize = 0) (hpos : 0 < n)
    (hn : va / pageSize + n ≤ m.npages) (hf : pa / pageSize + n ≤ m.vramPages)
    (hfree : ∀ i < n, (m.pte (va / pageSize + i)).present = false) :
    ∃ m', m.mapVram va pa n = .ok m' := by
  have hnone : ¬∃ i < n, (m.pte (va / pageSize + i)).present = true := by simpa using hfree
  simp only [mapVram]
  rw [if_neg (by simp [hva, hpa]), if_neg (by omega), if_neg (by omega), if_neg (by omega),
    if_neg hnone]
  exact ⟨_, rfl⟩

theorem mapHost_ok (h : m.mapHost va host n = .ok m') :
    va % pageSize = 0 ∧ host % pageSize = 0 ∧ 0 < n ∧ va / pageSize + n ≤ m.npages ∧
    (∀ i < n, (m.pte (va / pageSize + i)).present = false) ∧
    m' = { m with
      pte := setRange m.pte (va / pageSize) n fun _ => .hostResident
      host := setHosts m.host (va / pageSize) n fun i => host + i * pageSize } := by
  simp only [mapHost] at h
  split_ifs at h with h₁ h₂ h₃ h₄
  simp only [Except.ok.injEq] at h
  push Not at h₁ h₃ h₄
  refine ⟨h₁.1, h₁.2, by omega, by omega, ?_, h.symm⟩
  simpa using h₄

theorem unmap_eq (hva : va % pageSize = 0) (hpos : 0 < n) (hn : va / pageSize + n ≤ m.npages) :
    m.unmap va n = { m with
      pte := setRange m.pte (va / pageSize) n fun _ => .zero
      host := setHosts m.host (va / pageSize) n fun _ => 0 } := by
  simp only [unmap]
  rw [if_neg]
  omega

end Mmu

end SoftGpu
