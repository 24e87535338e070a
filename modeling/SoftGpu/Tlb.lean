import SoftGpu.Machine
import SoftGpu.Mmu
import Mathlib.Data.List.FinRange

/-!
# Translation through the TLBs

Every engine keeps sixty-four page-table entries of its own. An entry is found
by its tag, the page number it belongs to, and the tag `~0` marks an empty one.
A hit is answered from the copy: the table is written only when a write finds
the copy clean. The driver's mapping operations change the table and then clear
the tags of the pages they changed, in every engine's TLB.

Calls happen one after the other here, so a value that the source reads twice
to detect a race is read once, and the generation counter, which two reads of
one call find unchanged, is left out; so are the hit and miss counters.
-/

namespace SoftGpu.Tlb

open Machine

abbrev tlbEntries : ℕ := 64

abbrev maxEngines : ℕ := 4

def noVpn : ℕ := 2 ^ 64 - 1

structure TlbEntry where
  vpn : ℕ
  pte : Pte
  lastUsed : UInt64

structure EngineTlb where
  entry : Fin tlbEntries → TlbEntry
  clock : UInt64

inductive Translate
  | ok (pa : ℕ)
  | notPresent
  | hostResident
  deriving DecidableEq, Repr

def vpnOf (va : UInt64) : ℕ := va.toNat / pageSize

/-! ### One engine's TLB -/

namespace EngineTlb

def new : EngineTlb := ⟨fun _ => ⟨noVpn, .zero, 0⟩, 1⟩

def set (t : EngineTlb) (i : Fin tlbEntries) (e : TlbEntry) : EngineTlb :=
  { t with entry := Function.update t.entry i e }

def invalidate (t : EngineTlb) (vpn : ℕ) : EngineTlb :=
  { t with entry := fun i =>
      if (t.entry i).vpn = vpn then { t.entry i with vpn := noVpn } else t.entry i }

def slot (entry : Fin tlbEntries → TlbEntry) :
    List (Fin tlbEntries) → Fin tlbEntries → UInt64 → Fin tlbEntries
  | [], best, _ => best
  | i :: is, best, oldest =>
    if (entry i).vpn = noVpn then i
    else if (entry i).lastUsed < oldest then slot entry is i (entry i).lastUsed
    else slot entry is best oldest

def insert (t : EngineTlb) (m : Mmu) (vpn : ℕ) (pte : Pte) : EngineTlb :=
  let i := slot t.entry (List.finRange tlbEntries) 0 (-1)
  let resident := (m.pte vpn).present && (m.pte vpn).inVram
  { t.set i ⟨if resident then vpn else noVpn, pte, t.clock⟩ with clock := t.clock + 1 }

end EngineTlb

/-! ### The operations -/

/-- `evicting` is a ghost: the pages between the two halves of an eviction. -/
structure State where
  table : Mmu
  tlb : Fin maxEngines → EngineTlb
  evicting : ℕ → Bool

namespace State

def new (vaBytes vramBytes : UInt64) : State where
  table := Mmu.new (vaBytes.toNat / pageSize) (vramBytes.toNat / pageSize)
  tlb := fun _ => .new
  evicting := fun _ => false

def tlbInvalidateVpn (s : State) (vpn : ℕ) : State :=
  { s with tlb := fun e => (s.tlb e).invalidate vpn }

def tlbInvalidateRange (s : State) (first : ℕ) : ℕ → State
  | 0 => s
  | n + 1 => (s.tlbInvalidateRange first n).tlbInvalidateVpn (first + n)

def setTable (s : State) (m : Mmu) : State := { s with table := m }

def setTlb (s : State) (engine : Fin maxEngines) (t : EngineTlb) : State :=
  { s with tlb := Function.update s.tlb engine t }

def mapVram (s : State) (va pa n : UInt64) : State :=
  match s.table.mapVram va.toNat pa.toNat n.toNat with
  | .ok m => (s.setTable m).tlbInvalidateRange (vpnOf va) n.toNat
  | .error _ => s

def mapHost (s : State) (va host n : UInt64) : State :=
  match s.table.mapHost va.toNat host.toNat n.toNat with
  | .ok m => (s.setTable m).tlbInvalidateRange (vpnOf va) n.toNat
  | .error _ => s

def makeResident (s : State) (va pa : UInt64) : State :=
  match s.table.makeResident va.toNat pa.toNat with
  | .ok m =>
    if (s.table.pte (vpnOf va)).inVram then s else (s.setTable m).tlbInvalidateVpn (vpnOf va)
  | .error _ => s

def unmap (s : State) (va n : UInt64) : State :=
  if va.toNat % pageSize ≠ 0 ∨ n.toNat = 0 ∨ s.table.npages ≤ vpnOf va ∨
      s.table.npages - vpnOf va < n.toNat then s
  else (s.setTable (s.table.unmap va.toNat n.toNat)).tlbInvalidateRange (vpnOf va) n.toNat

def beginEvict (s : State) (va : UInt64) : State :=
  let vpn := vpnOf va
  let marked := { s with evicting := Function.update s.evicting vpn true }
  if s.table.npages ≤ vpn then marked
  else if (s.table.pte vpn).present && (s.table.pte vpn).inVram then
    (marked.setTable (s.table.beginEvict va.toNat).2).tlbInvalidateVpn vpn
  else marked

def endEvict (s : State) (va : UInt64) : State :=
  { s with
    table := (s.table.endEvict va.toNat).2
    evicting := Function.update s.evicting (vpnOf va) false }

def testAndClearAccessed (s : State) (va : UInt64) : State :=
  s.setTable (s.table.testAndClearAccessed va.toNat).2

def touch (s : State) (va : UInt64) (write : Bool) : Mmu :=
  let pte := s.table.pte (vpnOf va)
  if pte.accessed && (!write || pte.dirty) then s.table
  else s.table.orFlags va.toNat write true

def walk (s : State) (engine : Fin maxEngines) (va : UInt64) (write : Bool) : Translate × State :=
  let vpn := vpnOf va
  let pte := s.table.pte vpn
  if s.table.npages ≤ vpn then (.notPresent, s)
  else if pte.present = false then (.notPresent, s)
  else if pte.inVram = false then (.hostResident, s)
  else
    let m := s.touch va write
    let pte := m.pte vpn
    (.ok pte.pa, (s.setTable m).setTlb engine ((s.tlb engine).insert m vpn pte))

def hit (s : State) (engine : Fin maxEngines) (va : UInt64) (write : Bool)
    (i : Fin tlbEntries) : Translate × State :=
  let vpn := vpnOf va
  let t := s.tlb engine
  let pte := (t.entry i).pte
  let late := write && !pte.dirty
  let m := if late && decide (vpn < s.table.npages) then s.table.orFlags va.toNat true false
    else s.table
  let pte := if late then { pte with dirty := true } else pte
  (.ok pte.pa, (s.setTable m).setTlb engine
    { t.set i { t.entry i with pte := pte, lastUsed := t.clock } with clock := t.clock + 1 })

def translate (s : State) (engine : Fin maxEngines) (va : UInt64) (write : Bool) :
    Translate × State :=
  match (List.finRange tlbEntries).find? fun i => ((s.tlb engine).entry i).vpn == vpnOf va with
  | none => s.walk engine va write
  | some i =>
    let pte := ((s.tlb engine).entry i).pte
    if pte.present && pte.inVram then s.hit engine va write i else s.walk engine va write

end State

inductive Call
  | mapVram (va pa n : UInt64)
  | mapHost (va host n : UInt64)
  | unmap (va n : UInt64)
  | makeResident (va pa : UInt64)
  | beginEvict (va : UInt64)
  | endEvict (va : UInt64)
  | testAndClearAccessed (va : UInt64)
  | translate (engine : Fin maxEngines) (va : UInt64) (write : Bool)
  deriving DecidableEq, Repr

def step (s : State) : Call → Option State
  | .mapVram va pa n => some (s.mapVram va pa n)
  | .mapHost va host n => some (s.mapHost va host n)
  | .unmap va n => some (s.unmap va n)
  | .makeResident va pa => some (s.makeResident va pa)
  | .beginEvict va => some (s.beginEvict va)
  | .endEvict va => some (s.endEvict va)
  | .testAndClearAccessed va => some (s.testAndClearAccessed va)
  | .translate engine va write => some (s.translate engine va write).2

/-- Evictions come in pairs: `end_evict` follows a `begin_evict` of its page, and
in between nobody maps that page into VRAM, since the driver holds `mem_lock`
over the pair. The engines translate as they like. -/
def paired (s : State) : Call → Prop
  | .mapVram va _ n => ∀ i < n.toNat, s.evicting (vpnOf va + i) = false
  | .makeResident va _ => s.evicting (vpnOf va) = false
  | .endEvict va => s.evicting (vpnOf va) = true
  | _ => True

instance (s : State) : (c : Call) → Decidable (paired s c)
  | .mapVram va _ n =>
    inferInstanceAs (Decidable (∀ i < n.toNat, s.evicting (vpnOf va + i) = false))
  | .mapHost .. => .isTrue trivial
  | .unmap .. => .isTrue trivial
  | .makeResident va _ => inferInstanceAs (Decidable (s.evicting (vpnOf va) = false))
  | .beginEvict .. => .isTrue trivial
  | .endEvict va => inferInstanceAs (Decidable (s.evicting (vpnOf va) = true))
  | .testAndClearAccessed .. => .isTrue trivial
  | .translate .. => .isTrue trivial

def lookup (m : Mmu) (va : UInt64) : Translate :=
  let pte := m.pte (vpnOf va)
  if m.npages ≤ vpnOf va then .notPresent
  else if pte.present = false then .notPresent
  else if pte.inVram = false then .hostResident
  else .ok pte.pa

/-! ### Coherence of one TLB with the table -/

def Resident (m : Mmu) (v : ℕ) : Prop :=
  v < m.npages ∧ (m.pte v).present = true ∧ (m.pte v).inVram = true

structure Copy (m : Mmu) (v : ℕ) (p : Pte) : Prop where
  resident : Resident m v
  present : p.present = true
  inVram : p.inVram = true
  pfn : p.pfn = (m.pte v).pfn
  dirty : p.dirty = true → (m.pte v).dirty = true

structure Coherent (m : Mmu) (t : EngineTlb) : Prop where
  copy : ∀ i, (t.entry i).vpn ≠ noVpn → Copy m (t.entry i).vpn (t.entry i).pte
  unique : ∀ i j, (t.entry i).vpn ≠ noVpn → (t.entry i).vpn = (t.entry j).vpn → i = j

structure Keeps (m m' : Mmu) (v : ℕ) : Prop where
  npages : m'.npages = m.npages
  present : (m'.pte v).present = (m.pte v).present
  inVram : (m'.pte v).inVram = (m.pte v).inVram
  pfn : (m'.pte v).pfn = (m.pte v).pfn
  dirty : (m.pte v).dirty = true → (m'.pte v).dirty = true

variable {m m' : Mmu} {t : EngineTlb} {v w : ℕ} {p : Pte} {s s' : State}

theorem Keeps.of_eq (hn : m'.npages = m.npages) (hp : m'.pte v = m.pte v) : Keeps m m' v where
  npages := hn
  present := by rw [hp]
  inVram := by rw [hp]
  pfn := by rw [hp]
  dirty := by rw [hp]; exact id

theorem Keeps.of_same (h : m.Same m') (hd : (m.pte v).dirty = true → (m'.pte v).dirty = true) :
    Keeps m m' v :=
  ⟨h.npages, h.present v, h.inVram v, h.pfn v, hd⟩

theorem Keeps.resident (h : Keeps m m' v) : Resident m' v ↔ Resident m v := by
  rw [Resident, Resident, h.npages, h.present, h.inVram]

theorem Copy.keeps (h : Copy m v p) (hk : Keeps m m' v) : Copy m' v p where
  resident := hk.resident.mpr h.resident
  present := h.present
  inVram := h.inVram
  pfn := h.pfn.trans hk.pfn.symm
  dirty := fun hd => hk.dirty (h.dirty hd)

theorem Coherent.new (m : Mmu) : Coherent m .new where
  copy := fun _ h => absurd rfl h
  unique := fun _ _ h => absurd rfl h

theorem Coherent.keeps (h : Coherent m t) (hk : ∀ v, Resident m v → Keeps m m' v) :
    Coherent m' t where
  copy := fun i hi => (h.copy i hi).keeps (hk _ (h.copy i hi).resident)
  unique := h.unique

theorem Coherent.clear {t' : EngineTlb} {S : ℕ → Prop} (h : Coherent m t)
    (ht : ∀ i, (t'.entry i).vpn ≠ noVpn →
      t'.entry i = t.entry i ∧ ¬S (t.entry i).vpn)
    (hk : ∀ v, Resident m v → ¬S v → Keeps m m' v) : Coherent m' t' where
  copy := by
    intro i hi
    obtain ⟨he, hS⟩ := ht i hi
    rw [he] at hi ⊢
    exact (h.copy i hi).keeps (hk _ (h.copy i hi).resident hS)
  unique := by
    intro i j hi hij
    have hj : (t'.entry j).vpn ≠ noVpn := fun hj => hi (hij.trans hj)
    rw [(ht i hi).1, (ht j hj).1] at hij
    rw [(ht i hi).1] at hi
    exact h.unique i j hi hij

theorem Coherent.set {i : Fin tlbEntries} {u : UInt64} {c : UInt64} (h : Coherent m t)
    (hc : Copy m v p) (hfree : ∀ j, j ≠ i → (t.entry j).vpn ≠ v) :
    Coherent m { t.set i ⟨v, p, u⟩ with clock := c } where
  copy := by
    intro j hj
    by_cases hji : j = i
    · subst hji
      simpa [EngineTlb.set] using hc
    · simp only [EngineTlb.set, Function.update_of_ne hji] at hj ⊢
      exact h.copy j hj
  unique := by
    intro j k hj hjk
    by_cases hji : j = i <;> by_cases hki : k = i
    · rw [hji, hki]
    · subst hji
      simp only [EngineTlb.set, Function.update_self, Function.update_of_ne hki] at hjk
      exact absurd hjk.symm (hfree k hki)
    · subst hki
      simp only [EngineTlb.set, Function.update_self, Function.update_of_ne hji] at hjk
      exact absurd hjk (hfree j hji)
    · simp only [EngineTlb.set, Function.update_of_ne hji, Function.update_of_ne hki] at hj hjk
      exact h.unique j k hj hjk

theorem invalidate_entry {i : Fin tlbEntries} (hi : ((t.invalidate v).entry i).vpn ≠ noVpn) :
    (t.invalidate v).entry i = t.entry i ∧ (t.entry i).vpn ≠ v := by
  simp only [EngineTlb.invalidate] at hi ⊢
  by_cases hv : (t.entry i).vpn = v
  · rw [if_pos hv] at hi
    exact absurd rfl hi
  · rw [if_neg hv]
    exact ⟨rfl, hv⟩

/-! ### The invariant -/

structure Inv (s : State) : Prop where
  coherent : ∀ e, Coherent s.table (s.tlb e)
  evicting : ∀ v, s.evicting v = true → ¬Resident s.table v

@[simp] theorem invalidateRange_table (s : State) (first n : ℕ) :
    (s.tlbInvalidateRange first n).table = s.table := by
  induction n with
  | zero => rfl
  | succ n ih => simpa [State.tlbInvalidateRange, State.tlbInvalidateVpn] using ih

@[simp] theorem invalidateRange_evicting (s : State) (first n : ℕ) :
    (s.tlbInvalidateRange first n).evicting = s.evicting := by
  induction n with
  | zero => rfl
  | succ n ih => simpa [State.tlbInvalidateRange, State.tlbInvalidateVpn] using ih

theorem invalidateRange_entry (s : State) (first n : ℕ) (e : Fin maxEngines) (i : Fin tlbEntries)
    (hi : (((s.tlbInvalidateRange first n).tlb e).entry i).vpn ≠ noVpn) :
    ((s.tlbInvalidateRange first n).tlb e).entry i = (s.tlb e).entry i ∧
      ¬(first ≤ ((s.tlb e).entry i).vpn ∧ ((s.tlb e).entry i).vpn < first + n) := by
  induction n with
  | zero => exact ⟨rfl, by omega⟩
  | succ n ih =>
    obtain ⟨heq, hne⟩ := invalidate_entry hi
    have hi' := hi
    simp only [State.tlbInvalidateRange, State.tlbInvalidateVpn] at hi' heq hne ⊢
    rw [heq] at hi'
    obtain ⟨ih₁, ih₂⟩ := ih hi'
    rw [ih₁] at hne
    exact ⟨heq.trans ih₁, by omega⟩

theorem Inv.remap {first n : ℕ} (h : Inv s)
    (hk : ∀ v, Resident s.table v → ¬(first ≤ v ∧ v < first + n) → Keeps s.table m v)
    (hev : ∀ v, s.evicting v = true → ¬Resident m v) :
    Inv ((s.setTable m).tlbInvalidateRange first n) where
  coherent := by
    intro e
    rw [invalidateRange_table]
    exact (h.coherent e).clear (S := fun v => first ≤ v ∧ v < first + n)
      (invalidateRange_entry (s.setTable m) first n e) hk
  evicting := by
    intro v he
    rw [invalidateRange_table]
    rw [invalidateRange_evicting] at he
    exact hev v he

theorem Inv.new (vaBytes vramBytes : UInt64) : Inv (State.new vaBytes vramBytes) where
  coherent := fun _ => .new _
  evicting := fun _ h => absurd h (by simp [State.new])

theorem Inv.remapRange {first n : ℕ} {g : ℕ → Pte} {hosts : ℕ → ℕ} (h : Inv s)
    (hev : ∀ i < n, s.evicting (first + i) = true → (g i).inVram = false) :
    Inv ((s.setTable { s.table with
      pte := Mmu.setRange s.table.pte first n g
      host := hosts }).tlbInvalidateRange first n) := by
  refine h.remap (fun v _ hv => .of_eq rfl (if_neg hv)) fun v he hres => ?_
  by_cases hin : first ≤ v ∧ v < first + n
  · have hv : first + (v - first) = v := Nat.add_sub_cancel' hin.1
    have hout := hev (v - first) (by omega) (hv.symm ▸ he)
    have hg : (if first ≤ v ∧ v < first + n then g (v - first) else s.table.pte v).inVram = true :=
      hres.2.2
    rw [if_pos hin, hout] at hg
    cases hg
  · refine h.evicting v he (Iff.mp (Keeps.resident ?_) hres)
    exact .of_eq rfl (if_neg hin)

theorem Inv.mapVram {va pa n : UInt64} (h : Inv s)
    (hev : ∀ i < n.toNat, s.evicting (vpnOf va + i) = false) : Inv (s.mapVram va pa n) := by
  unfold State.mapVram
  split
  next m hm =>
    obtain ⟨-, -, -, -, -, -, rfl⟩ := Mmu.mapVram_ok hm
    exact h.remapRange fun i hi he => absurd ((hev i hi).symm.trans he) Bool.false_ne_true
  next => exact h

theorem Inv.mapHost {va host n : UInt64} (h : Inv s) : Inv (s.mapHost va host n) := by
  unfold State.mapHost
  split
  next m hm =>
    obtain ⟨-, -, -, -, -, rfl⟩ := Mmu.mapHost_ok hm
    exact h.remapRange fun _ _ _ => rfl
  next => exact h

theorem Inv.unmap {va n : UInt64} (h : Inv s) : Inv (s.unmap va n) := by
  unfold State.unmap
  split
  next => exact h
  next hok =>
    have hok' : va.toNat % pageSize = 0 ∧ 0 < n.toNat ∧ vpnOf va + n.toNat ≤ s.table.npages := by
      omega
    rw [Mmu.unmap_eq hok'.1 hok'.2.1 hok'.2.2]
    exact h.remapRange fun _ _ _ => rfl

theorem Inv.remapPage (h : Inv s) (hev : s.evicting v = true → p.inVram = false) :
    Inv ((s.setTable (s.table.setPte v p)).tlbInvalidateVpn v) := by
  have hk : ∀ w, Resident s.table w → ¬(v ≤ w ∧ w < v + 1) →
    Keeps s.table (s.table.setPte v p) w := by
    intro w _ hw
    have hwv : w ≠ v := by omega
    exact .of_eq rfl (by simp [hwv])
  refine h.remap hk fun w he hres => ?_
  by_cases hwv : w = v
  · subst hwv
    have hp := hres.2.2
    simp [hev he] at hp
  · refine h.evicting w he (Iff.mp (Keeps.resident ?_) hres)
    exact .of_eq rfl (by simp [hwv])

theorem Inv.makeResident {va pa : UInt64} (h : Inv s) (hev : s.evicting (vpnOf va) = false) :
    Inv (s.makeResident va pa) := by
  unfold State.makeResident
  split
  next m hm =>
    split
    next => exact h
    next hout =>
      simp only [Mmu.makeResident] at hm
      split_ifs at hm with h₁ h₂ h₃ h₄
      · exact absurd h₄ hout
      · rw [Except.ok.injEq] at hm
        subst hm
        exact h.remapPage fun he => absurd (hev.symm.trans he) Bool.false_ne_true
  next => exact h

theorem Inv.mark (h : Inv s) (hv : ¬Resident s.table v) :
    Inv { s with evicting := Function.update s.evicting v true } where
  coherent := h.coherent
  evicting := by
    intro w he
    by_cases hwv : w = v
    · subst hwv
      exact hv
    · exact h.evicting w (by simpa [hwv] using he)

theorem Inv.beginEvict {va : UInt64} (h : Inv s) : Inv (s.beginEvict va) := by
  unfold State.beginEvict
  dsimp only
  split
  next hn => exact h.mark fun hv => absurd hv.1 (by omega)
  next hn =>
    split
    next hres =>
      rw [Bool.and_eq_true] at hres
      have hshot := h.remapPage (v := vpnOf va) (p := .hostResident) fun _ => rfl
      have heq := Mmu.beginEvict_eq (Nat.lt_of_not_le hn) hres.1 hres.2
      rw [show (s.table.beginEvict va.toNat).2 = s.table.setPte (vpnOf va) .hostResident from
        congrArg Prod.snd heq]
      refine hshot.mark fun hv => ?_
      have := hv.2.2
      simp [State.tlbInvalidateVpn, State.setTable, Pte.hostResident] at this
    next hres => exact h.mark fun hv => hres (by simp [hv.2.1, hv.2.2])

theorem Inv.endEvict {va : UInt64} (h : Inv s) (hev : s.evicting (vpnOf va) = true) :
    Inv (s.endEvict va) := by
  have hout := h.evicting _ hev
  have hkeep : ∀ v, v ≠ vpnOf va → Keeps s.table (s.table.endEvict va.toNat).2 v := by
    intro v hv
    refine .of_eq (s.table.endEvict_pages va.toNat).npages ?_
    simp only [Mmu.endEvict]
    split
    · rfl
    · exact Function.update_of_ne hv _ _
  refine ⟨fun e => (h.coherent e).keeps fun v hv => hkeep v ?_, fun v he hres => ?_⟩
  · rintro rfl
    exact hout hv
  · by_cases hv : v = vpnOf va
    · subst hv
      simp [State.endEvict] at he
    · have he' : s.evicting v = true := by simpa [State.endEvict, hv] using he
      exact h.evicting v he' ((hkeep v hv).resident.mp hres)

theorem Inv.flags (h : Inv s) (hs : s.table.Same m)
    (hd : ∀ v, (s.table.pte v).dirty = true → (m.pte v).dirty = true) : Inv (s.setTable m) where
  coherent := fun e => (h.coherent e).keeps fun v _ => .of_same hs (hd v)
  evicting := fun v he hres => h.evicting v he ((Keeps.of_same hs (hd v)).resident.mp hres)

theorem Inv.testAndClearAccessed {va : UInt64} (h : Inv s) : Inv (s.testAndClearAccessed va) := by
  refine h.flags (Mmu.testAndClearAccessed_same _ _) fun v hv => ?_
  rw [Mmu.testAndClearAccessed_dirty]
  exact hv

/-! ### Translation -/

theorem vpnOf_ne_noVpn (va : UInt64) : vpnOf va ≠ noVpn := by
  have hlt := va.toNat_lt
  simp only [vpnOf, pageSize, noVpn]
  omega

structure Answers (s : State) (va : UInt64) (write : Bool) (r : Translate × State) : Prop where
  status : r.1 = lookup s.table va
  dirty : ∀ pa, r.1 = .ok pa → write = true → (r.2.table.pte (vpnOf va)).dirty = true

theorem lookup_resident {va : UInt64} (h : Resident m (vpnOf va)) :
    lookup m va = .ok (m.pte (vpnOf va)).pa := by
  obtain ⟨hn, hp, hv⟩ := h
  simp [lookup, Nat.not_le.mpr hn, hp, hv]

theorem Inv.setTlb {engine : Fin maxEngines} (h : Inv s) (ht : Coherent s.table t) :
    Inv (s.setTlb engine t) where
  coherent := by
    intro e
    by_cases he : e = engine
    · subst he
      simpa [State.setTlb] using ht
    · simpa [State.setTlb, he] using h.coherent e
  evicting := h.evicting

theorem Coherent.insert (h : Coherent m t) (hres : Resident m v)
    (hmiss : ∀ i, (t.entry i).vpn ≠ v) : Coherent m (t.insert m v (m.pte v)) := by
  unfold EngineTlb.insert
  rw [hres.2.1, hres.2.2]
  exact h.set ⟨hres, hres.2.1, hres.2.2, rfl, id⟩ fun j _ => hmiss j

theorem touch_same (s : State) (va : UInt64) (write : Bool) :
    s.table.Same (s.touch va write) := by
  unfold State.touch
  dsimp only
  split
  · exact .refl _
  · exact Mmu.orFlags_same _ _ _ _

theorem touch_dirty_mono {va : UInt64} {write : Bool} (h : (s.table.pte v).dirty = true) :
    ((s.touch va write).pte v).dirty = true := by
  unfold State.touch
  dsimp only
  split
  · exact h
  · rw [Mmu.orFlags_dirty, h, Bool.true_or]

theorem touch_dirty (s : State) (va : UInt64) :
    ((s.touch va true).pte (vpnOf va)).dirty = true := by
  unfold State.touch
  dsimp only
  split
  next hset => simpa using (Bool.and_eq_true _ _ ▸ hset).2
  next =>
    rw [Mmu.orFlags_dirty]
    simp [vpnOf]

theorem walk_spec {engine : Fin maxEngines} {va : UInt64} {write : Bool} (h : Inv s)
    (hmiss : ∀ i, ((s.tlb engine).entry i).vpn ≠ vpnOf va) :
    Inv (s.walk engine va write).2 ∧ Answers s va write (s.walk engine va write) := by
  by_cases hres : Resident s.table (vpnOf va)
  · have hlook := lookup_resident hres
    obtain ⟨hn, hp, hv⟩ := hres
    have hwalk : s.walk engine va write = (.ok ((s.touch va write).pte (vpnOf va)).pa,
        (s.setTable (s.touch va write)).setTlb engine ((s.tlb engine).insert
          (s.touch va write) (vpnOf va) ((s.touch va write).pte (vpnOf va)))) := by
      simp [State.walk, Nat.not_le.mpr hn, hp, hv]
    have hsame := touch_same s va write
    have hflags := h.flags hsame fun _ => touch_dirty_mono
    have hres' : Resident (s.touch va write) (vpnOf va) :=
      (Keeps.of_same hsame touch_dirty_mono).resident.mpr ⟨hn, hp, hv⟩
    rw [hwalk]
    refine ⟨hflags.setTlb ((hflags.coherent engine).insert hres' hmiss), ?_, fun _ _ hw => ?_⟩
    swap
    · subst hw
      exact touch_dirty s va
    rw [hlook, Pte.pa, Pte.pa, hsame.pfn]
  · have hwalk : s.walk engine va write = (lookup s.table va, s) ∧
        ∀ pa, lookup s.table va ≠ .ok pa := by
      unfold State.walk lookup
      dsimp only
      split_ifs with h₁ h₂ h₃
      · exact ⟨rfl, fun _ => nofun⟩
      · exact ⟨rfl, fun _ => nofun⟩
      · exact ⟨rfl, fun _ => nofun⟩
      · exact absurd ⟨Nat.lt_of_not_le h₁, by simpa using h₂, by simpa using h₃⟩ hres
    rw [hwalk.1]
    exact ⟨h, rfl, fun pa hpa => absurd hpa (hwalk.2 pa)⟩

theorem hit_spec {engine : Fin maxEngines} {va : UInt64} {write : Bool} {i : Fin tlbEntries}
    (h : Inv s) (hi : ((s.tlb engine).entry i).vpn = vpnOf va) :
    Inv (s.hit engine va write i).2 ∧ Answers s va write (s.hit engine va write i) := by
  have hc : Copy s.table (vpnOf va) ((s.tlb engine).entry i).pte :=
    hi ▸ (h.coherent engine).copy i (hi ▸ vpnOf_ne_noVpn va)
  have hfree : ∀ j, j ≠ i → ((s.tlb engine).entry j).vpn ≠ vpnOf va := fun j hj hv =>
    hj ((h.coherent engine).unique j i (hv ▸ vpnOf_ne_noVpn va) (hv.trans hi.symm))
  have hin := hc.resident.1
  have hlook := lookup_resident hc.resident
  unfold State.hit
  by_cases hlate : (write && !((s.tlb engine).entry i).pte.dirty) = true
  · -- the copy is clean: the table's dirty bit is set, then the copy's
    have hflags : Inv (s.setTable (s.table.orFlags va.toNat true false)) :=
      h.flags (Mmu.orFlags_same _ _ _ _) fun v hv => by rw [Mmu.orFlags_dirty, hv, Bool.true_or]
    have hdirty : ((s.table.orFlags va.toNat true false).pte (vpnOf va)).dirty = true := by
      rw [Mmu.orFlags_dirty]
      simp [vpnOf]
    have hsame := Mmu.orFlags_same s.table va.toNat true false
    simp only [hlate, hin, decide_true, Bool.and_self, if_true, hi]
    refine ⟨hflags.setTlb ((hflags.coherent engine).set ?_ hfree), ?_, fun _ _ _ => hdirty⟩
    · exact ⟨(Keeps.of_same hsame fun _ => hdirty).resident.mpr hc.resident, hc.present, hc.inVram,
        hc.pfn.trans (hsame.pfn _).symm, fun _ => hdirty⟩
    · rw [hlook, Pte.pa, Pte.pa]
      exact congrArg (fun n => Translate.ok (n * pageSize)) hc.pfn
  · simp only [hlate, Bool.false_and, Bool.false_eq_true, if_false, hi]
    refine ⟨h.setTlb ((h.coherent engine).set hc hfree), ?_, fun _ _ hw => ?_⟩
    · rw [hlook, Pte.pa, Pte.pa, hc.pfn]
    · exact hc.dirty (by simpa [hw] using hlate)

theorem translate_spec (engine : Fin maxEngines) (va : UInt64) (write : Bool) (h : Inv s) :
    Inv (s.translate engine va write).2 ∧ Answers s va write (s.translate engine va write) := by
  unfold State.translate
  split
  next hnone =>
    refine walk_spec h fun i hi => ?_
    have := List.find?_eq_none.mp hnone i (List.mem_finRange i)
    simp [hi] at this
  next i hsome =>
    have hi : ((s.tlb engine).entry i).vpn = vpnOf va := by
      simpa using List.find?_some hsome
    have hc := (h.coherent engine).copy i (hi ▸ vpnOf_ne_noVpn va)
    simp only [hc.present, hc.inVram, Bool.and_self, if_true]
    exact hit_spec h hi

theorem Inv.step {c : Call} (h : Inv s) (hok : paired s c) (hs : step s c = some s') : Inv s' := by
  cases c with
  | mapVram va pa n => cases hs; exact h.mapVram hok
  | mapHost va host n => cases hs; exact h.mapHost
  | unmap va n => cases hs; exact h.unmap
  | makeResident va pa => cases hs; exact h.makeResident hok
  | beginEvict va => cases hs; exact h.beginEvict
  | endEvict va => cases hs; exact h.endEvict hok
  | testAndClearAccessed va => cases hs; exact h.testAndClearAccessed
  | translate engine va write => cases hs; exact (translate_spec engine va write h).1

/-- In every state that calls can reach, a translation answers what the page
table says, a write leaves the page dirty, and every tagged entry of a TLB names
a page that is in VRAM, with its frame, and no page twice. -/
theorem translate_refines_table (vaBytes vramBytes : UInt64)
    (h : Reach step paired (State.new vaBytes vramBytes) s) :
    (∀ engine va write,
      (s.translate engine va write).1 = lookup s.table va ∧
      ((∃ pa, (s.translate engine va write).1 = .ok pa) → write = true →
        ((s.translate engine va write).2.table.pte (vpnOf va)).dirty = true)) ∧
    ∀ engine,
      (∀ i, ((s.tlb engine).entry i).vpn ≠ noVpn →
        Resident s.table ((s.tlb engine).entry i).vpn ∧
        ((s.tlb engine).entry i).pte.pa = (s.table.pte ((s.tlb engine).entry i).vpn).pa) ∧
      ∀ i j, ((s.tlb engine).entry i).vpn ≠ noVpn →
        ((s.tlb engine).entry i).vpn = ((s.tlb engine).entry j).vpn → i = j := by
  have hinv : Inv s :=
    h.invariant (P := Inv) (.new vaBytes vramBytes) fun _ _ _ hi hok hs => hi.step hok hs
  refine ⟨fun engine va write => ?_, fun engine => ⟨fun i hi => ?_, (hinv.coherent engine).unique⟩⟩
  · obtain ⟨-, hst, hd⟩ := translate_spec engine va write hinv
    exact ⟨hst, fun ⟨pa, hpa⟩ hw => hd pa hpa hw⟩
  · have hc := (hinv.coherent engine).copy i hi
    exact ⟨hc.resident, congrArg (· * pageSize) hc.pfn⟩

/-- A managed page is written, evicted while another engine reads it, and comes
back in another frame. -/
def moved : List Call :=
  [.mapHost 0 8192 1, .makeResident 0 0, .translate 0 0 true, .translate 1 0 false, .beginEvict 0,
    .translate 1 0 true, .endEvict 0, .makeResident 0 4096, .translate 0 0 false]

theorem translate_refines_table_moved :
    ∃ s, Reach step paired (State.new 8192 8192) s ∧
      ((s.tlb 0).entry 0).vpn = 0 ∧ (s.translate 0 0 true).1 = .ok 4096 ∧
      ((s.translate 0 0 true).2.table.pte 0).dirty = true := by
  have hrun : (exec (when paired step) (State.new 8192 8192) moved).map
      (fun s => (lookup s.table 0, ((s.tlb 0).entry 0).vpn)) =
      some (.ok 4096, 0) := by decide +kernel
  obtain ⟨s, hs, hq⟩ := Option.map_eq_some_iff.mp hrun
  simp only [Prod.mk.injEq] at hq
  have hr : Reach step paired (State.new 8192 8192) s := .of_exec_when .refl hs
  obtain ⟨hst, hd⟩ := (translate_refines_table 8192 8192 hr).1 0 0 true
  have hok := hst.trans hq.1
  exact ⟨s, hr, hq.2, hok, hd ⟨4096, hok⟩ rfl⟩

end SoftGpu.Tlb
