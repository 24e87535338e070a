import SoftGpu.MmuWords

/-!
# The words are the records

`Mmu` with its words of 64 bits gives every call the answer that `Tlb` gives it over
records and natural numbers: frame numbers and flags keep out of each other's bits, no
range check is fooled by an addition that wraps, and a host address is the sum of the
natural numbers modulo `2 ^ 64`. The generation is never found changed.
-/

namespace SoftGpu.Words

open Tlb (tlbEntries maxEngines vpnOf)

/-! ### What the records answer -/

def codeOf {α : Type*} : Except Errno α → Option Errno
  | .ok _ => none
  | .error e => some e

def Translate.ofRecord : Tlb.Translate → Translate
  | .ok pa => .ok (UInt64.ofNat pa)
  | .notPresent => .notPresent
  | .hostResident => .hostResident

def PageInfo.ofRecord (p : SoftGpu.PageInfo) : PageInfo :=
  ⟨p.kind, UInt64.ofNat p.host, UInt64.ofNat p.pa⟩

def unmapCode (m : SoftGpu.Mmu) (va n : ℕ) : Option Errno :=
  if va % pageSize ≠ 0 then some .einval
  else if n = 0 then none
  else if m.npages ≤ va / pageSize ∨ m.npages - va / pageSize < n then some .einval
  else none

def lateFlags (m : SoftGpu.Mmu) (va : ℕ) : Pte :=
  let p := m.pte (va / pageSize)
  if m.npages ≤ va / pageSize then .zero
  else { Pte.zero with dirty := p.dirty, accessed := p.accessed }

def answer (s : Tlb.State) : Tlb.Call → Answer
  | .mapVram va pa n => .code (codeOf (s.table.mapVram va.toNat pa.toNat n.toNat))
  | .mapHost va host n => .code (codeOf (s.table.mapHost va.toNat host.toNat n.toNat))
  | .unmap va n => .code (unmapCode s.table va.toNat n.toNat)
  | .makeResident va pa => .code (codeOf (s.table.makeResident va.toNat pa.toNat))
  | .beginEvict va => .word (encode (s.table.beginEvict va.toNat).1)
  | .endEvict va => .word (encode (lateFlags s.table va.toNat))
  | .testAndClearAccessed va => .bit (s.table.testAndClearAccessed va.toNat).1
  | .translate e va write => .translated (.ofRecord (s.translate e va write).1)

structure Records where
  mmu : Tlb.State
  asked : Fin maxEngines → UInt64

namespace Records

def new (vaBytes vramBytes : UInt64) : Records := ⟨.new vaBytes vramBytes, fun _ => 0⟩

def count (asked : Fin maxEngines → UInt64) : Tlb.Call → Fin maxEngines → UInt64
  | .translate e _ _ => Function.update asked e (asked e + 1)
  | _ => asked

def exec (r : Records) : Call → Answer × Records
  | .change c => (answer r.mmu c, ⟨(Tlb.step r.mmu c).getD r.mmu, count r.asked c⟩)
  | .page va => (.info (.ofRecord (r.mmu.table.page va.toNat)), r)
  | .resetStats => (.done, { r with asked := fun _ => 0 })

end Records

/-! ### The simulation -/

structure EntrySim (e : TlbEntry) (f : Tlb.TlbEntry) : Prop where
  vpn : e.vpn.toNat = f.vpn
  pte : Codes e.pte f.pte
  lastUsed : e.lastUsed = f.lastUsed

structure TlbSim (t : EngineTlb) (u : Tlb.EngineTlb) : Prop where
  entry : ∀ i, EntrySim (t.entry i) (u.entry i)
  clock : t.clock = u.clock

structure Sim (x : Mmu) (s : Tlb.State) : Prop where
  npages : x.npages.toNat = s.table.npages
  vramPages : x.vramPages.toNat = s.table.vramPages
  vramPages_le : s.table.vramPages ≤ 2 ^ 52
  pte : ∀ v, Codes (x.pte v) (s.table.pte v.toNat)
  host : ∀ v, x.host v = UInt64.ofNat (s.table.host v.toNat)
  tlb : ∀ e, TlbSim (x.tlb e) (s.tlb e)

variable {x : Mmu} {s : Tlb.State} {t : EngineTlb} {u : Tlb.EngineTlb} {va pa n v w : UInt64}
  {p : Pte}

/-! ### Addresses and ranges -/

@[simp] theorem toNat_vpn (va : UInt64) : (va >>> pageShift).toNat = va.toNat / pageSize := by
  rw [UInt64.toNat_shiftRight]
  exact Nat.shiftRight_eq_div_pow _ _

theorem aligned (va : UInt64) : va &&& pageMask = 0 ↔ va.toNat % pageSize = 0 := by
  rw [← UInt64.toNat_inj, UInt64.toNat_and]
  exact Eq.congr (Nat.and_two_pow_sub_one_eq_mod va.toNat 12) rfl

theorem both_aligned (va pa : UInt64) :
    (va ||| pa) &&& pageMask = 0 ↔ va.toNat % pageSize = 0 ∧ pa.toNat % pageSize = 0 := by
  rw [← aligned, ← aligned, ← UInt64.toNat_inj, ← UInt64.toNat_inj, ← UInt64.toNat_inj]
  simp only [UInt64.toNat_and, UInt64.toNat_or, Nat.and_or_distrib_right, UInt64.toNat_zero,
    Nat.or_eq_zero_iff]

theorem out_of_range (a b n : UInt64) :
    a ≤ b ∨ a - b < n ↔ a.toNat ≤ b.toNat ∨ a.toNat - b.toNat < n.toNat := by
  by_cases hle : b ≤ a
  · rw [UInt64.le_iff_toNat_le, UInt64.lt_iff_toNat_lt, UInt64.toNat_sub_of_le _ _ hle]
  · have hlt : a.toNat ≤ b.toNat := by
      rw [UInt64.le_iff_toNat_le] at hle
      omega
    exact ⟨fun _ => .inl hlt, fun _ => .inl (UInt64.le_iff_toNat_le.mpr hlt)⟩

theorem toNat_add_ofNat {a b n : UInt64} {i : ℕ}
    (h : ¬(a.toNat ≤ b.toNat ∨ a.toNat - b.toNat < n.toNat)) (hi : i < n.toNat) :
    (b + UInt64.ofNat i).toNat = b.toNat + i := by
  have ha := a.toNat_lt
  rw [UInt64.toNat_add, UInt64.toNat_ofNat', Nat.add_mod_mod, Nat.mod_eq_of_lt]
  omega

theorem forEach_rule {f : Mmu → UInt64 → Mmu} {P : ℕ → Mmu → Prop} {k : ℕ} (h₀ : P 0 x)
    (hstep : ∀ i < k, ∀ y, P i y → P (i + 1) (f y (UInt64.ofNat i))) :
    P k (Mmu.forEach f x k) := by
  induction k with
  | zero => exact h₀
  | succ k ih =>
    have hrest := ih fun i hi => hstep i (Nat.lt_succ_of_lt hi)
    exact hstep k (Nat.lt_succ_self k) _ hrest

theorem range_zero {α : Type*} (f : ℕ → α) (first : ℕ) (g : ℕ → α) :
    (fun v => if first ≤ v ∧ v < first + 0 then g (v - first) else f v) = f := by
  funext v
  rw [if_neg]
  omega

theorem range_succ {α : Type*} (f : ℕ → α) (first k : ℕ) (g : ℕ → α) :
    (fun v => if first ≤ v ∧ v < first + (k + 1) then g (v - first) else f v) =
      Function.update (fun v => if first ≤ v ∧ v < first + k then g (v - first) else f v)
        (first + k) (g k) := by
  funext v
  by_cases hv : v = first + k
  · subst hv
    simp
  · rw [Function.update_of_ne hv]
    have hiff : first ≤ v ∧ v < first + (k + 1) ↔ first ≤ v ∧ v < first + k := by omega
    simp only [hiff]

theorem setRange_zero (f : ℕ → Pte) (first : ℕ) (g : ℕ → Pte) :
    SoftGpu.Mmu.setRange f first 0 g = f := range_zero f first g

theorem setRange_succ (f : ℕ → Pte) (first k : ℕ) (g : ℕ → Pte) :
    SoftGpu.Mmu.setRange f first (k + 1) g =
      Function.update (SoftGpu.Mmu.setRange f first k g) (first + k) (g k) := range_succ f first k g

theorem setHosts_zero (f : ℕ → ℕ) (first : ℕ) (g : ℕ → ℕ) :
    SoftGpu.Mmu.setHosts f first 0 g = f := range_zero f first g

theorem setHosts_succ (f : ℕ → ℕ) (first k : ℕ) (g : ℕ → ℕ) :
    SoftGpu.Mmu.setHosts f first (k + 1) g =
      Function.update (SoftGpu.Mmu.setHosts f first k g) (first + k) (g k) := range_succ f first k g

theorem setTable_invalidateRange (s : Tlb.State) (m : SoftGpu.Mmu) (first k : ℕ) :
    (s.setTable m).tlbInvalidateRange first k = (s.tlbInvalidateRange first k).setTable m := by
  induction k with
  | zero => rfl
  | succ k ih =>
    simp only [Tlb.State.tlbInvalidateRange]
    rw [ih]
    rfl

/-! ### One engine's TLB -/

theorem toNat_noVpn : noVpn.toNat = Tlb.noVpn := rfl

namespace TlbSim

theorem new : TlbSim .new .new := ⟨fun _ => ⟨rfl, codes_zero, rfl⟩, rfl⟩

theorem set {i : Fin tlbEntries} {e : TlbEntry} {f : Tlb.TlbEntry} (h : TlbSim t u)
    (he : EntrySim e f) : TlbSim (t.set i e) (u.set i f) where
  entry := by
    intro j
    by_cases hj : j = i
    · subst hj
      simpa [EngineTlb.set, Tlb.EngineTlb.set] using he
    · simpa [EngineTlb.set, Tlb.EngineTlb.set, hj] using h.entry j
  clock := h.clock

theorem setClock {c : UInt64} (h : TlbSim t u) :
    TlbSim { t with clock := c } { u with clock := c } :=
  ⟨h.entry, rfl⟩

theorem tag_iff (h : TlbSim t u) (i : Fin tlbEntries) :
    (t.entry i).vpn = v ↔ (u.entry i).vpn = v.toNat := by
  rw [← (h.entry i).vpn, UInt64.toNat_inj]

theorem invalidate (h : TlbSim t u) : TlbSim (t.invalidate v) (u.invalidate v.toNat) where
  entry := by
    intro i
    simp only [EngineTlb.invalidate, Tlb.EngineTlb.invalidate, h.tag_iff i]
    split
    · exact ⟨toNat_noVpn, (h.entry i).pte, (h.entry i).lastUsed⟩
    · exact h.entry i
  clock := h.clock

theorem slot (h : TlbSim t u) (is : List (Fin tlbEntries)) (best : Fin tlbEntries)
    (oldest : UInt64) :
    EngineTlb.slot t.entry is best oldest = Tlb.EngineTlb.slot u.entry is best oldest := by
  induction is generalizing best oldest with
  | nil => rfl
  | cons i is ih =>
    simp only [EngineTlb.slot, Tlb.EngineTlb.slot, h.tag_iff i, toNat_noVpn,
      (h.entry i).lastUsed, ih]

end TlbSim

/-- One call finds the generation as it left it, so only the entry of the page decides
whether the tag stays. -/
theorem tlbInsert_eq (x : Mmu) (e : Fin maxEngines) (v w : UInt64) :
    x.tlbInsert e v w = x.setTlb e
      { (x.tlb e).set (EngineTlb.slot (x.tlb e).entry (List.finRange tlbEntries)
            ⟨0, EngineTlb.tlbEntries_pos⟩ (~~~0))
          ⟨if x.pte v &&& (ptePresent ||| pteInVram) = ptePresent ||| pteInVram then v else noVpn,
            w, (x.tlb e).clock⟩ with
        clock := (x.tlb e).clock + 1 } := by
  by_cases hres : x.pte v &&& (ptePresent ||| pteInVram) = ptePresent ||| pteInVram
  · simp [Mmu.tlbInsert, Mmu.setTlb, Mmu.setTag, EngineTlb.set, hres]
  · simp [Mmu.tlbInsert, Mmu.setTlb, EngineTlb.set, hres]

/-! ### Single stores -/

namespace Sim

theorem new (vaBytes vramBytes : UInt64) :
    Sim (.new vaBytes vramBytes) (.new vaBytes vramBytes) where
  npages := UInt64.toNat_div vaBytes 4096
  vramPages := UInt64.toNat_div vramBytes 4096
  vramPages_le := by
    have := vramBytes.toNat_lt
    simp only [Tlb.State.new, SoftGpu.Mmu.new, pageSize]
    omega
  pte := fun _ => codes_zero
  host := fun _ => rfl
  tlb := fun _ => .new

theorem setPte (h : Sim x s) (hp : Codes w p) :
    Sim (x.setPte v w) (s.setTable (s.table.setPte v.toNat p)) where
  npages := h.npages
  vramPages := h.vramPages
  vramPages_le := h.vramPages_le
  pte := by
    intro a
    by_cases ha : a = v
    · subst ha
      simpa [Mmu.setPte, Tlb.State.setTable] using hp
    · have hn : a.toNat ≠ v.toNat := fun hn => ha (UInt64.toNat_inj.mp hn)
      simpa [Mmu.setPte, Tlb.State.setTable, ha, hn] using h.pte a
  host := h.host
  tlb := h.tlb

theorem setHost {k : ℕ} (h : Sim x s) (hw : w = UInt64.ofNat k) :
    Sim (x.setHost v w)
      (s.setTable { s.table with host := Function.update s.table.host v.toNat k }) where
  npages := h.npages
  vramPages := h.vramPages
  vramPages_le := h.vramPages_le
  pte := h.pte
  host := by
    intro a
    by_cases ha : a = v
    · subst ha
      simpa [Mmu.setHost, Tlb.State.setTable] using hw
    · have hn : a.toNat ≠ v.toNat := fun hn => ha (UInt64.toNat_inj.mp hn)
      simpa [Mmu.setHost, Tlb.State.setTable, ha, hn] using h.host a
  tlb := h.tlb

theorem setTlb {e : Fin maxEngines} (h : Sim x s) (ht : TlbSim t u) :
    Sim (x.setTlb e t) (s.setTlb e u) where
  npages := h.npages
  vramPages := h.vramPages
  vramPages_le := h.vramPages_le
  pte := h.pte
  host := h.host
  tlb := by
    intro d
    by_cases hd : d = e
    · subst hd
      simpa [Mmu.setTlb, Tlb.State.setTlb] using ht
    · simpa [Mmu.setTlb, Tlb.State.setTlb, hd] using h.tlb d

theorem bumpGen (h : Sim x s) : Sim x.bumpGen s :=
  ⟨h.npages, h.vramPages, h.vramPages_le, h.pte, h.host, h.tlb⟩

theorem invalidate {k : ℕ} (h : Sim x s) (hv : v.toNat = k) :
    Sim (x.tlbInvalidateVpn v) (s.tlbInvalidateVpn k) := by
  subst hv
  exact ⟨h.npages, h.vramPages, h.vramPages_le, h.pte, h.host, fun e => (h.tlb e).invalidate⟩

/-! ### Mapping operations -/

theorem eq_zero_iff (n : UInt64) : n = 0 ↔ n.toNat = 0 := by
  rw [← UInt64.toNat_inj, UInt64.toNat_zero]

theorem page_eq (h : Sim x s) {i : ℕ}
    (hin : ¬(s.table.npages ≤ va.toNat / pageSize ∨
      s.table.npages - va.toNat / pageSize < n.toNat))
    (hi : i < n.toNat) :
    (va >>> pageShift + UInt64.ofNat i).toNat = va.toNat / pageSize + i := by
  rw [← h.npages, ← toNat_vpn] at hin
  rw [toNat_add_ofNat hin hi, toNat_vpn]

theorem anyPresent (h : Sim x s)
    (hin : ¬(s.table.npages ≤ va.toNat / pageSize ∨
      s.table.npages - va.toNat / pageSize < n.toNat)) :
    x.anyPresent (va >>> pageShift) n ↔
      ∃ i < n.toNat, (s.table.pte (va.toNat / pageSize + i)).present = true := by
  apply exists_congr
  intro i
  apply and_congr_right
  intro hi
  rw [ne_eq, (h.pte _).present, h.page_eq hin hi, Bool.not_eq_false]

theorem range_iff (h : Sim x s) (va n : UInt64) :
    x.npages ≤ va >>> pageShift ∨ x.npages - va >>> pageShift < n ↔
      s.table.npages ≤ va.toNat / pageSize ∨ s.table.npages - va.toNat / pageSize < n.toNat := by
  rw [out_of_range, h.npages, toNat_vpn]

theorem frames_iff (h : Sim x s) (pa n : UInt64) :
    x.vramPages ≤ pa >>> pageShift ∨ x.vramPages - pa >>> pageShift < n ↔
      s.table.vramPages ≤ pa.toNat / pageSize ∨
        s.table.vramPages - pa.toNat / pageSize < n.toNat := by
  rw [out_of_range, h.vramPages, toNat_vpn]

theorem mapLoop {first k : ℕ} {f : Mmu → UInt64 → Mmu} {m : ℕ → SoftGpu.Mmu} (h : Sim x s)
    (h₀ : m 0 = s.table)
    (hstep : ∀ i < k, ∀ y (s' : Tlb.State), Sim y (s'.setTable (m i)) →
      Sim (f y (UInt64.ofNat i)) ((s'.setTable (m (i + 1))).tlbInvalidateVpn (first + i))) :
    Sim (Mmu.forEach f x k) ((s.setTable (m k)).tlbInvalidateRange first k) := by
  apply forEach_rule (P := fun i y => Sim y ((s.setTable (m i)).tlbInvalidateRange first i))
  · rw [h₀]
    exact h
  · intro i hi y hy
    rw [setTable_invalidateRange] at hy
    rw [Tlb.State.tlbInvalidateRange, setTable_invalidateRange]
    exact hstep i hi y _ hy

theorem mapVram (h : Sim x s) (va pa n : UInt64) :
    (x.mapVram va pa n).1 = codeOf (s.table.mapVram va.toNat pa.toNat n.toNat) ∧
      Sim (x.mapVram va pa n).2 (s.mapVram va pa n) := by
  have halign := (both_aligned va pa).not.trans not_and_or
  simp only [Mmu.mapVram, Tlb.State.mapVram, SoftGpu.Mmu.mapVram, halign, eq_zero_iff, h.range_iff,
    h.frames_iff]
  split_ifs with h₁ h₂ h₃ h₄ h₅ h₆ h₆
  · exact ⟨rfl, h⟩
  · exact ⟨rfl, h⟩
  · exact ⟨rfl, h⟩
  · exact ⟨rfl, h⟩
  · exact ⟨rfl, h⟩
  · exact absurd ((h.anyPresent h₃).mp h₅) h₆
  · exact absurd ((h.anyPresent h₃).mpr h₆) h₅
  · refine ⟨rfl, ?_⟩
    apply h.mapLoop (m := fun i => { s.table with
      pte := SoftGpu.Mmu.setRange s.table.pte (vpnOf va) i fun i =>
        .inFrame (pa.toNat / pageSize + i) false })
    · simp only [setRange_zero]
    · intro i hi y s' hy
      have hpage := h.page_eq h₃ hi
      have hframe : (pa >>> pageShift + UInt64.ofNat i).toNat = pa.toNat / pageSize + i := by
        rw [← h.vramPages, ← toNat_vpn] at h₄
        rw [toNat_add_ofNat h₄ hi, toNat_vpn]
      have hlt : (pa >>> pageShift + UInt64.ofNat i).toNat < 2 ^ 52 := by
        have := h.vramPages_le
        omega
      have hcode := codes_mapped hlt
      rw [hframe] at hcode
      have hset := (hy.setPte (v := va >>> pageShift + UInt64.ofNat i) hcode).invalidate hpage
      rw [hpage] at hset
      simp only [setRange_succ]
      exact hset

theorem mapHost (h : Sim x s) (va host n : UInt64) :
    (x.mapHost va host n).1 = codeOf (s.table.mapHost va.toNat host.toNat n.toNat) ∧
      Sim (x.mapHost va host n).2 (s.mapHost va host n) := by
  have halign := (both_aligned va host).not.trans not_and_or
  simp only [Mmu.mapHost, Tlb.State.mapHost, SoftGpu.Mmu.mapHost, halign, eq_zero_iff, h.range_iff]
  split_ifs with h₁ h₂ h₃ h₄ h₅ h₅
  · exact ⟨rfl, h⟩
  · exact ⟨rfl, h⟩
  · exact ⟨rfl, h⟩
  · exact ⟨rfl, h⟩
  · exact absurd ((h.anyPresent h₃).mp h₄) h₅
  · exact absurd ((h.anyPresent h₃).mpr h₅) h₄
  · refine ⟨rfl, ?_⟩
    apply h.mapLoop (m := fun i => { s.table with
      pte := SoftGpu.Mmu.setRange s.table.pte (vpnOf va) i fun _ => .hostResident
      host := SoftGpu.Mmu.setHosts s.table.host (vpnOf va) i fun i => host.toNat + i * pageSize })
    · simp only [setRange_zero, setHosts_zero]
    · intro i hi y s' hy
      have hpage := h.page_eq h₃ hi
      -- the sum of the source wraps, the sum of the record does not
      have hhost : host + UInt64.ofNat i * 4096 = UInt64.ofNat (host.toNat + i * pageSize) := by
        rw [UInt64.ofNat_add, UInt64.ofNat_mul, UInt64.ofNat_toNat]
        rfl
      have hset := ((hy.setHost (v := va >>> pageShift + UInt64.ofNat i) hhost).setPte
        (v := va >>> pageShift + UInt64.ofNat i) codes_hostResident).invalidate hpage
      rw [hpage] at hset
      simp only [setRange_succ, setHosts_succ]
      exact hset

theorem unmap (h : Sim x s) (va n : UInt64) :
    (x.unmap va n).1 = unmapCode s.table va.toNat n.toNat ∧
      Sim (x.unmap va n).2 (s.unmap va n) := by
  have halign := (aligned va).not
  simp only [Mmu.unmap, Tlb.State.unmap, unmapCode, halign, ne_eq, eq_zero_iff, h.range_iff, vpnOf]
  by_cases h₁ : va.toNat % pageSize = 0
  swap
  · simp only [h₁, not_false_eq_true, if_true, true_or]
    exact ⟨trivial, h⟩
  by_cases h₂ : n.toNat = 0
  · simp only [h₁, h₂, not_true_eq_false, if_false, if_true, true_or, or_true]
    exact ⟨trivial, h⟩
  by_cases h₃ : s.table.npages ≤ va.toNat / pageSize ∨
      s.table.npages - va.toNat / pageSize < n.toNat
  · simp only [h₁, h₂, h₃, not_true_eq_false, if_false, if_true, false_or]
    exact ⟨trivial, h⟩
  · simp only [h₁, h₂, h₃, not_true_eq_false, if_false, false_or]
    refine ⟨trivial, ?_⟩
    have hin : va.toNat / pageSize + n.toNat ≤ s.table.npages := by omega
    rw [SoftGpu.Mmu.unmap_eq h₁ (Nat.pos_of_ne_zero h₂) hin]
    -- the entries first, then the tags
    have hcleared : Sim (Mmu.forEach (fun x i => (x.setPte (va >>> pageShift + i) 0).setHost
        (va >>> pageShift + i) 0) x n.toNat) (s.setTable { s.table with
          pte := SoftGpu.Mmu.setRange s.table.pte (va.toNat / pageSize) n.toNat fun _ => .zero
          host := SoftGpu.Mmu.setHosts s.table.host (va.toNat / pageSize)
            n.toNat fun _ => 0 }) := by
      apply forEach_rule (P := fun i y => Sim y (s.setTable { s.table with
          pte := SoftGpu.Mmu.setRange s.table.pte (va.toNat / pageSize) i fun _ => .zero
          host := SoftGpu.Mmu.setHosts s.table.host (va.toNat / pageSize) i fun _ => 0 }))
      · simp only [setRange_zero, setHosts_zero]
        exact h
      · intro i hi y hy
        have hset := (hy.setPte (v := va >>> pageShift + UInt64.ofNat i) codes_zero).setHost
          (v := va >>> pageShift + UInt64.ofNat i) (k := 0) rfl
        rw [h.page_eq h₃ hi] at hset
        simp only [setRange_succ, setHosts_succ]
        exact hset
    apply forEach_rule (P := fun i y => Sim y (Tlb.State.tlbInvalidateRange _ _ i))
    · exact hcleared.bumpGen
    · intro i hi y hy
      exact hy.invalidate (h.page_eq h₃ hi)

theorem makeResident (h : Sim x s) (va pa : UInt64) :
    (x.makeResident va pa).1 = codeOf (s.table.makeResident va.toNat pa.toNat) ∧
      Sim (x.makeResident va pa).2 (s.makeResident va pa) := by
  have halign := (both_aligned va pa).not.trans not_and_or
  have hrange : x.npages ≤ va >>> pageShift ∨ x.vramPages ≤ pa >>> pageShift ↔
      s.table.npages ≤ va.toNat / pageSize ∨ s.table.vramPages ≤ pa.toNat / pageSize := by
    rw [UInt64.le_iff_toNat_le, UInt64.le_iff_toNat_le, h.npages, h.vramPages, toNat_vpn, toNat_vpn]
  have hpte := h.pte (va >>> pageShift)
  rw [toNat_vpn] at hpte
  simp only [Mmu.makeResident, Tlb.State.makeResident, SoftGpu.Mmu.makeResident, halign, hrange,
    ne_eq, hpte.present, hpte.inVram, Bool.not_eq_false, vpnOf]
  by_cases hv : (s.table.pte (va.toNat / pageSize)).inVram = true
  · simp only [hv, if_true]
    split_ifs
    · exact ⟨rfl, h⟩
    · exact ⟨rfl, h⟩
    · exact ⟨rfl, h⟩
    · exact ⟨rfl, h⟩
  · simp only [hv, Bool.false_eq_true, if_false]
    split_ifs with h₁ h₂ h₃
    · exact ⟨rfl, h⟩
    · exact ⟨rfl, h⟩
    · exact ⟨rfl, h⟩
    · refine ⟨rfl, ?_⟩
      have hlt : (pa >>> pageShift).toNat < 2 ^ 52 := by
        have := h.vramPages_le
        rw [toNat_vpn]
        omega
      have hset := (h.setPte (v := va >>> pageShift) (codes_resident hlt)).bumpGen.invalidate
        (toNat_vpn va)
      rw [toNat_vpn, toNat_vpn] at hset
      exact hset

theorem below_iff (h : Sim x s) (va : UInt64) :
    x.npages ≤ va >>> pageShift ↔ s.table.npages ≤ va.toNat / pageSize := by
  rw [UInt64.le_iff_toNat_le, h.npages, toNat_vpn]

theorem entry (h : Sim x s) (va : UInt64) :
    Codes (x.pte (va >>> pageShift)) (s.table.pte (va.toNat / pageSize)) :=
  toNat_vpn va ▸ h.pte (va >>> pageShift)

theorem mark {f : ℕ → Bool} (h : Sim x s) : Sim x { s with evicting := f } :=
  ⟨h.npages, h.vramPages, h.vramPages_le, h.pte, h.host, h.tlb⟩

theorem beginEvict (h : Sim x s) (va : UInt64) :
    (x.beginEvict va).1 = encode (s.table.beginEvict va.toNat).1 ∧
      Sim (x.beginEvict va).2 (s.beginEvict va) := by
  have hpte := h.entry va
  simp only [Mmu.beginEvict, Tlb.State.beginEvict, SoftGpu.Mmu.beginEvict, h.below_iff, ne_eq,
    hpte.resident, Bool.and_eq_true, vpnOf, ite_not]
  split_ifs with h₁ h₂
  · exact ⟨encode_zero.symm, h.mark⟩
  · refine ⟨hpte.eq_encode, ?_⟩
    have hset := ((h.setPte (v := va >>> pageShift) codes_hostResident).bumpGen.mark
      (f := Function.update s.evicting (vpnOf va) true)).invalidate (toNat_vpn va)
    rw [toNat_vpn] at hset
    exact hset
  · exact ⟨encode_zero.symm, h.mark⟩

theorem endEvict (h : Sim x s) (va : UInt64) :
    (x.endEvict va).1 = encode (lateFlags s.table va.toNat) ∧
      Sim (x.endEvict va).2 (s.endEvict va) := by
  have hpte := h.entry va
  simp only [Mmu.endEvict, Tlb.State.endEvict, SoftGpu.Mmu.endEvict, lateFlags, h.below_iff]
  split_ifs with h₁
  · exact ⟨encode_zero.symm, h.mark⟩
  · have hset := (h.setPte (v := va >>> pageShift) hpte.clear).mark
      (f := Function.update s.evicting (vpnOf va) false)
    rw [toNat_vpn] at hset
    exact ⟨hpte.late, hset⟩

theorem testAndClearAccessed (h : Sim x s) (va : UInt64) :
    (x.testAndClearAccessed va).1 = (s.table.testAndClearAccessed va.toNat).1 ∧
      Sim (x.testAndClearAccessed va).2 (s.testAndClearAccessed va) := by
  have hpte := h.entry va
  simp only [Mmu.testAndClearAccessed, Tlb.State.testAndClearAccessed,
    SoftGpu.Mmu.testAndClearAccessed, h.below_iff, ne_eq, hpte.accessed, Bool.not_eq_false]
  split_ifs with h₁
  · exact ⟨rfl, h⟩
  · refine ⟨Bool.decide_eq_true, ?_⟩
    have hset := h.setPte (v := va >>> pageShift) hpte.clearAccessed
    rw [toNat_vpn] at hset
    exact hset

theorem page (h : Sim x s) (va : UInt64) :
    x.page va = .ofRecord (s.table.page va.toNat) := by
  have hpte := h.entry va
  have hhost := h.host (va >>> pageShift)
  rw [toNat_vpn] at hhost
  simp only [Mmu.page, SoftGpu.Mmu.page, h.below_iff, hpte.present, hpte.inVram, ne_eq,
    Bool.not_eq_false, hhost, hpte.ptePa_eq]
  split_ifs <;> rfl

/-! ### Translation -/

theorem counted {f g : Fin maxEngines → UInt64} (h : Sim x s) :
    Sim { x with tlbHits := f, tlbMisses := g } s :=
  ⟨h.npages, h.vramPages, h.vramPages_le, h.pte, h.host, h.tlb⟩

theorem tlbInsert {e : Fin maxEngines} (h : Sim x s) (hp : Codes w p) :
    Sim (x.tlbInsert e v w) (s.setTlb e ((s.tlb e).insert s.table v.toNat p)) := by
  have ht := h.tlb e
  rw [tlbInsert_eq, Tlb.EngineTlb.insert, ht.slot]
  apply h.setTlb
  rw [ht.clock]
  apply TlbSim.setClock
  apply ht.set
  refine ⟨?_, hp, rfl⟩
  simp only [(h.pte v).resident, Bool.and_eq_true]
  split
  · rfl
  · exact toNat_noVpn

theorem touch (h : Sim x s) (va : UInt64) (write : Bool) :
    let bits := pteAccessed ||| if write then pteDirty else 0
    let pte := x.pte (va >>> pageShift)
    Sim (if pte &&& bits ≠ bits then x.setPte (va >>> pageShift) (pte ||| bits) else x)
        (s.setTable (s.touch va write)) ∧
      Codes (if pte &&& bits ≠ bits then pte ||| bits else pte)
        ((s.touch va write).pte (va.toNat / pageSize)) := by
  have hpte := h.entry va
  intro bits pte
  by_cases hc : ((s.table.pte (vpnOf va)).accessed &&
      (!write || (s.table.pte (vpnOf va)).dirty)) = true
  · have htouch : s.touch va write = s.table := if_pos hc
    have hbits : ¬pte &&& bits ≠ bits := not_not.mpr ((hpte.touched write).mpr hc)
    rw [if_neg hbits, if_neg hbits, htouch]
    exact ⟨h, hpte⟩
  · have htouch : s.touch va write = s.table.orFlags va.toNat write true := if_neg hc
    have hbits : pte &&& bits ≠ bits := (hpte.touched write).not.mpr hc
    have hset := h.setPte (v := va >>> pageShift) (hpte.touch write)
    rw [toNat_vpn] at hset
    rw [if_pos hbits, if_pos hbits, htouch, SoftGpu.Mmu.orFlags, SoftGpu.Mmu.setPte_pte,
      Function.update_self]
    exact ⟨hset, hpte.touch write⟩

theorem walk (h : Sim x s) (e : Fin maxEngines) (va : UInt64) (write : Bool) :
    (x.walk e va write).1 = .ofRecord (s.walk e va write).1 ∧
      Sim (x.walk e va write).2 (s.walk e va write).2 := by
  have hpte := h.entry va
  simp only [Mmu.walk, Tlb.State.walk, h.below_iff, hpte.present, hpte.inVram, vpnOf]
  by_cases h₁ : s.table.npages ≤ va.toNat / pageSize
  · simp only [h₁, if_true]
    exact ⟨rfl, h⟩
  by_cases h₂ : (s.table.pte (va.toNat / pageSize)).present = false
  · simp only [h₁, h₂, if_true, if_false]
    exact ⟨rfl, h⟩
  by_cases h₃ : (s.table.pte (va.toNat / pageSize)).inVram = false
  · simp only [h₁, h₂, h₃, if_true, if_false]
    exact ⟨rfl, h⟩
  · simp only [h₁, h₂, h₃, if_false]
    obtain ⟨hsim, hcode⟩ := h.touch va write
    have hsame := Tlb.touch_same s va write
    have hp : ¬((s.touch va write).pte (va.toNat / pageSize)).present = false := by
      rw [hsame.present]
      exact h₂
    have hv : ¬((s.touch va write).pte (va.toNat / pageSize)).inVram = false := by
      rw [hsame.inVram]
      exact h₃
    rw [if_neg (hcode.present.not.mpr hp), if_neg (hcode.inVram.not.mpr hv)]
    have hins := hsim.tlbInsert (e := e) (v := va >>> pageShift) hcode
    rw [toNat_vpn] at hins
    exact ⟨congrArg Translate.ok hcode.ptePa_eq, hins⟩

theorem lateDirty (h : Sim x s) (va : UInt64) (late : Bool) :
    Sim (if late && decide (va >>> pageShift < x.npages) then
          x.setPte (va >>> pageShift) (x.pte (va >>> pageShift) ||| pteDirty) else x)
      (s.setTable (if late && decide (vpnOf va < s.table.npages) then
          s.table.orFlags va.toNat true false else s.table)) := by
  have hin : va >>> pageShift < x.npages ↔ vpnOf va < s.table.npages := by
    rw [UInt64.lt_iff_toNat_lt, h.npages, toNat_vpn]
    rfl
  have hset := h.setPte (v := va >>> pageShift) (h.entry va).setDirty
  rw [toNat_vpn] at hset
  simp only [hin]
  split
  · rw [SoftGpu.Mmu.orFlags]
    simp only [Bool.or_true, Bool.or_false]
    exact hset
  · exact h

theorem hit (h : Sim x s) (e : Fin maxEngines) (va : UInt64) (write : Bool) (i : Fin tlbEntries) :
    (x.hit e va write i).1 = .ofRecord (s.hit e va write i).1 ∧
      Sim (x.hit e va write i).2 (s.hit e va write i).2 := by
  have ht := h.tlb e
  have hcopy := (ht.entry i).pte
  have hlate : (write && decide (((x.tlb e).entry i).pte &&& pteDirty = 0)) =
      (write && !((s.tlb e).entry i).pte.dirty) := by
    simp [hcopy.dirty]
  simp only [Mmu.hit, Tlb.State.hit, hlate]
  generalize (write && !((s.tlb e).entry i).pte.dirty) = late
  have hneu : Codes (if late then ((x.tlb e).entry i).pte ||| pteDirty else ((x.tlb e).entry i).pte)
      (if late then { ((s.tlb e).entry i).pte with dirty := true }
        else ((s.tlb e).entry i).pte) := by
    cases late with
    | true => exact hcopy.setDirty
    | false => exact hcopy
  refine ⟨congrArg Translate.ok hneu.ptePa_eq, ?_⟩
  apply counted
  apply (h.lateDirty va late).setTlb
  rw [ht.clock]
  apply TlbSim.setClock
  apply ht.set
  exact ⟨(ht.entry i).vpn, hneu, rfl⟩

theorem translate (h : Sim x s) (e : Fin maxEngines) (va : UInt64) (write : Bool) :
    (x.translate e va write).1 = .ofRecord (s.translate e va write).1 ∧
      Sim (x.translate e va write).2 (s.translate e va write).2 := by
  have hprobe : (fun i => ((x.tlb e).entry i).vpn == va >>> pageShift) =
      fun i => ((s.tlb e).entry i).vpn == vpnOf va := by
    funext i
    rw [Bool.eq_iff_iff, beq_iff_eq, beq_iff_eq, (h.tlb e).tag_iff i, toNat_vpn]
    rfl
  have hwalk := (h.counted (f := x.tlbHits) (g := Function.update x.tlbMisses e
    (x.tlbMisses e + 1))).walk e va write
  simp only [Mmu.translate, Tlb.State.translate, hprobe]
  generalize (List.finRange tlbEntries).find? (fun i => ((s.tlb e).entry i).vpn == vpnOf va) = found
  cases found with
  | none => exact hwalk
  | some i =>
    have hpte := ((h.tlb e).entry i).pte
    simp only [hpte.present, hpte.inVram]
    by_cases hv : (((s.tlb e).entry i).pte.present && ((s.tlb e).entry i).pte.inVram) = true
    · have hout : ¬(((s.tlb e).entry i).pte.present = false ∨
          ((s.tlb e).entry i).pte.inVram = false) := by
        rw [Bool.and_eq_true] at hv
        simp [hv]
      rw [if_neg hout, if_pos hv]
      exact h.hit e va write i
    · have hout : ((s.tlb e).entry i).pte.present = false ∨
          ((s.tlb e).entry i).pte.inVram = false := by
        rw [Bool.and_eq_true, not_and_or] at hv
        simpa using hv
      rw [if_pos hout, if_neg hv]
      exact hwalk

end Sim

/-! ### The counters -/

structure SameCounts (x y : Mmu) : Prop where
  hits : y.tlbHits = x.tlbHits
  misses : y.tlbMisses = x.tlbMisses

namespace SameCounts

theorem refl (x : Mmu) : SameCounts x x := ⟨rfl, rfl⟩

theorem mapVram (x : Mmu) (va pa n : UInt64) : SameCounts x (x.mapVram va pa n).2 := by
  simp only [Mmu.mapVram]
  split_ifs
  · exact refl x
  · exact refl x
  · exact refl x
  · exact refl x
  · exact refl x
  · apply forEach_rule (P := fun _ y => SameCounts x y)
    · exact refl x
    · intro i _ y hy
      exact ⟨hy.hits, hy.misses⟩

theorem mapHost (x : Mmu) (va host n : UInt64) : SameCounts x (x.mapHost va host n).2 := by
  simp only [Mmu.mapHost]
  split_ifs
  · exact refl x
  · exact refl x
  · exact refl x
  · exact refl x
  · apply forEach_rule (P := fun _ y => SameCounts x y)
    · exact refl x
    · intro i _ y hy
      exact ⟨hy.hits, hy.misses⟩

theorem unmap (x : Mmu) (va n : UInt64) : SameCounts x (x.unmap va n).2 := by
  simp only [Mmu.unmap]
  split_ifs
  · exact refl x
  · exact refl x
  · exact refl x
  · have hcleared : SameCounts x (Mmu.forEach (fun x i =>
        (x.setPte (va >>> pageShift + i) 0).setHost (va >>> pageShift + i) 0) x n.toNat) := by
      apply forEach_rule (P := fun _ y => SameCounts x y)
      · exact refl x
      · intro i _ y hy
        exact ⟨hy.hits, hy.misses⟩
    apply forEach_rule (P := fun _ y => SameCounts x y)
    · exact ⟨hcleared.hits, hcleared.misses⟩
    · intro i _ y hy
      exact ⟨hy.hits, hy.misses⟩

theorem makeResident (x : Mmu) (va pa : UInt64) : SameCounts x (x.makeResident va pa).2 := by
  simp only [Mmu.makeResident]
  split_ifs <;> exact ⟨rfl, rfl⟩

theorem beginEvict (x : Mmu) (va : UInt64) : SameCounts x (x.beginEvict va).2 := by
  simp only [Mmu.beginEvict]
  split_ifs <;> exact ⟨rfl, rfl⟩

theorem endEvict (x : Mmu) (va : UInt64) : SameCounts x (x.endEvict va).2 := by
  simp only [Mmu.endEvict]
  split_ifs <;> exact ⟨rfl, rfl⟩

theorem testAndClearAccessed (x : Mmu) (va : UInt64) :
    SameCounts x (x.testAndClearAccessed va).2 := by
  simp only [Mmu.testAndClearAccessed]
  split_ifs <;> exact ⟨rfl, rfl⟩

theorem walk (x : Mmu) (e : Fin maxEngines) (va : UInt64) (write : Bool) :
    SameCounts x (x.walk e va write).2 := by
  simp only [Mmu.walk, tlbInsert_eq]
  split_ifs <;> exact ⟨rfl, rfl⟩

end SameCounts

def Counts (x : Mmu) (asked : Fin maxEngines → UInt64) : Prop :=
  ∀ e, x.tlbHits e + x.tlbMisses e = asked e

namespace Counts
variable {y : Mmu} {asked : Fin maxEngines → UInt64}

theorem same (h : Counts x asked) (hc : SameCounts x y) : Counts y asked := by
  intro e
  rw [hc.hits, hc.misses]
  exact h e

theorem hit (h : Counts x asked) (e : Fin maxEngines) (va : UInt64) (write : Bool)
    (i : Fin tlbEntries) :
    Counts (x.hit e va write i).2 (Function.update asked e (asked e + 1)) := by
  have hmisses : (x.hit e va write i).2.tlbMisses = x.tlbMisses := by
    simp only [Mmu.hit, Mmu.setTlb]
    split <;> rfl
  intro d
  rw [hmisses]
  by_cases hd : d = e
  · subst hd
    simp only [Mmu.hit, Function.update_self, ← h d]
    rw [UInt64.add_assoc, UInt64.add_comm 1, ← UInt64.add_assoc]
  · simp only [Mmu.hit, Function.update_of_ne hd]
    exact h d

theorem miss (h : Counts x asked) (e : Fin maxEngines) :
    Counts (x.countMiss e) (Function.update asked e (asked e + 1)) := by
  intro d
  by_cases hd : d = e
  · subst hd
    simp only [Mmu.countMiss, Function.update_self, ← h d]
    exact (UInt64.add_assoc _ _ _).symm
  · simp only [Mmu.countMiss, Function.update_of_ne hd]
    exact h d

theorem translate (h : Counts x asked) (e : Fin maxEngines) (va : UInt64) (write : Bool) :
    Counts (x.translate e va write).2 (Function.update asked e (asked e + 1)) := by
  have hwalk := (h.miss e).same (.walk _ e va write)
  simp only [Mmu.translate]
  generalize (List.finRange tlbEntries).find?
    (fun i => ((x.tlb e).entry i).vpn == va >>> pageShift) = found
  cases found with
  | none => exact hwalk
  | some i =>
    dsimp only
    split
    · exact hwalk
    · exact h.hit e va write i

end Counts

/-! ### Whole runs -/

structure Refines (x : Mmu) (r : Records) : Prop where
  sim : Sim x r.mmu
  counts : Counts x r.asked

theorem Refines.exec {r : Records} (h : Refines x r) (c : Call) :
    (x.exec c).1 = (r.exec c).1 ∧ Refines (x.exec c).2 (r.exec c).2 := by
  cases c with
  | change c =>
    cases c with
    | mapVram va pa n =>
      obtain ⟨hans, hsim⟩ := h.sim.mapVram va pa n
      exact ⟨congrArg Answer.code hans, hsim, h.counts.same (.mapVram x va pa n)⟩
    | mapHost va host n =>
      obtain ⟨hans, hsim⟩ := h.sim.mapHost va host n
      exact ⟨congrArg Answer.code hans, hsim, h.counts.same (.mapHost x va host n)⟩
    | unmap va n =>
      obtain ⟨hans, hsim⟩ := h.sim.unmap va n
      exact ⟨congrArg Answer.code hans, hsim, h.counts.same (.unmap x va n)⟩
    | makeResident va pa =>
      obtain ⟨hans, hsim⟩ := h.sim.makeResident va pa
      exact ⟨congrArg Answer.code hans, hsim, h.counts.same (.makeResident x va pa)⟩
    | beginEvict va =>
      obtain ⟨hans, hsim⟩ := h.sim.beginEvict va
      exact ⟨congrArg Answer.word hans, hsim, h.counts.same (.beginEvict x va)⟩
    | endEvict va =>
      obtain ⟨hans, hsim⟩ := h.sim.endEvict va
      exact ⟨congrArg Answer.word hans, hsim, h.counts.same (.endEvict x va)⟩
    | testAndClearAccessed va =>
      obtain ⟨hans, hsim⟩ := h.sim.testAndClearAccessed va
      exact ⟨congrArg Answer.bit hans, hsim, h.counts.same (.testAndClearAccessed x va)⟩
    | translate e va write =>
      obtain ⟨hans, hsim⟩ := h.sim.translate e va write
      exact ⟨congrArg Answer.translated hans, hsim, h.counts.translate e va write⟩
  | page va => exact ⟨congrArg Answer.info (h.sim.page va), h⟩
  | resetStats => exact ⟨rfl, h.sim.counted, fun _ => rfl⟩

theorem Refines.new (vaBytes vramBytes : UInt64) :
    Refines (.new vaBytes vramBytes) (.new vaBytes vramBytes) :=
  ⟨.new vaBytes vramBytes, fun _ => rfl⟩

/-- Whatever is called with whatever arguments, the words give the answers of the records
and go on standing for them, entry by entry, host address by host address and TLB by TLB;
and an engine's hits and misses add up to its translations. -/
theorem words_refine_records (vaBytes vramBytes : UInt64) (cs : List Call) :
    (Answers.run Mmu.exec (.new vaBytes vramBytes) cs).1 =
        (Answers.run Records.exec (.new vaBytes vramBytes) cs).1 ∧
      Refines (Answers.run Mmu.exec (.new vaBytes vramBytes) cs).2
        (Answers.run Records.exec (.new vaBytes vramBytes) cs).2 :=
  Answers.run_sim (fun _ _ c h => h.exec c) (.new vaBytes vramBytes) cs

-- The host address of the second page wraps.
example : (Answers.run Mmu.exec (.new 8192 8192)
    [.change (.mapHost 0 0xFFFFFFFFFFFFF000 2), .page 4096]).1 =
      [.code none, .info ⟨.host, 0, 0⟩] := by decide +kernel

/-! ### Evictions in pairs -/

def Mmu.lookup (x : Mmu) (va : UInt64) : Translate :=
  let pte := x.pte (va >>> pageShift)
  if x.npages ≤ va >>> pageShift then .notPresent
  else if pte &&& ptePresent = 0 then .notPresent
  else if pte &&& pteInVram = 0 then .hostResident
  else .ok (ptePa pte)

theorem Sim.lookup (h : Sim x s) (va : UInt64) :
    x.lookup va = .ofRecord (Tlb.lookup s.table va) := by
  have hpte := h.entry va
  simp only [Mmu.lookup, Tlb.lookup, h.below_iff, hpte.present, hpte.inVram, hpte.ptePa_eq, vpnOf]
  split_ifs with h₁ h₂ h₃
  · simp only [h₁, if_true, Translate.ofRecord]
  · simp only [h₁, h₂, if_true, if_false, Translate.ofRecord]
  · simp only [h₁, h₂, h₃, Bool.true_eq_false, if_true, if_false, Translate.ofRecord]
  · simp only [h₁, h₂, h₃, Bool.true_eq_false, if_false, Translate.ofRecord]

/-- With evictions in pairs a translation answers what the word of the entry says, hit or
miss, and a write leaves DIRTY in it. -/
theorem translate_reads_entry {vaBytes vramBytes : UInt64}
    (hs : Machine.Reach Tlb.step Tlb.paired (.new vaBytes vramBytes) s) (h : Sim x s)
    (e : Fin maxEngines) (va : UInt64) (write : Bool) :
    (x.translate e va write).1 = x.lookup va ∧
      ((∃ pa, x.lookup va = .ok pa) → write = true →
        (x.translate e va write).2.pte (va >>> pageShift) &&& pteDirty ≠ 0) := by
  have hinv : Tlb.Inv s :=
    hs.invariant (P := Tlb.Inv) (.new vaBytes vramBytes) fun _ _ _ hi hok hs => hi.step hok hs
  obtain ⟨-, hans⟩ := Tlb.translate_spec e va write hinv
  obtain ⟨hword, hnext⟩ := h.translate e va write
  refine ⟨hword.trans ((congrArg Translate.ofRecord hans.status).trans (h.lookup va).symm), ?_⟩
  rintro ⟨pa, hpa⟩ hw
  rw [ne_eq, (hnext.entry va).dirty, Bool.not_eq_false]
  rw [h.lookup va, ← hans.status] at hpa
  cases hstatus : (s.translate e va write).1 with
  | ok q => exact hans.dirty q hstatus hw
  | notPresent =>
    rw [hstatus] at hpa
    cases hpa
  | hostResident =>
    rw [hstatus] at hpa
    cases hpa

end SoftGpu.Words
