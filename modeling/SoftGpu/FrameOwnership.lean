import SoftGpu.Driver

/-!
# Frame ownership in every reachable state

Every allocation that is not yet recycled is one item: in `allocs`, on the
pending list, or in the hands of the thread that holds `alloc_lock`. The
invariant says that the memory state is owned by exactly these items, plus a
block that `SG_IOC_ALLOC` has taken and not mapped yet and a range that
`SG_IOC_ALLOC_MANAGED` has mapped and not recorded yet. Every action moves items
between these places, or adds or removes one. `Owned .once` holds in every run, the
exact account `Inv` as long as no rounding wraps.
-/

namespace SoftGpu.Driver
open Machine VramAllocator

def Holder.parked : Holder → List Pending
  | .reclaim todo kept _ => kept ++ todo
  | .snapshot p _ => [p]
  | _ => []

def Holder.loose : Holder → List (ℕ × ℕ)
  | .mapBlock addr size => [(addr, roundUp pageSize size)]
  | .undo addr len => [(addr, len)]
  | _ => []

def Holder.taken (h : Holder) : List (ℕ × ℕ) := h.loose.filter fun b => 0 < b.2

/-- The address of a request whose rounding wraps: it has no byte there. -/
def Holder.stub (h : Holder) : Option ℕ := (h.loose.find? fun b => b.2 = 0).map Prod.fst

def Holder.fresh : Holder → List Region
  | .addRange addr bytes host _ => [⟨addr, bytes, host⟩]
  | _ => []

def Pending.item (p : Pending) : Region := ⟨p.addr, p.size, p.host⟩

def State.items (s : State) : List Region :=
  (s.allocs.entries.map fun e => ⟨e.1, e.2.size, e.2.host⟩) ++
    (s.pending ++ s.holder.parked).map Pending.item

def blocksOf (l : List Region) : List (ℕ × ℕ) :=
  l.filterMap fun r => if r.host = 0 then some (r.addr, r.size) else none

def regionsOf (l : List Region) : List Region := l.filter fun r => r.host ≠ 0

def Fits (size : ℕ) : Prop := 0 < size ∧ size + pageSize - 1 < 2 ^ 64

def Next.Fits : Next → Prop
  | .take size _ => Driver.Fits size
  | _ => True

def Holder.Fits : Holder → Prop
  | .reclaim _ _ next | .run next | .drain next => next.Fits
  | .evictAll size | .mapBlock _ size => Driver.Fits size
  | _ => True

def Service.Aligned : Service → Prop
  | .idle => True
  | .popped _ va => va % pageSize = 0
  | .prefetch _ _ next _ => next % pageSize = 0

structure Owned (t : Tally) (s : State) : Prop where
  owned : MemOwned t s.holder.stub s.mem s.holder.taken (blocksOf s.items)
    (s.holder.fresh ++ regionsOf s.items)
  vramPages : s.mem.mmu.vramPages = vramBytes / pageSize
  above : s.managedVa.Above vramBytes
  ranges : ∀ e ∈ s.mem.ranges.entries, e.1 ≤ e.2.stop ∧
    (⟨e.1, e.2.stop - e.1, e.2.host⟩ : Region) ∈ regionsOf s.items
  fits : t = .exact → s.holder.Fits
  quiet : ∀ todo kept next, s.holder = .reclaim todo kept next → s.pending = []
  faults : ∀ f ∈ s.faults, f.2 % pageSize = 0
  service : s.service.Aligned

abbrev Inv := Owned .exact

def noWrap (_ : State) : Action → Prop
  | .lock (.alloc size) => size + pageSize - 1 < 2 ^ 64
  | _ => True

instance (s : State) (a : Action) : Decidable (noWrap s a) := by
  unfold noWrap
  split <;> infer_instance

variable {t : Tally} {cfg : Config} {s s' : State} {l l' : List Region} {r : Region}

theorem blocksOf_perm (h : l.Perm l') : (blocksOf l).Perm (blocksOf l') := h.filterMap _

theorem regionsOf_perm (h : l.Perm l') : (regionsOf l).Perm (regionsOf l') := h.filter _

theorem mem_regionsOf : r ∈ regionsOf l ↔ r ∈ l ∧ r.host ≠ 0 := by simp [regionsOf]

theorem Holder.bytes_of_pos (hd : Holder) {addr n : ℕ}
    (hl : hd.loose = [(addr, n)]) (hpos : 0 < n) :
    hd.taken = [(addr, n)] ∧ hd.stub = none := by
  simp [taken, stub, hl, hpos, hpos.ne']

theorem Holder.bytes_of_zero (hd : Holder) {addr : ℕ} (hl : hd.loose = [(addr, 0)]) :
    hd.taken = [] ∧ hd.stub = some addr := by
  simp [taken, stub, hl]

theorem owned_init (t : Tally) (cfg : Config) : Owned t (init cfg) where
  owned := by
    have hsize : (init cfg).mem.vramSize = vramBytes :=
      Nat.div_mul_cancel (by decide : pageSize ∣ vramBytes)
    refine ⟨.of_exact ⟨rfl, ?_, ?_⟩, rfl, ?_, ?_⟩
    · rw [hsize]
      exact wf_new pageSize_pos (Nat.dvd_zero _) (by decide) (by decide)
    · exact .refl _
    · constructor <;> simp [init, Mmu.new, Pte.zero, blocksOf, regionsOf, State.items, KeyMap.empty,
        Holder.parked, Holder.fresh]
      exact Nat.div_le_div_right (by decide)
    · constructor <;> simp [init, Mmu.new, Pte.zero]
  vramPages := rfl
  above := new_above _ _ _
  ranges := by simp [init, KeyMap.empty]
  fits := fun _ => trivial
  quiet := by simp [init]
  faults := by simp [init]
  service := trivial

namespace Owned

theorem handOver (h : Owned t s) (hmem : s'.mem = s.mem) (hva : s'.managedVa = s.managedVa)
    (hitems : s'.items.Perm s.items) (hloose : s'.holder.loose = s.holder.loose)
    (hfresh : s'.holder.fresh = s.holder.fresh) (hfits : t = .exact → s'.holder.Fits)
    (hquiet : ∀ todo kept next, s'.holder = .reclaim todo kept next → s'.pending = [])
    (hfaults : s'.faults = s.faults) (hservice : s'.service = s.service) : Owned t s' where
  owned := by
    rw [hmem, Holder.taken, Holder.stub, hloose, hfresh]
    exact h.owned.perm (.refl _) (blocksOf_perm hitems.symm)
      ((regionsOf_perm hitems.symm).append_left _)
  vramPages := hmem ▸ h.vramPages
  above := hva ▸ h.above
  ranges := by
    rw [hmem]
    intro e he
    exact ⟨(h.ranges e he).1, (regionsOf_perm hitems).mem_iff.mpr (h.ranges e he).2⟩
  fits := hfits
  quiet := hquiet
  faults := hfaults ▸ h.faults
  service := hservice ▸ h.service

theorem inLock (h : Owned t s) (hserv : s'.service.Aligned)
    (hmem : MemOwned t s.holder.stub s'.mem s.holder.taken (blocksOf s.items)
    (s.holder.fresh ++ regionsOf s.items))
    (hvp : s'.mem.mmu.vramPages = s.mem.mmu.vramPages) (hr : s'.mem.ranges = s.mem.ranges)
    (hva : s'.managedVa = s.managedVa) (hitems : s'.items = s.items)
    (hholder : s'.holder = s.holder) (hpending : s'.pending = s.pending)
    (hfaults : ∀ f ∈ s'.faults, f.2 % pageSize = 0) : Owned t s' where
  owned := by
    rw [hholder, hitems]
    exact hmem
  vramPages := by rw [hvp, h.vramPages]
  above := hva ▸ h.above
  ranges := by
    rw [hr, hitems]
    exact h.ranges
  fits := hholder ▸ h.fits
  quiet := by
    rw [hholder, hpending]
    exact h.quiet
  faults := hfaults
  service := hserv

theorem remem (h : Owned t s) (mem : Mem) (holder : Holder)
    (hm : MemOwned t holder.stub mem holder.taken (blocksOf s.items)
    (holder.fresh ++ regionsOf s.items))
    (hvp : mem.mmu.vramPages = s.mem.mmu.vramPages) (hr : mem.ranges = s.mem.ranges)
    (hpark : holder.parked = s.holder.parked) (hfits : t = .exact → holder.Fits)
    (hquiet : ∀ todo kept next, holder = .reclaim todo kept next → s.pending = []) :
    Owned t { s with mem := mem, holder := holder } := by
  have hitems : ({ s with mem := mem, holder := holder } : State).items = s.items := by
    simp only [State.items, hpark]
  refine ⟨?_, hvp.trans h.vramPages, h.above, ?_, hfits, hquiet, h.faults, h.service⟩
  · rw [hitems]
    exact hm
  · rw [hitems]
    intro e he
    exact h.ranges e (hr ▸ he)

theorem recycle (h : Owned t s) (p : Pending) (hitems : s.items.Perm (p.item :: l))
    (hloose : s.holder.loose = []) (hfresh : s.holder.fresh = [])
    (hm : s'.mem = (s.recycle p).mem) (hva : s'.managedVa = (s.recycle p).managedVa)
    (hitems' : s'.items.Perm l) (hloose' : s'.holder.loose = []) (hfresh' : s'.holder.fresh = [])
    (hfits : t = .exact → s'.holder.Fits)
    (hquiet : ∀ todo kept next, s'.holder = .reclaim todo kept next → s'.pending = [])
    (hfaults : s'.faults = s.faults) (hservice : s'.service = s.service) : Owned t s' := by
  have hmem := h.owned
  simp only [Holder.taken, Holder.stub, hloose, hfresh, List.nil_append] at hmem
  by_cases hp : p.host = 0
  · have hb : blocksOf (p.item :: l) = (p.addr, p.size) :: blocksOf l := by
      simp [blocksOf, Pending.item, hp]
    have hr : regionsOf (p.item :: l) = regionsOf l := by simp [regionsOf, Pending.item, hp]
    have hm' : s'.mem = s.mem.recycleVram p.addr p.size := by rw [hm, State.recycle, if_pos hp]
    have hva' : s'.managedVa = s.managedVa := by rw [hva, State.recycle, if_pos hp]
    have hi : MemOwned t none s.mem [] ((p.addr, p.size) :: blocksOf l) (regionsOf l) :=
      hmem.perm (.refl _) (hb ▸ blocksOf_perm hitems) (hr ▸ regionsOf_perm hitems)
    refine ⟨?_, ?_, hva' ▸ h.above, ?_, hfits, hquiet, hfaults ▸ h.faults, hservice ▸ h.service⟩
    · simp only [Holder.taken, Holder.stub, hm', hloose', hfresh', List.nil_append]
      exact hi.recycleVram.perm (.refl _) (blocksOf_perm hitems'.symm)
        (regionsOf_perm hitems'.symm)
    · rw [hm']
      exact (Mmu.unmap_vramPages _ _ _).trans h.vramPages
    · rw [hm']
      intro e he
      refine ⟨(h.ranges e he).1, (regionsOf_perm hitems').mem_iff.mpr ?_⟩
      rw [← hr, ← (regionsOf_perm hitems).mem_iff]
      exact (h.ranges e he).2
  · have hb : blocksOf (p.item :: l) = blocksOf l := by simp [blocksOf, Pending.item, hp]
    have hr : regionsOf (p.item :: l) = p.item :: regionsOf l := by
      simp [regionsOf, Pending.item, hp]
    have hm' : s'.mem = s.mem.recycleManaged p.addr p.size p.host := by
      rw [hm, State.recycle, if_neg hp]
    have hva' : s'.managedVa = s.managedVa.freeAddr p.addr := by
      rw [hva, State.recycle, if_neg hp]
    have hi : MemOwned t none s.mem [] (blocksOf l) (p.item :: regionsOf l) :=
      hmem.perm (.refl _) (hb ▸ blocksOf_perm hitems) (hr ▸ regionsOf_perm hitems)
    obtain ⟨hkeep, hranges, -, -⟩ := recycleManaged_keeps s.mem p.addr p.size p.host
    refine ⟨?_, ?_, hva' ▸ freeAddr_above h.above _, ?_, hfits, hquiet, hfaults ▸ h.faults,
      hservice ▸ h.service⟩
    · simp only [Holder.taken, Holder.stub, hm', hloose', hfresh', List.nil_append]
      exact hi.recycleManaged.perm (.refl _) (blocksOf_perm hitems'.symm)
        (regionsOf_perm hitems'.symm)
    · rw [hm', hkeep.vramPages, h.vramPages]
    · rw [hm', hranges]
      intro e he
      obtain ⟨he, hne⟩ := KeyMap.mem_erase.mp he
      refine ⟨(h.ranges e he).1, (regionsOf_perm hitems').mem_iff.mpr ?_⟩
      have hmem := (regionsOf_perm hitems).mem_iff.mp (h.ranges e he).2
      rw [hr, List.mem_cons] at hmem
      rcases hmem with heq | hmem
      · exact absurd (congrArg Region.addr heq) hne
      · exact hmem

theorem allocs_find_block (h : Owned t s) {addr n : ℕ} (hl : s.holder.loose = [(addr, n)])
    (hpos : 0 < n) : s.allocs.find addr = none := by
  rw [KeyMap.find_eq_none]
  intro e he heq
  have hmem := h.owned
  rw [(Holder.bytes_of_pos _ hl hpos).1] at hmem
  obtain ⟨-, hdvd, -, hend⟩ := hmem.block_aligned (b := (addr, n)) (.inl (by simp))
  have hitem : (⟨e.1, e.2.size, e.2.host⟩ : Region) ∈ s.items :=
    List.mem_append_left _ (List.mem_map_of_mem he)
  by_cases hh : e.2.host = 0
  · have hb : (addr, e.2.size) ∈ blocksOf s.items :=
      List.mem_filterMap.mpr ⟨_, hitem, by simp [hh, heq]⟩
    obtain ⟨-, -, hpos', -⟩ := hmem.block_aligned (.inr hb)
    have hd := hmem.loose_disjoint hb
    dsimp only at hd hpos hpos'
    omega
  · have hr : (⟨e.1, e.2.size, e.2.host⟩ : Region) ∈ regionsOf s.items :=
      mem_regionsOf.mpr ⟨hitem, hh⟩
    obtain ⟨-, -, -, hlo, -⟩ := hmem.table.region _ (List.mem_append_right _ hr)
    dsimp only at hlo hend hdvd hpos
    simp only [pageSize] at *
    omega

theorem fresh_disjoint (h : Owned t s) (hf : s.holder.fresh = [r]) {q : Region}
    (hq : q ∈ regionsOf s.items) : q.addr ≠ r.addr := by
  have hmem := h.owned
  rw [hf] at hmem
  intro heq
  obtain ⟨-, -, hrpos, -⟩ := hmem.table.region r (by simp)
  obtain ⟨-, -, hqpos, -⟩ := hmem.table.region q (by simp [hq])
  have hcov := hmem.table.vaOnce r.addr
  have hle := covers_le_coverage (x := r.addr)
    (List.mem_map_of_mem (f := fun r : Region => (r.addr, r.size)) hq)
  rw [List.singleton_append, List.map_cons, coverage_cons] at hcov
  simp only [covers] at hcov hle
  split_ifs at hcov hle <;> omega

theorem allocs_find_range (h : Owned t s) (hf : s.holder.fresh = [r]) :
    s.allocs.find r.addr = none := by
  rw [KeyMap.find_eq_none]
  intro e he heq
  have hmem := h.owned
  rw [hf] at hmem
  obtain ⟨-, -, -, hlo, -⟩ := hmem.table.region r (by simp)
  have hitem : (⟨e.1, e.2.size, e.2.host⟩ : Region) ∈ s.items :=
    List.mem_append_left _ (List.mem_map_of_mem he)
  by_cases hh : e.2.host = 0
  · have hb : (e.1, e.2.size) ∈ blocksOf s.items :=
      List.mem_filterMap.mpr ⟨_, hitem, by simp [hh]⟩
    obtain ⟨hd, hdvd, hpos, hend⟩ := hmem.block_aligned (.inr hb)
    dsimp only at hd hdvd hpos hend
    simp only [pageSize] at *
    omega
  · exact h.fresh_disjoint hf (mem_regionsOf.mpr ⟨hitem, hh⟩) heq

theorem emplace_items {addr : ℕ} (al : Alloc) (hnone : s.allocs.find addr = none) (mem : Mem)
    (hpark : s.holder.parked = []) :
    ({ s with mem := mem, allocs := s.allocs.emplace addr al, holder := .free } :
      State).items.Perm (⟨addr, al.size, al.host⟩ :: s.items) := by
  simp only [State.items, hpark]
  exact ((KeyMap.emplace_perm hnone).map _).append_right _

end Owned

/-! ### The steps -/

theorem holderStep_owned (h : Owned t s) {a : Action} (hok : t = .exact → noWrap s a)
    (hs : holderStep cfg s a = some s') : Owned t s' := by
  cases a with
  | lock req =>
    simp only [holderStep] at hs
    split at hs <;> try simp only [reduceCtorEq] at hs
    rename_i hh
    split_ifs at hs with hz
    rw [Option.some.injEq] at hs
    subst hs
    refine h.handOver rfl rfl ?_ (by rw [hh]; rfl) (by rw [hh]; rfl) ?_
      (by simp [State.reclaimThen])
      rfl rfl
    · simp [State.items, State.reclaimThen, hh, Holder.parked]
    · cases req with
      | alloc size =>
        refine fun ht => ⟨Nat.pos_of_ne_zero ?_, hok ht⟩
        rintro rfl
        simp at hz
      | _ => exact fun _ => trivial
  | reclaim =>
    simp only [holderStep] at hs
    split at hs <;> try simp only [reduceCtorEq] at hs
    · rename_i p todo kept next hh
      have hfits := h.fits
      rw [hh] at hfits
      have hquiet := h.quiet _ _ _ hh
      split_ifs at hs <;> rw [Option.some.injEq] at hs <;> subst hs
      · refine h.recycle p (l := { s with holder := .reclaim todo kept next }.items) ?_
          (by rw [hh]; rfl) (by rw [hh]; rfl) rfl rfl ?_ rfl rfl hfits ?_ ?_ ?_
        · simp only [State.items, hh, Holder.parked, hquiet, List.nil_append, List.map_append,
            List.map_cons]
          exact (List.perm_middle.append_left _).trans List.perm_middle
        · simp only [State.recycle]
          split_ifs <;> exact .refl _
        · simp only [State.recycle]
          split_ifs <;> exact fun _ _ _ _ => hquiet
        · simp only [State.recycle]
          split_ifs <;> rfl
        · simp only [State.recycle]
          split_ifs <;> rfl
      · refine h.handOver rfl rfl ?_ (by rw [hh]; rfl) (by rw [hh]; rfl) hfits
          (fun _ _ _ _ => hquiet) rfl rfl
        simp [State.items, hh, Holder.parked]
    · rename_i kept next hh
      have hfits := h.fits
      rw [hh] at hfits
      have hquiet := h.quiet _ _ _ hh
      rw [Option.some.injEq] at hs
      subst hs
      by_cases hd : next = .done
      · refine h.handOver rfl rfl ?_ ?_ ?_ ?_ ?_ rfl rfl <;>
          simp [hd, hh, State.items, Holder.parked, Holder.loose, Holder.fresh, Holder.Fits, hquiet]
      · refine h.handOver rfl rfl ?_ ?_ ?_ ?_ ?_ rfl rfl
        case refine_4 =>
          simp only [hd, if_false]
          exact hfits
        all_goals
          simp [hd, hh, State.items, Holder.parked, Holder.loose, Holder.fresh, hquiet]
  | take =>
    simp only [holderStep] at hs
    split at hs <;> try simp only [reduceCtorEq] at hs
    rename_i size tries hh
    have hfits := h.fits
    rw [hh] at hfits
    have hmem := h.owned
    rw [hh] at hmem
    split at hs
    · rename_i addr mem hal
      rw [Option.some.injEq] at hs
      subst hs
      have hi : MemOwned t (Holder.mapBlock addr size).stub mem (Holder.mapBlock addr size).taken
          (blocksOf s.items) ((Holder.mapBlock addr size).fresh ++ regionsOf s.items) := by
        obtain hzero | hneed := Nat.eq_zero_or_pos (roundUp pageSize size)
        · -- Only a rounding that wraps leaves nothing.
          obtain ⟨htaken, hstub⟩ := Holder.bytes_of_zero (.mapBlock addr size)
            (by rw [Holder.loose, hzero])
          rw [htaken, hstub]
          cases t with
          | exact =>
            have hle := (roundUp_spec pageSize_pos (hfits rfl).2).1
            have hpos := (hfits rfl).1
            omega
          | once => exact hmem.allocStub hal hzero
        · obtain ⟨htaken, hstub⟩ := Holder.bytes_of_pos (.mapBlock addr size) rfl hneed
          rw [htaken, hstub]
          exact hmem.allocFrame hal hneed
      simp only [Mem.allocFrame, Option.map_eq_some_iff, Prod.mk.injEq] at hal
      obtain ⟨q, -, -, rfl⟩ := hal
      exact h.remem _ _ hi rfl rfl (by rw [hh]; rfl) hfits (by simp)
    · split at hs <;> rw [Option.some.injEq] at hs <;> subst hs <;>
        refine h.handOver rfl rfl ?_ (by rw [hh]; rfl) (by rw [hh]; rfl) ?_ (by simp) rfl rfl
      · simp [State.items, hh, Holder.parked]
      · exact hfits
      · simp [State.items, hh, Holder.parked]
      · exact hfits
      · simp [State.items, hh, Holder.parked]
      · exact fun _ => trivial
  | drain ok =>
    simp only [holderStep] at hs
    split at hs <;> try simp only [reduceCtorEq] at hs
    rename_i next hh
    have hfits := h.fits
    rw [hh] at hfits
    rw [Option.some.injEq] at hs
    subst hs
    split_ifs
    · refine h.handOver rfl rfl ?_ (by rw [hh]; rfl) (by rw [hh]; rfl) hfits
        (by simp [State.reclaimThen]) rfl rfl
      simp [State.items, State.reclaimThen, hh, Holder.parked]
    · refine h.handOver rfl rfl ?_ (by rw [hh]; rfl) (by rw [hh]; rfl)
        (fun _ => trivial) (by simp) rfl rfl
      simp [State.items, hh, Holder.parked]
  | evictAll envs =>
    simp only [holderStep] at hs
    split at hs <;> try simp only [reduceCtorEq] at hs
    rename_i size hh
    have hfits := h.fits
    rw [hh] at hfits
    have hmem := h.owned
    rw [Option.some.injEq] at hs
    subst hs
    have heff := hmem.evictAllLocked_effect envs s.mem.resident.length
    have hi := hmem.evictAllLocked envs s.mem.resident.length
    rw [hh] at hi
    exact h.remem _ _ hi heff.vramPages heff.ranges (by rw [hh]; rfl) hfits (by simp)
  | mapBlock =>
    simp only [holderStep] at hs
    split at hs <;> try simp only [reduceCtorEq] at hs
    rename_i addr size hh
    obtain hzero | hneed := Nat.eq_zero_or_pos (roundUp pageSize size)
    · -- There is nothing to map.
      have hnot : ∀ mmu,
          s.mem.mmu.mapVram addr addr (roundUp pageSize size / pageSize) ≠ .ok mmu := by
        intro mmu hmap
        obtain ⟨-, -, hpos, -⟩ := Mmu.mapVram_ok hmap
        rw [hzero, Nat.zero_div] at hpos
        exact absurd hpos (lt_irrefl 0)
      split at hs
      · next mmu hmap => exact absurd hmap (hnot mmu)
      · cases hs
        refine h.handOver rfl rfl ?_ (by rw [hh]; rfl) (by rw [hh]; rfl)
          (fun _ => trivial) (by simp) rfl rfl
        simp [State.items, hh, Holder.parked]
    have hmem := h.owned
    obtain ⟨htaken, hstub⟩ := Holder.bytes_of_pos s.holder (by rw [hh]; rfl) hneed
    rw [htaken, hstub, hh] at hmem
    obtain ⟨mmu', hmap, hi⟩ := hmem.mapVram
    simp only [hmap, Option.some.injEq] at hs
    subst hs
    have hnone : s.allocs.find addr = none :=
      h.allocs_find_block (n := roundUp pageSize size) (by rw [hh]; rfl) hneed
    have hitems := Owned.emplace_items ⟨roundUp pageSize size, 0⟩ hnone
      { s.mem with mmu := mmu' } (by rw [hh]; rfl)
    obtain ⟨-, -, -, -, -, -, rfl⟩ := Mmu.mapVram_ok hmap
    refine ⟨?_, h.vramPages, h.above, ?_, fun _ => trivial, by simp, h.faults, h.service⟩
    · refine hi.perm (.refl _) ?_ ?_
      · have := (blocksOf_perm hitems).symm
        simpa [blocksOf] using this
      · have := (regionsOf_perm hitems).symm
        simpa [regionsOf, Holder.fresh] using this
    · intro e he
      refine ⟨(h.ranges e he).1, (regionsOf_perm hitems).mem_iff.mpr ?_⟩
      have := (h.ranges e he).2
      simpa [regionsOf] using this
  | undo =>
    simp only [holderStep] at hs
    split at hs <;> simp only [Option.some.injEq, reduceCtorEq] at hs
    rename_i addr len hh
    subst hs
    have hmem := h.owned
    have hi : MemOwned t none (s.mem.freeFrame addr) [] (blocksOf s.items) (regionsOf s.items) := by
      obtain rfl | hpos := Nat.eq_zero_or_pos len
      · obtain ⟨htaken, hstub⟩ := Holder.bytes_of_zero s.holder (by rw [hh]; rfl)
        rw [htaken, hstub, hh] at hmem
        exact hmem.freeStub
      · obtain ⟨htaken, hstub⟩ := Holder.bytes_of_pos s.holder (by rw [hh]; rfl) hpos
        rw [htaken, hstub, hh] at hmem
        exact hmem.freeFrame
    exact h.remem _ _ hi rfl rfl (by rw [hh]; rfl) (fun _ => trivial) (by simp)
  | mapManaged host =>
    simp only [holderStep] at hs
    split at hs <;> try simp only [reduceCtorEq] at hs
    rename_i size tries hh
    have hfits := h.fits
    rw [hh] at hfits
    -- The ways in which nothing gets mapped.
    have hback : ∀ va : VramAllocator, va.Above vramBytes →
        Owned t { s with managedVa := va, holder := .free } := by
      intro va hva
      refine ⟨?_, h.vramPages, hva, ?_, fun _ => trivial, by simp, h.faults, h.service⟩
      · have hmem := h.owned
        simp only [State.items, hh, Holder.parked] at hmem ⊢
        exact hmem
      · simpa [State.items, hh, Holder.parked] using h.ranges
    split at hs
    · split at hs <;> rw [Option.some.injEq] at hs <;> subst hs
      · refine h.handOver rfl rfl ?_ (by rw [hh]; rfl) (by rw [hh]; rfl) hfits (by simp) rfl rfl
        simp [State.items, hh, Holder.parked]
      · exact hback _ h.above
    · rename_i addr va hal
      obtain ⟨haddr, hva⟩ := alloc_above h.above hal
      split at hs
      · rw [Option.some.injEq] at hs
        exact hs ▸ hback _ (freeAddr_above hva addr)
      · rename_i hp
        split_ifs at hs with hhost
        split at hs <;> rw [Option.some.injEq] at hs <;> subst hs
        · exact hback _ (freeAddr_above hva addr)
        · rename_i mmu' hmap
          simp only [State.hostOk, Bool.decide_and, Bool.and_eq_true, decide_eq_true_eq,
            List.all_eq_true] at hhost
          have hmem := h.owned
          rw [hh] at hmem
          have hvp := h.vramPages
          have hi := hmem.mapHost (r := ⟨addr, roundUp pageSize size, hp⟩)
            (fun x => if hp ≤ x ∧ x < hp + roundUp pageSize size then some .zero
              else s.mem.hostMem x) hmap
            (Nat.mod_eq_zero_of_dvd (roundUp_dvd _ _))
            (by rw [hvp]; exact (Nat.div_mul_le_self _ _).trans haddr) hhost.2.1 (by
              intro q hq
              simp only [Holder.fresh, List.nil_append, mem_regionsOf] at hq
              apply hhost.2.2 (q.host, q.size)
              simp only [State.items, hh, Holder.parked, List.append_nil, List.mem_append,
                List.mem_map] at hq
              simp only [State.backings, List.mem_append, List.mem_filterMap]
              rcases hq with ⟨⟨e, he, rfl⟩ | ⟨p, hp', rfl⟩, hne⟩
              · exact .inl ⟨e, he, by simp [hne]⟩
              · exact .inr ⟨p, hp', by simpa [Pending.item] using hne⟩)
          obtain ⟨-, -, -, -, -, rfl⟩ := Mmu.mapHost_ok hmap
          have hitems : ∀ v m, (s.created v m addr (roundUp pageSize size) hp).items = s.items := by
            simp [State.created, State.items, hh, Holder.parked]
          refine ⟨?_, h.vramPages, hva, ?_, fun _ => trivial, by
            simp [State.created], h.faults, h.service⟩
          · rw [hitems]
            exact hi
          · rw [hitems]
            exact h.ranges
  | addRange =>
    simp only [holderStep] at hs
    split at hs <;> simp only [Option.some.injEq, reduceCtorEq] at hs
    rename_i addr bytes host id hh
    subst hs
    have hf : s.holder.fresh = [⟨addr, bytes, host⟩] := by rw [hh]; rfl
    have hnone := h.allocs_find_range hf
    have hmem := h.owned
    rw [hf, show s.holder.taken = [] by rw [hh]; rfl, show s.holder.stub = none by
      rw [hh]; rfl] at hmem
    obtain ⟨-, -, -, -, -, -, hpos⟩ := hmem.table.region ⟨addr, bytes, host⟩ (by simp)
    dsimp only at hpos
    have hrnone : s.mem.ranges.find addr = none := by
      rw [KeyMap.find_eq_none]
      intro e he heq
      exact h.fresh_disjoint hf (h.ranges e he).2 heq
    have hitems := Owned.emplace_items ⟨bytes, host⟩ hnone
      { s.mem with ranges := s.mem.ranges.emplace addr ⟨addr + bytes, host, id⟩ } (by rw [hh]; rfl)
    have hregions := regionsOf_perm hitems
    rw [show regionsOf (⟨addr, bytes, host⟩ :: s.items) = ⟨addr, bytes,
      host⟩ :: regionsOf s.items by
      simp [regionsOf, Nat.ne_of_gt hpos]] at hregions
    refine ⟨?_, h.vramPages, h.above, ?_, fun _ => trivial, by simp, h.faults, h.service⟩
    · have hblocks : (blocksOf s.items).Perm (blocksOf (⟨addr, bytes, host⟩ :: s.items)) := by
        simp [blocksOf, Nat.ne_of_gt hpos]
      have hp := hmem.perm (.refl _) hblocks (.refl _)
      have hp' := hp.perm (.refl _) (blocksOf_perm hitems.symm) hregions.symm
      exact ⟨hp'.acc, hp'.align, hp'.table, { hp'.clock with }⟩
    · intro e he
      rw [hregions.mem_iff, List.mem_cons]
      rcases (KeyMap.mem_emplace hrnone).mp he with rfl | he
      · simp
      · exact ⟨(h.ranges e he).1, .inr (h.ranges e he).2⟩
  | lookup =>
    simp only [holderStep] at hs
    split at hs <;> try simp only [reduceCtorEq] at hs
    rename_i addr hh
    split at hs <;> rw [Option.some.injEq] at hs <;> subst hs
    · refine h.handOver rfl rfl ?_ (by rw [hh]; rfl) (by rw [hh]; rfl)
        (fun _ => trivial) (by simp) rfl rfl
      simp [State.items, hh, Holder.parked]
    · rename_i al hfind
      refine h.handOver rfl rfl ?_ (by rw [hh]; rfl) (by rw [hh]; rfl)
        (fun _ => trivial) (by simp) rfl rfl
      have hperm := (KeyMap.erase_perm (KeyMap.find_eq_some.mp hfind)).map
        fun e => (⟨e.1, e.2.size, e.2.host⟩ : Region)
      simp only [State.items, hh, Holder.parked, List.append_nil, List.map_append, List.map_cons,
        List.map_nil, Pending.item]
      refine List.Perm.trans ?_ (hperm.symm.append_right _)
      rw [← List.append_assoc]
      exact List.perm_append_singleton _ _
  | snap =>
    simp only [holderStep] at hs
    split at hs <;> try simp only [reduceCtorEq] at hs
    · rename_i p c todo hh
      rw [Option.some.injEq] at hs
      subst hs
      refine h.handOver rfl rfl ?_ (by rw [hh]; rfl) (by rw [hh]; rfl)
        (fun _ => trivial) (by simp) rfl rfl
      simp [State.items, hh, Holder.parked, Pending.item]
    · rename_i p hh
      split_ifs at hs <;> rw [Option.some.injEq] at hs <;> subst hs
      · refine h.recycle p (l := { s with holder := .free }.items) ?_
          (by rw [hh]; rfl) (by rw [hh]; rfl) rfl rfl ?_ rfl rfl (fun _ => trivial) (by simp) ?_ ?_
        · simp only [State.items, hh, Holder.parked, List.append_nil, List.map_append,
            List.map_cons, List.map_nil]
          rw [← List.append_assoc]
          exact List.perm_append_singleton _ _
        · simp only [State.recycle]
          split_ifs <;> exact .refl _
        · simp only [State.recycle]
          split_ifs <;> rfl
        · simp only [State.recycle]
          split_ifs <;> rfl
      · refine h.handOver rfl rfl ?_ (by rw [hh]; rfl) (by rw [hh]; rfl)
          (fun _ => trivial) (by simp) rfl rfl
        simp [State.items, hh, Holder.parked]
  | _ => simp [holderStep] at hs

theorem faultStep_owned (h : Owned t s) {a : Action} (hs : faultStep s a = some s') :
    Owned t s' := by
  have hmem := h.owned
  have hserv := h.service
  cases a with
  | raise c va =>
    simp only [faultStep, Option.ite_none_right_eq_some, Option.some.injEq] at hs
    obtain ⟨-, rfl⟩ := hs
    refine h.inLock hserv hmem rfl rfl rfl rfl rfl rfl fun f hf => ?_
    rcases List.mem_append.mp hf with hf | hf
    · exact h.faults f hf
    · rw [List.mem_singleton.mp hf]
      exact mul_mod_pageSize _
  | pop =>
    simp only [faultStep] at hs
    split at hs <;> simp only [Option.some.injEq, reduceCtorEq] at hs
    rename_i c va rest _ hf
    subst hs
    have hall := h.faults
    rw [hf] at hall
    exact h.inLock (hall (c, va) (by simp)) hmem rfl rfl rfl rfl rfl rfl fun f hf =>
      hall f (List.mem_cons_of_mem _ hf)
  | demand env =>
    simp only [faultStep] at hs
    split at hs <;> try simp only [reduceCtorEq] at hs
    rename_i c va hsv
    rw [hsv] at hserv
    have hi := hmem.migrateLocked hserv env
    have hshape := Shape.migrateLocked s.mem va env
    split at hs <;> rw [Option.some.injEq] at hs <;> subst hs <;> rename_i heq <;>
      rw [heq] at hi hshape
    · refine h.inLock ?_ hi hshape.pages.vramPages hshape.ranges rfl rfl rfl rfl h.faults
      dsimp only
      split_ifs
      · exact (Nat.add_mod_right va pageSize).trans hserv
      · trivial
    · exact h.inLock trivial hi hshape.pages.vramPages hshape.ranges rfl rfl rfl rfl h.faults
  | prefetch envs =>
    simp only [faultStep] at hs
    split at hs <;> simp only [Option.some.injEq, reduceCtorEq] at hs
    rename_i c i next id hsv
    rw [hsv] at hserv
    have hi := hmem.prefetchLocked hserv envs
    obtain ⟨hshape, -⟩ := Shape.prefetchLocked s.mem next envs
    subst hs
    exact h.inLock trivial hi hshape.pages.vramPages hshape.ranges rfl rfl rfl rfl h.faults
  | hostFault addr env =>
    simp only [faultStep, Option.ite_none_right_eq_some, Option.some.injEq] at hs
    obtain ⟨-, rfl⟩ := hs
    obtain ⟨hi, heff⟩ := hmem.serveHostFault
      (fun e he => ⟨(h.ranges e he).1, List.mem_append_right _ (h.ranges e he).2⟩)
      (mul_mod_pageSize (addr / pageSize)) env
    exact h.inLock hserv hi heff.vramPages heff.ranges rfl rfl rfl rfl h.faults
  | _ => simp [faultStep] at hs

theorem worldStep_owned (h : Owned t s) {a : Action} (hs : worldStep s a = some s') :
    Owned t s' := by
  have hmem := h.owned
  cases a with
  | publish c =>
    simp only [worldStep, Option.some.injEq] at hs
    subst hs
    exact h.inLock h.service hmem rfl rfl rfl rfl rfl rfl h.faults
  | retire c =>
    simp only [worldStep, Option.ite_none_right_eq_some, Option.some.injEq] at hs
    obtain ⟨-, rfl⟩ := hs
    exact h.inLock h.service hmem rfl rfl rfl rfl rfl rfl h.faults
  | submit k =>
    simp only [worldStep] at hs
    split at hs <;> simp only [Option.some.injEq, reduceCtorEq] at hs
    subst hs
    exact h.inLock h.service hmem rfl rfl rfl rfl rfl rfl h.faults
  | access k v write =>
    simp only [worldStep] at hs
    split at hs <;> try simp only [reduceCtorEq] at hs
    have hi := hmem.same (Mmu.orFlags_same s.mem.mmu (v * pageSize) write.isSome true) (.refl _)
    split at hs <;> simp only [Option.some.injEq, reduceCtorEq] at hs
    subst hs
    exact h.inLock h.service (hi.bytes _ _) rfl rfl rfl rfl rfl rfl h.faults
  | finish k =>
    simp only [worldStep] at hs
    split at hs <;> try simp only [reduceCtorEq] at hs
    split_ifs at hs
    exact Option.some.inj hs ▸ h.inLock h.service hmem rfl rfl rfl rfl rfl rfl h.faults
  | hostStore v off byte =>
    simp only [worldStep] at hs
    split_ifs at hs
    split at hs <;> simp only [Option.some.injEq, reduceCtorEq] at hs
    subst hs
    exact h.inLock h.service (hmem.bytes _ _) rfl rfl rfl rfl rfl rfl h.faults
  | _ => simp [worldStep] at hs

theorem step_cases {a : Action} (hs : step cfg s a = some s') :
    holderStep cfg s a = some s' ∨ faultStep s a = some s' ∨ worldStep s a = some s' := by
  unfold step at hs
  cases h₁ : holderStep cfg s a with
  | some u => exact .inl (by simpa [h₁] using hs)
  | none =>
    cases h₂ : faultStep s a with
    | some u => exact .inr (.inl (by simpa [h₁, h₂] using hs))
    | none => exact .inr (.inr (by simpa [h₁, h₂] using hs))

theorem step_owned (h : Owned t s) {a : Action} (hok : t = .exact → noWrap s a)
    (hs : step cfg s a = some s') : Owned t s' := by
  rcases step_cases hs with hs | hs | hs
  · exact holderStep_owned h hok hs
  · exact faultStep_owned h hs
  · exact worldStep_owned h hs

theorem Inv.mem (h : Inv s) :
    MemInv s.mem s.holder.loose (blocksOf s.items) (s.holder.fresh ++ regionsOf s.items) := by
  have hmem := h.owned
  have hstub : s.holder.stub = none := Exact.stub hmem.acc
  have htaken : s.holder.taken = s.holder.loose := by
    simp only [Holder.stub, Option.map_eq_none_iff, List.find?_eq_none, decide_eq_true_eq] at hstub
    exact List.filter_eq_self.mpr fun b hb => by simpa using Nat.pos_of_ne_zero (hstub b hb)
  rwa [hstub, htaken] at hmem

theorem Inv.allocs_find_block (h : Inv s) {addr n : ℕ} (hl : s.holder.loose = [(addr, n)]) :
    s.allocs.find addr = none := by
  have hpos := (h.mem.block_aligned (b := (addr, n)) (.inl (by simp [hl]))).2.2.1
  exact Owned.allocs_find_block h hl hpos

theorem Inv.fits (h : Inv s) : s.holder.Fits := Owned.fits h rfl

theorem step_inv (h : Inv s) {a : Action} (hok : noWrap s a) (hs : step cfg s a = some s') :
    Inv s' :=
  step_owned h (fun _ => hok) hs

theorem inv_init (cfg : Config) : Inv (init cfg) := owned_init .exact cfg

theorem reach_inv {ok : State → Action → Prop} (hsub : ∀ s a, ok s a → noWrap s a)
    (h : Reach (step cfg) ok (init cfg) s) : Inv s :=
  h.invariant (inv_init cfg) fun _ _ _ hi hok hs => step_inv hi (hsub _ _ hok) hs

/-! ### Ownership -/

/-- The `sgMalloc` blocks that are not yet recycled, and the managed ranges. -/
def State.mallocs (s : State) : List (ℕ × ℕ) := blocksOf s.items

def State.managed (s : State) : List Region := regionsOf s.items

theorem frame_inj (h : Owned t s) {v w : ℕ} (hv : (s.mem.mmu.pte v).inVram = true)
    (hw : (s.mem.mmu.pte w).inVram = true) (heq : (s.mem.mmu.pte v).pa = (s.mem.mmu.pte w).pa) :
    v = w :=
  h.owned.frame_inj hv hw heq

/-- Whenever neither lock is held: the live blocks are the `sgMalloc` blocks not
yet recycled plus one page-sized block for each resident page, with distinct
frames; the CLOCK list holds exactly the managed pages in VRAM, once each, and
`resident_pos` indexes it; every `sgMalloc` page is mapped to the frame of its
own number; and no two mapped pages share a frame. -/
theorem frame_ownership (cfg : Config) (s : State) (h : Reach (step cfg) noWrap (init cfg) s)
    (hfree : s.holder = .free) :
    s.mem.vram.live.entries.Perm (s.mallocs ++ s.mem.resident.map (frameBlock s.mem.mmu)) ∧
    (s.mem.resident.map fun e => (s.mem.mmu.pte (e.2 / pageSize)).pa).Nodup ∧
    (s.mem.resident.map Prod.snd).Nodup ∧
    (∀ va, va ∈ s.mem.resident.map Prod.snd ↔ va % pageSize = 0 ∧
      (∃ r ∈ s.managed, r.contains va) ∧ (s.mem.mmu.pte (va / pageSize)).inVram = true) ∧
    (∀ va n, s.mem.residentPos va = some n ↔ (n, va) ∈ s.mem.resident) ∧
    (s.mem.resident.map Prod.fst).Nodup ∧
    (∀ b ∈ s.mallocs, ∀ v, b.1 ≤ v * pageSize → v * pageSize < b.1 + b.2 →
      (s.mem.mmu.pte v).present = true ∧ (s.mem.mmu.pte v).inVram = true ∧
      (s.mem.mmu.pte v).pa = v * pageSize) ∧
    (∀ v w, (s.mem.mmu.pte v).inVram = true → (s.mem.mmu.pte w).inVram = true →
      (s.mem.mmu.pte v).pa = (s.mem.mmu.pte w).pa → v = w) := by
  have hi := reach_inv (fun _ _ h => h) h
  have hmem := hi.mem
  have ht := hmem.table
  rw [hfree] at hmem ht
  refine ⟨hmem.live, ?_, hmem.clock.vas, ?_, hmem.clock.pos, hmem.clock.nodes, ?_,
    fun v w hv hw => frame_inj hi hv hw⟩
  · refine List.Nodup.map_on (fun d hd e he heq => ?_) hmem.clock.vas.of_map
    exact hmem.resident_vpn hd he
      (frame_inj hi (hmem.clock.entry d hd).2.2 (hmem.clock.entry e he).2.2 heq)
  · intro va
    constructor
    · intro hva
      obtain ⟨e, he, rfl⟩ := List.mem_map.mp hva
      obtain ⟨hmod, hge, hin⟩ := hmem.clock.entry e he
      have hr := (ht.high _ hge).mp (ht.valid _ hin)
      rw [div_mul_pageSize hmod] at hr
      exact ⟨hmod, hr, hin⟩
    · intro hva
      obtain ⟨hmod, ⟨r, hr, hc⟩, hin⟩ := hva
      have hlo := (ht.region r hr).2.2.2.1
      have hge : s.mem.mmu.vramPages ≤ va / pageSize := by
        have hle := hlo.trans hc.1
        exact (Nat.le_div_iff_mul_le pageSize_pos).mpr hle
      have hall := hmem.clock.all _ hge hin
      rwa [div_mul_pageSize hmod] at hall
  · intro b hb v hle hlt
    obtain ⟨hba, hbs, -, hend⟩ := hmem.block_aligned (.inr hb)
    have hv : v < s.mem.mmu.vramPages := by
      have := (block_page hba hbs).mp ⟨hle, hlt⟩
      omega
    have hp := (ht.low v hv).mpr ⟨b, hb, hle, hlt⟩
    obtain ⟨hin, hpfn⟩ := ht.ident v hv hp
    exact ⟨hp, hin, by rw [Pte.pa, hpfn]⟩

def Holder.isFree : Holder → Bool
  | .free => true
  | _ => false

theorem Holder.isFree_iff {hd : Holder} : hd.isFree = true ↔ hd = .free := by
  cases hd <;> simp [isFree]

def Env.calm : Env := ⟨fun _ => false, false, none, false⟩

/-- An `sgMalloc` block of two pages is released while a command is in flight,
after a managed page has come into VRAM behind it. -/
def releaseRun : List Action :=
  [.lock (.alloc 5000), .reclaim, .take, .mapBlock,
    .lock (.allocManaged 8192), .reclaim, .mapManaged (some 409600), .addRange,
    .raise (0, 0) vramBytes, .pop, .demand Env.calm, .publish (0, 0),
    .lock (.free 0), .reclaim, .lookup, .snap, .snap]

theorem frame_ownership_release :
    ∃ s, exec (when noWrap (step ⟨1, 1, false, 16⟩)) (init ⟨1, 1, false, 16⟩) releaseRun = some s ∧
      s.mallocs = [(0, 8192)] ∧ s.mem.resident = [(0, vramBytes)] ∧
      s.mem.vram.live.entries.Perm [(0, 8192), frameBlock s.mem.mmu (0, vramBytes)] := by
  have hrun : (exec (when noWrap (step ⟨1, 1, false, 16⟩)) (init ⟨1, 1, false, 16⟩) releaseRun).map
      (fun s => (s.holder.isFree, s.mallocs, s.mem.resident)) =
      some (true, [(0, 8192)], [(0, vramBytes)]) := by decide
  obtain ⟨s, hs, hq⟩ := Option.map_eq_some_iff.mp hrun
  simp only [Prod.mk.injEq] at hq
  obtain ⟨hfree, hmal, hres⟩ := hq
  obtain ⟨hlive, -⟩ := frame_ownership ⟨1, 1, false, 16⟩ s (.of_exec_when .refl hs)
    (Holder.isFree_iff.mp hfree)
  rw [hmal, hres] at hlive
  exact ⟨s, hs, hmal, hres, hlive⟩

end SoftGpu.Driver
