import SoftGpu.Backing
import SoftGpu.DriverSteps

/-!
# One-way coherence of managed memory

Without userfaultfd the host page of a managed page stays writable while the
page is in VRAM. Until the first command that accesses the page has retired, the
device has to see what the host had stored when that command was submitted, under
what the device has written since: the command may come back to the page after an
eviction. The host breaks this when it stores to a page that a prefetch, or a fault
whose command has not come back yet, has already moved, and when it stores to a
clean page while its first command runs. All of this is about one page.
-/

namespace SoftGpu
open VramAllocator

namespace Backed

variable {m : Mem} {loose blocks : List (ℕ × ℕ)} {regions : List Region} {v : ℕ}
  {dev : ℕ → UInt8} {data : Page}

theorem deviceWrite (hu : m.uffd = false) (hin : (m.mmu.pte v).inVram = true) (data : Page) :
    Backed { m with
      mmu := m.mmu.orFlags (v * pageSize) true true
      frames := Function.update m.frames (m.mmu.pte v).pa data } (repeated data) (· = v) := by
  have hs := Mmu.orFlags_same m.mmu (v * pageSize) true true
  constructor
  · rintro w rfl -
    simp only [Pte.pa, hs.pfn, Function.update_self, pageOf_repeated]
  · rintro w rfl - hout
    rw [hs.inVram, hin] at hout
    cases hout
  · rintro - w rfl - - hd
    rw [Mmu.orFlags_dirty, mul_div_pageSize] at hd
    simp at hd
  · intro hu'
    cases hu.symm.trans hu'

theorem storeDirty (hb : Backed m dev (· = v)) (hu : m.uffd = false)
    (hin : (m.mmu.pte v).inVram = true) (hd : (m.mmu.pte v).dirty = true) (page : Page) :
    Backed { m with hostMem := Function.update m.hostMem (m.mmu.host v) (some page) }
    dev (· = v) where
  frame := hb.frame
  host := by
    rintro w rfl - hout
    cases hin.symm.trans hout
  clean := by
    rintro - w rfl - - hclean
    cases hd.symm.trans hclean
  dropped := fun hu' => absurd (hu.symm.trans hu') Bool.false_ne_true

theorem outside (hout : (m.mmu.pte v).inVram = false)
    (hhost : m.hostMem (m.mmu.host v) = some data) : Backed m (repeated data) (· = v) := by
  constructor
  · rintro w rfl hin
    cases hout.symm.trans hin
  · rintro w rfl - -
    rw [hhost, pageOf_repeated]
  · rintro - w rfl - hin
    cases hout.symm.trans hin
  · rintro - w rfl - hin
    cases hout.symm.trans hin

end Backed

namespace Driver
open Machine

def Live (v : ℕ) (s : State) : Prop :=
  ∀ k c, s.first v = some k → s.cmds k = some c → c.retired = false

def State.current (s : State) (v : ℕ) : Page :=
  if s.first v = none then s.stored v else s.expected v

structure OneWay (v : ℕ) (s : State) : Prop where
  uffd : s.mem.uffd = false
  managed : s.mem.mmu.vramPages ≤ v
  backed : Live v s → Backed s.mem (repeated (s.current v)) (· = v)
  cmds : s.first v = none → ∀ k c, s.cmds k = some c → c.since v = false → c.stored v = s.stored v
  reads : ∀ r ∈ s.reads, r.page = v → r.found = r.expected

/-- Before the first access of page `v` the host stores to it while it is not in VRAM, and
no more once the command that makes the first access is submitted. Until that command has
retired, the host stores to the page only while its frame is dirty. -/
def beforeFirstAccess (v : ℕ) (s : State) : Action → Prop
  | .hostStore w _ _ => w = v →
    match s.first v with
    | none => (s.mem.mmu.pte v).inVram = false
    | some k => (s.mem.mmu.pte v).inVram = true ∧ (s.mem.mmu.pte v).dirty = true ∨
        (s.cmds k).map Cmd.retired = some true
  | .access k w _ => w = v → s.first v = none → (s.cmds k).map (fun c => c.since v) ≠ some true
  | a => noWrap s a

instance (v : ℕ) (s : State) (a : Action) : Decidable (beforeFirstAccess v s a) := by
  unfold beforeFirstAccess
  split <;> try infer_instance
  split <;> infer_instance

variable {cfg : Config} {s s' : State} {a : Action} {v : ℕ}

theorem beforeFirstAccess_noWrap (h : beforeFirstAccess v s a) : noWrap s a := by
  cases a <;> first | exact h | trivial

structure SameHistory (s s' : State) : Prop where
  first : s'.first = s.first
  stored : s'.stored = s.stored
  expected : s'.expected = s.expected
  cmds : s'.cmds = s.cmds
  reads : s'.reads = s.reads

namespace OneWay

theorem move (h : OneWay v s) (hsame : SameHistory s s') (huffd : s'.mem.uffd = s.mem.uffd)
    (hvram : s'.mem.mmu.vramPages = s.mem.mmu.vramPages)
    (hmem : ∀ dev, Backed s.mem dev (· = v) → Backed s'.mem dev (· = v)) : OneWay v s' where
  uffd := huffd.trans h.uffd
  managed := hvram.trans_le h.managed
  backed := by
    intro hlive
    rw [Live, hsame.first, hsame.cmds] at hlive
    rw [State.current, hsame.first, hsame.stored, hsame.expected]
    exact hmem _ (h.backed hlive)
  cmds := by
    rw [hsame.first, hsame.stored, hsame.cmds]
    exact h.cmds
  reads := by
    rw [hsame.reads]
    exact h.reads

theorem keep (h : OneWay v s) (hi' : Inv s') (hsame : SameHistory s s')
    (huffd : s'.mem.uffd = s.mem.uffd) (hvram : s'.mem.mmu.vramPages = s.mem.mmu.vramPages)
    (hframes : s'.mem.frames = s.mem.frames)
    (hpage : (s'.mem.mmu.pte v).present = true → s'.mem.mmu.pte v = s.mem.mmu.pte v ∧
      s'.mem.mmu.host v = s.mem.mmu.host v ∧
      s'.mem.hostMem (s.mem.mmu.host v) = s.mem.hostMem (s.mem.mmu.host v)) : OneWay v s' :=
  h.move hsame huffd hvram fun _ hb => hb.congr hi'.mem.table.valid
    (fun _ hw => by subst hw; exact hpage) hvram huffd hframes

theorem create (h : OneWay v s) {addr bytes host : ℕ} {va : VramAllocator} {mmu : Mmu}
    (hi : Inv (s.created va mmu addr bytes host)) (hdvd : pageSize ∣ bytes)
    (hmap : s.mem.mmu.mapHost addr host (bytes / pageSize) = .ok mmu) :
    OneWay v (s.created va mmu addr bytes host) := by
  obtain ⟨haddr, -, -, -, -, hmmu⟩ := Mmu.mapHost_ok hmap
  have hmem : MemInv (s.created va mmu addr bytes host).mem [] _
      (⟨addr, bytes, host⟩ :: regionsOf (s.created va mmu addr bytes host).items) := hi.mem
  have hcont : Region.contains ⟨addr, bytes, host⟩ (v * pageSize) ↔
      addr / pageSize ≤ v ∧ v < addr / pageSize + bytes / pageSize :=
    Region.contains_page haddr (Nat.mod_eq_zero_of_dvd hdvd)
  have hmanaged : mmu.vramPages ≤ v := by
    rw [hmmu]
    exact h.managed
  by_cases hin : addr / pageSize ≤ v ∧ v < addr / pageSize + bytes / pageSize
  · refine ⟨h.uffd, hmanaged, fun _ => ?_, fun _ k c hk _ => ?_, h.reads⟩
    · have hb := hmem.table.backing v _ (by simp) (hcont.mpr hin)
      have hc := hcont.mpr hin
      simp only [Region.contains, State.created] at hb hc
      simp only [State.current, State.created, onRange, if_pos hin, if_true]
      refine .outside ?_ ?_
      · simp only [hmmu, Mmu.setRange, if_pos hin]
        rfl
      · dsimp only
        rw [if_pos (by omega)]
    · simp only [State.created, Option.map_eq_some_iff] at hk
      obtain ⟨d, -, rfl⟩ := hk
      simp only [State.created, onRange, if_pos hin]
  · -- A page outside the new range is the page it was.
    have hpte : mmu.pte v = s.mem.mmu.pte v := by
      rw [hmmu]
      exact if_neg hin
    have hhost : mmu.host v = s.mem.mmu.host v := by
      rw [hmmu]
      exact if_neg hin
    refine ⟨h.uffd, hmanaged, fun hlive => ?_, fun hnone k c hk hsince => ?_, h.reads⟩
    · have hold : Live v s := by
        intro k c hf hk
        refine hlive k ⟨onRange c.stored addr bytes .zero, onRange c.since addr bytes false,
          c.retired⟩ ?_ ?_
        · simpa only [State.created, onRange, if_neg hin] using hf
        · simp only [State.created, hk, Option.map_some]
      have hcur : (s.created va mmu addr bytes host).current v = s.current v := by
        simp only [State.current, State.created, onRange, if_neg hin]
      rw [hcur]
      refine (h.backed hold).congr hmem.table.valid ?_ ?_ rfl rfl
      · rintro w rfl hp
        have hout := hmem.host_outside hmanaged hp (by rwa [hcont])
        refine ⟨hpte, hhost, if_neg ?_⟩
        rw [← hhost]
        exact hout
      · simp only [State.created, hmmu]
    · simp only [State.created, Option.map_eq_some_iff] at hk
      obtain ⟨d, hd, rfl⟩ := hk
      simp only [State.created, onRange, if_neg hin] at hnone hsince ⊢
      exact h.cmds hnone k d hd hsince

theorem recycleVram (h : OneWay v s) (hi : Inv s) {p : Pending} {l : List Region}
    (hitems : s.items.Perm (p.item :: l)) (hp : p.host = 0) (holder : Holder)
    (hi' : Inv { s with mem := s.mem.recycleVram p.addr p.size, holder := holder }) :
    OneWay v { s with mem := s.mem.recycleVram p.addr p.size, holder := holder } := by
  have hb : (p.addr, p.size) ∈ blocksOf s.items := by
    rw [(blocksOf_perm hitems).mem_iff]
    simp [blocksOf, Pending.item, hp]
  obtain ⟨-, -, -, hend⟩ := hi.mem.block_aligned (.inr hb)
  dsimp only at hend
  have hv := h.managed
  obtain ⟨hpte, hhost⟩ := s.mem.mmu.unmap_outside (n := p.size / pageSize) (v := v)
    (show ¬(p.addr / pageSize ≤ v ∧ v < p.addr / pageSize + p.size / pageSize) by omega)
  exact h.keep hi' ⟨rfl, rfl, rfl, rfl, rfl⟩ rfl (by simp [Mem.recycleVram]) rfl
    fun _ => ⟨hpte, hhost, rfl⟩

theorem recycleManaged (h : OneWay v s) (hi : Inv s) {p : Pending} {l : List Region}
    (hitems : s.items.Perm (p.item :: l)) (hfresh : s.holder.fresh = []) (hp : p.host ≠ 0)
    (holder : Holder)
    (hi' : Inv { s with
      mem := s.mem.recycleManaged p.addr p.size p.host
      managedVa := s.managedVa.freeAddr p.addr
      holder := holder }) :
    OneWay v { s with
      mem := s.mem.recycleManaged p.addr p.size p.host
      managedVa := s.managedVa.freeAddr p.addr
      holder := holder } := by
  obtain ⟨hkeep, -, hmmu, hhm⟩ := recycleManaged_keeps s.mem p.addr p.size p.host
  have hregions : (regionsOf s.items).Perm (p.item :: regionsOf l) := by
    have := regionsOf_perm hitems
    rwa [show regionsOf (p.item :: l) = p.item :: regionsOf l by
      simp [regionsOf, Pending.item, hp]] at this
  have hmem := hi.mem
  rw [hfresh, List.nil_append] at hmem
  have hmem := hmem.perm (.refl _) (.refl _) hregions
  obtain ⟨ha, hs, hpos, -, hend, -⟩ := hmem.table.region p.item (by simp)
  have hunmap : s.mem.mmu.unmap p.addr (p.size / pageSize) = _ := Mmu.unmap_eq ha
    (by simp only [Pending.item, pageSize] at *; omega)
    (by simp only [Pending.item, pageSize] at *; omega)
  refine h.keep hi' ⟨rfl, rfl, rfl, rfl, rfl⟩ hkeep.uffd hkeep.vramPages
    hkeep.frames fun hpres => ?_
  dsimp only at hpres ⊢
  rw [hmmu] at hpres ⊢
  -- The pages of the range are gone.
  have hout : ¬(p.addr / pageSize ≤ v ∧ v < p.addr / pageSize + p.size / pageSize) := by
    intro hin
    rw [hunmap] at hpres
    simp [Mmu.setRange, hin, Pte.zero] at hpres
  obtain ⟨hpte, hhost⟩ := s.mem.mmu.unmap_outside hout
  rw [hpte] at hpres
  refine ⟨hpte, hhost, ?_⟩
  rw [hhm]
  exact if_neg (hmem.host_outside h.managed hpres (by rw [Region.contains_page ha hs]; exact hout))

theorem holder (h : OneWay v s) (hi : Inv s) (hi' : Inv s') (hs : HolderEffect s s') :
    OneWay v s' := by
  cases hs with
  | handOver vram va allocs pending holder hs hitems hfresh =>
    subst hs
    exact h.move ⟨rfl, rfl, rfl, rfl, rfl⟩ rfl rfl fun _ hb => hb.vram vram
  | evictAll envs holder hs hitems hfresh =>
    subst hs
    have hshape := Shape.evictAllLocked s.mem envs s.mem.resident.length
    exact h.move ⟨rfl, rfl, rfl, rfl, rfl⟩ hshape.uffd hshape.pages.vramPages
      fun _ hb => hb.evictAllLocked hi.mem envs _
  | mapBlock addr bytes mmu hpark hfresh hdvd hmap hs =>
    subst hs
    obtain ⟨-, -, -, -, hend, -, hmmu⟩ := Mmu.mapVram_ok hmap
    have hv := h.managed
    refine h.keep hi' ⟨rfl, rfl, rfl, rfl, rfl⟩ rfl (by simp only [hmmu]) rfl fun _ => ?_
    have hpte : mmu.pte v = s.mem.mmu.pte v := by
      rw [hmmu]
      exact if_neg (by omega)
    exact ⟨hpte, by rw [hmmu], rfl⟩
  | create addr bytes host va mmu hpark hfresh hdvd hhost hmap hs =>
    subst hs
    exact h.create hi' hdvd hmap
  | addRange addr bytes host id hh hs =>
    subst hs
    exact h.move ⟨rfl, rfl, rfl, rfl, rfl⟩ rfl rfl
      fun _ hb => hb.flags (.refl _) (fun _ h => h) rfl rfl rfl
  | recycle p l holder hitems hs hitems' hfresh hfresh' =>
    subst hs
    by_cases hp : p.host = 0
    · simp only [State.recycle, if_pos hp] at hi' ⊢
      exact h.recycleVram hi hitems hp holder hi'
    · simp only [State.recycle, if_neg hp] at hi' ⊢
      exact h.recycleManaged hi hitems hfresh hp holder hi'

theorem fault (h : OneWay v s) (hi : Inv s) (hs : faultStep s a = some s') : OneWay v s' := by
  have hshape := (faultStep_outside hs).shape
  have hserv := hi.service
  have hdrop : ∀ env, Drops s.mem env := fun env hu => absurd
    (h.uffd.symm.trans hu) Bool.false_ne_true
  cases a with
  | raise c va =>
    simp only [faultStep, Option.ite_none_right_eq_some, Option.some.injEq] at hs
    exact hs.2 ▸ h.move ⟨rfl, rfl, rfl, rfl, rfl⟩ rfl rfl fun _ hb => hb
  | pop =>
    simp only [faultStep] at hs
    split at hs <;> simp only [Option.some.injEq, reduceCtorEq] at hs
    exact hs ▸ h.move ⟨rfl, rfl, rfl, rfl, rfl⟩ rfl rfl fun _ hb => hb
  | demand env =>
    simp only [faultStep] at hs
    split at hs <;> try simp only [reduceCtorEq] at hs
    rename_i c va hsv
    rw [hsv] at hserv
    have hm : ∀ dev, Backed s.mem dev (· = v) → Backed (s.mem.migrateLocked va env).2 dev (· = v) :=
      fun _ hb => hb.migrateLocked hi.mem hserv (hdrop env)
    split at hs <;> rw [Option.some.injEq] at hs <;> subst hs <;> rename_i heq <;>
      rw [heq] at hm <;>
      exact h.move ⟨rfl, rfl, rfl, rfl, rfl⟩ hshape.uffd hshape.pages.vramPages hm
  | prefetch envs =>
    simp only [faultStep] at hs
    split at hs <;> simp only [Option.some.injEq, reduceCtorEq] at hs
    rename_i c i next id hsv
    rw [hsv] at hserv
    subst hs
    exact h.move ⟨rfl, rfl, rfl, rfl, rfl⟩ hshape.uffd hshape.pages.vramPages
      fun _ hb => hb.prefetchLocked hi.mem hserv fun _ => hdrop _
  | hostFault addr env =>
    simp [faultStep, h.uffd] at hs
  | _ => simp [faultStep] at hs

theorem accessOther (h : OneWay v s) (hi : Inv s) {w : ℕ} (hw : w ≠ v)
    (hin : (s.mem.mmu.pte w).inVram = true) (k : ℕ) (c : Cmd) (write : Option Page) :
    OneWay v (s.accessed k c w write) := by
  have hsame := Mmu.orFlags_same s.mem.mmu (w * pageSize) write.isSome true
  have hdirty : ∀ u, ((s.mem.mmu.orFlags (w * pageSize) write.isSome true).pte u).dirty = false →
      (s.mem.mmu.pte u).dirty = false := by
    intro u hu
    rw [Mmu.orFlags_dirty] at hu
    exact (Bool.or_eq_false_iff.mp hu).1
  have hfirst : (s.accessed k c w write).first v = s.first v := Function.update_of_ne hw.symm ..
  refine ⟨h.uffd, hsame.vramPages ▸ h.managed, fun hlive => ?_, fun hnone => ?_, fun r hr hv => ?_⟩
  · have hb := h.backed fun j d hj hd => hlive j d (hfirst ▸ hj) hd
    have hcur : (s.accessed k c w write).current v = s.current v := by
      simp only [State.current, hfirst]
      simp only [State.accessed, Function.update_of_ne hw.symm]
    rw [hcur]
    cases write with
    | none => exact hb.flags hsame hdirty rfl rfl rfl
    | some data => exact (hb.foreign hi.mem hw hin data).flags hsame hdirty rfl rfl rfl
  · exact h.cmds (hfirst ▸ hnone)
  · simp only [State.accessed] at hr
    split_ifs at hr
    · rcases List.mem_append.mp hr with hr | hr
      · exact h.reads r hr hv
      · rw [List.mem_singleton.mp hr] at hv
        exact absurd hv hw
    · exact h.reads r hr hv

theorem seen_current (h : OneWay v s) {k : ℕ} {c : Cmd} (hk : s.cmds k = some c)
    (hsince : s.first v = none → c.since v = false) : s.seen c v = s.current v := by
  simp only [State.seen, State.current]
  split_ifs with hnone
  · exact h.cmds hnone k c hk (hsince hnone)
  · rfl

theorem accessPage (h : OneWay v s) {k : ℕ} {c : Cmd} (hk : s.cmds k = some c)
    (hrun : c.retired = false) (hin : (s.mem.mmu.pte v).inVram = true)
    (hsince : s.first v = none → c.since v = false) (write : Option Page) :
    OneWay v (s.accessed k c v write) := by
  have hsame := Mmu.orFlags_same s.mem.mmu (v * pageSize) write.isSome true
  have hseen := h.seen_current hk hsince
  have hfirst : (s.accessed k c v write).first v = some (s.firstOf k v) := Function.update_self ..
  refine ⟨h.uffd, hsame.vramPages ▸ h.managed, fun hlive => ?_, fun hnone => ?_, fun r hr hv => ?_⟩
  · have hb := h.backed fun j d hj hd => hlive j d (by rw [hfirst, State.firstOf, hj]; rfl) hd
    have hcur : (s.accessed k c v write).current v = write.getD (s.current v) := by
      rw [← hseen, State.current, hfirst]
      simp only [State.accessed, Function.update_self, reduceCtorEq, if_false]
    rw [hcur]
    cases write with
    | none =>
      refine hb.flags hsame (fun u hu => ?_) rfl rfl rfl
      simp only [State.accessed, Option.isSome_none, Mmu.orFlags_dirty] at hu
      exact (Bool.or_eq_false_iff.mp hu).1
    | some data => exact .deviceWrite h.uffd hin data
  · cases hfirst.symm.trans hnone
  · simp only [State.accessed] at hr
    split_ifs at hr with hown
    · rcases List.mem_append.mp hr with hr | hr
      · exact h.reads r hr hv
      · -- The command is the first one of the page, and it is running.
        have hlive : Live v s := by
          intro j d hj hd
          obtain rfl : j = k := by simpa [State.firstOf, hj] using hown.1
          rw [hk] at hd
          exact Option.some.inj hd ▸ hrun
        rw [List.mem_singleton.mp hr]
        simp only [hseen, (h.backed hlive).frame v rfl hin, pageOf_repeated]
    · exact h.reads r hr hv

theorem hostStore (h : OneWay v s) (hi : Inv s) {w : ℕ} {off : Fin pageSize} {byte : UInt8}
    (hok : beforeFirstAccess v s (.hostStore w off byte))
    (hs : worldStep s (.hostStore w off byte) = some s') : OneWay v s' := by
  simp only [worldStep] at hs
  split_ifs at hs with hw
  obtain ⟨hp, hvram⟩ := hw
  split at hs <;> simp only [Option.some.injEq, reduceCtorEq] at hs
  rename_i page hpage
  subst hs
  refine ⟨h.uffd, h.managed, fun hlive => ?_, fun hnone j d hj hsince => ?_, h.reads⟩
  · have hold : Live v s := by
      intro j d hj hd
      refine hlive j { d with since := Function.update d.since w true } hj ?_
      simp only [hd, Option.map_some]
    have hb := h.backed hold
    by_cases hwv : w = v
    · subst hwv
      have hok := hok rfl
      cases hfirst : s.first w with
      | none =>
        simp only [hfirst] at hok
        have hcur : s.current w = s.stored w := if_pos hfirst
        have hhost := hb.host w rfl hp hok
        rw [pageOf_repeated, hcur, hpage] at hhost
        obtain rfl := Option.some.inj hhost
        simp only [State.current, hfirst, if_true, Function.update_self]
        exact .outside hok (Function.update_self ..)
      | some k =>
        simp only [hfirst] at hok
        have hcur : s.current w = s.expected w := if_neg (by simp [hfirst])
        simp only [State.current, hfirst, reduceCtorEq, if_false]
        rw [← hcur]
        obtain ⟨hin, hd⟩ | hdone := hok
        · exact hb.storeDirty h.uffd hin hd _
        · obtain ⟨c, hc, hret⟩ := Option.map_eq_some_iff.mp hdone
          cases hret.symm.trans (hold k c hfirst hc)
    · have hne : v ≠ w := Ne.symm hwv
      simp only [State.current, Function.update_of_ne hne]
      exact hb.hostStore hi.mem hwv hvram hp _
  · obtain ⟨c, hc, rfl⟩ := Option.map_eq_some_iff.mp hj
    by_cases hwv : w = v
    · subst hwv
      simp at hsince
    · dsimp only at hsince ⊢
      rw [Function.update_of_ne (Ne.symm hwv)] at hsince ⊢
      exact h.cmds hnone j c hc hsince

theorem world (h : OneWay v s) (hi : Inv s) (hok : beforeFirstAccess v s a)
    (hs : worldStep s a = some s') : OneWay v s' := by
  cases a with
  | publish c =>
    simp only [worldStep, Option.some.injEq] at hs
    exact hs ▸ h.move ⟨rfl, rfl, rfl, rfl, rfl⟩ rfl rfl fun _ hb => hb
  | retire c =>
    simp only [worldStep, Option.ite_none_right_eq_some, Option.some.injEq] at hs
    exact hs.2 ▸ h.move ⟨rfl, rfl, rfl, rfl, rfl⟩ rfl rfl fun _ hb => hb
  | submit k =>
    simp only [worldStep] at hs
    split at hs <;> simp only [Option.some.injEq, reduceCtorEq] at hs
    rename_i hk
    subst hs
    refine ⟨h.uffd, h.managed, fun hlive => h.backed fun j c hj hc => ?_,
      fun hnone j c hj hsince => ?_, h.reads⟩
    · refine hlive j c hj ?_
      dsimp only
      rwa [Function.update_of_ne]
      rintro rfl
      cases hk.symm.trans hc
    · by_cases hjk : j = k
      · rw [hjk] at hj
        simp only [Function.update_self, Option.some.injEq] at hj
        exact hj ▸ rfl
      · dsimp only at hj
        rw [Function.update_of_ne hjk] at hj
        exact h.cmds hnone j c hj hsince
  | access k w write =>
    simp only [worldStep] at hs
    split at hs <;> try simp only [reduceCtorEq] at hs
    rename_i c hk
    split_ifs at hs with hin
    obtain rfl := Option.some.inj hs
    simp only [Bool.and_eq_true, Bool.not_eq_eq_eq_not, Bool.not_true] at hin
    obtain ⟨⟨-, hin⟩, hrun⟩ := hin
    by_cases hw : w = v
    · subst hw
      refine h.accessPage hk hrun hin (fun hnone => ?_) write
      simpa [hk] using hok rfl hnone
    · exact h.accessOther hi hw hin k c write
  | finish k =>
    simp only [worldStep] at hs
    split at hs <;> try simp only [reduceCtorEq] at hs
    rename_i c hk
    split_ifs at hs with hrun
    obtain rfl := Option.some.inj hs
    refine ⟨h.uffd, h.managed, fun hlive => h.backed fun j d hj hd => ?_,
      fun hnone j d hj hsince => ?_, h.reads⟩
    · by_cases hjk : j = k
      · subst hjk
        rw [hk] at hd
        exact Option.some.inj hd ▸ Bool.eq_false_of_not_eq_true hrun
      · refine hlive j d hj ?_
        dsimp only
        rwa [Function.update_of_ne hjk]
    · dsimp only at hj
      by_cases hjk : j = k
      · subst hjk
        rw [Function.update_self, Option.some.injEq] at hj
        subst hj
        exact h.cmds hnone j c hk hsince
      · rw [Function.update_of_ne hjk] at hj
        exact h.cmds hnone j d hj hsince
  | hostStore w off byte => exact h.hostStore hi hok hs
  | _ => simp [worldStep] at hs

end OneWay

theorem oneWay_init (hcfg : cfg.uffd = false) (hv : vramBytes / pageSize ≤ v) :
    OneWay v (init cfg) where
  uffd := hcfg
  managed := hv
  backed := fun _ => by constructor <;> simp [init, Mmu.new, Pte.zero]
  cmds := by simp [init]
  reads := by simp [init]

theorem oneWay_step (hi : Inv s) (h : OneWay v s) (hok : beforeFirstAccess v s a)
    (hs : step cfg s a = some s') : OneWay v s' := by
  have hi' := step_inv hi (beforeFirstAccess_noWrap hok) hs
  rcases step_cases hs with hs | hs | hs
  · exact h.holder hi hi' (holderStep_cases hi.quiet hs)
  · exact h.fault hi hs
  · exact h.world hi hok hs

/-- Without userfaultfd, in a run whose stores to a managed page keep to
`beforeFirstAccess`, all that the first command of the page reads there is what the host
had stored when the command was submitted, under what the device has written since. -/
theorem first_access_reads_stored (cfg : Config) (hcfg : cfg.uffd = false) (v : ℕ)
    (hv : vramBytes / pageSize ≤ v) (s : State)
    (h : Reach (step cfg) (beforeFirstAccess v) (init cfg) s) :
    ∀ r ∈ s.reads, r.page = v → r.found = r.expected :=
  (h.invariant_of (fun _ hr => reach_inv (fun _ _ => beforeFirstAccess_noWrap) hr)
    (oneWay_init hcfg hv) fun _ _ _ hi ho hok hs => oneWay_step hi ho hok hs).reads

/-- A managed allocation of three pages. The command faults on the first two, and the
prefetch moves the third; the host stores to it before the faults if `early`, else after
the prefetch, and a second command reads it. -/
def prefetchedRun (early : Bool) : List Action :=
  let store : Action := .hostStore 65538 ⟨0, pageSize_pos⟩ 7
  let setup : List Action :=
    [.lock (.allocManaged 12288), .reclaim, .mapManaged (some 409600), .addRange]
  let faults : List Action :=
    [.submit 0, .raise (0, 0) vramBytes, .pop, .demand Env.calm, .access 0 65536 none,
      .raise (0, 0) (vramBytes + 4096), .pop, .demand Env.calm, .prefetch fun _ => Env.calm,
      .access 0 65537 none]
  setup ++ (if early then store :: faults else faults ++ [store]) ++
    [.submit 1, .access 1 65538 none]

/-- A request that fits nowhere evicts all pages; the second command comes back to the
third page, and the host stores to it when the command has retired. -/
def evictedRun : List Action :=
  [.lock (.alloc (2 * vramBytes)), .reclaim, .take, .drain true, .reclaim, .take,
    .evictAll fun _ => Env.calm, .take, .raise (0, 0) (vramBytes + 8192), .pop,
    .demand Env.calm, .access 1 65538 none, .finish 1, .hostStore 65538 ⟨0, pageSize_pos⟩ 9]

theorem first_access_reads_stored_early :
    ∃ s, exec (when (beforeFirstAccess 65538) (step ⟨1, 1, false, 16⟩)) (init ⟨1, 1, false, 16⟩)
        (prefetchedRun true ++ evictedRun) = some s ∧
      s.reads.map (fun r => (r.page, r.found ⟨0, by decide⟩)) =
        [(65536, 0), (65537, 0), (65538, 7), (65538, 7)] ∧
      ∀ r ∈ s.reads, r.page = 65538 → r.found = r.expected := by
  have hrun : (exec (when (beforeFirstAccess 65538) (step ⟨1, 1, false, 16⟩))
      (init ⟨1, 1, false, 16⟩) (prefetchedRun true ++ evictedRun)).map
        (fun s => s.reads.map fun r => (r.page, r.found ⟨0, by decide⟩)) =
      some [(65536, 0), (65537, 0), (65538, 7), (65538, 7)] := by decide +kernel
  obtain ⟨s, hs, hreads⟩ := Option.map_eq_some_iff.mp hrun
  exact ⟨s, hs, hreads, first_access_reads_stored ⟨1, 1, false, 16⟩ rfl 65538 (by decide) s
    (.of_exec_when .refl hs)⟩

/-- The store comes after the prefetch and before the submission; the command
reads the old byte. -/
theorem first_access_stale :
    ∃ s, Reach (step ⟨1, 1, false, 16⟩) anyStep (init ⟨1, 1, false, 16⟩) s ∧
      ∃ r ∈ s.reads, r.found ⟨0, by decide⟩ = 0 ∧ r.expected ⟨0, by decide⟩ = 7 := by
  have hrun : (exec (step ⟨1, 1, false, 16⟩) (init ⟨1, 1, false, 16⟩)
      (prefetchedRun false)).map
        (fun s => s.reads.map fun r => (r.found ⟨0, by decide⟩, r.expected ⟨0, by decide⟩)) =
      some [(0, 0), (0, 0), (0, 7)] := by decide +kernel
  obtain ⟨s, hs, hreads⟩ := Option.map_eq_some_iff.mp hrun
  have hmem : ((0, 7) : UInt8 × UInt8) ∈
      s.reads.map fun r => (r.found ⟨0, by decide⟩, r.expected ⟨0, by decide⟩) := by simp [hreads]
  obtain ⟨r, hr, heq⟩ := List.mem_map.mp hmem
  exact ⟨s, .of_exec .refl hs, r, hr, congrArg Prod.fst heq, congrArg Prod.snd heq⟩

end Driver

end SoftGpu
