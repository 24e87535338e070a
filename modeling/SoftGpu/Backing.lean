import SoftGpu.Mapping

/-!
# What the device sees of memory while pages move

`Backed m dev S` says that on the pages in `S` the device sees the bytes `dev`, and
that wherever a page goes next it will still see them: a frame that would be dropped
without being written back agrees with its host page. Migration, prefetch and eviction
keep this, whatever they are asked to do. With userfaultfd, `madvise` is taken to drop
the host page of a page that was migrated.
-/

namespace SoftGpu

variable {m m' : Mem} {loose blocks : List (ℕ × ℕ)} {regions : List Region} {pa v va : ℕ}
  {dev : ℕ → UInt8} {S : ℕ → Prop} {env : Env}

def pageOf (dev : ℕ → UInt8) (v : ℕ) : Page := fun off => dev (v * pageSize + off)

def repeated (x : Page) (a : ℕ) : UInt8 := x ⟨a % pageSize, Nat.mod_lt _ pageSize_pos⟩

@[simp] theorem pageOf_repeated (x : Page) (v : ℕ) : pageOf (repeated x) v = x := by
  funext off
  simp only [pageOf, repeated, Nat.mul_add_mod_self_right, Nat.mod_eq_of_lt off.isLt]

structure Backed (m : Mem) (dev : ℕ → UInt8) (S : ℕ → Prop) : Prop where
  frame : ∀ v, S v → (m.mmu.pte v).inVram = true → m.frames (m.mmu.pte v).pa = pageOf dev v
  host : ∀ v, S v → (m.mmu.pte v).present = true → (m.mmu.pte v).inVram = false →
    m.hostMem (m.mmu.host v) = some (pageOf dev v)
  clean : m.uffd = false → ∀ v, S v → m.mmu.vramPages ≤ v → (m.mmu.pte v).inVram = true →
    (m.mmu.pte v).dirty = false → m.hostMem (m.mmu.host v) = some (pageOf dev v)
  dropped : m.uffd = true → ∀ v, S v → m.mmu.vramPages ≤ v → (m.mmu.pte v).inVram = true →
    m.hostMem (m.mmu.host v) = none

def Drops (m : Mem) (env : Env) : Prop := m.uffd = true → env.madviseFails = false

namespace Backed

theorem flags (hb : Backed m dev S) (hs : Mmu.Same m.mmu m'.mmu)
    (hdirty : ∀ v, (m'.mmu.pte v).dirty = false → (m.mmu.pte v).dirty = false)
    (huffd : m'.uffd = m.uffd) (hframes : m'.frames = m.frames) (hhost : m'.hostMem = m.hostMem) :
    Backed m' dev S where
  frame := by
    simp only [hs.inVram, Pte.pa, hs.pfn, hframes]
    exact hb.frame
  host := by
    simp only [hs.present, hs.inVram, hs.host, hhost]
    exact hb.host
  clean := by
    simp only [hs.inVram, hs.host, hs.vramPages, hhost, huffd]
    exact fun hu v hS hv hin hd => hb.clean hu v hS hv hin (hdirty v hd)
  dropped := by
    simp only [hs.inVram, hs.host, hs.vramPages, hhost, huffd]
    exact hb.dropped

theorem withBytes {dev' : ℕ → UInt8} (hb : Backed m dev S)
    (hdev : ∀ v, S v → pageOf dev' v = pageOf dev v) : Backed m dev' S where
  frame := fun v hS hin => (hb.frame v hS hin).trans (hdev v hS).symm
  host := fun v hS hp hout => by rw [hdev v hS, hb.host v hS hp hout]
  clean := fun hu v hS hv hin hd => by rw [hdev v hS, hb.clean hu v hS hv hin hd]
  dropped := hb.dropped

theorem congr (hb : Backed m dev S)
    (hvalid : ∀ v, (m'.mmu.pte v).inVram = true → (m'.mmu.pte v).present = true)
    (hpage : ∀ v, S v → (m'.mmu.pte v).present = true → m'.mmu.pte v = m.mmu.pte v ∧
      m'.mmu.host v = m.mmu.host v ∧ m'.hostMem (m.mmu.host v) = m.hostMem (m.mmu.host v))
    (hvram : m'.mmu.vramPages = m.mmu.vramPages) (huffd : m'.uffd = m.uffd)
    (hframes : m'.frames = m.frames) : Backed m' dev S where
  frame := by
    intro v hS hin
    obtain ⟨hpte, -, -⟩ := hpage v hS (hvalid v hin)
    rw [hpte] at hin ⊢
    rw [hframes]
    exact hb.frame v hS hin
  host := by
    intro v hS hp hout
    obtain ⟨hpte, hhost, hmem⟩ := hpage v hS hp
    rw [hpte] at hp hout
    rw [hhost, hmem]
    exact hb.host v hS hp hout
  clean := by
    intro hu v hS hv hin hd
    obtain ⟨hpte, hhost, hmem⟩ := hpage v hS (hvalid v hin)
    rw [hpte] at hin hd
    rw [hhost, hmem]
    exact hb.clean (huffd ▸ hu) v hS (hvram ▸ hv) hin hd
  dropped := by
    intro hu v hS hv hin
    obtain ⟨hpte, hhost, hmem⟩ := hpage v hS (hvalid v hin)
    rw [hpte] at hin
    rw [hhost, hmem]
    exact hb.dropped (huffd ▸ hu) v hS (hvram ▸ hv) hin

theorem forget (hb : Backed m dev S) (va : ℕ) : Backed (m.forgetResident va) dev S := by
  simp only [Mem.forgetResident]
  split
  · exact hb
  · exact hb.flags (.refl _) (fun _ => id) rfl rfl rfl

theorem evicted (hb : Backed m dev S) (h : MemInv m loose blocks regions)
    (hv : m.mmu.vramPages ≤ v) (hin : (m.mmu.pte v).inVram = true) {hm : ℕ → Option Page}
    (hhm : hm = m.hostMem ∧ (m.uffd = false ∧ (m.mmu.pte v).dirty = false ∨
        m.uffd = true ∧ m.hostMem (m.mmu.host v) ≠ none) ∨
      hm = Function.update m.hostMem (m.mmu.host v) (some (m.frames (m.mmu.pte v).pa))) :
    Backed { m with mmu := m.mmu.setPte v .hostResident, hostMem := hm } dev S := by
  have hpte : ∀ w, ((m.mmu.setPte v .hostResident).pte w).inVram = true →
      w ≠ v ∧ (m.mmu.setPte v .hostResident).pte w = m.mmu.pte w := by
    intro w hw
    by_cases hwv : w = v
    · subst hwv
      simp [Pte.hostResident] at hw
    · exact ⟨hwv, Function.update_of_ne hwv ..⟩
  -- The host pages of the other managed pages are as they were.
  have hother : ∀ w, w ≠ v → m.mmu.vramPages ≤ w → (m.mmu.pte w).present = true →
      hm (m.mmu.host w) = m.hostMem (m.mmu.host w) := by
    intro w hne hw hpw
    obtain ⟨rfl, -⟩ | rfl := hhm
    · rfl
    · exact Function.update_of_ne
        (fun heq => hne (h.host_inj hw hv hpw (h.table.valid v hin) heq)) ..
  constructor
  · intro w hS hw
    obtain ⟨-, heq⟩ := hpte w hw
    dsimp only at hw ⊢
    rw [heq] at hw ⊢
    exact hb.frame w hS hw
  · intro w hS hp hw
    by_cases hwv : w = v
    · subst hwv
      change hm (m.mmu.host w) = _
      obtain ⟨rfl, ⟨hu, hclean⟩ | ⟨hu, hthere⟩⟩ | rfl := hhm
      · exact hb.clean hu w hS hv hin hclean
      · exact absurd (hb.dropped hu w hS hv hin) hthere
      · rw [Function.update_self, hb.frame w hS hin]
    · have heq : (m.mmu.setPte v .hostResident).pte w = m.mmu.pte w := Function.update_of_ne hwv ..
      dsimp only at hp hw
      rw [heq] at hp hw
      have hge : m.mmu.vramPages ≤ w := by
        by_contra hlt
        rw [(h.table.ident w (by omega) hp).1] at hw
        cases hw
      exact (hother w hwv hge hp).trans (hb.host w hS hp hw)
  · intro hu w hS hge hw hd
    obtain ⟨hwv, heq⟩ := hpte w hw
    dsimp only at hw hd
    rw [heq] at hw hd
    exact (hother w hwv hge (h.table.valid w hw)).trans (hb.clean hu w hS hge hw hd)
  · intro hu w hS hge hw
    obtain ⟨hwv, heq⟩ := hpte w hw
    dsimp only at hw
    rw [heq] at hw
    exact (hother w hwv hge (h.table.valid w hw)).trans (hb.dropped hu w hS hge hw)

theorem evictLocked (hb : Backed m dev S) (h : MemInv m loose blocks regions)
    (hva : va % pageSize = 0) (hv : m.mmu.vramPages ≤ va / pageSize)
    (hin : (m.mmu.pte (va / pageSize)).inVram = true) (env : Env) :
    Backed (m.evictLocked va env).2 dev S := by
  rcases evictLocked_cases h hva hv hin env with ⟨mmu', ⟨hu, -⟩, hs, he⟩ | ⟨hm, hhm, he⟩
  · rw [he]
    -- Dirty bits may be lost, but with userfaultfd nothing depends on them.
    constructor
    · simp only [hs.inVram, Pte.pa, hs.pfn]
      exact hb.frame
    · simp only [hs.present, hs.inVram, hs.host]
      exact hb.host
    · intro hu'
      rw [show m.uffd = false from hu'] at hu
      cases hu
    · simp only [hs.inVram, hs.host, hs.vramPages]
      exact hb.dropped
  · rw [he]
    exact (hb.evicted h hv hin hhm).forget va

theorem passHand (hb : Backed m dev S) (ref : ℕ → Bool) (n : ℕ) :
    Backed (m.passHand ref n) dev S := by
  induction n generalizing m with
  | zero => exact hb
  | succ n ih =>
    simp only [Mem.passHand]
    split
    · exact hb
    · rename_i e rest _
      have hs := (Mmu.orFlags_same m.mmu e.2 false (ref n)).trans
        (Mmu.testAndClearAccessed_same _ e.2)
      have hdirty : ∀ v,
          (((m.mmu.orFlags e.2 false (ref n)).testAndClearAccessed e.2).2.pte v).dirty =
          false → (m.mmu.pte v).dirty = false := by
        intro v hv
        rw [Mmu.testAndClearAccessed_dirty, Mmu.orFlags_dirty] at hv
        exact (Bool.or_eq_false_iff.mp hv).1
      split_ifs
      · exact ih (hb.flags hs hdirty rfl rfl rfl)
      · exact hb.flags hs hdirty rfl rfl rfl

theorem evictOneLocked (hb : Backed m dev S) (h : MemInv m loose blocks regions) (env : Env) :
    Backed (m.evictOneLocked env).2 dev S := by
  have hp := h.passHand env.referenced m.resident.length
  have hb' := hb.passHand env.referenced m.resident.length
  simp only [Mem.evictOneLocked]
  split
  · exact hb'
  · rename_i e rest hres
    obtain ⟨hva, hv, hin⟩ := hp.clock.entry e (by simp [hres])
    exact hb'.evictLocked hp hva hv hin env

theorem vram (hb : Backed m dev S) (vram : VramAllocator) : Backed { m with vram := vram } dev S :=
  hb.flags (.refl _) (fun _ => id) rfl rfl rfl

theorem takeFrame (hb : Backed m dev S) (h : MemInv m loose blocks regions) (env : Env) :
    Backed (m.takeFrame env).2 dev S := by
  simp only [Mem.takeFrame]
  split
  · rename_i pa m' hal
    simp only [Mem.allocFrame, Option.map_eq_some_iff, Prod.mk.injEq] at hal
    obtain ⟨r, -, -, rfl⟩ := hal
    exact hb.vram r.2
  · exact hb.evictOneLocked h env

theorem installed (hb : Backed m dev S) (h : MemInv m ((pa, pageSize) :: loose) blocks regions)
    (hv : m.mmu.vramPages ≤ va / pageSize) (hpres : (m.mmu.pte (va / pageSize)).present = true)
    (hout : (m.mmu.pte (va / pageSize)).inVram = false) (hdrop : Drops m env) :
    Backed (m.installed va pa (m.mmu.host (va / pageSize)) env) dev S := by
  have hpa := div_mul_pageSize h.loose_page.1
  have hpte : ∀ w, w ≠ va / pageSize → (m.mmu.setPte (va / pageSize)
    (.inFrame (pa / pageSize) true)).pte w = m.mmu.pte w :=
    fun w hw => Function.update_of_ne hw ..
  have hother : ∀ w, w ≠ va / pageSize → m.mmu.vramPages ≤ w → (m.mmu.pte w).present = true →
      (m.installed va pa (m.mmu.host (va / pageSize)) env).hostMem (m.mmu.host w) =
        m.hostMem (m.mmu.host w) := by
    intro w hne hw hpw
    simp only [Mem.installed]
    split
    · exact Function.update_of_ne (fun heq => hne (h.host_inj hw hv hpw hpres heq)) ..
    · rfl
  constructor
  · intro w hS hw
    by_cases hwu : w = va / pageSize
    · subst hwu
      simp only [Mem.installed, Mmu.setPte_pte, Function.update_self, Pte.inFrame, Pte.pa, hpa,
        hb.host _ hS hpres hout, Option.getD_some]
    · simp only [Mem.installed] at hw ⊢
      rw [hpte w hwu] at hw ⊢
      rw [Function.update_of_ne (h.loose_unmapped hw)]
      exact hb.frame w hS hw
  · intro w hS hp hw
    by_cases hwu : w = va / pageSize
    · subst hwu
      simp [Mem.installed, Pte.inFrame] at hw
    · simp only [Mem.installed] at hp hw
      rw [hpte w hwu] at hp hw
      have hge : m.mmu.vramPages ≤ w := by
        by_contra hlt
        rw [(h.table.ident w (by omega) hp).1] at hw
        cases hw
      exact (hother w hwu hge hp).trans (hb.host w hS hp hw)
  · intro hu w hS hge hw hd
    have hu' : m.uffd = false := hu
    by_cases hwu : w = va / pageSize
    · subst hwu
      simp only [Mem.installed, hu', Bool.false_and, Bool.false_eq_true, if_false]
      exact hb.host _ hS hpres hout
    · simp only [Mem.installed] at hw hd
      rw [hpte w hwu] at hw hd
      exact (hother w hwu hge (h.table.valid w hw)).trans (hb.clean hu' w hS hge hw hd)
  · intro hu w hS hge hw
    have hu' : m.uffd = true := hu
    by_cases hwu : w = va / pageSize
    · subst hwu
      simp only [Mem.installed, hu', hdrop hu', Bool.not_false, Bool.and_self, if_true,
        Mmu.setPte_host, Function.update_self]
    · simp only [Mem.installed] at hw
      rw [hpte w hwu] at hw
      exact (hother w hwu hge (h.table.valid w hw)).trans (hb.dropped hu' w hS hge hw)

theorem migrateLocked (hb : Backed m dev S) (h : MemInv m loose blocks regions)
    (hva : va % pageSize = 0) (hdrop : Drops m env) : Backed (m.migrateLocked va env).2 dev S := by
  have htake := hb.takeFrame h env
  rcases h.migrateLocked_cases hva env with
    ⟨-, -, -, ⟨heq, -⟩ | ⟨heq, -⟩⟩ | ⟨m₁, frame, rfl, heff, hi, hv, hp, hin, he⟩
  · rw [heq]
    exact hb
  · rw [heq]
    exact htake
  · rw [he, ← heff.host]
    refine htake.installed hi (heff.vramPages ▸ hv) ((heff.present _).trans hp) ?_ fun hu => ?_
    · by_contra hc
      rw [(heff.inVram _ (by simpa using hc)).1] at hin
      cases hin
    · exact hdrop (heff.uffd.symm.trans hu)

theorem prefetchLoop (hb : Backed m dev S) (h : MemInv m loose blocks regions)
    (hva : va % pageSize = 0) {envs : ℕ → Env} (hdrop : ∀ n, Drops m (envs n)) (stop n : ℕ)
    (moved : List ℕ) : Backed (Mem.prefetchLoop envs stop n va m moved).2.2 dev S := by
  induction n generalizing m va moved with
  | zero => exact hb
  | succ n ih =>
    have hi := h.migrateLocked hva (envs n)
    have hb' := hb.migrateLocked h hva (hdrop n)
    have hs := Shape.migrateLocked m va (envs n)
    simp only [Mem.prefetchLoop]
    split_ifs
    · split
      · rename_i heq
        rw [heq] at hb'
        exact hb'
      · rename_i heq
        rw [heq] at hi hb' hs
        exact ih hb' hi (by simp [hva]) (fun k hu => hdrop k (hs.uffd ▸ hu)) _
    · exact hb

theorem prefetchLocked (hb : Backed m dev S) (h : MemInv m loose blocks regions)
    (hva : va % pageSize = 0) {envs : ℕ → Env} (hdrop : ∀ n, Drops m (envs n)) :
    Backed (m.prefetchLocked va envs).2.2 dev S := by
  simp only [Mem.prefetchLocked]
  split
  · exact hb
  · exact hb.prefetchLoop h hva hdrop _ _ _

theorem evictAllLocked (hb : Backed m dev S) (h : MemInv m loose blocks regions)
    (envs : ℕ → Env) (n : ℕ) : Backed (m.evictAllLocked envs n) dev S := by
  induction n generalizing m with
  | zero => exact hb
  | succ n ih =>
    simp only [Mem.evictAllLocked]
    split
    · exact hb
    · rename_i e rest hres
      obtain ⟨hva, hv, hin⟩ := h.clock.entry e (by simp [hres])
      have hb' := hb.evictLocked h hva hv hin (envs n)
      rcases h.evictLocked hva hv hin (envs n) with ⟨hr, -⟩ | ⟨pa, hr, hi⟩
      · split
        · rename_i heq
          rw [heq] at hb'
          exact hb'
        · rename_i heq
          simp [heq] at hr
      · split
        · rename_i heq
          simp [heq] at hr
        · rename_i heq
          rw [heq] at hr hi hb'
          simp only [Option.some.injEq] at hr
          subst hr
          exact ih (hb'.vram _) hi.freeFrame

theorem serveHostFault (hb : Backed m dev S) (h : MemInv m loose blocks regions)
    (hranges : ∀ e ∈ m.ranges.entries, e.1 ≤ e.2.stop ∧
      (⟨e.1, e.2.stop - e.1, e.2.host⟩ : Region) ∈ regions)
    {host : ℕ} (hhost : host % pageSize = 0) (env : Env) :
    Backed (m.serveHostFault host env) dev S := by
  simp only [Mem.serveHostFault]
  split
  · exact hb
  · rename_i va hva
    split_ifs with hk
    · obtain ⟨hmod, hv⟩ := h.vaForHost_managed hranges hhost hva
      obtain ⟨-, -, hin, -⟩ := Mmu.page_kind_vram hk
      have hb' := hb.evictLocked h hmod hv hin env
      split
      · rename_i heq
        rw [heq] at hb'
        exact hb'.vram _
      · rename_i heq
        rw [heq] at hb'
        exact hb'
    · exact hb

/-! ### Other writers -/

theorem foreign (hb : Backed m dev S) (h : MemInv m loose blocks regions) (hS : ¬S v)
    (hin : (m.mmu.pte v).inVram = true) (page : Page) :
    Backed { m with frames := Function.update m.frames (m.mmu.pte v).pa page } dev S where
  frame := by
    intro w hw hinw
    dsimp only at hinw ⊢
    rw [Function.update_of_ne]
    · exact hb.frame w hw hinw
    · intro heq
      exact hS (h.frame_inj hinw hin heq ▸ hw)
  host := hb.host
  clean := hb.clean
  dropped := hb.dropped

theorem hostStore (hb : Backed m dev S) (h : MemInv m loose blocks regions) (hS : ¬S v)
    (hv : m.mmu.vramPages ≤ v) (hp : (m.mmu.pte v).present = true) (page : Page) :
    Backed { m with hostMem := Function.update m.hostMem (m.mmu.host v) (some page) } dev S := by
  have hother : ∀ w, S w → m.mmu.vramPages ≤ w → (m.mmu.pte w).present = true →
      Function.update m.hostMem (m.mmu.host v) (some page) (m.mmu.host w) =
        m.hostMem (m.mmu.host w) := by
    intro w hw hge hpw
    exact Function.update_of_ne (fun heq => hS (h.host_inj hge hv hpw hp heq ▸ hw)) ..
  refine ⟨hb.frame, fun w hw hpw hinw => ?_, fun hu w hw hge hinw hd => ?_,
    fun hu w hw hge hinw => ?_⟩
  · have hge : m.mmu.vramPages ≤ w := by
      by_contra hlt
      rw [show (m.mmu.pte w).inVram = true from (h.table.ident w (by omega) hpw).1] at hinw
      cases hinw
    exact (hother w hw hge hpw).trans (hb.host w hw hpw hinw)
  · exact (hother w hw hge (h.table.valid w hinw)).trans (hb.clean hu w hw hge hinw hd)
  · exact (hother w hw hge (h.table.valid w hinw)).trans (hb.dropped hu w hw hge hinw)

end Backed

end SoftGpu
