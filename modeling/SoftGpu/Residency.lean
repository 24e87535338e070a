import SoftGpu.Managed
import SoftGpu.Accounting

/-!
# The frame ownership invariant of the memory state

`TableInv` says which pages the table maps: below the VRAM size exactly the
pages of the `sgMalloc` blocks, each to its own frame; above it exactly the
pages of the managed regions, each with its host page. `ClockInv` says that the
CLOCK list holds the managed pages in VRAM, once each, and that `resident_pos`
indexes it. `MemOwned` adds that the allocator accounts for the mapped `sgMalloc`
blocks, one page-sized block for every resident page, and the blocks in `loose`:
frames that an operation in progress holds and nothing maps. In `MemInv` these are
exactly its live blocks.

Each operation under `mem_lock` moves a block between these lists.
-/

namespace SoftGpu
open VramAllocator

structure Region where
  addr : ℕ
  size : ℕ
  host : ℕ
  deriving DecidableEq, Repr

def Region.contains (r : Region) (x : ℕ) : Prop := r.addr ≤ x ∧ x < r.addr + r.size

structure TableInv (mmu : Mmu) (blocks : List (ℕ × ℕ)) (regions : List Region) : Prop where
  room : mmu.vramPages ≤ mmu.npages
  low : ∀ v < mmu.vramPages, ((mmu.pte v).present = true ↔
    ∃ b ∈ blocks, b.1 ≤ v * pageSize ∧ v * pageSize < b.1 + b.2)
  ident : ∀ v < mmu.vramPages, (mmu.pte v).present = true →
    (mmu.pte v).inVram = true ∧ (mmu.pte v).pfn = v
  high : ∀ v, mmu.vramPages ≤ v → ((mmu.pte v).present = true ↔
    ∃ r ∈ regions, r.contains (v * pageSize))
  valid : ∀ v, (mmu.pte v).inVram = true → (mmu.pte v).present = true
  backing : ∀ v, ∀ r ∈ regions, r.contains (v * pageSize) →
    mmu.host v = r.host + (v * pageSize - r.addr)
  region : ∀ r ∈ regions, r.addr % pageSize = 0 ∧ r.size % pageSize = 0 ∧ 0 < r.size ∧
    mmu.vramPages * pageSize ≤ r.addr ∧ r.addr + r.size ≤ mmu.npages * pageSize ∧
    r.host % pageSize = 0 ∧ 0 < r.host
  vaOnce : ∀ x, coverage (regions.map fun r => (r.addr, r.size)) x ≤ 1
  hostOnce : ∀ x, coverage (regions.map fun r => (r.host, r.size)) x ≤ 1

structure ClockInv (m : Mem) : Prop where
  entry : ∀ e ∈ m.resident, e.2 % pageSize = 0 ∧ m.mmu.vramPages ≤ e.2 / pageSize ∧
    (m.mmu.pte (e.2 / pageSize)).inVram = true
  all : ∀ v, m.mmu.vramPages ≤ v → (m.mmu.pte v).inVram = true →
    v * pageSize ∈ m.resident.map Prod.snd
  vas : (m.resident.map Prod.snd).Nodup
  nodes : (m.resident.map Prod.fst).Nodup
  fresh : ∀ e ∈ m.resident, e.1 < m.nextNode
  pos : ∀ va n, m.residentPos va = some n ↔ (n, va) ∈ m.resident

def frameBlock (mmu : Mmu) (e : ℕ × ℕ) : ℕ × ℕ := ((mmu.pte (e.2 / pageSize)).pa, pageSize)

structure MemOwned (t : Tally) (stub : Option ℕ) (m : Mem) (loose blocks : List (ℕ × ℕ))
    (regions : List Region) : Prop where
  acc : Accounts t stub m.vram m.vramSize (loose ++ (blocks ++ m.resident.map (frameBlock m.mmu)))
  align : m.vram.align = pageSize
  table : TableInv m.mmu blocks regions
  clock : ClockInv m

abbrev MemInv := MemOwned .exact none

theorem MemInv.wf {m : Mem} {loose blocks : List (ℕ × ℕ)} {regions : List Region}
    (h : MemInv m loose blocks regions) : m.vram.WF 0 m.vramSize := Exact.wf h.acc

theorem MemInv.live {m : Mem} {loose blocks : List (ℕ × ℕ)} {regions : List Region}
    (h : MemInv m loose blocks regions) :
    m.vram.live.entries.Perm (loose ++ (blocks ++ m.resident.map (frameBlock m.mmu))) :=
  Exact.live h.acc

variable {t : Tally} {stub : Option ℕ} {m m' : Mem} {mmu mmu' : Mmu} {loose blocks : List (ℕ × ℕ)}
  {regions : List Region}
  {va pa v : ℕ} {env : Env}

theorem TableInv.same (h : TableInv mmu blocks regions) (hs : Mmu.Same mmu mmu') :
    TableInv mmu' blocks regions := by
  have hp := hs.present
  have hv := hs.inVram
  have hf := hs.pfn
  constructor
  case room => rw [hs.vramPages, hs.npages]; exact h.room
  case low => simpa only [hs.vramPages, hp] using h.low
  case ident => simpa only [hs.vramPages, hp, hv, hf] using h.ident
  case high => simpa only [hs.vramPages, hp] using h.high
  case valid => simpa only [hp, hv] using h.valid
  case backing => simpa only [hs.host] using h.backing
  case region => simpa only [hs.vramPages, hs.npages] using h.region
  case vaOnce => exact h.vaOnce
  case hostOnce => exact h.hostOnce

theorem MemOwned.same (h : MemOwned t stub m loose blocks regions) {l : List (ℕ × ℕ)}
    (hs : Mmu.Same m.mmu mmu') (hl : l.Perm m.resident) :
    MemOwned t stub { m with mmu := mmu', resident := l } loose blocks regions := by
  have hframe : frameBlock mmu' = frameBlock m.mmu := by
    funext e
    simp only [frameBlock, Pte.pa, hs.pfn]
  refine ⟨?_, h.align, h.table.same hs, ?_⟩
  · simp only [Mem.vramSize, hs.vramPages]
    refine h.acc.perm (.append_left _ (.append_left _ ?_))
    rw [hframe]
    exact (hl.map _).symm
  · constructor
    case entry =>
      intro e he
      simpa only [hs.vramPages, hs.inVram] using h.clock.entry e (hl.mem_iff.mp he)
    case all =>
      intro v hv hin
      dsimp only at hv hin ⊢
      rw [hs.vramPages] at hv
      rw [hs.inVram] at hin
      exact (hl.map Prod.snd).mem_iff.mpr (h.clock.all v hv hin)
    case vas => exact (hl.map Prod.snd).nodup_iff.mpr h.clock.vas
    case nodes => exact (hl.map Prod.fst).nodup_iff.mpr h.clock.nodes
    case fresh => exact fun e he => h.clock.fresh e (hl.mem_iff.mp he)
    case pos => exact fun va n => (h.clock.pos va n).trans hl.mem_iff.symm

namespace MemOwned

theorem bytes (h : MemOwned t stub m loose blocks regions) (frames : ℕ → Page)
    (hm : ℕ → Option Page) :
    MemOwned t stub { m with frames := frames, hostMem := hm } loose blocks regions :=
  ⟨h.acc, h.align, h.table, { h.clock with }⟩

theorem managed_page (h : MemOwned t stub m loose blocks regions) (hv : m.mmu.vramPages ≤ v)
    (hp : (m.mmu.pte v).present = true) : v < m.mmu.npages ∧ m.mmu.host v ≠ 0 := by
  obtain ⟨r, hr, hc⟩ := (h.table.high v hv).mp hp
  obtain ⟨-, -, -, -, hend, -, hhost⟩ := h.table.region r hr
  have hb := h.table.backing v r hr hc
  refine ⟨?_, by omega⟩
  have hlt : v * pageSize < m.mmu.npages * pageSize := hc.2.trans_le hend
  exact Nat.lt_of_mul_lt_mul_right hlt

theorem resident_frame (h : MemOwned t stub m loose blocks regions) {e : ℕ × ℕ}
    (he : e ∈ m.resident) :
    (m.mmu.pte (e.2 / pageSize)).pfn < m.mmu.vramPages := by
  have hr := h.acc.in_range (List.mem_append_right loose (List.mem_append_right blocks
    (List.mem_map_of_mem (f := frameBlock m.mmu) he)))
  simp only [frameBlock, Pte.pa, Mem.vramSize] at hr
  have hle : ((m.mmu.pte (e.2 / pageSize)).pfn + 1) * pageSize ≤ m.mmu.vramPages * pageSize := by
    rw [Nat.succ_mul]
    omega
  exact Nat.le_of_mul_le_mul_right hle pageSize_pos

theorem loose_page (h : MemOwned t stub m ((pa, pageSize) :: loose) blocks regions) :
    pa % pageSize = 0 ∧ pa < m.mmu.vramPages * pageSize := by
  have hdvd := (h.acc.block (b := (pa, pageSize)) (by simp)).1
  have hrange := h.acc.in_range (b := (pa, pageSize)) (by simp)
  have hpos := pageSize_pos
  rw [h.align] at hdvd
  simp only [Mem.vramSize] at hrange
  exact ⟨Nat.mod_eq_zero_of_dvd hdvd, by omega⟩

theorem resident_node (h : MemOwned t stub m loose blocks regions) (hva : va % pageSize = 0)
    (hv : m.mmu.vramPages ≤ va / pageSize) (hin : (m.mmu.pte (va / pageSize)).inVram = true) :
    ∃ n, (n, va) ∈ m.resident ∧ m.residentPos va = some n := by
  have hmem := h.clock.all _ hv hin
  rw [div_mul_pageSize hva, List.mem_map] at hmem
  obtain ⟨⟨n, w⟩, hn, rfl⟩ := hmem
  exact ⟨n, hn, (h.clock.pos w n).mpr hn⟩

end MemOwned

/-! ### Eviction -/

/-- Whatever the environment does, evicting a managed page in VRAM either leaves
everything but accessed and dirty bits alone, or makes the page host-resident,
forgets it and hands back its frame. The first happens only with userfaultfd and when
`UFFDIO_COPY` fails. In the second case the host page now holds the frame's bytes, unless the frame
was clean or, with userfaultfd, a host page was there. -/
theorem evictLocked_cases (h : MemOwned t stub m loose blocks regions) (hva : va % pageSize = 0)
    (hv : m.mmu.vramPages ≤ va / pageSize) (hin : (m.mmu.pte (va / pageSize)).inVram = true)
    (env : Env) :
    (∃ mmu', (m.uffd = true ∧ env.copyError ≠ none) ∧ Mmu.Same m.mmu mmu' ∧
      m.evictLocked va env = (none, { m with mmu := mmu' })) ∨
    (∃ hm, (hm = m.hostMem ∧ (m.uffd = false ∧ (m.mmu.pte (va / pageSize)).dirty = false ∨
          m.uffd = true ∧ m.hostMem (m.mmu.host (va / pageSize)) ≠ none) ∨
        hm = Function.update m.hostMem (m.mmu.host (va / pageSize))
          (some (m.frames (m.mmu.pte (va / pageSize)).pa))) ∧
      m.evictLocked va env = (some (m.mmu.pte (va / pageSize)).pa,
        ({ m with mmu := m.mmu.setPte (va / pageSize) .hostResident, hostMem := hm } :
          Mem).forgetResident va)) := by
  have hp := h.table.valid _ hin
  obtain ⟨hn, hhost⟩ := h.managed_page hv hp
  obtain ⟨n, hmem, -⟩ := h.resident_node hva hv hin
  have hf := h.resident_frame hmem
  set old := m.mmu.pte (va / pageSize)
  set mmu₁ : Mmu := m.mmu.setPte (va / pageSize) .hostResident
  have hev : ∀ r, ({ m with mmu := mmu₁ } : Mem).publishHost (m.mmu.host (va / pageSize)) old.pa
        (old.dirty || env.lateDirty) env = r → m.evictLocked va env =
      r.casesOn
        (fun _ => (none, { m with mmu := (mmu₁.makeResident va old.pa).toOption.getD mmu₁ }))
        (fun m'' => (some old.pa, m''.forgetResident va)) := by
    intro r hr
    simp only [Mem.evictLocked, Mmu.page_vram hn hp hin, Mmu.beginEvict_eq hn hp hin,
      Mmu.endEvict_late hn]
    rw [if_neg (by simp [show (m.mmu.pte (va / pageSize)).inVram = true from hin, hhost]), hr]
    cases r <;> rfl
  -- The rollback maps the page to the frame it had.
  have hback : (mmu₁.makeResident va old.pa).toOption.getD mmu₁ =
      m.mmu.setPte (va / pageSize) (.inFrame old.pfn true) := by
    rw [Mmu.makeResident_eq (m := mmu₁) hva (Pte.pa_mod old) hn (by simpa [mmu₁] using hf)
      (by simp [mmu₁, Pte.hostResident]) (by simp [mmu₁, Pte.hostResident])]
    simp [mmu₁, Except.toOption]
  have hsame : Mmu.Same m.mmu (m.mmu.setPte (va / pageSize) (.inFrame old.pfn true)) :=
    .update hp.symm hin.symm rfl
  have hgood : ∀ host ≠ 0, ({ m with mmu := mmu₁ } : Mem).badFrame old.pa host = false := by
    intro host hne
    have hlt : old.pa < m.mmu.vramPages * pageSize :=
      Nat.mul_lt_mul_of_pos_right hf pageSize_pos
    simp [Mem.badFrame, Mem.vramSize, mmu₁, hne, hlt]
  cases hpub : ({ m with mmu := mmu₁ } : Mem).publishHost (m.mmu.host (va / pageSize)) old.pa
      (old.dirty || env.lateDirty) env with
  | error e =>
    rw [hev _ hpub]
    have huffd : m.uffd = true := by
      by_contra hoff
      rw [Mem.publishHost, if_pos (Bool.eq_false_of_not_eq_true hoff), hgood _ hhost,
        if_neg Bool.false_ne_true] at hpub
      split at hpub <;> cases hpub
    have hcopy : env.copyError ≠ none := by
      intro hnone
      rw [Mem.publishHost, if_neg (by simp [huffd]), hgood 1 (by decide),
        if_neg Bool.false_ne_true, hnone] at hpub
      dsimp only at hpub
      split at hpub <;> cases hpub
    exact .inl ⟨_, ⟨huffd, hcopy⟩, hsame, by simp only [hback]⟩
  | ok m'' =>
    rw [hev _ hpub]
    right
    simp only [Mem.publishHost, hgood _ hhost, hgood 1 (by decide), Bool.false_eq_true,
      if_false] at hpub
    split_ifs at hpub with h₁ h₂
    · rw [Except.ok.injEq] at hpub
      have hclean : old.dirty = false := (Bool.or_eq_false_iff.mp h₂).1
      exact ⟨_, .inl ⟨rfl, .inl ⟨h₁, hclean⟩⟩, by rw [← hpub]⟩
    · rw [Except.ok.injEq] at hpub
      exact ⟨_, .inr rfl, by rw [← hpub]⟩
    · split at hpub
      · simp at hpub
      · split at hpub <;> rw [Except.ok.injEq] at hpub
        · rename_i hthere
          have hsome : m.hostMem (m.mmu.host (va / pageSize)) ≠ none := by
            intro hnone
            rw [hnone] at hthere
            cases hthere
          exact ⟨_, .inl ⟨rfl, .inr ⟨by simpa using h₁, hsome⟩⟩, by rw [← hpub]⟩
        · exact ⟨_, .inr rfl, by rw [← hpub]⟩

theorem TableInv.setHigh (h : TableInv mmu blocks regions) (hv : mmu.vramPages ≤ v)
    (hp : (mmu.pte v).present = true) {p : Pte} (hpp : p.present = true) :
    TableInv (mmu.setPte v p) blocks regions := by
  have hpres : ∀ w, ((mmu.setPte v p).pte w).present = (mmu.pte w).present :=
    (Function.forall_update_iff mmu.pte fun w q => q.present = (mmu.pte w).present).mpr
      ⟨hpp.trans hp.symm, fun _ _ => rfl⟩
  have hlow : ∀ w < mmu.vramPages, (mmu.setPte v p).pte w = mmu.pte w := fun w hw =>
    Function.update_of_ne (by omega) _ _
  constructor
  case room => exact h.room
  case low => simpa only [hpres, Mmu.setPte_vramPages] using h.low
  case ident =>
    intro w hw
    rw [hlow w hw]
    exact h.ident w hw
  case high => simpa only [hpres, Mmu.setPte_vramPages] using h.high
  case valid =>
    rw [Mmu.setPte_pte,
      Function.forall_update_iff mmu.pte fun _ q => q.inVram = true → q.present = true]
    exact ⟨fun _ => hpp, fun w _ => h.valid w⟩
  case backing => exact h.backing
  case region => exact h.region
  case vaOnce => exact h.vaOnce
  case hostOnce => exact h.hostOnce

theorem perm_cons_filter_fst {l : List (ℕ × ℕ)} (hl : (l.map Prod.fst).Nodup) {e : ℕ × ℕ}
    (he : e ∈ l) : l.Perm (e :: l.filter fun d => d.1 ≠ e.1) := by
  rw [List.perm_ext_iff_of_nodup hl.of_map]
  · intro d
    simp only [List.mem_cons, List.mem_filter, decide_eq_true_eq]
    constructor
    · intro hd
      by_cases hk : d.1 = e.1
      · exact .inl (List.inj_on_of_nodup_map hl hd he hk)
      · exact .inr ⟨hd, hk⟩
    · rintro (rfl | hd)
      · exact he
      · exact hd.1
  · simpa using hl.of_map.filter _

namespace MemOwned

theorem resident_vpn (h : MemOwned t stub m loose blocks regions) {d e : ℕ × ℕ}
    (hd : d ∈ m.resident)
    (he : e ∈ m.resident) (hv : d.2 / pageSize = e.2 / pageSize) : d = e := by
  apply List.inj_on_of_nodup_map h.clock.vas hd he
  rw [← div_mul_pageSize (h.clock.entry d hd).1, ← div_mul_pageSize (h.clock.entry e he).1, hv]

theorem evicted (h : MemOwned t stub m loose blocks regions) (hva : va % pageSize = 0)
    (hv : m.mmu.vramPages ≤ va / pageSize) (hin : (m.mmu.pte (va / pageSize)).inVram = true)
    (hm : ℕ → Option Page) :
    MemOwned t stub (({ m with mmu := m.mmu.setPte (va / pageSize) .hostResident, hostMem := hm } :
      Mem).forgetResident va) (((m.mmu.pte (va / pageSize)).pa, pageSize) :: loose)
        blocks regions := by
  obtain ⟨n, hmem, hpos⟩ := h.resident_node hva hv hin
  have hperm := perm_cons_filter_fst h.clock.nodes hmem
  set l := m.resident.filter fun d => d.1 ≠ n
  have hsub : ∀ e ∈ l, e ∈ m.resident ∧ e.1 ≠ n := by
    intro e he
    simpa [l] using he
  -- The other resident pages keep their entries.
  have hother : ∀ e ∈ l, e.2 / pageSize ≠ va / pageSize := by
    intro e he heq
    have := h.resident_vpn (hsub e he).1 hmem heq
    exact (hsub e he).2 (by rw [this])
  have hpte : ∀ e ∈ l, (m.mmu.setPte (va / pageSize) .hostResident).pte (e.2 / pageSize) =
      m.mmu.pte (e.2 / pageSize) := fun e he => Function.update_of_ne (hother e he) _ _
  have hforget : ({ m with mmu := m.mmu.setPte (va / pageSize) .hostResident, hostMem := hm } :
      Mem).forgetResident va = { m with
        mmu := m.mmu.setPte (va / pageSize) .hostResident
        hostMem := hm
        resident := l
        residentPos := Function.update m.residentPos va none } := by
    simp only [Mem.forgetResident, hpos, l]
  rw [hforget]
  refine ⟨h.acc.perm ?_, h.align, h.table.setHigh hv (h.table.valid _ hin) rfl, ?_⟩
  · have hframes : l.map (frameBlock (m.mmu.setPte (va / pageSize) .hostResident)) =
        l.map (frameBlock m.mmu) := by
      apply List.map_congr_left
      intro e he
      simp only [frameBlock, hpte e he]
    dsimp only
    rw [hframes]
    have hp := (hperm.map (frameBlock m.mmu)).append_left blocks |>.append_left loose
    refine hp.trans ?_
    rw [List.map_cons, List.cons_append]
    refine List.Perm.trans ?_ List.perm_middle
    exact List.perm_middle.append_left loose
  · constructor
    case entry =>
      intro e he
      have hold := h.clock.entry e (hsub e he).1
      dsimp only
      rw [hpte e he]
      exact hold
    case all =>
      intro w hw hwin
      have hne : w ≠ va / pageSize := by
        rintro rfl
        simp [Pte.hostResident] at hwin
      simp only [Mmu.setPte_pte, Function.update_of_ne hne] at hwin
      have hmw := (hperm.map Prod.snd).mem_iff.mp (h.clock.all w hw hwin)
      rcases List.mem_cons.mp hmw with heq | hmw
      · dsimp only at heq
        exact absurd (by rw [← heq, mul_div_pageSize]) hne
      · exact hmw
    case vas => exact (List.nodup_cons.mp ((hperm.map Prod.snd).nodup_iff.mp h.clock.vas)).2
    case nodes => exact (List.nodup_cons.mp ((hperm.map Prod.fst).nodup_iff.mp h.clock.nodes)).2
    case fresh => exact fun e he => h.clock.fresh e (hsub e he).1
    case pos =>
      intro w k
      dsimp only
      by_cases hw : w = va
      · subst hw
        simp only [Function.update_self, reduceCtorEq, false_iff]
        exact fun hk => hother _ hk rfl
      · rw [Function.update_of_ne hw, h.clock.pos w k]
        refine ⟨fun hk => ?_, fun hk => (hsub _ hk).1⟩
        rcases List.mem_cons.mp (hperm.mem_iff.mp hk) with heq | hk
        · exact absurd (congrArg Prod.snd heq) hw
        · exact hk

theorem evictLocked (h : MemOwned t stub m loose blocks regions) (hva : va % pageSize = 0)
    (hv : m.mmu.vramPages ≤ va / pageSize) (hin : (m.mmu.pte (va / pageSize)).inVram = true)
    (env : Env) :
    (m.evictLocked va env).1 = none ∧
      MemOwned t stub (m.evictLocked va env).2 loose blocks regions ∨
    ∃ pa, (m.evictLocked va env).1 = some pa ∧
      MemOwned t stub (m.evictLocked va env).2 ((pa, pageSize) :: loose) blocks regions := by
  rcases evictLocked_cases h hva hv hin env with ⟨mmu', -, hs, he⟩ | ⟨hm, -, he⟩
  · rw [he]
    exact .inl ⟨rfl, h.same hs (.refl _)⟩
  · rw [he]
    exact .inr ⟨_, rfl, h.evicted hva hv hin hm⟩

theorem passHand (h : MemOwned t stub m loose blocks regions) (ref : ℕ → Bool) (n : ℕ) :
    MemOwned t stub (m.passHand ref n) loose blocks regions := by
  induction n generalizing m with
  | zero => exact h
  | succ n ih =>
    simp only [Mem.passHand]
    split
    · exact h
    · rename_i e rest hres
      have hs := (Mmu.orFlags_same m.mmu e.2 false (ref n)).trans
        (Mmu.testAndClearAccessed_same _ e.2)
      split_ifs
      · apply ih
        apply h.same hs
        rw [hres]
        exact List.perm_append_singleton e rest
      · exact h.same hs (.refl _)

theorem evictOneLocked (h : MemOwned t stub m loose blocks regions) (env : Env) :
    (m.evictOneLocked env).1 = none ∧
      MemOwned t stub (m.evictOneLocked env).2 loose blocks regions ∨
    ∃ pa, (m.evictOneLocked env).1 = some pa ∧
      MemOwned t stub (m.evictOneLocked env).2 ((pa, pageSize) :: loose) blocks regions := by
  have hp := h.passHand env.referenced m.resident.length
  simp only [Mem.evictOneLocked]
  split
  · exact .inl ⟨rfl, hp⟩
  · rename_i e rest hres
    obtain ⟨hva, hv, hin⟩ := hp.clock.entry e (by simp [hres])
    exact hp.evictLocked hva hv hin env

/-! ### Frames in and out of the allocator -/

theorem allocFrame (h : MemOwned t stub m loose blocks regions) {bytes : ℕ}
    (hs : m.allocFrame bytes = some (pa, m')) (hneed : 0 < roundUp pageSize bytes) :
    MemOwned t stub m' ((pa, roundUp pageSize bytes) :: loose) blocks regions := by
  simp only [Mem.allocFrame, Option.map_eq_some_iff] at hs
  obtain ⟨⟨a, vram⟩, hal, heq⟩ := hs
  rw [Prod.mk.injEq] at heq
  obtain ⟨rfl, rfl⟩ := heq
  rw [← h.align] at hneed ⊢
  exact ⟨h.acc.alloc hal hneed, (alloc_align hal).trans h.align, h.table, { h.clock with }⟩

theorem freeFrame (h : MemOwned t stub m ((pa, v) :: loose) blocks regions) :
    MemOwned t stub (m.freeFrame pa) loose blocks regions := by
  exact ⟨h.acc.freeAddr, (freeAddr_align _ _).trans h.align, h.table, { h.clock with }⟩

theorem freeStub (h : MemOwned t (some pa) m loose blocks regions) :
    MemOwned t none (m.freeFrame pa) loose blocks regions :=
  ⟨h.acc.stub_free, (freeAddr_align _ _).trans h.align, h.table, { h.clock with }⟩

theorem allocStub (h : MemOwned .once none m loose blocks regions) {bytes : ℕ}
    (hs : m.allocFrame bytes = some (pa, m')) (hzero : roundUp pageSize bytes = 0) :
    MemOwned .once (some pa) m' loose blocks regions := by
  simp only [Mem.allocFrame, Option.map_eq_some_iff] at hs
  obtain ⟨⟨a, vram⟩, hal, heq⟩ := hs
  rw [Prod.mk.injEq] at heq
  obtain ⟨rfl, rfl⟩ := heq
  rw [← h.align] at hzero
  exact ⟨Once.stub_alloc h.acc hal hzero, (alloc_align hal).trans h.align,
    h.table, { h.clock with }⟩

theorem evictAllLocked (h : MemOwned t stub m loose blocks regions) (envs : ℕ → Env) (n : ℕ) :
    MemOwned t stub (m.evictAllLocked envs n) loose blocks regions := by
  induction n generalizing m with
  | zero => exact h
  | succ n ih =>
    simp only [Mem.evictAllLocked]
    split
    · exact h
    · rename_i e rest hres
      obtain ⟨hva, hv, hin⟩ := h.clock.entry e (by simp [hres])
      rcases h.evictLocked hva hv hin (envs n) with ⟨hr, hi⟩ | ⟨pa, hr, hi⟩
      · split
        · rename_i heq
          rw [heq] at hi
          exact hi
        · rename_i heq
          simp [heq] at hr
      · split
        · rename_i heq
          simp [heq] at hr
        · rename_i heq
          rw [heq] at hr hi
          simp only [Option.some.injEq] at hr
          subst hr
          exact ih hi.freeFrame

theorem takeFrame (h : MemOwned t stub m loose blocks regions) (env : Env) :
    (m.takeFrame env).1 = none ∧ MemOwned t stub (m.takeFrame env).2 loose blocks regions ∨
    ∃ pa, (m.takeFrame env).1 = some pa ∧
      MemOwned t stub (m.takeFrame env).2 ((pa, pageSize) :: loose) blocks regions := by
  simp only [Mem.takeFrame]
  split
  · rename_i pa m' hal
    have hround : roundUp pageSize pageSize = pageSize := by simp [roundUp, pageSize]
    have hi := h.allocFrame hal (by rw [hround]; exact pageSize_pos)
    rw [hround] at hi
    exact .inr ⟨pa, rfl, hi⟩
  · exact h.evictOneLocked env

end MemOwned

/-! ### What eviction does to the data -/

structure Evicts (m m' : Mem) : Prop where
  uffd : m'.uffd = m.uffd
  npages : m'.mmu.npages = m.mmu.npages
  vramPages : m'.mmu.vramPages = m.mmu.vramPages
  host : m'.mmu.host = m.mmu.host
  ranges : m'.ranges = m.ranges
  prefetchPages : m'.prefetchPages = m.prefetchPages
  frames : m'.frames = m.frames
  present : ∀ w, (m'.mmu.pte w).present = (m.mmu.pte w).present
  inVram : ∀ w, (m'.mmu.pte w).inVram = true →
    (m.mmu.pte w).inVram = true ∧ (m'.mmu.pte w).pfn = (m.mmu.pte w).pfn
  hostMem : ∀ x, m'.hostMem x = m.hostMem x ∨ ∃ w, m.mmu.vramPages ≤ w ∧
    (m.mmu.pte w).inVram = true ∧ m.mmu.host w = x ∧
    m'.hostMem x = some (m.frames (m.mmu.pte w).pa)

namespace Evicts

theorem refl (m : Mem) : Evicts m m :=
  ⟨rfl, rfl, rfl, rfl, rfl, rfl, rfl, fun _ => rfl, fun _ h => ⟨h, rfl⟩, fun _ => .inl rfl⟩

theorem trans {m₁ m₂ m₃ : Mem} (h : Evicts m₁ m₂) (h' : Evicts m₂ m₃) : Evicts m₁ m₃ where
  uffd := h'.uffd.trans h.uffd
  npages := h'.npages.trans h.npages
  vramPages := h'.vramPages.trans h.vramPages
  host := h'.host.trans h.host
  ranges := h'.ranges.trans h.ranges
  prefetchPages := h'.prefetchPages.trans h.prefetchPages
  frames := h'.frames.trans h.frames
  present := fun w => (h'.present w).trans (h.present w)
  inVram := by
    intro w hw
    obtain ⟨h₂, hf₂⟩ := h'.inVram w hw
    obtain ⟨h₁, hf₁⟩ := h.inVram w h₂
    exact ⟨h₁, hf₂.trans hf₁⟩
  hostMem := by
    intro x
    rcases h'.hostMem x with heq | ⟨w, hv, hin, hx, heq⟩
    · rw [heq]
      exact h.hostMem x
    · obtain ⟨hin₁, hf₁⟩ := h.inVram w hin
      refine .inr ⟨w, h.vramPages ▸ hv, hin₁, h.host ▸ hx, ?_⟩
      rw [heq, h.frames, Pte.pa, hf₁, Pte.pa]

theorem of_same {l : List (ℕ × ℕ)} (hs : Mmu.Same m.mmu mmu') :
    Evicts m { m with mmu := mmu', resident := l } where
  uffd := rfl
  npages := hs.npages
  vramPages := hs.vramPages
  host := hs.host
  ranges := rfl
  prefetchPages := rfl
  frames := rfl
  present := hs.present
  inVram := fun w hw => ⟨(hs.inVram w) ▸ hw, hs.pfn w⟩
  hostMem := fun _ => .inl rfl

theorem of_vram (vram : VramAllocator) : Evicts m { m with vram := vram } :=
  ⟨rfl, rfl, rfl, rfl, rfl, rfl, rfl, fun _ => rfl, fun _ h => ⟨h, rfl⟩, fun _ => .inl rfl⟩

end Evicts

namespace MemOwned

theorem evictLocked_effect (h : MemOwned t stub m loose blocks regions) (hva : va % pageSize = 0)
    (hv : m.mmu.vramPages ≤ va / pageSize) (hin : (m.mmu.pte (va / pageSize)).inVram = true)
    (env : Env) : Evicts m (m.evictLocked va env).2 := by
  have hp := h.table.valid _ hin
  obtain ⟨n, -, hpos⟩ := h.resident_node hva hv hin
  rcases evictLocked_cases h hva hv hin env with ⟨mmu', -, hs, he⟩ | ⟨hm, hhm, he⟩
  · rw [he]
    exact .of_same hs
  · rw [he]
    simp only [Mem.forgetResident, hpos]
    refine ⟨rfl, rfl, rfl, rfl, rfl, rfl, rfl, ?_, ?_, ?_⟩
    · exact (Function.forall_update_iff m.mmu.pte fun w q => q.present = (m.mmu.pte w).present).mpr
        ⟨hp.symm, fun _ _ => rfl⟩
    · exact (Function.forall_update_iff m.mmu.pte fun w q => q.inVram = true →
        (m.mmu.pte w).inVram = true ∧ q.pfn = (m.mmu.pte w).pfn).mpr
        ⟨by simp [Pte.hostResident], fun _ _ h => ⟨h, rfl⟩⟩
    · intro x
      rcases hhm with ⟨rfl, -⟩ | rfl
      · exact .inl rfl
      · by_cases hx : x = m.mmu.host (va / pageSize)
        · exact .inr ⟨_, hv, hin, hx.symm, by simp [hx]⟩
        · exact .inl (Function.update_of_ne hx _ _)

theorem passHand_effect (m : Mem) (ref : ℕ → Bool) (n : ℕ) : Evicts m (m.passHand ref n) := by
  induction n generalizing m with
  | zero => exact .refl m
  | succ n ih =>
    simp only [Mem.passHand]
    split
    · exact .refl m
    · rename_i e rest _
      have hs := (Mmu.orFlags_same m.mmu e.2 false (ref n)).trans
        (Mmu.testAndClearAccessed_same _ e.2)
      split_ifs
      · exact (Evicts.of_same hs).trans (ih _)
      · exact .of_same hs

theorem evictOneLocked_effect (h : MemOwned t stub m loose blocks regions) (env : Env) :
    Evicts m (m.evictOneLocked env).2 := by
  have hp := h.passHand env.referenced m.resident.length
  have he := passHand_effect m env.referenced m.resident.length
  simp only [Mem.evictOneLocked]
  split
  · exact he
  · rename_i e rest hres
    obtain ⟨hva, hv, hin⟩ := hp.clock.entry e (by simp [hres])
    exact he.trans (hp.evictLocked_effect hva hv hin env)

theorem takeFrame_effect (h : MemOwned t stub m loose blocks regions) (env : Env) :
    Evicts m (m.takeFrame env).2 := by
  simp only [Mem.takeFrame]
  split
  · rename_i pa m' hal
    simp only [Mem.allocFrame, Option.map_eq_some_iff, Prod.mk.injEq] at hal
    obtain ⟨r, -, -, rfl⟩ := hal
    exact .of_vram _
  · exact h.evictOneLocked_effect env

theorem evictAllLocked_effect (h : MemOwned t stub m loose blocks regions)
    (envs : ℕ → Env) (n : ℕ) :
    Evicts m (m.evictAllLocked envs n) := by
  induction n generalizing m with
  | zero => exact .refl m
  | succ n ih =>
    simp only [Mem.evictAllLocked]
    split
    · exact .refl m
    · rename_i e rest hres
      obtain ⟨hva, hv, hin⟩ := h.clock.entry e (by simp [hres])
      have he := h.evictLocked_effect hva hv hin (envs n)
      rcases h.evictLocked hva hv hin (envs n) with ⟨hr, hi⟩ | ⟨pa, hr, hi⟩
      · split
        · rename_i heq
          rw [heq] at he
          exact he
        · rename_i heq
          simp [heq] at hr
      · split
        · rename_i heq
          simp [heq] at hr
        · rename_i heq
          rw [heq] at hr hi he
          simp only [Option.some.injEq] at hr
          subst hr
          exact (he.trans (.of_vram _)).trans (ih hi.freeFrame)

end MemOwned

/-! ### Migration -/

def Mem.installed (m : Mem) (va frame host : ℕ) (env : Env) : Mem :=
  { m with
    mmu := m.mmu.setPte (va / pageSize) (.inFrame (frame / pageSize) true)
    frames := Function.update m.frames frame ((m.hostMem host).getD .zero)
    hostMem :=
      if m.uffd && !env.madviseFails then Function.update m.hostMem host none else m.hostMem
    resident := m.resident ++ [(m.nextNode, va)]
    residentPos := Function.update m.residentPos va (some m.nextNode)
    nextNode := m.nextNode + 1 }

namespace MemOwned

theorem installed (h : MemOwned t stub m ((pa, pageSize) :: loose) blocks regions)
    (hva : va % pageSize = 0)
    (hv : m.mmu.vramPages ≤ va / pageSize) (hp : (m.mmu.pte (va / pageSize)).present = true)
    (hin : (m.mmu.pte (va / pageSize)).inVram = false) (host : ℕ) (env : Env) :
    MemOwned t stub (m.installed va pa host env) loose blocks regions := by
  have hpa := Nat.dvd_of_mod_eq_zero h.loose_page.1
  have hnew : ∀ e ∈ m.resident, e.2 / pageSize ≠ va / pageSize := by
    intro e he heq
    have := (h.clock.entry e he).2.2
    rw [heq, hin] at this
    simp at this
  have hpte : ∀ e ∈ m.resident, (m.mmu.setPte (va / pageSize)
      (.inFrame (pa / pageSize) true)).pte (e.2 / pageSize) = m.mmu.pte (e.2 / pageSize) :=
    fun e he => Function.update_of_ne (hnew e he) _ _
  refine ⟨h.acc.perm ?_, h.align, h.table.setHigh hv hp rfl, ?_⟩
  · have hold : m.resident.map (frameBlock (m.mmu.setPte (va / pageSize)
        (.inFrame (pa / pageSize) true))) = m.resident.map (frameBlock m.mmu) := by
      apply List.map_congr_left
      intro e he
      simp only [frameBlock, hpte e he]
    have hblock : frameBlock (m.mmu.setPte (va / pageSize) (.inFrame (pa / pageSize) true))
        (m.nextNode, va) = (pa, pageSize) := by
      simp [frameBlock, Pte.inFrame, Pte.pa, Nat.div_mul_cancel hpa]
    simp only [Mem.installed, List.map_append, List.map_cons, List.map_nil, hold, hblock]
    rw [List.cons_append, ← List.append_assoc, ← List.append_assoc, ← List.append_assoc]
    exact (List.perm_append_singleton _ _).symm
  · constructor
    case entry =>
      intro e he
      rcases List.mem_append.mp he with he | he
      · simp only [Mem.installed]
        rw [hpte e he]
        exact h.clock.entry e he
      · rw [List.mem_singleton.mp he]
        exact ⟨hva, hv, by simp [Mem.installed, Pte.inFrame]⟩
    case all =>
      intro w hw hwin
      simp only [Mem.installed, List.map_append, List.map_cons, List.map_nil, List.mem_append,
        List.mem_singleton]
      by_cases hwv : w = va / pageSize
      · exact .inr (by rw [hwv, div_mul_pageSize hva])
      · simp only [Mem.installed, Mmu.setPte_pte, Function.update_of_ne hwv] at hwin
        exact .inl (h.clock.all w hw hwin)
    case vas =>
      simp only [Mem.installed, List.map_append, List.map_cons, List.map_nil]
      refine h.clock.vas.append (List.nodup_singleton va) ?_
      simp only [List.disjoint_singleton, List.mem_map, not_exists, not_and]
      exact fun e he heq => hnew e he (by rw [heq])
    case nodes =>
      simp only [Mem.installed, List.map_append, List.map_cons, List.map_nil]
      refine h.clock.nodes.append (List.nodup_singleton _) ?_
      simp only [List.disjoint_singleton, List.mem_map, not_exists, not_and]
      intro e he heq
      have := h.clock.fresh e he
      omega
    case fresh =>
      intro e he
      rcases List.mem_append.mp he with he | he
      · exact (h.clock.fresh e he).trans (Nat.lt_succ_self _)
      · rw [List.mem_singleton.mp he]
        exact Nat.lt_succ_self _
    case pos =>
      intro w k
      simp only [Mem.installed, List.mem_append, List.mem_singleton, Prod.mk.injEq]
      by_cases hw : w = va
      · subst hw
        simp only [Function.update_self, Option.some.injEq, and_true]
        refine ⟨fun hk => .inr hk.symm, fun hk => ?_⟩
        rcases hk with hk | hk
        · exact absurd rfl (hnew _ hk)
        · exact hk.symm
      · simp only [Function.update_of_ne hw, hw, and_false, or_false]
        exact h.clock.pos w k

/-- One migration: an error, a page that is there already, or a page brought into
a frame that was free or has just been evicted. -/
theorem migrateLocked_cases (h : MemOwned t stub m loose blocks regions) (hva : va % pageSize = 0)
    (env : Env) :
    ((m.migrateLocked va env).1 ≠ .ok true ∧ Evicts m (m.migrateLocked va env).2 ∧
      MemOwned t stub (m.migrateLocked va env).2 loose blocks regions ∧
      ((m.migrateLocked va env).2 = m ∧ (m.mmu.page va).kind ≠ .host ∨
        (m.migrateLocked va env).2 = (m.takeFrame env).2 ∧ (m.takeFrame env).1 = none)) ∨
    ∃ m₁ frame, m₁ = (m.takeFrame env).2 ∧ Evicts m m₁ ∧
    MemOwned t stub m₁ ((frame, pageSize) :: loose) blocks regions ∧
      m.mmu.vramPages ≤ va / pageSize ∧ (m.mmu.pte (va / pageSize)).present = true ∧
      (m.mmu.pte (va / pageSize)).inVram = false ∧
      m.migrateLocked va env =
        (.ok true, m₁.installed va frame (m.mmu.host (va / pageSize)) env) := by
  cases hk : (m.mmu.page va).kind with
  | vram =>
    simp only [Mem.migrateLocked, hk]
    exact .inl ⟨by simp, .refl m, h, .inl ⟨trivial, by simp⟩⟩
  | absent =>
    simp only [Mem.migrateLocked, hk]
    exact .inl ⟨by simp, .refl m, h, .inl ⟨trivial, by simp⟩⟩
  | host =>
    obtain ⟨hn, hp, hin, hhost⟩ := Mmu.page_kind_host hk
    have hv : m.mmu.vramPages ≤ va / pageSize := by
      by_contra hlt
      have := (h.table.ident _ (by omega) hp).1
      simp [hin] at this
    have hne := (h.managed_page hv hp).2
    have heff := h.takeFrame_effect env
    rcases h.takeFrame env with ⟨hr, hi⟩ | ⟨frame, hr, hi⟩
    · simp only [Mem.migrateLocked, hk, hhost, if_neg hne]
      rw [show m.takeFrame env = (none, (m.takeFrame env).2) from Prod.ext hr rfl]
      exact .inl ⟨by simp, heff, hi, .inr ⟨rfl, rfl⟩⟩
    · set m₁ := (m.takeFrame env).2
      obtain ⟨hmod, hlt⟩ := hi.loose_page
      have hbad : m₁.badFrame frame (m.mmu.host (va / pageSize)) = false := by
        simp [Mem.badFrame, hmod, hne, Mem.vramSize, hlt]
      have hp₁ : (m₁.mmu.pte (va / pageSize)).present = true := by rw [heff.present, hp]
      have hin₁ : (m₁.mmu.pte (va / pageSize)).inVram = false := by
        by_contra hc
        have := (heff.inVram _ (by simpa using hc)).1
        simp [hin] at this
      have hf : frame / pageSize < m₁.mmu.vramPages := Nat.div_lt_of_lt_mul (by rwa [Nat.mul_comm])
      refine .inr ⟨m₁, frame, rfl, heff, hi, hv, hp, hin, ?_⟩
      simp only [Mem.migrateLocked, hk, hhost, if_neg hne]
      rw [show m.takeFrame env = (some frame, m₁) from Prod.ext hr rfl]
      simp only [Mem.copyIn, hbad, Bool.false_eq_true, if_false, Mem.install]
      rw [Mmu.makeResident_eq (m := m₁.mmu) hva hmod (heff.npages ▸ hn) hf hp₁ hin₁]
      rfl

theorem migrateLocked (h : MemOwned t stub m loose blocks regions)
    (hva : va % pageSize = 0) (env : Env) :
    MemOwned t stub (m.migrateLocked va env).2 loose blocks regions := by
  rcases h.migrateLocked_cases hva env with ⟨-, -, hi, -⟩ | ⟨m₁, frame, -,
    heff, hi, hv, hp, hin, he⟩
  · exact hi
  · rw [he]
    refine hi.installed hva (heff.vramPages ▸ hv) (by rw [heff.present, hp]) ?_ _ env
    by_contra hc
    have := (heff.inVram _ (by simpa using hc)).1
    simp [hin] at this

theorem prefetchLoop (h : MemOwned t stub m loose blocks regions) (hva : va % pageSize = 0)
    (envs : ℕ → Env) (stop n : ℕ) (moved : List ℕ) :
    MemOwned t stub (Mem.prefetchLoop envs stop n va m moved).2.2 loose blocks regions := by
  induction n generalizing m va moved with
  | zero => exact h
  | succ n ih =>
    have hi := h.migrateLocked hva (envs n)
    simp only [Mem.prefetchLoop]
    split_ifs
    · split
      · rename_i heq
        rw [heq] at hi
        exact hi
      · rename_i heq
        rw [heq] at hi
        exact ih hi (by simp [hva]) _
    · exact h

theorem prefetchLocked (h : MemOwned t stub m loose blocks regions) (hva : va % pageSize = 0)
    (envs : ℕ → Env) : MemOwned t stub (m.prefetchLocked va envs).2.2 loose blocks regions := by
  simp only [Mem.prefetchLocked]
  split
  · exact h
  · exact h.prefetchLoop hva envs _ _ _

end MemOwned

end SoftGpu
