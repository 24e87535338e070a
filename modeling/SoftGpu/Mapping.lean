import SoftGpu.Residency

/-!
# Mapping, unmapping and recycling

`SG_IOC_ALLOC` maps a block it has just taken, `SG_IOC_ALLOC_MANAGED` maps a
managed range over fresh host memory, and `recycle` undoes either. In terms of
`MemInv`, a block moves between `loose` and `blocks`, and a region enters or
leaves `regions`.
-/

namespace SoftGpu
open VramAllocator

variable {t : Tally} {stub : Option ℕ} {m m' : Mem} {mmu mmu' : Mmu} {loose blocks : List (ℕ × ℕ)}
  {regions : List Region}
  {r : Region} {va pa v n : ℕ} {env : Env}

theorem Region.contains_page (ha : r.addr % pageSize = 0) (hs : r.size % pageSize = 0) :
    r.contains (v * pageSize) ↔
      r.addr / pageSize ≤ v ∧ v < r.addr / pageSize + r.size / pageSize := by
  simp only [contains, pageSize] at *
  omega

theorem block_page {b : ℕ × ℕ} (ha : pageSize ∣ b.1) (hs : pageSize ∣ b.2) :
    (b.1 ≤ v * pageSize ∧ v * pageSize < b.1 + b.2) ↔
      b.1 / pageSize ≤ v ∧ v < b.1 / pageSize + b.2 / pageSize := by
  simp only [pageSize] at *
  omega

namespace MemOwned

theorem perm (h : MemOwned t stub m loose blocks regions) {loose' blocks' : List (ℕ × ℕ)}
    {regions' : List Region} (hl : loose.Perm loose') (hb : blocks.Perm blocks')
    (hr : regions.Perm regions') : MemOwned t stub m loose' blocks' regions' where
  acc := h.acc.perm (hl.append (hb.append_right _))
  align := h.align
  clock := h.clock
  table := by
    have ht := h.table
    exact {
      room := ht.room
      low := fun v hv => (ht.low v hv).trans (by simp only [hb.mem_iff])
      ident := ht.ident
      high := fun v hv => (ht.high v hv).trans (by simp only [hr.mem_iff])
      valid := ht.valid
      backing := fun v r hr' => ht.backing v r (hr.mem_iff.mpr hr')
      region := fun r hr' => ht.region r (hr.mem_iff.mpr hr')
      vaOnce := fun x => by rw [← coverage_perm (hr.map _)]; exact ht.vaOnce x
      hostOnce := fun x => by rw [← coverage_perm (hr.map _)]; exact ht.hostOnce x }

theorem block_aligned (h : MemOwned t stub m loose blocks regions) {b : ℕ × ℕ}
    (hb : b ∈ loose ∨ b ∈ blocks) : pageSize ∣ b.1 ∧ pageSize ∣ b.2 ∧ 0 < b.2 ∧
      b.1 / pageSize + b.2 / pageSize ≤ m.mmu.vramPages := by
  have hmem : b ∈ loose ++ (blocks ++ m.resident.map (frameBlock m.mmu)) := by
    rcases hb with hb | hb <;> simp [hb]
  have ha := h.acc.block hmem
  rw [h.align] at ha
  have hr := h.acc.in_range hmem
  refine ⟨ha.1, ha.2.1, ha.2.2, ?_⟩
  simp only [Mem.vramSize, pageSize] at *
  omega

theorem loose_disjoint (h : MemOwned t stub m (b :: loose) blocks regions)
    {c : ℕ × ℕ} (hc : c ∈ blocks) :
    b.1 + b.2 ≤ c.1 ∨ c.1 + c.2 ≤ b.1 := by
  obtain ⟨l, hl⟩ : ∃ l, blocks.Perm (c :: l) := ⟨_, List.perm_cons_erase hc⟩
  refine h.acc.disjoint (l := loose ++ (l ++ m.resident.map (frameBlock m.mmu))) ?_
  rw [List.cons_append]
  refine .cons _ ?_
  refine (List.Perm.append_left loose (hl.append_right _)).trans ?_
  rw [List.cons_append]
  exact List.perm_middle

/-- Two resident pages never share a frame, and no resident page has a frame of
an `sgMalloc` block. -/
theorem frame_inj (h : MemOwned t stub m loose blocks regions) {v w : ℕ}
    (hv : (m.mmu.pte v).inVram = true)
    (hw : (m.mmu.pte w).inVram = true) (heq : (m.mmu.pte v).pa = (m.mmu.pte w).pa) :
    v = w := by
  have ht := h.table
  have hpfn : (m.mmu.pte v).pfn = (m.mmu.pte w).pfn :=
    Nat.eq_of_mul_eq_mul_right pageSize_pos heq
  -- A page below the VRAM size is mapped to itself; one above it is on the list.
  have hmixed : ∀ v w, v < m.mmu.vramPages → m.mmu.vramPages ≤ w →
      (m.mmu.pte v).inVram = true → (m.mmu.pte w).inVram = true →
      (m.mmu.pte v).pfn ≠ (m.mmu.pte w).pfn := by
    intro v w hlt hge hv hw heq
    have hp := ht.valid v hv
    obtain ⟨b, hb, hin⟩ := (ht.low v hlt).mp hp
    obtain ⟨e, he, hew⟩ := List.mem_map.mp (h.clock.all w hge hw)
    obtain ⟨l₁, hl₁⟩ : ∃ l, blocks.Perm (b :: l) := ⟨_, List.perm_cons_erase hb⟩
    obtain ⟨l₂, hl₂⟩ : ∃ l, m.resident.Perm (e :: l) := ⟨_, List.perm_cons_erase he⟩
    have hd := h.acc.disjoint (b := b) (c := frameBlock m.mmu e)
      (l := loose ++ (l₁ ++ l₂.map (frameBlock m.mmu))) (by
        refine ((hl₁.append (hl₂.map _)).append_left _).trans ?_
        rw [List.cons_append, List.map_cons]
        refine List.perm_middle.trans (.cons _ ?_)
        exact (List.perm_middle.append_left _).trans List.perm_middle)
    have hpa : (frameBlock m.mmu e).1 = v * pageSize := by
      rw [frameBlock, hew, mul_div_pageSize, Pte.pa, ← heq, (ht.ident v hlt hp).2]
    rw [hpa] at hd
    have hlen : (frameBlock m.mmu e).2 = pageSize := rfl
    have hpos := pageSize_pos
    obtain ⟨hba, hbs, -, -⟩ := h.block_aligned (.inr hb)
    omega
  rcases Nat.lt_or_ge v m.mmu.vramPages with hlv | hgv <;>
    rcases Nat.lt_or_ge w m.mmu.vramPages with hlw | hgw
  · rw [← (ht.ident v hlv (ht.valid v hv)).2, hpfn, (ht.ident w hlw (ht.valid w hw)).2]
  · exact absurd hpfn (hmixed v w hlv hgw hv hw)
  · exact absurd hpfn.symm (hmixed w v hlw hgv hw hv)
  · by_contra hne
    obtain ⟨d, hd, hdv⟩ := List.mem_map.mp (h.clock.all v hgv hv)
    obtain ⟨e, he, hew⟩ := List.mem_map.mp (h.clock.all w hgw hw)
    have hde : d ≠ e := by
      rintro rfl
      exact hne (Nat.eq_of_mul_eq_mul_right pageSize_pos (hdv.symm.trans hew))
    obtain ⟨l₁, hl₁⟩ : ∃ l, m.resident.Perm (d :: l) := ⟨_, List.perm_cons_erase hd⟩
    have he₁ : e ∈ l₁ := by
      rcases List.mem_cons.mp (hl₁.mem_iff.mp he) with rfl | he₁
      · exact absurd rfl hde
      · exact he₁
    have hlist := hl₁.trans (.cons d (List.perm_cons_erase he₁))
    have hdis := h.acc.disjoint (b := frameBlock m.mmu d) (c := frameBlock m.mmu e)
      (l := (loose ++ blocks) ++ (l₁.erase e).map (frameBlock m.mmu)) (by
        rw [← List.append_assoc]
        refine ((hlist.map _).append_left _).trans ?_
        rw [List.map_cons, List.map_cons]
        exact List.perm_middle.trans (.cons _ List.perm_middle))
    simp only [frameBlock, hdv, hew, mul_div_pageSize, heq] at hdis
    have hpos := pageSize_pos
    omega

theorem clock_low (h : MemOwned t stub m loose blocks regions) (mmu' : Mmu)
    (hlow : ∀ v, m.mmu.vramPages ≤ v →
    mmu'.pte v = m.mmu.pte v) (hvp : mmu'.vramPages = m.mmu.vramPages) :
    ClockInv { m with mmu := mmu' } ∧
      m.resident.map (frameBlock mmu') = m.resident.map (frameBlock m.mmu) := by
  have hpte : ∀ e ∈ m.resident, mmu'.pte (e.2 / pageSize) = m.mmu.pte (e.2 / pageSize) :=
    fun e he => hlow _ (h.clock.entry e he).2.1
  refine ⟨{ h.clock with entry := fun e he => ?_, all := fun v hv hin => ?_ }, ?_⟩
  · dsimp only
    rw [hpte e he, hvp]
    exact h.clock.entry e he
  · dsimp only at hv hin
    rw [hvp] at hv
    rw [hlow v hv] at hin
    exact h.clock.all v hv hin
  · apply List.map_congr_left
    intro e he
    simp only [frameBlock, hpte e he]

theorem mapVram (h : MemOwned t stub m ((va, n) :: loose) blocks regions) :
    ∃ mmu', m.mmu.mapVram va va (n / pageSize) = .ok mmu' ∧
      MemOwned t stub { m with mmu := mmu' } loose ((va, n) :: blocks) regions := by
  obtain ⟨hda, hds, hpos, hend⟩ := h.block_aligned (b := (va, n)) (.inl (by simp))
  dsimp only at hda hds hpos hend
  have hroom := h.table.room
  have hmod : va % pageSize = 0 := Nat.mod_eq_zero_of_dvd hda
  have hnpos : 0 < n / pageSize := Nat.div_pos (Nat.le_of_dvd hpos hds) pageSize_pos
  have hfree : ∀ i < n / pageSize, (m.mmu.pte (va / pageSize + i)).present = false := by
    intro i hi
    by_contra hc
    have hlt : va / pageSize + i < m.mmu.vramPages := by omega
    obtain ⟨b, hb, hin⟩ := (h.table.low _ hlt).mp (by simpa using hc)
    obtain ⟨hba, hbs, -, -⟩ := h.block_aligned (.inr hb)
    have hd := h.loose_disjoint hb
    dsimp only at hd
    simp only [pageSize] at *
    omega
  obtain ⟨mmu', hmap⟩ := Mmu.mapVram_defined hmod hmod hnpos (by omega) hend hfree
  obtain ⟨-, -, -, -, -, -, rfl⟩ := Mmu.mapVram_ok hmap
  refine ⟨_, hmap, ?_⟩
  have hset : ∀ v, Mmu.setRange m.mmu.pte (va / pageSize) (n / pageSize)
      (fun i => .inFrame (va / pageSize + i) false) v =
      if va / pageSize ≤ v ∧ v < va / pageSize + n / pageSize then .inFrame v false
      else m.mmu.pte v := by
    intro v
    simp only [Mmu.setRange]
    split_ifs with hv
    · rw [Nat.add_sub_cancel' hv.1]
    · rfl
  obtain ⟨hclock, hframes⟩ := h.clock_low
    { m.mmu with
      pte := Mmu.setRange m.mmu.pte (va / pageSize) (n / pageSize)
        fun i => .inFrame (va / pageSize + i) false }
    (fun v hv => (hset v).trans (if_neg (by omega))) rfl
  refine ⟨h.acc.perm ?_, h.align, ?_, hclock⟩
  · dsimp only
    rw [hframes, List.cons_append, List.cons_append]
    exact List.perm_middle.symm
  · have ht := h.table
    constructor
    case room => exact ht.room
    case low =>
      intro v hv
      dsimp only
      rw [hset]
      simp only [List.mem_cons, exists_eq_or_imp]
      rw [block_page (b := (va, n)) hda hds]
      split_ifs with hin
      · simp [hin, Pte.inFrame]
      · simp only [hin, false_or]
        exact ht.low v hv
    case ident =>
      intro v hv
      dsimp only
      rw [hset]
      split_ifs with hin
      · simp [Pte.inFrame]
      · exact ht.ident v hv
    case high =>
      intro v hv
      dsimp only at hv ⊢
      rw [hset, if_neg (by omega)]
      exact ht.high v hv
    case valid =>
      intro v
      dsimp only
      rw [hset]
      split_ifs
      · simp [Pte.inFrame]
      · exact ht.valid v
    case backing => exact ht.backing
    case region => exact ht.region
    case vaOnce => exact ht.vaOnce
    case hostOnce => exact ht.hostOnce

theorem recycleVram (h : MemOwned t stub m loose ((va, n) :: blocks) regions) :
    MemOwned t stub (m.recycleVram va n) loose blocks regions := by
  obtain ⟨hda, hds, hpos, hend⟩ := h.block_aligned (b := (va, n)) (.inr (by simp))
  dsimp only at hda hds hpos hend
  have hroom := h.table.room
  have hmod : va % pageSize = 0 := Nat.mod_eq_zero_of_dvd hda
  have hnpos : 0 < n / pageSize := Nat.div_pos (Nat.le_of_dvd hpos hds) pageSize_pos
  suffices hi : MemOwned t stub { m with mmu := m.mmu.unmap va (n / pageSize) }
    ((va, n) :: loose) blocks
      regions from hi.freeFrame
  rw [Mmu.unmap_eq hmod hnpos (by omega)]
  obtain ⟨hclock, hframes⟩ := h.clock_low
    { m.mmu with
      pte := Mmu.setRange m.mmu.pte (va / pageSize) (n / pageSize) fun _ => .zero
      host := Mmu.setHosts m.mmu.host (va / pageSize) (n / pageSize) fun _ => 0 }
    (fun v hv => if_neg (by omega)) rfl
  have hperm : (loose ++ ((va, n) :: blocks ++ m.resident.map (frameBlock m.mmu))).Perm
      ((va, n) :: loose ++ (blocks ++ m.resident.map (frameBlock m.mmu))) := by
    rw [List.cons_append, List.cons_append]
    exact List.perm_middle
  refine ⟨h.acc.perm ?_, h.align, ?_, hclock⟩
  · dsimp only
    rw [hframes]
    exact hperm
  · have ht := h.table
    constructor
    case room => exact ht.room
    case low =>
      intro v hv
      have hold := ht.low v hv
      simp only [List.mem_cons, exists_eq_or_imp, block_page (b := (va, n)) hda hds] at hold
      dsimp only [Mmu.setRange]
      split_ifs with hin
      · simp only [Pte.zero, Bool.false_eq_true, false_iff, not_exists, not_and]
        intro b hb hle hlt
        obtain ⟨hba, hbs, -, -⟩ := h.block_aligned (.inr (List.mem_cons_of_mem _ hb))
        have hd := h.acc.disjoint (b := (va, n)) (c := b)
          (l := loose ++ (blocks.erase b ++ m.resident.map (frameBlock m.mmu))) (by
            refine hperm.trans (.cons _ ?_)
            refine (List.Perm.append_left loose
              ((List.perm_cons_erase hb).append_right _)).trans ?_
            rw [List.cons_append]
            exact List.perm_middle)
        dsimp only at hd
        simp only [pageSize] at *
        omega
      · simpa only [hin, false_or] using hold
    case ident =>
      intro v hv
      dsimp only [Mmu.setRange]
      split_ifs with hin
      · simp [Pte.zero]
      · exact ht.ident v hv
    case high =>
      intro v hv
      dsimp only [Mmu.setRange] at hv ⊢
      rw [if_neg (by omega)]
      exact ht.high v hv
    case valid =>
      intro v
      dsimp only [Mmu.setRange]
      split_ifs
      · simp [Pte.zero]
      · exact ht.valid v
    case backing =>
      intro v r hr hc
      obtain ⟨hra, hrs, -, hlo, -⟩ := ht.region r hr
      have hpage := (Region.contains_page hra hrs).mp hc
      dsimp only [Mmu.setHosts]
      rw [if_neg (by simp only [pageSize] at *; omega)]
      exact ht.backing v r hr hc
    case region => exact ht.region
    case vaOnce => exact ht.vaOnce
    case hostOnce => exact ht.hostOnce

theorem clock_range (h : MemOwned t stub m loose blocks regions) (mmu' : Mmu)
    {first k : ℕ} {p : Pte}
    (hp : p.inVram = false) (hpte : mmu'.pte = Mmu.setRange m.mmu.pte first k fun _ => p)
    (hvp : mmu'.vramPages = m.mmu.vramPages)
    (hout : ∀ v, first ≤ v ∧ v < first + k → (m.mmu.pte v).inVram = false) :
    ClockInv { m with mmu := mmu' } ∧
      m.resident.map (frameBlock mmu') = m.resident.map (frameBlock m.mmu) := by
  have hres : ∀ e ∈ m.resident, mmu'.pte (e.2 / pageSize) = m.mmu.pte (e.2 / pageSize) := by
    intro e he
    rw [hpte, Mmu.setRange, if_neg]
    intro hc
    have hin := (h.clock.entry e he).2.2
    simp [hout _ hc] at hin
  refine ⟨{ h.clock with entry := fun e he => ?_, all := fun v hv hin => ?_ }, ?_⟩
  · dsimp only
    rw [hres e he, hvp]
    exact h.clock.entry e he
  · dsimp only at hv hin
    rw [hpte, Mmu.setRange] at hin
    rw [hvp] at hv
    split_ifs at hin
    · simp [hp] at hin
    · exact h.clock.all v hv hin
  · apply List.map_congr_left
    intro e he
    simp only [frameBlock, hres e he]

theorem mapHost (h : MemOwned t stub m loose blocks regions) (hm : ℕ → Option Page)
    (hmap : m.mmu.mapHost r.addr r.host (r.size / pageSize) = .ok mmu')
    (hsize : r.size % pageSize = 0) (hlo : m.mmu.vramPages * pageSize ≤ r.addr) (hhost : 0 < r.host)
    (hfresh : ∀ q ∈ regions, q.host + q.size ≤ r.host ∨ r.host + r.size ≤ q.host) :
    MemOwned t stub { m with mmu := mmu', hostMem := hm } loose blocks (r :: regions) := by
  obtain ⟨hra, hrh, hpos, hend, hfree, rfl⟩ := Mmu.mapHost_ok hmap
  have ht := h.table
  have hlow : ∀ v < m.mmu.vramPages, ¬(r.addr / pageSize ≤ v ∧
      v < r.addr / pageSize + r.size / pageSize) := by
    intro v hv
    simp only [pageSize] at *
    omega
  have habsent : ∀ v, r.contains (v * pageSize) → (m.mmu.pte v).present = false := by
    intro v hv
    have hp := (Region.contains_page hra hsize).mp hv
    have hf := hfree (v - r.addr / pageSize) (by omega)
    rwa [Nat.add_sub_cancel' hp.1] at hf
  -- The pages were absent, so no other region contains one of them.
  have hdisj : ∀ q ∈ regions, q.addr + q.size ≤ r.addr ∨ r.addr + r.size ≤ q.addr := by
    intro q hq
    obtain ⟨hqa, hqs, hqpos, hqlo, -⟩ := ht.region q hq
    by_contra hc
    have hv : ∃ v, r.contains (v * pageSize) ∧ q.contains (v * pageSize) := by
      refine ⟨max r.addr q.addr / pageSize, ?_⟩
      simp only [Region.contains, pageSize] at *
      omega
    obtain ⟨v, hrv, hqv⟩ := hv
    have hqp := (Region.contains_page hqa hqs).mp hqv
    have hvp : m.mmu.vramPages ≤ v := by
      simp only [pageSize] at *
      omega
    have := (ht.high v hvp).mpr ⟨q, hq, hqv⟩
    simp [habsent v hrv] at this
  have hout : ∀ v, r.addr / pageSize ≤ v ∧ v < r.addr / pageSize + r.size / pageSize →
      (m.mmu.pte v).inVram = false := by
    intro v hv
    by_contra hc
    have hp := ht.valid v (by simpa using hc)
    simp [habsent v ((Region.contains_page hra hsize).mpr hv)] at hp
  obtain ⟨hclock, hframes⟩ := h.clock_range
    { m.mmu with
      pte := Mmu.setRange m.mmu.pte (r.addr / pageSize) (r.size / pageSize) fun _ => .hostResident
      host := Mmu.setHosts m.mmu.host (r.addr / pageSize) (r.size / pageSize)
        fun i => r.host + i * pageSize } rfl rfl rfl hout
  refine ⟨h.acc.perm ?_, h.align, ?_, { hclock with }⟩
  · dsimp only
    rw [hframes]
  · constructor
    case room => exact ht.room
    case low =>
      intro v hv
      dsimp only [Mmu.setRange]
      rw [if_neg (hlow v hv)]
      exact ht.low v hv
    case ident =>
      intro v hv
      dsimp only [Mmu.setRange]
      rw [if_neg (hlow v hv)]
      exact ht.ident v hv
    case high =>
      intro v hv
      simp only [List.mem_cons, exists_eq_or_imp, Region.contains_page hra hsize]
      dsimp only [Mmu.setRange]
      split_ifs with hin
      · simp [hin, Pte.hostResident]
      · simp only [hin, false_or]
        exact ht.high v hv
    case valid =>
      intro v
      dsimp only [Mmu.setRange]
      split_ifs
      · simp [Pte.hostResident]
      · exact ht.valid v
    case backing =>
      intro v q hq hc
      dsimp only [Mmu.setHosts]
      rcases List.mem_cons.mp hq with rfl | hq
      · have hp := (Region.contains_page hra hsize).mp hc
        rw [if_pos hp]
        simp only [pageSize] at *
        omega
      · have hd := hdisj q hq
        obtain ⟨hqa, hqs, -⟩ := ht.region q hq
        have hp := (Region.contains_page hqa hqs).mp hc
        rw [if_neg (by simp only [pageSize] at *; omega)]
        exact ht.backing v q hq hc
    case region =>
      intro q hq
      rcases List.mem_cons.mp hq with rfl | hq
      · dsimp only
        refine ⟨hra, hsize, ?_, hlo, ?_, hrh, hhost⟩ <;> simp only [pageSize] at * <;> omega
      · exact ht.region q hq
    case vaOnce =>
      intro x
      rw [List.map_cons, coverage_cons]
      exact coverage_insert (by simpa using hdisj) (ht.vaOnce x)
    case hostOnce =>
      intro x
      rw [List.map_cons, coverage_cons]
      exact coverage_insert (by simpa using hfresh) (ht.hostOnce x)

theorem unmapHost (h : MemOwned t stub m loose blocks (r :: regions))
    (hout : ∀ v, r.contains (v * pageSize) → (m.mmu.pte v).inVram = false) :
    MemOwned t stub { m with mmu := m.mmu.unmap r.addr (r.size / pageSize) }
    loose blocks regions := by
  have ht := h.table
  obtain ⟨hra, hsize, hpos, hlo, hend, hrh, -⟩ := ht.region r (by simp)
  have hnpos : 0 < r.size / pageSize := by
    simp only [pageSize] at *
    omega
  rw [Mmu.unmap_eq hra hnpos (by simp only [pageSize] at *; omega)]
  have hlow : ∀ v < m.mmu.vramPages, ¬(r.addr / pageSize ≤ v ∧
      v < r.addr / pageSize + r.size / pageSize) := by
    intro v hv
    simp only [pageSize] at *
    omega
  have hdisj : ∀ q ∈ regions, q.addr + q.size ≤ r.addr ∨ r.addr + r.size ≤ q.addr := by
    intro q hq
    obtain ⟨-, -, hqpos, -⟩ := ht.region q (List.mem_cons_of_mem r hq)
    have hmem : (q.addr, q.size) ∈ regions.map fun r => (r.addr, r.size) :=
      List.mem_map_of_mem hq
    refine disjoint_of_covers_le_one (b := (q.addr, q.size)) (c := (r.addr, r.size))
      (fun x => ?_) hqpos hpos
    have hx := ht.vaOnce x
    rw [List.map_cons, coverage_cons] at hx
    have hc := covers_le_coverage (x := x) hmem
    omega
  obtain ⟨hclock, hframes⟩ := h.clock_range
    { m.mmu with
      pte := Mmu.setRange m.mmu.pte (r.addr / pageSize) (r.size / pageSize) fun _ => .zero
      host := Mmu.setHosts m.mmu.host (r.addr / pageSize) (r.size / pageSize) fun _ => 0 }
    rfl rfl rfl (fun v hv => hout v ((Region.contains_page hra hsize).mpr hv))
  refine ⟨h.acc.perm ?_, h.align, ?_, hclock⟩
  · dsimp only
    rw [hframes]
  · constructor
    case room => exact ht.room
    case low =>
      intro v hv
      dsimp only [Mmu.setRange]
      rw [if_neg (hlow v hv)]
      exact ht.low v hv
    case ident =>
      intro v hv
      dsimp only [Mmu.setRange]
      rw [if_neg (hlow v hv)]
      exact ht.ident v hv
    case high =>
      intro v hv
      have hold := ht.high v hv
      simp only [List.mem_cons, exists_eq_or_imp, Region.contains_page hra hsize] at hold
      dsimp only [Mmu.setRange]
      split_ifs with hin
      · simp only [Pte.zero, Bool.false_eq_true, false_iff, not_exists, not_and]
        intro q hq hc
        have hd := hdisj q hq
        simp only [Region.contains, pageSize] at *
        omega
      · simpa only [hin, false_or] using hold
    case valid =>
      intro v
      dsimp only [Mmu.setRange]
      split_ifs
      · simp [Pte.zero]
      · exact ht.valid v
    case backing =>
      intro v q hq hc
      have hd := hdisj q hq
      obtain ⟨hqa, hqs, -⟩ := ht.region q (List.mem_cons_of_mem r hq)
      have hp := (Region.contains_page hqa hqs).mp hc
      dsimp only [Mmu.setHosts]
      rw [if_neg (by simp only [pageSize] at *; omega)]
      exact ht.backing v q (List.mem_cons_of_mem r hq) hc
    case region => exact fun q hq => ht.region q (List.mem_cons_of_mem r hq)
    case vaOnce =>
      intro x
      have hx := ht.vaOnce x
      rw [List.map_cons, coverage_cons] at hx
      omega
    case hostOnce =>
      intro x
      have hx := ht.hostOnce x
      rw [List.map_cons, coverage_cons] at hx
      omega

end MemOwned

/-! ### Recycling a managed range -/

/-- `recycle` drops the resident pages of the range from the CLOCK list before it
unmaps them; the table with those pages host-resident already stands for the
state in between. -/
def Mmu.demote (mmu : Mmu) (first k : ℕ) : Mmu :=
  { mmu with pte := fun v =>
      if (first ≤ v ∧ v < first + k) ∧ (mmu.pte v).inVram = true then .hostResident else mmu.pte v }

theorem Mmu.demote_succ {first k : ℕ} (hin : (mmu.pte (first + k)).inVram = true) :
    mmu.demote first (k + 1) = (mmu.demote first k).setPte (first + k) .hostResident := by
  simp only [Mmu.demote, Mmu.setPte, Mmu.mk.injEq, true_and, and_true]
  funext v
  by_cases hv : v = first + k
  · subst hv
    rw [Function.update_self, if_pos ⟨by omega, hin⟩]
  · rw [Function.update_of_ne hv]
    exact if_congr (and_congr_left fun _ => by omega) rfl rfl

theorem Mmu.demote_succ_of_not {first k : ℕ} (hin : (mmu.pte (first + k)).inVram = false) :
    mmu.demote first (k + 1) = mmu.demote first k := by
  simp only [Mmu.demote, Mmu.mk.injEq, true_and, and_true]
  funext v
  by_cases hv : v = first + k
  · subst hv
    rw [if_neg (by simp [hin]), if_neg (by simp [hin])]
  · exact if_congr (and_congr_left fun _ => by omega) rfl rfl

theorem forgetResident_mmu (m : Mem) (mmu : Mmu) :
    ({ m with mmu := mmu } : Mem).forgetResident va = { m.forgetResident va with mmu := mmu } := by
  simp only [Mem.forgetResident]
  split <;> rfl

theorem collectFrames_mmu (m : Mem) (addr n : ℕ) :
    (Mem.collectFrames addr n m).2.mmu = m.mmu ∧
      (Mem.collectFrames addr n m).2.hostMem = m.hostMem := by
  induction n with
  | zero => exact ⟨rfl, rfl⟩
  | succ n ih =>
    simp only [Mem.collectFrames]
    split
    · simp only [Mem.forgetResident]
      split <;> exact ih
    · exact ih

namespace MemOwned

theorem collectFrames (h : MemOwned t stub m loose blocks regions) (hr : r ∈ regions)
    (hn : n ≤ r.size / pageSize) :
    MemOwned t stub
      { (Mem.collectFrames r.addr n m).2 with mmu := m.mmu.demote (r.addr / pageSize) n }
      ((Mem.collectFrames r.addr n m).1.map (fun f => (f, pageSize)) ++ loose) blocks regions := by
  obtain ⟨hra, hsize, -, hlo, hend, -⟩ := h.table.region r hr
  induction n with
  | zero =>
    have hzero : m.mmu.demote (r.addr / pageSize) 0 = m.mmu := by
      simp only [Mmu.demote]
      congr 1
      funext v
      exact if_neg (by omega)
    rw [hzero]
    exact h
  | succ n ih =>
    have hi := ih (by omega)
    obtain ⟨hmmu, hhm⟩ := collectFrames_mmu m r.addr n
    set c := Mem.collectFrames r.addr n m
    have hv : (r.addr + n * pageSize) / pageSize = r.addr / pageSize + n := by
      rw [Nat.add_mul_div_right _ _ pageSize_pos]
    have hnp : r.addr / pageSize + n < m.mmu.npages ∧ m.mmu.vramPages ≤ r.addr / pageSize + n := by
      simp only [pageSize] at *
      omega
    have hsame : (m.mmu.demote (r.addr / pageSize) n).pte (r.addr / pageSize + n) =
        m.mmu.pte (r.addr / pageSize + n) := if_neg (by omega)
    by_cases hin : (m.mmu.pte (r.addr / pageSize + n)).inVram = true
    · have hpg : m.mmu.page (r.addr + n * pageSize) = _ := Mmu.page_vram (by rw [hv]; exact hnp.1)
        (by rw [hv]; exact h.table.valid _ hin) (by rw [hv]; exact hin)
      have hstep : Mem.collectFrames r.addr (n + 1) m = (c.1 ++ [(m.mmu.pte
          (r.addr / pageSize + n)).pa], c.2.forgetResident (r.addr + n * pageSize)) := by
        simp only [Mem.collectFrames]
        rw [show (Mem.collectFrames r.addr n m).2.mmu = m.mmu from hmmu, hpg, hv]
      rw [hstep, Mmu.demote_succ hin]
      have hev := hi.evicted (show (r.addr + n * pageSize) % pageSize = 0 by
          rw [Nat.add_mul_mod_self_right]; exact hra)
        (by rw [hv]; exact hnp.2)
        (by rw [hv]; exact (congrArg Pte.inVram hsame).trans hin) c.2.hostMem
      rw [hv] at hev
      dsimp only at hev
      rw [hsame] at hev
      rw [← forgetResident_mmu]
      refine MemOwned.perm hev ?_ (.refl _) (.refl _)
      rw [List.map_append, List.append_assoc]
      exact List.perm_middle.symm
    · have hk : (m.mmu.page (r.addr + n * pageSize)).kind ≠ .vram := fun hk =>
        hin (hv ▸ (Mmu.page_kind_vram hk).2.2.1)
      rw [Mmu.demote_succ_of_not (by simpa using hin)]
      simp only [Mem.collectFrames, c, hmmu]
      exact hi

theorem freeFrames (fs : List ℕ)
    (h : MemOwned t stub m (fs.map (fun f => (f, pageSize)) ++ loose) blocks regions) :
    MemOwned t stub (fs.foldl Mem.freeFrame m) loose blocks regions := by
  induction fs generalizing m with
  | nil => exact h
  | cons f fs ih => exact ih h.freeFrame

theorem recycleManaged (h : MemOwned t stub m loose blocks (r :: regions)) :
    MemOwned t stub (m.recycleManaged r.addr r.size r.host) loose blocks regions := by
  obtain ⟨hra, hsize, hpos, hlo, hend, -⟩ := h.table.region r (by simp)
  have h₀ : MemOwned t stub { m with ranges := m.ranges.erase r.addr } loose blocks
      (r :: regions) :=
    ⟨h.acc, h.align, h.table, { h.clock with }⟩
  have h₁ := h₀.collectFrames (r := r) (n := r.size / pageSize) (by simp) le_rfl
  obtain ⟨hmmu, -⟩ := collectFrames_mmu { m with ranges := m.ranges.erase r.addr } r.addr
    (r.size / pageSize)
  set c := Mem.collectFrames r.addr (r.size / pageSize) { m with ranges := m.ranges.erase r.addr }
  have h₂ := h₁.unmapHost (by
    intro v hv
    have hp := (Region.contains_page hra hsize).mp hv
    simp only [Mmu.demote, hp, true_and]
    split_ifs with hin
    · rfl
    · simpa using hin)
  -- Unmapping forgets whether the pages had been demoted.
  have hunmap : (m.mmu.demote (r.addr / pageSize) (r.size / pageSize)).unmap r.addr
      (r.size / pageSize) = c.2.mmu.unmap r.addr (r.size / pageSize) := by
    have hnp : 0 < r.size / pageSize ∧ r.addr / pageSize + r.size / pageSize ≤ m.mmu.npages := by
      simp only [pageSize] at *
      omega
    rw [hmmu, Mmu.unmap_eq hra hnp.1 hnp.2,
      Mmu.unmap_eq (m := m.mmu.demote _ _) hra hnp.1 hnp.2]
    simp only [Mmu.demote, Mmu.mk.injEq, true_and, and_true]
    funext v
    simp only [Mmu.setRange]
    split_ifs <;> simp_all
  have h₃ : MemOwned t stub { c.2 with mmu := c.2.mmu.unmap r.addr (r.size / pageSize) }
      (c.1.map (fun f => (f, pageSize)) ++ loose) blocks regions := hunmap ▸ h₂
  have h₄ := freeFrames c.1 h₃
  exact ⟨h₄.acc, h₄.align, h₄.table, { h₄.clock with }⟩

theorem vaForHost_managed (h : MemOwned t stub m loose blocks regions)
    (hranges : ∀ e ∈ m.ranges.entries, e.1 ≤ e.2.stop ∧
      (⟨e.1, e.2.stop - e.1, e.2.host⟩ : Region) ∈ regions)
    {host : ℕ} (hhost : host % pageSize = 0) (hva : m.vaForHost host = some va) :
    va % pageSize = 0 ∧ m.mmu.vramPages ≤ va / pageSize := by
  obtain ⟨e, he, hf⟩ := List.exists_of_findSome?_eq_some hva
  split_ifs at hf with hc
  simp only [Option.some.injEq] at hf
  obtain ⟨-, hr⟩ := hranges e he
  obtain ⟨hra, -, -, hlo, -, hrh, -⟩ := h.table.region _ hr
  dsimp only at hra hlo hrh
  have hmod : va % pageSize = 0 := by
    simp only [pageSize] at *
    omega
  refine ⟨hmod, ?_⟩
  simp only [pageSize] at *
  omega

theorem serveHostFault (h : MemOwned t stub m loose blocks regions)
    (hranges : ∀ e ∈ m.ranges.entries, e.1 ≤ e.2.stop ∧
      (⟨e.1, e.2.stop - e.1, e.2.host⟩ : Region) ∈ regions)
    {host : ℕ} (hhost : host % pageSize = 0) (env : Env) :
    MemOwned t stub (m.serveHostFault host env) loose blocks regions ∧
      Evicts m (m.serveHostFault host env) := by
  simp only [Mem.serveHostFault]
  split
  · exact ⟨h, .refl m⟩
  · rename_i va hva
    obtain ⟨hmod, hv⟩ := h.vaForHost_managed hranges hhost hva
    split_ifs with hk
    · obtain ⟨-, -, hin, -⟩ := Mmu.page_kind_vram hk
      have heff := h.evictLocked_effect hmod hv hin env
      rcases h.evictLocked hmod hv hin env with ⟨hn, hi⟩ | ⟨pa, hn, hi⟩
      · rw [show m.evictLocked va env = (none, (m.evictLocked va env).2) from Prod.ext hn rfl]
        exact ⟨hi, heff⟩
      · rw [show m.evictLocked va env = (some pa, (m.evictLocked va env).2) from Prod.ext hn rfl]
        exact ⟨hi.freeFrame, heff.trans (.of_vram _)⟩
    · exact ⟨h, .refl m⟩

theorem host_inj (h : MemOwned t stub m loose blocks regions) (hv : m.mmu.vramPages ≤ v)
    (hw : m.mmu.vramPages ≤ w) (hpv : (m.mmu.pte v).present = true)
    (hpw : (m.mmu.pte w).present = true) (heq : m.mmu.host v = m.mmu.host w) : v = w := by
  obtain ⟨q, hq, hcv⟩ := (h.table.high v hv).mp hpv
  obtain ⟨r, hr, hcw⟩ := (h.table.high w hw).mp hpw
  have hbv := h.table.backing v q hq hcv
  have hbw := h.table.backing w r hr hcw
  simp only [Region.contains] at hcv hcw
  have hmul : ∀ a b, a * pageSize = b * pageSize → a = b := fun a b =>
    Nat.eq_of_mul_eq_mul_right pageSize_pos
  by_cases hqr : q = r
  · subst hqr
    exact hmul v w (by omega)
  · -- The backings of different regions do not overlap.
    exfalso
    obtain ⟨l, hl⟩ : ∃ l, regions.Perm (q :: l) := ⟨_, List.perm_cons_erase hq⟩
    have hrl : r ∈ l := by
      rcases List.mem_cons.mp (hl.mem_iff.mp hr) with rfl | hrl
      · exact absurd rfl hqr
      · exact hrl
    have honce := h.table.hostOnce (m.mmu.host v)
    rw [coverage_perm (hl.map _), List.map_cons, coverage_cons] at honce
    have hle := covers_le_coverage (x := m.mmu.host v)
      (List.mem_map_of_mem (f := fun r : Region => (r.host, r.size)) hrl)
    simp only [covers] at honce hle
    rw [if_pos (by omega)] at honce
    rw [if_pos (by omega)] at hle
    omega

theorem host_outside {r : Region} (h : MemOwned t stub m loose blocks (r :: regions))
    (hv : m.mmu.vramPages ≤ v) (hp : (m.mmu.pte v).present = true)
    (hout : ¬r.contains (v * pageSize)) :
    ¬(r.host ≤ m.mmu.host v ∧ m.mmu.host v < r.host + r.size) := by
  intro hin
  obtain ⟨q, hq, hc⟩ := (h.table.high v hv).mp hp
  have hqr : q ∈ regions := by
    rcases List.mem_cons.mp hq with rfl | hqr
    · exact absurd hc hout
    · exact hqr
  have hb := h.table.backing v q hq hc
  simp only [Region.contains] at hc
  have honce := h.table.hostOnce (m.mmu.host v)
  have hle := covers_le_coverage (x := m.mmu.host v)
    (List.mem_map_of_mem (f := fun r : Region => (r.host, r.size)) hqr)
  rw [List.map_cons, coverage_cons] at honce
  simp only [covers] at honce hle
  rw [if_pos hin] at honce
  rw [if_pos (by omega)] at hle
  omega

theorem loose_frame (h : MemOwned t stub m ((pa, pageSize) :: loose) blocks regions)
    (hw : m.mmu.vramPages ≤ w) (hin : (m.mmu.pte w).inVram = true) : (m.mmu.pte w).pa ≠ pa := by
  intro heq
  obtain ⟨e, he, hew⟩ := List.mem_map.mp (h.clock.all w hw hin)
  obtain ⟨l, hl⟩ : ∃ l, m.resident.Perm (e :: l) := ⟨_, List.perm_cons_erase he⟩
  have hd := h.acc.disjoint (b := (pa, pageSize)) (c := frameBlock m.mmu e)
    (l := loose ++ (blocks ++ l.map (frameBlock m.mmu))) (by
      refine .cons _ ?_
      refine (((hl.map _).append_left _).append_left _).trans ?_
      rw [List.map_cons]
      exact (List.perm_middle.append_left _).trans List.perm_middle)
  simp only [frameBlock, hew, mul_div_pageSize, heq] at hd
  have hpos := pageSize_pos
  omega

theorem loose_unmapped (h : MemOwned t stub m ((pa, pageSize) :: loose) blocks regions)
    (hin : (m.mmu.pte v).inVram = true) : (m.mmu.pte v).pa ≠ pa := by
  rcases Nat.lt_or_ge v m.mmu.vramPages with hlt | hge
  · have hp := h.table.valid v hin
    obtain ⟨b, hb, hle, hstop⟩ := (h.table.low v hlt).mp hp
    have hd := h.loose_disjoint hb
    rw [Pte.pa, (h.table.ident v hlt hp).2]
    have hpos := pageSize_pos
    omega
  · exact h.loose_frame hge hin

end MemOwned

/-! ### What recycling leaves alone -/

@[simp] theorem Mmu.unmap_npages (mmu : Mmu) (va n : ℕ) : (mmu.unmap va n).npages = mmu.npages := by
  simp only [Mmu.unmap]
  split_ifs <;> rfl

@[simp] theorem Mmu.unmap_vramPages (mmu : Mmu) (va n : ℕ) :
    (mmu.unmap va n).vramPages = mmu.vramPages := by
  simp only [Mmu.unmap]
  split_ifs <;> rfl

theorem Mmu.unmap_outside (mmu : Mmu) {va n v : ℕ}
    (hv : ¬(va / pageSize ≤ v ∧ v < va / pageSize + n)) :
    (mmu.unmap va n).pte v = mmu.pte v ∧ (mmu.unmap va n).host v = mmu.host v := by
  simp only [Mmu.unmap]
  split_ifs
  · exact ⟨rfl, rfl⟩
  · exact ⟨if_neg hv, if_neg hv⟩

structure Keeps (m m' : Mem) : Prop where
  uffd : m'.uffd = m.uffd
  npages : m'.mmu.npages = m.mmu.npages
  vramPages : m'.mmu.vramPages = m.mmu.vramPages
  prefetchPages : m'.prefetchPages = m.prefetchPages
  frames : m'.frames = m.frames

theorem collectFrames_keeps (m : Mem) (addr n : ℕ) :
    Keeps m (Mem.collectFrames addr n m).2 ∧
      (Mem.collectFrames addr n m).2.ranges = m.ranges := by
  induction n with
  | zero => exact ⟨⟨rfl, rfl, rfl, rfl, rfl⟩, rfl⟩
  | succ n ih =>
    simp only [Mem.collectFrames]
    split
    · simp only [Mem.forgetResident]
      split
      · exact ih
      · exact ⟨⟨ih.1.uffd, ih.1.npages, ih.1.vramPages, ih.1.prefetchPages, ih.1.frames⟩, ih.2⟩
    · exact ih

theorem foldl_freeFrame (fs : List ℕ) (m : Mem) :
    fs.foldl Mem.freeFrame m = { m with vram := (fs.foldl Mem.freeFrame m).vram } := by
  induction fs generalizing m with
  | nil => rfl
  | cons f fs ih =>
    rw [List.foldl_cons, ih]
    rfl

theorem recycleManaged_keeps (m : Mem) (addr size host : ℕ) :
    Keeps m (m.recycleManaged addr size host) ∧
    (m.recycleManaged addr size host).ranges = m.ranges.erase addr ∧
    (m.recycleManaged addr size host).mmu = m.mmu.unmap addr (size / pageSize) ∧
    (m.recycleManaged addr size host).hostMem =
      fun h => if host ≤ h ∧ h < host + size then none else m.hostMem h := by
  obtain ⟨hk, hr⟩ := collectFrames_keeps { m with ranges := m.ranges.erase addr } addr
    (size / pageSize)
  obtain ⟨hmmu, hhm⟩ := collectFrames_mmu { m with ranges := m.ranges.erase addr } addr
    (size / pageSize)
  simp only [Mem.recycleManaged]
  rw [foldl_freeFrame]
  dsimp only at *
  refine ⟨⟨hk.uffd, ?_, ?_, hk.prefetchPages, hk.frames⟩, hr, by rw [hmmu], by rw [hhm]⟩
  · simp [hmmu]
  · simp [hmmu]

end SoftGpu
