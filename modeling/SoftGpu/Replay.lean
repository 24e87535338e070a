import SoftGpu.Machine
import SoftGpu.Backing
import SoftGpu.Execute

/-!
# Replay of a faulting command

A command faults part-way, its channel is parked, pages move, and it is tried again.
What it has done stays done, and the replay state says how far it has got; so the
state between two attempts is described by the operands at the start and the replay
state, whatever frames the pages are in.
-/

namespace SoftGpu.Exec

variable {m m' m'' : Mem} {loose blocks : List (ℕ × ℕ)} {regions : List Region}
  {dev : ℕ → UInt8} {S : ℕ → Prop} {va len base n : ℕ} {write : Bool}

/-! ### Runs -/

structure Flagged (m m' : Mem) : Prop where
  eq : m' = { m with mmu := m'.mmu }
  same : Mmu.Same m.mmu m'.mmu
  dirty : ∀ v, (m.mmu.pte v).dirty = true → (m'.mmu.pte v).dirty = true

namespace Flagged

theorem refl (m : Mem) : Flagged m m := ⟨rfl, .refl _, fun _ => id⟩

theorem trans (h : Flagged m m') (h' : Flagged m' m'') : Flagged m m'' :=
  ⟨by rw [h'.eq, h.eq], h.same.trans h'.same, fun v hv => h'.dirty v (h.dirty v hv)⟩

theorem bytes (h : Flagged m m') : m'.bytes = m.bytes := by
  funext x
  rw [h.eq]
  rfl

theorem backed (h : Flagged m m') (hb : Backed m dev S) : Backed m' dev S := by
  refine hb.flags h.same (fun v hv => ?_) (by rw [h.eq]) (by rw [h.eq]) (by rw [h.eq])
  by_contra hd
  rw [h.dirty v (by simpa using hd)] at hv
  cases hv

theorem inv (h : Flagged m m') (hi : MemInv m loose blocks regions) :
    MemInv m' loose blocks regions := by
  rw [h.eq]
  exact hi.same h.same (.refl _)

end Flagged

structure RunOk (m : Mem) (va base n : ℕ) (write : Bool) : Prop where
  inVram : ∀ i < n, (m.mmu.pte ((va + i) / pageSize)).inVram = true
  phys : ∀ i < n, (m.mmu.pte ((va + i) / pageSize)).pa + (va + i) % pageSize = base + i
  dirty : write = true → ∀ i < n, (m.mmu.pte ((va + i) / pageSize)).dirty = true

theorem RunOk.flagged (h : RunOk m va base n write) (hf : Flagged m m') :
    RunOk m' va base n write where
  inVram := fun i hi => (hf.same.inVram _).trans (h.inVram i hi)
  phys := fun i hi => by
    rw [Pte.pa, hf.same.pfn]
    exact h.phys i hi
  dirty := fun hw i hi => hf.dirty _ (h.dirty hw i hi)

theorem RunOk.shorten {k : ℕ} (h : RunOk m va base n write) (hk : k ≤ n) :
    RunOk m va base k write where
  inVram := fun i hi => h.inVram i (hi.trans_le hk)
  phys := fun i hi => h.phys i (hi.trans_le hk)
  dirty := fun hw i hi => h.dirty hw i (hi.trans_le hk)

theorem translate_spec (m : Mem) (va : ℕ) (write : Bool) :
    Flagged m (translate m va write).2 ∧ ∀ pa, (translate m va write).1 = .ok pa →
      (m.mmu.pte (va / pageSize)).inVram = true ∧ pa = (m.mmu.pte (va / pageSize)).pa ∧
      (write = true → ((translate m va write).2.mmu.pte (va / pageSize)).dirty = true) := by
  simp only [translate]
  split
  · exact ⟨.refl m, fun pa hpa => by cases hpa⟩
  · split
    · exact ⟨.refl m, fun pa hpa => by cases hpa⟩
    · next hin =>
      refine ⟨⟨rfl, Mmu.orFlags_same m.mmu va write true, fun v hv => ?_⟩, fun pa hpa => ?_⟩
      · rw [Mmu.orFlags_dirty, hv, Bool.true_or]
      · cases hpa
        refine ⟨by simpa using hin, rfl, fun hw => ?_⟩
        rw [Mmu.orFlags_dirty, hw]
        simp

theorem RunOk.extend (len : ℕ) {got pa : ℕ} (h : RunOk m va base got write)
    (hin : (m.mmu.pte ((va + got) / pageSize)).inVram = true)
    (hpa : pa = (m.mmu.pte ((va + got) / pageSize)).pa)
    (hdirty : write = true → (m.mmu.pte ((va + got) / pageSize)).dirty = true)
    (hbase : pa + (va + got) % pageSize = base + got) :
    RunOk m va base (got + min (len - got) (pageSize - (va + got) % pageSize)) write := by
  have hpage : ∀ i, got ≤ i → i < got + min (len - got) (pageSize - (va + got) % pageSize) →
      (va + i) / pageSize = (va + got) / pageSize ∧
        (va + i) % pageSize = (va + got) % pageSize + (i - got) := by
    intro i hle hlt
    simp only [pageSize] at *
    omega
  constructor
  · intro i hi
    rcases Nat.lt_or_ge i got with hlt | hge
    · exact h.inVram i hlt
    · rw [(hpage i hge hi).1]
      exact hin
  · intro i hi
    rcases Nat.lt_or_ge i got with hlt | hge
    · exact h.phys i hlt
    · rw [(hpage i hge hi).1, (hpage i hge hi).2, ← hpa]
      omega
  · intro hw i hi
    rcases Nat.lt_or_ge i got with hlt | hge
    · exact h.dirty hw i hlt
    · rw [(hpage i hge hi).1]
      exact hdirty hw

def RunSpec (m : Mem) (va len least : ℕ) (write : Bool) (x : Outcome (ℕ × ℕ) × Mem) : Prop :=
  Flagged m x.2 ∧ x.1 ≠ .split ∧ ∀ base n, x.1 = .done (base, n) →
    RunOk x.2 va base n write ∧ least ≤ n ∧ n ≤ len

theorem runLoop_spec (turns : ℕ) : ∀ (base got : ℕ) (m : Mem), RunOk m va base got write →
    got ≤ len → (got = 0 → 0 < len → 0 < turns) →
    RunSpec m va len (min len 1) write (runLoop va len write turns base got m) := by
  induction turns with
  | zero =>
    intro base got m h hle hpos
    refine ⟨.refl m, by simp [runLoop], fun b n hbn => ?_⟩
    simp only [runLoop, Outcome.done.injEq, Prod.mk.injEq] at hbn
    obtain ⟨rfl, rfl⟩ := hbn
    exact ⟨h, by omega, hle⟩
  | succ turns ih =>
    intro base got m h hle hpos
    obtain ⟨hflag, hok⟩ := translate_spec m (va + got) write
    have hstop : got ≠ 0 → RunSpec m va len (min len 1) write
        (.done (base, got), (translate m (va + got) write).2) := by
      intro hgot
      refine ⟨hflag, by simp, fun b n hbn => ?_⟩
      simp only [Outcome.done.injEq, Prod.mk.injEq] at hbn
      obtain ⟨rfl, rfl⟩ := hbn
      exact ⟨h.flagged hflag, by omega, hle⟩
    simp only [runLoop]
    by_cases hlt : got < len
    · rw [if_pos hlt]
      have hnext : 0 < min (len - got) (pageSize - (va + got) % pageSize) := by
        have := Nat.mod_lt (va + got) pageSize_pos
        omega
      cases htr : translate m (va + got) write with
      | mk t m' =>
        rw [htr] at hflag hok hstop
        cases t with
        | ok frame =>
          obtain ⟨hin, hpa, hdirty⟩ := hok frame rfl
          have hframe : frame = (m'.mmu.pte ((va + got) / pageSize)).pa := by
            rw [hpa, Pte.pa, Pte.pa, hflag.same.pfn]
          have hin' := (hflag.same.inVram _).trans hin
          have hgo : ∀ b, RunOk m va b got write → frame + (va + got) % pageSize = b + got →
              RunSpec m va len (min len 1) write (runLoop va len write turns b
                (got + min (len - got) (pageSize - (va + got) % pageSize)) m') := by
            intro b hb heq
            have hext := (hb.flagged hflag).extend len hin' hframe hdirty heq
            obtain ⟨hf, hs, hd⟩ := ih b _ m' hext (by omega) (by omega)
            exact ⟨hflag.trans hf, hs, hd⟩
          dsimp only
          by_cases hzero : got = 0
          · rw [if_pos hzero]
            refine hgo _ ⟨?_, ?_, ?_⟩ (by omega)
            · intro i hi
              omega
            · intro i hi
              omega
            · intro _ i hi
              omega
          · rw [if_neg hzero]
            by_cases hcont : frame + (va + got) % pageSize = base + got
            · rw [if_neg (not_not.mpr hcont)]
              exact hgo base h hcont
            · rw [if_pos hcont]
              exact hstop hzero
        | hostResident =>
          dsimp only
          by_cases hzero : got = 0
          · rw [if_neg (not_not.mpr hzero)]
            exact ⟨hflag, by simp, fun b n hbn => by cases hbn⟩
          · rw [if_pos hzero]
            exact hstop hzero
        | notPresent =>
          dsimp only
          by_cases hzero : got = 0
          · rw [if_neg (not_not.mpr hzero)]
            exact ⟨hflag, by simp, fun b n hbn => by cases hbn⟩
          · rw [if_pos hzero]
            exact hstop hzero
    · rw [if_neg hlt]
      refine ⟨.refl m, by simp, fun b n hbn => ?_⟩
      simp only [Outcome.done.injEq, Prod.mk.injEq] at hbn
      obtain ⟨rfl, rfl⟩ := hbn
      exact ⟨h, by omega, hle⟩

theorem runAt_spec (m : Mem) (va len : ℕ) (write : Bool) :
    RunSpec m va len (min len 1) write (runAt m va len write) := by
  have hzero : RunOk m va 0 0 write :=
    ⟨fun i hi => absurd hi (Nat.not_lt_zero i), fun i hi => absurd hi (Nat.not_lt_zero i),
      fun _ i hi => absurd hi (Nat.not_lt_zero i)⟩
  obtain ⟨hflag, hsplit, hdone⟩ := runLoop_spec len 0 0 m hzero (Nat.zero_le len) fun _ h => h
  simp only [runAt]
  cases hx : runLoop va len write len 0 0 m with
  | mk o m' =>
    rw [hx] at hflag hsplit hdone
    cases o with
    | done run =>
      simp only [Outcome.andThen]
      split
      · exact ⟨hflag, by simp, fun b n hbn => by cases hbn⟩
      · refine ⟨hflag, by simp, fun b n hbn => ?_⟩
        exact hdone b n hbn
    | pageFault v => exact ⟨hflag, by simp [Outcome.andThen], fun b n hbn => by cases hbn⟩
    | split => exact absurd rfl hsplit
    | error e => exact ⟨hflag, by simp [Outcome.andThen], fun b n hbn => by cases hbn⟩

/-! ### Reading and writing through a run -/

structure Ctx where
  loose : List (ℕ × ℕ)
  blocks : List (ℕ × ℕ)
  regions : List Region
  pages : ℕ → Prop

structure Sees (x : Ctx) (m : Mem) (dev : ℕ → UInt8) : Prop where
  inv : MemInv m x.loose x.blocks x.regions
  ranges : ∀ e ∈ m.ranges.entries, e.1 ≤ e.2.stop ∧
    (⟨e.1, e.2.stop - e.1, e.2.host⟩ : Region) ∈ x.regions
  mapped : ∀ v, x.pages v → (m.mmu.pte v).present = true
  backed : Backed m dev x.pages

variable {x : Ctx}

theorem bytes_pa (m : Mem) (p : Pte) (off : Fin pageSize) :
    m.bytes (p.pa + off) = m.frames p.pa off := by
  have hdiv : (p.pa + off) / pageSize = p.pfn := by
    rw [Pte.pa, Nat.mul_comm, Nat.mul_add_div pageSize_pos, Nat.div_eq_of_lt off.isLt, Nat.add_zero]
  have hmod : (p.pa + off) % pageSize = off := by
    rw [Pte.pa, Nat.mul_comm, Nat.mul_add_mod, Nat.mod_eq_of_lt off.isLt]
  simp only [Mem.bytes, hdiv, hmod]
  rfl

theorem pa_add_inj {p q : Pte} {i j : ℕ} (hi : i < pageSize) (hj : j < pageSize)
    (h : p.pa + i = q.pa + j) : p.pa = q.pa ∧ i = j := by
  simp only [Pte.pa, pageSize] at *
  omega

namespace Sees

theorem flagged (h : Sees x m dev) (hf : Flagged m m') : Sees x m' dev := by
  refine ⟨hf.inv h.inv, ?_, ?_, hf.backed h.backed⟩
  · rw [hf.eq]
    exact h.ranges
  · intro v hv
    rw [hf.same.present v]
    exact h.mapped v hv

theorem read (h : Sees x m dev) (hr : RunOk m va base n write) {i : ℕ} (hi : i < n)
    (hS : x.pages ((va + i) / pageSize)) : m.bytes (base + i) = dev (va + i) := by
  have hoff : (va + i) % pageSize < pageSize := Nat.mod_lt _ pageSize_pos
  rw [← hr.phys i hi, bytes_pa m _ ⟨_, hoff⟩, h.backed.frame _ hS (hr.inVram i hi), pageOf]
  congr 1
  rw [Nat.mul_comm]
  exact Nat.div_add_mod (va + i) pageSize

theorem phys_iff (h : Sees x m dev) (hr : RunOk m va base n write) {w : ℕ} (off : Fin pageSize)
    (hin : (m.mmu.pte w).inVram = true) {i : ℕ} (hi : i < n) :
    (m.mmu.pte w).pa + off = base + i ↔ w * pageSize + off = va + i := by
  have hmod : (va + i) % pageSize < pageSize := Nat.mod_lt _ pageSize_pos
  have hdiv : (va + i) / pageSize * pageSize + (va + i) % pageSize = va + i := by
    rw [Nat.mul_comm]
    exact Nat.div_add_mod (va + i) pageSize
  constructor
  · intro heq
    rw [← hr.phys i hi] at heq
    obtain ⟨hpa, hoff⟩ := pa_add_inj off.isLt hmod heq
    rw [h.inv.frame_inj hin (hr.inVram i hi) hpa, hoff]
    exact hdiv
  · intro heq
    have hw : (va + i) / pageSize = w ∧ (va + i) % pageSize = off := by
      rw [← heq, Nat.mul_comm, Nat.mul_add_div pageSize_pos, Nat.mul_add_mod,
        Nat.div_eq_of_lt off.isLt, Nat.mod_eq_of_lt off.isLt]
      exact ⟨Nat.add_zero w, rfl⟩
    rw [← hr.phys i hi, hw.1, hw.2]

theorem va_eq (h : Sees x m dev) {va' base' n' : ℕ} {write' : Bool} (hr : RunOk m va base n write)
    (hr' : RunOk m va' base' n' write') {i j : ℕ} (hi : i < n) (hj : j < n')
    (heq : base + i = base' + j) : va + i = va' + j := by
  have hoff : (va + i) % pageSize < pageSize := Nat.mod_lt _ pageSize_pos
  have hsame := (h.phys_iff hr' ⟨_, hoff⟩ (hr.inVram i hi) hj).mp ((hr.phys i hi).trans heq)
  rw [← hsame, Nat.mul_comm]
  exact (Nat.div_add_mod (va + i) pageSize).symm

theorem page_of_run (hr : RunOk m va base n write) {w : ℕ} (off : Fin pageSize) {i : ℕ} (hi : i < n)
    (heq : w * pageSize + off = va + i) :
    (m.mmu.pte w).inVram = true ∧ (write = true → (m.mmu.pte w).dirty = true) := by
  have hw : (va + i) / pageSize = w := by
    rw [← heq, Nat.mul_comm, Nat.mul_add_div pageSize_pos, Nat.div_eq_of_lt off.isLt, Nat.add_zero]
  exact ⟨hw ▸ hr.inVram i hi, fun hwr => hw ▸ hr.dirty hwr i hi⟩

theorem store (h : Sees x m dev) (hr : RunOk m va base n true) (g : ℕ → UInt8) :
    Sees x (m.setBytes (patch m.bytes base n g)) (patch dev va n g) := by
  -- Pages outside the run keep their bytes.
  have hkeep : ∀ w, ((m.mmu.pte w).inVram = false ∨ (m.mmu.pte w).dirty = false) →
      pageOf (patch dev va n g) w = pageOf dev w := by
    intro w hw
    funext off
    refine patch_of_not fun hrange => ?_
    obtain ⟨i, hi, heq⟩ : ∃ i < n, w * pageSize + off = va + i :=
      ⟨w * pageSize + off - va, by omega, by omega⟩
    obtain ⟨hin, hdirty⟩ := page_of_run hr off hi heq
    obtain hw | hw := hw
    · rw [hin] at hw
      cases hw
    · rw [hdirty rfl] at hw
      cases hw
  refine ⟨h.inv.bytes _ _, h.ranges, h.mapped, ?_, ?_, ?_, h.backed.dropped⟩
  · intro w hS hin
    funext off
    change patch m.bytes base n g ((m.mmu.pte w).pa + off) = patch dev va n g (w * pageSize + off)
    by_cases hrange : base ≤ (m.mmu.pte w).pa + off ∧ (m.mmu.pte w).pa + off < base + n
    · obtain ⟨i, hi, heq⟩ : ∃ i < n, (m.mmu.pte w).pa + off = base + i :=
        ⟨(m.mmu.pte w).pa + off - base, by omega, by omega⟩
      rw [heq, (h.phys_iff hr off hin hi).mp heq, patch_add hi, patch_add hi]
    · rw [patch_of_not hrange, patch_of_not, bytes_pa, h.backed.frame w hS hin, pageOf]
      intro hvirt
      obtain ⟨i, hi, heq⟩ : ∃ i < n, w * pageSize + off = va + i :=
        ⟨w * pageSize + off - va, by omega, by omega⟩
      have := (h.phys_iff hr off hin hi).mpr heq
      omega
  · intro w hS hp hin
    rw [hkeep w (.inl hin)]
    exact h.backed.host w hS hp hin
  · intro hu w hS hge hin hd
    rw [hkeep w (.inr hd)]
    exact h.backed.clean hu w hS hge hin hd

end Sees

/-! ### The loop over runs -/

section
variable {σ : Type} {op : ℕ → ℕ → ℕ → Mem × σ → Mem × σ}

theorem forRuns_rule (P : ℕ → Mem × σ → Prop)
    (hflag : ∀ done m m' y, P done (m, y) → Flagged m m' → P done (m', y))
    (hop : ∀ done m y base n, P done (m, y) → RunOk m (va + done) base n write → done + n ≤ len →
      P (done + n) (op base done n (m, y))) {turns : ℕ} :
    ∀ {done : ℕ} {s : Mem × σ} {o : Outcome Unit} {done' : ℕ} {s' : Mem × σ},
      forRuns va len write op turns done s = (o, done', s') → P done s → done ≤ len →
      len - done ≤ turns →
      P done' s' ∧ done' ≤ len ∧ o ≠ .split ∧ (o = .done () → done' = len) := by
  induction turns with
  | zero =>
    intro done s o done' s' hx hP hle hturns
    cases hx
    exact ⟨hP, hle, by simp, fun _ => by omega⟩
  | succ turns ih =>
    intro done s o done' s' hx hP hle hturns
    obtain ⟨m, y⟩ := s
    simp only [forRuns] at hx
    by_cases hlt : done < len
    · rw [if_pos hlt] at hx
      obtain ⟨hf, hsplit, hdone⟩ := runAt_spec m (va + done) (len - done) write
      cases hrun : runAt m (va + done) (len - done) write with
      | mk r m' =>
        rw [hrun] at hx hf hsplit hdone
        have hP' := hflag done m m' y hP hf
        cases r with
        | done run =>
          obtain ⟨hok, hpos, hn⟩ := hdone run.1 run.2 rfl
          exact ih hx (hop done m' y run.1 run.2 hP' hok (by omega)) (by omega) (by omega)
        | pageFault v =>
          cases hx
          exact ⟨hP', hle, by simp, fun h => by cases h⟩
        | split => exact absurd rfl hsplit
        | error e =>
          cases hx
          exact ⟨hP', hle, by simp, fun h => by cases h⟩
    · rw [if_neg hlt] at hx
      cases hx
      exact ⟨hP, hle, by simp, fun _ => Nat.le_antisymm hle (Nat.le_of_not_lt hlt)⟩

end

variable {o : Outcome Unit} {done done' dst src : ℕ} {data : ℕ → UInt8}

theorem writeRuns_spec {y : Unit} (hx : writeRuns m done va len data = (o, done', m', y))
    (h : Sees x m (patch dev va done data)) (hle : done ≤ len) :
    Sees x m' (patch dev va done' data) ∧ done' ≤ len ∧ o ≠ .split ∧
      (o = .done () → done' = len) := by
  refine forRuns_rule (fun done (s : Mem × Unit) => Sees x s.1 (patch dev va done data))
    (fun _ _ _ _ hs hf => hs.flagged hf) ?_ hx h hle (Nat.sub_le len done)
  intro done m y base n hs hr _
  have hstore := hs.store hr fun i => data (done + i)
  rw [patch_append] at hstore
  exact hstore

theorem readRuns_spec {out buf buf' : ℕ → UInt8}
    (hx : readRuns m done va len dst buf = (o, done', m', buf')) (h : Sees x m dev)
    (hS : ∀ i < len, x.pages ((va + i) / pageSize))
    (hbuf : buf = patch out dst done fun i => dev (va + i)) (hle : done ≤ len) :
    (Sees x m' dev ∧ buf' = patch out dst done' fun i => dev (va + i)) ∧ done' ≤ len ∧
      o ≠ .split ∧ (o = .done () → done' = len) := by
  refine forRuns_rule (fun done (s : Mem × (ℕ → UInt8)) => Sees x s.1 dev ∧
      s.2 = patch out dst done fun i => dev (va + i)) (fun _ _ _ _ hs hf => ⟨hs.1.flagged hf, hs.2⟩)
    ?_ hx ⟨h, hbuf⟩ hle (Nat.sub_le len done)
  intro done m y base n hs hr hn
  obtain ⟨hs, rfl : y = _⟩ := hs
  refine ⟨hs, ?_⟩
  simp only [readRun]
  rw [← patch_append]
  refine patch_congr fun i hi => ?_
  have hpage := hS (done + i) (by omega)
  rw [hs.read hr hi (by rw [Nat.add_assoc]; exact hpage), Nat.add_assoc]

theorem copyRuns_spec {turns : ℕ} (hapart : dst + len ≤ src ∨ src + len ≤ dst)
    (hS : ∀ i < len, x.pages ((src + i) / pageSize)) :
    ∀ {done : ℕ} {m : Mem}, copyRuns dst src len turns done m = (o, done', m') →
      Sees x m (patch dev dst done fun i => dev (src + i)) → done ≤ len → len - done ≤ turns →
      Sees x m' (patch dev dst done' fun i => dev (src + i)) ∧ done' ≤ len ∧ o ≠ .split ∧
        (o = .done () → done' = len) := by
  induction turns with
  | zero =>
    intro done m hx h hle hturns
    cases hx
    exact ⟨h, hle, by simp, fun _ => by omega⟩
  | succ turns ih =>
    intro done m hx h hle hturns
    simp only [copyRuns] at hx
    by_cases hlt : done < len
    · rw [if_pos hlt] at hx
      obtain ⟨hf, hsplit, hdone⟩ := runAt_spec m (dst + done) (len - done) true
      cases hd : runAt m (dst + done) (len - done) true with
      | mk r m₁ =>
        rw [hd] at hx hf hsplit hdone
        have h₁ := h.flagged hf
        cases r with
        | done d =>
          obtain ⟨hokd, hposd, hnd⟩ := hdone d.1 d.2 rfl
          simp only [Outcome.andThen] at hx
          obtain ⟨hf₂, hsplit₂, hdone₂⟩ := runAt_spec m₁ (src + done) (len - done) false
          cases hs : runAt m₁ (src + done) (len - done) false with
          | mk r₂ m₂ =>
            rw [hs] at hx hf₂ hsplit₂ hdone₂
            have h₂ := h₁.flagged hf₂
            cases r₂ with
            | done q =>
              obtain ⟨hoks, hposs, hns⟩ := hdone₂ q.1 q.2 rfl
              have hrun := (hokd.flagged hf₂).shorten (Nat.min_le_left d.2 q.2)
              have hstore := h₂.store hrun fun i => dev (src + (done + i))
              -- The source has not been written.
              have hread : ∀ i < min d.2 q.2, m₂.bytes (q.1 + i) = dev (src + (done + i)) := by
                intro i hi
                have hpage := hS (done + i) (by omega)
                rw [h₂.read hoks (by omega) (by rw [Nat.add_assoc]; exact hpage),
                  patch_of_not (by omega), Nat.add_assoc]
              rw [patch_append] at hstore
              simp only [patch_congr hread] at hx
              exact ih hx hstore (by omega) (by omega)
            | pageFault v =>
              cases hx
              exact ⟨h₂, hle, by simp, fun h => by cases h⟩
            | split => exact absurd rfl hsplit₂
            | error e =>
              cases hx
              exact ⟨h₂, hle, by simp, fun h => by cases h⟩
        | pageFault v =>
          cases hx
          exact ⟨h₁, hle, by simp, fun h => by cases h⟩
        | split => exact absurd rfl hsplit
        | error e =>
          cases hx
          exact ⟨h₁, hle, by simp, fun h => by cases h⟩
    · rw [if_neg hlt] at hx
      cases hx
      exact ⟨h, hle, by simp, fun _ => Nat.le_antisymm hle (Nat.le_of_not_lt hlt)⟩

/-! ### Whole operands -/

theorem resolve_spec {p : Outcome ℕ} (hx : resolve m va len write = (p, m')) :
    Flagged m m' ∧ ∀ base, p = .done base → RunOk m' va base len write := by
  simp only [resolve] at hx
  split at hx
  · next hzero =>
    cases hx
    refine ⟨.refl m, fun base _ => ⟨?_, ?_, ?_⟩⟩
    · intro i hi
      omega
    · intro i hi
      omega
    · intro _ i hi
      omega
  · obtain ⟨hf, -, hdone⟩ := runAt_spec m va len write
    cases hrun : runAt m va len write with
    | mk r m₁ =>
      rw [hrun] at hx hf hdone
      cases r with
      | done run =>
        simp only [Outcome.andThen, Prod.mk.injEq] at hx
        obtain ⟨rfl, rfl⟩ := hx
        refine ⟨hf, fun base hbase => ?_⟩
        split at hbase
        · next hlen =>
          cases hbase
          exact hlen ▸ (hdone run.1 run.2 rfl).1
        · cases hbase
      | pageFault v =>
        cases hx
        exact ⟨hf, fun base hbase => by cases hbase⟩
      | split =>
        cases hx
        exact ⟨hf, fun base hbase => by cases hbase⟩
      | error e =>
        cases hx
        exact ⟨hf, fun base hbase => by cases hbase⟩

variable {r r' : Replay}

theorem scatter_spec (hx : scatter m r va len data = (o, r', m'))
    (h : Sees x m (patch dev va r.done data)) (hle : r.done ≤ len) :
    ∃ d ≤ len, r' = { r with done := d } ∧ Sees x m' (patch dev va d data) ∧ o ≠ .split ∧
      (o = .done () → d = len) := by
  simp only [scatter] at hx
  cases hw : writeRuns m r.done va len data with
  | mk p rest =>
    obtain ⟨d, m₁, y⟩ := rest
    rw [hw] at hx
    cases hx
    obtain ⟨hsees, hd, hsplit, hdone⟩ := writeRuns_spec hw h hle
    exact ⟨d, hd, rfl, hsees, hsplit, hdone⟩

def gathered (dev : ℕ → UInt8) (va n : ℕ) :
    ℕ → UInt8 := patch (fun _ => 0) 0 n fun i => dev (va + i)

@[simp] theorem gathered_zero (dev : ℕ → UInt8) (va : ℕ) : gathered dev va 0 = fun _ => 0 :=
  patch_zero _ _ _

theorem gathered_apply {i : ℕ} (hi : i < n) : gathered dev va n i = dev (va + i) := by
  have h := patch_add (f := fun _ => (0 : UInt8)) (a := 0) (g := fun i => dev (va + i)) hi
  rw [Nat.zero_add] at h
  exact h

theorem gatherA_spec (hx : gatherA m r va len = (o, r', m')) (h : Sees x m dev)
    (hS : ∀ i < len, x.pages ((va + i) / pageSize)) (hphase : r.phase = 0)
    (hbuf : r.a = gathered dev va r.done) (hle : r.done ≤ len) :
    Sees x m' dev ∧ o ≠ .split ∧
      (o = .done () → r' = { r with a := gathered dev va len, phase := 1, done := 0 }) ∧
      (o ≠ .done () → ∃ d ≤ len, r' = { r with a := gathered dev va d, done := d }) := by
  simp only [gatherA, if_pos hphase] at hx
  cases hread : readRuns m r.done va len 0 r.a with
  | mk p rest =>
    obtain ⟨d, m₁, buf⟩ := rest
    rw [hread] at hx
    obtain ⟨⟨hsees, hout⟩, hd, hsplit, hdone⟩ := readRuns_spec hread h hS hbuf hle
    subst hout
    cases p with
    | done u =>
      obtain rfl := hdone rfl
      cases hx
      exact ⟨hsees, by simp, fun _ => rfl, fun hne => absurd rfl hne⟩
    | pageFault v =>
      cases hx
      exact ⟨hsees, by simp, nofun, fun _ => ⟨d, hd, rfl⟩⟩
    | split => exact absurd rfl hsplit
    | error e =>
      cases hx
      exact ⟨hsees, by simp, nofun, fun _ => ⟨d, hd, rfl⟩⟩

theorem gatherB_spec (hx : gatherB m r va len = (o, r', m')) (h : Sees x m dev)
    (hS : ∀ i < len, x.pages ((va + i) / pageSize)) (hphase : r.phase = 1)
    (hbuf : r.b = gathered dev va r.done) (hle : r.done ≤ len) :
    Sees x m' dev ∧ o ≠ .split ∧
      (o = .done () → r' = { r with b := gathered dev va len, phase := 2, done := 0 }) ∧
      (o ≠ .done () → ∃ d ≤ len, r' = { r with b := gathered dev va d, done := d }) := by
  simp only [gatherB, if_pos hphase] at hx
  cases hread : readRuns m r.done va len 0 r.b with
  | mk p rest =>
    obtain ⟨d, m₁, buf⟩ := rest
    rw [hread] at hx
    obtain ⟨⟨hsees, hout⟩, hd, hsplit, hdone⟩ := readRuns_spec hread h hS hbuf hle
    subst hout
    cases p with
    | done u =>
      obtain rfl := hdone rfl
      cases hx
      exact ⟨hsees, by simp, fun _ => rfl, fun hne => absurd rfl hne⟩
    | pageFault v =>
      cases hx
      exact ⟨hsees, by simp, nofun, fun _ => ⟨d, hd, rfl⟩⟩
    | split => exact absurd rfl hsplit
    | error e =>
      cases hx
      exact ⟨hsees, by simp, nofun, fun _ => ⟨d, hd, rfl⟩⟩

theorem resolve_then {β : Type} {next : ℕ → Mem → Outcome β × Mem} {p : Outcome β}
    (hx : Outcome.andThen (resolve m va len write) id next = (p, m')) :
    (∃ base m₁, Flagged m m₁ ∧ RunOk m₁ va base len write ∧ next base m₁ = (p, m')) ∨
      Flagged m m' ∧ ∀ b, p ≠ .done b := by
  cases hr : resolve m va len write with
  | mk o m₁ =>
    obtain ⟨hf, hrun⟩ := resolve_spec hr
    rw [hr] at hx
    cases o with
    | done base => exact .inl ⟨base, m₁, hf, hrun base rfl, hx⟩
    | pageFault v =>
      cases hx
      exact .inr ⟨hf, nofun⟩
    | split =>
      cases hx
      exact .inr ⟨hf, nofun⟩
    | error e =>
      cases hx
      exact .inr ⟨hf, nofun⟩

end SoftGpu.Exec
