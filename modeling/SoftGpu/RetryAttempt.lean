import SoftGpu.Retry

/-!
# What an attempt gets done

Seen from the fault thread, an attempt retires the command or faults on a page that is
not in VRAM. If it has not got on, that is the page it looked for first, and it has
looked at nothing; only a `COPY_D2D` without overlap looks for a second page, with the
run of the first one already looked up. `Plan` says what is left to do and what the next
attempt looks for, and `execute_attempted` is the spec of an attempt in these terms.
-/

namespace SoftGpu.Retry

open Machine Exec

variable {m m' m'' : Mem} {loose blocks : List (ℕ × ℕ)} {regions : List Region}
  {va len done f : ℕ} {write : Bool}

/-! ### What an attempt may change -/

structure Worked (m m' : Mem) : Prop where
  eq : m' = { m with mmu := m'.mmu, frames := m'.frames }
  same : Mmu.Same m.mmu m'.mmu

namespace Worked

theorem refl (m : Mem) : Worked m m := ⟨rfl, .refl _⟩

theorem trans (h : Worked m m') (h' : Worked m' m'') : Worked m m'' :=
  ⟨by rw [h'.eq, h.eq], h.same.trans h'.same⟩

theorem of_flagged (h : Flagged m m') : Worked m m' := ⟨by rw [h.eq], h.same⟩

theorem setBytes (h : Worked m m') (g : ℕ → UInt8) : Worked m (m'.setBytes g) :=
  ⟨by rw [Mem.setBytes, h.eq], h.same⟩

theorem inv (h : Worked m m') (hi : MemInv m loose blocks regions) :
    MemInv m' loose blocks regions := by
  rw [h.eq]
  exact (hi.same h.same (.refl _)).bytes _ _

theorem resident (h : Worked m m') : m'.resident = m.resident := by rw [h.eq]

theorem prefetchPages (h : Worked m m') : m'.prefetchPages = m.prefetchPages := by rw [h.eq]

theorem freeFrames (h : Worked m m') : freeFrames m' = freeFrames m := by
  have hvram : m'.vram = m.vram := by rw [h.eq]
  rw [Retry.freeFrames, Retry.freeFrames, hvram, Mem.vramSize, h.same.vramPages, Mem.vramSize]

theorem capacity (h : Worked m m') : capacity m' = capacity m := by
  rw [Retry.capacity, Retry.capacity, h.freeFrames, h.resident]

end Worked

def Faults (m : Mem) (f : ℕ) : Prop :=
  f % pageSize = 0 ∧ (m.mmu.pte (f / pageSize)).present = true ∧
    (m.mmu.pte (f / pageSize)).inVram = false

theorem Faults.worked (h : Faults m f) (hw : Worked m' m) : Faults m' f := by
  obtain ⟨hmod, hp, hin⟩ := h
  exact ⟨hmod, (hw.same.present _).symm.trans hp, (hw.same.inVram _).symm.trans hin⟩

/-! ### Runs -/

theorem runLoop_done {turns base got : ℕ} (hgot : got ≠ 0) :
    ∃ run, (runLoop va len write turns base got m).1 = .done run := by
  induction turns generalizing base got m with
  | zero => exact ⟨_, rfl⟩
  | succ turns ih =>
    simp only [runLoop]
    split
    · cases htr : translate m (va + got) write with
      | mk t m' =>
        cases t with
        | ok frame =>
          dsimp only
          split
          · exact ⟨_, rfl⟩
          · exact ih (by omega)
        | hostResident => simp
        | notPresent => simp
    · exact ⟨_, rfl⟩

theorem runAt_fault (h : runAt m va len write = (.pageFault f, m')) :
    m' = m ∧ f = va / pageSize * pageSize ∧ Faults m f := by
  have hloop : runLoop va len write len 0 0 m = (.pageFault f, m') := by
    simp only [runAt] at h
    cases hx : runLoop va len write len 0 0 m with
    | mk o m₁ =>
      rw [hx] at h
      cases o with
      | done run =>
        simp only [Outcome.andThen] at h
        split at h <;> cases h
      | pageFault g =>
        cases h
        rfl
      | split => cases h
      | error e => cases h
  cases len with
  | zero => cases hloop
  | succ n =>
    simp only [runLoop, if_pos (Nat.succ_pos n), Nat.add_zero] at hloop
    cases htr : translate m va write with
    | mk t m₁ =>
      rw [htr] at hloop
      cases t with
      | ok frame =>
        have hpos : 0 + min (n + 1 - 0) (pageSize - va % pageSize) ≠ 0 := by
          have := Nat.mod_lt va pageSize_pos
          omega
        obtain ⟨run, hrun⟩ := runLoop_done hpos
        exact absurd (hrun.symm.trans (congrArg Prod.fst hloop)) (by simp)
      | hostResident =>
        cases hloop
        simp only [Exec.translate] at htr
        split at htr
        · cases htr
        · next hmapped =>
          split at htr
          · next hin =>
            cases htr
            simp only [not_or, Bool.not_eq_false] at hmapped
            exact ⟨rfl, rfl, mul_mod_pageSize _, by simpa using hmapped.2, by simpa using hin⟩
          · cases htr
      | notPresent => cases hloop

def Stops (m : Mem) (va len done : ℕ) (f d : ℕ) (m' : Mem) : Prop :=
  done ≤ d ∧ d < len ∧ Faults m f ∧ (d = done → m' = m ∧ f / pageSize = (va + done) / pageSize)

section
variable {σ : Type} {op : ℕ → ℕ → ℕ → Mem × σ → Mem × σ}

theorem forRuns_stops (hop : ∀ p off n s, Worked s.1 (op p off n s).1) {turns : ℕ} :
    ∀ {done : ℕ} {m : Mem} {x : σ} {o : Outcome Unit} {d : ℕ} {m' : Mem} {x' : σ},
      forRuns va len write op turns done (m, x) = (o, d, m', x') →
      Worked m m' ∧ ∀ f, o = .pageFault f → Stops m va len done f d m' := by
  induction turns with
  | zero =>
    intro done m x o d m' x' hx
    cases hx
    exact ⟨.refl m, fun f hf => by cases hf⟩
  | succ turns ih =>
    intro done m x o d m' x' hx
    simp only [forRuns] at hx
    split at hx
    · next hlt =>
      obtain ⟨hflag, hsplit, hdone⟩ := runAt_spec m (va + done) (len - done) write
      cases hrun : runAt m (va + done) (len - done) write with
      | mk r m₁ =>
        rw [hrun] at hx hflag hsplit hdone
        have hw : Worked m m₁ := .of_flagged hflag
        cases r with
        | done run =>
          obtain ⟨-, hpos, -⟩ := hdone run.1 run.2 rfl
          simp only [Outcome.andThen] at hx
          have hw' := hw.trans (hop run.1 done run.2 (m₁, x))
          obtain ⟨hwork, hstops⟩ := ih hx
          refine ⟨hw'.trans hwork, fun f hf => ?_⟩
          obtain ⟨hle, hd, hfault, -⟩ := hstops f hf
          exact ⟨by omega, hd, hfault.worked hw', fun heq => by omega⟩
        | pageFault g =>
          cases hx
          obtain ⟨rfl, hg, hfault⟩ := runAt_fault hrun
          refine ⟨hw, fun f hf => ?_⟩
          cases hf
          exact ⟨Nat.le_refl _, hlt, hfault, fun _ => ⟨rfl, by rw [hg, mul_div_pageSize]⟩⟩
        | split => exact absurd rfl hsplit
        | error e =>
          cases hx
          exact ⟨hw, fun f hf => by cases hf⟩
    · cases hx
      exact ⟨.refl m, fun f hf => by cases hf⟩

end

theorem copyRuns_stops {dst src turns : ℕ} :
    ∀ {done : ℕ} {m : Mem} {o : Outcome Unit} {d : ℕ} {m' : Mem},
      copyRuns dst src len turns done m = (o, d, m') →
      Worked m m' ∧ ∀ f, o = .pageFault f → done ≤ d ∧ d < len ∧ Faults m f ∧
        (d = done → m' = m ∧ f / pageSize = (dst + done) / pageSize ∨
          f / pageSize = (src + done) / pageSize) := by
  induction turns with
  | zero =>
    intro done m o d m' hx
    cases hx
    exact ⟨.refl m, fun f hf => by cases hf⟩
  | succ turns ih =>
    intro done m o d m' hx
    simp only [copyRuns] at hx
    split at hx
    · next hlt =>
      obtain ⟨hflag, hsplit, hdone⟩ := runAt_spec m (dst + done) (len - done) true
      cases hrun : runAt m (dst + done) (len - done) true with
      | mk r m₁ =>
        rw [hrun] at hx hflag hsplit hdone
        have hw : Worked m m₁ := .of_flagged hflag
        cases r with
        | done run =>
          obtain ⟨-, hpos, -⟩ := hdone run.1 run.2 rfl
          simp only [Outcome.andThen] at hx
          obtain ⟨hflag₂, hsplit₂, hdone₂⟩ := runAt_spec m₁ (src + done) (len - done) false
          cases hrun₂ : runAt m₁ (src + done) (len - done) false with
          | mk r₂ m₂ =>
            rw [hrun₂] at hx hflag₂ hsplit₂ hdone₂
            have hw₂ : Worked m m₂ := hw.trans (.of_flagged hflag₂)
            cases r₂ with
            | done run₂ =>
              obtain ⟨-, hpos₂, -⟩ := hdone₂ run₂.1 run₂.2 rfl
              obtain ⟨hwork, hstops⟩ := ih hx
              have hw₃ := hw₂.setBytes (patch m₂.bytes run.1 (min run.2 run₂.2) fun i =>
                m₂.bytes (run₂.1 + i))
              refine ⟨hw₃.trans hwork, fun f hf => ?_⟩
              obtain ⟨hle, hd, hfault, -⟩ := hstops f hf
              exact ⟨by omega, hd, hfault.worked hw₃, fun heq => by omega⟩
            | pageFault g =>
              cases hx
              obtain ⟨rfl, hg, hfault⟩ := runAt_fault hrun₂
              refine ⟨hw₂, fun f hf => ?_⟩
              cases hf
              exact ⟨Nat.le_refl _, hlt, hfault.worked hw,
                fun _ => .inr (by rw [hg, mul_div_pageSize])⟩
            | split => exact absurd rfl hsplit₂
            | error e =>
              cases hx
              exact ⟨hw₂, fun f hf => by cases hf⟩
        | pageFault g =>
          cases hx
          obtain ⟨rfl, hg, hfault⟩ := runAt_fault hrun
          refine ⟨hw, fun f hf => ?_⟩
          cases hf
          exact ⟨Nat.le_refl _, hlt, hfault, fun _ => .inl ⟨rfl, by rw [hg, mul_div_pageSize]⟩⟩
        | split => exact absurd rfl hsplit
        | error e =>
          cases hx
          exact ⟨hw, fun f hf => by cases hf⟩
    · cases hx
      exact ⟨.refl m, fun f hf => by cases hf⟩

/-! ### Whole operands -/

theorem resolve_faults {write : Bool} {o : Outcome ℕ} (hx : resolve m va len write = (o, m')) :
    Worked m m' ∧ ∀ f, o = .pageFault f → Faults m f := by
  refine ⟨.of_flagged (resolve_spec hx).1, fun f hf => ?_⟩
  subst hf
  simp only [resolve] at hx
  split at hx
  · cases hx
  · cases hrun : runAt m va len write with
    | mk r m₁ =>
      rw [hrun] at hx
      cases r with
      | done run =>
        simp only [Outcome.andThen, Prod.mk.injEq] at hx
        obtain ⟨hx, -⟩ := hx
        split at hx <;> cases hx
      | pageFault g =>
        cases hx
        exact (runAt_fault hrun).2.2
      | split => cases hx
      | error e => cases hx

theorem resolve_then_faults {β : Type} {next : ℕ → Mem → Outcome β × Mem} {o : Outcome β}
    (hnext : ∀ base m₁ o m₂, next base m₁ = (o, m₂) →
      Worked m₁ m₂ ∧ ∀ f, o = .pageFault f → Faults m₁ f)
    (hx : Outcome.andThen (resolve m va len write) id next = (o, m')) :
    Worked m m' ∧ ∀ f, o = .pageFault f → Faults m f := by
  cases hr : resolve m va len write with
  | mk p m₁ =>
    obtain ⟨hw, hfault⟩ := resolve_faults hr
    rw [hr] at hx
    cases p with
    | done base =>
      obtain ⟨hw', hfault'⟩ := hnext base m₁ o m' hx
      exact ⟨hw.trans hw', fun f hf => (hfault' f hf).worked hw⟩
    | pageFault v =>
      cases hx
      refine ⟨hw, fun f hf => ?_⟩
      cases hf
      exact hfault _ rfl
    | split =>
      cases hx
      exact ⟨hw, nofun⟩
    | error e =>
      cases hx
      exact ⟨hw, nofun⟩

theorem done_faults {β : Type} {x : β} {o : Outcome β} (hx : (Outcome.done x, m) = (o, m')) :
    Worked m m' ∧ ∀ f, o = .pageFault f → Faults m f := by
  cases hx
  exact ⟨.refl m, nofun⟩

theorem resolveAll_faults {c : Cmd} {k : Kernel} {o : Outcome (ℕ × ℕ × ℕ)}
    (hx : resolveAll m c k = (o, m')) : Worked m m' ∧ ∀ f, o = .pageFault f → Faults m f :=
  resolve_then_faults (fun _ _ _ _ h₁ =>
    resolve_then_faults (fun _ _ _ _ h₂ =>
      resolve_then_faults (fun _ _ _ _ h₃ => done_faults h₃) h₂) h₁) hx

theorem resolveBoth_faults {c : Cmd} {o : Outcome (ℕ × ℕ)} (hx : resolveBoth m c = (o, m')) :
    Worked m m' ∧ ∀ f, o = .pageFault f → Faults m f :=
  resolve_then_faults (fun _ _ _ _ h₁ =>
    resolve_then_faults (fun _ _ _ _ h₂ => done_faults h₂) h₁) hx

/-! ### Gather and scatter -/

variable {r r' : Replay} {o : Outcome Unit} {src : ℕ → UInt8}

theorem scatter_stops (hx : scatter m r va len src = (o, r', m')) :
    Worked m m' ∧ ∃ d, r' = { r with done := d } ∧
      ∀ f, o = .pageFault f → Stops m va len r.done f d m' := by
  simp only [scatter, writeRuns] at hx
  cases hw : forRuns va len true (writeRun src) len r.done (m, ()) with
  | mk p rest =>
    obtain ⟨d, m₁, y⟩ := rest
    rw [hw] at hx
    cases hx
    obtain ⟨hwork, hstops⟩ := forRuns_stops (fun _ _ _ s => (Worked.refl s.1).setBytes _) hw
    exact ⟨hwork, d, rfl, hstops⟩

theorem readRuns_stops {dst d : ℕ} {buf buf' : ℕ → UInt8}
    (hx : readRuns m done va len dst buf = (o, d, m', buf')) :
    Worked m m' ∧ ∀ f, o = .pageFault f → Stops m va len done f d m' := by
  have hop : ∀ p off n s, Worked s.1 (readRun dst p off n s).1 := fun _ _ _ s => .refl s.1
  exact forRuns_stops hop hx

theorem gatherA_stops (hx : gatherA m r va len = (o, r', m')) :
    Worked m m' ∧
      (∀ f, o = .pageFault f → r.phase = 0 ∧
        ∃ buf d, r' = { r with a := buf, done := d } ∧ Stops m va len r.done f d m') ∧
      (o = .done () → (r.phase = 0 ∧ r'.phase = 1 ∧ r'.done = 0 ∨ r.phase ≠ 0 ∧ r' = r ∧ m' = m) ∧
        r'.gather = r.gather) := by
  simp only [gatherA] at hx
  split at hx
  · next hphase =>
    cases hread : readRuns m r.done va len 0 r.a with
    | mk p rest =>
      obtain ⟨d, m₁, buf⟩ := rest
      rw [hread] at hx
      obtain ⟨hwork, hstops⟩ := readRuns_stops hread
      cases p with
      | done u =>
        cases hx
        exact ⟨hwork, fun f hf => (by cases hf), fun _ => ⟨.inl ⟨hphase, rfl, rfl⟩, rfl⟩⟩
      | pageFault g =>
        cases hx
        exact ⟨hwork, fun f hf => ⟨hphase, buf, d, rfl, hstops f hf⟩, fun hd => by cases hd⟩
      | split =>
        cases hx
        exact ⟨hwork, fun f hf => (by cases hf), fun hd => by cases hd⟩
      | error e =>
        cases hx
        exact ⟨hwork, fun f hf => (by cases hf), fun hd => by cases hd⟩
  · next hphase =>
    cases hx
    exact ⟨.refl m, fun f hf => (by cases hf), fun _ => ⟨.inr ⟨hphase, rfl, rfl⟩, rfl⟩⟩

theorem gatherB_stops (hx : gatherB m r va len = (o, r', m')) :
    Worked m m' ∧
      (∀ f, o = .pageFault f → r.phase = 1 ∧
        ∃ buf d, r' = { r with b := buf, done := d } ∧ Stops m va len r.done f d m') ∧
      (o = .done () → (r.phase = 1 ∧ r'.phase = 2 ∧ r'.done = 0 ∨ r.phase ≠ 1 ∧ r' = r ∧ m' = m) ∧
        r'.gather = r.gather) := by
  simp only [gatherB] at hx
  split at hx
  · next hphase =>
    cases hread : readRuns m r.done va len 0 r.b with
    | mk p rest =>
      obtain ⟨d, m₁, buf⟩ := rest
      rw [hread] at hx
      obtain ⟨hwork, hstops⟩ := readRuns_stops hread
      cases p with
      | done u =>
        cases hx
        exact ⟨hwork, fun f hf => (by cases hf), fun _ => ⟨.inl ⟨hphase, rfl, rfl⟩, rfl⟩⟩
      | pageFault g =>
        cases hx
        exact ⟨hwork, fun f hf => ⟨hphase, buf, d, rfl, hstops f hf⟩, fun hd => by cases hd⟩
      | split =>
        cases hx
        exact ⟨hwork, fun f hf => (by cases hf), fun hd => by cases hd⟩
      | error e =>
        cases hx
        exact ⟨hwork, fun f hf => (by cases hf), fun hd => by cases hd⟩
  · next hphase =>
    cases hx
    exact ⟨.refl m, fun f hf => (by cases hf), fun _ => ⟨.inr ⟨hphase, rfl, rfl⟩, rfl⟩⟩

/-! ### What an attempt gets done -/

structure Plan where
  work : ℕ
  first : ℕ
  second : ℕ

def Plan.operand (va len done after : ℕ) : Plan :=
  ⟨len - done + after, (va + done) / pageSize, (va + done) / pageSize⟩

def movePlan (c : Cmd) (r : Replay) : Plan :=
  if r.gather = false then ⟨c.size.toNat + c.size.toNat + 2, 0, 0⟩
  else if r.phase = 0 then .operand c.src0.toNat c.size.toNat r.done (c.size.toNat + 1)
  else .operand c.dst.toNat c.size.toNat r.done 0

def computePlan (c : Cmd) (k : Kernel) (r : Replay) : Plan :=
  if r.gather = false then ⟨k.bytesA + k.bytesB + k.bytesD + 3, 0, 0⟩
  else if r.phase = 0 then .operand c.src0.toNat k.bytesA r.done (k.bytesB + k.bytesD + 2)
  else if r.phase = 1 then .operand c.src1.toNat k.bytesB r.done (k.bytesD + 1)
  else .operand c.dst.toNat k.bytesD r.done 0

def copyPlan (c : Cmd) (r : Replay) : Plan :=
  if r.done < c.size.toNat then
    ⟨c.size.toNat - r.done, (c.dst.toNat + r.done) / pageSize, (c.src0.toNat + r.done) / pageSize⟩
  else ⟨0, 0, 0⟩

def plan (fl : Floats) (c : Cmd) (r : Replay) : Plan :=
  match c.opcode with
  | .nop | .waitFence => ⟨0, 0, 0⟩
  | .fill | .copyH2D => .operand c.dst.toNat c.size.toNat r.done 0
  | .copyD2H => .operand c.src0.toNat c.size.toNat r.done 0
  | .copyD2D => if c.overlap then movePlan c r else copyPlan c r
  | .vaddF32 | .gemmF32 => computePlan c (c.kernel fl) r

/-- An attempt that faults on `f` has got on, or it has missed one of the two pages. The
first one it misses before it looks at anything. -/
def Held (p p' : Plan) (m m' : Mem) (f : ℕ) : Prop :=
  p'.work < p.work ∨ p' = p ∧ (f / pageSize = p.second ∨ f / pageSize = p.first ∧ m' = m)

def Attempted (p p' : Plan) (m : Mem) (o : Outcome Unit) (m' : Mem) : Prop :=
  Worked m m' ∧ ∀ f, o = .pageFault f → Faults m f ∧ Held p p' m m' f

theorem Stops.held {after d : ℕ} (h : Stops m va len done f d m') :
    Faults m f ∧ Held (.operand va len done after) (.operand va len d after) m m' f := by
  obtain ⟨hle, hlt, hfault, hstay⟩ := h
  refine ⟨hfault, ?_⟩
  obtain hd | rfl := Nat.lt_or_eq_of_le hle
  · left
    simp only [Plan.operand]
    omega
  · exact .inr ⟨rfl, .inl (hstay rfl).2⟩

theorem Attempted.of_work {p p₁ p' : Plan} {m₁ : Mem} (hw : Worked m m₁)
    (h : Attempted p₁ p' m₁ o m') (hlt : p₁.work < p.work) : Attempted p p' m o m' := by
  refine ⟨hw.trans h.1, fun f hf => ?_⟩
  obtain ⟨hfault, hheld⟩ := h.2 f hf
  refine ⟨hfault.worked hw, .inl ?_⟩
  obtain hlt' | ⟨rfl, -⟩ := hheld
  · omega
  · exact hlt

theorem Attempted.of_not_fault {p p' : Plan} (hw : Worked m m') (h : ∀ f, o ≠ .pageFault f) :
    Attempted p p' m o m' :=
  ⟨hw, fun f hf => absurd hf (h f)⟩

theorem scatter_attempted (after : ℕ) (hx : scatter m r va len src = (o, r', m')) :
    Attempted (.operand va len r.done after) (.operand va len r'.done after) m o m' := by
  obtain ⟨hw, d, rfl, hstops⟩ := scatter_stops hx
  exact ⟨hw, fun f hf => (hstops f hf).held⟩

theorem readRuns_attempted {dst d : ℕ} {buf buf' : ℕ → UInt8} (after : ℕ)
    (hx : readRuns m done va len dst buf = (o, d, m', buf')) :
    Attempted (.operand va len done after) (.operand va len d after) m o m' := by
  obtain ⟨hw, hstops⟩ := readRuns_stops hx
  exact ⟨hw, fun f hf => (hstops f hf).held⟩

theorem copyRuns_attempted {c : Cmd} {d : ℕ}
    (hx : copyRuns c.dst.toNat c.src0.toNat c.size.toNat c.size.toNat r.done m = (o, d, m')) :
    Attempted (copyPlan c r) (copyPlan c { r with done := d }) m o m' := by
  obtain ⟨hw, hstops⟩ := copyRuns_stops hx
  refine ⟨hw, fun f hf => ?_⟩
  obtain ⟨hle, hlt, hfault, hstay⟩ := hstops f hf
  refine ⟨hfault, ?_⟩
  simp only [Held, copyPlan, if_pos hlt, if_pos (Nat.lt_of_le_of_lt hle hlt)]
  obtain hd | rfl := Nat.lt_or_eq_of_le hle
  · left
    omega
  · obtain ⟨hm, hpage⟩ | hpage := hstay rfl
    · exact .inr ⟨rfl, .inr ⟨hpage, hm⟩⟩
    · exact .inr ⟨rfl, .inl hpage⟩

theorem scatter_phase (hx : scatter m r va len src = (o, r', m')) :
    r'.phase = r.phase ∧ r'.gather = r.gather := by
  obtain ⟨-, d, rfl, -⟩ := scatter_stops hx
  exact ⟨rfl, rfl⟩

section
variable {c : Cmd}

theorem movePhases_attempted (hg : r.gather = true) (hx : movePhases m r c = (o, r', m')) :
    Attempted (movePlan c r) (movePlan c r') m o m' := by
  simp only [movePhases] at hx
  cases ha : gatherA m r c.src0.toNat c.size.toNat with
  | mk p rest =>
    obtain ⟨r₁, m₁⟩ := rest
    rw [ha] at hx
    obtain ⟨hw, hstops, hdone⟩ := gatherA_stops ha
    cases p with
    | done u =>
      dsimp only [Outcome.andThen] at hx
      have hscatter := scatter_attempted 0 hx
      obtain ⟨hphase', hgather'⟩ := scatter_phase hx
      obtain ⟨hcase, hgather⟩ := hdone rfl
      have hne : r₁.phase ≠ 0 := by
        obtain ⟨-, h₁, -⟩ | ⟨hne, rfl, -⟩ := hcase <;> omega
      have hlast : ∀ {s : Replay}, s.phase = r₁.phase → s.gather = true →
          movePlan c s = .operand c.dst.toNat c.size.toNat s.done 0 := by
        intro s hs hsg
        simp [movePlan, hsg, hs, hne]
      rw [hgather, hg] at hgather'
      rw [hlast hphase' hgather']
      obtain ⟨h₀, h₁, hzero⟩ | ⟨-, rfl, rfl⟩ := hcase
      · refine hscatter.of_work hw ?_
        simp only [movePlan, hg, h₀, hzero, Plan.operand, Bool.true_eq_false, if_false, if_true]
        omega
      · rw [hlast rfl hg]
        exact hscatter
    | pageFault g =>
      cases hx
      refine ⟨hw, fun f hf => ?_⟩
      obtain ⟨h₀, buf, d, rfl, hstop⟩ := hstops f hf
      simpa [movePlan, hg, h₀] using hstop.held
    | split =>
      cases hx
      exact .of_not_fault hw nofun
    | error e =>
      cases hx
      exact .of_not_fault hw nofun

theorem movePlan_gather_lt (hg : r.gather = false) :
    (movePlan c { r with gather := true }).work < (movePlan c r).work := by
  simp only [movePlan, hg, Plan.operand, Bool.true_eq_false, if_false, if_true]
  split_ifs <;> dsimp only <;> omega

theorem move_attempted (hx : move m r c = (o, r', m')) :
    Attempted (movePlan c r) (movePlan c r') m o m' := by
  simp only [move] at hx
  split at hx
  · next hg => exact movePhases_attempted hg hx
  · next hg =>
    rw [Bool.not_eq_true] at hg
    cases hr : resolveBoth m c with
    | mk p m₁ =>
      rw [hr] at hx
      obtain ⟨hw, hfault⟩ := resolveBoth_faults hr
      cases p with
      | done x =>
        cases hx
        exact .of_not_fault (hw.setBytes _) nofun
      | pageFault g =>
        cases hx
        refine ⟨hw, fun f hf => ?_⟩
        cases hf
        exact ⟨hfault _ rfl, .inl (movePlan_gather_lt hg)⟩
      | split => exact (movePhases_attempted rfl hx).of_work hw (movePlan_gather_lt hg)
      | error e =>
        cases hx
        exact .of_not_fault hw nofun

variable {k : Kernel}

theorem computeC_done (k : Kernel) (r : Replay) :
    (computeC k r).done = r.done ∧ (computeC k r).gather = r.gather ∧
      (1 < r.phase → 1 < (computeC k r).phase) := by
  simp only [computeC]
  split <;> simp

theorem computePlan_last (hg : r.gather = true) (h : 1 < r.phase) :
    computePlan c k r = .operand c.dst.toNat k.bytesD r.done 0 := by
  have h₀ : r.phase ≠ 0 := by omega
  have h₁ : r.phase ≠ 1 := by omega
  simp [computePlan, hg, h₀, h₁]

theorem computeRest_attempted (hg : r.gather = true) (h₀ : r.phase ≠ 0)
    (hx : Outcome.andThen (gatherB m r c.src1.toNat k.bytesB) id (fun _ s₂ =>
      scatter s₂.2 (computeC k s₂.1) c.dst.toNat k.bytesD (computeC k s₂.1).c) = (o, r', m')) :
    Attempted (computePlan c k r) (computePlan c k r') m o m' := by
  cases hb : gatherB m r c.src1.toNat k.bytesB with
  | mk p rest =>
    obtain ⟨r₁, m₁⟩ := rest
    rw [hb] at hx
    obtain ⟨hw, hstops, hdone⟩ := gatherB_stops hb
    cases p with
    | done u =>
      dsimp only [Outcome.andThen] at hx
      have hscatter := scatter_attempted 0 hx
      obtain ⟨hphase', hgather'⟩ := scatter_phase hx
      obtain ⟨hcase, hgather⟩ := hdone rfl
      obtain ⟨hd, hcg, hcp⟩ := computeC_done k r₁
      have hlate : 1 < r₁.phase := by
        obtain ⟨-, h₂, -⟩ | ⟨h₁, rfl, -⟩ := hcase <;> omega
      rw [hd] at hscatter
      rw [hcg, hgather, hg] at hgather'
      rw [computePlan_last hgather' (hphase' ▸ hcp hlate)]
      obtain ⟨h₁, -, hzero⟩ | ⟨-, rfl, rfl⟩ := hcase
      · refine hscatter.of_work hw ?_
        simp only [computePlan, hg, h₁, hzero, Plan.operand]
        simp
        omega
      · rw [computePlan_last hg hlate]
        exact hscatter
    | pageFault g =>
      cases hx
      refine ⟨hw, fun f hf => ?_⟩
      obtain ⟨h₁, buf, d, rfl, hstop⟩ := hstops f hf
      simpa [computePlan, hg, h₁] using hstop.held
    | split =>
      cases hx
      exact .of_not_fault hw nofun
    | error e =>
      cases hx
      exact .of_not_fault hw nofun

theorem computePhases_attempted (hg : r.gather = true)
    (hx : computePhases m r c k = (o, r', m')) :
    Attempted (computePlan c k r) (computePlan c k r') m o m' := by
  simp only [computePhases] at hx
  cases ha : gatherA m r c.src0.toNat k.bytesA with
  | mk p rest =>
    obtain ⟨r₁, m₁⟩ := rest
    rw [ha] at hx
    obtain ⟨hw, hstops, hdone⟩ := gatherA_stops ha
    cases p with
    | done u =>
      dsimp only [Outcome.andThen] at hx
      obtain ⟨hcase, hgather⟩ := hdone rfl
      rw [hg] at hgather
      obtain ⟨h₀, h₁, hzero⟩ | ⟨hne, rfl, rfl⟩ := hcase
      · refine (computeRest_attempted hgather (by omega) hx).of_work hw ?_
        simp only [computePlan, hg, hgather, h₀, h₁, hzero, Plan.operand]
        simp
        omega
      · exact computeRest_attempted hg hne hx
    | pageFault g =>
      cases hx
      refine ⟨hw, fun f hf => ?_⟩
      obtain ⟨h₀, buf, d, rfl, hstop⟩ := hstops f hf
      simpa [computePlan, hg, h₀] using hstop.held
    | split =>
      cases hx
      exact .of_not_fault hw nofun
    | error e =>
      cases hx
      exact .of_not_fault hw nofun

theorem computePlan_gather_lt (hg : r.gather = false) :
    (computePlan c k { r with gather := true }).work < (computePlan c k r).work := by
  simp only [computePlan, hg, Plan.operand, Bool.true_eq_false, if_false, if_true]
  split_ifs <;> dsimp only <;> omega

theorem compute_attempted (hx : compute m r c k = (o, r', m')) :
    Attempted (computePlan c k r) (computePlan c k r') m o m' := by
  simp only [compute] at hx
  split at hx
  · next hg => exact computePhases_attempted hg hx
  · next hg =>
    rw [Bool.not_eq_true] at hg
    cases hr : resolveAll m c k with
    | mk p m₁ =>
      rw [hr] at hx
      obtain ⟨hw, hfault⟩ := resolveAll_faults hr
      cases p with
      | done x =>
        cases hx
        exact .of_not_fault (hw.setBytes _) nofun
      | pageFault g =>
        cases hx
        refine ⟨hw, fun f hf => ?_⟩
        cases hf
        exact ⟨hfault _ rfl, .inl (computePlan_gather_lt hg)⟩
      | split => exact (computePhases_attempted rfl hx).of_work hw (computePlan_gather_lt hg)
      | error e =>
        cases hx
        exact .of_not_fault hw nofun

end

theorem execute_attempted (fl : Floats) (engine : ℕ) (c : Cmd) (w : World) (r : Replay) :
    Attempted (plan fl c r) (plan fl c (execute fl engine w r c).2.1) w.mem
      (execute fl engine w r c).1 (execute fl engine w r c).2.2.mem := by
  simp only [execute]
  split
  · exact .of_not_fault (.refl _) nofun
  · cases hop : c.opcode with
    | nop => exact .of_not_fault (.refl _) nofun
    | fill =>
      simp only [plan, hop]
      exact scatter_attempted 0 rfl
    | copyH2D =>
      simp only [plan, hop]
      exact scatter_attempted 0 rfl
    | copyD2H =>
      simp only [plan, hop]
      exact readRuns_attempted 0 rfl
    | copyD2D =>
      simp only [plan, hop]
      split
      · exact move_attempted rfl
      · exact copyRuns_attempted rfl
    | vaddF32 =>
      simp only [plan, hop]
      exact compute_attempted rfl
    | gemmF32 =>
      simp only [plan, hop]
      exact compute_attempted rfl
    | waitFence => exact .of_not_fault (.refl _) nofun

end SoftGpu.Retry
