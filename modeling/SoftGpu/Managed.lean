import SoftGpu.Mmu
import SoftGpu.VramAlloc

/-!
# Managed memory: residency, eviction, migration, prefetch

The functions of the driver that run under `mem_lock`, on the state that lock
guards: the VRAM allocator, the page table, the CLOCK list of resident managed
pages with its index `resident_pos`, the mapped managed ranges, and the bytes of
the frames and of the host pages.

Engines run while the lock is held. What they and the kernel decide during a
critical section is an argument: which reference bits are set again before the
CLOCK hand looks, whether a dirty bit arrives late, whether `UFFDIO_COPY` or
`madvise` fails. `std::list` iterators are node numbers. The statistics counters
are left out.
-/

namespace SoftGpu

abbrev Page : Type := Fin pageSize → UInt8

def Page.zero : Page := fun _ => 0

structure Span where
  stop : ℕ
  host : ℕ
  id : ℕ
  deriving DecidableEq, Repr

structure Mem where
  uffd : Bool
  vram : VramAllocator
  mmu : Mmu
  resident : List (ℕ × ℕ)
  residentPos : ℕ → Option ℕ
  nextNode : ℕ
  ranges : KeyMap Span
  prefetchPages : ℕ
  frames : ℕ → Page
  hostMem : ℕ → Option Page

structure Env where
  referenced : ℕ → Bool
  lateDirty : Bool
  copyError : Option Errno
  madviseFails : Bool

namespace Mem

def vramSize (m : Mem) : ℕ := m.mmu.vramPages * pageSize

def badFrame (m : Mem) (pa host : ℕ) : Bool := pa % pageSize ≠ 0 ∨ m.vramSize ≤ pa ∨ host = 0

def copyIn (m : Mem) (pa host : ℕ) : Except Errno Mem :=
  if m.badFrame pa host then .error .efault
  else .ok { m with frames := Function.update m.frames pa ((m.hostMem host).getD .zero) }

def publishHost (m : Mem) (host pa : ℕ) (dirty : Bool) (env : Env) : Except Errno Mem :=
  if m.uffd = false then
    if dirty = false then .ok m
    else if m.badFrame pa host then .error .efault
    else .ok { m with hostMem := Function.update m.hostMem host (some (m.frames pa)) }
  -- The bounce buffer is never null, so only the frame is checked.
  else if m.badFrame pa 1 then .error .efault
  else
    match env.copyError with
    | some e => .error e
    | none =>
      -- EEXIST, a page that is already there, counts as success.
      match m.hostMem host with
      | some _ => .ok m
      | none => .ok { m with hostMem := Function.update m.hostMem host (some (m.frames pa)) }

def forgetResident (m : Mem) (va : ℕ) : Mem :=
  match m.residentPos va with
  | none => m
  | some n => { m with
      resident := m.resident.filter fun e => e.1 ≠ n
      residentPos := Function.update m.residentPos va none }

def evictLocked (m : Mem) (va : ℕ) (env : Env) : Option ℕ × Mem :=
  let pg := m.mmu.page va
  let (old, mmu₁) := m.mmu.beginEvict va
  if old.inVram = false ∨ pg.host = 0 then (none, { m with mmu := mmu₁ })
  else
    -- `quiesce` returns; a command that was running may have set DIRTY meanwhile.
    let (late, mmu₂) := (mmu₁.orFlags va env.lateDirty false).endEvict va
    let m' := { m with mmu := mmu₂ }
    match m'.publishHost pg.host old.pa (old.dirty || late) env with
    | .error _ => (none, { m' with mmu := (mmu₂.makeResident va old.pa).toOption.getD mmu₂ })
    | .ok m'' => (some old.pa, m''.forgetResident va)

def passHand (m : Mem) (referenced : ℕ → Bool) : ℕ → Mem
  | 0 => m
  | n + 1 =>
    match m.resident with
    | [] => m
    | e :: rest =>
      let (set, mmu') := (m.mmu.orFlags e.2 false (referenced n)).testAndClearAccessed e.2
      if set then passHand { m with mmu := mmu', resident := rest ++ [e] } referenced n
      else { m with mmu := mmu' }

def evictOneLocked (m : Mem) (env : Env) : Option ℕ × Mem :=
  let m' := m.passHand env.referenced m.resident.length
  match m'.resident with
  | [] => (none, m')
  | e :: _ => m'.evictLocked e.2 env

def freeFrame (m : Mem) (pa : ℕ) : Mem := { m with vram := m.vram.freeAddr pa }

def evictAllLocked (m : Mem) (envs : ℕ → Env) : ℕ → Mem
  | 0 => m
  | n + 1 =>
    match m.resident with
    | [] => m
    | e :: _ =>
      match m.evictLocked e.2 (envs n) with
      | (none, m') => m'
      | (some pa, m') => (m'.freeFrame pa).evictAllLocked envs n

def allocFrame (m : Mem) (bytes : ℕ) : Option (ℕ × Mem) :=
  (m.vram.alloc bytes).map fun r => (r.1, { m with vram := r.2 })

def takeFrame (m : Mem) (env : Env) : Option ℕ × Mem :=
  match m.allocFrame pageSize with
  | some (pa, m') => (some pa, m')
  | none => m.evictOneLocked env

def install (m : Mem) (va frame host : ℕ) (env : Env) : Except Errno Mem :=
  match m.mmu.makeResident va frame with
  | .error e => .error e
  | .ok mmu' => .ok { m with
      mmu := mmu'
      hostMem :=
        if m.uffd && !env.madviseFails then Function.update m.hostMem host none else m.hostMem
      resident := m.resident ++ [(m.nextNode, va)]
      residentPos := Function.update m.residentPos va (some m.nextNode)
      nextNode := m.nextNode + 1 }

def migrateLocked (m : Mem) (va : ℕ) (env : Env) : Except Errno Bool × Mem :=
  let pg := m.mmu.page va
  match pg.kind with
  | .vram => (.ok false, m)
  | .absent => (.error .efault, m)
  | .host =>
    if pg.host = 0 then (.error .efault, m)
    else
      match m.takeFrame env with
      | (none, m') => (.error .enomem, m')
      | (some frame, m') =>
        match m'.copyIn frame pg.host with
        | .error e => (.error e, m'.freeFrame frame)
        | .ok filled =>
          match filled.install va frame pg.host env with
          | .error e => (.error e, filled.freeFrame frame)
          | .ok m'' => (.ok true, m'')

def prefetchLoop (envs : ℕ → Env) (stop : ℕ) : ℕ → ℕ → Mem → List ℕ → ℕ × List ℕ × Mem
  | 0, va, m, moved => (va, moved, m)
  | n + 1, va, m, moved =>
    if va < stop then
      match m.migrateLocked va (envs n) with
      | (.error _, m') => (va, moved, m')
      | (.ok b, m') =>
        prefetchLoop envs stop n (va + pageSize) m' (if b then moved ++ [va] else moved)
    else (va, moved, m)

def prefetchBudget (m : Mem) : ℕ :=
  let capacity := (m.vramSize - m.vram.liveBytes) / pageSize + m.resident.length
  min m.prefetchPages (if 0 < capacity / 2 then capacity / 2 - 1 else 0)

def prefetchLocked (m : Mem) (va : ℕ) (envs : ℕ → Env) : ℕ × List ℕ × Mem :=
  match m.ranges.atMost va with
  | none => (va, [], m)
  | some (_, span) => prefetchLoop envs span.stop m.prefetchBudget va m []

def vaForHost (m : Mem) (host : ℕ) : Option ℕ :=
  m.ranges.entries.findSome? fun e =>
    if e.2.host ≤ host ∧ host - e.2.host < e.2.stop - e.1 then some (e.1 + (host - e.2.host))
    else none

def serveHostFault (m : Mem) (host : ℕ) (env : Env) : Mem :=
  match m.vaForHost host with
  | none => m
  | some va =>
    if (m.mmu.page va).kind = .vram then
      match m.evictLocked va env with
      | (some pa, m') => m'.freeFrame pa
      | (none, m') => m'
    else m

def recycleVram (m : Mem) (addr size : ℕ) : Mem :=
  { m with
    mmu := m.mmu.unmap addr (size / pageSize)
    vram := m.vram.freeAddr addr }

def collectFrames (addr : ℕ) : ℕ → Mem → List ℕ × Mem
  | 0, m => ([], m)
  | n + 1, m =>
    let (fs, m') := collectFrames addr n m
    let va := addr + n * pageSize
    match (m'.mmu.page va).kind with
    | .vram => (fs ++ [(m'.mmu.page va).pa], m'.forgetResident va)
    | _ => (fs, m')

def recycleManaged (m : Mem) (addr size host : ℕ) : Mem :=
  let n := size / pageSize
  let (fs, m') := collectFrames addr n { m with ranges := m.ranges.erase addr }
  let m'' := { m' with mmu := m'.mmu.unmap addr n }
  let m₃ := fs.foldl freeFrame m''
  { m₃ with hostMem := fun h => if host ≤ h ∧ h < host + size then none else m₃.hostMem h }

end Mem

/-! ### What eviction and migration never change -/

structure Shape (m m' : Mem) : Prop where
  uffd : m'.uffd = m.uffd
  pages : Mmu.SamePages m.mmu m'.mmu
  ranges : m'.ranges = m.ranges
  prefetchPages : m'.prefetchPages = m.prefetchPages

namespace Shape
variable {m m' m'' : Mem}

theorem refl (m : Mem) : Shape m m := ⟨rfl, .refl _, rfl, rfl⟩

theorem trans (h : Shape m m') (h' : Shape m' m'') : Shape m m'' where
  uffd := h'.uffd.trans h.uffd
  pages := h.pages.trans h'.pages
  ranges := h'.ranges.trans h.ranges
  prefetchPages := h'.prefetchPages.trans h.prefetchPages

theorem forget (h : Shape m m') (va : ℕ) : Shape m (m'.forgetResident va) := by
  simp only [Mem.forgetResident]
  split
  · exact h
  · exact ⟨h.uffd, h.pages, h.ranges, h.prefetchPages⟩

theorem free (h : Shape m m') (pa : ℕ) : Shape m (m'.freeFrame pa) :=
  ⟨h.uffd, h.pages, h.ranges, h.prefetchPages⟩

theorem publish {host pa : ℕ} {dirty : Bool} {env : Env}
    (h : m.publishHost host pa dirty env = .ok m') : Shape m m' := by
  simp only [Mem.publishHost] at h
  split_ifs at h
  · exact Except.ok.inj h ▸ .refl m
  · exact Except.ok.inj h ▸ ⟨rfl, .refl _, rfl, rfl⟩
  · split at h
    · simp at h
    · split at h
      · exact Except.ok.inj h ▸ .refl m
      · exact Except.ok.inj h ▸ ⟨rfl, .refl _, rfl, rfl⟩

theorem evictLocked (m : Mem) (va : ℕ) (env : Env) : Shape m (m.evictLocked va env).2 := by
  have h₁ := Mmu.beginEvict_pages m.mmu va
  have h₂ := (h₁.trans
    (Mmu.orFlags_same (m.mmu.beginEvict va).2 va env.lateDirty false).pages).trans
    (Mmu.endEvict_pages _ va)
  simp only [Mem.evictLocked]
  split_ifs
  · exact ⟨rfl, h₁, rfl, rfl⟩
  · split
    · rename_i e _
      refine ⟨rfl, ?_, rfl, rfl⟩
      dsimp only
      cases hr : Mmu.makeResident
          (((m.mmu.beginEvict va).2.orFlags va env.lateDirty false).endEvict va).2 va
          (m.mmu.beginEvict va).1.pa with
      | error => exact h₂
      | ok => exact h₂.trans (Mmu.makeResident_pages hr)
    · rename_i m'' hp
      have hs : Shape m { m with mmu :=
          (((m.mmu.beginEvict va).2.orFlags va env.lateDirty false).endEvict va).2 } :=
        ⟨rfl, h₂, rfl, rfl⟩
      exact (hs.trans (publish hp)).forget va

theorem passHand (m : Mem) (referenced : ℕ → Bool) (n : ℕ) : Shape m (m.passHand referenced n) := by
  induction n generalizing m with
  | zero => exact .refl m
  | succ n ih =>
    simp only [Mem.passHand]
    split
    · exact .refl m
    · rename_i e rest _
      have hs := ((Mmu.orFlags_same m.mmu e.2 false (referenced n)).trans
        (Mmu.testAndClearAccessed_same _ e.2)).pages
      split_ifs
      · refine Shape.trans ?_ (ih _)
        exact ⟨rfl, hs, rfl, rfl⟩
      · exact ⟨rfl, hs, rfl, rfl⟩

theorem takeFrame (m : Mem) (env : Env) : Shape m (m.takeFrame env).2 := by
  simp only [Mem.takeFrame]
  split
  · rename_i pa m' hal
    simp only [Mem.allocFrame, Option.map_eq_some_iff, Prod.mk.injEq] at hal
    obtain ⟨r, -, -, rfl⟩ := hal
    exact ⟨rfl, .refl _, rfl, rfl⟩
  · simp only [Mem.evictOneLocked]
    split
    · exact passHand m _ _
    · exact (passHand m _ _).trans (evictLocked _ _ _)

theorem evictAllLocked (m : Mem) (envs : ℕ → Env) (n : ℕ) : Shape m (m.evictAllLocked envs n) := by
  induction n generalizing m with
  | zero => exact .refl m
  | succ n ih =>
    simp only [Mem.evictAllLocked]
    split
    · exact .refl m
    · rename_i e rest _
      have he := evictLocked m e.2 (envs n)
      split
      · rename_i heq
        rw [heq] at he
        exact he
      · rename_i heq
        rw [heq] at he
        exact (he.free _).trans (ih _)

theorem migrateLocked (m : Mem) (va : ℕ) (env : Env) : Shape m (m.migrateLocked va env).2 := by
  simp only [Mem.migrateLocked]
  split
  · exact .refl m
  · exact .refl m
  · split_ifs
    · exact .refl m
    · have ht := takeFrame m env
      split
      · rename_i heq
        rw [heq] at ht
        exact ht
      · rename_i frame m' heq
        rw [heq] at ht
        simp only [Mem.copyIn]
        split_ifs
        · exact ht.free frame
        · simp only [Mem.install]
          cases hr : m'.mmu.makeResident va frame with
          | error => exact ⟨ht.uffd, ht.pages, ht.ranges, ht.prefetchPages⟩
          | ok mmu' =>
            exact ⟨ht.uffd, ht.pages.trans (Mmu.makeResident_pages hr), ht.ranges, ht.prefetchPages⟩

theorem prefetchLoop (envs : ℕ → Env) (stop n va : ℕ) (m : Mem) (moved : List ℕ) :
    Shape m (Mem.prefetchLoop envs stop n va m moved).2.2 ∧
    ∀ w ∈ (Mem.prefetchLoop envs stop n va m moved).2.1, w ∈ moved ∨
      w % pageSize = va % pageSize ∧ va ≤ w ∧ w < stop := by
  induction n generalizing m va moved with
  | zero => exact ⟨.refl m, fun w hw => .inl hw⟩
  | succ n ih =>
    have hs := migrateLocked m va (envs n)
    simp only [Mem.prefetchLoop]
    split_ifs with hlt
    · split
      · rename_i heq
        rw [heq] at hs
        exact ⟨hs, fun w hw => .inl hw⟩
      · rename_i b m' heq
        rw [heq] at hs
        obtain ⟨h₁, h₂⟩ := ih (va + pageSize) m' (if b then moved ++ [va] else moved)
        refine ⟨hs.trans h₁, fun w hw => ?_⟩
        rcases h₂ w hw with hw | ⟨hm, hle, hlt'⟩
        · split_ifs at hw
          · rcases List.mem_append.mp hw with hw | hw
            · exact .inl hw
            · rw [List.mem_singleton.mp hw]
              exact .inr ⟨rfl, le_rfl, hlt⟩
          · exact .inl hw
        · rw [Nat.add_mod_right] at hm
          exact .inr ⟨hm, by omega, hlt'⟩
    · exact ⟨.refl m, fun w hw => .inl hw⟩

theorem prefetchLocked (m : Mem) (va : ℕ) (envs : ℕ → Env) :
    Shape m (m.prefetchLocked va envs).2.2 ∧
    ∀ w ∈ (m.prefetchLocked va envs).2.1, w % pageSize = va % pageSize ∧ va ≤ w ∧
      ∃ e, m.ranges.atMost va = some e ∧ w < e.2.stop := by
  simp only [Mem.prefetchLocked]
  split
  · exact ⟨.refl m, by simp⟩
  · rename_i e span hat
    obtain ⟨h₁, h₂⟩ := prefetchLoop envs span.stop m.prefetchBudget va m []
    refine ⟨h₁, fun w hw => ?_⟩
    rcases h₂ w hw with hw | ⟨hm, hle, hlt⟩
    · simp at hw
    · exact ⟨hm, hle, _, hat, hlt⟩

theorem serveHostFault (m : Mem) (host : ℕ) (env : Env) : Shape m (m.serveHostFault host env) := by
  simp only [Mem.serveHostFault]
  split
  · exact .refl m
  · rename_i va _
    have he := evictLocked m va env
    split_ifs
    · split
      · rename_i heq
        rw [heq] at he
        exact he.free _
      · rename_i heq
        rw [heq] at he
        exact he
    · exact .refl m

end Shape

end SoftGpu
