import SoftGpu.Replay

/-!
# Attempts at a command

One command on one channel, from the state before its first attempt until it retires.
An attempt that faults leaves the replay state for the next one; between attempts the
fault service migrates and prefetches pages, host faults and allocations evict them,
and other commands and the host write pages of their own. `Device::run` resets the
replay state when the command retires.
-/

namespace SoftGpu.Exec
open Machine

structure State where
  world : World
  replay : Replay
  retired : Option (Outcome Unit)

inductive Action
  | attempt
  | migrate (va : ℕ) (env : Env)
  | prefetch (va : ℕ) (envs : ℕ → Env)
  | hostFault (host : ℕ) (env : Env)
  | evictAll (envs : ℕ → Env)
  | foreign (v : ℕ) (page : Page)
  | hostStore (v : ℕ) (page : Page)

def Replay.reset (r : Replay) : Replay := if r.gather then .init else { r with done := 0 }

def State.setMem (s : State) (m : Mem) : State := { s with world := ⟨m, s.world.host⟩ }

def State.attempt (fl : Floats) (engine : ℕ) (c : Cmd) (s : State) : State :=
  match execute fl engine s.world s.replay c with
  | (.pageFault _, r, w) => ⟨w, r, none⟩
  | (o, r, w) => ⟨w, r.reset, some o⟩

def step (fl : Floats) (engine : ℕ) (c : Cmd) (s : State) (a : Action) : Option State :=
  let m := s.world.mem
  if s.retired.isSome then none
  else match a with
  | .attempt => some (s.attempt fl engine c)
  | .migrate va env =>
    if va % pageSize = 0 then some (s.setMem (m.migrateLocked va env).2) else none
  | .prefetch va envs =>
    if va % pageSize = 0 then some (s.setMem (m.prefetchLocked va envs).2.2) else none
  | .hostFault host env =>
    if host % pageSize = 0 then some (s.setMem (m.serveHostFault host env)) else none
  | .evictAll envs => some (s.setMem (m.evictAllLocked envs m.resident.length))
  | .foreign v page =>
    if (m.mmu.pte v).inVram then
      some (s.setMem { m with
        frames := Function.update m.frames (m.mmu.pte v).pa page
        mmu := m.mmu.orFlags (v * pageSize) true true })
    else none
  | .hostStore v page =>
    if m.mmu.vramPages ≤ v ∧ (m.mmu.pte v).present ∧ m.hostMem (m.mmu.host v) ≠ none then
      some (s.setMem { m with hostMem := Function.update m.hostMem (m.mmu.host v) (some page) })
    else none

/-- Nobody else writes the pages in `S`, and `madvise` drops pages. -/
def undisturbed (S : ℕ → Prop) (s : State) : Action → Prop
  | .migrate _ env => Drops s.world.mem env
  | .prefetch _ envs => ∀ n, Drops s.world.mem (envs n)
  | .foreign v _ | .hostStore v _ => ¬S v
  | _ => True

variable {fl : Floats} {engine : ℕ} {c : Cmd} {x : Ctx} {s s' : State} {a : Action}
  {m m' : Mem} {dev : ℕ → UInt8}

/-! ### Between two attempts -/

theorem Sees.move (h : Sees x m dev) (hi : MemInv m' x.loose x.blocks x.regions)
    (hs : Shape m m') (hb : Backed m' dev x.pages) : Sees x m' dev where
  inv := hi
  ranges := by
    rw [hs.ranges]
    exact h.ranges
  mapped := fun v hv => (hs.pages.present v).trans (h.mapped v hv)
  backed := hb

theorem step_running (hs : step fl engine c s a = some s') : s.retired = none := by
  simp only [step] at hs
  split at hs
  · cases hs
  · next hnone => simpa using hnone

theorem sees_other (ha : a ≠ .attempt) (hok : undisturbed x.pages s a)
    (hs : step fl engine c s a = some s') (h : Sees x s.world.mem dev) :
    Sees x s'.world.mem dev ∧ s'.world.host = s.world.host ∧ s'.replay = s.replay ∧
      s'.retired = none := by
  have hret := step_running hs
  -- What is left to show is about the memory.
  have hmem : ∀ m', some (s.setMem m') = some s' → Sees x m' dev →
      Sees x s'.world.mem dev ∧ s'.world.host = s.world.host ∧ s'.replay = s.replay ∧
        s'.retired = none := by
    intro m' heq hsees
    cases heq
    exact ⟨hsees, rfl, rfl, hret⟩
  simp only [step, hret, Option.isSome_none, Bool.false_eq_true, if_false] at hs
  cases a with
  | attempt => exact absurd rfl ha
  | migrate va env =>
    simp only [Option.ite_none_right_eq_some] at hs
    obtain ⟨hva, hs⟩ := hs
    exact hmem _ hs (h.move (h.inv.migrateLocked hva env) (Shape.migrateLocked _ va env)
      (h.backed.migrateLocked h.inv hva hok))
  | prefetch va envs =>
    simp only [Option.ite_none_right_eq_some] at hs
    obtain ⟨hva, hs⟩ := hs
    exact hmem _ hs (h.move (h.inv.prefetchLocked hva envs) (Shape.prefetchLocked _ va envs).1
      (h.backed.prefetchLocked h.inv hva hok))
  | hostFault host env =>
    simp only [Option.ite_none_right_eq_some] at hs
    obtain ⟨hhost, hs⟩ := hs
    exact hmem _ hs (h.move (h.inv.serveHostFault h.ranges hhost env).1
      (Shape.serveHostFault _ host env) (h.backed.serveHostFault h.inv h.ranges hhost env))
  | evictAll envs =>
    exact hmem _ hs (h.move (h.inv.evictAllLocked envs _) (Shape.evictAllLocked _ envs _)
      (h.backed.evictAllLocked h.inv envs _))
  | foreign v page =>
    simp only [Option.ite_none_right_eq_some] at hs
    obtain ⟨hin, hs⟩ := hs
    have hsame := Mmu.orFlags_same s.world.mem.mmu (v * pageSize) true true
    have hinv := (h.inv.same hsame (.refl _)).bytes
      (Function.update s.world.mem.frames (s.world.mem.mmu.pte v).pa page) s.world.mem.hostMem
    refine hmem _ hs ⟨hinv, h.ranges, fun w hw => (hsame.present w).trans (h.mapped w hw), ?_⟩
    refine (h.backed.foreign h.inv hok hin page).flags hsame (fun w hw => ?_) rfl rfl rfl
    rw [Mmu.orFlags_dirty] at hw
    exact (Bool.or_eq_false_iff.mp hw).1
  | hostStore v page =>
    simp only [Option.ite_none_right_eq_some] at hs
    obtain ⟨⟨hv, hp, -⟩, hs⟩ := hs
    exact hmem _ hs ⟨h.inv.bytes _ _, h.ranges, h.mapped, h.backed.hostStore h.inv hok hv hp page⟩

/-! ### A run of attempts -/

abbrev Description := Replay → (ℕ → UInt8) → (ℕ → UInt8) → Prop

/-- Every attempt from a described state faults in a described state, or the command
retires with an error, or it retires having done its work. -/
def Resumes (fl : Floats) (engine : ℕ) (c : Cmd) (x : Ctx) (D : Description)
    (dev' host' : ℕ → UInt8) : Prop :=
  ∀ (w w' : World) (r r' : Replay) (o : Outcome Unit) (dev : ℕ → UInt8),
    execute fl engine w r c = (o, r', w') → Sees x w.mem dev → D r dev w.host →
    match o with
    | .done _ => Sees x w'.mem dev' ∧ w'.host = host' ∧ r'.reset = .init
    | .pageFault _ => ∃ dev₁, Sees x w'.mem dev₁ ∧ D r' dev₁ w'.host
    | _ => True

def Leaves (x : Ctx) (D : Description) (dev' host : ℕ → UInt8) (p : Outcome Unit × Replay × Mem) :
    Prop :=
  match p.1 with
  | .done _ => Sees x p.2.2 dev' ∧ p.2.1.reset = .init
  | .pageFault _ => ∃ now, Sees x p.2.2 now ∧ D p.2.1 now host
  | _ => True

theorem resumes_of_leaves {D : Description} {dev' host : ℕ → UInt8}
    {f : Mem → Replay → Outcome Unit × Replay × Mem}
    (hexec : ∀ (w : World) (r : Replay), w.host = host →
      execute fl engine w r c = (.error .einval, r, w) ∨
      execute fl engine w r c = ((f w.mem r).1, (f w.mem r).2.1, ⟨(f w.mem r).2.2, w.host⟩))
    (hhost : ∀ r now now', D r now now' → now' = host)
    (hf : ∀ m r now, Sees x m now → D r now host → Leaves x D dev' host (f m r)) :
    Resumes fl engine c x D dev' host := by
  intro w w' r r' o now hx hsees hD
  have hw := hhost _ _ _ hD
  obtain herr | hok := hexec w r hw
  · rw [herr] at hx
    cases hx
    trivial
  · rw [hw] at hD
    have hleaves := hf w.mem r now hsees hD
    rw [hok] at hx
    cases hx
    cases ho : (f w.mem r).1 with
    | done u =>
      simp only [Leaves, ho] at hleaves
      exact ⟨hleaves.1, hw, hleaves.2⟩
    | pageFault va =>
      simp only [Leaves, ho] at hleaves
      obtain ⟨now', hsees', hD'⟩ := hleaves
      exact ⟨now', hsees', hw ▸ hD'⟩
    | split => trivial
    | error e => trivial

def Described (x : Ctx) (D : Description) (dev' host' : ℕ → UInt8) (s : State) : Prop :=
  match s.retired with
  | none => ∃ dev, Sees x s.world.mem dev ∧ D s.replay dev s.world.host
  | some (.done _) => Sees x s.world.mem dev' ∧ s.world.host = host' ∧ s.replay = .init
  | some _ => True

theorem reach_described {D : Description} {dev' host' : ℕ → UInt8} {w : World}
    (hres : Resumes fl engine c x D dev' host') (hw : Sees x w.mem dev)
    (hD : D .init dev w.host)
    (h : Reach (step fl engine c) (undisturbed x.pages) ⟨w, .init, none⟩ s) :
    Described x D dev' host' s := by
  induction h with
  | refl => exact ⟨dev, hw, hD⟩
  | @tail s s' a _ hok hs ih =>
    have hret := step_running hs
    simp only [Described, hret] at ih
    obtain ⟨dev, hsees, hdesc⟩ := ih
    by_cases ha : a = .attempt
    · subst ha
      simp only [step, hret, Option.isSome_none, Bool.false_eq_true, if_false] at hs
      cases hx : execute fl engine s.world s.replay c with
      | mk o rest =>
        obtain ⟨r', w'⟩ := rest
        have hout := hres _ _ _ _ _ _ hx hsees hdesc
        obtain rfl := Option.some.inj hs
        cases o with
        | done u => simpa only [Described, State.attempt, hx] using hout
        | pageFault va => simpa only [Described, State.attempt, hx] using hout
        | split => simp only [Described, State.attempt, hx]
        | error e => simp only [Described, State.attempt, hx]
    · obtain ⟨hsees', hhost, hreplay, hret'⟩ := sees_other ha hok hs hsees
      simp only [Described, hret']
      exact ⟨dev, hsees', by rw [hhost, hreplay]; exact hdesc⟩

end SoftGpu.Exec
