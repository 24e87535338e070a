import SoftGpu.FrameOwnership

/-!
# What a step under `alloc_lock` can do

Most steps of the thread that holds `alloc_lock` only hand items from one place
to another. The others evict every resident page, map a block, map a managed
range, record a managed range, or recycle one item. `HolderEffect` lists these
cases without the program points, so that an invariant of the mapped pages is
checked against six cases. Nothing here restricts the sizes of requests.
-/

namespace SoftGpu.Driver
open Machine VramAllocator

inductive HolderEffect (s s' : State) : Prop
  | handOver (vram va : VramAllocator) (allocs : KeyMap Alloc) (pending : List Pending)
      (holder : Holder)
      (hs : s' = { s with
        mem := { s.mem with vram := vram }
        managedVa := va
        allocs := allocs
        pending := pending
        holder := holder })
      (hitems : s'.items.Perm s.items) (hfresh : holder.fresh = s.holder.fresh)
  | evictAll (envs : ℕ → Env) (holder : Holder)
      (hs : s' = { s with
        mem := s.mem.evictAllLocked envs s.mem.resident.length
        holder := holder })
      (hitems : s'.items = s.items) (hfresh : holder.fresh = s.holder.fresh)
  | mapBlock (addr bytes : ℕ) (mmu : Mmu) (hpark : s.holder.parked = [])
      (hfresh : s.holder.fresh = []) (hdvd : pageSize ∣ bytes)
      (hmap : s.mem.mmu.mapVram addr addr (bytes / pageSize) = .ok mmu)
      (hs : s' = { s with
        mem := { s.mem with mmu := mmu }
        allocs := s.allocs.emplace addr ⟨bytes, 0⟩
        holder := .free })
  | create (addr bytes host : ℕ) (va : VramAllocator) (mmu : Mmu) (hpark : s.holder.parked = [])
      (hfresh : s.holder.fresh = []) (hdvd : pageSize ∣ bytes) (hhost : s.hostOk host bytes = true)
      (hmap : s.mem.mmu.mapHost addr host (bytes / pageSize) = .ok mmu)
      (hs : s' = s.created va mmu addr bytes host)
  | addRange (addr bytes host id : ℕ) (hh : s.holder = .addRange addr bytes host id)
      (hs : s' = { s with
        mem := { s.mem with ranges := s.mem.ranges.emplace addr ⟨addr + bytes, host, id⟩ }
        allocs := s.allocs.emplace addr ⟨bytes, host⟩
        holder := .free })
  | recycle (p : Pending) (l : List Region) (holder : Holder)
      (hitems : s.items.Perm (p.item :: l)) (hs : s' = { s.recycle p with holder := holder })
      (hitems' : s'.items.Perm l) (hfresh : s.holder.fresh = []) (hfresh' : holder.fresh = [])

def Quiet (s : State) : Prop :=
  ∀ todo kept next, s.holder = .reclaim todo kept next → s.pending = []

variable {cfg : Config} {s s' : State} {a : Action}

@[simp] theorem recycle_pending (p : Pending) : (s.recycle p).pending = s.pending := by
  simp only [State.recycle]
  split_ifs <;> rfl

@[simp] theorem recycle_allocs (p : Pending) : (s.recycle p).allocs = s.allocs := by
  simp only [State.recycle]
  split_ifs <;> rfl

@[simp] theorem recycle_holder (p : Pending) : (s.recycle p).holder = s.holder := by
  simp only [State.recycle]
  split_ifs <;> rfl

@[simp] theorem recycle_published (p : Pending) : (s.recycle p).published = s.published := by
  simp only [State.recycle]
  split_ifs <;> rfl

@[simp] theorem recycle_retired (p : Pending) : (s.recycle p).retired = s.retired := by
  simp only [State.recycle]
  split_ifs <;> rfl

theorem quiet_step (hq : Quiet s) (hs : step cfg s a = some s') : Quiet s' := by
  intro todo kept next hr
  rcases step_cases hs with hs | hs | hs
  · cases a <;> simp only [holderStep, reduceCtorEq] at hs
    case lock req =>
      split at hs <;> try simp only [reduceCtorEq] at hs
      split_ifs at hs
      rw [Option.some.injEq] at hs
      exact hs ▸ rfl
    case reclaim =>
      split at hs <;> try simp only [reduceCtorEq] at hs
      · rename_i hh
        split_ifs at hs <;> rw [Option.some.injEq] at hs <;> subst hs
        · rw [← hq _ _ _ hh]
          exact recycle_pending _
        · exact hq _ _ _ hh
      · rw [Option.some.injEq] at hs
        subst hs
        dsimp only at hr
        split_ifs at hr
    case drain ok =>
      split at hs <;> simp only [Option.some.injEq, reduceCtorEq] at hs
      subst hs
      split_ifs at hr ⊢
      rfl
    all_goals
      repeat' split at hs
      all_goals
        simp only [Option.some.injEq, reduceCtorEq] at hs
        try subst hs
        try simp [State.created] at hr
  · cases a <;> simp only [faultStep, reduceCtorEq] at hs
    all_goals
      repeat' split at hs
      all_goals
        simp only [Option.some.injEq, reduceCtorEq] at hs
        try subst hs
        try exact hq _ _ _ hr
  · cases a <;> simp only [worldStep, reduceCtorEq] at hs
    all_goals
      repeat' split at hs
      all_goals
        simp only [Option.some.injEq, reduceCtorEq] at hs
        try subst hs
        try exact hq _ _ _ hr

theorem holderStep_cases (hq : Quiet s) (hs : holderStep cfg s a = some s') :
    HolderEffect s s' := by
  cases a with
  | lock req =>
    simp only [holderStep] at hs
    split at hs <;> try simp only [reduceCtorEq] at hs
    rename_i hh
    split_ifs at hs
    rw [Option.some.injEq] at hs
    subst hs
    refine .handOver _ _ _ _ _ rfl ?_ (by rw [hh]; rfl)
    simp [State.items, State.reclaimThen, hh, Holder.parked]
  | reclaim =>
    simp only [holderStep] at hs
    split at hs <;> try simp only [reduceCtorEq] at hs
    · rename_i p todo kept next hh
      have hquiet := hq _ _ _ hh
      split_ifs at hs <;> rw [Option.some.injEq] at hs <;> subst hs
      · refine .recycle p ({ s with holder := .reclaim todo kept next } : State).items _ ?_ rfl ?_
          (by rw [hh]; rfl) rfl
        · simp only [State.items, hh, Holder.parked, hquiet, List.nil_append, List.map_append,
            List.map_cons]
          exact (List.perm_middle.append_left _).trans List.perm_middle
        · simp [State.items]
      · refine .handOver _ _ _ _ _ rfl ?_ (by rw [hh]; rfl)
        simp [State.items, hh, Holder.parked]
    · rename_i kept next hh
      have hquiet := hq _ _ _ hh
      rw [Option.some.injEq] at hs
      subst hs
      refine .handOver _ _ _ _ _ rfl ?_ ?_
      · split_ifs <;> simp [State.items, hh, Holder.parked, hquiet]
      · split_ifs <;> simp [hh, Holder.fresh]
  | take =>
    simp only [holderStep] at hs
    split at hs <;> try simp only [reduceCtorEq] at hs
    rename_i size tries hh
    split at hs
    · rename_i addr mem hal
      rw [Option.some.injEq] at hs
      subst hs
      simp only [Mem.allocFrame, Option.map_eq_some_iff, Prod.mk.injEq] at hal
      obtain ⟨q, -, -, rfl⟩ := hal
      refine .handOver _ _ _ _ _ rfl ?_ (by rw [hh]; rfl)
      simp [State.items, hh, Holder.parked]
    · split at hs <;> rw [Option.some.injEq] at hs <;> subst hs <;>
        refine .handOver _ _ _ _ _ rfl ?_ (by rw [hh]; rfl) <;>
        simp [State.items, hh, Holder.parked]
  | drain ok =>
    simp only [holderStep] at hs
    split at hs <;> try simp only [reduceCtorEq] at hs
    rename_i next hh
    rw [Option.some.injEq] at hs
    subst hs
    split_ifs <;> refine .handOver _ _ _ _ _ rfl ?_ (by rw [hh]; rfl) <;>
      simp [State.items, State.reclaimThen, hh, Holder.parked]
  | evictAll envs =>
    simp only [holderStep] at hs
    split at hs <;> simp only [Option.some.injEq, reduceCtorEq] at hs
    rename_i size hh
    refine .evictAll envs _ hs.symm ?_ (by rw [hh]; rfl)
    simp [← hs, State.items, hh, Holder.parked]
  | mapBlock =>
    simp only [holderStep] at hs
    split at hs <;> try simp only [reduceCtorEq] at hs
    rename_i addr size hh
    split at hs <;> rw [Option.some.injEq] at hs <;> subst hs
    · rename_i mmu hmap
      exact .mapBlock addr _ mmu (by rw [hh]; rfl) (by rw [hh]; rfl) (roundUp_dvd _ _) hmap rfl
    · refine .handOver _ _ _ _ _ rfl ?_ (by rw [hh]; rfl)
      simp [State.items, hh, Holder.parked]
  | undo =>
    simp only [holderStep] at hs
    split at hs <;> simp only [Option.some.injEq, reduceCtorEq] at hs
    rename_i addr len hh
    subst hs
    refine .handOver _ _ _ _ _ rfl ?_ (by rw [hh]; rfl)
    simp [State.items, hh, Holder.parked]
  | mapManaged host =>
    simp only [holderStep] at hs
    split at hs <;> try simp only [reduceCtorEq] at hs
    rename_i size tries hh
    -- The ways in which nothing gets mapped.
    have hback : ∀ va : VramAllocator, ∀ holder : Holder, holder.parked = [] → holder.fresh = [] →
        HolderEffect s { s with managedVa := va, holder := holder } := by
      intro va holder hpark hfresh
      refine .handOver _ _ _ _ _ rfl ?_ (by rw [hh, hfresh]; rfl)
      simp only [State.items, hpark]
      simp [hh, Holder.parked]
    split at hs
    · split at hs <;> rw [Option.some.injEq] at hs <;> subst hs
      · exact hback _ _ rfl rfl
      · exact hback _ _ rfl rfl
    · rename_i addr va hal
      split at hs
      · rw [Option.some.injEq] at hs
        exact hs ▸ hback _ _ rfl rfl
      · split_ifs at hs with hhost
        split at hs <;> rw [Option.some.injEq] at hs <;> subst hs
        · exact hback _ _ rfl rfl
        · rename_i hmap
          exact .create addr _ _ va _ (by rw [hh]; rfl) (by rw [hh]; rfl) (roundUp_dvd _ _) hhost
            hmap rfl
  | addRange =>
    simp only [holderStep] at hs
    split at hs <;> simp only [Option.some.injEq, reduceCtorEq] at hs
    rename_i addr bytes host id hh
    exact .addRange addr bytes host id hh hs.symm
  | lookup =>
    simp only [holderStep] at hs
    split at hs <;> try simp only [reduceCtorEq] at hs
    rename_i addr hh
    split at hs <;> rw [Option.some.injEq] at hs <;> subst hs
    · refine .handOver _ _ _ _ _ rfl ?_ (by rw [hh]; rfl)
      simp [State.items, hh, Holder.parked]
    · rename_i al hfind
      refine .handOver _ _ _ _ _ rfl ?_ (by rw [hh]; rfl)
      have hperm := (KeyMap.erase_perm (KeyMap.find_eq_some.mp hfind)).map
        fun e => (⟨e.1, e.2.size, e.2.host⟩ : Region)
      simp only [State.items, hh, Holder.parked, List.append_nil, List.map_append, List.map_cons,
        List.map_nil, Pending.item]
      refine List.Perm.trans ?_ (hperm.symm.append_right _)
      rw [← List.append_assoc]
      exact List.perm_append_singleton _ _
  | snap =>
    simp only [holderStep] at hs
    split at hs <;> try simp only [reduceCtorEq] at hs
    · rename_i p c todo hh
      rw [Option.some.injEq] at hs
      subst hs
      refine .handOver _ _ _ _ _ rfl ?_ (by rw [hh]; rfl)
      simp [State.items, hh, Holder.parked, Pending.item]
    · rename_i p hh
      split_ifs at hs <;> rw [Option.some.injEq] at hs <;> subst hs
      · refine .recycle p ({ s with holder := .free } : State).items _ ?_ rfl ?_
          (by rw [hh]; rfl) rfl
        · simp only [State.items, hh, Holder.parked, List.append_nil, List.map_append,
            List.map_cons, List.map_nil]
          rw [← List.append_assoc]
          exact List.perm_append_singleton _ _
        · simp [State.items]
      · refine .handOver _ _ _ _ _ rfl ?_ (by rw [hh]; rfl)
        simp [State.items, hh, Holder.parked]
  | _ => simp [holderStep] at hs

theorem HolderEffect.moves (h : HolderEffect s s') : s'.moves = s.moves := by
  cases h with
  | handOver _ _ _ _ _ hs => exact hs ▸ rfl
  | evictAll _ _ hs => exact hs ▸ rfl
  | mapBlock _ _ _ _ _ _ _ hs => exact hs ▸ rfl
  | create _ _ _ _ _ _ _ _ _ _ hs => exact hs ▸ rfl
  | addRange _ _ _ _ _ hs => exact hs ▸ rfl
  | recycle p _ _ _ hs =>
    subst hs
    simp only [State.recycle]
    split_ifs <;> rfl

structure Outside (s s' : State) : Prop where
  shape : Shape s.mem s'.mem
  allocs : s'.allocs = s.allocs
  pending : s'.pending = s.pending
  holder : s'.holder = s.holder
  managedVa : s'.managedVa = s.managedVa
  owner : s'.owner = s.owner

theorem Outside.items (h : Outside s s') : s'.items = s.items := by
  simp only [State.items, h.allocs, h.pending, h.holder]

theorem faultStep_outside (hs : faultStep s a = some s') : Outside s s' := by
  cases a with
  | demand env =>
    simp only [faultStep] at hs
    split at hs <;> try simp only [reduceCtorEq] at hs
    rename_i c va _
    have hshape := Shape.migrateLocked s.mem va env
    split at hs <;> rw [Option.some.injEq] at hs <;> subst hs <;> rename_i heq <;>
      rw [heq] at hshape <;> exact ⟨hshape, rfl, rfl, rfl, rfl, rfl⟩
  | prefetch envs =>
    simp only [faultStep] at hs
    split at hs <;> simp only [Option.some.injEq, reduceCtorEq] at hs
    exact hs ▸ ⟨(Shape.prefetchLocked s.mem _ envs).1, rfl, rfl, rfl, rfl, rfl⟩
  | hostFault addr env =>
    simp only [faultStep, Option.ite_none_right_eq_some, Option.some.injEq] at hs
    exact hs.2 ▸ ⟨.serveHostFault _ _ _, rfl, rfl, rfl, rfl, rfl⟩
  | raise c va =>
    simp only [faultStep, Option.ite_none_right_eq_some, Option.some.injEq] at hs
    exact hs.2 ▸ ⟨.refl _, rfl, rfl, rfl, rfl, rfl⟩
  | pop =>
    simp only [faultStep] at hs
    split at hs <;> simp only [Option.some.injEq, reduceCtorEq] at hs
    exact hs ▸ ⟨.refl _, rfl, rfl, rfl, rfl, rfl⟩
  | _ => simp [faultStep] at hs

theorem worldStep_outside (hs : worldStep s a = some s') : Outside s s' := by
  cases a with
  | publish c =>
    simp only [worldStep, Option.some.injEq] at hs
    exact hs ▸ ⟨.refl _, rfl, rfl, rfl, rfl, rfl⟩
  | retire c =>
    simp only [worldStep, Option.ite_none_right_eq_some, Option.some.injEq] at hs
    exact hs.2 ▸ ⟨.refl _, rfl, rfl, rfl, rfl, rfl⟩
  | submit k =>
    simp only [worldStep] at hs
    split at hs <;> simp only [Option.some.injEq, reduceCtorEq] at hs
    exact hs ▸ ⟨.refl _, rfl, rfl, rfl, rfl, rfl⟩
  | access k v write =>
    simp only [worldStep] at hs
    split at hs <;> try simp only [reduceCtorEq] at hs
    have hpages := (Mmu.orFlags_same s.mem.mmu (v * pageSize) write.isSome true).pages
    split at hs <;> simp only [Option.some.injEq, reduceCtorEq] at hs
    exact hs ▸ ⟨⟨rfl, hpages, rfl, rfl⟩, rfl, rfl, rfl, rfl, rfl⟩
  | finish k =>
    simp only [worldStep] at hs
    split at hs <;> try simp only [reduceCtorEq] at hs
    split_ifs at hs
    exact Option.some.inj hs ▸ ⟨.refl _, rfl, rfl, rfl, rfl, rfl⟩
  | hostStore v off byte =>
    simp only [worldStep] at hs
    split_ifs at hs
    split at hs <;> simp only [Option.some.injEq, reduceCtorEq] at hs
    exact hs ▸ ⟨⟨rfl, .refl _, rfl, rfl⟩, rfl, rfl, rfl, rfl, rfl⟩
  | _ => simp [worldStep] at hs

/-! ### The steps that move a released block -/

theorem lock_step {req : Request} (hs : step cfg s (.lock req) = some s') :
    s.holder = .free ∧ s' = s.reclaimThen req.next := by
  rcases step_cases hs with hs | hs | hs
  · simp only [holderStep] at hs
    split at hs <;> try simp only [reduceCtorEq] at hs
    rename_i hh
    split_ifs at hs
    exact ⟨hh, (Option.some.inj hs).symm⟩
  · simp [faultStep] at hs
  · simp [worldStep] at hs

theorem drain_step {ok : Bool} (hs : step cfg s (.drain ok) = some s') :
    ∃ next, s.holder = .drain next ∧
      s' = if ok then s.reclaimThen next else { s with holder := .free } := by
  rcases step_cases hs with hs | hs | hs
  · simp only [holderStep] at hs
    split at hs <;> simp only [Option.some.injEq, reduceCtorEq] at hs
    rename_i next hh
    exact ⟨next, hh, hs.symm⟩
  · simp [faultStep] at hs
  · simp [worldStep] at hs

theorem reclaim_step (hs : step cfg s .reclaim = some s') :
    (∃ p todo kept next, s.holder = .reclaim (p :: todo) kept next ∧
      s' = if allRetired cfg s p.fence then { s.recycle p with holder := .reclaim todo kept next }
        else { s with holder := .reclaim todo (kept ++ [p]) next }) ∨
    ∃ kept next, s.holder = .reclaim [] kept next ∧
      s' = { s with pending := kept, holder := if next = .done then .free else .run next } := by
  rcases step_cases hs with hs | hs | hs
  · simp only [holderStep] at hs
    split at hs <;> try simp only [reduceCtorEq] at hs
    · rename_i p todo kept next hh
      refine .inl ⟨p, todo, kept, next, hh, ?_⟩
      split_ifs at hs ⊢ <;> exact (Option.some.inj hs).symm
    · rename_i kept next hh
      exact .inr ⟨kept, next, hh, (Option.some.inj hs).symm⟩
  · simp [faultStep] at hs
  · simp [worldStep] at hs

theorem reclaim_enabled {todo kept : List Pending} {next : Next}
    (hh : s.holder = .reclaim todo kept next) : (step cfg s .reclaim).isSome = true := by
  cases todo with
  | nil => simp [step, holderStep, hh]
  | cons p todo =>
    simp only [step, holderStep, hh]
    split_ifs <;> rfl

theorem lookup_step (hs : step cfg s .lookup = some s') :
    ∃ addr, s.holder = .run (.lookup addr) ∧
      (s.allocs.find addr = none ∧ s' = { s with holder := .free } ∨
        ∃ al, s.allocs.find addr = some al ∧ s' = { s with
          allocs := s.allocs.erase addr
          holder := .snapshot ⟨addr, al.size, al.host, fun _ => 0⟩ cfg.chans }) := by
  rcases step_cases hs with hs | hs | hs
  · simp only [holderStep] at hs
    split at hs <;> try simp only [reduceCtorEq] at hs
    rename_i addr hh
    refine ⟨addr, hh, ?_⟩
    split at hs
    · exact .inl ⟨‹_›, (Option.some.inj hs).symm⟩
    · exact .inr ⟨_, ‹_›, (Option.some.inj hs).symm⟩
  · simp [faultStep] at hs
  · simp [worldStep] at hs

theorem snap_step (hs : step cfg s .snap = some s') :
    (∃ p c todo, s.holder = .snapshot p (c :: todo) ∧ s' = { s with
      holder := .snapshot { p with fence := Function.update p.fence c (s.published c) } todo }) ∨
    ∃ p, s.holder = .snapshot p [] ∧
      s' = if allRetired cfg s p.fence then { s.recycle p with holder := .free }
        else { s with pending := s.pending ++ [p], holder := .free } := by
  rcases step_cases hs with hs | hs | hs
  · simp only [holderStep] at hs
    split at hs <;> try simp only [reduceCtorEq] at hs
    · rename_i p c todo hh
      exact .inl ⟨p, c, todo, hh, (Option.some.inj hs).symm⟩
    · rename_i p hh
      refine .inr ⟨p, hh, ?_⟩
      split_ifs at hs ⊢ <;> exact (Option.some.inj hs).symm
  · simp [faultStep] at hs
  · simp [worldStep] at hs

theorem mapBlock_step (hs : step cfg s .mapBlock = some s') :
    ∃ addr size, s.holder = .mapBlock addr size ∧
      ((∃ mmu, s.mem.mmu.mapVram addr addr (roundUp pageSize size / pageSize) = .ok mmu ∧
          s' = { s with
            mem := { s.mem with mmu := mmu }
            allocs := s.allocs.emplace addr ⟨roundUp pageSize size, 0⟩
            holder := .free }) ∨
        s' = { s with holder := .undo addr (roundUp pageSize size) }) := by
  rcases step_cases hs with hs | hs | hs
  · simp only [holderStep] at hs
    split at hs <;> try simp only [reduceCtorEq] at hs
    rename_i addr size hh
    refine ⟨addr, size, hh, ?_⟩
    split at hs
    · exact .inl ⟨_, ‹_›, (Option.some.inj hs).symm⟩
    · exact .inr (Option.some.inj hs).symm
  · simp [faultStep] at hs
  · simp [worldStep] at hs

theorem addRange_step (hs : step cfg s .addRange = some s') :
    ∃ addr bytes host id, s.holder = .addRange addr bytes host id ∧ s' = { s with
      mem := { s.mem with ranges := s.mem.ranges.emplace addr ⟨addr + bytes, host, id⟩ }
      allocs := s.allocs.emplace addr ⟨bytes, host⟩
      holder := .free } := by
  rcases step_cases hs with hs | hs | hs
  · simp only [holderStep] at hs
    split at hs <;> simp only [Option.some.injEq, reduceCtorEq] at hs
    rename_i addr bytes host id hh
    exact ⟨addr, bytes, host, id, hh, hs.symm⟩
  · simp [faultStep] at hs
  · simp [worldStep] at hs

theorem publish_step {c : Chan} : step cfg s (.publish c) =
    some { s with published := Function.update s.published c (s.published c + 1) } := rfl

def Holder.plain : Holder → Bool
  | .reclaim .. | .snapshot .. => false
  | _ => true

def Action.moves : Action → Bool
  | .publish _ | .lock _ | .reclaim | .drain _ | .mapBlock | .addRange | .lookup | .snap => true
  | _ => false

structure Bystander (s s' : State) : Prop where
  allocs : s'.allocs = s.allocs
  pending : s'.pending = s.pending
  published : s'.published = s.published
  retired : ∀ c, s.retired c ≤ s'.retired c
  holder : s'.holder = s.holder ∨ s.holder.plain = true ∧ s'.holder.plain = true

theorem Bystander.refl (s : State) : Bystander s s :=
  ⟨rfl, rfl, rfl, fun _ => le_rfl, .inl rfl⟩

theorem holderStep_bystander (ha : a.moves = false) (hs : holderStep cfg s a = some s') :
    Bystander s s' := by
  cases a <;> simp only [Action.moves, reduceCtorEq] at ha <;>
    simp only [holderStep, reduceCtorEq] at hs
  all_goals
    split at hs <;> try simp only [reduceCtorEq] at hs
    rename_i hh
    have hplain : s.holder.plain = true := by rw [hh]; rfl
    repeat' split at hs
    all_goals
      simp only [Option.some.injEq, reduceCtorEq] at hs
      try (subst hs; exact ⟨rfl, rfl, rfl, fun _ => le_rfl, .inr ⟨hplain, rfl⟩⟩)

theorem faultStep_bystander (hs : faultStep s a = some s') : Bystander s s' := by
  cases a <;> simp only [faultStep, reduceCtorEq] at hs
  all_goals
    repeat' split at hs
    all_goals
      simp only [Option.some.injEq, reduceCtorEq] at hs
      try (subst hs; exact ⟨rfl, rfl, rfl, fun _ => le_rfl, .inl rfl⟩)

theorem worldStep_bystander (ha : a.moves = false) (hs : worldStep s a = some s') :
    Bystander s s' := by
  cases a with
  | publish c => cases ha
  | retire c =>
    simp only [worldStep, Option.ite_none_right_eq_some, Option.some.injEq] at hs
    obtain ⟨-, rfl⟩ := hs
    refine ⟨rfl, rfl, rfl, fun c' => ?_, .inl rfl⟩
    by_cases hc : c' = c
    · subst hc
      simp
    · simp [hc]
  | _ =>
    simp only [worldStep, reduceCtorEq] at hs
    repeat' split at hs
    all_goals
      simp only [Option.some.injEq, reduceCtorEq] at hs
      try (subst hs; exact ⟨rfl, rfl, rfl, fun _ => le_rfl, .inl rfl⟩)

theorem step_bystander (ha : a.moves = false) (hs : step cfg s a = some s') : Bystander s s' := by
  rcases step_cases hs with hs | hs | hs
  · exact holderStep_bystander ha hs
  · exact faultStep_bystander hs
  · exact worldStep_bystander ha hs

theorem step_published (ha : ∀ c, a ≠ .publish c) (hs : step cfg s a = some s') :
    s'.published = s.published := by
  by_cases hmoves : a.moves = true
  · cases a with
    | publish c => exact absurd rfl (ha c)
    | lock req =>
      obtain ⟨-, rfl⟩ := lock_step hs
      rfl
    | reclaim =>
      obtain ⟨p, todo, kept, next, -, rfl⟩ | ⟨kept, next, -, rfl⟩ := reclaim_step hs
      · split_ifs
        · exact recycle_published p
        · rfl
      · rfl
    | drain ok =>
      obtain ⟨next, -, rfl⟩ := drain_step hs
      cases ok <;> rfl
    | mapBlock =>
      obtain ⟨addr, size, -, ⟨mmu, -, rfl⟩ | rfl⟩ := mapBlock_step hs <;> rfl
    | addRange =>
      obtain ⟨addr, bytes, host, id, -, rfl⟩ := addRange_step hs
      rfl
    | lookup =>
      obtain ⟨addr, -, ⟨-, rfl⟩ | ⟨al, -, rfl⟩⟩ := lookup_step hs <;> rfl
    | snap =>
      obtain ⟨p, c, todo, -, rfl⟩ | ⟨p, -, rfl⟩ := snap_step hs
      · rfl
      · split_ifs
        · exact recycle_published p
        · rfl
    | _ => cases hmoves
  · exact (step_bystander (by simpa using hmoves) hs).published

end SoftGpu.Driver
