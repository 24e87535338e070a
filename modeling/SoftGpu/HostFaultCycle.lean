import SoftGpu.HostFault
import Mathlib.Data.List.Perm.Subperm
import Mathlib.Logic.Relation

/-!
# No cycle through the host-fault thread

An engine that accesses a missing page inside a command waits for the host-fault thread,
and this thread waits for the engine as soon as it evicts the page; so does whoever else
holds `mem_lock` and evicts. As long as no page of the host range of a direct copy is
missing, the engines wait for nobody, and then nobody waits in a circle.

A page goes missing when it is migrated, and it is the only page that does; everything else
that is done to managed memory fills missing pages or takes them out of managed memory.
-/

namespace SoftGpu

/-! ### Host pages that stay -/

def HostKept (x : ℕ) (m m' : Mem) : Prop := m.hostMem x ≠ none → m'.hostMem x ≠ none

namespace HostKept

variable {x va : ℕ} {m m' m'' : Mem} {env : Env}

theorem of_eq (h : m'.hostMem = m.hostMem) : HostKept x m m' := by
  intro hx
  rwa [h]

theorem refl (m : Mem) : HostKept x m m := of_eq rfl

theorem trans (h : HostKept x m m') (h' : HostKept x m' m'') : HostKept x m m'' :=
  fun hx => h' (h hx)

theorem congr_left (h : HostKept x m' m'') (heq : m'.hostMem = m.hostMem) : HostKept x m m'' :=
  (of_eq heq).trans h

theorem forgetResident (m : Mem) (va : ℕ) : HostKept x m (m.forgetResident va) := by
  refine of_eq ?_
  simp only [Mem.forgetResident]
  split <;> rfl

theorem fill (m : Mem) (host : ℕ) (p : Page) :
    HostKept x m { m with hostMem := Function.update m.hostMem host (some p) } := by
  intro hx
  by_cases heq : x = host
  · subst heq
    simp
  · simpa [Function.update_of_ne heq] using hx

theorem publishHost {host pa : ℕ} {dirty : Bool} (h : m.publishHost host pa dirty env = .ok m') :
    HostKept x m m' := by
  simp only [Mem.publishHost] at h
  split at h
  · split at h
    · cases h
      exact refl m
    · split at h
      · cases h
      · cases h
        exact fill m host _
  · split at h
    · cases h
    · split at h
      · cases h
      · split at h
        · cases h
          exact refl m
        · cases h
          exact fill m host _

theorem evictLocked (m : Mem) (va : ℕ) (env : Env) : HostKept x m (m.evictLocked va env).2 := by
  simp only [Mem.evictLocked]
  split
  · exact of_eq rfl
  · split
    · exact of_eq rfl
    · next hp =>
      exact .trans ((publishHost hp).congr_left rfl) (forgetResident _ va)

theorem passHand (m : Mem) (ref : ℕ → Bool) (n : ℕ) : HostKept x m (m.passHand ref n) := by
  induction n generalizing m with
  | zero => exact refl m
  | succ n ih =>
    simp only [Mem.passHand]
    split
    · exact refl m
    · split
      · exact (ih _).congr_left rfl
      · exact of_eq rfl

theorem evictOneLocked (m : Mem) (env : Env) : HostKept x m (m.evictOneLocked env).2 := by
  have hpass := passHand (x := x) m env.referenced m.resident.length
  simp only [Mem.evictOneLocked]
  split
  · exact hpass
  · exact hpass.trans (evictLocked _ _ env)

theorem evictAllLocked (m : Mem) (envs : ℕ → Env) (n : ℕ) :
    HostKept x m (m.evictAllLocked envs n) := by
  induction n generalizing m with
  | zero => exact refl m
  | succ n ih =>
    simp only [Mem.evictAllLocked]
    split
    · exact refl m
    · next e _ _ =>
      have hevict := evictLocked (x := x) m e.2 (envs n)
      split
      · next heq =>
        rw [heq] at hevict
        exact hevict
      · next heq =>
        rw [heq] at hevict
        exact hevict.trans ((ih _).congr_left rfl)

theorem takeFrame (m : Mem) (env : Env) : HostKept x m (m.takeFrame env).2 := by
  simp only [Mem.takeFrame]
  split
  · next h =>
    simp only [Mem.allocFrame, Option.map_eq_some_iff] at h
    obtain ⟨r, -, hr⟩ := h
    cases hr
    exact of_eq rfl
  · exact evictOneLocked m env

theorem serveHostFault (m : Mem) (host : ℕ) (env : Env) :
    HostKept x m (m.serveHostFault host env) := by
  simp only [Mem.serveHostFault]
  split
  · exact refl m
  · next va _ =>
    have hevict := evictLocked (x := x) m va env
    split
    · split
      · next heq =>
        rw [heq] at hevict
        exact hevict.trans (of_eq rfl)
      · next heq =>
        rw [heq] at hevict
        exact hevict
    · exact refl m

theorem migrateLocked (h : x ≠ m.mmu.host (va / pageSize)) (env : Env) :
    HostKept x m (m.migrateLocked va env).2 := by
  have htake := takeFrame (x := x) m env
  simp only [Mem.migrateLocked]
  split
  · exact refl m
  · exact refl m
  · next hk =>
    obtain ⟨-, -, -, hhost⟩ := Mmu.page_kind_host hk
    split
    · exact refl m
    · split
      · next heq =>
        rw [heq] at htake
        exact htake
      · next frame m' heq =>
        rw [heq] at htake
        refine htake.trans ?_
        split
        · exact of_eq rfl
        · next filled hfill =>
          have hsame : filled.hostMem = m'.hostMem := by
            simp only [Mem.copyIn] at hfill
            split at hfill <;> cases hfill
            rfl
          refine .trans (of_eq hsame) ?_
          split
          · exact of_eq rfl
          · next m'' hinst =>
            simp only [Mem.install] at hinst
            split at hinst
            · cases hinst
            · cases hinst
              intro hx
              dsimp only
              split
              · rwa [hhost, Function.update_of_ne h]
              · exact hx

theorem prefetchLoop (envs : ℕ → Env) (stop n : ℕ) :
    ∀ (va : ℕ) (m : Mem) (moved : List ℕ),
      (∀ i < n, va + i * pageSize < stop → x ≠ m.mmu.host ((va + i * pageSize) / pageSize)) →
      HostKept x m (Mem.prefetchLoop envs stop n va m moved).2.2 := by
  induction n with
  | zero => exact fun va m moved _ => refl m
  | succ n ih =>
    intro va m moved h
    simp only [Mem.prefetchLoop]
    split
    · next hlt =>
      have hfirst : x ≠ m.mmu.host (va / pageSize) := by
        simpa using h 0 (Nat.succ_pos n) (by simpa using hlt)
      have hmig := migrateLocked hfirst (envs n)
      have hshape := Shape.migrateLocked m va (envs n)
      split
      · next heq =>
        rw [heq] at hmig
        exact hmig
      · next heq =>
        rw [heq] at hmig hshape
        refine hmig.trans (ih _ _ _ fun i hi hstop => ?_)
        rw [hshape.pages.host]
        have hnext : va + pageSize + i * pageSize = va + (i + 1) * pageSize := by
          rw [Nat.succ_mul]
          omega
        rw [hnext] at hstop ⊢
        exact h (i + 1) (by omega) hstop
    · exact refl m

end HostKept

namespace HostFault
open Machine Driver

variable {cfg : Config} {d d' : Driver.State} {a : Driver.Action} {x va : ℕ}

/-! ### The host memory of managed ranges -/

def regions (d : Driver.State) : List Region := regionsOf (d.holder.fresh ++ d.items)

def HostApart (r q : Region) : Prop := r.host + r.size ≤ q.host ∨ q.host + q.size ≤ r.host

theorem HostApart.symm {r q : Region} (h : HostApart r q) : HostApart q r := Or.symm h

structure Hosts (cfg : Config) (d : Driver.State) : Prop where
  quiet : Quiet d
  aligned : ∀ r ∈ regions d, r.host % pageSize = 0
  apart : (regions d).Pairwise HostApart
  pool : ∀ r ∈ regions d, cfg.pool.1 + cfg.pool.2 ≤ r.host ∨ r.host + r.size ≤ cfg.pool.1

theorem Hosts.init (cfg : Config) : Hosts cfg (Driver.init cfg.drv) := by
  have hnil : regions (Driver.init cfg.drv) = [] := by
    simp [regions, Driver.init, Holder.fresh, State.items, Holder.parked, KeyMap.empty, regionsOf]
  refine ⟨?_, ?_, ?_, ?_⟩
  · intro todo kept next h
    cases h
  · simp [hnil]
  · simp [hnil]
  · simp [hnil]

theorem Hosts.of_subperm (h : Hosts cfg d) (hquiet : Quiet d')
    (hsub : (regions d').Subperm (regions d)) : Hosts cfg d' := by
  refine ⟨hquiet, fun r hr => h.aligned r (hsub.subset hr), ?_,
    fun r hr => h.pool r (hsub.subset hr)⟩
  obtain ⟨l, hperm, hl⟩ := hsub
  exact (hperm.pairwise_iff HostApart.symm).mp (h.apart.sublist hl)

theorem regions_perm (hitems : d'.items.Perm d.items) (hfresh : d'.holder.fresh = d.holder.fresh) :
    (regions d').Perm (regions d) := by
  rw [regions, regions, hfresh]
  exact regionsOf_perm (hitems.append_left _)

theorem missing_of_kept (hregions : regions d' ⊆ regions d)
    (hkept : HostKept (pageOf x) d.mem d'.mem) (h : missing d' x) : missing d x := by
  obtain ⟨⟨r, hr, hin⟩, hnone⟩ := h
  refine ⟨⟨r, hregions hr, hin⟩, ?_⟩
  by_contra hsome
  exact hkept hsome hnone

theorem regions_emplace {addr : ℕ} {al : Alloc} (hallocs : d'.allocs = d.allocs.emplace addr al)
    (hpending : d'.pending = d.pending) (hpark : d'.holder.parked = d.holder.parked)
    (hfresh : d'.holder.fresh = [])
    (hnew : (regionsOf (⟨addr, al.size, al.host⟩ :: d.items)).Subperm (regions d)) :
    (regions d').Subperm (regions d) := by
  obtain ⟨l, hperm, hsub⟩ := KeyMap.insertEntry_subperm addr al d.allocs.entries
  have hitems : d'.items.Subperm (⟨addr, al.size, al.host⟩ :: d.items) := by
    simp only [State.items, hallocs, hpending, hpark]
    exact List.Subperm.append ⟨_, hperm.map _, hsub.map _⟩ (.refl _)
  rw [regions, hfresh]
  exact (hitems.filter _).trans hnew

def moving (d : Driver.State) : Driver.Action → List ℕ
  | .demand _ =>
    match d.service with
    | .popped _ va => [va]
    | _ => []
  | .prefetch _ =>
    match d.service with
    | .prefetch _ _ next _ =>
      match d.mem.ranges.atMost next with
      | none => []
      | some (_, span) =>
        ((List.range d.mem.prefetchBudget).map fun i => next + i * pageSize).filter
          fun va => va < span.stop
    | _ => []
  | _ => []

structure Effect (cfg : Config) (a : Driver.Action) (d d' : Driver.State) : Prop where
  hosts : Hosts cfg d'
  missing : ∀ x, missing d' x →
    HostFault.missing d x ∨ ∃ va ∈ moving d a, pageOf x = d.mem.mmu.host (va / pageSize)

theorem Effect.of_subperm (h : Hosts cfg d) (hquiet : Quiet d')
    (hsub : (regions d').Subperm (regions d))
    (hkept : ∀ x, (∀ va ∈ moving d a, x ≠ d.mem.mmu.host (va / pageSize)) →
      HostKept x d.mem d'.mem) : Effect cfg a d d' where
  hosts := h.of_subperm hquiet hsub
  missing := by
    intro x hx
    by_cases hmoved : ∃ va ∈ moving d a, pageOf x = d.mem.mmu.host (va / pageSize)
    · exact .inr hmoved
    · push Not at hmoved
      exact .inl (missing_of_kept hsub.subset (hkept _ hmoved) hx)

theorem pageOf_le (x : ℕ) : pageOf x ≤ x := Nat.div_mul_le_self x pageSize

theorem pageOf_mem {r : Region} (h : r.host % pageSize = 0) (hx : r.host ≤ x) :
    r.host ≤ pageOf x := by
  have hdiv : r.host / pageSize ≤ x / pageSize := Nat.div_le_div_right hx
  have hmul := Nat.mul_le_mul_right pageSize hdiv
  rwa [div_mul_pageSize h] at hmul

theorem regionsOf_cons {r : Region} {l : List Region} (h : r.host ≠ 0) :
    regionsOf (r :: l) = r :: regionsOf l := List.filter_cons_of_pos (by simpa using h)

theorem effect_created {addr bytes host : ℕ} {va : VramAllocator} {mmu : Mmu} (h : Hosts cfg d)
    (hquiet : Quiet (d.created va mmu addr bytes host)) (hpark : d.holder.parked = [])
    (hfresh : d.holder.fresh = []) (hhost : d.hostOk host bytes = true)
    (hpool : besidePool cfg (d.created va mmu addr bytes host) = true) :
    Effect cfg a d (d.created va mmu addr bytes host) := by
  simp only [State.hostOk, decide_eq_true_eq, List.all_eq_true] at hhost
  obtain ⟨hmod, hpos, hapart⟩ := hhost
  have hitems : (d.created va mmu addr bytes host).items = d.items := by
    rw [State.items, State.items, hpark]
    rfl
  have hregions : regions (d.created va mmu addr bytes host) =
      ⟨addr, bytes, host⟩ :: regions d := by
    rw [regions, hitems, regions, hfresh]
    exact regionsOf_cons hpos.ne'
  have hbacking : ∀ r ∈ regions d, (r.host, r.size) ∈ d.backings := by
    intro r hr
    rw [regions, hfresh, List.nil_append, mem_regionsOf] at hr
    obtain ⟨hr, hne⟩ := hr
    simp only [State.items, hpark, List.append_nil, List.mem_append, List.mem_map] at hr
    simp only [State.backings, List.mem_append, List.mem_filterMap]
    obtain ⟨e, he, rfl⟩ | ⟨p, hp, rfl⟩ := hr
    · exact .inl ⟨e, he, by simpa using hne⟩
    · exact .inr ⟨p, hp, by simpa [Pending.item] using hne⟩
  have hnew : ∀ r ∈ regions d, HostApart ⟨addr, bytes, host⟩ r := by
    intro r hr
    exact (hapart _ (hbacking r hr)).symm
  refine ⟨⟨hquiet, ?_, ?_, ?_⟩, fun x hx => .inl ?_⟩
  · rw [hregions]
    intro r hr
    obtain rfl | hr := List.mem_cons.mp hr
    · exact hmod
    · exact h.aligned r hr
  · rw [hregions]
    exact List.pairwise_cons.mpr ⟨hnew, h.apart⟩
  · rw [hregions]
    intro r hr
    obtain rfl | hr := List.mem_cons.mp hr
    · simpa [besidePool, State.created, Holder.fresh] using hpool
    · exact h.pool r hr
  · obtain ⟨⟨r, hr, hlo, hhi⟩, hnone⟩ := hx
    change r ∈ regions (d.created va mmu addr bytes host) at hr
    rw [hregions] at hr
    simp only [State.created] at hnone
    split at hnone
    · cases hnone
    · next hout =>
      obtain rfl | hr := List.mem_cons.mp hr
      · exact absurd ⟨pageOf_mem hmod hlo, (pageOf_le x).trans_lt hhi⟩ hout
      · exact ⟨⟨r, hr, hlo, hhi⟩, hnone⟩

theorem foldl_freeFrame_host (fs : List ℕ) (m : Mem) :
    (fs.foldl Mem.freeFrame m).hostMem = m.hostMem := by
  induction fs generalizing m with
  | nil => rfl
  | cons f fs ih => exact ih _

theorem collectFrames_host (addr n : ℕ) (m : Mem) :
    (Mem.collectFrames addr n m).2.hostMem = m.hostMem := by
  induction n with
  | zero => rfl
  | succ n ih =>
    simp only [Mem.collectFrames]
    split
    · simp only [Mem.forgetResident]
      split <;> exact ih
    · exact ih

theorem recycleManaged_host (m : Mem) (addr size host : ℕ) :
    (m.recycleManaged addr size host).hostMem =
      fun x => if host ≤ x ∧ x < host + size then none else m.hostMem x := by
  simp only [Mem.recycleManaged, foldl_freeFrame_host, collectFrames_host]

theorem effect_recycled {p : Pending} {l : List Region} {holder : Holder} (h : Hosts cfg d)
    (hquiet : Quiet { d.recycle p with holder := holder }) (hitems : d.items.Perm (p.item :: l))
    (hitems' : State.items { d.recycle p with holder := holder } |>.Perm l)
    (hfresh : d.holder.fresh = []) (hfresh' : holder.fresh = []) :
    Effect cfg a d { d.recycle p with holder := holder } := by
  have hperm : (regions { d.recycle p with holder := holder }).Perm (regionsOf l) := by
    rw [regions, hfresh']
    exact regionsOf_perm hitems'
  have hold : (regions d).Perm (regionsOf (p.item :: l)) := by
    rw [regions, hfresh]
    exact regionsOf_perm hitems
  have hsub : (regions { d.recycle p with holder := holder }).Subperm (regions d) := by
    refine hperm.subperm.trans (.trans ?_ hold.symm.subperm)
    exact ((List.sublist_cons_self _ _).filter _).subperm
  by_cases hp : p.host = 0
  · refine .of_subperm h hquiet hsub fun x _ => .of_eq ?_
    simp [State.recycle, hp, Mem.recycleVram]
  · refine ⟨h.of_subperm hquiet hsub, fun x hx => .inl ?_⟩
    obtain ⟨⟨r, hr, hlo, hhi⟩, hnone⟩ := hx
    have hmem : r ∈ regionsOf l := hperm.mem_iff.mp hr
    have hboth := (hold.pairwise_iff HostApart.symm).mp h.apart
    rw [regionsOf_cons hp, List.pairwise_cons] at hboth
    have hapart : HostApart p.item r := hboth.1 r hmem
    have hrmod : r.host % pageSize = 0 := h.aligned r (hsub.subset hr)
    have hrpage := pageOf_mem hrmod hlo
    have hle := pageOf_le x
    simp only [State.recycle, if_neg hp, recycleManaged_host] at hnone
    split at hnone
    · next hin =>
      simp only [HostApart, Pending.item] at hapart
      omega
    · exact ⟨⟨r, hsub.subset hr, hlo, hhi⟩, hnone⟩

theorem regions_outside (ho : Outside d d') : (regions d').Subperm (regions d) := by
  rw [regions, ho.items, ho.holder]
  exact .refl _

theorem holder_effect (h : Hosts cfg d) (hquiet : Quiet d') (hpool : besidePool cfg d' = true)
    (he : HolderEffect d d') : Effect cfg a d d' := by
  cases he with
  | handOver vram va allocs pending holder hs hitems hfresh =>
    subst hs
    exact .of_subperm h hquiet (regions_perm hitems hfresh).subperm fun _ _ => .of_eq rfl
  | evictAll envs holder hs hitems hfresh =>
    subst hs
    exact .of_subperm h hquiet (regions_perm (.of_eq hitems) hfresh).subperm
      fun _ _ => .evictAllLocked _ _ _
  | mapBlock addr bytes mmu hpark hfresh hdvd hmap hs =>
    subst hs
    refine .of_subperm h hquiet ?_ fun _ _ => .of_eq rfl
    refine regions_emplace rfl rfl hpark.symm rfl ?_
    rw [regions, hfresh]
    exact .refl _
  | create addr bytes host va mmu hpark hfresh hdvd hhost hmap hs =>
    subst hs
    exact effect_created h hquiet hpark hfresh hhost hpool
  | addRange addr bytes host id hh hs =>
    subst hs
    refine .of_subperm h hquiet ?_ fun _ _ => .of_eq rfl
    refine regions_emplace rfl rfl (by rw [hh]; rfl) rfl ?_
    rw [regions, hh]
    exact .refl _
  | recycle p l holder hitems hs hitems' hfresh hfresh' =>
    subst hs
    exact effect_recycled h hquiet hitems hitems' hfresh hfresh'

theorem fault_kept (hs : faultStep d a = some d') (x : ℕ)
    (hx : ∀ va ∈ moving d a, x ≠ d.mem.mmu.host (va / pageSize)) : HostKept x d.mem d'.mem := by
  cases a with
  | raise c va =>
    simp only [faultStep] at hs
    split at hs <;> cases hs
    exact .refl _
  | pop =>
    simp only [faultStep] at hs
    split at hs <;> cases hs
    exact .refl _
  | demand env =>
    simp only [faultStep] at hs
    split at hs
    · next c va hservice =>
      have hkept : HostKept x d.mem (d.mem.migrateLocked va env).2 :=
        .migrateLocked (hx va (by simp [moving, hservice])) env
      split at hs
      · next heq =>
        cases hs
        rwa [heq] at hkept
      · next heq =>
        cases hs
        rwa [heq] at hkept
    · cases hs
  | prefetch envs =>
    simp only [faultStep] at hs
    split at hs
    · next c i next id hservice =>
      cases hs
      simp only [Mem.prefetchLocked]
      split
      · exact .refl _
      · next span hrange =>
        refine .prefetchLoop envs span.stop _ next d.mem [] fun k hk hstop => ?_
        refine hx _ ?_
        simp only [moving, hservice, hrange, List.mem_filter, List.mem_map, List.mem_range]
        exact ⟨⟨k, hk, rfl⟩, by simpa using hstop⟩
    · cases hs
  | hostFault addr env =>
    simp only [faultStep] at hs
    split at hs <;> cases hs
    exact .serveHostFault _ _ env
  | _ => cases hs

theorem world_kept (hs : worldStep d a = some d') (x : ℕ) : HostKept x d.mem d'.mem := by
  cases a with
  | access k v write =>
    simp only [worldStep] at hs
    split at hs
    · cases hs
    · split at hs <;> cases hs
      exact .of_eq rfl
  | finish k =>
    simp only [worldStep] at hs
    split at hs
    · cases hs
    · split at hs <;> cases hs
      exact .refl _
  | hostStore v off byte =>
    simp only [worldStep] at hs
    split at hs
    · split at hs <;> cases hs
      exact .fill _ _ _
    · cases hs
  | publish c =>
    cases hs
    exact .refl _
  | retire c =>
    simp only [worldStep] at hs
    split at hs <;> cases hs
    exact .refl _
  | submit k =>
    simp only [worldStep] at hs
    split at hs <;> cases hs
    exact .refl _
  | _ => cases hs

theorem drive_effect (h : Hosts cfg d) (hs : drive cfg d a = some d') : Effect cfg a d d' := by
  rw [drive, Option.filter_eq_some_iff] at hs
  obtain ⟨hs, hpool⟩ := hs
  have hquiet := quiet_step h.quiet hs
  obtain hs | hs | hs := Driver.step_cases hs
  · exact holder_effect h hquiet hpool (holderStep_cases h.quiet hs)
  · exact .of_subperm h hquiet (regions_outside (faultStep_outside hs)) (fault_kept hs)
  · exact .of_subperm h hquiet (regions_outside (worldStep_outside hs))
      fun x _ => world_kept hs x

/-! ### The engines wait for nobody -/

/-- A direct copy is submitted while none of its host pages is missing, and until it has
retired no page of its host range is brought into VRAM. -/
def Spares (s : State) : Action → Prop
  | .submit _ op => op.direct = true → ∀ x, op.bytes x → ¬missing s.drv x
  | .finish a => ∀ va ∈ moving s.drv a, ∀ c, ∀ op ∈ s.rings c, op.direct = true →
      ∀ x, op.bytes x → pageOf x ≠ s.drv.mem.mmu.host (va / pageSize)
  | _ => True

structure Clear (cfg : Config) (s : State) : Prop where
  hosts : Hosts cfg s.drv
  direct : ∀ c, ∀ op ∈ s.rings c, op.direct = true → ∀ x, op.bytes x → ¬missing s.drv x
  staged : ∀ c, ∀ op ∈ s.rings c, op.direct = false → op.size = 0 ∨
    cfg.pool.1 ≤ op.addr ∧ op.addr + op.size ≤ cfg.pool.1 + cfg.pool.2
  engines : ∀ e, (s.engines e).blocked = none

variable {s t : State} {c : Chan} {op : Op}

theorem Clear.init (cfg : Config) : Clear cfg (init cfg) :=
  ⟨.init cfg, nofun, nofun, fun _ => rfl⟩

theorem Hosts.pool_not_registered (h : Hosts cfg d) (hlo : cfg.pool.1 ≤ x)
    (hhi : x < cfg.pool.1 + cfg.pool.2) : ¬registered d x := by
  rintro ⟨r, hr, hrlo, hrhi⟩
  have := h.pool r hr
  omega

theorem Clear.present (h : Clear cfg s) (hop : op ∈ s.rings c) (hx : op.bytes x) :
    ¬missing s.drv x := by
  cases hd : op.direct with
  | true => exact h.direct c op hop hd x hx
  | false =>
    rintro ⟨hreg, -⟩
    obtain ⟨hlo, hhi⟩ := hx
    obtain hzero | ⟨hpool, hend⟩ := h.staged c op hop hd
    · omega
    · exact h.hosts.pool_not_registered (by omega) (by omega) hreg

theorem Clear.driven {a : Driver.Action} (h : Clear cfg s) (hs : drive cfg s.drv a = some t.drv)
    (hrings : ∀ c, ∀ op ∈ t.rings c, op ∈ s.rings c) (hengines : ∀ e, (t.engines e).blocked = none)
    (hspare : ∀ va ∈ moving s.drv a, ∀ c, ∀ op ∈ s.rings c, op.direct = true →
      ∀ x, op.bytes x → pageOf x ≠ s.drv.mem.mmu.host (va / pageSize)) : Clear cfg t := by
  obtain ⟨hhosts, hmissing⟩ := drive_effect h.hosts hs
  refine ⟨hhosts, ?_, ?_, hengines⟩
  · intro c op hop hd x hx hm
    obtain hm | ⟨va, hva, heq⟩ := hmissing x hm
    · exact h.direct c op (hrings c op hop) hd x hx hm
    · exact hspare va hva c op (hrings c op hop) hd x hx heq
  · intro c op hop
    exact h.staged c op (hrings c op hop)

theorem Clear.beside (h : Clear cfg s) (hdrv : t.drv = s.drv) (hrings : t.rings = s.rings)
    (hengines : ∀ e, (t.engines e).blocked = none) : Clear cfg t := by
  refine ⟨hdrv ▸ h.hosts, ?_, ?_, hengines⟩
  · rw [hdrv, hrings]
    exact h.direct
  · rw [hrings]
    exact h.staged

theorem Clear.setEngine (h : Clear cfg s) (e : ℕ) {y : Engine} (hy : y.blocked = none) (e' : ℕ) :
    ((s.setEngine e y).engines e').blocked = none := by
  simp only [State.setEngine]
  by_cases he : e' = e
  · subst he
    rw [Function.update_self, hy]
  · rw [Function.update_of_ne he]
    exact h.engines e'

theorem Clear.engineStep {a : Action} (h : Clear cfg s) (hs : engineStep cfg s a = some t) :
    Clear cfg t := by
  cases a with
  | enter e ch =>
    simp only [HostFault.engineStep] at hs
    split at hs <;> cases hs
    exact h.beside rfl rfl (h.setEngine e rfl)
  | access e x =>
    simp only [HostFault.engineStep] at hs
    split at hs
    · split at hs
      · next op rest hring =>
        split at hs
        · next hx =>
          rw [if_neg (h.present (by rw [hring]; exact List.mem_cons_self) hx)] at hs
          cases hs
          exact h
        · cases hs
      · cases hs
    · cases hs
  | resume e =>
    simp only [HostFault.engineStep, h.engines e] at hs
    cases hs
  | leave e retires =>
    simp only [HostFault.engineStep] at hs
    split at hs
    · next ch _ _ =>
      split at hs
      · rw [Option.map_eq_some_iff] at hs
        obtain ⟨d, hd, rfl⟩ := hs
        refine h.driven hd ?_ (h.setEngine e rfl) nofun
        intro c op hop
        dsimp only at hop
        by_cases hc : c = (e, ch)
        · subst hc
          rw [Function.update_self] at hop
          exact List.mem_of_mem_tail hop
        · rwa [Function.update_of_ne hc] at hop
      · cases hs
        exact h.beside rfl rfl (h.setEngine e rfl)
    · cases hs
  | _ => cases hs

theorem moving_of_unlocked {a : Driver.Action} (h : lockedBy cfg d a = none) : moving d a = [] := by
  cases a with
  | demand env => cases h
  | prefetch envs => cases h
  | _ => rfl

theorem Clear.submit (h : Clear cfg s) (hs : drive cfg s.drv (.publish c) = some d)
    (hok : accepts cfg s op = true)
    (hspare : op.direct = true → ∀ x, op.bytes x → ¬missing s.drv x) :
    Clear cfg { s with drv := d, rings := Function.update s.rings c (s.rings c ++ [op]) } := by
  obtain ⟨hhosts, hmissing⟩ := drive_effect h.hosts hs
  have hold : ∀ x, missing d x → missing s.drv x := by
    intro x hx
    obtain hx | ⟨va, hva, -⟩ := hmissing x hx
    · exact hx
    · cases hva
  have hcases : ∀ c' op', op' ∈ Function.update s.rings c (s.rings c ++ [op]) c' →
      op' ∈ s.rings c' ∨ op' = op := by
    intro c' op' hop
    by_cases hc : c' = c
    · subst hc
      rw [Function.update_self, List.mem_append, List.mem_singleton] at hop
      exact hop
    · rw [Function.update_of_ne hc] at hop
      exact .inl hop
  refine ⟨hhosts, ?_, ?_, h.engines⟩
  · intro c' op' hop hd x hx hm
    obtain hop | rfl := hcases c' op' hop
    · exact h.direct c' op' hop hd x hx (hold x hm)
    · exact hspare hd x hx (hold x hm)
  · intro c' op' hop hd
    obtain hop | rfl := hcases c' op' hop
    · exact h.staged c' op' hop hd
    · simpa [accepts, hd] using hok

theorem Clear.processStep {a : Action} (h : Clear cfg s) (hok : Spares s a)
    (hs : processStep cfg s a = some t) : Clear cfg t := by
  cases a with
  | drv a =>
    have hdrive : lockedBy cfg s.drv a = none ∧ ∃ d, drive cfg s.drv a = some d ∧
        t = { s with drv := d } := by
      cases a
      case publish => cases hs
      case retire => cases hs
      all_goals
        simp only [HostFault.processStep, Option.ite_none_right_eq_some,
          Option.map_eq_some_iff] at hs
        obtain ⟨hlock, d, hd, rfl⟩ := hs
        exact ⟨hlock, d, hd, rfl⟩
    obtain ⟨hlock, d, hd, rfl⟩ := hdrive
    refine h.driven hd (fun _ _ => id) h.engines ?_
    rw [moving_of_unlocked hlock]
    exact nofun
  | submit c op =>
    simp only [HostFault.processStep] at hs
    split at hs
    · next hacc =>
      rw [Option.map_eq_some_iff] at hs
      obtain ⟨d, hd, rfl⟩ := hs
      exact h.submit hd hacc.2 hok
    · cases hs
  | pin addr size =>
    simp only [HostFault.processStep] at hs
    split at hs <;> cases hs
    exact h.beside rfl rfl h.engines
  | unpin addr =>
    simp only [HostFault.processStep] at hs
    split at hs <;> cases hs
    exact h.beside rfl rfl h.engines
  | userAccess u x =>
    simp only [HostFault.processStep] at hs
    split at hs
    · split at hs <;> cases hs
      · exact h.beside rfl rfl h.engines
      · exact h
    · cases hs
  | userResume u =>
    simp only [HostFault.processStep] at hs
    split at hs
    · split at hs <;> cases hs
      exact h.beside rfl rfl h.engines
    · cases hs
  | _ => cases hs

theorem Clear.lockStep {a : Action} (h : Clear cfg s) (hok : Spares s a)
    (hs : lockStep cfg s a = some t) : Clear cfg t := by
  cases a with
  | popMessage =>
    simp only [HostFault.lockStep] at hs
    split at hs <;> cases hs
    exact h.beside rfl rfl h.engines
  | lock t =>
    simp only [HostFault.lockStep] at hs
    split at hs
    · split at hs <;> cases hs
      exact h.beside rfl rfl h.engines
    · cases hs
  | evict =>
    simp only [HostFault.lockStep] at hs
    split at hs
    · split at hs <;> cases hs
      exact h.beside rfl rfl h.engines
    · cases hs
  | quiesce =>
    simp only [HostFault.lockStep] at hs
    split at hs
    · rw [Option.map_eq_some_iff] at hs
      obtain ⟨q, -, rfl⟩ := hs
      exact h.beside rfl rfl h.engines
    · cases hs
  | finish a =>
    simp only [HostFault.lockStep] at hs
    split at hs
    · split at hs
      · rw [Option.map_eq_some_iff] at hs
        obtain ⟨d, hd, rfl⟩ := hs
        exact h.driven hd (fun _ _ => id) h.engines hok
      · cases hs
    · cases hs
  | _ => cases hs

theorem step_cases {a : Action} (hs : step cfg s a = some t) :
    engineStep cfg s a = some t ∨ processStep cfg s a = some t ∨ lockStep cfg s a = some t := by
  unfold step at hs
  cases h₁ : engineStep cfg s a with
  | some u => exact .inl (by simpa [h₁] using hs)
  | none =>
    cases h₂ : processStep cfg s a with
    | some u => exact .inr (.inl (by simpa [h₁, h₂] using hs))
    | none => exact .inr (.inr (by simpa [h₁, h₂] using hs))

theorem Clear.step {a : Action} (h : Clear cfg s) (hok : Spares s a)
    (hs : step cfg s a = some t) : Clear cfg t := by
  obtain hs | hs | hs := step_cases hs
  · exact h.engineStep hs
  · exact h.processStep hok hs
  · exact h.lockStep hok hs

/-! ### Who waits for whom -/

inductive Party
  | engine (e : ℕ)
  | thread (t : Thread)
  | user (u : ℕ)

inductive Waits (cfg : Config) (s : State) : Party → Party → Prop
  | engine {e x : ℕ} : (s.engines e).blocked = some x → missing s.drv x →
      Waits cfg s (.engine e) (.thread .host)
  | user {u x : ℕ} : s.users u = some x → missing s.drv x →
      Waits cfg s (.user u) (.thread .host)
  | lock {t t' : Thread} {p : Point} : s.lock = some (t', p) → t ≠ t' → wants cfg s t = true →
      Waits cfg s (.thread t) (.thread t')
  | quiesce {t : Thread} {e seq : ℕ} {todo : List ℕ} : s.lock = some (t, .wait e seq todo) →
      (s.engines e).seq = seq → Waits cfg s (.thread t) (.engine e)

/-- The holder of `mem_lock` waits in `quiesce` for an engine that blocks on a missing page. -/
def Locked (s : State) : Prop :=
  ∃ t e seq todo x, s.lock = some (t, .wait e seq todo) ∧ (s.engines e).seq = seq ∧
    (s.engines e).blocked = some x ∧ missing s.drv x

def rank (s : State) : Party → ℕ
  | .engine _ => 0
  | .thread t => if s.lock.map Prod.fst = some t then 1 else 2
  | .user _ => 3

theorem Waits.rank_lt (h : ∀ e, (s.engines e).blocked = none) {p q : Party}
    (hw : Waits cfg s p q) : rank s q < rank s p := by
  cases hw with
  | @engine e x hb _ =>
    rw [h e] at hb
    cases hb
  | user _ _ =>
    simp only [rank]
    split_ifs <;> omega
  | lock hl hne _ =>
    simp [rank, hl, Ne.symm hne]
  | quiesce hl _ =>
    simp [rank, hl]

/-- In every run in which the condition is kept, nobody waits in `quiesce` with `mem_lock`
for an engine that blocks, and nobody waits in a circle. -/
theorem host_faults_deadlock_free (cfg : Config) (s : State)
    (h : Reach (step cfg) Spares (init cfg) s) :
    ¬Locked s ∧ ∀ p, ¬Relation.TransGen (Waits cfg s) p p := by
  have hclear : Clear cfg s :=
    h.invariant (P := Clear cfg) (.init cfg) fun _ _ _ hi hok hs => hi.step hok hs
  constructor
  · rintro ⟨t, e, seq, todo, x, -, -, hb, -⟩
    rw [hclear.engines e] at hb
    cases hb
  · intro p hcycle
    have hrank : ∀ q, Relation.TransGen (Waits cfg s) p q → rank s q < rank s p := by
      intro q hq
      induction hq with
      | single hw => exact hw.rank_lt hclear.engines
      | tail _ hw ih => exact (hw.rank_lt hclear.engines).trans ih
    exact Nat.lt_irrefl _ (hrank p hcycle)

def pinConfig : Config := ⟨⟨2, 1, true, 16⟩, 8192, 4096⟩

def copyUser : Op := ⟨true, 40960, 4096⟩

def pinUser : List Action := [.pin 40960 4096]

def touchPage : List Action :=
  [.drv (.lock (.allocManaged 4096)), .drv .reclaim, .drv (.mapManaged (some 409600)),
    .lock .ioctl, .finish .addRange, .submit (0, 0) ⟨false, 0, 0⟩, .enter 0 0,
    .drv (.raise (0, 0) 268435456), .leave 0 false, .drv .pop, .lock .device]

def movePage : Action := .finish (.demand ⟨fun _ => false, false, none, false⟩)

/-- While the copy runs, a thread accesses the page, which is evicted for it. -/
def evictForUser : List Action :=
  [.enter 1 0, .access 1 40960, .userAccess 0 409600, .popMessage, .lock .host, .evict,
    .quiesce, .quiesce]

def harmless : Action → Bool
  | .submit _ op => !op.direct
  | .finish (.demand _) | .finish (.prefetch _) => false
  | _ => true

theorem spares_of_harmless {a : Action} (h : harmless a = true) (s : State) : Spares s a := by
  cases a with
  | submit c op =>
    intro hd
    simp [harmless, hd] at h
  | finish a =>
    cases a with
    | demand env => cases h
    | prefetch envs => cases h
    | _ => exact nofun
  | _ => trivial

theorem reach_harmless (as : List Action) {s₀ : State} (has : as.all harmless = true)
    (h : Reach (step cfg) Spares s₀ s) (hs : exec (step cfg) s as = some t) :
    Reach (step cfg) Spares s₀ t :=
  .of_exec_of (fun a ha s => spares_of_harmless (List.all_eq_true.mp has a ha) s) h hs

def pinnedStart : State :=
  (exec (step pinConfig) (init pinConfig) pinUser).getD (init pinConfig)

def copyStart : State :=
  (step pinConfig pinnedStart (.submit (1, 0) copyUser)).getD pinnedStart

def touched : State := (exec (step pinConfig) copyStart touchPage).getD copyStart

def moved : State := (step pinConfig touched movePage).getD touched

theorem spares_movePage : Spares touched movePage := by
  intro va hva c op hop hd x hx heq
  have hmoving : moving touched.drv (.demand ⟨fun _ => false, false, none, false⟩) =
    [268435456] := by
    decide +kernel
  have hhost : touched.drv.mem.mmu.host (268435456 / pageSize) = 409600 := by decide +kernel
  have hrings : touched.rings = Function.update (Function.update (fun _ => []) (1, 0) [copyUser])
      (0, 0) [⟨false, 0, 0⟩] := rfl
  rw [hmoving, List.mem_singleton] at hva
  rw [hva, hhost] at heq
  have hcopy : op = copyUser := by
    rw [hrings] at hop
    by_cases h₀ : c = (0, 0)
    · subst h₀
      rw [Function.update_self, List.mem_singleton] at hop
      rw [hop] at hd
      cases hd
    · rw [Function.update_of_ne h₀] at hop
      by_cases h₁ : c = (1, 0)
      · subst h₁
        rwa [Function.update_self, List.mem_singleton] at hop
      · rw [Function.update_of_ne h₁] at hop
        cases hop
  subst hcopy
  have hle := pageOf_le x
  have hlt : x < 40960 + 4096 := hx.2
  omega

theorem moved_reach : Reach (step pinConfig) Spares (init pinConfig) moved := by
  have h₁ : Reach (step pinConfig) Spares (init pinConfig) pinnedStart :=
    reach_harmless pinUser rfl .refl rfl
  have h₂ : Reach (step pinConfig) Spares (init pinConfig) copyStart := by
    refine .tail (a := .submit (1, 0) copyUser) h₁ (fun _ x _ hm => ?_) rfl
    obtain ⟨⟨r, hr, -⟩, -⟩ := hm
    cases hr
  have h₃ : Reach (step pinConfig) Spares (init pinConfig) touched :=
    reach_harmless touchPage rfl h₂ rfl
  exact .tail (a := movePage) h₃ spares_movePage rfl

/-- The host-fault thread waits for the engine, which does not block. -/
theorem deadlock_free_evictForUser :
    ∃ s, exec (step pinConfig) moved evictForUser = some s ∧
      s.lock = some (.host, .wait 1 1 []) ∧ ¬Locked s ∧
      ∀ p, ¬Relation.TransGen (Waits pinConfig s) p p := by
  have hrun : (exec (step pinConfig) moved evictForUser).map State.lock =
      some (some (.host, .wait 1 1 [])) := by decide +kernel
  obtain ⟨s, hs, hlock⟩ := Option.map_eq_some_iff.mp hrun
  have hreach := reach_harmless evictForUser rfl moved_reach hs
  exact ⟨s, hs, hlock, host_faults_deadlock_free pinConfig s hreach⟩

/-! ### Pinned managed memory -/

def copyPinned : List Action :=
  [.pin 409600 4096, .submit (1, 0) ⟨true, 409600, 4096⟩, .enter 1 0, .access 1 409600,
    .popMessage, .lock .host, .evict, .quiesce, .quiesce]

/-- The host-fault thread evicts the page and waits for the engine that waits for it. -/
theorem pinned_managed_deadlocks :
    ¬∀ (cfg : Config) (s : State), cfg.drv.uffd = true → Reach (step cfg) anyStep (init cfg) s →
      ¬Locked s := by
  intro hall
  have hrun : (exec (step pinConfig) (init pinConfig) (touchPage ++ movePage :: copyPinned)).map
      (fun s => (s.lock, s.engines 1, decide (missing s.drv 409600))) =
      some (some (.host, .wait 1 1 []), ⟨1, some 0, some 409600⟩, true) := by decide +kernel
  obtain ⟨s, hs, hstate⟩ := Option.map_eq_some_iff.mp hrun
  simp only [Prod.mk.injEq, decide_eq_true_eq] at hstate
  obtain ⟨hlock, hengine, hmissing⟩ := hstate
  refine hall pinConfig s rfl (.of_exec .refl hs) ⟨.host, 1, 1, [], 409600, hlock, ?_, ?_, hmissing⟩
  · rw [hengine]
  · rw [hengine]

end HostFault

end SoftGpu
