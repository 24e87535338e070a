import SoftGpu.DeferredFree
import SoftGpu.Oversized

/-!
# When an allocation may fail

`SG_IOC_ALLOC` tries three times: after reclaiming what has retired, after a drain and
another reclaim, and after every managed page has given its frame back. `drain` reads the
PUT of one channel after the other and then waits until all of them have retired. Nothing is
pending afterwards, since a FREE read its fences earlier, and an eviction that succeeds leaves
only the blocks that the program has not freed. So the third attempt fails only when these
leave no gap, unless a fault is served between the eviction and the attempt.
-/

namespace SoftGpu.LastResort
open Machine VramAllocator

abbrev Chan := Driver.Chan

/-- `PutSnapshot` of the `drain` in progress: the channels it has not read, and what it read. -/
structure State where
  drv : Driver.State
  unread : List Chan
  target : Chan → ℕ

def init (cfg : Driver.Config) : State := ⟨Driver.init cfg, [], fun _ => 0⟩

inductive Action
  | drv (a : Driver.Action)
  | readPut

def isDrain : Driver.Holder → Bool
  | .drain _ => true
  | _ => false

def State.enter (cfg : Driver.Config) (s : State) (d : Driver.State) : State :=
  if isDrain d.holder && !isDrain s.drv.holder then ⟨d, cfg.chans, fun _ => 0⟩
  else { s with drv := d }

def step (cfg : Driver.Config) (s : State) : Action → Option State
  | .readPut =>
    match s.drv.holder, s.unread with
    | .drain _, c :: rest =>
      some { s with unread := rest, target := Function.update s.target c (s.drv.published c) }
    | _, _ => none
  | .drv (.drain ok) =>
    -- `wait_snapshot` looks at the sticky error after the wait.
    if s.unread = [] ∧ Driver.allRetired cfg s.drv s.target = true then
      (Driver.step cfg s.drv (.drain ok)).map (s.enter cfg)
    else none
  | .drv a => (Driver.step cfg s.drv a).map (s.enter cfg)

def lastAttempt : Driver.Holder → Bool
  | .run (.take _ tries) => 1 < tries
  | _ => false

/-- The rounding of no request wraps, the evictions of `evict_all_locked` publish their pages,
and no fault is served between it and the attempt that follows. -/
def spared (s : State) : Action → Prop
  | .drv (.lock (.alloc size)) => size + pageSize - 1 < 2 ^ 64
  | .drv (.evictAll envs) =>
    s.drv.mem.uffd = true → ∀ n < s.drv.mem.resident.length, (envs n).copyError = none
  | .drv (.demand _) | .drv (.prefetch _) => lastAttempt s.drv.holder = false
  | _ => True

instance (s : State) (a : Action) : Decidable (spared s a) :=
  match a with
  | .drv (.lock (.alloc _)) => inferInstanceAs (Decidable (_ < _))
  | .drv (.evictAll _) => inferInstanceAs (Decidable (_ = true → ∀ n < _, _ = none))
  | .drv (.demand _) | .drv (.prefetch _) => inferInstanceAs (Decidable (_ = false))
  | .drv (.lock (.allocManaged _)) | .drv (.lock (.free _)) | .drv (.lock .reclaim)
  | .drv (.publish _) | .drv (.retire _) | .drv .reclaim | .drv .take | .drv (.drain _)
  | .drv .mapBlock | .drv .undo | .drv (.mapManaged _) | .drv .addRange | .drv .lookup
  | .drv .snap | .drv (.raise ..) | .drv .pop | .drv (.hostFault ..) | .drv (.submit _)
  | .drv (.access ..) | .drv (.finish _) | .drv (.hostStore ..) | .readPut => .isTrue trivial

/-- As `spared`, but faults may be served at any time. -/
def publishes (s : State) : Action → Prop
  | .drv (.lock (.alloc size)) => size + pageSize - 1 < 2 ^ 64
  | .drv (.evictAll envs) =>
    s.drv.mem.uffd = true → ∀ n < s.drv.mem.resident.length, (envs n).copyError = none
  | _ => True

instance (s : State) (a : Action) : Decidable (publishes s a) :=
  match a with
  | .drv (.lock (.alloc _)) => inferInstanceAs (Decidable (_ < _))
  | .drv (.evictAll _) => inferInstanceAs (Decidable (_ = true → ∀ n < _, _ = none))
  | .drv (.demand _) | .drv (.prefetch _) | .drv (.lock (.allocManaged _)) | .drv (.lock (.free _))
  | .drv (.lock .reclaim) | .drv (.publish _) | .drv (.retire _) | .drv .reclaim | .drv .take
  | .drv (.drain _) | .drv .mapBlock | .drv .undo | .drv (.mapManaged _) | .drv .addRange
  | .drv .lookup | .drv .snap | .drv (.raise ..) | .drv .pop | .drv (.hostFault ..)
  | .drv (.submit _) | .drv (.access ..) | .drv (.finish _) | .drv (.hostStore ..)
  | .readPut => .isTrue trivial

/-- The blocks that were not freed leave a gap of `size` bytes, rounded to pages. -/
def Roomy (s : Driver.State) (size : ℕ) : Prop :=
  ∃ x, x + ceilTo pageSize size ≤ Driver.vramBytes ∧ ∀ e ∈ s.allocs.entries, e.2.host = 0 →
    Separate (x, ceilTo pageSize size) (e.1, e.2.size)

/-- The gap is not one that a managed page in VRAM takes. -/
def RoomBeside (s : Driver.State) (size : ℕ) : Prop :=
  ∃ x, x + ceilTo pageSize size ≤ Driver.vramBytes ∧
    (∀ e ∈ s.allocs.entries, e.2.host = 0 → Separate (x, ceilTo pageSize size) (e.1, e.2.size)) ∧
    ∀ e ∈ s.mem.resident, Separate (x, ceilTo pageSize size) (frameBlock s.mem.mmu e)

def request : Driver.Holder → Option ℕ
  | .reclaim _ _ (.take size _) | .run (.take size _) | .drain (.take size _) | .evictAll size
  | .mapBlock _ size => some size
  | _ => none

def phase : Driver.Holder → ℕ
  | .reclaim _ _ next => if next.tries = 0 then 8 else 5
  | .run next => if next.tries = 0 then 7 else if next.tries = 1 then 4 else 2
  | .drain _ => 6
  | .evictAll _ => 3
  | .mapBlock .. => 1
  | _ => 0

def ahead (s : State) : ℕ × ℕ :=
  (phase s.drv.holder,
    match s.drv.holder with
    | .reclaim todo _ _ => todo.length
    | .drain _ => s.unread.length
    | _ => 0)

def isOwn : Action → Bool
  | .drv a => a.isHolders
  | .readPut => true

/-- A request for which there is room is answered with an address, or with `EIO` by a drain
that finds a sticky error. It waits for nothing but the commands the drain has read. -/
structure Served (cfg : Driver.Config) (s : State) : Prop where
  answer : ∀ a r, Driver.reply s.drv a = some r → (∃ addr, r = .ok addr) ∨
    a = .drain false ∧ r = .error .eio
  sooner : ∀ a s', isOwn a = true → step cfg s a = some s' →
    Prod.Lex (· < ·) (· < ·) (ahead s') (ahead s)
  goesOn : (∃ a, isOwn a = true ∧ (step cfg s a).isSome = true) ∨ isDrain s.drv.holder = true ∧
    ∃ c ∈ cfg.chans, s.drv.retired c < s.target c ∧ s.target c ≤ s.drv.published c

def Cleared (cfg : Driver.Config) (s : State) : Driver.Holder → Prop
  | .drain next => next.tries = 1 ∧
    ∀ p ∈ s.drv.pending, ∀ c ∈ cfg.chans, c ∉ s.unread → p.fence c ≤ s.target c
  | .reclaim todo kept next => next.tries ≤ 1 ∧ (0 < next.tries →
    kept = [] ∧ ∀ p ∈ todo, Driver.allRetired cfg s.drv p.fence = true)
  | .run next => 0 < next.tries → s.drv.pending = []
  | .evictAll _ => s.drv.pending = []
  | _ => True

structure Books (cfg : Driver.Config) (s : State) : Prop where
  fence : ∀ p ∈ s.drv.pending ++ s.drv.holder.parked, ∀ c, p.fence c ≤ s.drv.published c
  cleared : Cleared cfg s s.drv.holder
  target : ∀ c, s.target c ≤ s.drv.published c

variable {cfg : Driver.Config} {s s' : State}

/-! ### Evictions that succeed leave nothing behind -/

theorem evictAll_empties {m : Mem} {loose blocks : List (ℕ × ℕ)}
    {regions : List Region} {envs : ℕ → Env}
    {n : ℕ} (h : MemInv m loose blocks regions) (hlen : m.resident.length ≤ n)
    (hok : m.uffd = true → ∀ i < n, (envs i).copyError = none) :
    (m.evictAllLocked envs n).resident = [] := by
  induction n generalizing m with
  | zero => exact List.length_eq_zero_iff.mp (Nat.le_zero.mp hlen)
  | succ n ih =>
    rw [Mem.evictAllLocked]
    cases hres : m.resident with
    | nil => exact hres
    | cons e rest =>
      obtain ⟨hva, hv, hin⟩ := h.clock.entry e (by simp [hres])
      have hpos : m.residentPos e.2 = some e.1 := (h.clock.pos e.2 e.1).mpr (by simp [hres])
      obtain ⟨-, ⟨huffd, hfail⟩, -⟩ | ⟨hm, -, heq⟩ := evictLocked_cases h hva hv hin (envs n)
      · exact absurd (hok huffd n n.lt_succ_self) hfail
      · have hnext : MemInv (m.evictLocked e.2 (envs n)).2
            (((m.mmu.pte (e.2 / pageSize)).pa, pageSize) :: loose) blocks regions := by
          obtain ⟨hnone, -⟩ | ⟨pa, hsome, hinv⟩ := h.evictLocked hva hv hin (envs n)
          · rw [heq] at hnone
            cases hnone
          · rw [heq] at hsome
            cases hsome
            exact hinv
        rw [heq] at hnext
        simp only [heq]
        apply ih hnext.freeFrame
        · simp only [Mem.freeFrame, Mem.forgetResident, hpos, hres]
          have hlt : (List.filter (fun f : ℕ × ℕ => f.1 ≠ e.1) (e :: rest)).length <
            (e :: rest).length :=
            List.length_filter_lt_length_iff_exists.mpr ⟨e, by simp, by simp⟩
          rw [hres] at hlen
          simp only [List.length_cons] at hlen hlt ⊢
          omega
        · simp only [Mem.freeFrame, Mem.forgetResident, hpos]
          exact fun huffd i hi => hok huffd i (Nat.lt_succ_of_lt hi)

theorem publishHost_resident {m m' : Mem} {host pa : ℕ} {dirty : Bool} {env : Env}
    (h : m.publishHost host pa dirty env = .ok m') : m'.resident = m.resident := by
  simp only [Mem.publishHost] at h
  split_ifs at h
  · exact Except.ok.inj h ▸ rfl
  · exact Except.ok.inj h ▸ rfl
  · split at h
    · cases h
    · split at h <;> exact Except.ok.inj h ▸ rfl

theorem evictLocked_resident (m : Mem) (va : ℕ) (env : Env) (hnil : m.resident = []) :
    (m.evictLocked va env).2.resident = [] := by
  simp only [Mem.evictLocked]
  split_ifs
  · exact hnil
  · split
    · exact hnil
    · rename_i m' hpub
      have hsame : m'.resident = [] := (publishHost_resident hpub).trans hnil
      simp only [Mem.forgetResident]
      split <;> simp [hsame]

theorem serveHostFault_resident (m : Mem) (host : ℕ) (env : Env) (hnil : m.resident = []) :
    (m.serveHostFault host env).resident = [] := by
  simp only [Mem.serveHostFault]
  split
  · exact hnil
  · rename_i va _
    have hev := evictLocked_resident m va env hnil
    split_ifs
    · split <;> rename_i heq <;> rw [heq] at hev <;> exact hev
    · exact hnil

/-! ### The steps -/

variable {d : Driver.State} {a : Driver.Action}

theorem enter_drv (cfg : Driver.Config) (s : State) (d : Driver.State) :
    (s.enter cfg d).drv = d := by
  simp only [State.enter]
  split_ifs <;> rfl

theorem enter_of_same (h : d.holder = s.drv.holder) : s.enter cfg d = { s with drv := d } := by
  rw [State.enter, if_neg]
  simp [h]

theorem step_drv {b : Action} (hs : step cfg s b = some s') : b = .readPut ∧ s'.drv = s.drv ∨
    ∃ a d, b = .drv a ∧ Driver.step cfg s.drv a = some d ∧ s' = s.enter cfg d ∧
      ∀ ok, a = .drain ok → s.unread = [] ∧ Driver.allRetired cfg s.drv s.target = true := by
  cases b with
  | readPut =>
    simp only [step] at hs
    split at hs <;> cases hs
    exact .inl ⟨rfl, rfl⟩
  | drv a =>
    right
    by_cases hdrain : ∃ ok, a = .drain ok
    · obtain ⟨ok, rfl⟩ := hdrain
      simp only [step, Option.ite_none_right_eq_some, Option.map_eq_some_iff] at hs
      obtain ⟨hwait, d, hd, rfl⟩ := hs
      exact ⟨_, d, rfl, hd, rfl, fun _ _ => hwait⟩
    · have hmap : step cfg s (.drv a) = (Driver.step cfg s.drv a).map (s.enter cfg) := by
        cases a with
        | drain ok => exact absurd ⟨ok, rfl⟩ hdrain
        | _ => rfl
      rw [hmap, Option.map_eq_some_iff] at hs
      obtain ⟨d, hd, rfl⟩ := hs
      exact ⟨a, d, rfl, hd, rfl, fun ok hok => absurd ⟨ok, hok⟩ hdrain⟩

theorem publishes_noWrap (h : publishes s (.drv a)) : Driver.noWrap s.drv a := by
  cases a with
  | lock req =>
    cases req with
    | alloc size => exact h
    | _ => trivial
  | _ => trivial

theorem spared_publishes {b : Action} (h : spared s b) : publishes s b := by
  cases b with
  | readPut => trivial
  | drv a =>
    cases a with
    | lock req =>
      cases req with
      | alloc size => exact h
      | _ => trivial
    | evictAll envs => exact h
    | _ => trivial

theorem reach_inv (h : Reach (step cfg) publishes (init cfg) s) : Driver.Inv s.drv := by
  apply h.invariant (P := fun s => Driver.Inv s.drv) (Driver.inv_init cfg)
  intro s b s' hi hok hs
  obtain ⟨-, heq⟩ | ⟨a, d, rfl, hd, rfl, -⟩ := step_drv hs
  · rw [heq]
    exact hi
  · rw [enter_drv]
    exact Driver.step_inv hi (publishes_noWrap hok) hd

theorem outside_resident (hown : a.isHolders = false) (hd : ∀ env, a ≠ .demand env)
    (hp : ∀ envs, a ≠ .prefetch envs) (hs : Driver.step cfg s.drv a = some d)
    (hnil : s.drv.mem.resident = []) : d.mem.resident = [] := by
  obtain hs | hs | hs := Driver.step_cases hs
  · cases a <;> first | cases hs | cases hown
  · cases a with
    | demand env => exact absurd rfl (hd env)
    | prefetch envs => exact absurd rfl (hp envs)
    | hostFault addr env =>
      simp only [Driver.faultStep, Option.ite_none_right_eq_some, Option.some.injEq] at hs
      obtain ⟨-, rfl⟩ := hs
      exact serveHostFault_resident _ _ _ hnil
    | raise c va =>
      simp only [Driver.faultStep, Option.ite_none_right_eq_some, Option.some.injEq] at hs
      exact hs.2 ▸ hnil
    | pop =>
      simp only [Driver.faultStep] at hs
      split at hs <;> cases hs
      exact hnil
    | _ => cases hs
  · cases a with
    | publish c => exact Option.some.inj hs ▸ hnil
    | retire c =>
      simp only [Driver.worldStep, Option.ite_none_right_eq_some, Option.some.injEq] at hs
      exact hs.2 ▸ hnil
    | submit k =>
      simp only [Driver.worldStep] at hs
      split at hs <;> cases hs
      exact hnil
    | access k v write =>
      simp only [Driver.worldStep] at hs
      split at hs <;> try cases hs
      split at hs <;> cases hs
      exact hnil
    | finish k =>
      simp only [Driver.worldStep] at hs
      split at hs <;> try cases hs
      split at hs <;> cases hs
      exact hnil
    | hostStore v off byte =>
      simp only [Driver.worldStep] at hs
      split_ifs at hs
      split at hs <;> cases hs
      exact hnil
    | _ => cases hs

theorem outside_counts (hown : a.isHolders = false) (hs : Driver.step cfg s.drv a = some d) :
    (∀ c, s.drv.published c ≤ d.published c) ∧ (∀ c, s.drv.retired c ≤ d.retired c) ∧
      d.holder = s.drv.holder ∧ d.pending = s.drv.pending := by
  have hout : d.holder = s.drv.holder ∧ d.pending = s.drv.pending := by
    obtain hs | hs | hs := Driver.step_cases hs
    · cases a <;> first | cases hs | cases hown
    · exact ⟨(Driver.faultStep_outside hs).holder, (Driver.faultStep_outside hs).pending⟩
    · exact ⟨(Driver.worldStep_outside hs).holder, (Driver.worldStep_outside hs).pending⟩
  by_cases hpub : ∃ c, a = .publish c
  · obtain ⟨c, rfl⟩ := hpub
    cases hs
    refine ⟨fun c' => ?_, fun _ => le_rfl, hout⟩
    by_cases hc : c' = c
    · subst hc
      simp
    · simp [hc]
  · have hmoves : a.moves = false := by
      cases a with
      | publish c => exact absurd ⟨c, rfl⟩ hpub
      | _ => first | rfl | exact hown
    have hby := Driver.step_bystander hmoves hs
    exact ⟨fun c => (congrFun hby.published c).ge, hby.retired, hout⟩

theorem books_init (cfg : Driver.Config) : Books cfg (init cfg) where
  fence := by simp [init, Driver.init, Driver.Holder.parked]
  cleared := trivial
  target := fun _ => le_rfl

namespace Books

theorem outside (h : Books cfg s) (hown : a.isHolders = false)
    (hs : Driver.step cfg s.drv a = some d) : Books cfg (s.enter cfg d) := by
  obtain ⟨hpub, hret, hholder, hpending⟩ := outside_counts hown hs
  rw [enter_of_same hholder]
  refine ⟨?_, ?_, fun c => (h.target c).trans (hpub c)⟩
  · dsimp only
    rw [hpending, hholder]
    exact fun p hp c => (h.fence p hp c).trans (hpub c)
  · have hcl := h.cleared
    dsimp only
    rw [hholder]
    revert hcl
    cases s.drv.holder with
    | drain next =>
      simp only [Cleared, hpending]
      exact id
    | reclaim todo kept next =>
      rintro ⟨hle, hcl⟩
      refine ⟨hle, fun htries => ?_⟩
      obtain ⟨hkept, hall⟩ := hcl htries
      exact ⟨hkept, fun p hp => Release.allRetired_mono hret (hall p hp)⟩
    | run next =>
      simp only [Cleared, hpending]
      exact id
    | evictAll size =>
      simp only [Cleared, hpending]
      exact id
    | _ => exact fun _ => trivial

theorem arrive (h : Books cfg s) (hd : isDrain d.holder = false)
    (hpub : d.published = s.drv.published)
    (hfence : ∀ p ∈ d.pending ++ d.holder.parked, ∀ c, p.fence c ≤ s.drv.published c)
    (hcl : Cleared cfg { s with drv := d } d.holder) : Books cfg (s.enter cfg d) := by
  rw [State.enter, if_neg (by simp [hd])]
  exact ⟨hpub ▸ hfence, hcl, hpub ▸ h.target⟩

theorem arriveDrain {next : Driver.Next} (h : Books cfg s) (hd : d.holder = .drain next)
    (htries : next.tries = 1) (hs : isDrain s.drv.holder = false)
    (hpub : d.published = s.drv.published)
    (hpending : d.pending = s.drv.pending) : Books cfg (s.enter cfg d) := by
  rw [State.enter, if_pos (by rw [hs, hd]; rfl)]
  refine ⟨?_, ?_, fun _ => Nat.zero_le _⟩
  · simp only [hd, Driver.Holder.parked, List.append_nil, hpending, hpub]
    exact fun p hp => h.fence p (List.mem_append_left _ hp)
  · simp only [hd, Cleared]
    exact ⟨htries, fun p _ c hc hnot => absurd hc hnot⟩

theorem pending_le (h : Books cfg s) {p : Driver.Pending} (hp : p ∈ s.drv.pending) (c : Chan) :
    p.fence c ≤ s.drv.published c := h.fence p (List.mem_append_left _ hp) c

theorem parked_le (h : Books cfg s) {p : Driver.Pending} (hp : p ∈ s.drv.holder.parked) (c : Chan) :
    p.fence c ≤ s.drv.published c := h.fence p (List.mem_append_right _ hp) c

theorem readPut (h : Books cfg s) (hs : step cfg s .readPut = some s') : Books cfg s' := by
  simp only [step] at hs
  split at hs <;> cases hs
  rename_i next c rest hh hunread
  refine ⟨h.fence, ?_, fun c' => ?_⟩
  · have hcl := h.cleared
    dsimp only
    rw [hh] at hcl ⊢
    simp only [Cleared, hunread] at hcl ⊢
    refine ⟨hcl.1, fun p hp c' hc' hnot => ?_⟩
    by_cases hc : c' = c
    · subst hc
      rw [Function.update_self]
      exact h.pending_le hp c'
    · rw [Function.update_of_ne hc]
      exact hcl.2 p hp c' hc' (by simp [hc, hnot])
  · dsimp only
    by_cases hc : c' = c
    · subst hc
      rw [Function.update_self]
    · rw [Function.update_of_ne hc]
      exact h.target c'

theorem lock {req : Driver.Request} (h : Books cfg s)
    (hs : Driver.step cfg s.drv (.lock req) = some d) :
    Books cfg (s.enter cfg d) := by
  obtain ⟨hh, rfl⟩ := Driver.lock_step hs
  refine h.arrive rfl rfl ?_ ?_
  · simp only [Driver.State.reclaimThen, Driver.Holder.parked, List.nil_append]
    exact fun p hp => h.pending_le hp
  · -- The first reclaim is followed by the first attempt.
    cases req <;> exact ⟨Nat.zero_le 1, fun htries => absurd htries (lt_irrefl 0)⟩

theorem reclaim (h : Books cfg s) (hi : Driver.Inv s.drv)
    (hs : Driver.step cfg s.drv .reclaim = some d) : Books cfg (s.enter cfg d) := by
  obtain ⟨p, todo, kept, next, hh, rfl⟩ | ⟨kept, next, hh, rfl⟩ := Driver.reclaim_step hs
  · have hquiet := hi.quiet _ _ _ hh
    have hcl := h.cleared
    have hpark : ∀ q ∈ s.drv.holder.parked, ∀ c, q.fence c ≤ s.drv.published c :=
      fun q hq => h.parked_le hq
    rw [hh] at hcl hpark
    simp only [Driver.Holder.parked, List.mem_append, List.mem_cons] at hpark
    split_ifs with hret
    · refine h.arrive rfl (Driver.recycle_published p) ?_ ?_
      · simp only [Driver.recycle_pending, hquiet, Driver.Holder.parked,
          List.nil_append, List.mem_append]
        exact fun q hq => hpark q (hq.imp_right .inr)
      · refine ⟨hcl.1, fun htries => ?_⟩
        obtain ⟨hkept, hall⟩ := hcl.2 htries
        refine ⟨hkept, fun q hq => ?_⟩
        simp only [Driver.allRetired, Driver.recycle_retired]
        exact hall q (List.mem_cons_of_mem p hq)
    · refine h.arrive rfl rfl ?_ ?_
      · simp only [hquiet, Driver.Holder.parked, List.nil_append,
          List.mem_append, List.mem_singleton]
        rintro q ((hq | rfl) | hq)
        · exact hpark q (.inl hq)
        · exact hpark q (.inr (.inl rfl))
        · exact hpark q (.inr (.inr hq))
      · exact ⟨hcl.1, fun htries => absurd ((hcl.2 htries).2 p List.mem_cons_self) hret⟩
  · have hcl := h.cleared
    have hpark : ∀ q ∈ s.drv.holder.parked, ∀ c, q.fence c ≤ s.drv.published c :=
      fun q hq => h.parked_le hq
    rw [hh] at hcl hpark
    simp only [Driver.Holder.parked, List.append_nil] at hpark
    by_cases hdone : next = .done
    · simp only [if_pos hdone]
      refine h.arrive rfl rfl ?_ trivial
      simpa [Driver.Holder.parked] using hpark
    · simp only [if_neg hdone]
      refine h.arrive rfl rfl ?_ (fun htries => (hcl.2 htries).1)
      simpa [Driver.Holder.parked] using hpark

theorem drain {ok : Bool} (h : Books cfg s) (hs : Driver.step cfg s.drv (.drain ok) = some d)
    (hunread : s.unread = []) (hret : Driver.allRetired cfg s.drv s.target = true) :
    Books cfg (s.enter cfg d) := by
  obtain ⟨next, hh, rfl⟩ := Driver.drain_step hs
  cases ok with
  | false =>
    simp only [Bool.false_eq_true, if_false]
    refine h.arrive rfl rfl ?_ trivial
    simp only [Driver.Holder.parked, List.append_nil]
    exact fun p hp => h.pending_le hp
  | true =>
    have hcl := h.cleared
    simp only [hh, Cleared, hunread, List.not_mem_nil, not_false_eq_true, forall_const] at hcl
    simp only [if_true]
    refine h.arrive rfl rfl ?_ ⟨hcl.1.le, fun _ => ⟨rfl, fun p hp => ?_⟩⟩
    · simp only [Driver.State.reclaimThen, Driver.Holder.parked, List.nil_append]
      exact fun p hp => h.pending_le hp
    · simp only [Driver.allRetired, List.all_eq_true, decide_eq_true_eq] at hret ⊢
      exact fun c hc => (hcl.2 p hp c hc).trans (hret c hc)

theorem keep (h : Books cfg s) (hd : isDrain d.holder = false)
    (hpub : d.published = s.drv.published)
    (hpending : d.pending = s.drv.pending) (hpark : d.holder.parked = [])
    (hcl : Cleared cfg { s with drv := d } d.holder) : Books cfg (s.enter cfg d) := by
  refine h.arrive hd hpub ?_ hcl
  rw [hpending, hpark, List.append_nil]
  exact fun p hp => h.pending_le hp

theorem take (h : Books cfg s) (hs : Driver.step cfg s.drv .take = some d) :
    Books cfg (s.enter cfg d) := by
  obtain ⟨size, tries, hh, hs⟩ := Driver.take_step hs
  have hcl := h.cleared
  simp only [hh, Cleared, Driver.Next.tries] at hcl
  simp only [Driver.holderStep, hh] at hs
  split at hs
  · cases hs
    exact h.keep rfl rfl rfl rfl trivial
  · split at hs <;> cases hs
    · exact h.arriveDrain rfl rfl (by rw [hh]; rfl) rfl rfl
    · exact h.keep rfl rfl rfl rfl (hcl Nat.one_pos)
    · exact h.keep rfl rfl rfl rfl trivial

theorem evictAll {envs : ℕ → Env} (h : Books cfg s)
    (hs : Driver.step cfg s.drv (.evictAll envs) = some d) :
    Books cfg (s.enter cfg d) := by
  obtain hs | hs | hs := Driver.step_cases hs
  · simp only [Driver.holderStep] at hs
    split at hs <;> cases hs
    rename_i size hh
    have hcl := h.cleared
    rw [hh] at hcl
    exact h.keep rfl rfl rfl rfl fun _ => hcl
  · cases hs
  · cases hs

theorem undo (h : Books cfg s) (hs : Driver.step cfg s.drv .undo = some d) :
    Books cfg (s.enter cfg d) := by
  obtain hs | hs | hs := Driver.step_cases hs
  · simp only [Driver.holderStep] at hs
    split at hs <;> cases hs
    exact h.keep rfl rfl rfl rfl trivial
  · cases hs
  · cases hs

theorem mapManaged {host : Option ℕ} (h : Books cfg s)
    (hs : Driver.step cfg s.drv (.mapManaged host) = some d) : Books cfg (s.enter cfg d) := by
  obtain hs | hs | hs := Driver.step_cases hs
  · simp only [Driver.holderStep] at hs
    split at hs <;> try cases hs
    rename_i size tries hh
    split at hs
    · split at hs <;> cases hs
      · exact h.arriveDrain rfl rfl (by rw [hh]; rfl) rfl rfl
      · exact h.keep rfl rfl rfl rfl trivial
    · split at hs
      · cases hs
        exact h.keep rfl rfl rfl rfl trivial
      · split_ifs at hs
        split at hs <;> cases hs
        · exact h.keep rfl rfl rfl rfl trivial
        · exact h.keep rfl rfl rfl rfl trivial
  · cases hs
  · cases hs

theorem snap (h : Books cfg s) (hs : Driver.step cfg s.drv .snap = some d) :
    Books cfg (s.enter cfg d) := by
  obtain ⟨p, c, todo, hh, rfl⟩ | ⟨p, hh, rfl⟩ := Driver.snap_step hs
  · have hp := h.parked_le (p := p) (by rw [hh]; simp [Driver.Holder.parked])
    refine h.arrive rfl rfl ?_ trivial
    simp only [Driver.Holder.parked, List.mem_append, List.mem_singleton]
    rintro q (hq | rfl) c'
    · exact h.pending_le hq c'
    · by_cases hc : c' = c
      · subst hc
        simp
      · simp [hc, hp c']
  · have hp := h.parked_le (p := p) (by rw [hh]; simp [Driver.Holder.parked])
    split_ifs
    · exact h.keep rfl (Driver.recycle_published p) (Driver.recycle_pending p) rfl trivial
    · refine h.arrive rfl rfl ?_ trivial
      simp only [Driver.Holder.parked, List.append_nil, List.mem_append, List.mem_singleton]
      rintro q (hq | rfl)
      · exact h.pending_le hq
      · exact hp

theorem lookup (h : Books cfg s) (hs : Driver.step cfg s.drv .lookup = some d) :
    Books cfg (s.enter cfg d) := by
  obtain ⟨addr, hh, ⟨-, rfl⟩ | ⟨al, -, rfl⟩⟩ := Driver.lookup_step hs
  · exact h.keep rfl rfl rfl rfl trivial
  · refine h.arrive rfl rfl ?_ trivial
    simp only [Driver.Holder.parked, List.mem_append, List.mem_singleton]
    rintro q (hq | rfl) c
    · exact h.pending_le hq c
    · exact Nat.zero_le _

end Books

theorem books_step {b : Action} (hi : Driver.Inv s.drv) (h : Books cfg s)
    (hs : step cfg s b = some s') : Books cfg s' := by
  obtain ⟨rfl, -⟩ | ⟨a, d, rfl, hd, rfl, hwait⟩ := step_drv hs
  · exact h.readPut hs
  cases a with
  | drain ok => exact h.drain hd (hwait ok rfl).1 (hwait ok rfl).2
  | lock req => exact h.lock hd
  | reclaim => exact h.reclaim hi hd
  | take => exact h.take hd
  | evictAll envs => exact h.evictAll hd
  | mapBlock =>
    obtain ⟨addr, size, -, ⟨mmu, -, rfl⟩ | rfl⟩ := Driver.mapBlock_step hd <;>
      exact h.keep rfl rfl rfl rfl trivial
  | undo => exact h.undo hd
  | mapManaged host => exact h.mapManaged hd
  | addRange =>
    obtain ⟨addr, bytes, host, id, -, rfl⟩ := Driver.addRange_step hd
    exact h.keep rfl rfl rfl rfl trivial
  | lookup => exact h.lookup hd
  | snap => exact h.snap hd
  | _ => exact h.outside rfl hd

theorem reach_books (h : Reach (step cfg) publishes (init cfg) s) : Books cfg s :=
  h.invariant_of (P := fun s => Books cfg s) (fun _ => reach_inv) (books_init cfg)
    fun _ _ _ hi hb _ hs => books_step hi hb hs

/-! ### The last attempt -/

theorem lastAttempt_own (h : Books cfg s) (hown : a.isHolders = true)
    (hs : Driver.step cfg s.drv a = some d) (hlast : lastAttempt d.holder = true) :
    ∃ envs, a = .evictAll envs := by
  cases a with
  | evictAll envs => exact ⟨envs, rfl⟩
  | lock req =>
    obtain ⟨-, rfl⟩ := Driver.lock_step hs
    cases hlast
  | reclaim =>
    obtain ⟨p, todo, kept, next, -, rfl⟩ | ⟨kept, next, hh, rfl⟩ := Driver.reclaim_step hs
    · split_ifs at hlast <;> cases hlast
    · -- A reclaim is followed by one of the first two attempts.
      have hcl := h.cleared
      rw [hh] at hcl
      have hle := hcl.1
      split_ifs at hlast
      · cases hlast
      · cases next with
        | take size tries =>
          simp only [Driver.Next.tries] at hle
          simp only [lastAttempt, decide_eq_true_eq] at hlast
          omega
        | _ => cases hlast
  | take =>
    obtain ⟨size, tries, hh, hs⟩ := Driver.take_step hs
    simp only [Driver.holderStep, hh] at hs
    split at hs
    · cases hs
      cases hlast
    · split at hs <;> cases hs <;> cases hlast
  | drain ok =>
    obtain ⟨next, -, rfl⟩ := Driver.drain_step hs
    cases ok <;> cases hlast
  | mapBlock =>
    obtain ⟨addr, size, -, ⟨mmu, -, rfl⟩ | rfl⟩ := Driver.mapBlock_step hs <;> cases hlast
  | undo =>
    obtain hs | hs | hs := Driver.step_cases hs
    · simp only [Driver.holderStep] at hs
      split at hs <;> cases hs
      cases hlast
    · cases hs
    · cases hs
  | mapManaged host =>
    obtain hs | hs | hs := Driver.step_cases hs
    · simp only [Driver.holderStep] at hs
      split at hs <;> try cases hs
      split at hs
      · split at hs <;> cases hs <;> cases hlast
      · split at hs
        · cases hs
          cases hlast
        · split_ifs at hs
          split at hs <;> cases hs <;> cases hlast
    · cases hs
    · cases hs
  | addRange =>
    obtain ⟨addr, bytes, host, id, -, rfl⟩ := Driver.addRange_step hs
    cases hlast
  | lookup =>
    obtain ⟨addr, -, ⟨-, rfl⟩ | ⟨al, -, rfl⟩⟩ := Driver.lookup_step hs <;> cases hlast
  | snap =>
    obtain ⟨p, c, todo, -, rfl⟩ | ⟨p, -, rfl⟩ := Driver.snap_step hs
    · cases hlast
    · split_ifs at hlast <;> cases hlast
  | _ => cases hown

theorem evictAll_leaves {envs : ℕ → Env} (hi : Driver.Inv s.drv)
    (hok : publishes s (.drv (.evictAll envs)))
    (hs : Driver.step cfg s.drv (.evictAll envs) = some d) : d.mem.resident = [] := by
  obtain hs | hs | hs := Driver.step_cases hs
  · simp only [Driver.holderStep] at hs
    split at hs <;> cases hs
    exact evictAll_empties hi.mem le_rfl hok
  · cases hs
  · cases hs

theorem emptied_step {b : Action} (hi : Driver.Inv s.drv) (hb : Books cfg s)
    (h : lastAttempt s.drv.holder = true → s.drv.mem.resident = []) (hok : spared s b)
    (hs : step cfg s b = some s') (hlast : lastAttempt s'.drv.holder = true) :
    s'.drv.mem.resident = [] := by
  obtain ⟨-, hdrv⟩ | ⟨a, d, rfl, hd, rfl, -⟩ := step_drv hs
  · rw [hdrv] at hlast ⊢
    exact h hlast
  rw [enter_drv] at hlast ⊢
  cases hown : a.isHolders with
  | true =>
    obtain ⟨envs, rfl⟩ := lastAttempt_own hb hown hd hlast
    exact evictAll_leaves hi hok hd
  | false =>
    obtain ⟨-, -, hholder, -⟩ := outside_counts hown hd
    rw [hholder] at hlast
    apply outside_resident hown ?_ ?_ hd (h hlast)
    · rintro env rfl
      exact Bool.false_ne_true (hok.symm.trans hlast)
    · rintro envs rfl
      exact Bool.false_ne_true (hok.symm.trans hlast)

theorem reach_emptied (h : Reach (step cfg) spared (init cfg) s)
    (hlast : lastAttempt s.drv.holder = true) : s.drv.mem.resident = [] := by
  have hbooks : ∀ s, Reach (step cfg) spared (init cfg) s → Driver.Inv s.drv ∧ Books cfg s := by
    intro s hs
    have hpub := hs.mono fun _ _ => spared_publishes
    exact ⟨reach_inv hpub, reach_books hpub⟩
  exact h.invariant_of (P := fun s => lastAttempt s.drv.holder = true → s.drv.mem.resident = [])
    hbooks (fun _ => rfl) (fun _ _ _ hinv hnil hok hs => emptied_step hinv.1 hinv.2 hnil hok hs)
    hlast

theorem live_perm (hi : Driver.Inv s.drv) (hb : Books cfg s) {size tries : ℕ}
    (hh : s.drv.holder = .run (.take size tries)) (htries : 1 < tries) :
    s.drv.mem.vram.live.entries.Perm
      (Driver.blocksOf s.drv.entered ++ s.drv.mem.resident.map (frameBlock s.drv.mem.mmu)) := by
  have hcl := hb.cleared
  rw [hh] at hcl
  have hpending : s.drv.pending = [] := hcl (Nat.zero_lt_of_lt htries)
  have hparked : s.drv.parked = [] := by
    simp [Driver.State.parked, hpending, hh, Driver.Holder.parked]
  have hlive := hi.mem.live
  rw [Driver.blocksOf_items, hparked, hh] at hlive
  simpa [Driver.Holder.loose, Driver.blocksOf] using hlive

theorem mem_blocksOf_entered (s : Driver.State) (b : ℕ × ℕ) : b ∈ Driver.blocksOf s.entered ↔
    ∃ e ∈ s.allocs.entries, e.2.host = 0 ∧ (e.1, e.2.size) = b := by
  simp only [Driver.blocksOf, Driver.State.entered, List.mem_filterMap, List.mem_map,
    Option.ite_none_right_eq_some, Option.some.injEq]
  constructor
  · rintro ⟨r, ⟨e, he, rfl⟩, hb⟩
    exact ⟨e, he, hb⟩
  · rintro ⟨e, he, hb⟩
    exact ⟨_, ⟨e, he, rfl⟩, hb⟩

/-- The last attempt finds every gap there is. -/
theorem alloc_iff (hi : Driver.Inv s.drv) (hb : Books cfg s) {size tries : ℕ}
    (hh : s.drv.holder = .run (.take size tries)) (htries : 1 < tries) :
    (s.drv.mem.allocFrame size).isSome = true ↔ RoomBeside s.drv size := by
  have hfits := hi.fits
  rw [hh] at hfits
  have hfits : Driver.Fits size := hfits
  have hneed : roundUp pageSize size = ceilTo pageSize size :=
    roundUp_eq_ceilTo hfits.1 (by have := hfits.2; omega)
  have hpos : 0 < ceilTo pageSize size := ceilTo_pos pageSize_pos hfits.1
  have hsize : s.drv.mem.vramSize = Driver.vramBytes := by
    rw [Mem.vramSize, hi.vramPages]
    rfl
  have hgap : s.drv.mem.vram.Gap 0 s.drv.mem.vramSize (ceilTo pageSize size) ↔
      RoomBeside s.drv size := by
    simp only [Gap, RoomBeside, hsize, Nat.zero_le, Nat.zero_add, true_and]
    refine exists_congr fun x => and_congr_right fun _ => ?_
    simp only [(live_perm hi hb hh htries).mem_iff, List.mem_append, mem_blocksOf_entered,
      List.mem_map]
    constructor
    · intro hall
      exact ⟨fun e he hhost => hall _ (.inl ⟨e, he, hhost, rfl⟩),
        fun e he => hall _ (.inr ⟨e, he, rfl⟩)⟩
    · rintro ⟨hblocks, hframes⟩ b (⟨e, he, hhost, rfl⟩ | ⟨e, he, rfl⟩)
      · exact hblocks e he hhost
      · exact hframes e he
  have hfree : (s.drv.mem.allocFrame size).isSome = true ↔
      ∃ b ∈ s.drv.mem.vram.free.entries, ceilTo pageSize size ≤ b.2 := by
    rw [Mem.allocFrame, Option.isSome_map, Option.isSome_iff_ne_none, ne_eq,
      alloc_eq_none hfits.1, hi.mem.align, hneed]
    push Not
    rfl
  rw [hfree, ← hi.mem.wf.gap_iff hpos, hgap]

theorem roomBeside_of_nil {s : Driver.State} {size : ℕ} (hroom : Roomy s size)
    (hnil : s.mem.resident = []) : RoomBeside s size := by
  obtain ⟨x, hx, happart⟩ := hroom
  exact ⟨x, hx, happart, by simp [hnil]⟩

/-! ### The answer -/

theorem map_succeeds (hi : Driver.Inv s.drv) {addr size : ℕ}
    (hh : s.drv.holder = .mapBlock addr size) :
    ∃ mmu, s.drv.mem.mmu.mapVram addr addr (roundUp pageSize size / pageSize) = .ok mmu := by
  have hmem := hi.mem
  rw [hh] at hmem
  obtain ⟨mmu, hmap, -⟩ := MemOwned.mapVram hmem
  exact ⟨mmu, hmap⟩

theorem answer_iff (hi : Driver.Inv s.drv) (hb : Books cfg s) {size : ℕ}
    (hreq : request s.drv.holder = some size) {r : Except Errno ℕ} (ha : a ≠ .drain false)
    (hr : Driver.reply s.drv a = some r) :
    (∃ addr, r = .ok addr) ↔ (lastAttempt s.drv.holder = true → RoomBeside s.drv size) := by
  cases a with
  | take =>
    simp only [Driver.reply] at hr
    split at hr <;> try cases hr
    rename_i n tries hh
    rw [hh] at hreq
    cases hreq
    split_ifs at hr with hsome
    cases hr
    push Not at hsome
    have hlast : lastAttempt s.drv.holder = true := by
      rw [hh]
      exact decide_eq_true hsome.1
    simp [hlast, ← alloc_iff hi hb hh hsome.1, hsome.2]
  | drain ok =>
    simp only [Driver.reply] at hr
    split at hr <;> try cases hr
    cases ok with
    | false => exact absurd rfl ha
    | true => cases hr
  | mapBlock =>
    simp only [Driver.reply] at hr
    split at hr <;> try cases hr
    rename_i addr n hh
    obtain ⟨mmu, hmap⟩ := map_succeeds hi hh
    rw [hmap]
    exact iff_of_true ⟨addr, rfl⟩ fun hlast => by simp [hh, lastAttempt] at hlast
  | mapManaged host =>
    simp only [Driver.reply] at hr
    split at hr <;> try cases hr
    rename_i n tries hh
    rw [hh] at hreq
    cases hreq
  | _ => cases hr

theorem ahead_lt (h : phase d.holder < phase s.drv.holder) :
    Prod.Lex (· < ·) (· < ·) (ahead (s.enter cfg d)) (ahead s) := by
  apply Prod.Lex.left
  rw [enter_drv]
  exact h

theorem sooner_of_request (hb : Books cfg s) {size : ℕ} (hreq : request s.drv.holder = some size)
    {b : Action} (hown : isOwn b = true) (hs : step cfg s b = some s') :
    Prod.Lex (· < ·) (· < ·) (ahead s') (ahead s) := by
  obtain ⟨rfl, -⟩ | ⟨a, d, rfl, hd, rfl, -⟩ := step_drv hs
  · simp only [step] at hs
    split at hs <;> cases hs
    rename_i next c rest hh hunread
    simp [ahead, hh, hunread, Prod.lex_def]
  cases a with
  | reclaim =>
    obtain ⟨p, todo, kept, next, hh, rfl⟩ | ⟨kept, next, hh, rfl⟩ := Driver.reclaim_step hd
    · have hshort : ∀ e : Driver.State, (∃ k, e.holder = .reclaim todo k next) →
          Prod.Lex (· < ·) (· < ·) (ahead (s.enter cfg e)) (ahead s) := by
        rintro e ⟨k, he⟩
        simp [ahead, enter_drv, he, hh, phase, Prod.lex_def]
      split_ifs <;> exact hshort _ ⟨_, rfl⟩
    · apply ahead_lt
      rw [hh] at hreq ⊢
      cases next with
      | take n tries =>
        simp only [reduceCtorEq, if_false, phase]
        split_ifs <;> omega
      | _ => cases hreq
  | take =>
    obtain ⟨n, tries, hh, hd⟩ := Driver.take_step hd
    apply ahead_lt
    rw [hh]
    simp only [Driver.holderStep, hh] at hd
    split at hd
    · cases hd
      simp only [phase]
      split_ifs <;> omega
    · split at hd <;> cases hd
      · simp [phase, Driver.Next.tries]
      · simp [phase, Driver.Next.tries]
      · simp only [phase]
        split_ifs <;> omega
  | drain ok =>
    obtain ⟨next, hh, rfl⟩ := Driver.drain_step hd
    have hcl := hb.cleared
    rw [hh] at hcl
    apply ahead_lt
    rw [hh]
    cases ok <;> simp [phase, Driver.State.reclaimThen, hcl.1]
  | evictAll envs =>
    obtain hd | hd | hd := Driver.step_cases hd
    · simp only [Driver.holderStep] at hd
      split at hd <;> cases hd
      rename_i n hh
      apply ahead_lt
      simp [hh, phase, Driver.Next.tries]
    · cases hd
    · cases hd
  | mapBlock =>
    obtain ⟨addr, n, hh, ⟨mmu, -, rfl⟩ | rfl⟩ := Driver.mapBlock_step hd
    · exact ahead_lt (by simp [hh, phase])
    · exact ahead_lt (by simp [hh, phase])
  | lock req =>
    obtain ⟨hh, -⟩ := Driver.lock_step hd
    rw [hh] at hreq
    cases hreq
  | undo =>
    obtain hd | hd | hd := Driver.step_cases hd
    · simp only [Driver.holderStep] at hd
      split at hd <;> cases hd
      rename_i hh
      rw [hh] at hreq
      cases hreq
    · cases hd
    · cases hd
  | mapManaged host =>
    obtain hd | hd | hd := Driver.step_cases hd
    · simp only [Driver.holderStep] at hd
      split at hd <;> try cases hd
      rename_i hh
      rw [hh] at hreq
      cases hreq
    · cases hd
    · cases hd
  | addRange =>
    obtain ⟨addr, bytes, host, id, hh, -⟩ := Driver.addRange_step hd
    rw [hh] at hreq
    cases hreq
  | lookup =>
    obtain ⟨addr, hh, -⟩ := Driver.lookup_step hd
    rw [hh] at hreq
    cases hreq
  | snap =>
    obtain ⟨p, c, todo, hh, -⟩ | ⟨p, hh, -⟩ := Driver.snap_step hd
    · rw [hh] at hreq
      cases hreq
    · rw [hh] at hreq
      cases hreq
  | _ => cases hown

theorem goesOn_of_request (hb : Books cfg s) {size : ℕ} (hreq : request s.drv.holder = some size) :
    (∃ b, isOwn b = true ∧ (step cfg s b).isSome = true) ∨ isDrain s.drv.holder = true ∧
      ∃ c ∈ cfg.chans, s.drv.retired c < s.target c ∧ s.target c ≤ s.drv.published c := by
  cases hh : s.drv.holder with
  | reclaim todo kept next =>
    refine .inl ⟨.drv .reclaim, rfl, ?_⟩
    simp only [step, Option.isSome_map]
    exact Driver.reclaim_enabled hh
  | run next =>
    rw [hh] at hreq
    cases next with
    | take n tries =>
      refine .inl ⟨.drv .take, rfl, ?_⟩
      simp only [step, Option.isSome_map, Driver.step, Driver.holderStep, hh]
      cases s.drv.mem.allocFrame n with
      | some r => rfl
      | none =>
        cases tries with
        | zero => rfl
        | succ m => cases m <;> rfl
    | _ => cases hreq
  | drain next =>
    cases hunread : s.unread with
    | cons c rest =>
      refine .inl ⟨.readPut, rfl, ?_⟩
      simp [step, hh, hunread]
    | nil =>
      by_cases hret : Driver.allRetired cfg s.drv s.target = true
      · refine .inl ⟨.drv (.drain true), rfl, ?_⟩
        simp [step, hunread, hret, Driver.step, Driver.holderStep, hh]
      · simp only [Driver.allRetired, List.all_eq_true, decide_eq_true_eq,
          not_forall, not_le] at hret
        obtain ⟨c, hc, hlt⟩ := hret
        exact .inr ⟨rfl, c, hc, hlt, hb.target c⟩
  | evictAll n =>
    refine .inl ⟨.drv (.evictAll fun _ => Driver.Env.calm), rfl, ?_⟩
    simp [step, Driver.step, Driver.holderStep, hh]
  | mapBlock addr n =>
    refine .inl ⟨.drv .mapBlock, rfl, ?_⟩
    simp only [step, Option.isSome_map, Driver.step, Driver.holderStep, hh]
    split <;> rfl
  | _ =>
    rw [hh] at hreq
    cases hreq

/-- In every run in which no size wraps, the evictions of `evict_all_locked` succeed and no fault
is served between them and the last attempt. -/
theorem malloc_fails_only_when_full (cfg : Driver.Config) (s : State) (size : ℕ)
    (h : Reach (step cfg) spared (init cfg) s) (hreq : request s.drv.holder = some size)
    (hroom : Roomy s.drv size) : Served cfg s := by
  have hpub := h.mono fun _ _ => spared_publishes
  have hi := reach_inv hpub
  have hb := reach_books hpub
  refine ⟨fun a r hr => ?_, fun _ _ hown hs => sooner_of_request hb hreq hown hs,
    goesOn_of_request hb hreq⟩
  by_cases ha : a = .drain false
  · subst ha
    simp only [Driver.reply] at hr
    split at hr <;> cases hr
    exact .inr ⟨rfl, rfl⟩
  · exact .inl ((answer_iff hi hb hreq ha hr).mpr fun hlast =>
      roomBeside_of_nil hroom (reach_emptied h hlast))

/-- Three managed pages, two of them brought in by a copy that has retired; then a request for all
of VRAM, which evicts them. -/
def wholeVram : List Action :=
  [.drv (.lock (.allocManaged 12288)), .drv .reclaim,
    .drv (.mapManaged (some 4096)), .drv .addRange,
    .drv (.publish (0, 0)),
    .drv (.raise (0, 0) Driver.vramBytes), .drv .pop, .drv (.demand Driver.Env.calm),
    .drv (.raise (0, 0) (Driver.vramBytes + 4096)), .drv .pop, .drv (.demand Driver.Env.calm),
    .drv (.retire (0, 0)),
    .drv (.lock (.alloc Driver.vramBytes)), .drv .reclaim, .drv .take, .readPut, .drv (.drain true),
    .drv .reclaim, .drv .take, .drv (.evictAll fun _ => Driver.Env.calm)]

theorem roomy_of_managed {d : Driver.State}
    (h : d.allocs.entries = [(Driver.vramBytes, ⟨12288, 4096⟩)]) :
    Roomy d Driver.vramBytes := by
  refine ⟨0, by decide +kernel, ?_⟩
  rw [h]
  simp

theorem malloc_fails_only_when_full_wholeVram :
    ∃ s, exec (when spared (step ⟨1, 1, false, 16⟩)) (init ⟨1, 1, false, 16⟩) wholeVram = some s ∧
      request s.drv.holder = some Driver.vramBytes ∧ Roomy s.drv Driver.vramBytes ∧
      Served ⟨1, 1, false, 16⟩ s := by
  have hrun : (exec (when spared (step ⟨1, 1, false, 16⟩)) (init ⟨1, 1, false, 16⟩) wholeVram).map
      (fun s => (request s.drv.holder, s.drv.allocs.entries)) =
      some (some Driver.vramBytes, [(Driver.vramBytes, ⟨12288, 4096⟩)]) := by decide +kernel
  obtain ⟨s, hs, hq⟩ := Option.map_eq_some_iff.mp hrun
  simp only [Prod.mk.injEq] at hq
  obtain ⟨hreq, hallocs⟩ := hq
  have hroom := roomy_of_managed hallocs
  exact ⟨s, hs, hreq, hroom, malloc_fails_only_when_full ⟨1, 1, false, 16⟩ s Driver.vramBytes
    (.of_exec_when .refl hs) hreq hroom⟩

end SoftGpu.LastResort
