import SoftGpu.Eviction

/-!
# The rollback of a failed eviction

`evict_locked` with the list of resident pages and the counters. Where
`publish_host` fails, the page is made resident again by `make_resident`, which
stores an entry without DIRTY, as for a page that was just copied in. The bits
that `begin_evict` and `end_evict` have collected are gone: the next eviction of
the page takes it for a clean one.

DIRTY is set by the translation, ahead of the write. `ahead` notes the pages for
which the write may not have followed: a command has given them up after it had
them translated for writing, or the walk set the bit in an entry that
`begin_evict` had already exchanged.
-/

namespace SoftGpu.Rollback

open Machine
open Paging (Action DriverPoint Engine Point frameOf)

variable {n k : ℕ}

structure Before where
  page : ℕ
  pte : Pte
  resident : List ℕ
  owner : Option ℕ
  evictions : ℕ
  writebacks : ℕ

/-- An eviction whose publish has failed: what it had found, the late DIRTY bit of `end_evict`, and
whether an engine has set DIRTY since the rollback. -/
structure Failure where
  before : Before
  late : Bool
  marked : Bool

/-- The fields from `before` on are history. `failed` is kept until the holder of `mem_lock` does
something else; `written` and `ahead` are about the time since the page was migrated in. -/
structure State (n k : ℕ) where
  mem : Paging.State n k
  resident : List ℕ
  evictions : ℕ
  writebacks : ℕ
  before : Option Before
  failed : Option Failure
  written : ℕ → Bool
  ahead : ℕ → Bool

def init (n k : ℕ) : State n k where
  mem := Paging.init n k
  resident := []
  evictions := 0
  writebacks := 0
  before := none
  failed := none
  written := fun _ => false
  ahead := fun _ => false

def State.mark (x : State n k) (v : ℕ) : State n k :=
  { x with failed := x.failed.map fun r =>
      if r.before.page = v then { r with marked := true } else r }

def engineBooks (x : State n k) : Point k → State n k
  | .hitOr v _ _ => x.mark v
  | .walkOr v true =>
    if (x.mem.pte v).present && (x.mem.pte v).inVram then x.mark v
    else { x.mark v with ahead := Function.update x.ahead v true }
  | _ => x

def driverBooks (uffd : Bool) (x : State n k) (ok : Bool) : DriverPoint n k → State n k
  | .publish _ old late =>
    if uffd && !ok then { x with failed := x.before.map fun b => ⟨b, late, false⟩ }
    else { x with writebacks := x.writebacks + (old.dirty || late).toNat }
  | .evicted v _ => { x with evictions := x.evictions + 1, resident := x.resident.erase v }
  | .restore _ _ => { x with failed := x.failed.map fun r => { r with marked := false } }
  | .install v _ =>
    { x with
      written := Function.update x.written v false
      ahead := Function.update x.ahead v false }
  | .shoot v .migrated [] => if uffd then x else { x with resident := x.resident ++ [v] }
  | .madvise v => { x with resident := x.resident ++ [v] }
  | _ => x

def translated (x : Engine k) (v : ℕ) : Bool := x.held.any fun t => t.1 = v ∧ t.2.2 = true

def books (uffd : Bool) (x : State n k) : Action n k → State n k
  | .driver ok => driverBooks uffd x ok x.mem.driver
  | .clearAccessed v =>
    { x with
      resident := if (x.mem.pte v).accessed then x.resident.tail ++ [v] else x.resident
      failed := none }
  | .evict v =>
    { x with
      before := some ⟨v, x.mem.pte v, x.resident, x.mem.owner (x.mem.pte v).pfn, x.evictions,
        x.writebacks⟩
      failed := none }
  | .migrate .. => { x with failed := none }
  | .engine e _ => engineBooks x (x.mem.engines e).point
  | .write _ v _ _ _ => { x with written := Function.update x.written v true }
  | .leave e =>
    { x with ahead := fun v => x.ahead v || (translated (x.mem.engines e) v && !x.written v) }
  | .submit _ | .enter .. | .translate .. | .read .. | .hostStore .. | .hostLoad .. => x

def handAt (x : State n k) : Action n k → Bool
  | .clearAccessed v => x.resident.head? = some v
  | _ => true

def step (uffd : Bool) (x : State n k) (a : Action n k) : Option (State n k) :=
  if handAt x a then
    (Paging.step uffd x.mem a).map fun m => { books uffd x a with mem := m }
  else none

def failsDirty (uffd ok : Bool) : DriverPoint n k → Bool
  | .publish _ old late => uffd && !ok && (old.dirty || late)
  | _ => false

def cleanFailure (uffd : Bool) (x : State n k) : Action n k → Prop
  | .driver ok => failsDirty uffd ok x.mem.driver = false
  | _ => True

instance (uffd : Bool) (x : State n k) (a : Action n k) : Decidable (cleanFailure uffd x a) :=
  match a with
  | .driver ok => inferInstanceAs (Decidable (failsDirty uffd ok x.mem.driver = false))
  | .submit _ | .enter .. | .translate .. | .engine .. | .read .. | .write .. | .leave _
  | .clearAccessed _ | .evict _ | .migrate .. | .hostStore .. | .hostLoad .. => .isTrue trivial

structure Unchanged (x : State n k) (b : Before) : Prop where
  resident : x.resident = b.resident
  owner : x.mem.owner b.pte.pfn = b.owner
  evictions : x.evictions = b.evictions
  writebacks : x.writebacks = b.writebacks

/-- The page, the list, the frame and the counters are as the eviction found them; DIRTY is set if
it was, if it came late, or if an engine has set it since. -/
structure RolledBack (x : State n k) (r : Failure) : Prop extends Unchanged x r.before where
  found : r.before.pte.inVram = true
  present : (x.mem.pte r.before.page).present = r.before.pte.present
  inVram : (x.mem.pte r.before.page).inVram = r.before.pte.inVram
  pfn : (x.mem.pte r.before.page).pfn = r.before.pte.pfn
  dirty : (x.mem.pte r.before.page).dirty = (r.before.pte.dirty || r.late || r.marked)

/-! ### One access of an engine -/

def marks : Point k → ℕ → Bool
  | .hitOr u _ _, v => u = v
  | .walkOr u w, v => w && u = v
  | _, _ => false

def comes : Point k → ℕ → Bool
  | .hitStore u _ _, v => u = v
  | .sample u w _, v | .clear u w _ _, v | .fill u w _ _ _, v | .check u w _ _ _, v
  | .regen u w _ _ _, v | .tag u w _ _ _, v | .confirm u w _ _ _, v | .drop u w _ _, v => w && u = v
  | _, _ => false

def writing (x : Engine k) (v : ℕ) : Bool := comes x.point v || translated x v

section Access
variable {x y : Engine k} {pte pte' : ℕ → Pte} {gen : ℕ} {c : Option (Fin k)}

theorem step_table (hs : x.step pte gen c = some (y, pte')) :
    (pte' = pte ∧ ∀ v, marks x.point v = false) ∨
    (∃ u i p, x.point = .hitOr u i p ∧ y = x.goto (.hitStore u i p) ∧
      pte' = Function.update pte u (Paging.orPte (pte u) true false)) ∨
    ∃ u w, x.point = .walkOr u w ∧
      (((pte u).inVram = true ∧ y = x.goto (.sample u w (Paging.orPte (pte u) w true))) ∨
        (pte u).present = false ∨ (pte u).inVram = false) ∧
      pte' = Function.update pte u (Paging.orPte (pte u) w true) := by
  cases hx : x.point with
  | hitOr u i p =>
    simp only [Engine.step, hx, Option.some.injEq, Prod.mk.injEq] at hs
    exact .inr (.inl ⟨u, i, p, rfl, hs.1.symm, hs.2.symm⟩)
  | walkOr u w =>
    simp only [Engine.step, hx] at hs
    split at hs
    · next hmiss =>
      simp only [Option.some.injEq, Prod.mk.injEq] at hs
      exact .inr (.inr ⟨u, w, rfl, .inr hmiss, hs.2.symm⟩)
    · next hin =>
      simp only [Option.some.injEq, Prod.mk.injEq] at hs
      refine .inr (.inr ⟨u, w, rfl, .inl ⟨?_, hs.1.symm⟩, hs.2.symm⟩)
      by_contra hout
      exact hin (.inr (Bool.eq_false_of_not_eq_true hout))
  | _ =>
    simp only [Engine.step, hx] at hs
    exact .inl ⟨by grind, fun _ => rfl⟩

theorem step_present (hs : x.step pte gen c = some (y, pte')) (v : ℕ) :
    (pte' v).present = (pte v).present := by
  obtain ⟨rfl, -⟩ | ⟨u, i, p, -, -, rfl⟩ | ⟨u, w, -, -, rfl⟩ := step_table hs
  · rfl
  · by_cases hv : v = u
    · simp [hv, Paging.orPte]
    · simp [hv]
  · by_cases hv : v = u
    · simp [hv, Paging.orPte]
    · simp [hv]

theorem step_dirty (hs : x.step pte gen c = some (y, pte')) (v : ℕ) :
    (pte' v).dirty = ((pte v).dirty || marks x.point v) := by
  obtain ⟨rfl, hno⟩ | ⟨u, i, p, hx, -, rfl⟩ | ⟨u, w, hx, -, rfl⟩ := step_table hs
  · simp [hno]
  · by_cases hv : v = u
    · simp [hx, hv, marks, Paging.orPte]
    · simp [hx, hv, marks, Ne.symm hv]
  · by_cases hv : v = u
    · simp [hx, hv, marks, Paging.orPte]
    · simp [hx, hv, marks, Ne.symm hv]

theorem step_writing (hs : x.step pte gen c = some (y, pte')) {v : ℕ} (h : writing x v = true) :
    writing y v = true := by
  rw [writing, Bool.or_eq_true] at h
  have hkeep : (∀ u, comes x.point u = true → comes y.point u = true) → y.held = x.held →
      writing y v = true := by
    intro hp hheld
    rw [writing, Bool.or_eq_true, translated, hheld]
    exact h.imp_left (hp v)
  have hgot : ∀ u f w, (∀ u', comes x.point u' = true → w = true ∧ u = u') →
      y.held = x.held ++ [(u, f, w)] → writing y v = true := by
    intro u f w hp hheld
    rw [writing, Bool.or_eq_true]
    refine .inr ?_
    rw [translated, hheld, List.any_append, Bool.or_eq_true]
    obtain h | h := h
    · obtain ⟨rfl, rfl⟩ := hp v h
      exact .inr (by simp)
    · exact .inl h
  cases hx : x.point with
  | idle | command => simp [Engine.step, hx] at hs
  | probe u w i =>
    simp only [Engine.step, hx] at hs
    split_ifs at hs <;> simp only [Option.some.injEq, Prod.mk.injEq] at hs <;>
      obtain ⟨rfl, -⟩ := hs <;> exact hkeep (by simp [hx, comes, Engine.goto]) rfl
  | tagged u w i =>
    simp only [Engine.step, hx, Option.some.injEq, Prod.mk.injEq] at hs
    obtain ⟨rfl, -⟩ := hs
    exact hkeep (by simp [hx, comes, Engine.goto]) rfl
  | recheck u w i p =>
    simp only [Engine.step, hx] at hs
    split_ifs at hs <;> simp only [Option.some.injEq, Prod.mk.injEq] at hs <;>
      obtain ⟨rfl, -⟩ := hs
    · exact hkeep (by simp [hx, comes, Engine.goto]) rfl
    · exact hkeep (by simp [hx, comes, Engine.goto]) rfl
    · exact hgot u p.pfn w (by simp [hx, comes]) rfl
  | hitOr u i p =>
    simp only [Engine.step, hx, Option.some.injEq, Prod.mk.injEq] at hs
    obtain ⟨rfl, -⟩ := hs
    exact hkeep (by simp [hx, comes, Engine.goto]) rfl
  | hitStore u i p =>
    simp only [Engine.step, hx, Option.some.injEq, Prod.mk.injEq] at hs
    obtain ⟨rfl, -⟩ := hs
    exact hgot u p.pfn true (by simp [hx, comes]) rfl
  | walk u w | walkOr u w =>
    simp only [Engine.step, hx] at hs
    split_ifs at hs <;> simp only [Option.some.injEq, Prod.mk.injEq] at hs <;>
      obtain ⟨rfl, -⟩ := hs <;> exact hkeep (by simp [hx, comes, Engine.goto]) rfl
  | sample u w p | fill u w p g i | tag u w p g i =>
    simp only [Engine.step, hx, Option.some.injEq, Prod.mk.injEq] at hs
    obtain ⟨rfl, -⟩ := hs
    exact hkeep (by simp [hx, comes, Engine.goto]) rfl
  | clear u w p g =>
    simp only [Engine.step, hx] at hs
    cases c with
    | none => simp at hs
    | some i =>
      simp only [Option.some.injEq, Prod.mk.injEq] at hs
      obtain ⟨rfl, -⟩ := hs
      exact hkeep (by simp [hx, comes, Engine.goto]) rfl
  | check u w p g i | regen u w p g i =>
    simp only [Engine.step, hx] at hs
    split_ifs at hs <;> simp only [Option.some.injEq, Prod.mk.injEq] at hs <;>
      obtain ⟨rfl, -⟩ := hs
    · exact hkeep (by simp [hx, comes, Engine.goto]) rfl
    · exact hgot u p.pfn w (by simp [hx, comes]) rfl
  | confirm u w p g i =>
    simp only [Engine.step, hx] at hs
    split_ifs at hs <;> simp only [Option.some.injEq, Prod.mk.injEq] at hs <;>
      obtain ⟨rfl, -⟩ := hs
    · exact hgot u p.pfn w (by simp [hx, comes]) rfl
    · exact hkeep (by simp [hx, comes, Engine.goto]) rfl
  | drop u w p i =>
    simp only [Engine.step, hx, Option.some.injEq, Prod.mk.injEq] at hs
    obtain ⟨rfl, -⟩ := hs
    exact hgot u p.pfn w (by simp [hx, comes]) rfl

/-- An access that sets DIRTY of a page is one of a translation for writing, or finds that the page
has left VRAM. -/
theorem step_marks (hs : x.step pte gen c = some (y, pte')) {v : ℕ} (h : marks x.point v = true) :
    writing y v = true ∨ x.point = .walkOr v true ∧
      ((pte v).present = false ∨ (pte v).inVram = false) := by
  obtain ⟨-, hno⟩ | ⟨u, i, p, hx, rfl, -⟩ | ⟨u, w, hx, hy, -⟩ := step_table hs
  · rw [hno] at h
    cases h
  · have hu : u = v := by simpa [hx, marks] using h
    exact .inl (by simp [writing, comes, Engine.goto, hu])
  · obtain ⟨rfl, rfl⟩ : w = true ∧ u = v := by simpa [hx, marks] using h
    obtain ⟨-, rfl⟩ | hmiss := hy
    · exact .inl (by simp [writing, comes, Engine.goto])
    · exact .inr ⟨hx, hmiss⟩

end Access

/-! ### What holds along a run -/

def evictOf : DriverPoint n k → Option (ℕ × Pte)
  | .bump v (.evict old) | .shoot v (.evict old) _ | .clear v (.evict old) _ _
  | .quiesce v old _ | .wait v old _ _ _ | .collect v old | .publish v old _ => some (v, old)
  | _ => none

def collecting : DriverPoint n k → Option (ℕ × Bool × Bool)
  | .bump v (.evict old) | .shoot v (.evict old) _ | .clear v (.evict old) _ _
  | .quiesce v old _ | .wait v old _ _ _ | .collect v old => some (v, old.dirty, true)
  | .publish v old late => some (v, old.dirty || late, false)
  | _ => none

def returned : DriverPoint n k → Bool
  | .bump _ .restored | .shoot _ .restored _ | .clear _ .restored _ _ | .idle => true
  | _ => false

def Dirty (s : Paging.State n k) (v : ℕ) : Prop :=
  (s.pte v).inVram = true ∧ (s.pte v).dirty = true ∨
    ∃ m o, collecting s.driver = some (v, m, o) ∧ (m = true ∨ o = true ∧ (s.pte v).dirty = true)

structure Found (x : State n k) (v : ℕ) (old : Pte) (b : Before) : Prop extends Unchanged x b where
  before : x.before = some b
  page : b.page = v
  pte : b.pte = old
  present : old.present = true
  inVram : old.inVram = true

structure Failed (x : State n k) (r : Failure) : Prop extends Unchanged x r.before where
  driver : x.mem.driver = .restore r.before.page r.before.pte.pfn
  present : r.before.pte.present = true
  inVram : r.before.pte.inVram = true
  clean : (r.before.pte.dirty || r.late) = false

structure Inv (x : State n k) : Prop where
  mem : Paging.Inv x.mem
  listed : ∀ v f, frameOf x.mem.pte x.mem.driver v = some f →
    v ∈ x.resident ∨ x.mem.driver.settling v
  found : ∀ v old, evictOf x.mem.driver = some (v, old) → ∃ b, Found x v old b
  failed : ∀ r ∈ x.failed, Failed x r ∨ returned x.mem.driver = true ∧ RolledBack x r
  written : x.written = x.mem.wrote
  restore : ∀ v f, x.mem.driver = .restore v f → x.mem.wrote v = false
  ahead : ∀ v, Dirty x.mem v →
    x.mem.wrote v = true ∨ x.ahead v = true ∨ ∃ e, writing (x.mem.engines e) v = true

theorem inv_init (n k : ℕ) : Inv (init n k) where
  mem := Paging.inv_init n k
  listed := by simp [init, Paging.init, frameOf, Pte.hostResident, DriverPoint.evicting]
  found := by simp [init, Paging.init, evictOf]
  failed := by simp [init]
  written := rfl
  restore := by simp [init, Paging.init]
  ahead := by simp [init, Paging.init, Dirty, collecting, Pte.hostResident]

section Run
variable {uffd : Bool} {x y : State n k} {m : Paging.State n k} {a : Action n k}

theorem Unchanged.congr {b : Before} (h : Unchanged x b) (hres : y.resident = x.resident)
    (howner : y.mem.owner = x.mem.owner) (hev : y.evictions = x.evictions)
    (hwb : y.writebacks = x.writebacks) : Unchanged y b where
  resident := hres.trans h.resident
  owner := (congrFun howner _).trans h.owner
  evictions := hev.trans h.evictions
  writebacks := hwb.trans h.writebacks

theorem Inv.moved (h : Inv x) (hm : Paging.Inv m)
    (hframe : frameOf m.pte m.driver = frameOf x.mem.pte x.mem.driver)
    (hsettling : ∀ v, x.mem.driver.settling v → m.driver.settling v)
    (hevict : ∀ p, evictOf m.driver = some p → evictOf x.mem.driver = some p)
    (howner : m.owner = x.mem.owner)
    (hfailed : ∀ r ∈ x.failed, Failed x r ∨ returned x.mem.driver = true ∧ RolledBack x r →
      Failed { x with mem := m } r ∨ returned m.driver = true ∧ RolledBack { x with mem := m } r)
    (hwrote : m.wrote = x.mem.wrote)
    (hrestore : ∀ v f, m.driver = .restore v f → x.mem.driver = .restore v f)
    (hdirty : ∀ v, Dirty m v → Dirty x.mem v)
    (hwriting : ∀ e v, writing (x.mem.engines e) v = true → writing (m.engines e) v = true) :
    Inv { x with mem := m } where
  mem := hm
  listed := by
    intro v f hf
    rw [hframe] at hf
    exact (h.listed v f hf).imp_right (hsettling v)
  found := by
    intro v old hv
    obtain ⟨b, hb⟩ := h.found v old (hevict _ hv)
    exact ⟨b, hb.toUnchanged.congr rfl howner rfl rfl, hb.before, hb.page, hb.pte, hb.present,
      hb.inVram⟩
  failed := fun r hr => hfailed r hr (h.failed r hr)
  written := h.written.trans hwrote.symm
  restore := by
    intro v f hd
    rw [hwrote]
    exact h.restore v f (hrestore v f hd)
  ahead := by
    intro v hv
    rw [hwrote]
    obtain hw | ha | ⟨e, he⟩ := h.ahead v (hdirty v hv)
    · exact .inl hw
    · exact .inr (.inl ha)
    · exact .inr (.inr ⟨e, hwriting e v he⟩)

theorem Failed.congr {r : Failure} (h : Failed x r) (hsame : Unchanged y r.before)
    (hdriver : y.mem.driver = x.mem.driver) : Failed y r :=
  ⟨hsame, hdriver.trans h.driver, h.present, h.inVram, h.clean⟩

theorem RolledBack.congr {r : Failure} (h : RolledBack x r) (hsame : Unchanged y r.before)
    (hpte : y.mem.pte r.before.page = x.mem.pte r.before.page) : RolledBack y r :=
  ⟨hsame, h.found, hpte ▸ h.present, hpte ▸ h.inVram, hpte ▸ h.pfn, hpte ▸ h.dirty⟩

theorem Inv.still (h : Inv x) (hm : Paging.Inv m) (hpte : m.pte = x.mem.pte)
    (hdriver : m.driver = x.mem.driver) (howner : m.owner = x.mem.owner)
    (hwrote : m.wrote = x.mem.wrote)
    (hwriting : ∀ e v, writing (x.mem.engines e) v = true → writing (m.engines e) v = true) :
    Inv { x with mem := m } := by
  refine h.moved hm (by rw [hpte, hdriver]) (by simp [hdriver]) (by simp [hdriver]) howner
    (fun r _ hr => ?_) hwrote (by simp [hdriver]) (fun v hv => ?_) hwriting
  · have hsame : ∀ b, Unchanged x b → Unchanged { x with mem := m } b := fun b hb =>
      hb.congr rfl howner rfl rfl
    obtain hr | ⟨hret, hr⟩ := hr
    · exact .inl (hr.congr (hsame _ hr.toUnchanged) hdriver)
    · exact .inr ⟨hdriver ▸ hret, hr.congr (hsame _ hr.toUnchanged) (congrFun hpte _)⟩
  · simpa only [Dirty, hpte, hdriver] using hv

/-! ### Engines and host -/

theorem Inv.setEngine (h : Inv x) {e : Fin n} {g : Engine k}
    (hm : Paging.Inv (x.mem.setEngine e g))
    (hwriting : ∀ v, writing (x.mem.engines e) v = true → writing g v = true) :
    Inv { x with mem := x.mem.setEngine e g } := by
  refine h.still hm rfl rfl rfl rfl fun j v hj => ?_
  by_cases hje : j = e
  · subst hje
    simpa [Paging.State.setEngine] using hwriting v hj
  · simpa [Paging.State.setEngine, hje] using hj

theorem Inv.alive (h : Inv x) {e : Fin n} {v : ℕ} (hw : writing (x.mem.engines e) v = true) :
    (x.mem.pte v).inVram = true ∨ x.mem.driver.mayHold e (x.mem.engines e).seq v := by
  have he := h.mem.engine e
  rw [writing, Bool.or_eq_true] at hw
  obtain hw | hw := hw
  · have hpend : ∃ t ∈ (x.mem.engines e).pending, t.1 = v := by
      unfold comes at hw
      split at hw <;> next hp => simp_all [Engine.pending]
    obtain ⟨t, ht, rfl⟩ := hpend
    exact (he.pending t ht).alive
  · simp only [translated, List.any_eq_true, decide_eq_true_eq] at hw
    obtain ⟨t, ht, rfl, -⟩ := hw
    exact (he.held t ht).alive

theorem mem_mark {v : ℕ} {r : Failure} (h : r ∈ (x.mark v).failed) : ∃ r₀ ∈ x.failed,
    r = { r₀ with marked := r₀.marked || v = r₀.before.page } := by
  obtain ⟨r₀, hr₀, rfl⟩ := Option.map_eq_some_iff.mp h
  refine ⟨r₀, hr₀, ?_⟩
  by_cases hv : r₀.before.page = v
  · simp [hv]
  · simp [hv, Ne.symm hv]

structure Noted (x y : State n k) (p : Point k) : Prop where
  resident : y.resident = x.resident
  evictions : y.evictions = x.evictions
  writebacks : y.writebacks = x.writebacks
  before : y.before = x.before
  written : y.written = x.written
  failed : ∀ r ∈ y.failed, ∃ r₀ ∈ x.failed,
    r = { r₀ with marked := r₀.marked || marks p r₀.before.page }
  ahead : ∀ v, x.ahead v = true → y.ahead v = true
  missed : ∀ v, p = .walkOr v true → (x.mem.pte v).present = false ∨ (x.mem.pte v).inVram = false →
    y.ahead v = true

theorem engineBooks_noted (x : State n k) (p : Point k) : Noted x (engineBooks x p) p := by
  have hquiet : (∀ v, marks p v = false) → Noted x x p := by
    intro hno
    refine ⟨rfl, rfl, rfl, rfl, rfl, fun r hr => ⟨r, hr, by simp [hno]⟩, fun _ => id, ?_⟩
    intro v hp
    have hv := hno v
    simp [hp, marks] at hv
  cases p with
  | hitOr u i q =>
    exact ⟨rfl, rfl, rfl, rfl, rfl, fun r hr => mem_mark hr, fun _ => id, fun v hp => by cases hp⟩
  | walkOr u w =>
    cases w with
    | false => exact hquiet fun _ => rfl
    | true =>
      have hmark : ∀ r ∈ (x.mark u).failed, ∃ r₀ ∈ x.failed, r = { r₀ with
          marked := r₀.marked || marks (.walkOr u true : Point k) r₀.before.page } := by
        intro r hr
        simpa [marks] using mem_mark hr
      simp only [engineBooks]
      split
      · next hin =>
        refine ⟨rfl, rfl, rfl, rfl, rfl, hmark, fun _ => id, fun v hp hmiss => ?_⟩
        obtain rfl : u = v := by simpa using hp
        simp only [Bool.and_eq_true] at hin
        simp [hin.1, hin.2] at hmiss
      · refine ⟨rfl, rfl, rfl, rfl, rfl, hmark, fun v hv => ?_, fun v hp _ => ?_⟩
        · by_cases hvu : v = u
          · simp [hvu]
          · simpa [hvu] using hv
        · obtain rfl : u = v := by simpa using hp
          simp
  | _ => exact hquiet fun _ => rfl

theorem Inv.access (h : Inv x) {e : Fin n} {i : Option (Fin k)}
    (hs : Paging.engineStep x.mem (.engine e i) = some m) :
    Inv { engineBooks x (x.mem.engines e).point with mem := m } := by
  have hm := Paging.engineStep_inv h.mem hs
  have hnote := engineBooks_noted x (x.mem.engines e).point
  generalize engineBooks x (x.mem.engines e).point = z at hnote
  simp only [Paging.engineStep] at hs
  split at hs
  · cases hs
  next g pte' hstep =>
  obtain rfl := Option.some.inj hs
  obtain ⟨hgrow, -⟩ := Paging.Engine.step_ok h.mem.out (h.mem.engine e) hstep
  have hsame : ∀ b, Unchanged x b →
      Unchanged { z with mem := { x.mem.setEngine e g with pte := pte' } } b := fun b hb =>
    hb.congr hnote.resident rfl hnote.evictions hnote.writebacks
  have hwriting : ∀ j v, writing (x.mem.engines j) v = true →
      writing (Function.update x.mem.engines e g j) v = true := by
    intro j v hj
    by_cases hje : j = e
    · subst hje
      rw [Function.update_self]
      exact step_writing hstep hj
    · rwa [Function.update_of_ne hje]
  refine ⟨hm, ?_, ?_, ?_, ?_, h.restore, ?_⟩
  · intro v f hf
    simp only [Paging.State.setEngine, hgrow.frameOf] at hf
    simp only [hnote.resident]
    exact h.listed v f hf
  · intro v old hv
    obtain ⟨b, hb⟩ := h.found v old hv
    exact ⟨b, hsame b hb.toUnchanged, hnote.before.trans hb.before, hb.page, hb.pte, hb.present,
      hb.inVram⟩
  · intro r hr
    obtain ⟨r₀, hr₀, rfl⟩ := hnote.failed r hr
    obtain hf | ⟨hret, hb⟩ := h.failed r₀ hr₀
    · exact .inl ⟨hsame _ hf.toUnchanged, hf.driver, hf.present, hf.inVram, hf.clean⟩
    · refine .inr ⟨hret, hsame _ hb.toUnchanged, hb.found, ?_, ?_, ?_, ?_⟩
      · exact (step_present hstep _).trans hb.present
      · exact (hgrow.inVram _).trans hb.inVram
      · exact (hgrow.pfn _).trans hb.pfn
      · have hd := step_dirty hstep r₀.before.page
        rw [hb.dirty] at hd
        simpa [Paging.State.setEngine, Bool.or_assoc] using hd
  · exact hnote.written.trans h.written
  · intro v hv
    have hold : Dirty x.mem v ∨ marks (x.mem.engines e).point v = true := by
      simp only [Dirty, Paging.State.setEngine, hgrow.inVram, step_dirty hstep,
        Bool.or_eq_true] at hv
      obtain ⟨hin, hd | hd⟩ | ⟨b, o, hc, hd | ⟨ho, hd | hd⟩⟩ := hv
      · exact .inl (.inl ⟨hin, hd⟩)
      · exact .inr hd
      · exact .inl (.inr ⟨b, o, hc, .inl hd⟩)
      · exact .inl (.inr ⟨b, o, hc, .inr ⟨ho, hd⟩⟩)
      · exact .inr hd
    obtain hold | hmark := hold
    · obtain hw | ha | ⟨j, hj⟩ := h.ahead v hold
      · exact .inl hw
      · exact .inr (.inl (hnote.ahead v ha))
      · exact .inr (.inr ⟨j, hwriting j v hj⟩)
    · obtain hw | ⟨hp, hmiss⟩ := step_marks hstep hmark
      · exact .inr (.inr ⟨e, by simpa [Paging.State.setEngine] using hw⟩)
      · exact .inr (.inl (hnote.missed v hp hmiss))

theorem Inv.leave (h : Inv x) {e : Fin n} (hs : Paging.engineStep x.mem (.leave e) = some m) :
    Inv { books uffd x (.leave e) with mem := m } := by
  have hm := Paging.engineStep_inv h.mem hs
  simp only [Paging.engineStep, Option.ite_none_right_eq_some, Option.some.injEq] at hs
  obtain ⟨hcmd, rfl⟩ := hs
  have hsame : ∀ b, Unchanged x b → Unchanged { books uffd x (.leave e) with
      mem := x.mem.setEngine e { x.mem.engines e with
        seq := (x.mem.engines e).seq + 1, point := .idle, held := [] } } b := fun b hb =>
    hb.congr rfl rfl rfl rfl
  refine ⟨hm, h.listed, ?_, ?_, h.written, h.restore, fun v hv => ?_⟩
  · intro v old hv
    obtain ⟨b, hb⟩ := h.found v old hv
    exact ⟨b, hsame b hb.toUnchanged, hb.before, hb.page, hb.pte, hb.present, hb.inVram⟩
  · intro r hr
    obtain hf | ⟨hret, hb⟩ := h.failed r hr
    · exact .inl (hf.congr (hsame _ hf.toUnchanged) rfl)
    · exact .inr ⟨hret, hb.congr (hsame _ hb.toUnchanged) rfl⟩
  · simp only [books, Bool.or_eq_true, Bool.and_eq_true, Bool.not_eq_true', h.written]
    obtain hw | ha | ⟨j, hj⟩ := h.ahead v hv
    · exact .inl hw
    · exact .inr (.inl (.inl ha))
    · by_cases hje : j = e
      · subst hje
        have ht : translated (x.mem.engines j) v = true := by
          simpa [writing, hcmd, comes] using hj
        cases hw : x.mem.wrote v with
        | true => exact .inl hw
        | false => exact .inr (.inl (.inr ⟨ht, rfl⟩))
      · exact .inr (.inr ⟨j, by simpa [Paging.State.setEngine, hje] using hj⟩)

theorem Inv.not_writing (h : Inv x) {v f : ℕ} (hd : x.mem.driver = .restore v f) (e : Fin n) :
    writing (x.mem.engines e) v = false := by
  by_contra hw
  have hout := h.mem.out v f true (by rw [hd]; rfl)
  obtain hin | hhold := h.alive (Bool.eq_true_of_not_eq_false hw)
  · rw [hout] at hin
    cases hin
  · rw [hd] at hhold
    exact hhold

theorem Inv.write (h : Inv x) {e : Fin n} {v f : ℕ} {off : Fin pageSize} {byte : UInt8}
    (hs : Paging.engineStep x.mem (.write e v f off byte) = some m) :
    Inv { books uffd x (.write e v f off byte) with mem := m } := by
  have hm := Paging.engineStep_inv h.mem hs
  simp only [Paging.engineStep, Option.ite_none_right_eq_some, Option.some.injEq] at hs
  obtain ⟨⟨-, hheld⟩, rfl⟩ := hs
  have hw : writing (x.mem.engines e) v = true := by
    rw [writing, Bool.or_eq_true]
    refine .inr ?_
    simp only [translated, List.any_eq_true, decide_eq_true_eq]
    exact ⟨_, hheld, rfl, rfl⟩
  have hsame : ∀ b, Unchanged x b → Unchanged { books uffd x (.write e v f off byte) with
      mem := { x.mem with
        frames := Function.update x.mem.frames f
          (Function.update (x.mem.frames f) off ⟨byte, 0⟩)
        wrote := Function.update x.mem.wrote v true
        deviceWrote := Function.update x.mem.deviceWrote v
          (Function.update (x.mem.deviceWrote v) off true) } } b := fun b hb =>
    hb.congr rfl rfl rfl rfl
  refine ⟨hm, h.listed, ?_, ?_, ?_, ?_, fun u hu => ?_⟩
  · intro u old hu
    obtain ⟨b, hb⟩ := h.found u old hu
    exact ⟨b, hsame b hb.toUnchanged, hb.before, hb.page, hb.pte, hb.present, hb.inVram⟩
  · intro r hr
    obtain hf | ⟨hret, hb⟩ := h.failed r hr
    · exact .inl (hf.congr (hsame _ hf.toUnchanged) rfl)
    · exact .inr ⟨hret, hb.congr (hsame _ hb.toUnchanged) rfl⟩
  · simp only [books, h.written]
  · intro u g hd
    have huv : u ≠ v := by
      intro huv
      have hno := h.not_writing hd e
      rw [huv, hw] at hno
      cases hno
    simpa [huv] using h.restore u g hd
  · obtain hu | hu := h.ahead u hu
    · left
      by_cases huv : u = v
      · simp [huv]
      · simpa [huv] using hu
    · exact .inr hu

theorem Inv.engineSide (h : Inv x) (hs : Paging.engineStep x.mem a = some m) :
    Inv { books uffd x a with mem := m } := by
  have hm := Paging.engineStep_inv h.mem hs
  cases a with
  | engine e i => exact h.access hs
  | write e v f off byte => exact h.write hs
  | leave e => exact h.leave hs
  | submit c =>
    simp only [Paging.engineStep] at hs
    split at hs <;> simp only [Option.some.injEq, reduceCtorEq] at hs
    subst hs
    exact h.still hm rfl rfl rfl rfl fun _ _ => id
  | enter e c =>
    simp only [Paging.engineStep, Option.ite_none_right_eq_some, Option.some.injEq] at hs
    obtain ⟨⟨hidle, -⟩, rfl⟩ := hs
    refine h.setEngine hm fun v hv => ?_
    simpa [writing, hidle, comes, translated] using hv
  | translate e u w =>
    simp only [Paging.engineStep, Option.ite_none_right_eq_some, Option.some.injEq] at hs
    obtain ⟨hcmd, rfl⟩ := hs
    refine h.setEngine hm fun v hv => ?_
    simpa [writing, hcmd, comes, translated, Engine.goto] using hv
  | read e v f off =>
    simp only [Paging.engineStep] at hs
    split at hs
    · split at hs
      · cases hs
      · obtain rfl := Option.some.inj hs
        exact h.still hm rfl rfl rfl rfl fun _ _ => id
    · cases hs
  | _ => simp [Paging.engineStep] at hs

theorem Inv.hostSide (h : Inv x) (hs : Paging.hostStep x.mem a = some m) :
    Inv { books uffd x a with mem := m } := by
  have hm := Paging.hostStep_inv h.mem hs
  cases a with
  | hostStore v off byte =>
    simp only [Paging.hostStep] at hs
    split at hs <;> simp only [Option.some.injEq, reduceCtorEq] at hs
    subst hs
    exact h.still hm rfl rfl rfl rfl fun _ _ => id
  | hostLoad v off =>
    simp only [Paging.hostStep] at hs
    split at hs <;> simp only [Option.some.injEq, reduceCtorEq] at hs
    subst hs
    exact h.still hm rfl rfl rfl rfl fun _ _ => id
  | _ => simp [Paging.hostStep] at hs

/-! ### The holder of `mem_lock` -/

theorem Inv.onward (h : Inv x) (hm : Paging.Inv m) (hpte : m.pte = x.mem.pte)
    (howner : m.owner = x.mem.owner) (hwrote : m.wrote = x.mem.wrote)
    (hwriting : ∀ e v, writing (x.mem.engines e) v = true → writing (m.engines e) v = true)
    (hframe : frameOf m.pte m.driver = frameOf x.mem.pte x.mem.driver)
    (hsettling : ∀ v, x.mem.driver.settling v → m.driver.settling v)
    (hevict : ∀ p, evictOf m.driver = some p → evictOf x.mem.driver = some p)
    (hcollect : ∀ p, collecting m.driver = some p → collecting x.mem.driver = some p)
    (hret : returned x.mem.driver = true → returned m.driver = true)
    (hno : ∀ v f, x.mem.driver ≠ .restore v f) (hno' : ∀ v f, m.driver ≠ .restore v f) :
    Inv { x with mem := m } := by
  refine h.moved hm hframe hsettling hevict howner (fun r _ hr => ?_) hwrote
    (fun v f hd => absurd hd (hno' v f)) (fun v hv => ?_) hwriting
  · obtain hr | ⟨hr, hb⟩ := hr
    · exact absurd hr.driver (hno _ _)
    · exact .inr ⟨hret hr, hb.congr (hb.toUnchanged.congr rfl howner rfl rfl) (congrFun hpte _)⟩
  · simp only [Dirty, hpte] at hv
    obtain hv | ⟨b, o, hc, hd⟩ := hv
    · exact .inl hv
    · exact .inr ⟨b, o, hcollect _ hc, hd⟩

theorem Inv.not_failed (h : Inv x) (hno : ∀ v f, x.mem.driver ≠ .restore v f)
    (hret : returned x.mem.driver = false) : x.failed = none := by
  cases hf : x.failed with
  | none => rfl
  | some r =>
    obtain hr | ⟨hr, -⟩ := h.failed r hf
    · exact absurd hr.driver (hno _ _)
    · rw [hret] at hr
      cases hr

theorem Inv.clearAccessed (h : Inv x) {v : ℕ} (hat : handAt x (.clearAccessed v) = true)
    (hs : Paging.driverStep uffd x.mem (.clearAccessed v) = some m) :
    Inv { books uffd x (.clearAccessed v) with mem := m } := by
  have hm := Paging.driverStep_inv h.mem hs
  simp only [Paging.driverStep] at hs
  split at hs <;> simp only [Option.some.injEq, reduceCtorEq] at hs
  next hd =>
  subst hs
  have hsame : ∀ u, (Function.update x.mem.pte v { x.mem.pte v with accessed := false } u).inVram =
      (x.mem.pte u).inVram ∧
      (Function.update x.mem.pte v { x.mem.pte v with accessed := false } u).dirty =
        (x.mem.pte u).dirty ∧
      (Function.update x.mem.pte v { x.mem.pte v with accessed := false } u).pfn =
        (x.mem.pte u).pfn := by
    intro u
    by_cases hu : u = v
    · subst hu
      simp
    · simp [hu]
  have hmem : ∀ u ∈ x.resident, u ∈ (books uffd x (.clearAccessed v)).resident := by
    intro u hu
    simp only [books]
    split
    · obtain ⟨rest, hrest⟩ : ∃ rest, x.resident = v :: rest := by
        simpa [handAt, List.head?_eq_some_iff] using hat
      rw [hrest] at hu ⊢
      simpa [or_comm] using hu
    · exact hu
  refine ⟨hm, ?_, ?_, fun r hr => (by cases hr), h.written, ?_, ?_⟩
  · intro u f hf
    refine .inl (hmem u ?_)
    have hf' : frameOf x.mem.pte x.mem.driver u = some f := by
      simpa only [frameOf, Paging.State.setPte, hsame] using hf
    exact (h.listed u f hf').resolve_right (by simp [hd, DriverPoint.settling])
  · intro u old hu
    simp [Paging.State.setPte, hd, evictOf] at hu
  · intro u f hu
    simp [Paging.State.setPte, hd] at hu
  · intro u hu
    refine h.ahead u ?_
    simpa only [Dirty, Paging.State.setPte, hsame] using hu

theorem Inv.beginEvict (h : Inv x) {v : ℕ}
    (hs : Paging.driverStep uffd x.mem (.evict v) = some m) :
    Inv { books uffd x (.evict v) with mem := m } := by
  have hm := Paging.driverStep_inv h.mem hs
  have hint := fun hmoves => Paging.driverStep_internal hs hmoves
  simp only [Paging.driverStep] at hs
  split at hs <;> try simp only [reduceCtorEq] at hs
  next hd =>
  simp only [Option.ite_none_right_eq_some, Bool.and_eq_true, Option.some.injEq] at hs
  obtain ⟨⟨hpresent, hin⟩, rfl⟩ := hs
  refine ⟨hm, ?_, ?_, fun r hr => (by cases hr), h.written, ?_, ?_⟩
  · intro u f hf
    have hf' := (congrFun (hint (by rw [hd]; rfl)).frame u).symm.trans hf
    exact .inl ((h.listed u f hf').resolve_right (by simp [hd, DriverPoint.settling]))
  · intro u old hu
    obtain ⟨rfl, rfl⟩ : v = u ∧ x.mem.pte v = old := by simpa [evictOf] using hu
    exact ⟨_, ⟨rfl, rfl, rfl, rfl⟩, rfl, rfl, rfl, hpresent, hin⟩
  · intro u f hu
    simp at hu
  · intro u hu
    refine h.ahead u ?_
    obtain hu | ⟨b, o, hc, hb⟩ := hu
    · by_cases huv : u = v
      · simp [Paging.State.setPte, huv, Pte.hostResident] at hu
      · exact .inl (by simpa [Paging.State.setPte, huv] using hu)
    · obtain ⟨rfl, rfl, rfl⟩ : v = u ∧ (x.mem.pte v).dirty = b ∧ true = o := by
        simpa [collecting] using hc
      simp only [Paging.State.setPte, Function.update_self, Pte.hostResident, Bool.false_eq_true,
        and_false, or_false] at hb
      exact .inl ⟨hin, hb⟩

theorem Inv.beginMigrate (h : Inv x) {v f : ℕ}
    (hs : Paging.driverStep uffd x.mem (.migrate v f) = some m) :
    Inv { books uffd x (.migrate v f) with mem := m } := by
  have hm := Paging.driverStep_inv h.mem hs
  have hint := fun hmoves => Paging.driverStep_internal hs hmoves
  simp only [Paging.driverStep] at hs
  split at hs <;> try simp only [reduceCtorEq] at hs
  next hd =>
  simp only [Option.ite_none_right_eq_some, Option.some.injEq] at hs
  obtain ⟨-, rfl⟩ := hs
  refine ⟨hm, ?_, ?_, fun r hr => (by cases hr), h.written, ?_, ?_⟩
  · intro u g hg
    have hg' := (congrFun (hint (by rw [hd]; rfl)).frame u).symm.trans hg
    exact .inl ((h.listed u g hg').resolve_right (by simp [hd, DriverPoint.settling]))
  · intro u old hu
    cases hu
  · intro u g hu
    cases hu
  · intro u hu
    refine h.ahead u (.inl ?_)
    simpa [Dirty, collecting] using hu

theorem Inv.collect (h : Inv x) {v : ℕ} {old : Pte} (hd : x.mem.driver = .collect v old)
    (hm : Paging.Inv { x.mem.setPte v { x.mem.pte v with dirty := false, accessed := false } with
      driver := .publish v old (x.mem.pte v).dirty }) :
    Inv { x with mem := { x.mem.setPte v { x.mem.pte v with dirty := false, accessed := false } with
      driver := .publish v old (x.mem.pte v).dirty } } := by
  have hnone := h.not_failed (by simp [hd]) (by rw [hd]; rfl)
  refine h.moved hm ?_ (by simp [hd, DriverPoint.settling]) (by simp [hd, evictOf]) rfl ?_ rfl
    (fun u f hu => by cases hu) ?_ fun _ _ => id
  · funext u
    by_cases hu : u = v
    · subst hu
      simp [frameOf, Paging.State.setPte, hd, DriverPoint.evicting]
    · simp [frameOf, Paging.State.setPte, hd, DriverPoint.evicting, hu]
  · intro r hr
    rw [hnone] at hr
    cases hr
  · intro u hu
    obtain hu | ⟨b, o, hc, hb⟩ := hu
    · left
      by_cases huv : u = v
      · simp [Paging.State.setPte, huv] at hu
      · simpa [Paging.State.setPte, huv] using hu
    · obtain ⟨rfl, rfl, rfl⟩ : v = u ∧ (old.dirty || (x.mem.pte v).dirty) = b ∧ false = o := by
        simpa [collecting] using hc
      right
      refine ⟨old.dirty, true, by rw [hd]; rfl, ?_⟩
      simpa using hb

theorem Inv.published (h : Inv x) {v : ℕ} {old : Pte} {late : Bool} {host : ℕ →
    Option Paging.CellPage}
    (hd : x.mem.driver = .publish v old late)
    (hm : Paging.Inv { x.mem with hostMem := host, driver := .evicted v old.pfn }) :
    Inv { x with
      writebacks := x.writebacks + (old.dirty || late).toNat
      mem := { x.mem with hostMem := host, driver := .evicted v old.pfn } } := by
  have hnone := h.not_failed (by simp [hd]) (by rw [hd]; rfl)
  refine ⟨hm, ?_, fun _ _ hu => (by cases hu), ?_, h.written, fun _ _ hu => (by cases hu), ?_⟩
  · intro u f hf
    have hf' : frameOf x.mem.pte x.mem.driver u = some f := by
      simpa [frameOf, hd, DriverPoint.evicting] using hf
    exact .inl ((h.listed u f hf').resolve_right (by simp [hd, DriverPoint.settling]))
  · intro r hr
    dsimp only at hr
    rw [hnone] at hr
    cases hr
  · intro u hu
    refine h.ahead u (.inl ?_)
    simpa [Dirty, collecting] using hu

theorem dirty_of_wrote {s : Paging.State n k} (h : Paging.Inv s) {v : ℕ} {old : Pte} {late : Bool}
    (hd : s.driver = .publish v old late) (hw : s.wrote v = true) : (old.dirty || late) = true := by
  have hev : s.driver.evicting = some (v, old.pfn, old.dirty || late) := by rw [hd]; rfl
  obtain ⟨hp, -⟩ | ⟨f, hf⟩ := h.wrote v old.pfn (Paging.frameOf_evicting hev (h.out _ _ _ hev)) hw
  · exact absurd (show s.driver.publishing v by rw [hd]; exact rfl) hp
  · simp only [hev, Option.some.injEq, Prod.mk.injEq] at hf
    exact hf.2.2

theorem Inv.publishFails (h : Inv x) {v : ℕ} {old : Pte} {late : Bool}
    (hd : x.mem.driver = .publish v old late) (hclean : (old.dirty || late) = false)
    (hm : Paging.Inv { x.mem with driver := .restore v old.pfn }) :
    Inv { x with
      failed := x.before.map fun b => ⟨b, late, false⟩
      mem := { x.mem with driver := .restore v old.pfn } } := by
  obtain ⟨b, hb⟩ := h.found v old (by rw [hd]; rfl)
  refine ⟨hm, ?_, fun _ _ hu => (by cases hu), ?_, h.written, ?_, ?_⟩
  · intro u f hf
    have hf' : frameOf x.mem.pte x.mem.driver u = some f := by
      simpa [frameOf, hd, DriverPoint.evicting] using hf
    exact .inl ((h.listed u f hf').resolve_right (by simp [hd, DriverPoint.settling]))
  · intro r hr
    simp only [hb.before, Option.map_some, Option.mem_some_iff] at hr
    subst hr
    refine .inl ⟨hb.toUnchanged.congr rfl rfl rfl rfl, ?_, ?_, ?_, ?_⟩
    · dsimp only
      rw [hb.page, hb.pte]
    · dsimp only
      rw [hb.pte]
      exact hb.present
    · dsimp only
      rw [hb.pte]
      exact hb.inVram
    · dsimp only
      rw [hb.pte]
      exact hclean
  · intro u f hu
    obtain ⟨rfl, rfl⟩ : v = u ∧ old.pfn = f := by simpa using hu
    by_contra hw
    have hdirty := dirty_of_wrote h.mem hd (Bool.eq_true_of_not_eq_false hw)
    rw [hclean] at hdirty
    cases hdirty
  · intro u hu
    refine h.ahead u (.inl ?_)
    simpa [Dirty, collecting] using hu

theorem Inv.evicted (h : Inv x) {v f : ℕ} (hd : x.mem.driver = .evicted v f)
    (hm : Paging.Inv { x.mem with owner := Function.update x.mem.owner f none, driver := .idle }) :
    Inv { x with
      evictions := x.evictions + 1
      resident := x.resident.erase v
      mem := { x.mem with owner := Function.update x.mem.owner f none, driver := .idle } } := by
  have hnone := h.not_failed (by simp [hd]) (by rw [hd]; rfl)
  have hout := h.mem.out v f true (by rw [hd]; rfl)
  refine ⟨hm, ?_, fun _ _ hu => (by cases hu), ?_, h.written, fun _ _ hu => (by cases hu), ?_⟩
  · intro u g hg
    simp only [frameOf, DriverPoint.evicting] at hg
    split at hg
    · next hin =>
      have huv : u ≠ v := by
        intro huv
        rw [huv, hout] at hin
        cases hin
      have hl := (h.listed u _ (Paging.frameOf_resident hin)).resolve_right
        (by simp [hd, DriverPoint.settling])
      exact .inl ((List.mem_erase_of_ne huv).mpr hl)
    · cases hg
  · intro r hr
    dsimp only at hr
    rw [hnone] at hr
    cases hr
  · intro u hu
    refine h.ahead u (.inl ?_)
    simpa [Dirty, collecting] using hu

theorem dirty_makeResident {s : Paging.State n k} {v f u : ℕ} {after : Paging.After}
    (hafter : ∀ old, after ≠ .evict old) (h : Dirty (s.makeResident v f after) u) :
    u ≠ v ∧ (s.pte u).inVram = true ∧ (s.pte u).dirty = true := by
  obtain ⟨hin, hdirty⟩ | ⟨b, o, hc, -⟩ := h
  · by_cases huv : u = v
    · subst huv
      simp [Paging.State.makeResident, Paging.State.setPte, Pte.inFrame] at hdirty
    · exact ⟨huv, by simpa [Paging.State.makeResident, Paging.State.setPte, huv] using hin,
        by simpa [Paging.State.makeResident, Paging.State.setPte, huv] using hdirty⟩
  · cases after with
    | evict old => exact absurd rfl (hafter old)
    | migrated | restored => cases hc

theorem frameOf_makeResident {s : Paging.State n k} {v f u g : ℕ} {after : Paging.After}
    (hafter : ∀ old, after ≠ .evict old) (huv : u ≠ v)
    (h : frameOf (s.makeResident v f after).pte (s.makeResident v f after).driver u = some g) :
    frameOf s.pte s.driver u = some g := by
  have hev : (DriverPoint.bump v after : DriverPoint n k).evicting = none := by
    cases after with
    | evict old => exact absurd rfl (hafter old)
    | migrated | restored => rfl
  simp only [frameOf, Paging.State.makeResident, Paging.State.setPte,
    Function.update_of_ne huv, hev] at h
  split at h
  · next hin =>
    rw [Paging.frameOf_resident hin]
    exact h
  · cases h

theorem Inv.restored (h : Inv x) {v f : ℕ} (hd : x.mem.driver = .restore v f)
    (hm : Paging.Inv (x.mem.makeResident v f .restored)) :
    Inv { x with
      failed := x.failed.map fun r => { r with marked := false }
      mem := x.mem.makeResident v f .restored } := by
  have hev : x.mem.driver.evicting = some (v, f, true) := by rw [hd]; rfl
  have hout := h.mem.out v f true hev
  have hwrote : Function.update x.mem.wrote v false = x.mem.wrote := by
    rw [← h.restore v f hd]
    exact Function.update_eq_self ..
  have hlisted : ∀ u g, frameOf x.mem.pte x.mem.driver u = some g → u ∈ x.resident := fun u g hg =>
    (h.listed u g hg).resolve_right (by simp [hd, DriverPoint.settling])
  refine ⟨hm, ?_, fun _ _ hu => (by cases hu), ?_, ?_, fun _ _ hu => (by cases hu), ?_⟩
  · intro u g hg
    by_cases huv : u = v
    · subst huv
      exact .inl (hlisted u f (Paging.frameOf_evicting hev hout))
    · exact .inl (hlisted u g (frameOf_makeResident (by simp) huv hg))
  · intro r hr
    obtain ⟨r₀, hr₀, rfl⟩ := Option.map_eq_some_iff.mp hr
    obtain hf | ⟨hret, -⟩ := h.failed r₀ hr₀
    · obtain ⟨rfl, rfl⟩ : v = r₀.before.page ∧ f = r₀.before.pte.pfn := by
        simpa [hd] using hf.driver
      refine .inr ⟨rfl, hf.toUnchanged.congr rfl rfl rfl rfl, hf.inVram, ?_, ?_, ?_, ?_⟩
      · simp [Paging.State.makeResident, Paging.State.setPte, Pte.inFrame, hf.present]
      · simp [Paging.State.makeResident, Paging.State.setPte, Pte.inFrame, hf.inVram]
      · simp [Paging.State.makeResident, Paging.State.setPte, Pte.inFrame]
      · simp [Paging.State.makeResident, Paging.State.setPte, Pte.inFrame, hf.clean]
    · rw [hd] at hret
      cases hret
  · exact h.written.trans hwrote.symm
  · intro u hu
    obtain ⟨-, hin, hdirty⟩ := dirty_makeResident (by simp) hu
    simp only [Paging.State.makeResident, hwrote]
    exact h.ahead u (.inl ⟨hin, hdirty⟩)

theorem Inv.installed (h : Inv x) {v f : ℕ} (hd : x.mem.driver = .install v f)
    (hm : Paging.Inv (x.mem.makeResident v f .migrated)) :
    Inv { x with
      written := Function.update x.written v false
      ahead := Function.update x.ahead v false
      mem := x.mem.makeResident v f .migrated } := by
  have hnone := h.not_failed (by simp [hd]) (by rw [hd]; rfl)
  refine ⟨hm, ?_, fun _ _ hu => (by cases hu), ?_, ?_, fun _ _ hu => (by cases hu), ?_⟩
  · intro u g hg
    by_cases huv : u = v
    · exact .inr huv.symm
    · have hl := h.listed u g (frameOf_makeResident (by simp) huv hg)
      exact .inl (hl.resolve_right (by simp [hd, DriverPoint.settling]))
  · intro r hr
    dsimp only at hr
    rw [hnone] at hr
    cases hr
  · dsimp only
    rw [h.written]
    rfl
  · intro u hu
    obtain ⟨huv, hin, hdirty⟩ := dirty_makeResident (by simp) hu
    simp only [Paging.State.makeResident, Paging.State.setPte, Function.update_of_ne huv]
    exact h.ahead u (.inl ⟨hin, hdirty⟩)

theorem Inv.pushed (h : Inv x) {v : ℕ} {host : ℕ → Option Paging.CellPage}
    (hsettling : ∀ u, x.mem.driver.settling u → v = u) (hret : returned x.mem.driver = false)
    (hno : ∀ u f, x.mem.driver ≠ .restore u f)
    (hframe : frameOf x.mem.pte (.idle : DriverPoint n k) = frameOf x.mem.pte x.mem.driver)
    (hm : Paging.Inv { x.mem with hostMem := host, driver := .idle }) :
    Inv { x with
      resident := x.resident ++ [v]
      mem := { x.mem with hostMem := host, driver := .idle } } := by
  have hnone := h.not_failed hno hret
  refine ⟨hm, ?_, fun _ _ hu => (by cases hu), ?_, h.written, fun _ _ hu => (by cases hu), ?_⟩
  · intro u g hg
    dsimp only at hg
    rw [hframe] at hg
    refine .inl ?_
    obtain hl | hs := h.listed u g hg
    · exact List.mem_append_left _ hl
    · rw [hsettling u hs]
      exact List.mem_append_right _ (List.mem_singleton.mpr rfl)
  · intro r hr
    dsimp only at hr
    rw [hnone] at hr
    cases hr
  · intro u hu
    refine h.ahead u (.inl ?_)
    simpa [Dirty, collecting] using hu

theorem Inv.driverSide (h : Inv x) {ok : Bool} (hok : cleanFailure uffd x (.driver ok))
    (hs : Paging.driverStep uffd x.mem (.driver ok) = some m) :
    Inv { books uffd x (.driver ok) with mem := m } := by
  have hm := Paging.driverStep_inv h.mem hs
  have hint := fun hmoves => (Paging.driverStep_internal hs hmoves).frame
  cases hd : x.mem.driver with
  | idle => simp [Paging.driverStep, hd] at hs
  | bump v after =>
    have hf := hint (by rw [hd]; rfl)
    simp only [Paging.driverStep, hd, Option.some.injEq] at hs
    subst hs
    simp only [books, hd, driverBooks]
    refine h.onward hm rfl rfl rfl (fun _ _ => id) hf ?_ ?_ ?_ ?_ (by simp [hd]) (by simp) <;>
      cases after <;> simp [hd, DriverPoint.settling, evictOf, collecting, returned]
  | shoot v after todo =>
    have hf := hint (by rw [hd]; rfl)
    cases todo with
    | cons slot todo =>
      simp only [Paging.driverStep, hd, Option.some.injEq] at hs
      subst hs
      simp only [books, hd, driverBooks]
      refine h.onward hm rfl rfl rfl (fun _ _ => id) hf ?_ ?_ ?_ ?_ (by simp [hd]) ?_ <;>
        dsimp only <;> split <;> cases after <;>
        simp [hd, DriverPoint.settling, evictOf, collecting, returned]
    | nil =>
      cases after with
      | evict old =>
        simp only [Paging.driverStep, hd, Option.some.injEq] at hs
        subst hs
        simp only [books, hd, driverBooks]
        exact h.onward hm rfl rfl rfl (fun _ _ => id) hf (by simp [hd, DriverPoint.settling])
          (by simp [hd, evictOf]) (by simp [hd, collecting]) (by simp [hd, returned]) (by simp [hd])
          (by simp)
      | restored =>
        simp only [Paging.driverStep, hd, Option.some.injEq] at hs
        subst hs
        simp only [books, hd, driverBooks]
        exact h.onward hm rfl rfl rfl (fun _ _ => id) hf (by simp [hd, DriverPoint.settling])
          (by simp [evictOf]) (by simp [collecting]) (fun _ => rfl) (by simp [hd]) (by simp)
      | migrated =>
        simp only [Paging.driverStep, hd, Option.some.injEq] at hs
        subst hs
        simp only [books, hd, driverBooks]
        cases uffd with
        | true =>
          exact h.onward hm rfl rfl rfl (fun _ _ => id) hf (by simp [hd, DriverPoint.settling])
            (by simp [evictOf]) (by simp [collecting]) (by simp [hd, returned]) (by simp [hd])
            (by simp)
        | false =>
          exact h.pushed (by simp [hd, DriverPoint.settling]) (by rw [hd]; rfl) (by simp [hd]) hf hm
  | clear v after slot todo =>
    have hf := hint (by rw [hd]; rfl)
    simp only [Paging.driverStep, hd, Option.some.injEq] at hs
    subst hs
    simp only [books, hd, driverBooks]
    refine h.onward hm rfl rfl rfl (fun e u he => ?_) hf ?_ ?_ ?_ ?_ (by simp [hd]) (by simp)
    · by_cases hes : e = slot.1
      · subst hes
        simpa [Paging.State.setEngine, writing, translated, Engine.setTag] using he
      · simpa [Paging.State.setEngine, hes] using he
    all_goals
      cases after <;> simp [hd, DriverPoint.settling, evictOf, collecting, returned]
  | quiesce v old todo =>
    have hf := hint (by rw [hd]; rfl)
    cases todo with
    | cons e todo =>
      simp only [Paging.driverStep, hd, Option.some.injEq] at hs
      subst hs
      simp only [books, hd, driverBooks]
      refine h.onward hm rfl rfl rfl (fun _ _ => id) hf ?_ ?_ ?_ ?_ (by simp [hd]) ?_ <;>
        dsimp only <;> split <;> simp [hd, DriverPoint.settling, evictOf, collecting, returned]
    | nil =>
      simp only [Paging.driverStep, hd, Option.some.injEq] at hs
      subst hs
      simp only [books, hd, driverBooks]
      exact h.onward hm rfl rfl rfl (fun _ _ => id) hf (by simp [hd, DriverPoint.settling])
        (by simp [hd, evictOf]) (by simp [hd, collecting]) (by simp [hd, returned]) (by simp [hd])
        (by simp)
  | wait v old e seq todo =>
    have hf := hint (by rw [hd]; rfl)
    simp only [Paging.driverStep, hd, Option.ite_none_left_eq_some, Option.some.injEq] at hs
    obtain ⟨-, rfl⟩ := hs
    simp only [books, hd, driverBooks]
    exact h.onward hm rfl rfl rfl (fun _ _ => id) hf (by simp [hd, DriverPoint.settling])
      (by simp [hd, evictOf]) (by simp [hd, collecting]) (by simp [hd, returned]) (by simp [hd])
      (by simp)
  | collect v old =>
    simp only [Paging.driverStep, hd, Option.some.injEq] at hs
    subst hs
    simp only [books, hd, driverBooks]
    exact h.collect hd hm
  | publish v old late =>
    simp only [cleanFailure, hd, failsDirty] at hok
    simp only [Paging.driverStep, hd] at hs
    simp only [books, hd, driverBooks]
    cases uffd with
    | true =>
      cases ok with
      | true =>
        obtain rfl := Option.some.inj hs
        exact h.published hd hm
      | false =>
        obtain rfl := Option.some.inj hs
        exact h.publishFails hd hok hm
    | false =>
      obtain rfl := Option.some.inj hs
      exact h.published hd hm
  | evicted v f =>
    simp only [Paging.driverStep, hd, Option.some.injEq] at hs
    subst hs
    simp only [books, hd, driverBooks]
    exact h.evicted hd hm
  | restore v f =>
    simp only [Paging.driverStep, hd, Option.some.injEq] at hs
    subst hs
    simp only [books, hd, driverBooks]
    exact h.restored hd hm
  | copyIn v f =>
    simp only [Paging.driverStep, hd, Option.some.injEq] at hs
    subst hs
    simp only [books, hd, driverBooks]
    refine h.onward hm rfl rfl rfl (fun _ _ => id) ?_ (by simp [hd, DriverPoint.settling])
      (by simp [evictOf]) (by simp [collecting]) (by simp [hd, returned]) (by simp [hd]) (by simp)
    funext u
    simp [frameOf, hd, DriverPoint.evicting]
  | install v f =>
    simp only [Paging.driverStep, hd, Option.some.injEq] at hs
    subst hs
    simp only [books, hd, driverBooks]
    exact h.installed hd hm
  | madvise v =>
    simp only [Paging.driverStep, hd, Option.some.injEq] at hs
    subst hs
    simp only [books, hd, driverBooks]
    refine h.pushed (by simp [hd, DriverPoint.settling]) (by rw [hd]; rfl) (by simp [hd]) ?_ hm
    funext u
    simp [frameOf, hd, DriverPoint.evicting]

theorem inv_step (h : Inv x) (hok : cleanFailure uffd x a) (hs : step uffd x a = some y) :
    Inv y := by
  simp only [step, Option.ite_none_right_eq_some] at hs
  obtain ⟨hat, hs⟩ := hs
  obtain ⟨m, hm, rfl⟩ := Option.map_eq_some_iff.mp hs
  obtain he | hd | hh := Paging.step_cases hm
  · exact h.engineSide he
  · cases a with
    | driver ok => exact h.driverSide hok hd
    | clearAccessed v => exact h.clearAccessed hat hd
    | evict v => exact h.beginEvict hd
    | migrate v f => exact h.beginMigrate hd
    | _ => simp [Paging.driverStep] at hd
  · exact h.hostSide hh

/-- Where `publish_host` fails for clean pages only: when `evict_locked` has returned, the page is
in VRAM, in its frame and on the list, DIRTY is set only if an engine has set it since, and nothing
is counted. A later eviction takes the page for dirty if the device has written it since it was
migrated in, and only then, if every translation for writing was followed by the write. -/
theorem failed_eviction_rolls_back
    (h : Reach (step uffd) (cleanFailure uffd) (init n k) x) :
    (∀ r ∈ x.failed, x.mem.driver = .idle → RolledBack x r ∧ r.before.page ∈ x.resident ∧
      x.mem.owner r.before.pte.pfn = some r.before.page) ∧
    ∀ v old late, x.mem.driver = .publish v old late →
      (x.written v = true → (old.dirty || late) = true) ∧
      (x.ahead v = false → ((old.dirty || late) = true ↔ x.written v = true)) := by
  have hi : Inv x := h.invariant (inv_init n k) fun _ _ _ hi hok hs => inv_step hi hok hs
  refine ⟨fun r hr hd => ?_, fun v old late hd => ?_⟩
  · obtain hf | ⟨-, hb⟩ := hi.failed r hr
    · cases hd.symm.trans hf.driver
    · have hframe : frameOf x.mem.pte x.mem.driver r.before.page = some r.before.pte.pfn := by
        rw [Paging.frameOf_resident (hb.inVram.trans hb.found), hb.pfn]
      refine ⟨hb, ?_, hi.mem.owner _ _ hframe⟩
      exact (hi.listed _ _ hframe).resolve_right (by simp [hd, DriverPoint.settling])
  · rw [hi.written]
    have hwd := dirty_of_wrote hi.mem hd
    refine ⟨hwd, fun ha => ⟨fun hdirty => ?_, hwd⟩⟩
    obtain hw | ha' | ⟨e, he⟩ := hi.ahead v (.inr ⟨_, false, by rw [hd]; rfl, .inl hdirty⟩)
    · exact hw
    · rw [ha] at ha'
      cases ha'
    · -- `quiesce` has waited for every engine that could still write the page.
      have hout := hi.mem.out v old.pfn _ (by rw [hd]; rfl)
      obtain hin | hhold := hi.alive he
      · rw [hout] at hin
        cases hin
      · rw [hd] at hhold
        exact hhold.elim

end Run

/-! ### Runs of one engine with one TLB slot -/

def migrateIn : List (Action 1 1) := .migrate 3 5 :: List.replicate 6 (.driver true)

def writeOnce : List (Action 1 1) :=
  [.submit 0, .enter 0 0, .translate 0 3 true] ++ List.replicate 11 (.engine 0 (some 0)) ++
    [.write 0 3 5 ⟨0, pageSize_pos⟩ 7, .leave 0]

structure View where
  idle : Bool
  failures : ℕ
  wasDirty : Bool
  dirty : Bool
  written : Bool
  deriving DecidableEq, Repr

def State.view (x : State 1 1) : View where
  idle := x.mem.driver = .idle
  failures := x.failed.toList.length
  wasDirty := x.failed.any fun r => r.before.page = 3 ∧ r.before.pte.dirty = true
  dirty := (x.mem.pte 3).dirty
  written := x.written 3

/-- The eviction of a page that nobody has written fails and is rolled back. -/
theorem failed_eviction_rolls_back_clean :
    ∃ x r, exec (when (cleanFailure true) (step true)) (init 1 1)
        (migrateIn ++ .evict 3 :: List.replicate 11 (.driver false)) = some x ∧
      r ∈ x.failed ∧ x.mem.driver = .idle ∧ RolledBack x r := by
  have hrun : (exec (when (cleanFailure true) (step true)) (init 1 1)
      (migrateIn ++ .evict 3 :: List.replicate 11 (.driver false))).map State.view =
      some ⟨true, 1, false, false, false⟩ := by decide +kernel
  obtain ⟨x, hx, hview⟩ := Option.map_eq_some_iff.mp hrun
  simp only [State.view, View.mk.injEq, decide_eq_true_eq, Option.length_toList] at hview
  obtain ⟨hidle, hfailed, -⟩ := hview
  cases hr : x.failed with
  | none => simp [hr] at hfailed
  | some r =>
    have hall := failed_eviction_rolls_back (.of_exec_when .refl hx)
    exact ⟨x, r, hx, hr, hidle, (hall.1 r hr hidle).1⟩

/-- A page with DIRTY set, whose eviction fails: the entry comes back without the bit. -/
theorem rollback_loses_dirty :
    ∃ x : State 1 1, Reach (step true) anyStep (init 1 1) x ∧ x.mem.driver = .idle ∧
      x.written 3 = true ∧ ∃ r ∈ x.failed, r.before.page = 3 ∧ r.before.pte.dirty = true ∧
        (x.mem.pte 3).dirty = false ∧ ¬RolledBack x r := by
  have hrun : (exec (step true) (init 1 1)
      (migrateIn ++ writeOnce ++ .evict 3 :: List.replicate 12 (.driver false))).map State.view =
      some ⟨true, 1, true, false, true⟩ := by decide +kernel
  obtain ⟨x, hx, hview⟩ := Option.map_eq_some_iff.mp hrun
  simp only [State.view, View.mk.injEq, decide_eq_true_eq, Option.any_eq_true] at hview
  obtain ⟨hidle, -, ⟨r, hr, hpage, hwas⟩, hdirty, hwritten⟩ := hview
  refine ⟨x, .of_exec .refl hx, hidle, hwritten, r, hr, hpage, hwas, hdirty, fun hb => ?_⟩
  have heq := hb.dirty
  rw [hpage, hdirty, hwas] at heq
  cases heq

/-- The next eviction of that page takes it for a clean one. -/
example : (exec (step true) (init 1 1) (migrateIn ++ writeOnce ++ .evict 3 ::
    List.replicate 12 (.driver false) ++ .evict 3 :: List.replicate 6 (.driver true))).map
      (fun x => (x.mem.driver, x.written 3)) =
    some (.publish 3 ⟨true, true, false, true, 5⟩ false, true) := by decide +kernel

end SoftGpu.Rollback
