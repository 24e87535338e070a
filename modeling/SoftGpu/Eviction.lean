import SoftGpu.PagingInvariant

/-!
# Eviction loses nothing

The bytes of a managed page are in its frame, in its host page, or in both. Most
steps of the driver move no bytes and give no page another frame; they are
`Internal`. The others are `publish_host`, the return of the frame, the
rollback, `copy_in`, `make_resident` after it, and `madvise`.
-/

namespace SoftGpu.Paging
open Machine

variable {n k : ℕ} {s s' t : State n k} {a : Action n k} {v : ℕ} {uffd : Bool}

def DriverPoint.settling (d : DriverPoint n k) (v : ℕ) : Prop :=
  match d with
  | .bump u .migrated | .shoot u .migrated _ | .clear u .migrated _ _ | .madvise u => u = v
  | _ => False

def DriverPoint.moves : DriverPoint n k → Bool
  | .publish .. | .evicted .. | .restore .. | .copyIn .. | .install .. | .madvise .. => true
  | _ => false

def DriverPoint.needsUffd : DriverPoint n k → Bool
  | .restore .. | .madvise .. => true
  | _ => false

structure Internal (uffd : Bool) (s t : State n k) : Prop where
  frame : frameOf t.pte t.driver = frameOf s.pte s.driver
  settling : ∀ v, t.driver.settling v → s.driver.settling v ∧ (t.pte v).inVram = (s.pte v).inVram
  settled : uffd = true → ∀ v, s.driver.settling v → t.driver.settling v
  install : ∀ v f, t.driver ≠ .install v f
  evicted : ∀ v f, t.driver ≠ .evicted v f
  uffd : t.driver.needsUffd = true → uffd = true
  hostMem : t.hostMem = s.hostMem
  frames : t.frames = s.frames
  wrote : t.wrote = s.wrote
  hostStored : t.hostStored = s.hostStored
  deviceWrote : t.deviceWrote = s.deviceWrote
  stores : t.stores = s.stores
  submitted : t.submitted = s.submitted
  reads : t.reads = s.reads
  loads : t.loads = s.loads

theorem driverStep_internal (hs : driverStep uffd s a = some s')
    (hmoves : s.driver.moves = false) : Internal uffd s s' := by
  cases a with
  | clearAccessed v =>
    simp only [driverStep] at hs
    split at hs <;> simp only [Option.some.injEq, reduceCtorEq] at hs
    rename_i hd
    subst hs
    refine ⟨?_, ?_, ?_, ?_, ?_, ?_, rfl, rfl, rfl, rfl, rfl, rfl, rfl, rfl, rfl⟩
    · funext u
      by_cases huv : u = v
      · subst huv
        simp [frameOf, State.setPte]
      · simp [frameOf, State.setPte, huv]
    all_goals simp [State.setPte, hd, DriverPoint.settling, DriverPoint.needsUffd]
  | evict v =>
    simp only [driverStep] at hs
    split at hs <;> try simp only [reduceCtorEq] at hs
    rename_i hd
    split_ifs at hs with hv
    rw [Bool.and_eq_true] at hv
    rw [Option.some.injEq] at hs
    subst hs
    refine ⟨?_, ?_, ?_, ?_, ?_, ?_, rfl, rfl, rfl, rfl, rfl, rfl, rfl, rfl, rfl⟩
    · funext u
      by_cases huv : u = v
      · subst huv
        simp [frameOf, State.setPte, DriverPoint.evicting, hv.2, Pte.hostResident]
      · simp [frameOf, State.setPte, DriverPoint.evicting, hd, huv, Ne.symm huv]
    all_goals simp [hd, DriverPoint.settling, DriverPoint.needsUffd]
  | migrate v f =>
    simp only [driverStep] at hs
    split at hs <;> try simp only [reduceCtorEq] at hs
    rename_i hd
    split_ifs at hs
    rw [Option.some.injEq] at hs
    subst hs
    refine ⟨?_, ?_, ?_, ?_, ?_, ?_, rfl, rfl, rfl, rfl, rfl, rfl, rfl, rfl, rfl⟩
    · funext u
      simp [frameOf, DriverPoint.evicting, hd]
    all_goals simp [hd, DriverPoint.settling, DriverPoint.needsUffd]
  | driver ok =>
    cases hd : s.driver with
    | idle => simp [driverStep, hd] at hs
    | bump v after =>
      simp only [driverStep, hd, Option.some.injEq] at hs
      subst hs
      refine ⟨?_, ?_, ?_, ?_, ?_, ?_, rfl, rfl, rfl, rfl, rfl, rfl, rfl, rfl, rfl⟩
      · funext u
        cases after <;> simp [frameOf, DriverPoint.evicting, hd]
      all_goals cases after <;> simp [hd, DriverPoint.settling, DriverPoint.needsUffd]
    | shoot v after todo =>
      cases todo with
      | cons x todo =>
        simp only [driverStep, hd, Option.some.injEq] at hs
        subst hs
        refine ⟨?_, ?_, ?_, ?_, ?_, ?_, rfl, rfl, rfl, rfl, rfl, rfl, rfl, rfl, rfl⟩
        · funext u
          cases after <;> simp only [frameOf, hd] <;> split_ifs <;> simp [DriverPoint.evicting]
        all_goals
          cases after <;> simp only [hd] <;> split_ifs <;>
            simp [DriverPoint.settling, DriverPoint.needsUffd]
      | nil =>
        cases after <;> simp only [driverStep, hd, Option.some.injEq] at hs <;> subst hs
        all_goals
          refine ⟨?_, ?_, ?_, ?_, ?_, ?_, rfl, rfl, rfl, rfl, rfl, rfl, rfl, rfl, rfl⟩
        all_goals
          cases uffd <;> try funext u
          all_goals simp [frameOf, hd, DriverPoint.evicting, DriverPoint.settling,
            DriverPoint.needsUffd]
    | clear v after x todo =>
      simp only [driverStep, hd, Option.some.injEq] at hs
      subst hs
      refine ⟨?_, ?_, ?_, ?_, ?_, ?_, rfl, rfl, rfl, rfl, rfl, rfl, rfl, rfl, rfl⟩
      · funext u
        cases after <;> simp [frameOf, State.setEngine, DriverPoint.evicting, hd]
      all_goals cases after <;> simp [hd, State.setEngine, DriverPoint.settling,
        DriverPoint.needsUffd]
    | quiesce v old todo =>
      cases todo with
      | cons e todo =>
        simp only [driverStep, hd, Option.some.injEq] at hs
        subst hs
        refine ⟨?_, ?_, ?_, ?_, ?_, ?_, rfl, rfl, rfl, rfl, rfl, rfl, rfl, rfl, rfl⟩
        · funext u
          simp only [frameOf, hd]
          split_ifs <;> simp [DriverPoint.evicting]
        all_goals
          simp only [hd]
          split_ifs <;> simp [DriverPoint.settling, DriverPoint.needsUffd]
      | nil =>
        simp only [driverStep, hd, Option.some.injEq] at hs
        subst hs
        refine ⟨?_, ?_, ?_, ?_, ?_, ?_, rfl, rfl, rfl, rfl, rfl, rfl, rfl, rfl, rfl⟩
        · funext u
          simp [frameOf, hd, DriverPoint.evicting]
        all_goals simp [hd, DriverPoint.settling, DriverPoint.needsUffd]
    | wait v old e seq todo =>
      simp only [driverStep, hd] at hs
      split_ifs at hs
      rw [Option.some.injEq] at hs
      subst hs
      refine ⟨?_, ?_, ?_, ?_, ?_, ?_, rfl, rfl, rfl, rfl, rfl, rfl, rfl, rfl, rfl⟩
      · funext u
        simp [frameOf, hd, DriverPoint.evicting]
      all_goals simp [hd, DriverPoint.settling, DriverPoint.needsUffd]
    | collect v old =>
      simp only [driverStep, hd, Option.some.injEq] at hs
      subst hs
      refine ⟨?_, ?_, ?_, ?_, ?_, ?_, rfl, rfl, rfl, rfl, rfl, rfl, rfl, rfl, rfl⟩
      · funext u
        by_cases huv : u = v
        · subst huv
          simp [frameOf, State.setPte, hd, DriverPoint.evicting]
        · simp [frameOf, State.setPte, hd, DriverPoint.evicting, huv]
      all_goals simp [hd, DriverPoint.settling, DriverPoint.needsUffd]
    | _ => simp [hd, DriverPoint.moves] at hmoves
  | _ => simp [driverStep] at hs

/-! ### Where the bytes are -/

structure DataInv (uffd : Bool) (s : State n k) : Prop where
  hosted : ∀ v, s.hostMem v = none → ∃ f, frameOf s.pte s.driver v = some f
  missing : uffd = true → ∀ v f, frameOf s.pte s.driver v = some f → ¬s.driver.settling v →
    s.driver ≠ .evicted v f → s.hostMem v = none
  clean : uffd = false → ∀ v f, frameOf s.pte s.driver v = some f → s.wrote v = false →
    s.hostStored v = false → s.hostMem v = some (s.frames f)
  loaded : ∀ v f, s.driver = .install v f → s.hostStored v = false →
    s.hostMem v = some (s.frames f)
  done : ∀ v f, s.driver = .evicted v f → s.hostMem v ≠ none ∧
    (s.hostStored v = false → s.hostMem v = some (s.frames f))
  settled : ∀ v, s.driver.settling v → (s.pte v).inVram = true
  present : uffd = false → ∀ v, s.hostMem v ≠ none
  needs : s.driver.needsUffd = true → uffd = true

def dropsPage (s : State n k) : Action n k → Prop
  | .driver ok =>
    match s.driver with
    | .madvise _ => ok = true
    | _ => True
  | _ => True

instance (s : State n k) (a : Action n k) : Decidable (dropsPage s a) := by
  unfold dropsPage
  split
  · split <;> infer_instance
  · infer_instance

theorem data_init (uffd : Bool) : DataInv uffd (init n k) where
  hosted := by simp [init]
  missing := by simp [init, frameOf, Pte.hostResident, DriverPoint.evicting]
  clean := by simp [init, frameOf, Pte.hostResident, DriverPoint.evicting]
  loaded := by simp [init]
  done := by simp [init]
  settled := by simp [init, DriverPoint.settling]
  present := by simp [init]
  needs := by simp [init, DriverPoint.needsUffd]

theorem Inv.frame_inj (h : Inv s) {u f : ℕ} (hu : frameOf s.pte s.driver u = some f)
    (hv : frameOf s.pte s.driver v = some f) : u = v :=
  Option.some.inj ((h.owner u f hu).symm.trans (h.owner v f hv))

theorem Inv.loading_frame (h : Inv s) {f : ℕ} (hd : s.driver.loading = some (v, f)) :
    frameOf s.pte s.driver v = none ∧ ∀ u, frameOf s.pte s.driver u ≠ some f := by
  obtain ⟨hv, hown⟩ := h.loading v f hd
  have hev : s.driver.evicting = none := by
    cases hs : s.driver with
    | copyIn | install => rfl
    | _ => simp [hs, DriverPoint.loading] at hd
  have hnone : frameOf s.pte s.driver v = none := by simp [frameOf, hv, hev]
  refine ⟨hnone, fun u hu => ?_⟩
  obtain rfl := Option.some.inj ((h.owner u f hu).symm.trans hown)
  simp [hnone] at hu

namespace DataInv

theorem internal (h : DataInv uffd s) (hm : s.driver.moves = false) (hi : Internal uffd s t) :
    DataInv uffd t where
  hosted := by
    rw [hi.hostMem, hi.frame]
    exact h.hosted
  missing := by
    rw [hi.hostMem, hi.frame]
    intro hu v f hf hset _
    refine h.missing hu v f hf (fun hs => hset (hi.settled hu v hs)) fun hd => ?_
    simp [hd, DriverPoint.moves] at hm
  clean := by
    rw [hi.hostMem, hi.frame, hi.wrote, hi.hostStored, hi.frames]
    exact h.clean
  loaded := fun v f hd => absurd hd (hi.install v f)
  done := fun v f hd => absurd hd (hi.evicted v f)
  settled := by
    intro v hv
    obtain ⟨hs, hin⟩ := hi.settling v hv
    rw [hin]
    exact h.settled v hs
  present := by
    rw [hi.hostMem]
    exact h.present
  needs := hi.uffd

theorem publish_uffd (h : DataInv true s) {old : Pte} {late : Bool}
    (hd : s.driver = .publish v old late) (hi : Inv s) :
    DataInv true { s with
      hostMem := Function.update s.hostMem v (some ((s.hostMem v).getD (s.frames old.pfn)))
      driver := .evicted v old.pfn } := by
  have hev : s.driver.evicting = some (v, old.pfn, old.dirty || late) := by rw [hd]; rfl
  have hframe : frameOf s.pte s.driver v = some old.pfn := frameOf_evicting hev (hi.out _ _ _ hev)
  have hsame : frameOf s.pte (.evicted v old.pfn : DriverPoint n k) = frameOf s.pte s.driver := by
    funext u
    simp [frameOf, hd, DriverPoint.evicting]
  have hnone := h.missing rfl v old.pfn hframe (by simp [hd, DriverPoint.settling]) (by simp [hd])
  constructor
  case hosted =>
    intro u hu
    dsimp only
    rw [hsame]
    by_cases huv : u = v
    · simp [huv] at hu
    · exact h.hosted u (by simpa [huv] using hu)
  case missing =>
    intro _ u f hf _ hne
    dsimp only at hf hne
    rw [hsame] at hf
    have huv : u ≠ v := by
      rintro rfl
      rw [hframe, Option.some.injEq] at hf
      exact hne (by rw [hf])
    dsimp only
    rw [Function.update_of_ne huv]
    exact h.missing rfl u f hf (by simp [hd, DriverPoint.settling]) (by simp [hd])
  case done =>
    intro u f hu
    simp only [DriverPoint.evicted.injEq] at hu
    obtain ⟨rfl, rfl⟩ := hu
    simp [hnone]
  all_goals simp [DriverPoint.settling, DriverPoint.needsUffd]

theorem publish_off (h : DataInv false s) {old : Pte} {late : Bool}
    (hd : s.driver = .publish v old late) (hi : Inv s) :
    DataInv false { s with
      hostMem := if old.dirty || late then Function.update s.hostMem v (some (s.frames old.pfn))
        else s.hostMem
      driver := .evicted v old.pfn } := by
  have hev : s.driver.evicting = some (v, old.pfn, old.dirty || late) := by rw [hd]; rfl
  have hframe : frameOf s.pte s.driver v = some old.pfn := frameOf_evicting hev (hi.out _ _ _ hev)
  have hsame : frameOf s.pte (.evicted v old.pfn : DriverPoint n k) = frameOf s.pte s.driver := by
    funext u
    simp [frameOf, hd, DriverPoint.evicting]
  have hpres := h.present rfl
  -- The new host page of this page holds the frame, unless the host has stored to it.
  have hnew : ∀ u, s.hostStored u = false → ∀ f, frameOf s.pte s.driver u = some f →
      (s.wrote u = false ∨ u = v) →
      (if old.dirty || late then Function.update s.hostMem v (some (s.frames old.pfn))
        else s.hostMem) u = some (s.frames f) := by
    intro u hu f hf hw
    by_cases huv : u = v
    · subst huv
      rw [hframe, Option.some.injEq] at hf
      subst hf
      split_ifs with hdirty
      · simp
      · refine h.clean rfl u _ hframe ?_ hu
        by_contra hwrote
        have hmark := hi.wrote u _ hframe (by simpa using hwrote)
        rcases hmark with ⟨hp, -⟩ | ⟨f, hf⟩
        · exact hp (by rw [hd]; rfl)
        · simp only [hev, Option.some.injEq, Prod.mk.injEq] at hf
          exact hdirty hf.2.2
    · have hclean := h.clean rfl u f hf (hw.resolve_right huv) hu
      split_ifs
      · rwa [Function.update_of_ne huv]
      · exact hclean
  have hhere : ∀ u, (if old.dirty || late then Function.update s.hostMem v (some (s.frames old.pfn))
        else s.hostMem) u ≠ none := by
    intro u
    split_ifs
    · by_cases huv : u = v
      · simp [huv]
      · rw [Function.update_of_ne huv]
        exact hpres u
    · exact hpres u
  constructor
  case hosted => exact fun u hu => absurd hu (hhere u)
  case clean =>
    intro _ u f hf hw hu
    exact hnew u hu f (hsame ▸ hf) (.inl hw)
  case done =>
    intro u f hu
    simp only [DriverPoint.evicted.injEq] at hu
    obtain ⟨rfl, rfl⟩ := hu
    exact ⟨hhere v, fun hu => hnew v hu _ hframe (.inr rfl)⟩
  case present => exact fun _ => hhere
  all_goals simp [DriverPoint.settling, DriverPoint.needsUffd]

theorem publish_fails (h : DataInv true s) {old : Pte} {late : Bool}
    (hd : s.driver = .publish v old late) :
    DataInv true { s with driver := .restore v old.pfn } := by
  have hsame : frameOf s.pte (.restore v old.pfn : DriverPoint n k) = frameOf s.pte s.driver := by
    funext u
    simp [frameOf, hd, DriverPoint.evicting]
  refine ⟨?_, ?_, by simp, by simp, by simp, by simp [DriverPoint.settling], by simp, by simp⟩
  · dsimp only
    rw [hsame]
    exact h.hosted
  · intro _ u f hf _ _
    exact h.missing rfl u f (hsame ▸ hf) (by simp [hd, DriverPoint.settling]) (by simp [hd])

theorem returnFrame (h : DataInv uffd s) {f : ℕ} (hd : s.driver = .evicted v f) (hi : Inv s) :
    DataInv uffd { s with owner := Function.update s.owner f none, driver := .idle } := by
  have hev : s.driver.evicting = some (v, f, true) := by rw [hd]; rfl
  have hv := hi.out _ _ _ hev
  have hframe : ∀ u g, frameOf s.pte (.idle : DriverPoint n k) u = some g ↔
      frameOf s.pte s.driver u = some g ∧ u ≠ v := by
    intro u g
    by_cases huv : u = v
    · subst huv
      simp [frameOf, hv, DriverPoint.evicting]
    · simp [frameOf, hd, DriverPoint.evicting, huv, Ne.symm huv]
  constructor
  case hosted =>
    intro u hu
    obtain ⟨g, hg⟩ := h.hosted u hu
    refine ⟨g, (hframe u g).mpr ⟨hg, ?_⟩⟩
    rintro rfl
    exact (h.done u f hd).1 hu
  case missing =>
    intro hu u g hg _ _
    obtain ⟨hg, huv⟩ := (hframe u g).mp hg
    refine h.missing hu u g hg (by simp [hd, DriverPoint.settling]) ?_
    simp [hd, Ne.symm huv]
  case clean => exact fun hu u g hg => h.clean hu u g ((hframe u g).mp hg).1
  case present => exact h.present
  all_goals simp [DriverPoint.settling, DriverPoint.needsUffd]

theorem restore (h : DataInv uffd s) {f : ℕ} (hd : s.driver = .restore v f) (hi : Inv s) :
    DataInv uffd (s.makeResident v f .restored) := by
  obtain rfl := h.needs (by rw [hd]; rfl)
  have hev : s.driver.evicting = some (v, f, true) := by rw [hd]; rfl
  have hframe : frameOf (s.makeResident v f .restored).pte
      (s.makeResident v f .restored).driver = frameOf s.pte s.driver := by
    funext u
    by_cases huv : u = v
    · subst huv
      rw [frameOf_evicting hev (hi.out _ _ _ hev)]
      simp [frameOf, State.makeResident, State.setPte, Pte.inFrame]
    · simp [frameOf, State.makeResident, State.setPte, DriverPoint.evicting, hd, huv, Ne.symm huv]
  refine ⟨?_, ?_, by simp, ?_, ?_, ?_, by simp, by simp⟩
  · rw [hframe]
    exact h.hosted
  · rw [hframe]
    intro _ u g hg _ _
    exact h.missing rfl u g hg (by simp [hd, DriverPoint.settling]) (by simp [hd])
  all_goals simp [State.makeResident, DriverPoint.settling]

theorem copyIn (h : DataInv uffd s) {f : ℕ} (hd : s.driver = .copyIn v f) (hi : Inv s) :
    DataInv uffd { s with
      frames := Function.update s.frames f ((s.hostMem v).getD .zero)
      hostStored := Function.update s.hostStored v false
      driver := .install v f } := by
  obtain ⟨hnone, hfree⟩ := hi.loading_frame (v := v) (f := f) (by rw [hd]; rfl)
  have hsame : frameOf s.pte (.install v f : DriverPoint n k) = frameOf s.pte s.driver := by
    funext u
    simp [frameOf, hd, DriverPoint.evicting]
  have hhost : s.hostMem v ≠ none := by
    intro hm
    obtain ⟨g, hg⟩ := h.hosted v hm
    simp [hnone] at hg
  constructor
  case hosted =>
    dsimp only
    rw [hsame]
    exact h.hosted
  case missing =>
    intro hu u g hg _ _
    exact h.missing hu u g (hsame ▸ hg) (by simp [hd, DriverPoint.settling]) (by simp [hd])
  case clean =>
    intro hu u g hg hw hstored
    dsimp only at hg hw hstored ⊢
    rw [hsame] at hg
    have huv : u ≠ v := by
      rintro rfl
      simp [hnone] at hg
    have hgf : g ≠ f := by
      rintro rfl
      exact hfree u hg
    rw [Function.update_of_ne hgf]
    rw [Function.update_of_ne huv] at hstored
    exact h.clean hu u g hg hw hstored
  case loaded =>
    intro u g hu _
    simp only [DriverPoint.install.injEq] at hu
    obtain ⟨rfl, rfl⟩ := hu
    obtain ⟨page, hpage⟩ := Option.ne_none_iff_exists'.mp hhost
    simp [hpage]
  case present => exact h.present
  all_goals simp [DriverPoint.settling, DriverPoint.needsUffd]

theorem install (h : DataInv uffd s) {f : ℕ} (hd : s.driver = .install v f) (hi : Inv s) :
    DataInv uffd (s.makeResident v f .migrated) := by
  obtain ⟨hnone, -⟩ := hi.loading_frame (v := v) (f := f) (by rw [hd]; rfl)
  have hframe : ∀ u g, frameOf (s.makeResident v f .migrated).pte
      (s.makeResident v f .migrated).driver u = some g ↔
        frameOf s.pte s.driver u = some g ∨ u = v ∧ g = f := by
    intro u g
    by_cases huv : u = v
    · subst huv
      rw [hnone]
      simp [frameOf, State.makeResident, State.setPte, Pte.inFrame]
      exact eq_comm
    · simp [frameOf, State.makeResident, State.setPte, DriverPoint.evicting, hd, huv]
  constructor
  case hosted =>
    intro u hu
    obtain ⟨g, hg⟩ := h.hosted u hu
    exact ⟨g, (hframe u g).mpr (.inl hg)⟩
  case missing =>
    intro hu u g hg hset _
    refine h.missing hu u g (((hframe u g).mp hg).resolve_right ?_)
      (by simp [hd, DriverPoint.settling])
      (by simp [hd])
    rintro ⟨rfl, -⟩
    exact hset rfl
  case clean =>
    intro hu u g hg hw hstored
    rcases (hframe u g).mp hg with hold | ⟨rfl, rfl⟩
    · have huv : u ≠ v := by
        rintro rfl
        simp [hnone] at hold
      refine h.clean hu u g hold ?_ hstored
      simpa [State.makeResident, huv] using hw
    · exact h.loaded u g hd hstored
  case settled =>
    intro u hu
    obtain rfl : v = u := hu
    simp [State.makeResident, State.setPte, Pte.inFrame]
  case present => exact h.present
  all_goals simp [State.makeResident, DriverPoint.needsUffd]

theorem madvise (h : DataInv uffd s) (hd : s.driver = .madvise v) :
    DataInv uffd { s with hostMem := Function.update s.hostMem v none, driver := .idle } := by
  obtain rfl := h.needs (by rw [hd]; rfl)
  have hin := h.settled v (by rw [hd]; rfl)
  have hsame : frameOf s.pte (.idle : DriverPoint n k) = frameOf s.pte s.driver := by
    funext u
    simp [frameOf, hd, DriverPoint.evicting]
  refine ⟨?_, ?_, by simp, by simp, by simp, by simp [DriverPoint.settling], by simp, by simp⟩
  · intro u hu
    dsimp only
    rw [hsame]
    by_cases huv : u = v
    · rw [huv]
      exact ⟨_, frameOf_resident hin⟩
    · exact h.hosted u (by simpa [huv] using hu)
  · intro _ u g hg _ _
    by_cases huv : u = v
    · simp [huv]
    · dsimp only
      rw [Function.update_of_ne huv]
      refine h.missing rfl u g (hsame ▸ hg) ?_ (by simp [hd])
      simpa [hd, DriverPoint.settling] using Ne.symm huv

theorem driverStep (h : DataInv uffd s) (hi : Inv s) (hok : dropsPage s a)
    (hs : Paging.driverStep uffd s a = some s') : DataInv uffd s' := by
  cases hm : s.driver.moves with
  | false => exact h.internal hm (driverStep_internal hs hm)
  | true =>
    cases a with
    | driver ok =>
      cases hd : s.driver with
      | publish v old late =>
        simp only [Paging.driverStep, hd] at hs
        cases uffd with
        | true =>
          cases ok <;> simp only [if_true, Bool.false_eq_true, if_false, Option.some.injEq] at hs
          · exact hs ▸ h.publish_fails hd
          · exact hs ▸ h.publish_uffd hd hi
        | false =>
          simp only [Bool.false_eq_true, if_false, Option.some.injEq] at hs
          exact hs ▸ h.publish_off hd hi
      | evicted v f =>
        simp only [Paging.driverStep, hd, Option.some.injEq] at hs
        exact hs ▸ h.returnFrame hd hi
      | restore v f =>
        simp only [Paging.driverStep, hd, Option.some.injEq] at hs
        exact hs ▸ h.restore hd hi
      | copyIn v f =>
        simp only [Paging.driverStep, hd, Option.some.injEq] at hs
        exact hs ▸ h.copyIn hd hi
      | install v f =>
        simp only [Paging.driverStep, hd, Option.some.injEq] at hs
        exact hs ▸ h.install hd hi
      | madvise v =>
        simp only [dropsPage, hd] at hok
        simp only [Paging.driverStep, hd, hok, if_true, Option.some.injEq] at hs
        exact hs ▸ h.madvise hd
      | _ => simp [hd, DriverPoint.moves] at hm
    | clearAccessed | evict | migrate =>
      simp only [Paging.driverStep] at hs
      split at hs <;> try simp only [reduceCtorEq] at hs
      rename_i hd
      simp [hd, DriverPoint.moves] at hm
    | _ => simp [Paging.driverStep] at hs

theorem engineStep (h : DataInv uffd s) (hi : Inv s) (hs : Paging.engineStep s a = some s') :
    DataInv uffd s' := by
  cases a with
  | submit c =>
    simp only [Paging.engineStep] at hs
    split at hs <;> simp only [Option.some.injEq, reduceCtorEq] at hs
    exact hs ▸ ⟨h.hosted, h.missing, h.clean, h.loaded, h.done, h.settled, h.present, h.needs⟩
  | enter e c =>
    simp only [Paging.engineStep, Option.ite_none_right_eq_some, Option.some.injEq] at hs
    exact hs.2 ▸ ⟨h.hosted, h.missing, h.clean, h.loaded, h.done, h.settled, h.present, h.needs⟩
  | translate e v w =>
    simp only [Paging.engineStep, Option.ite_none_right_eq_some, Option.some.injEq] at hs
    exact hs.2 ▸ ⟨h.hosted, h.missing, h.clean, h.loaded, h.done, h.settled, h.present, h.needs⟩
  | leave e =>
    simp only [Paging.engineStep, Option.ite_none_right_eq_some, Option.some.injEq] at hs
    exact hs.2 ▸ ⟨h.hosted, h.missing, h.clean, h.loaded, h.done, h.settled, h.present, h.needs⟩
  | engine e i =>
    simp only [Paging.engineStep] at hs
    split at hs <;> simp only [Option.some.injEq, reduceCtorEq] at hs
    rename_i y pte' hstep
    obtain ⟨hg, -⟩ := Engine.step_ok hi.out (hi.engine e) hstep
    subst hs
    refine ⟨?_, ?_, ?_, h.loaded, h.done, ?_, h.present, h.needs⟩ <;>
      simp only [State.setEngine, hg.frameOf, hg.inVram]
    · exact h.hosted
    · exact h.missing
    · exact h.clean
    · exact h.settled
  | read e v f off =>
    simp only [Paging.engineStep] at hs
    split at hs <;> try simp only [reduceCtorEq] at hs
    split at hs <;> simp only [Option.some.injEq, reduceCtorEq] at hs
    exact hs ▸ ⟨h.hosted, h.missing, h.clean, h.loaded, h.done, h.settled, h.present, h.needs⟩
  | write e v f off byte =>
    simp only [Paging.engineStep, Option.ite_none_right_eq_some, Option.some.injEq] at hs
    obtain ⟨⟨-, hheld⟩, rfl⟩ := hs
    have ht := (hi.engine e).held _ hheld
    have hne : ∀ u g, frameOf s.pte s.driver u = some g → u ≠ v → g ≠ f := by
      rintro u g hg huv rfl
      exact huv (hi.frame_inj hg ht.frame)
    refine ⟨h.hosted, h.missing, ?_, ?_, ?_, h.settled, h.present, h.needs⟩
    · intro hu u g hg hw hstored
      have huv : u ≠ v := by
        rintro rfl
        simp at hw
      dsimp only at hw ⊢
      rw [Function.update_of_ne (hne u g hg huv)]
      rw [Function.update_of_ne huv] at hw
      exact h.clean hu u g hg hw hstored
    · -- The frame that is being filled is not mapped.
      intro u g hd hstored
      have hfree := (hi.loading_frame (v := u) (f := g) (by rw [hd]; rfl)).2 v
      dsimp only
      rw [Function.update_of_ne]
      · exact h.loaded u g hd hstored
      · rintro rfl
        exact hfree ht.frame
    · -- Nobody can write a page that has been published.
      intro u g hd
      dsimp only at hd
      have hev : s.driver.evicting = some (u, g, true) := by rw [hd]; rfl
      have hu := hi.out _ _ _ hev
      have huv : u ≠ v := by
        rintro rfl
        rcases ht.alive with hv | hm
        · simp [hu] at hv
        · simp [hd, DriverPoint.mayHold] at hm
      obtain ⟨hne', hdone⟩ := h.done u g hd
      refine ⟨hne', fun hstored => ?_⟩
      dsimp only
      rw [Function.update_of_ne (hne u g (frameOf_evicting hev hu) huv)]
      exact hdone hstored
  | _ => simp [Paging.engineStep] at hs

theorem hostStep (h : DataInv uffd s) (hs : Paging.hostStep s a = some s') : DataInv uffd s' := by
  cases a with
  | hostLoad v off =>
    simp only [Paging.hostStep] at hs
    split at hs <;> simp only [Option.some.injEq, reduceCtorEq] at hs
    exact hs ▸ ⟨h.hosted, h.missing, h.clean, h.loaded, h.done, h.settled, h.present, h.needs⟩
  | hostStore v off byte =>
    simp only [Paging.hostStep] at hs
    split at hs <;> simp only [Option.some.injEq, reduceCtorEq] at hs
    rename_i page hpage
    subst hs
    have hother : ∀ u, Function.update s.hostStored v true u = false →
        u ≠ v ∧ s.hostStored u = false := by
      intro u hu
      by_cases huv : u = v
      · simp [huv] at hu
      · exact ⟨huv, by simpa [huv] using hu⟩
    have hnone : ∀ u x, Function.update s.hostMem v (some x) u = none ↔ s.hostMem u = none := by
      intro u x
      by_cases huv : u = v
      · simp [huv, hpage]
      · rw [Function.update_of_ne huv]
    refine ⟨?_, ?_, ?_, ?_, ?_, h.settled, ?_, h.needs⟩
    · intro u hu
      exact h.hosted u ((hnone u _).mp hu)
    · intro hu u f hf hset hd
      exact (hnone u _).mpr (h.missing hu u f hf hset hd)
    · intro hu u f hf hw hstored
      obtain ⟨huv, hstored⟩ := hother u hstored
      dsimp only
      rw [Function.update_of_ne huv]
      exact h.clean hu u f hf hw hstored
    · intro u f hd hstored
      obtain ⟨huv, hstored⟩ := hother u hstored
      dsimp only
      rw [Function.update_of_ne huv]
      exact h.loaded u f hd hstored
    · intro u f hd
      obtain ⟨hne, hdone⟩ := h.done u f hd
      refine ⟨fun hu => hne ((hnone u _).mp hu), fun hstored => ?_⟩
      obtain ⟨huv, hstored⟩ := hother u hstored
      dsimp only
      rw [Function.update_of_ne huv]
      exact hdone hstored
    · intro hu u hn
      exact h.present hu u ((hnone u _).mp hn)
  | _ => simp [Paging.hostStep] at hs

end DataInv

theorem reach_data (h : Reach (step uffd) dropsPage (init n k) s) : DataInv uffd s := by
  refine h.invariant_of (fun _ hr => reach_inv hr) (data_init uffd) fun s a t hi hd hok hs => ?_
  rcases step_cases hs with hs | hs | hs
  · exact hd.engineStep hi hs
  · exact hd.driverStep hi hok hs
  · exact hd.hostStep hs

/-! ### The eviction protocol -/

/-- In every run: an engine reads and writes a frame through a page only while
the frame is assigned to that page; when `end_evict` has returned, every write
through the page since it was last made resident has left a dirty bit in the old
entry or in the late bits; and, if `MADV_DONTNEED` drops pages, a page that has
been published and not stored to since it was copied in has its frame's bytes in
its host page. -/
theorem eviction_safe (uffd : Bool) (s : State n k) (h : Reach (step uffd) anyStep (init n k) s) :
    (∀ e v f off, (∃ t, step uffd s (.read e v f off) = some t) → s.owner f = some v) ∧
    (∀ e v f off byte, (∃ t, step uffd s (.write e v f off byte) = some t) →
      s.owner f = some v) ∧
    (∀ v old late, s.driver = .publish v old late → s.wrote v = true →
      (old.dirty || late) = true) ∧
    (Reach (step uffd) dropsPage (init n k) s → ∀ v f, s.driver = .evicted v f →
      s.hostStored v = false → s.hostMem v = some (s.frames f)) := by
  have hi := reach_inv h
  have howner : ∀ e v f w, (v, f, w) ∈ (s.engines e).held → s.owner f = some v := by
    intro e v f w hheld
    exact hi.owner v f ((hi.engine e).held _ hheld).frame
  refine ⟨?_, ?_, ?_, fun hr v f hd => ((reach_data hr).done v f hd).2⟩
  · rintro e v f off ⟨t, ht⟩
    rcases step_cases ht with hs | hs | hs
    · simp only [engineStep] at hs
      split at hs <;> try simp only [reduceCtorEq] at hs
      rename_i hx
      rcases hx.2 with hx | hx
      · exact howner e v f true hx
      · exact howner e v f false hx
    · simp [driverStep] at hs
    · simp [hostStep] at hs
  · rintro e v f off byte ⟨t, ht⟩
    rcases step_cases ht with hs | hs | hs
    · simp only [engineStep, Option.ite_none_right_eq_some] at hs
      exact howner e v f true hs.1.2
    · simp [driverStep] at hs
    · simp [hostStep] at hs
  · intro v old late hd hw
    have hev : s.driver.evicting = some (v, old.pfn, old.dirty || late) := by rw [hd]; rfl
    rcases hi.wrote v _ (frameOf_evicting hev (hi.out _ _ _ hev)) hw with ⟨hp, -⟩ | ⟨f, hf⟩
    · exact absurd (show s.driver.publishing v by rw [hd]; exact rfl) hp
    · simp only [hev, Option.some.injEq, Prod.mk.injEq] at hf
      exact hf.2.2

/-- Page 3 comes into frame 5, an engine writes it, and it is evicted while the
engine is still in its command. -/
def evictionRun : List (Action 1 1) :=
  [.submit 0, .migrate 3 5, .driver true, .driver true, .driver true, .driver true, .driver true,
    .driver true, .enter 0 0, .translate 0 3 true] ++
  List.replicate 11 (.engine 0 (some 0)) ++
  [.write 0 3 5 ⟨0, pageSize_pos⟩ 7, .evict 3, .driver true, .driver true,
    .driver true, .driver true,
    .driver true, .leave 0, .driver true, .driver true, .driver true, .driver true]

theorem eviction_safe_written :
    ∃ s, exec (when dropsPage (step true)) (init 1 1) evictionRun = some s ∧
      s.driver = .evicted 3 5 ∧ s.hostMem 3 = some (s.frames 5) ∧
      (s.frames 5 ⟨0, by decide⟩).byte = 7 := by
  have hrun : (exec (when dropsPage (step true)) (init 1 1) evictionRun).map
      (fun s => (decide (s.driver = .evicted 3 5), s.hostStored 3,
        (s.frames 5 ⟨0, by decide⟩).byte)) =
      some (true, false, 7) := by decide
  obtain ⟨s, hs, hq⟩ := Option.map_eq_some_iff.mp hrun
  simp only [Prod.mk.injEq, decide_eq_true_eq] at hq
  have hr : Reach (step true) dropsPage (init 1 1) s := .of_exec_when .refl hs
  obtain ⟨-, -, -, hdone⟩ := eviction_safe true s hr.any
  exact ⟨s, hs, hq.1, hdone hr 3 5 hq.1 hq.2.1, hq.2.2⟩

end SoftGpu.Paging
