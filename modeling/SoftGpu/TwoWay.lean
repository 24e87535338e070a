import SoftGpu.Eviction

/-!
# Two-way coherence of managed memory

With userfaultfd the host page is dropped once the page is in VRAM, so there is
one copy of each byte, except between `copy_in` and `madvise`: the frame has its
bytes and the host page is still writable. A store that lands there is dropped
with the host page. Without such a store every copy of a byte that no command
has written comes from the host's last store to it.
-/

namespace SoftGpu.Paging
open Machine

variable {n k : ℕ} {s s' t : State n k} {a : Action n k} {v : ℕ} {off : Fin pageSize}

def DriverPoint.copying (d : DriverPoint n k) (v : ℕ) : Bool :=
  match d with
  | .install u _ | .bump u .migrated | .shoot u .migrated _ | .clear u .migrated _ _ | .madvise u =>
    u = v
  | _ => false

def noStoreWhileCopying (s : State n k) : Action n k → Prop
  | .hostStore v _ _ => s.driver.copying v = false
  | a => dropsPage s a

instance (s : State n k) (a : Action n k) : Decidable (noStoreWhileCopying s a) :=
  match a with
  | .hostStore _ _ _ => inferInstanceAs (Decidable (_ = _))
  | .driver ok => inferInstanceAs (Decidable (dropsPage s (.driver ok)))
  | .submit _ | .enter .. | .translate .. | .engine .. | .read .. | .write .. | .leave _
  | .clearAccessed _ | .evict _ | .migrate .. | .hostLoad .. => .isTrue trivial

theorem noStoreWhileCopying_dropsPage (h : noStoreWhileCopying s a) : dropsPage s a := by
  cases a <;> first | exact h | trivial

theorem copying_of_settling (h : s.driver.settling v) : s.driver.copying v = true := by
  unfold DriverPoint.settling at h
  split at h <;> simp_all [DriverPoint.copying]

structure Current (s : State n k) : Prop where
  host : ∀ v off page, s.deviceWrote v off = false → s.hostMem v = some page →
    (page off).stamp = s.stores v off
  frame : ∀ v off f, s.deviceWrote v off = false → frameOf s.pte s.driver v = some f →
    s.driver ≠ .evicted v f → (s.frames f off).stamp = s.stores v off
  loaded : ∀ v off f, s.deviceWrote v off = false → s.driver = .install v f →
    (s.frames f off).stamp = s.stores v off
  submitted : ∀ c at₀, s.submitted c = some at₀ → ∀ v off, at₀ v off ≤ s.stores v off
  reads : ∀ p ∈ s.reads, p.1 ≤ p.2
  loads : ∀ p ∈ s.loads, p.1 = p.2

theorem current_init : Current (init n k) where
  host := by
    simp only [init, Option.some.injEq]
    rintro v off page - rfl
    rfl
  frame := by simp [init, frameOf, Pte.hostResident, DriverPoint.evicting]
  loaded := by simp [init]
  submitted := by simp [init]
  reads := by simp [init]
  loads := by simp [init]

namespace Current

theorem internal (h : Current s) (hm : s.driver.moves = false) (hi : Internal true s t) :
    Current t where
  host := by
    rw [hi.deviceWrote, hi.hostMem, hi.stores]
    exact h.host
  frame := by
    rw [hi.deviceWrote, hi.frame, hi.frames, hi.stores]
    refine fun v off f hw hf _ => h.frame v off f hw hf fun hd => ?_
    simp [hd, DriverPoint.moves] at hm
  loaded := fun v off f _ hd => absurd hd (hi.install v f)
  submitted := by
    rw [hi.submitted, hi.stores]
    exact h.submitted
  reads := hi.reads ▸ h.reads
  loads := hi.loads ▸ h.loads

theorem keep (h : Current s) (hframe : ∀ v f, frameOf t.pte t.driver v = some f →
      t.driver ≠ .evicted v f → frameOf s.pte s.driver v = some f ∧ s.driver ≠ .evicted v f)
    (hload : ∀ v f, t.driver ≠ .install v f) (hhost : ∀ v page, t.hostMem v = some page →
      s.hostMem v = some page ∨ ∃ f, frameOf s.pte s.driver v = some f ∧
        s.driver ≠ .evicted v f ∧ page = s.frames f)
    (hframes : t.frames = s.frames) (hdw : t.deviceWrote = s.deviceWrote)
    (hstores : t.stores = s.stores) (hsub : t.submitted = s.submitted) (hreads : t.reads = s.reads)
    (hloads : t.loads = s.loads) : Current t where
  host := by
    rw [hdw, hstores]
    intro v off page hw hp
    rcases hhost v page hp with hp | ⟨f, hf, hne, rfl⟩
    · exact h.host v off page hw hp
    · exact h.frame v off f hw hf hne
  frame := by
    rw [hdw, hstores, hframes]
    intro v off f hw hf hne
    obtain ⟨hf, hne⟩ := hframe v f hf hne
    exact h.frame v off f hw hf hne
  loaded := fun v off f _ hd => absurd hd (hload v f)
  submitted := by
    rw [hsub, hstores]
    exact h.submitted
  reads := hreads ▸ h.reads
  loads := hloads ▸ h.loads

theorem copyIn (h : Current s) (hdata : DataInv true s) (hi : Inv s) {f : ℕ}
    (hd : s.driver = .copyIn v f) :
    Current { s with
      frames := Function.update s.frames f ((s.hostMem v).getD .zero)
      hostStored := Function.update s.hostStored v false
      driver := .install v f } := by
  obtain ⟨hnone, hfree⟩ := hi.loading_frame (v := v) (f := f) (by rw [hd]; rfl)
  have hsame : frameOf s.pte (.install v f : DriverPoint n k) = frameOf s.pte s.driver := by
    funext u
    simp [frameOf, hd, DriverPoint.evicting]
  refine ⟨h.host, fun u off g hw hg _ => ?_, fun u off g hw hu => ?_, h.submitted, h.reads, h.loads⟩
  · dsimp only at hg ⊢
    rw [hsame] at hg
    have hgf : g ≠ f := by
      rintro rfl
      exact hfree u hg
    rw [Function.update_of_ne hgf]
    exact h.frame u off g hw hg (by simp [hd])
  · simp only [DriverPoint.install.injEq] at hu
    obtain ⟨rfl, rfl⟩ := hu
    cases hp : s.hostMem v with
    | none =>
      obtain ⟨g, hg⟩ := hdata.hosted v hp
      simp [hnone] at hg
    | some page =>
      simp only [Option.getD_some, Function.update_self]
      exact h.host v off page hw hp

theorem driverStep (h : Current s) (hdata : DataInv true s) (hi : Inv s) (hok : dropsPage s a)
    (hs : Paging.driverStep true s a = some s') : Current s' := by
  cases hm : s.driver.moves with
  | false => exact h.internal hm (driverStep_internal hs hm)
  | true =>
    cases a with
    | driver ok =>
      cases hd : s.driver with
      | publish v old late =>
        have hev : s.driver.evicting = some (v, old.pfn, old.dirty || late) := by rw [hd]; rfl
        have hframe := frameOf_evicting hev (hi.out _ _ _ hev)
        simp only [Paging.driverStep, hd, if_true] at hs
        split_ifs at hs <;> rw [Option.some.injEq] at hs <;> subst hs
        · refine h.keep (fun u f hf hne => ⟨?_, by simp [hd]⟩) (by simp)
            (fun u page hp => ?_) rfl rfl
            rfl rfl rfl rfl
          · simpa [frameOf, hd, DriverPoint.evicting] using hf
          · by_cases huv : u = v
            · subst huv
              simp only [Function.update_self, Option.some.injEq] at hp
              cases hm : s.hostMem u with
              | none => exact .inr ⟨_, hframe, by simp [hd], by simpa [hm] using hp.symm⟩
              | some q => exact .inl (by simpa [hm] using hp)
            · exact .inl (by simpa [huv] using hp)
        · refine h.keep (fun u f hf hne => ⟨?_, by simp [hd]⟩) (by simp)
            (fun u page => .inl) rfl rfl
            rfl rfl rfl rfl
          simpa [frameOf, hd, DriverPoint.evicting] using hf
      | evicted v f =>
        simp only [Paging.driverStep, hd, Option.some.injEq] at hs
        subst hs
        refine h.keep (fun u g hg _ => ?_) (by simp) (fun u page => .inl) rfl rfl rfl rfl rfl rfl
        have hv := hi.out v f true (by rw [hd]; rfl)
        simp only [frameOf, DriverPoint.evicting] at hg
        split_ifs at hg with hu
        refine ⟨by simpa [frameOf, hu] using hg, ?_⟩
        rw [hd]
        rintro heq
        simp only [DriverPoint.evicted.injEq] at heq
        rw [← heq.1, hv] at hu
        simp at hu
      | restore v f =>
        simp only [Paging.driverStep, hd, Option.some.injEq] at hs
        subst hs
        have hev : s.driver.evicting = some (v, f, true) := by rw [hd]; rfl
        refine h.keep (fun u g hg _ => ⟨?_, by simp [hd]⟩) (by simp [State.makeResident])
          (fun u page => .inl) rfl rfl rfl rfl rfl rfl
        by_cases huv : u = v
        · subst huv
          rw [frameOf_evicting hev (hi.out _ _ _ hev)]
          simpa [frameOf, State.makeResident, State.setPte, Pte.inFrame] using hg
        · simpa [frameOf, State.makeResident, State.setPte, DriverPoint.evicting, hd, huv,
            Ne.symm huv] using hg
      | copyIn v f =>
        simp only [Paging.driverStep, hd, Option.some.injEq] at hs
        exact hs ▸ h.copyIn hdata hi hd
      | install v f =>
        simp only [Paging.driverStep, hd, Option.some.injEq] at hs
        subst hs
        refine ⟨h.host, fun u off g hw hg _ => ?_, by
          simp [State.makeResident], h.submitted, h.reads,
          h.loads⟩
        by_cases huv : u = v
        · subst huv
          obtain rfl : f = g := by
            simpa [frameOf, State.makeResident, State.setPte, Pte.inFrame] using hg
          exact h.loaded u off f hw hd
        · refine h.frame u off g hw ?_ (by simp [hd])
          simpa [frameOf, State.makeResident, State.setPte, DriverPoint.evicting, hd, huv] using hg
      | madvise v =>
        simp only [dropsPage, hd] at hok
        simp only [Paging.driverStep, hd, hok, if_true, Option.some.injEq] at hs
        subst hs
        refine h.keep (fun u f hf _ => ⟨?_, by simp [hd]⟩) (by simp)
          (fun u page hp => .inl ?_) rfl rfl
          rfl rfl rfl rfl
        · simpa [frameOf, hd, DriverPoint.evicting] using hf
        · by_cases huv : u = v
          · simp [huv] at hp
          · simpa [huv] using hp
      | _ => simp [hd, DriverPoint.moves] at hm
    | clearAccessed | evict | migrate =>
      simp only [Paging.driverStep] at hs
      split at hs <;> try simp only [reduceCtorEq] at hs
      rename_i hd
      simp [hd, DriverPoint.moves] at hm
    | _ => simp [Paging.driverStep] at hs

theorem read_frame (h : Current s) (hi : Inv s) {e : Fin n} {f : ℕ} {w : Bool}
    (hheld : (v, f, w) ∈ (s.engines e).held) (hw : s.deviceWrote v off = false) :
    (s.frames f off).stamp = s.stores v off := by
  have ht := (hi.engine e).held _ hheld
  refine h.frame v off f hw ht.frame fun hd => ?_
  have hout := hi.out v f true (by rw [hd]; rfl)
  rcases ht.alive with hv | hm
  · simp [hout] at hv
  · simp [hd, DriverPoint.mayHold] at hm

theorem engineStep (h : Current s) (hi : Inv s) (hs : Paging.engineStep s a = some s') :
    Current s' := by
  cases a with
  | submit c =>
    simp only [Paging.engineStep] at hs
    split at hs <;> simp only [Option.some.injEq, reduceCtorEq] at hs
    subst hs
    refine ⟨h.host, h.frame, h.loaded, fun j at₀ hj u off => ?_, h.reads, h.loads⟩
    by_cases hjc : j = c
    · obtain rfl : s.stores = at₀ := by simpa [hjc] using hj
      exact le_rfl
    · exact h.submitted j at₀ (by simpa [hjc] using hj) u off
  | enter e c =>
    simp only [Paging.engineStep, Option.ite_none_right_eq_some, Option.some.injEq] at hs
    exact hs.2 ▸ ⟨h.host, h.frame, h.loaded, h.submitted, h.reads, h.loads⟩
  | translate e v w =>
    simp only [Paging.engineStep, Option.ite_none_right_eq_some, Option.some.injEq] at hs
    exact hs.2 ▸ ⟨h.host, h.frame, h.loaded, h.submitted, h.reads, h.loads⟩
  | leave e =>
    simp only [Paging.engineStep, Option.ite_none_right_eq_some, Option.some.injEq] at hs
    exact hs.2 ▸ ⟨h.host, h.frame, h.loaded, h.submitted, h.reads, h.loads⟩
  | engine e i =>
    simp only [Paging.engineStep] at hs
    split at hs <;> simp only [Option.some.injEq, reduceCtorEq] at hs
    rename_i y pte' hstep
    obtain ⟨hg, -⟩ := Engine.step_ok hi.out (hi.engine e) hstep
    subst hs
    refine ⟨h.host, ?_, h.loaded, h.submitted, h.reads, h.loads⟩
    simp only [State.setEngine, hg.frameOf]
    exact h.frame
  | read e v f off =>
    simp only [Paging.engineStep] at hs
    split at hs <;> try simp only [reduceCtorEq] at hs
    rename_i hheld
    split at hs <;> simp only [Option.some.injEq, reduceCtorEq] at hs
    rename_i at₀ hsub
    subst hs
    refine ⟨h.host, h.frame, h.loaded, h.submitted, fun p hp => ?_, h.loads⟩
    dsimp only at hp
    split_ifs at hp with hw
    · exact h.reads p hp
    · rcases List.mem_append.mp hp with hp | hp
      · exact h.reads p hp
      · have hstamp : (s.frames f off).stamp = s.stores v off := by
          rcases hheld.2 with hx | hx
          · exact h.read_frame hi hx (by simpa using hw)
          · exact h.read_frame hi hx (by simpa using hw)
        rw [List.mem_singleton.mp hp, hstamp]
        exact h.submitted _ at₀ hsub v off
  | write e v f off byte =>
    simp only [Paging.engineStep, Option.ite_none_right_eq_some, Option.some.injEq] at hs
    obtain ⟨⟨-, hheld⟩, rfl⟩ := hs
    have ht := (hi.engine e).held _ hheld
    -- The bytes that count are the others.
    have hother : ∀ u o,
        Function.update s.deviceWrote v (Function.update (s.deviceWrote v) off true) u o =
        false → s.deviceWrote u o = false ∧ (u = v → o ≠ off) := by
      intro u o hu
      by_cases huv : u = v
      · subst huv
        by_cases ho : o = off
        · simp [ho] at hu
        · exact ⟨by simpa [ho] using hu, fun _ => ho⟩
      · exact ⟨by simpa [huv] using hu, fun heq => absurd heq huv⟩
    have hframe : ∀ u o g, (u = v → o ≠ off) → (g = f → u = v) →
        Function.update s.frames f (Function.update (s.frames f) off ⟨byte, 0⟩) g o =
          s.frames g o := by
      intro u o g ho hg
      by_cases hgf : g = f
      · subst hgf
        simp [ho (hg rfl)]
      · rw [Function.update_of_ne hgf]
    refine ⟨?_, ?_, ?_, h.submitted, h.reads, h.loads⟩
    · intro u o page hw
      exact h.host u o page (hother u o hw).1
    · intro u o g hw hg hne
      obtain ⟨hw, ho⟩ := hother u o hw
      dsimp only
      rw [hframe u o g ho]
      · exact h.frame u o g hw hg hne
      · rintro rfl
        exact hi.frame_inj hg ht.frame
    · intro u o g hw hd
      obtain ⟨hw, ho⟩ := hother u o hw
      have hfree := (hi.loading_frame (v := u) (f := g) (by rw [hd]; rfl)).2 v
      dsimp only
      rw [hframe u o g ho]
      · exact h.loaded u o g hw hd
      · rintro rfl
        exact absurd ht.frame hfree
  | _ => simp [Paging.engineStep] at hs

theorem hostStep (h : Current s) (hdata : DataInv true s) (hok : noStoreWhileCopying s a)
    (hs : Paging.hostStep s a = some s') : Current s' := by
  cases a with
  | hostLoad v off =>
    simp only [Paging.hostStep] at hs
    split at hs <;> simp only [Option.some.injEq, reduceCtorEq] at hs
    rename_i page hpage
    subst hs
    refine ⟨h.host, h.frame, h.loaded, h.submitted, h.reads, fun p hp => ?_⟩
    dsimp only at hp
    split_ifs at hp with hw
    · exact h.loads p hp
    · rcases List.mem_append.mp hp with hp | hp
      · exact h.loads p hp
      · rw [List.mem_singleton.mp hp]
        exact (h.host v off page (by simpa using hw) hpage).symm
  | hostStore v off byte =>
    simp only [Paging.hostStep] at hs
    split at hs <;> simp only [Option.some.injEq, reduceCtorEq] at hs
    rename_i page hpage
    subst hs
    simp only [noStoreWhileCopying] at hok
    have hstores : ∀ u o, u ≠ v → Function.update s.stores v
        (Function.update (s.stores v) off (s.stores v off + 1)) u o = s.stores u o := by
      intro u o huv
      rw [Function.update_of_ne huv]
    refine ⟨?_, ?_, ?_, ?_, h.reads, h.loads⟩
    · intro u o q hw hq
      by_cases huv : u = v
      · subst huv
        obtain rfl : Function.update page off ⟨byte, s.stores u off + 1⟩ = q := by simpa using hq
        by_cases ho : o = off
        · simp [ho]
        · simpa [ho] using h.host u o page hw hpage
      · dsimp only
        rw [hstores u o huv]
        exact h.host u o q hw (by simpa [huv] using hq)
    · -- A page with a frame and a host page is one that is being copied in.
      intro u o f hw hf hne
      have huv : u ≠ v := by
        rintro rfl
        by_cases hset : s.driver.settling u
        · simp [copying_of_settling hset] at hok
        · simp [hdata.missing rfl u f hf hset hne] at hpage
      dsimp only
      rw [hstores u o huv]
      exact h.frame u o f hw hf hne
    · intro u o f hw hd
      have huv : u ≠ v := by
        rintro rfl
        simp only at hd
        simp [hd, DriverPoint.copying] at hok
      dsimp only
      rw [hstores u o huv]
      exact h.loaded u o f hw hd
    · intro c at₀ hc u o
      have hle := h.submitted c at₀ hc u o
      by_cases huv : u = v
      · subst huv
        by_cases ho : o = off
        · subst ho
          simp
          omega
        · simpa [ho] using hle
      · dsimp only
        rw [hstores u o huv]
        exact hle
  | _ => simp [Paging.hostStep] at hs

end Current

/-- With userfaultfd, in a run with no host store to a page between its `copy_in`
and its `madvise`: every host load and every device read of a byte that no
command has written sees the host stores before the load, or before the
submission of the command, and the last store to such a byte is in the host page
or in the frame of its page. -/
theorem two_way_coherent (s : State n k)
    (h : Reach (step true) noStoreWhileCopying (init n k) s) :
    (∀ p ∈ s.loads, p.1 = p.2) ∧ (∀ p ∈ s.reads, p.1 ≤ p.2) ∧
    ∀ v off, s.deviceWrote v off = false →
      (∃ page, s.hostMem v = some page ∧ (page off).stamp = s.stores v off) ∨
      ∃ f, s.owner f = some v ∧ (s.frames f off).stamp = s.stores v off := by
  have hdata : ∀ u, Reach (step true) noStoreWhileCopying (init n k) u → Inv u ∧ DataInv true u :=
    fun u hr => ⟨reach_inv hr, reach_data (hr.mono fun _ _ => noStoreWhileCopying_dropsPage)⟩
  have hc : Current s := by
    refine h.invariant_of hdata current_init fun u a t hu hc hok hs => ?_
    rcases step_cases hs with hs | hs | hs
    · exact hc.engineStep hu.1 hs
    · exact hc.driverStep hu.2 hu.1 (noStoreWhileCopying_dropsPage hok) hs
    · exact hc.hostStep hu.2 hok hs
  obtain ⟨hi, hd⟩ := hdata s h
  refine ⟨hc.loads, hc.reads, fun v off hw => ?_⟩
  cases hp : s.hostMem v with
  | some page => exact .inl ⟨page, rfl, hc.host v off page hw hp⟩
  | none =>
    obtain ⟨f, hf⟩ := hd.hosted v hp
    refine .inr ⟨f, hi.owner v f hf, hc.frame v off f hw hf fun hev => ?_⟩
    exact (hd.done v f hev).1 hp

/-- The host stores to page 3, which then goes into frame 5, is read by an engine
and comes back, and the host loads the byte. With `late` the store lands between
`copy_in` and `make_resident`. -/
def pingPongRun (late : Bool) : List (Action 1 1) :=
  let store : Action 1 1 := .hostStore 3 ⟨0, pageSize_pos⟩ 7
  (if late then [.migrate 3 5, .driver true, store] else [store, .migrate 3 5, .driver true]) ++
  [.submit 0, .driver true, .driver true, .driver true, .driver true, .driver true, .enter 0 0,
    .translate 0 3 false] ++
  List.replicate 10 (.engine 0 (some 0)) ++
  [.read 0 3 5 ⟨0, pageSize_pos⟩, .leave 0, .evict 3] ++ List.replicate 8 (.driver true) ++
  [.hostLoad 3 ⟨0, pageSize_pos⟩]

theorem two_way_coherent_pingPong :
    ∃ s, exec (when noStoreWhileCopying (step true)) (init 1 1) (pingPongRun false) = some s ∧
      s.loads = [(1, 1)] ∧ s.reads = [(1, 1)] ∧ ∀ p ∈ s.loads, p.1 = p.2 := by
  have hrun : (exec (when noStoreWhileCopying (step true)) (init 1 1) (pingPongRun false)).map
      (fun s => (s.loads, s.reads)) = some ([(1, 1)], [(1, 1)]) := by decide
  obtain ⟨s, hs, hq⟩ := Option.map_eq_some_iff.mp hrun
  simp only [Prod.mk.injEq] at hq
  exact ⟨s, hs, hq.1, hq.2, (two_way_coherent s (.of_exec_when .refl hs)).1⟩

/-- The late store is lost: neither the device nor the host sees it. -/
theorem late_store_lost :
    ∃ s, Reach (step true) dropsPage (init 1 1) s ∧ s.loads = [(1, 0)] ∧ s.reads = [(1, 0)] := by
  have hrun : (exec (when dropsPage (step true)) (init 1 1) (pingPongRun true)).map
      (fun s => (s.loads, s.reads)) = some ([(1, 0)], [(1, 0)]) := by decide
  obtain ⟨s, hs, hq⟩ := Option.map_eq_some_iff.mp hrun
  simp only [Prod.mk.injEq] at hq
  exact ⟨s, .of_exec_when .refl hs, hq.1, hq.2⟩

end SoftGpu.Paging
