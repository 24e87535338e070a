import SoftGpu.DriverSteps

/-!
# What a released allocation still has

An allocation that is released and not recycled keeps its pages and its host backing,
its frames are on no free list and under no other page, and it overlaps nothing that
`SG_IOC_ALLOC` or `SG_IOC_ALLOC_MANAGED` has given out since.
-/

namespace SoftGpu.Driver
open VramAllocator

variable {t : Tally} {s : State} {q r : Region}

def State.entered (s : State) : List Region :=
  s.allocs.entries.map fun e => ⟨e.1, e.2.size, e.2.host⟩

def State.handedOut (s : State) : List Region :=
  s.entered ++ ((s.holder.loose.map fun b => ⟨b.1, b.2, 0⟩) ++ s.holder.fresh)

def State.parked (s : State) : List Region := (s.pending ++ s.holder.parked).map Pending.item

structure Held (s : State) (r : Region) : Prop where
  mapped : ∀ v, r.contains (v * pageSize) → (s.mem.mmu.pte v).present = true
  ident : r.host = 0 → ∀ v, r.contains (v * pageSize) →
    (s.mem.mmu.pte v).inVram = true ∧ (s.mem.mmu.pte v).pa = v * pageSize
  backing : r.host ≠ 0 → ∀ v, r.contains (v * pageSize) →
    s.mem.mmu.host v = r.host + (v * pageSize - r.addr)
  taken : ∀ v, r.contains (v * pageSize) → (s.mem.mmu.pte v).inVram = true → ∀ x,
    (s.mem.mmu.pte v).pa ≤ x → x < (s.mem.mmu.pte v).pa + pageSize →
      coverage s.mem.vram.free.entries x = 0 ∧ coverage s.holder.loose x = 0
  alone : ∀ v w, r.contains (v * pageSize) → (s.mem.mmu.pte v).inVram = true →
    (s.mem.mmu.pte w).inVram = true → (s.mem.mmu.pte w).pa = (s.mem.mmu.pte v).pa → w = v
  apart : ∀ q ∈ s.handedOut, 0 < q.size → q.addr + q.size ≤ r.addr ∨ r.addr + r.size ≤ q.addr
  hostApart : r.host ≠ 0 → ∀ q ∈ s.handedOut, q.host ≠ 0 →
    q.host + q.size ≤ r.host ∨ r.host + r.size ≤ q.host

namespace Owned

end Owned

theorem mem_items_of_parked (hr : r ∈ s.parked) : r ∈ s.items := List.mem_append_right _ hr

theorem mem_items_of_entered (hq : q ∈ s.entered) : q ∈ s.items := List.mem_append_left _ hq

theorem blocksOf_items (s : State) : blocksOf s.items = blocksOf s.entered ++ blocksOf s.parked :=
  List.filterMap_append

namespace Owned

end Owned

/-! ### The managed VA space -/

structure VaTiled (s : State) : Prop where
  wf : s.managedVa.WF vramBytes (vaBytes - vramBytes)
  align : s.managedVa.align = pageSize
  live : s.managedVa.live.entries.Perm
    ((s.holder.fresh ++ regionsOf s.items).map fun r => (r.addr, r.size))

variable {cfg : Config} {s' : State} {a : Action}

theorem vaTiled_init (cfg : Config) : VaTiled (init cfg) where
  wf := wf_new pageSize_pos (by decide) (by decide) (by decide)
  align := rfl
  live := .refl _

namespace VaTiled

theorem handOver (h : VaTiled s) (hva : s'.managedVa = s.managedVa)
    (hperm : (s'.holder.fresh ++ regionsOf s'.items).Perm (s.holder.fresh ++ regionsOf s.items)) :
    VaTiled s' where
  wf := hva ▸ h.wf
  align := hva ▸ h.align
  live := by
    rw [hva]
    exact h.live.trans (hperm.map _).symm

theorem recycle (h : VaTiled s) {p : Pending} {l : List Region} (hfresh : s.holder.fresh = [])
    (hitems : s.items.Perm (p.item :: l)) (hva : s'.managedVa = (s.recycle p).managedVa)
    (hfresh' : s'.holder.fresh = []) (hitems' : s'.items.Perm l) : VaTiled s' := by
  have hperm := regionsOf_perm hitems
  by_cases hhost : p.host = 0
  · refine h.handOver (hva.trans (by rw [State.recycle, if_pos hhost])) ?_
    rw [hfresh, hfresh', List.nil_append, List.nil_append]
    simp only [regionsOf, Pending.item, List.filter_cons, hhost, ne_eq, not_true_eq_false,
      decide_false, Bool.false_eq_true, if_false] at hperm
    exact (regionsOf_perm hitems').trans hperm.symm
  · have hreg : regionsOf (p.item :: l) = p.item :: regionsOf l :=
      List.filter_cons_of_pos (by simp [Pending.item, hhost])
    have hlive := h.live
    rw [hfresh, List.nil_append] at hlive
    rw [hreg] at hperm
    have hlive' := hlive.trans (hperm.map fun r : Region => (r.addr, r.size))
    obtain ⟨hwf, halign, hfree⟩ :=
      freeAddr_wf h.wf (hlive'.mem_iff.mpr (List.mem_cons_self ..))
    have hva' : s'.managedVa = s.managedVa.freeAddr p.addr := by
      rw [hva, State.recycle, if_neg hhost]
    refine ⟨hva' ▸ hwf, hva' ▸ halign.trans h.align, ?_⟩
    rw [hva', hfresh', List.nil_append]
    exact (hfree.symm.trans hlive').cons_inv.trans ((regionsOf_perm hitems').map _).symm

theorem shuffle (h : VaTiled s) (hva : s'.managedVa = s.managedVa) (hallocs : s'.allocs = s.allocs)
    (hfresh : s'.holder.fresh = s.holder.fresh) (hpark : s'.parked.Perm s.parked) : VaTiled s' := by
  refine h.handOver hva ?_
  rw [hfresh]
  refine (regionsOf_perm ?_).append_left _
  have hitems : ∀ s : State, s.items = s.entered ++ s.parked := fun _ => rfl
  rw [hitems, hitems, State.entered, State.entered, hallocs]
  exact hpark.append_left _

theorem mapManaged (h : VaTiled s) {host : Option ℕ}
    (hs : holderStep cfg s (.mapManaged host) = some s') :
    VaTiled s' := by
  simp only [holderStep] at hs
  split at hs <;> try simp only [reduceCtorEq] at hs
  next size tries hh =>
  have hstay : ∀ va holder, va.WF vramBytes (vaBytes - vramBytes) → va.align = pageSize →
      va.live.entries.Perm s.managedVa.live.entries → holder.fresh = [] → holder.parked = [] →
      VaTiled { s with managedVa := va, holder := holder } := by
    intro va holder hwf halign hlive hfresh hpark
    have hfresh₀ : s.holder.fresh = [] := by rw [hh]; rfl
    have hpark₀ : s.holder.parked = [] := by rw [hh]; rfl
    refine ⟨hwf, halign, hlive.trans (h.live.trans ?_)⟩
    simp only [State.items, hfresh, hpark, hfresh₀, hpark₀]
    exact .refl _
  split at hs
  · split at hs
    · cases hs
      exact hstay _ _ h.wf h.align (.refl _) rfl rfl
    · cases hs
      exact hstay _ _ h.wf h.align (.refl _) rfl rfl
  · next addr va halloc =>
    obtain ⟨hwf, halign, hlive⟩ := alloc_then_free h.wf halloc
    split at hs
    · cases hs
      exact hstay _ _ hwf (halign.trans h.align) hlive rfl rfl
    · split_ifs at hs
      split at hs
      · cases hs
        exact hstay _ _ hwf (halign.trans h.align) hlive rfl rfl
      · next mmu hmap =>
        cases hs
        obtain ⟨-, -, hpos, -⟩ := Mmu.mapHost_ok hmap
        have hneed : 0 < roundUp s.managedVa.align size := by
          rw [h.align]
          exact Nat.pos_of_div_pos hpos
        obtain ⟨hwf, halign, hlive⟩ := alloc_wf h.wf halloc hneed
        refine ⟨hwf, halign.trans h.align, hlive.trans ?_⟩
        rw [h.align]
        refine (h.live.cons _).trans ?_
        simp [State.created, State.items, hh, Holder.fresh, Holder.parked]

end VaTiled

theorem vaTiled_step (hi : Inv s) (h : VaTiled s) (hs : step cfg s a = some s') : VaTiled s' := by
  cases a with
  | lock req =>
    obtain ⟨hh, rfl⟩ := lock_step hs
    refine h.shuffle rfl rfl (by rw [hh]; rfl) ?_
    simp [State.parked, State.reclaimThen, hh, Holder.parked]
  | reclaim =>
    obtain ⟨p, todo, kept, next, hh, rfl⟩ | ⟨kept, next, hh, rfl⟩ := reclaim_step hs
    · have hquiet := hi.quiet _ _ _ hh
      split_ifs with hret
      · refine h.recycle (l := s.entered ++ (kept ++ todo).map Pending.item)
          (by rw [hh]; rfl) ?_ rfl rfl ?_
        · simp only [State.items, hh, Holder.parked, hquiet]
          simp only [List.nil_append, List.map_append, List.map_cons, State.entered]
          rw [← List.append_assoc, ← List.append_assoc]
          exact List.perm_middle
        · simp [State.items, Holder.parked, hquiet, State.entered]
      · refine h.shuffle rfl rfl (by rw [hh]; rfl) ?_
        simp [State.parked, hh, Holder.parked]
    · have hquiet := hi.quiet _ _ _ hh
      refine h.shuffle rfl rfl ?_ ?_
      · dsimp only
        split_ifs <;> rw [hh] <;> rfl
      · simp only [State.parked, hh, hquiet]
        split_ifs <;> simp [Holder.parked]
  | drain ok =>
    obtain ⟨next, hh, rfl⟩ := drain_step hs
    cases ok with
    | true =>
      refine h.shuffle rfl rfl (by rw [hh]; rfl) ?_
      simp [State.parked, State.reclaimThen, hh, Holder.parked]
    | false => exact h.shuffle rfl rfl (by rw [hh]; rfl) (by simp [State.parked, hh, Holder.parked])
  | mapBlock =>
    obtain ⟨addr, size, hh, ⟨mmu, -, rfl⟩ | rfl⟩ := mapBlock_step hs
    · have hnone := hi.allocs_find_block (n := roundUp pageSize size) (by rw [hh]; rfl)
      have hitems := Owned.emplace_items ⟨roundUp pageSize size, 0⟩ hnone { s.mem with mmu := mmu }
        (by rw [hh]; rfl)
      refine h.handOver rfl ?_
      rw [hh]
      exact (regionsOf_perm hitems).trans (by simp [regionsOf, Holder.fresh])
    · exact h.shuffle rfl rfl (by rw [hh]; rfl) (by simp [State.parked, hh, Holder.parked])
  | addRange =>
    obtain ⟨addr, bytes, host, id, hh, rfl⟩ := addRange_step hs
    have hfresh : s.holder.fresh = [⟨addr, bytes, host⟩] := by rw [hh]; rfl
    have hnone := hi.allocs_find_range hfresh
    have hitems := Owned.emplace_items ⟨bytes, host⟩ hnone
      { s.mem with ranges := s.mem.ranges.emplace addr ⟨addr + bytes, host, id⟩ } (by rw [hh]; rfl)
    have hhost := (hi.mem.table.region ⟨addr, bytes, host⟩ (by simp [hfresh])).2.2.2.2.2.2
    refine h.handOver rfl ?_
    rw [hfresh]
    refine (regionsOf_perm hitems).trans ?_
    rw [regionsOf, List.filter_cons_of_pos (by simpa using hhost.ne')]
    exact .refl _
  | lookup =>
    obtain ⟨addr, hh, ⟨-, rfl⟩ | ⟨al, hfind, rfl⟩⟩ := lookup_step hs
    · exact h.shuffle rfl rfl (by rw [hh]; rfl) (by simp [State.parked, hh, Holder.parked])
    · refine h.handOver rfl ?_
      rw [hh]
      refine regionsOf_perm ?_
      have herase := (KeyMap.erase_perm (KeyMap.find_eq_some.mp hfind)).map
        fun e : ℕ × Alloc => (⟨e.1, e.2.size, e.2.host⟩ : Region)
      simp only [State.items, hh, Holder.parked, List.append_nil, List.map_append, List.map_cons,
        List.map_nil]
      refine List.Perm.trans ?_ (herase.append_right _).symm
      rw [← List.append_assoc, List.map_cons, List.cons_append]
      exact List.perm_append_singleton _ _
  | snap =>
    obtain ⟨p, c, todo, hh, rfl⟩ | ⟨p, hh, rfl⟩ := snap_step hs
    · exact h.shuffle rfl rfl (by rw [hh]; rfl)
        (by simp [State.parked, hh, Holder.parked, Pending.item])
    · split_ifs with hret
      · refine h.recycle (l := s.entered ++ s.pending.map Pending.item)
          (by rw [hh]; rfl) ?_ rfl rfl ?_
        · simp only [State.items, hh, Holder.parked, List.map_append, List.map_cons, List.map_nil,
            State.entered, ← List.append_assoc]
          exact List.perm_append_singleton _ _
        · simp [State.items, Holder.parked, State.entered]
      · exact h.shuffle rfl rfl (by rw [hh]; rfl) (by simp [State.parked, hh, Holder.parked])
  | mapManaged host =>
    rcases step_cases hs with hs | hs | hs
    · exact h.mapManaged hs
    · cases hs
    · cases hs
  | _ =>
    rcases step_cases hs with hs | hs | hs
    · simp only [holderStep, reduceCtorEq] at hs
      all_goals
        repeat' split at hs
        all_goals
          simp only [Option.some.injEq, reduceCtorEq] at hs
          try
            subst hs
            refine h.shuffle rfl rfl ?_ ?_ <;> simp [State.parked, Holder.parked, Holder.fresh, *]
    · obtain hout := faultStep_outside hs
      exact h.shuffle hout.managedVa hout.allocs (by rw [hout.holder])
        (by rw [State.parked, State.parked, hout.pending, hout.holder])
    · obtain hout := worldStep_outside hs
      exact h.shuffle hout.managedVa hout.allocs (by rw [hout.holder])
        (by rw [State.parked, State.parked, hout.pending, hout.holder])

end SoftGpu.Driver
