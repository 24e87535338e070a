import SoftGpu.ReleaseSteps
import SoftGpu.Retained

/-!
# Deferred release

A block that `SG_IOC_FREE` has released stays where it is until every command that was
published when it was taken out of `allocs` has retired: the snapshot is taken later,
counter by counter, so it has at least these commands. The next reclaim after the
snapshot has retired recycles the block, and nothing recycles it again.
-/

namespace SoftGpu.Release
open Machine Driver VramAllocator

variable {cfg : Config} {s s' : State}

/-! ### Where a released block is -/

def State.waiting (s : State) : List ℕ :=
  s.released.map Prod.fst ++ (s.inHand.map fun h => s.current h.1.addr).toList

structure Numbered (cfg : Config) (s : State) : Prop where
  live : ∀ e ∈ s.drv.allocs.entries,
    s.born[s.current e.1]? = some ⟨e.1, e.2.size, e.2.host⟩ ∧ s.freed (s.current e.1) = none
  alive : ∀ id r, s.born[id]? = some r → s.freed id = none →
    s.drv.allocs.find r.addr = some ⟨r.size, r.host⟩ ∧ s.current r.addr = id
  listed : ∀ e ∈ s.released, s.born[e.1]? = some e.2.item ∧
    ∃ b, s.freed e.1 = some b ∧ ∀ c ∈ cfg.chans, b c ≤ e.2.fence c
  hand : ∀ p todo, s.inHand = some (p, todo) → s.born[s.current p.addr]? = some p.item ∧
    ∃ b, s.freed (s.current p.addr) = some b ∧ ∀ c ∈ cfg.chans, c ∉ todo → b c ≤ p.fence c
  counted : ∀ id b, s.freed id = some b → ∀ c, b c ≤ s.drv.published c
  once : (s.recycled ++ s.waiting).Nodup
  placed : ∀ id, id ∈ s.recycled ++ s.waiting ↔ (s.freed id).isSome = true
  retired : ∀ id ∈ s.recycled, ∀ b, s.freed id = some b → ∀ c ∈ cfg.chans, b c ≤ s.drv.retired c
  born : ∀ id, (s.freed id).isSome = true → id < s.born.length

theorem of_allRetired {d : Driver.State} {fence : Chan → ℕ} (h : allRetired cfg d fence = true)
    {c : Chan} (hc : c ∈ cfg.chans) : fence c ≤ d.retired c := by
  simpa using List.all_eq_true.mp h c hc

namespace Numbered

theorem move (h : Numbered cfg s) (hk : Kept s s')
    (hperm : (s'.recycled ++ s'.waiting).Perm (s.recycled ++ s.waiting))
    (hlisted : ∀ e ∈ s'.released, s.born[e.1]? = some e.2.item ∧
      ∃ b, s.freed e.1 = some b ∧ ∀ c ∈ cfg.chans, b c ≤ e.2.fence c)
    (hhand : ∀ p todo, s'.inHand = some (p, todo) → s.born[s.current p.addr]? = some p.item ∧
      ∃ b, s.freed (s.current p.addr) = some b ∧ ∀ c ∈ cfg.chans, c ∉ todo → b c ≤ p.fence c)
    (hret : ∀ id ∈ s'.recycled, id ∉ s.recycled → ∀ b, s.freed id = some b →
      ∀ c ∈ cfg.chans, b c ≤ s.drv.retired c) : Numbered cfg s' where
  live := by
    rw [hk.allocs, hk.born, hk.current, hk.freed]
    exact h.live
  alive := by
    rw [hk.allocs, hk.born, hk.current, hk.freed]
    exact h.alive
  listed := by
    rw [hk.born, hk.freed]
    exact hlisted
  hand := by
    rw [hk.born, hk.current, hk.freed]
    exact hhand
  counted := by
    rw [hk.freed]
    exact fun id b hb c => (h.counted id b hb c).trans (hk.published c)
  once := hperm.nodup_iff.mpr h.once
  placed := by
    intro id
    rw [hperm.mem_iff, hk.freed]
    exact h.placed id
  retired := by
    rw [hk.freed]
    intro id hid b hb c hc
    refine le_trans ?_ (hk.retired c)
    by_cases hold : id ∈ s.recycled
    · exact h.retired id hold b hb c hc
    · exact hret id hid hold b hb c hc
  born := by
    rw [hk.freed, hk.born]
    exact h.born

theorem allocate (h : Numbered cfg s) {r : Region} (hnone : s.drv.allocs.find r.addr = none)
    (hborn : s'.born = s.born ++ [r])
    (hcur : s'.current = Function.update s.current r.addr s.born.length)
    (hfreed : s'.freed = s.freed)
    (hallocs : s'.drv.allocs = s.drv.allocs.emplace r.addr ⟨r.size, r.host⟩)
    (hpub : s'.drv.published = s.drv.published) (hretd : s'.drv.retired = s.drv.retired)
    (hrel : s'.released = s.released) (hhand : s.inHand = none) (hhand' : s'.inHand = none)
    (hrec : s'.recycled = s.recycled) : Numbered cfg s' := by
  have hold : ∀ {id : ℕ} {q : Region}, s.born[id]? = some q → s'.born[id]? = some q := by
    intro id q hq
    rw [hborn, List.getElem?_append_left (List.getElem?_eq_some_iff.mp hq).1]
    exact hq
  have hwaiting : s'.waiting = s.waiting := by
    simp [State.waiting, hrel, hhand, hhand']
  have hnew : s.freed s.born.length = none := by
    by_contra hne
    exact absurd (h.born _ (Option.isSome_iff_ne_none.mpr hne)) (lt_irrefl _)
  refine ⟨fun e he => ?_, fun id q hq hid => ?_, fun e he => ?_, ?_, ?_, ?_, ?_,
    ?_, fun id hid => ?_⟩
  · rw [hallocs, KeyMap.mem_emplace hnone] at he
    rw [hfreed, hcur]
    obtain rfl | he := he
    · simp [hborn, hnew]
    · rw [Function.update_of_ne (KeyMap.find_eq_none.mp hnone e he)]
      exact ⟨hold (h.live e he).1, (h.live e he).2⟩
  · rw [hfreed] at hid
    rw [hallocs, hcur, KeyMap.find_eq_some, KeyMap.mem_emplace hnone]
    rw [hborn, List.getElem?_append] at hq
    split_ifs at hq with hlt
    · obtain ⟨hfind, hat⟩ := h.alive id q hq hid
      have hne : q.addr ≠ r.addr := by
        intro heq
        rw [heq, hnone] at hfind
        cases hfind
      rw [Function.update_of_ne hne]
      exact ⟨.inr (KeyMap.find_eq_some.mp hfind), hat⟩
    · obtain ⟨hzero, rfl⟩ : id - s.born.length = 0 ∧ r = q := by
        simpa [List.getElem?_singleton] using hq
      exact ⟨.inl rfl, by rw [Function.update_self]; omega⟩
  · rw [hrel] at he
    rw [hfreed]
    exact ⟨hold (h.listed e he).1, (h.listed e he).2⟩
  · rw [hhand']
    exact nofun
  · rw [hfreed, hpub]
    exact h.counted
  · rw [hrec, hwaiting]
    exact h.once
  · rw [hrec, hwaiting, hfreed]
    exact h.placed
  · rw [hrec, hfreed, hretd]
    exact h.retired
  · rw [hfreed] at hid
    rw [hborn, List.length_append]
    exact (h.born id hid).trans (Nat.lt_add_of_pos_right Nat.one_pos)

theorem release (h : Numbered cfg s) {addr : ℕ} {al : Alloc}
    (hfind : s.drv.allocs.find addr = some al) (hborn : s'.born = s.born)
    (hcur : s'.current = s.current)
    (hfreed : s'.freed = Function.update s.freed (s.current addr) (some s.drv.published))
    (hallocs : s'.drv.allocs = s.drv.allocs.erase addr)
    (hpub : s'.drv.published = s.drv.published) (hretd : s'.drv.retired = s.drv.retired)
    (hrel : s'.released = s.released) (hhand : s.inHand = none)
    (hhand' : s'.inHand = some (⟨addr, al.size, al.host, fun _ => 0⟩, cfg.chans))
    (hrec : s'.recycled = s.recycled) : Numbered cfg s' := by
  obtain ⟨hat, hnot⟩ := h.live _ (KeyMap.find_eq_some.mp hfind)
  dsimp only at hat hnot
  have hother : ∀ id b, s.freed id = some b → id ≠ s.current addr := by
    rintro id b hb rfl
    rw [hnot] at hb
    cases hb
  have hsame : ∀ id ≠ s.current addr, s'.freed id = s.freed id := by
    intro id hid
    rw [hfreed, Function.update_of_ne hid]
  have hself : s'.freed (s.current addr) = some s.drv.published := by
    rw [hfreed, Function.update_self]
  have hwaiting : s'.recycled ++ s'.waiting = s.recycled ++ s.waiting ++ [s.current addr] := by
    simp [State.waiting, hrel, hhand, hhand', hcur, hrec]
  have hfresh : s.current addr ∉ s.recycled ++ s.waiting := by
    rw [h.placed, hnot]
    simp
  refine ⟨fun e he => ?_, fun id r hr hid => ?_, fun e he => ?_, fun p todo hp => ?_,
    fun id b hb c => ?_, ?_, fun id => ?_, fun id hid b hb c hc => ?_, fun id hid => ?_⟩
  · rw [hallocs, KeyMap.mem_erase] at he
    obtain ⟨he, hne⟩ := he
    obtain ⟨hate, hnote⟩ := h.live e he
    rw [hborn, hcur]
    refine ⟨hate, ?_⟩
    rw [hsame]
    · exact hnote
    · intro heq
      rw [heq, hat] at hate
      exact hne (congrArg Region.addr (Option.some.inj hate)).symm
  · have hne : id ≠ s.current addr := by
      rintro rfl
      rw [hself] at hid
      cases hid
    rw [hborn] at hr
    rw [hsame id hne] at hid
    obtain ⟨hfound, hcurr⟩ := h.alive id r hr hid
    rw [hallocs, hcur, KeyMap.find_eq_some, KeyMap.mem_erase]
    refine ⟨⟨KeyMap.find_eq_some.mp hfound, ?_⟩, hcurr⟩
    rintro rfl
    exact hne hcurr.symm
  · rw [hrel] at he
    obtain ⟨hate, b, hb, hle⟩ := h.listed e he
    rw [hborn]
    exact ⟨hate, b, (hsame _ (hother _ b hb)).trans hb, hle⟩
  · rw [hhand'] at hp
    cases hp
    rw [hborn, hcur]
    exact ⟨hat, _, hself, fun c hc hnc => absurd hc hnc⟩
  · rw [hpub]
    by_cases hid : id = s.current addr
    · subst hid
      rw [hself] at hb
      cases hb
      exact le_rfl
    · rw [hsame id hid] at hb
      exact h.counted id b hb c
  · rw [hwaiting]
    refine List.nodup_append.mpr ⟨h.once, List.nodup_singleton _, fun a ha b hb hab => ?_⟩
    rw [List.mem_singleton] at hb
    exact hfresh (hb ▸ hab ▸ ha)
  · rw [hwaiting, List.mem_append, List.mem_singleton]
    by_cases hid : id = s.current addr
    · subst hid
      simp [hself]
    · rw [hsame id hid, h.placed]
      simp [hid]
  · rw [hrec] at hid
    rw [hretd]
    have hne : id ≠ s.current addr := by
      rintro rfl
      exact hfresh (List.mem_append_left _ hid)
    rw [hsame id hne] at hb
    exact h.retired id hid b hb c hc
  · rw [hborn]
    by_cases hne : id = s.current addr
    · subst hne
      exact (List.getElem?_eq_some_iff.mp hat).1
    · rw [hsame id hne] at hid
      exact h.born id hid

theorem ledger (h : Numbered cfg s) (hl : Ledger cfg s s') :
    Numbered cfg s' := by
  cases hl with
  | still hk hrel hhand hrec =>
    refine h.move hk ?_ (by rw [hrel]; exact h.listed) (by rw [hhand]; exact h.hand) ?_
    · rw [State.waiting, State.waiting, hrel, hhand, hrec, hk.current]
    · rw [hrec]
      exact fun id hid hnot => absurd hid hnot
  | recycle id p l₁ l₂ hk hret hrel hrel' hhand hrec =>
    have hmem : (id, p) ∈ s.released := by simp [hrel]
    obtain ⟨-, b, hb, hle⟩ := h.listed _ hmem
    refine h.move hk ?_ (fun e he => h.listed e ?_) (by rw [hhand]; exact h.hand) ?_
    · simp only [State.waiting, hrel, hrel', hhand, hrec, hk.current,
        List.map_append, List.map_cons,
        List.append_assoc, List.singleton_append]
      exact (List.perm_middle.symm).append_left _
    · rw [hrel'] at he
      rw [hrel]
      simp only [List.mem_append, List.mem_cons] at he ⊢
      tauto
    · intro id' hid' hnot b' hb' c hc
      rw [hrec, List.mem_append, List.mem_singleton] at hid'
      obtain rfl := hid'.resolve_left hnot
      rw [hb] at hb'
      cases hb'
      exact (hle c hc).trans (of_allRetired hret hc)
  | more p c todo hk hrel hhand hhand' hrec =>
    obtain ⟨hat, b, hb, hle⟩ := h.hand p (c :: todo) hhand
    refine h.move hk ?_ (by rw [hrel]; exact h.listed) (fun p' todo' hp' => ?_) ?_
    · simp [State.waiting, hrel, hhand, hhand', hrec, hk.current]
    · rw [hhand'] at hp'
      cases hp'
      refine ⟨hat, b, hb, fun c' hc' hnot => ?_⟩
      by_cases heq : c' = c
      · subst heq
        simpa using h.counted _ b hb c'
      · simpa [heq] using hle c' hc' (by simp [heq, hnot])
    · rw [hrec]
      exact fun id hid hnot => absurd hid hnot
  | recycleHeld p hk hret hrel hhand hhand' hrec =>
    obtain ⟨-, b, hb, hle⟩ := h.hand p [] hhand
    refine h.move hk ?_ (by rw [hrel]; exact h.listed) (by rw [hhand']; exact nofun) ?_
    · simp only [State.waiting, hrel, hhand, hhand', hrec, List.append_assoc, Option.map_some,
        Option.toList_some, Option.map_none, Option.toList_none, List.append_nil]
      exact List.perm_append_comm.append_left _
    · intro id' hid' hnot b' hb' c hc
      rw [hrec, List.mem_append, List.mem_singleton] at hid'
      obtain rfl := hid'.resolve_left hnot
      rw [hb] at hb'
      cases hb'
      exact (hle c hc (by simp)).trans (of_allRetired hret hc)
  | pushHeld p hk hrel hhand hhand' hrec =>
    obtain ⟨hat, b, hb, hle⟩ := h.hand p [] hhand
    refine h.move hk ?_ (fun e he => ?_) (by rw [hhand']; exact nofun) ?_
    · simp [State.waiting, hrel, hhand, hhand', hrec]
    · rw [hrel, List.mem_append, List.mem_singleton] at he
      obtain he | rfl := he
      · exact h.listed e he
      · exact ⟨hat, b, hb, fun c hc => hle c hc (by simp)⟩
    · rw [hrec]
      exact fun id hid hnot => absurd hid hnot
  | allocate r hborn hcur hfreed hallocs hnone hpub hretd hrel hhand hhand' hrec =>
    exact h.allocate hnone hborn hcur hfreed hallocs hpub hretd hrel hhand hhand' hrec
  | release addr al hfind hborn hcur hfreed hallocs hpub hretd hrel hhand hhand' hrec =>
    exact h.release hfind hborn hcur hfreed hallocs hpub hretd hrel hhand hhand' hrec

end Numbered

/-! ### The next reclaim -/

def DueInv (cfg : Config) (s : State) : Prop :=
  match s.walk with
  | none => ∀ id ∈ s.due, id ∈ s.recycled
  | some (i, _) => ∀ id ∈ s.due, id ∈ s.recycled ∨
      ∃ p, Entry.block id p ∈ s.queue.drop i ∧ allRetired cfg s.drv p.fence = true

theorem allRetired_mono {d d' : Driver.State} (h : ∀ c, d.retired c ≤ d'.retired c)
    {fence : Chan → ℕ} (hret : allRetired cfg d fence = true) : allRetired cfg d' fence = true := by
  simp only [allRetired, List.all_eq_true, decide_eq_true_eq] at hret ⊢
  exact fun c hc => (hret c hc).trans (h c)

theorem DueInv.aside (h : DueInv cfg s) (hdue : s'.due = s.due) (hw : s'.walk = s.walk)
    (hq : s.walk ≠ none → s'.queue = s.queue) (hrec : s.recycled ⊆ s'.recycled)
    (hret : ∀ c, s.drv.retired c ≤ s'.drv.retired c) : DueInv cfg s' := by
  simp only [DueInv, hw, hdue] at h ⊢
  cases hwalk : s.walk with
  | none =>
    rw [hwalk] at h
    exact fun id hid => hrec (h id hid)
  | some w =>
    rw [hwalk] at h
    intro id hid
    rw [hq (by simp [hwalk])]
    exact (h id hid).imp (fun hr => hrec hr) fun ⟨p, hp, hpr⟩ => ⟨p, hp, allRetired_mono hret hpr⟩

theorem dueInv_start (d : Driver.State) (hret : d.retired = s.drv.retired) :
    DueInv cfg (s.startWalk cfg d) := by
  intro id hid
  obtain ⟨e, he, hid⟩ := List.mem_filterMap.mp hid
  obtain ⟨he, her⟩ := List.mem_filter.mp he
  cases e with
  | pin addr size fence => cases hid
  | block id' p =>
    cases hid
    exact .inr ⟨p, he, allRetired_mono (fun c => by rw [State.startWalk, hret]) her⟩

theorem dueInv_reclaim (h : DueInv cfg s) (hsync : Synced s) (hs : s.reclaim cfg = some s') :
    DueInv cfg s' := by
  simp only [State.reclaim] at hs
  split at hs
  · cases hs
  · next i keep hw =>
    obtain ⟨hle, -, -⟩ := hsync.walk i keep hw
    simp only [DueInv, hw] at h
    split at hs
    · -- Nothing is ahead of it any more.
      next hend =>
      obtain ⟨d, -, rfl⟩ := Option.map_eq_some_iff.mp hs
      intro id hid
      obtain hr | ⟨p, hp, -⟩ := h id hid
      · exact hr
      · rw [List.drop_eq_nil_of_le (List.getElem?_eq_none_iff.mp hend)] at hp
        cases hp
    · next addr size fence he =>
      have hnext : ∀ id, (∃ p, Entry.block id p ∈ s.queue.drop i ∧
          allRetired cfg s.drv p.fence = true) →
          ∃ p, Entry.block id p ∈ s.queue.drop (i + 1) ∧ allRetired cfg s.drv p.fence = true := by
        rintro id ⟨p, hp, hpr⟩
        rw [drop_of_getElem? he] at hp
        obtain hp | hp := List.mem_cons.mp hp
        · cases hp
        · exact ⟨p, hp, hpr⟩
      split_ifs at hs with hret
      · cases hs
        exact fun id hid => (h id hid).imp_right (hnext id)
      · cases hs
        intro id hid
        rw [drop_set_succ hle]
        exact (h id hid).imp_right (hnext id)
    · next id' p' he =>
      obtain ⟨d, hd, rfl⟩ := Option.map_eq_some_iff.mp hs
      have hmono : ∀ c, s.drv.retired c ≤ d.retired c := by
        obtain ⟨p, todo, kept, next, -, rfl⟩ | ⟨kept, next, -, rfl⟩ := reclaim_step hd
        · split_ifs
          · intro c
            rw [recycle_retired]
          · exact fun _ => le_rfl
        · exact fun _ => le_rfl
      split_ifs with hret
      · intro id hid
        obtain hr | ⟨p, hp, hpr⟩ := h id hid
        · exact .inl (List.mem_append_left _ hr)
        · rw [drop_of_getElem? he] at hp
          obtain hp | hp := List.mem_cons.mp hp
          · cases hp
            exact .inl (by simp)
          · exact .inr ⟨p, hp, allRetired_mono hmono hpr⟩
      · intro id hid
        rw [drop_set_succ hle]
        obtain hr | ⟨p, hp, hpr⟩ := h id hid
        · exact .inl hr
        · rw [drop_of_getElem? he] at hp
          obtain hp | hp := List.mem_cons.mp hp
          · cases hp
            exact absurd hpr hret
          · exact .inr ⟨p, hp, allRetired_mono hmono hpr⟩

theorem dueInv_driverStep (h : DueInv cfg s) (hsync : Synced s) {a : Driver.Action}
    (hs : s.driverStep cfg a = some s') : DueInv cfg s' := by
  -- The steps that change nothing but the driver.
  have haside : ∀ d : Driver.State, (∀ c, s.drv.retired c ≤ d.retired c) →
      DueInv cfg { s with drv := d } := fun d hret =>
    h.aside rfl rfl (fun _ => rfl) (List.Subset.refl _) hret
  by_cases hmoves : a.moves = true
  · cases a with
    | publish c => cases hs
    | reclaim => exact dueInv_reclaim h hsync hs
    | lock req =>
      obtain ⟨d, hd, rfl⟩ := Option.map_eq_some_iff.mp hs
      obtain ⟨-, rfl⟩ := lock_step hd
      exact dueInv_start _ rfl
    | drain ok =>
      obtain ⟨d, hd, rfl⟩ := Option.map_eq_some_iff.mp hs
      obtain ⟨next, -, rfl⟩ := drain_step hd
      cases ok with
      | true => exact dueInv_start _ rfl
      | false => exact haside _ fun _ => le_rfl
    | mapBlock =>
      obtain ⟨d, hd, rfl⟩ := Option.map_eq_some_iff.mp hs
      obtain ⟨addr, size, hh, ⟨mmu, -, rfl⟩ | rfl⟩ := mapBlock_step hd
      · simp only [hh]
        exact h.aside rfl rfl (fun _ => rfl) (List.Subset.refl _) fun _ => le_rfl
      · simp only [hh]
        exact haside _ fun _ => le_rfl
    | addRange =>
      obtain ⟨d, hd, rfl⟩ := Option.map_eq_some_iff.mp hs
      obtain ⟨addr, bytes, host, id, hh, rfl⟩ := addRange_step hd
      simp only [hh]
      exact h.aside rfl rfl (fun _ => rfl) (List.Subset.refl _) fun _ => le_rfl
    | lookup =>
      obtain ⟨d, hd, rfl⟩ := Option.map_eq_some_iff.mp hs
      obtain ⟨addr, hh, ⟨-, rfl⟩ | ⟨al, -, rfl⟩⟩ := lookup_step hd
      · exact haside _ fun _ => le_rfl
      · exact h.aside rfl rfl (fun _ => rfl) (List.Subset.refl _) fun _ => le_rfl
    | snap =>
      obtain ⟨d, hd, rfl⟩ := Option.map_eq_some_iff.mp hs
      obtain ⟨p, c, todo, hh, rfl⟩ | ⟨p, hh, rfl⟩ := snap_step hd
      · simp only [hh]
        exact haside _ fun _ => le_rfl
      · have hnone : s.walk = none := off_walk hsync fun todo kept next heq => by
          rw [hh] at heq
          cases heq
        simp only [hh]
        split_ifs
        · exact h.aside rfl rfl (fun _ => rfl) (List.subset_append_left _ _) fun c => by
            rw [recycle_retired]
        · exact h.aside rfl rfl (fun hne => absurd hnone hne) (List.Subset.refl _) fun _ => le_rfl
    | _ => cases hmoves
  · have hmoves : a.moves = false := by simpa using hmoves
    have hd : ∃ d, Driver.step cfg s.drv a = some d ∧ { s with drv := d } = s' := by
      cases a <;> first | exact Option.map_eq_some_iff.mp hs | cases hmoves
    obtain ⟨d, hd, rfl⟩ := hd
    exact haside d (step_bystander hmoves hd).retired

theorem dueInv_step (h : DueInv cfg s) (hsync : Synced s) {a : Action}
    (hs : step cfg s a = some s') : DueInv cfg s' := by
  cases a with
  | drv a => exact dueInv_driverStep h hsync hs
  | unpinPush t =>
    simp only [step] at hs
    split at hs <;> try simp only [reduceCtorEq] at hs
    simp only [Option.ite_none_right_eq_some, Option.some.injEq] at hs
    obtain ⟨hfree, rfl⟩ := hs
    have hnone : s.walk = none := off_walk hsync fun todo kept next heq => by
      rw [Holder.isFree_iff.mp hfree] at heq
      cases heq
    exact h.aside rfl rfl (fun hne => absurd hnone hne) (List.Subset.refl _) fun _ => le_rfl
  | enqueue t =>
    simp only [step] at hs
    split at hs <;> try simp only [reduceCtorEq] at hs
    simp only [publish_step, Option.map_some, Option.some.injEq] at hs
    subst hs
    exact h.aside rfl rfl (fun _ => rfl) (List.Subset.refl _) fun _ => le_rfl
  | _ =>
    simp only [step] at hs
    repeat' split at hs
    all_goals
      simp only [Option.some.injEq, reduceCtorEq] at hs
      try (subst hs; exact h.aside rfl rfl (fun _ => rfl) (List.Subset.refl _) fun _ => le_rfl)

/-! ### Runs -/

theorem driverStep_drv {a : Driver.Action} (hs : s.driverStep cfg a = some s') :
    s'.drv = s.drv ∨ Driver.step cfg s.drv a = some s'.drv := by
  cases a with
  | publish c => cases hs
  | reclaim =>
    simp only [State.driverStep, State.reclaim] at hs
    split at hs
    · cases hs
    · split at hs
      · obtain ⟨d, hd, rfl⟩ := Option.map_eq_some_iff.mp hs
        exact .inr hd
      · split_ifs at hs
        all_goals
          cases hs
          exact .inl rfl
      · obtain ⟨d, hd, rfl⟩ := Option.map_eq_some_iff.mp hs
        split_ifs
        all_goals exact .inr hd
  | _ =>
    obtain ⟨d, hd, rfl⟩ := Option.map_eq_some_iff.mp hs
    repeat' split
    all_goals exact .inr hd

theorem step_drv {a : Action} (hs : step cfg s a = some s') :
    s'.drv = s.drv ∨ ∃ a', Driver.step cfg s.drv a' = some s'.drv := by
  cases a with
  | drv a => exact (driverStep_drv hs).imp_right fun hd => ⟨a, hd⟩
  | enqueue t =>
    simp only [step] at hs
    split at hs <;> try simp only [reduceCtorEq] at hs
    next c operands left hsub =>
    obtain ⟨d, hd, rfl⟩ := Option.map_eq_some_iff.mp hs
    exact .inr ⟨.publish c, hd⟩
  | _ =>
    simp only [step] at hs
    repeat' split at hs
    all_goals
      simp only [Option.some.injEq, reduceCtorEq] at hs
      try exact .inl (by rw [← hs])

structure Sound (cfg : Config) (s : State) : Prop where
  owned : Owned .once s.drv
  va : VaInv s.drv
  synced : Synced s
  numbered : Numbered cfg s
  due : DueInv cfg s

theorem sound_init (cfg : Config) : Sound cfg (init cfg) where
  owned := owned_init .once cfg
  va := va_init cfg
  synced := ⟨fun _ => ⟨rfl, nofun⟩, nofun⟩
  numbered :=
    { live := nofun
      alive := nofun
      listed := nofun
      hand := nofun
      counted := nofun
      once := List.nodup_nil
      placed := fun _ => ⟨nofun, nofun⟩
      retired := nofun
      born := nofun }
  due := nofun

theorem sound_step {a : Action} (h : Sound cfg s) (hs : step cfg s a = some s') : Sound cfg s' := by
  obtain ⟨hsync, hledger⟩ := step_ledger h.synced h.va hs
  have hdrv : Owned .once s'.drv ∧ VaInv s'.drv := by
    obtain heq | ⟨a', hd⟩ := step_drv hs
    · rw [heq]
      exact ⟨h.owned, h.va⟩
    · exact ⟨step_owned h.owned nofun hd, va_step h.va hd⟩
  exact ⟨hdrv.1, hdrv.2, hsync, h.numbered.ledger hledger, dueInv_step h.due h.synced hs⟩

theorem reach_sound {ok : State → Action → Prop} (h : Reach (step cfg) ok (init cfg) s) :
    Sound cfg s :=
  h.invariant (sound_init cfg) fun _ _ _ hi _ hs => sound_step hi hs

/-! ### Deferred release -/

theorem blocks_of_numbered {l : List Entry} {id : ℕ} {p : Pending} (h : (id, p) ∈ numbered l) :
    p ∈ blocks l := by
  obtain ⟨e, he, heq⟩ := List.mem_filterMap.mp h
  cases e with
  | pin addr size fence => cases heq
  | block id' p' =>
    cases heq
    exact List.mem_filterMap.mpr ⟨_, he, rfl⟩

theorem Synced.released_parked (h : Synced s) {id : ℕ} {p : Pending} (hp : (id, p) ∈ s.released) :
    p.item ∈ s.drv.parked := by
  refine List.mem_map_of_mem ?_
  have hb := blocks_of_numbered hp
  simp only [State.entries] at hb
  split at hb
  · next hw =>
    rw [(h.rest hw).1] at hb
    exact List.mem_append_left _ hb
  · next i keep hw =>
    obtain ⟨-, -, next, hh⟩ := h.walk i keep hw
    rw [hh]
    refine List.mem_append_right _ ?_
    simpa only [blocks, List.filterMap_append, Holder.parked] using hb

theorem Sound.waiting_parked (h : Sound cfg s) {id : ℕ} (hid : id ∈ s.waiting) :
    ∃ r, s.born[id]? = some r ∧ r ∈ s.drv.parked := by
  obtain hid | hid := List.mem_append.mp hid
  · obtain ⟨⟨id, p⟩, hp, rfl⟩ := List.mem_map.mp hid
    exact ⟨p.item, (h.numbered.listed _ hp).1, h.synced.released_parked hp⟩
  · obtain ⟨⟨p, todo⟩, hp, rfl⟩ := Option.map_eq_some_iff.mp (Option.mem_toList.mp hid)
    refine ⟨p.item, (h.numbered.hand p todo hp).1, List.mem_map_of_mem (List.mem_append_right _ ?_)⟩
    simp only [State.inHand] at hp
    split at hp
    · next hh =>
      cases hp
      rw [hh]
      exact List.mem_singleton_self _
    · cases hp

end SoftGpu.Release
