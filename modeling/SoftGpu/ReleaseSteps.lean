import SoftGpu.Release
import SoftGpu.Prefetch

/-!
# What a step does to released blocks

A released block is in the hands of `SG_IOC_FREE`, then on the pending list, and then
recycled. `Ledger` lists what a step can do to these places, without the program points
and without the vector that the list is kept in. The compaction in place loses no
entry: the entries that count are those below `keep` and those from `i` on.
-/

namespace SoftGpu.Release
open Machine Driver

variable {cfg : Config} {s s' : State}

/-! ### Compaction in place -/

section
variable {α : Type*} {l : List α} {x : α} {i keep : ℕ}

theorem drop_of_getElem? (h : l[i]? = some x) : l.drop i = x :: l.drop (i + 1) := by
  obtain ⟨hi, rfl⟩ := List.getElem?_eq_some_iff.mp h
  exact List.drop_eq_getElem_cons hi

theorem take_set_succ (hk : keep < l.length) :
    (l.set keep x).take (keep + 1) = l.take keep ++ [x] := by
  rw [List.take_set, List.take_succ_eq_append_getElem hk, List.set_append_right _ _ (by simp)]
  simp [Nat.min_eq_left hk.le]

theorem drop_set_succ (hk : keep ≤ i) : (l.set keep x).drop (i + 1) = l.drop (i + 1) := by
  rw [List.drop_set]
  split
  · rfl
  · omega

end

def blocks (l : List Entry) : List Pending := l.filterMap Entry.block?

def numbered (l : List Entry) : List (ℕ × Pending) := l.filterMap fun e =>
  match e with
  | .pin .. => none
  | .block id p => some (id, p)

def State.entries (s : State) : List Entry :=
  match s.walk with
  | none => s.queue
  | some (i, keep) => s.queue.take keep ++ s.queue.drop i

def State.released (s : State) : List (ℕ × Pending) := numbered s.entries

def State.inHand (s : State) : Option (Pending × List Chan) :=
  match s.drv.holder with
  | .snapshot p todo => some (p, todo)
  | _ => none

structure Synced (s : State) : Prop where
  rest : s.walk = none → blocks s.queue = s.drv.pending ∧
    ∀ todo kept next, s.drv.holder ≠ .reclaim todo kept next
  walk : ∀ i keep, s.walk = some (i, keep) → keep ≤ i ∧ i ≤ s.queue.length ∧
    ∃ next, s.drv.holder = .reclaim (blocks (s.queue.drop i)) (blocks (s.queue.take keep)) next

structure Kept (s s' : State) : Prop where
  born : s'.born = s.born
  current : s'.current = s.current
  freed : s'.freed = s.freed
  allocs : s'.drv.allocs = s.drv.allocs
  published : ∀ c, s.drv.published c ≤ s'.drv.published c
  retired : ∀ c, s.drv.retired c ≤ s'.drv.retired c

inductive Ledger (cfg : Config) (s s' : State) : Prop
  | still (h : Kept s s') (hrel : s'.released = s.released) (hhand : s'.inHand = s.inHand)
      (hrec : s'.recycled = s.recycled)
  | recycle (id : ℕ) (p : Pending) (l₁ l₂ : List (ℕ × Pending)) (h : Kept s s')
      (hret : allRetired cfg s.drv p.fence = true) (hrel : s.released = l₁ ++ (id, p) :: l₂)
      (hrel' : s'.released = l₁ ++ l₂) (hhand : s'.inHand = s.inHand)
      (hrec : s'.recycled = s.recycled ++ [id])
  | more (p : Pending) (c : Chan) (todo : List Chan) (h : Kept s s')
      (hrel : s'.released = s.released) (hhand : s.inHand = some (p, c :: todo))
      (hhand' : s'.inHand =
        some ({ p with fence := Function.update p.fence c (s.drv.published c) }, todo))
      (hrec : s'.recycled = s.recycled)
  | recycleHeld (p : Pending) (h : Kept s s') (hret : allRetired cfg s.drv p.fence = true)
      (hrel : s'.released = s.released) (hhand : s.inHand = some (p, []))
      (hhand' : s'.inHand = none) (hrec : s'.recycled = s.recycled ++ [s.current p.addr])
  | pushHeld (p : Pending) (h : Kept s s')
      (hrel : s'.released = s.released ++ [(s.current p.addr, p)])
      (hhand : s.inHand = some (p, [])) (hhand' : s'.inHand = none)
      (hrec : s'.recycled = s.recycled)
  | allocate (r : Region) (hborn : s'.born = s.born ++ [r])
      (hcur : s'.current = Function.update s.current r.addr s.born.length)
      (hfreed : s'.freed = s.freed)
      (hallocs : s'.drv.allocs = s.drv.allocs.emplace r.addr ⟨r.size, r.host⟩)
      (hnone : s.drv.allocs.find r.addr = none)
      (hpub : s'.drv.published = s.drv.published) (hretd : s'.drv.retired = s.drv.retired)
      (hrel : s'.released = s.released) (hhand : s.inHand = none) (hhand' : s'.inHand = none)
      (hrec : s'.recycled = s.recycled)
  | release (addr : ℕ) (al : Alloc) (hfind : s.drv.allocs.find addr = some al)
      (hborn : s'.born = s.born) (hcur : s'.current = s.current)
      (hfreed : s'.freed = Function.update s.freed (s.current addr) (some s.drv.published))
      (hallocs : s'.drv.allocs = s.drv.allocs.erase addr)
      (hpub : s'.drv.published = s.drv.published) (hretd : s'.drv.retired = s.drv.retired)
      (hrel : s'.released = s.released) (hhand : s.inHand = none)
      (hhand' : s'.inHand = some (⟨addr, al.size, al.host, fun _ => 0⟩, cfg.chans))
      (hrec : s'.recycled = s.recycled)

/-! ### Steps of the driver -/

theorem inHand_of_plain (h : s.drv.holder.plain = true) : s.inHand = none := by
  simp only [State.inHand]
  split
  · next hh =>
    rw [hh] at h
    cases h
  · rfl

theorem entries_of_walk (hq : s'.queue = s.queue) (hw : s'.walk = s.walk) :
    s'.entries = s.entries := by
  rw [State.entries, State.entries, hw, hq]

theorem released_of_entries (h : s'.entries = s.entries) : s'.released = s.released := by
  rw [State.released, State.released, h]

structure Aside (s s' : State) : Prop where
  queue : s'.queue = s.queue
  walk : s'.walk = s.walk
  born : s'.born = s.born
  current : s'.current = s.current
  freed : s'.freed = s.freed
  recycled : s'.recycled = s.recycled

theorem Aside.ledger (h : Aside s s') (hsync : Synced s) (hb : Bystander s.drv s'.drv) :
    Synced s' ∧ Ledger cfg s s' := by
  have hkept : Kept s s' := ⟨h.born, h.current, h.freed, hb.allocs, fun c => by rw [hb.published],
    hb.retired⟩
  have hhand : s'.inHand = s.inHand := by
    obtain hsame | ⟨hp, hp'⟩ := hb.holder
    · rw [State.inHand, State.inHand, hsame]
    · rw [inHand_of_plain hp, inHand_of_plain hp']
  refine ⟨⟨fun hw => ?_, fun i keep hw => ?_⟩, .still hkept
    (released_of_entries (entries_of_walk h.queue h.walk)) hhand h.recycled⟩
  · obtain ⟨hblocks, hne⟩ := hsync.rest (h.walk ▸ hw)
    refine ⟨by rw [h.queue, hb.pending, hblocks], fun todo kept next hh => ?_⟩
    obtain hsame | ⟨-, hp'⟩ := hb.holder
    · exact hne todo kept next (hsame ▸ hh)
    · rw [hh] at hp'
      cases hp'
  · obtain ⟨hle, hlen, next, hh⟩ := hsync.walk i keep (h.walk ▸ hw)
    refine ⟨hle, by rw [h.queue]; exact hlen, next, ?_⟩
    obtain hsame | ⟨hp, -⟩ := hb.holder
    · rw [hsame, hh, h.queue]
    · rw [hh] at hp
      cases hp

theorem off_walk (hsync : Synced s)
    (hplain : ∀ todo kept next, s.drv.holder ≠ .reclaim todo kept next) : s.walk = none := by
  by_contra hne
  obtain ⟨w, hw⟩ := Option.ne_none_iff_exists'.mp hne
  obtain ⟨-, -, next, hh⟩ := hsync.walk w.1 w.2 hw
  exact hplain _ _ _ hh

theorem startWalk_ledger (hsync : Synced s) (hplain : s.drv.holder.plain = true) (next : Next) :
    Synced (s.startWalk cfg (s.drv.reclaimThen next)) ∧
      Ledger cfg s (s.startWalk cfg (s.drv.reclaimThen next)) := by
  have hwalk : s.walk = none := off_walk hsync fun todo kept next heq => by
    rw [heq] at hplain
    cases hplain
  obtain ⟨hblocks, -⟩ := hsync.rest hwalk
  refine ⟨⟨nofun, fun i keep hw => ?_⟩, .still ?_ ?_ ?_ rfl⟩
  · obtain ⟨rfl, rfl⟩ : i = 0 ∧ keep = 0 := by
      simpa [State.startWalk, eq_comm] using hw
    refine ⟨le_rfl, Nat.zero_le _, next, ?_⟩
    simp only [State.startWalk, State.reclaimThen, List.drop_zero, List.take_zero, hblocks]
    rfl
  · exact ⟨rfl, rfl, rfl, rfl, fun _ => le_rfl, fun _ => le_rfl⟩
  · simp [State.released, State.entries, State.startWalk, hwalk]
  · rw [inHand_of_plain hplain]
    rfl

theorem keepEntry_entries {i keep : ℕ} {e : Entry} (hw : s.walk = some (i, keep)) (hle : keep ≤ i)
    (he : s.queue[i]? = some e) (hq : s'.queue = s.queue.set keep e)
    (hw' : s'.walk = some (i + 1, keep + 1)) : s'.entries = s.entries := by
  have hlt : i < s.queue.length := (List.getElem?_eq_some_iff.mp he).1
  simp only [State.entries, hw, hw', hq]
  rw [take_set_succ (hle.trans_lt hlt), drop_set_succ hle, drop_of_getElem? he, List.append_assoc,
    List.singleton_append]

theorem reclaim_ledger (hsync : Synced s) (hs : s.reclaim cfg = some s') :
    Synced s' ∧ Ledger cfg s s' := by
  simp only [State.reclaim] at hs
  split at hs
  · cases hs
  · next i keep hw =>
    obtain ⟨hle, hlen, next, hh⟩ := hsync.walk i keep hw
    have hhand : s.inHand = none := by simp [State.inHand, hh]
    split at hs
    · -- The walk is over.
      next hend =>
      have hlast : s.queue.length ≤ i := List.getElem?_eq_none_iff.mp hend
      rw [List.drop_eq_nil_of_le hlast] at hh
      obtain ⟨d, hd, rfl⟩ := Option.map_eq_some_iff.mp hs
      obtain ⟨p, todo, kept, next', hh', -⟩ | ⟨kept, next', hh', rfl⟩ := reclaim_step hd
      · rw [hh] at hh'
        cases hh'
      · rw [hh] at hh'
        cases hh'
        refine ⟨⟨fun _ => ⟨rfl, fun todo kept next hr => ?_⟩, fun i keep hi => by cases hi⟩,
          .still ?_ ?_ ?_ rfl⟩
        · dsimp only at hr
          split_ifs at hr
        · exact ⟨rfl, rfl, rfl, rfl, fun _ => le_rfl, fun _ => le_rfl⟩
        · simp [State.released, State.entries, hw, List.drop_eq_nil_of_le hlast]
        · rw [hhand, State.inHand]
          dsimp only
          split_ifs <;> rfl
    · next addr size fence he =>
      have hlt : i < s.queue.length := (List.getElem?_eq_some_iff.mp he).1
      have hblocks : blocks (s.queue.drop i) = blocks (s.queue.drop (i + 1)) := by
        rw [drop_of_getElem? he]
        rfl
      split_ifs at hs with hret
      · cases hs
        refine ⟨⟨fun hnone => (by cases hnone), fun i' keep' hw' => ?_⟩, .still ?_ ?_ rfl rfl⟩
        · cases hw'
          exact ⟨by omega, hlt, next, by rw [hh, hblocks]⟩
        · exact ⟨rfl, rfl, rfl, rfl, fun _ => le_rfl, fun _ => le_rfl⟩
        · simp [State.released, State.entries, hw, drop_of_getElem? he, numbered]
      · cases hs
        refine ⟨⟨fun hnone => (by cases hnone), fun i' keep' hw' => ?_⟩, .still ?_ ?_ rfl rfl⟩
        · cases hw'
          refine ⟨by omega, by rw [List.length_set]; exact hlt, next, ?_⟩
          rw [take_set_succ (hle.trans_lt hlt), drop_set_succ hle, hh, hblocks]
          simp [blocks, Entry.block?]
        · exact ⟨rfl, rfl, rfl, rfl, fun _ => le_rfl, fun _ => le_rfl⟩
        · exact released_of_entries (keepEntry_entries hw hle he rfl rfl)
    · next id p he =>
      have hlt : i < s.queue.length := (List.getElem?_eq_some_iff.mp he).1
      have hblocks : blocks (s.queue.drop i) = p :: blocks (s.queue.drop (i + 1)) := by
        rw [drop_of_getElem? he]
        rfl
      rw [hblocks] at hh
      obtain ⟨d, hd, rfl⟩ := Option.map_eq_some_iff.mp hs
      obtain ⟨p', todo, kept, next', hh', rfl⟩ | ⟨kept, next', hh', -⟩ := reclaim_step hd
      · rw [hh] at hh'
        cases hh'
        split_ifs with hret
        · refine ⟨⟨fun hnone => (by cases hnone), fun i' keep' hw' => ?_⟩,
            .recycle id p (numbered (s.queue.take keep))
            (numbered (s.queue.drop (i + 1))) ?_ hret ?_ ?_ ?_ rfl⟩
          · cases hw'
            exact ⟨by omega, hlt, next, rfl⟩
          · exact ⟨rfl, rfl, rfl, recycle_allocs p, fun c => by rw [recycle_published],
              fun c => by rw [recycle_retired]⟩
          · simp [State.released, State.entries, hw, drop_of_getElem? he, numbered]
          · simp [State.released, State.entries, numbered]
          · rw [hhand]
            rfl
        · refine ⟨⟨fun hnone => (by cases hnone), fun i' keep' hw' => ?_⟩, .still ?_ ?_ ?_ rfl⟩
          · cases hw'
            refine ⟨by omega, by rw [List.length_set]; exact hlt, next, ?_⟩
            rw [take_set_succ (hle.trans_lt hlt), drop_set_succ hle]
            simp [blocks, Entry.block?]
          · exact ⟨rfl, rfl, rfl, rfl, fun _ => le_rfl, fun _ => le_rfl⟩
          · exact released_of_entries (keepEntry_entries hw hle he rfl rfl)
          · rw [hhand]
            rfl
      · rw [hh] at hh'
        cases hh'

theorem synced_off_walk (hsync : Synced s)
    (hplain : ∀ todo kept next, s.drv.holder ≠ .reclaim todo kept next)
    (hw : s'.walk = s.walk) (hblocks : s.walk = none → blocks s.queue = s.drv.pending →
      blocks s'.queue = s'.drv.pending)
    (hplain' : ∀ todo kept next, s'.drv.holder ≠ .reclaim todo kept next) : Synced s' := by
  have hnone := off_walk hsync hplain
  refine ⟨fun _ => ⟨hblocks hnone (hsync.rest hnone).1, hplain'⟩, fun i keep hw' => ?_⟩
  rw [hw, hnone] at hw'
  cases hw'

theorem lookup_ledger (hsync : Synced s) (hs : s.driverStep cfg .lookup = some s') :
    Synced s' ∧ Ledger cfg s s' := by
  obtain ⟨d, hd, rfl⟩ := Option.map_eq_some_iff.mp hs
  obtain ⟨addr, hh, ⟨-, rfl⟩ | ⟨al, hfind, rfl⟩⟩ := lookup_step hd
  · exact Aside.ledger ⟨rfl, rfl, rfl, rfl, rfl, rfl⟩ hsync
      ⟨rfl, rfl, rfl, fun _ => le_rfl, .inr ⟨by rw [hh]; rfl, rfl⟩⟩
  · have hhand : s.inHand = none := inHand_of_plain (by rw [hh]; rfl)
    have hplain : ∀ todo kept next, s.drv.holder ≠ .reclaim todo kept next := by
      intro todo kept next heq
      rw [hh] at heq
      cases heq
    exact ⟨synced_off_walk hsync hplain rfl (fun _ hb => hb) nofun,
      .release addr al hfind rfl rfl rfl rfl rfl rfl
        (released_of_entries (entries_of_walk rfl rfl)) hhand rfl rfl⟩

theorem snap_ledger (hsync : Synced s) (hs : s.driverStep cfg .snap = some s') :
    Synced s' ∧ Ledger cfg s s' := by
  obtain ⟨d, hd, rfl⟩ := Option.map_eq_some_iff.mp hs
  have hplain : ∀ {p todo}, s.drv.holder = .snapshot p todo →
      ∀ todo kept next, s.drv.holder ≠ .reclaim todo kept next := by
    intro p todo hh todo' kept next heq
    rw [hh] at heq
    cases heq
  obtain ⟨p, c, todo, hh, rfl⟩ | ⟨p, hh, rfl⟩ := snap_step hd
  · simp only [hh]
    refine ⟨synced_off_walk hsync (hplain hh) rfl (fun _ hb => hb) nofun,
      .more p c todo ?_ ?_ ?_ rfl rfl⟩
    · exact ⟨rfl, rfl, rfl, rfl, fun _ => le_rfl, fun _ => le_rfl⟩
    · exact released_of_entries (entries_of_walk rfl rfl)
    · simp [State.inHand, hh]
  · have hhand : s.inHand = some (p, []) := by simp [State.inHand, hh]
    simp only [hh]
    split_ifs with hret
    · refine ⟨synced_off_walk hsync (hplain hh) rfl (fun _ hb => ?_) nofun,
        .recycleHeld p ?_ hret ?_ hhand rfl rfl⟩
      · exact hb.trans (recycle_pending p).symm
      · exact ⟨rfl, rfl, rfl, recycle_allocs p, fun c => by rw [recycle_published],
          fun c => by rw [recycle_retired]⟩
      · exact released_of_entries (entries_of_walk rfl rfl)
    · have hnone := off_walk hsync (hplain hh)
      refine ⟨synced_off_walk hsync (hplain hh) rfl (fun _ hb => ?_) nofun,
        .pushHeld p ?_ ?_ hhand rfl rfl⟩
      · simp only [blocks] at hb
        simp [blocks, hb, Entry.block?]
      · exact ⟨rfl, rfl, rfl, rfl, fun _ => le_rfl, fun _ => le_rfl⟩
      · simp [State.released, State.entries, hnone, numbered]

theorem allocate_ledger {d : Driver.State} {r : Region} (hsync : Synced s)
    (hplain : s.drv.holder.plain = true) (hfree : d.holder = .free)
    (hpend : d.pending = s.drv.pending)
    (hallocs : d.allocs = s.drv.allocs.emplace r.addr ⟨r.size, r.host⟩)
    (hnone : s.drv.allocs.find r.addr = none)
    (hpub : d.published = s.drv.published) (hret : d.retired = s.drv.retired) :
    Synced (s.allocated d r) ∧ Ledger cfg s (s.allocated d r) := by
  refine ⟨synced_off_walk hsync ?_ rfl (fun _ hb => hb.trans hpend.symm) ?_,
    .allocate r rfl rfl rfl hallocs hnone hpub hret ?_ (inHand_of_plain hplain) ?_ rfl⟩
  · intro todo kept next heq
    rw [heq] at hplain
    cases hplain
  · intro todo kept next heq
    rw [State.allocated, hfree] at heq
    cases heq
  · exact released_of_entries (entries_of_walk rfl rfl)
  · exact inHand_of_plain (by rw [State.allocated, hfree]; rfl)

theorem driverStep_ledger (hsync : Synced s) (hva : VaInv s.drv) {a : Driver.Action}
    (hs : s.driverStep cfg a = some s') : Synced s' ∧ Ledger cfg s s' := by
  by_cases hmoves : a.moves = true
  · cases a with
    | publish c => cases hs
    | reclaim => exact reclaim_ledger hsync hs
    | lookup => exact lookup_ledger hsync hs
    | snap => exact snap_ledger hsync hs
    | lock req =>
      obtain ⟨d, hd, rfl⟩ := Option.map_eq_some_iff.mp hs
      obtain ⟨hh, rfl⟩ := lock_step hd
      exact startWalk_ledger hsync (by rw [hh]; rfl) req.next
    | drain ok =>
      obtain ⟨d, hd, rfl⟩ := Option.map_eq_some_iff.mp hs
      obtain ⟨next, hh, rfl⟩ := drain_step hd
      cases ok with
      | true => exact startWalk_ledger hsync (by rw [hh]; rfl) next
      | false =>
        exact Aside.ledger ⟨rfl, rfl, rfl, rfl, rfl, rfl⟩ hsync
          ⟨rfl, rfl, rfl, fun _ => le_rfl, .inr ⟨by rw [hh]; rfl, rfl⟩⟩
    | mapBlock =>
      obtain ⟨d, hd, rfl⟩ := Option.map_eq_some_iff.mp hs
      obtain ⟨addr, size, hh, ⟨mmu, hmap, rfl⟩ | rfl⟩ := mapBlock_step hd
      · obtain ⟨-, -, hpos, -, -, hfree, -⟩ := Mmu.mapVram_ok hmap
        have hnone := hva.allocs_find (by simpa using hfree 0 hpos)
        simp only [hh]
        exact allocate_ledger hsync (by rw [hh]; rfl) rfl rfl rfl hnone rfl rfl
      · simp only [hh]
        exact Aside.ledger ⟨rfl, rfl, rfl, rfl, rfl, rfl⟩ hsync
          ⟨rfl, rfl, rfl, fun _ => le_rfl, .inr ⟨by rw [hh]; rfl, rfl⟩⟩
    | addRange =>
      obtain ⟨d, hd, rfl⟩ := Option.map_eq_some_iff.mp hs
      obtain ⟨addr, bytes, host, id, hh, rfl⟩ := addRange_step hd
      have hnone := hva.allocs_find_fresh (r := ⟨addr, bytes, host⟩) (by rw [hh]; rfl)
      simp only [hh]
      exact allocate_ledger hsync (by rw [hh]; rfl) rfl rfl rfl hnone rfl rfl
    | _ => cases hmoves
  · have hmoves : a.moves = false := by simpa using hmoves
    have hd : ∃ d, Driver.step cfg s.drv a = some d ∧ { s with drv := d } = s' := by
      cases a <;> first | exact Option.map_eq_some_iff.mp hs | cases hmoves
    obtain ⟨d, hd, rfl⟩ := hd
    exact Aside.ledger ⟨rfl, rfl, rfl, rfl, rfl, rfl⟩ hsync (step_bystander hmoves hd)

/-! ### Every step -/

theorem enqueue_ledger (hsync : Synced s) {c : Chan} (hs : s' = { s with
      drv := { s.drv with published := Function.update s.drv.published c (s.drv.published c + 1) }
      log := s'.log
      submit := s'.submit }) : Synced s' ∧ Ledger cfg s s' := by
  rw [hs]
  refine ⟨⟨hsync.rest, hsync.walk⟩, .still ⟨rfl, rfl, rfl, rfl, fun c' => ?_, fun _ => le_rfl⟩
    (released_of_entries (entries_of_walk rfl rfl)) rfl rfl⟩
  by_cases hc : c' = c
  · subst hc
    simp
  · simp [hc]

theorem pushPin_ledger (hsync : Synced s) {addr size : ℕ} {fence : Chan → ℕ}
    (hfree : s.drv.holder = .free)
    (hs : s' = { s with queue := s.queue ++ [.pin addr size fence], unpin := s'.unpin }) :
    Synced s' ∧ Ledger cfg s s' := by
  have hplain : ∀ todo kept next, s.drv.holder ≠ .reclaim todo kept next := by
    intro todo kept next heq
    rw [hfree] at heq
    cases heq
  have hnone := off_walk hsync hplain
  rw [hs]
  refine ⟨synced_off_walk hsync hplain rfl (fun _ hb => ?_) hplain,
    .still ⟨rfl, rfl, rfl, rfl, fun _ => le_rfl, fun _ => le_rfl⟩ ?_ rfl rfl⟩
  · simp only [blocks] at hb
    simp [blocks, hb, Entry.block?]
  · simp [State.released, State.entries, hnone, numbered]

theorem step_ledger (hsync : Synced s) (hva : VaInv s.drv) {a : Action}
    (hs : step cfg s a = some s') :
    Synced s' ∧ Ledger cfg s s' := by
  cases a with
  | drv a => exact driverStep_ledger hsync hva hs
  | unpinPush t =>
    simp only [step] at hs
    split at hs <;> try simp only [reduceCtorEq] at hs
    simp only [Option.ite_none_right_eq_some, Option.some.injEq] at hs
    obtain ⟨hfree, rfl⟩ := hs
    exact pushPin_ledger hsync (Holder.isFree_iff.mp hfree) rfl
  | enqueue t =>
    simp only [step] at hs
    split at hs <;> try simp only [reduceCtorEq] at hs
    simp only [publish_step, Option.map_some, Option.some.injEq] at hs
    exact hs ▸ enqueue_ledger hsync rfl
  | _ =>
    -- The other steps of a thread.
    simp only [step] at hs
    repeat' split at hs
    all_goals
      simp only [Option.some.injEq, reduceCtorEq] at hs
      try (subst hs; exact Aside.ledger ⟨rfl, rfl, rfl, rfl, rfl, rfl⟩ hsync (.refl _))

end SoftGpu.Release
