import SoftGpu.DeferredFree

/-!
# Submission and release

A submit validates its ranges against `allocs` and publishes its commands later, while
the snapshot of `SG_IOC_FREE` has published commands only. A release in between is not
held back by the command, and the memory can have a new owner by the time the command
runs. As long as no allocation is taken out of `allocs` while a submit has validated a
range of it and has commands left to publish, every published command keeps the
allocations it was validated against until it has retired. Nothing is assumed on the
sizes of requests.
-/

namespace SoftGpu.Release
open Machine Driver VramAllocator

variable {cfg : Config} {s s' : State}

def Submit.operands : Submit → List Operand
  | .idle => []
  | .running _ _ operands _ => operands

/-- `SG_IOC_FREE` takes an allocation out of `allocs` only when no submit has validated a
range of it and has a command left to publish. -/
def unclaimed (s : State) : Action → Prop
  | .drv .lookup => ∀ addr, s.drv.holder = .run (.lookup addr) →
      (s.drv.allocs.find addr).isSome = true → ∀ t, ∀ o ∈ (s.submit t).operands,
      o.id ≠ s.current addr
  | _ => True

def Operand.contains (o : Operand) (x : ℕ) : Prop := o.addr ≤ x ∧ x < o.addr + o.len

def Operand.Within (born : List Region) (o : Operand) : Prop :=
  ∃ r, born[o.id]? = some r ∧ r.addr ≤ o.addr ∧ o.addr + o.len ≤ r.addr + r.size

/-- A command that is published and has not retired works on allocations that are not
recycled: its ranges are mapped, and no other allocation in `allocs` has a byte of them. -/
def Isolated (cfg : Config) (s : State) : Prop :=
  ∀ c ∈ cfg.chans, ∀ k operands, s.drv.retired c ≤ k → (s.log c)[k]? = some operands →
    ∀ o ∈ operands, o.id ∉ s.recycled ∧ ∀ x, o.contains x →
      (s.drv.mem.mmu.pte (x / pageSize)).present = true ∧
      ∀ e ∈ s.drv.allocs.entries, e.1 ≤ x → x < e.1 + e.2.size → s.current e.1 = o.id

/-! ### What a submit holds -/

structure Claims (s : State) : Prop where
  counted : ∀ c, (s.log c).length = s.drv.published c
  thread : ∀ t, ∀ o ∈ (s.submit t).operands, o.Within s.born ∧ s.freed o.id = none
  logged : ∀ c k operands, (s.log c)[k]? = some operands → ∀ o ∈ operands,
    o.Within s.born ∧ ∀ b, s.freed o.id = some b → k < b c

theorem Operand.Within.append {born : List Region} {o : Operand}
    (h : o.Within born) (l : List Region) :
    o.Within (born ++ l) := by
  obtain ⟨r, hr, hin⟩ := h
  exact ⟨r, (List.getElem?_append_left (List.getElem?_eq_some_iff.mp hr).1).trans hr, hin⟩

theorem owner_within (h : Numbered cfg s) {addr len id : ℕ} (ho : s.owner addr len = some id) :
    (⟨id, addr, len⟩ : Operand).Within s.born ∧ s.freed id = none := by
  simp only [State.owner] at ho
  split at ho
  · cases ho
  · next first al hat =>
    simp only [Option.ite_none_right_eq_some, Option.some.injEq] at ho
    obtain ⟨⟨hoff, hlen⟩, rfl⟩ := ho
    obtain ⟨hmem, hle, -⟩ := KeyMap.atMost_spec hat
    obtain ⟨hborn, hfreed⟩ := h.live _ hmem
    dsimp only at hle hborn hfreed
    exact ⟨⟨_, hborn, hle, by dsimp only; omega⟩, hfreed⟩

namespace Claims

theorem aside (h : Claims s) (hlog : s'.log = s.log) (hsub : s'.submit = s.submit)
    (hpub : s'.drv.published = s.drv.published) (hborn : ∃ l, s'.born = s.born ++ l)
    (hfreed : s'.freed = s.freed) : Claims s' := by
  obtain ⟨l, hborn⟩ := hborn
  refine ⟨by rw [hlog, hpub]; exact h.counted, fun t o ho => ?_, fun c k operands hk o ho => ?_⟩
  · rw [hsub] at ho
    rw [hborn, hfreed]
    exact ⟨(h.thread t o ho).1.append l, (h.thread t o ho).2⟩
  · rw [hlog] at hk
    rw [hborn, hfreed]
    exact ⟨(h.logged c k operands hk o ho).1.append l, (h.logged c k operands hk o ho).2⟩

theorem goOn (h : Claims s) (t : ℕ) (next : Submit)
    (hnext : ∀ o ∈ next.operands, o.Within s.born ∧ s.freed o.id = none) :
    Claims { s with submit := Function.update s.submit t next } := by
  refine ⟨h.counted, fun t' o ho => ?_, h.logged⟩
  dsimp only at ho
  by_cases ht : t' = t
  · subst ht
    rw [Function.update_self] at ho
    exact hnext o ho
  · rw [Function.update_of_ne ht] at ho
    exact h.thread t' o ho

theorem release (h : Claims s) {addr : ℕ} (hok : ∀ t, ∀ o ∈ (s.submit t).operands,
    o.id ≠ s.current addr)
    (hlog : s'.log = s.log) (hsub : s'.submit = s.submit)
    (hpub : s'.drv.published = s.drv.published) (hborn : s'.born = s.born)
    (hfreed : s'.freed = Function.update s.freed (s.current addr) (some s.drv.published)) :
    Claims s' := by
  refine ⟨by rw [hlog, hpub]; exact h.counted, fun t o ho => ?_, fun c k operands hk o ho => ?_⟩
  · rw [hsub] at ho
    rw [hborn, hfreed, Function.update_of_ne (hok t o ho)]
    exact h.thread t o ho
  · rw [hlog] at hk
    obtain ⟨hin, hlt⟩ := h.logged c k operands hk o ho
    rw [hborn, hfreed]
    refine ⟨hin, fun b hb => ?_⟩
    by_cases hid : o.id = s.current addr
    · rw [hid, Function.update_self] at hb
      cases hb
      rw [← h.counted c]
      exact (List.getElem?_eq_some_iff.mp hk).1
    · rw [Function.update_of_ne hid] at hb
      exact hlt b hb

theorem publish (h : Claims s) {c : Chan} {operands : List Operand}
    (hops : ∀ o ∈ operands, o.Within s.born ∧ s.freed o.id = none) (d : Driver.State)
    (hpub : d.published = Function.update s.drv.published c (s.drv.published c + 1)) :
    Claims { s with drv := d, log := Function.update s.log c (s.log c ++ [operands]) } := by
  refine ⟨fun c' => ?_, h.thread, fun c' k ops hk o ho => ?_⟩
  · dsimp only
    rw [hpub]
    by_cases hc : c' = c
    · subst hc
      simp [h.counted c']
    · simp [hc, h.counted c']
  · dsimp only at hk
    by_cases hc : c' = c
    · subst hc
      rw [Function.update_self, List.getElem?_append] at hk
      split_ifs at hk with hlt
      · exact h.logged c' k ops hk o ho
      · obtain ⟨-, rfl⟩ : k - (s.log c').length = 0 ∧ operands = ops := by
          simpa [List.getElem?_singleton] using hk
        refine ⟨(hops o ho).1, fun b hb => ?_⟩
        rw [(hops o ho).2] at hb
        cases hb
    · rw [Function.update_of_ne hc] at hk
      exact h.logged c' k ops hk o ho

end Claims

theorem driverStep_threads {a : Driver.Action} (hs : s.driverStep cfg a = some s') :
    s'.log = s.log ∧ s'.submit = s.submit := by
  cases a with
  | publish c => cases hs
  | reclaim =>
    simp only [State.driverStep, State.reclaim] at hs
    split at hs
    · cases hs
    · split at hs
      · obtain ⟨d, hd, rfl⟩ := Option.map_eq_some_iff.mp hs
        exact ⟨rfl, rfl⟩
      · split_ifs at hs
        all_goals
          cases hs
          exact ⟨rfl, rfl⟩
      · obtain ⟨d, hd, rfl⟩ := Option.map_eq_some_iff.mp hs
        split_ifs
        all_goals exact ⟨rfl, rfl⟩
  | _ =>
    obtain ⟨d, hd, rfl⟩ := Option.map_eq_some_iff.mp hs
    repeat' split
    all_goals exact ⟨rfl, rfl⟩

theorem driverStep_published {a : Driver.Action} (hs : s.driverStep cfg a = some s') :
    s'.drv.published = s.drv.published := by
  obtain heq | hd := driverStep_drv hs
  · rw [heq]
  · refine step_published (fun c hc => ?_) hd
    subst hc
    cases hs

theorem driverStep_history {a : Driver.Action} (ha : a ≠ .lookup)
    (hs : s.driverStep cfg a = some s') :
    s'.freed = s.freed ∧ ∃ l, s'.born = s.born ++ l := by
  cases a with
  | publish c => cases hs
  | lookup => exact absurd rfl ha
  | reclaim =>
    simp only [State.driverStep, State.reclaim] at hs
    split at hs
    · cases hs
    · split at hs
      · obtain ⟨d, hd, rfl⟩ := Option.map_eq_some_iff.mp hs
        exact ⟨rfl, [], by simp⟩
      · split_ifs at hs
        all_goals
          cases hs
          exact ⟨rfl, [], by simp⟩
      · obtain ⟨d, hd, rfl⟩ := Option.map_eq_some_iff.mp hs
        split_ifs
        all_goals exact ⟨rfl, [], by simp⟩
  | _ =>
    obtain ⟨d, hd, rfl⟩ := Option.map_eq_some_iff.mp hs
    repeat' split
    all_goals first | exact ⟨rfl, _, rfl⟩ | exact ⟨rfl, [], by simp [State.startWalk]⟩

theorem claims_driverStep (h : Claims s) {a : Driver.Action} (hok : unclaimed s (.drv a))
    (hs : s.driverStep cfg a = some s') : Claims s' := by
  obtain ⟨hlog, hsub⟩ := driverStep_threads hs
  have hpub := driverStep_published hs
  by_cases ha : a = .lookup
  · subst ha
    obtain ⟨d, hd, rfl⟩ := Option.map_eq_some_iff.mp hs
    obtain ⟨addr, hh, ⟨-, rfl⟩ | ⟨al, hfind, rfl⟩⟩ := lookup_step hd
    · exact h.aside hlog hsub hpub ⟨[], by simp⟩ rfl
    · exact h.release (hok addr hh (by simp [hfind])) hlog hsub hpub rfl rfl
  · obtain ⟨hfreed, hborn⟩ := driverStep_history ha hs
    exact h.aside hlog hsub hpub hborn hfreed

theorem claims_step {a : Action} (hn : Numbered cfg s) (h : Claims s) (hok : unclaimed s a)
    (hs : step cfg s a = some s') : Claims s' := by
  cases a with
  | drv a => exact claims_driverStep h hok hs
  | submit t c ranges commands =>
    simp only [step] at hs
    split at hs <;> try simp only [reduceCtorEq] at hs
    simp only [Option.ite_none_right_eq_some, Option.some.injEq] at hs
    obtain ⟨-, rfl⟩ := hs
    exact h.goOn t _ fun o ho => by cases ho
  | owns t =>
    simp only [step] at hs
    split at hs <;> try simp only [reduceCtorEq] at hs
    next c addr len ranges operands left hsub =>
    split_ifs at hs
    split at hs
    · next id ho =>
      cases hs
      refine h.goOn t _ fun o hmem => ?_
      obtain hmem | hmem := List.mem_append.mp hmem
      · exact h.thread t o (by rw [hsub]; exact hmem)
      · rw [List.mem_singleton] at hmem
        subst hmem
        exact owner_within hn ho
    · cases hs
      exact h.goOn t _ fun o ho => by cases ho
  | enqueue t =>
    simp only [step] at hs
    split at hs <;> try simp only [reduceCtorEq] at hs
    next c operands left hsub =>
    obtain ⟨d, hd, rfl⟩ := Option.map_eq_some_iff.mp hs
    rw [publish_step, Option.some.injEq] at hd
    subst hd
    have hops : ∀ o ∈ operands, o.Within s.born ∧ s.freed o.id = none := fun o ho =>
      h.thread t o (by rw [hsub]; exact ho)
    refine (h.publish hops { s.drv with
      published := Function.update s.drv.published c (s.drv.published c + 1) } rfl).goOn
        t _ fun o ho => ?_
    split_ifs at ho
    · cases ho
    · exact hops o ho
  | giveUp t =>
    simp only [step] at hs
    split at hs <;> simp only [Option.some.injEq, reduceCtorEq] at hs
    subst hs
    exact h.goOn t _ fun o ho => by cases ho
  | _ =>
    simp only [step] at hs
    repeat' split at hs
    all_goals
      simp only [Option.some.injEq, reduceCtorEq] at hs
      try (subst hs; exact h.aside rfl rfl rfl ⟨[], by simp⟩ rfl)

theorem reach_claims (h : Reach (step cfg) unclaimed (init cfg) s) : Claims s :=
  h.invariant_of (fun _ hr => (reach_sound hr).numbered) ⟨fun _ => rfl, nofun, nofun⟩
    fun _ _ _ hn hi hok hs => claims_step hn hi hok hs

/-! ### Isolation -/

theorem covers_page {r : Region} (ha : r.addr % pageSize = 0) (hs : r.size % pageSize = 0) {x : ℕ}
    (hx : r.contains x) : covers (pagesOf r) (x / pageSize) = 1 := by
  obtain ⟨hlo, hhi⟩ := hx
  rw [covers_eq_one]
  simp only [pagesOf, pageSize] at *
  omega

section
variable {d : Driver.State} {x : ℕ}

theorem va_covers (h : VaInv d) {r : Region} (hr : r ∈ d.items) (hx : r.contains x) :
    covers (pagesOf r) (x / pageSize) = 1 := by
  obtain ⟨ha, hs, -⟩ := h.sized r (List.mem_append_right _ hr)
  exact covers_page ha hs hx

theorem va_once (h : VaInv d) (v : ℕ) :
    coverage (d.entered.map pagesOf) v + coverage (d.parked.map pagesOf) v ≤ 1 := by
  have honce := h.once v
  have hitems : d.items = d.entered ++ d.parked := rfl
  rw [hitems, List.map_append, List.map_append, coverage_append, coverage_append] at honce
  split_ifs at honce <;> omega

theorem entered_unique (h : VaInv d) {e e' : ℕ × Alloc} (he : e ∈ d.allocs.entries)
    (he' : e' ∈ d.allocs.entries) (hx : (⟨e.1, e.2.size, e.2.host⟩ : Region).contains x)
    (hx' : (⟨e'.1, e'.2.size, e'.2.host⟩ : Region).contains x) : e = e' := by
  by_contra hne
  have hperm : d.allocs.entries.Perm (e :: e' :: (d.allocs.entries.erase e).erase e') :=
    (List.perm_cons_erase he).trans
      (.cons _ (List.perm_cons_erase ((List.mem_erase_of_ne (Ne.symm hne)).mpr he')))
  have honce := va_once h (x / pageSize)
  rw [State.entered, List.map_map, coverage_perm (hperm.map _), List.map_cons, List.map_cons,
    coverage_cons, coverage_cons] at honce
  have h₁ := va_covers h (mem_items_of_entered (List.mem_map_of_mem he)) hx
  have h₂ := va_covers h (mem_items_of_entered (List.mem_map_of_mem he')) hx'
  simp only [Function.comp_apply, h₁, h₂] at honce
  omega

theorem entered_not_parked (h : VaInv d) {e : ℕ × Alloc} (he : e ∈ d.allocs.entries) {r : Region}
    (hr : r ∈ d.parked) (hx : (⟨e.1, e.2.size, e.2.host⟩ : Region).contains x) :
    ¬ r.contains x := by
  intro hrx
  have hentered : (⟨e.1, e.2.size, e.2.host⟩ : Region) ∈ d.entered := List.mem_map_of_mem he
  have honce := va_once h (x / pageSize)
  have h₁ := covers_le_coverage (x := x / pageSize) (List.mem_map_of_mem (f := pagesOf) hentered)
  have h₂ := covers_le_coverage (x := x / pageSize) (List.mem_map_of_mem (f := pagesOf) hr)
  rw [va_covers h (mem_items_of_entered hentered) hx] at h₁
  rw [va_covers h (mem_items_of_parked hr) hrx] at h₂
  omega

end

theorem Sound.unrecycled (h : Sound cfg s) (hc : Claims s) {c : Chan}
    (hchan : c ∈ cfg.chans) {k : ℕ}
    (hk : s.drv.retired c ≤ k) {operands : List Operand} (hlog : (s.log c)[k]? = some operands)
    {o : Operand} (ho : o ∈ operands) : o.id ∉ s.recycled := by
  intro hid
  obtain ⟨b, hb⟩ := Option.isSome_iff_exists.mp
    ((h.numbered.placed o.id).mp (List.mem_append_left _ hid))
  have hlt := (hc.logged c k operands hlog o ho).2 b hb
  have hle := h.numbered.retired o.id hid b hb c hchan
  omega

theorem Sound.place (h : Sound cfg s) {id : ℕ} {r : Region} (hr : s.born[id]? = some r)
    (hid : id ∉ s.recycled) :
    ((r.addr, ⟨r.size, r.host⟩) ∈ s.drv.allocs.entries ∧ s.current r.addr = id) ∨
    r ∈ s.drv.parked := by
  cases hf : s.freed id with
  | none =>
    obtain ⟨hfind, hcur⟩ := h.numbered.alive id r hr hf
    exact .inl ⟨KeyMap.find_eq_some.mp hfind, hcur⟩
  | some b =>
    have hplaced := (h.numbered.placed id).mpr (by rw [hf]; rfl)
    obtain ⟨q, hq, hpark⟩ := h.waiting_parked ((List.mem_append.mp hplaced).resolve_left hid)
    rw [hr] at hq
    cases hq
    exact .inr hpark

theorem Sound.isolated (h : Sound cfg s) (hc : Claims s) : Isolated cfg s := by
  intro c hchan k operands hk hlog o ho
  have hrec := h.unrecycled hc hchan hk hlog ho
  obtain ⟨r, hr, hlo, hhi⟩ := (hc.logged c k operands hlog o ho).1
  refine ⟨hrec, fun x hx => ?_⟩
  have hin : r.contains x := ⟨hlo.trans hx.1, hx.2.trans_le hhi⟩
  obtain ⟨hmem, hcur⟩ | hpark := h.place hr hrec
  · have hitem : r ∈ s.drv.items := mem_items_of_entered (List.mem_map_of_mem hmem)
    refine ⟨h.va.present (List.mem_append_right _ hitem) (va_covers h.va hitem hin),
      fun e he hle hlt => ?_⟩
    rw [entered_unique h.va he hmem ⟨hle, hlt⟩ hin]
    exact hcur
  · have hitem := mem_items_of_parked hpark
    refine ⟨h.va.present (List.mem_append_right _ hitem) (va_covers h.va hitem hin),
      fun e he hle hlt => ?_⟩
    exact absurd hin (entered_not_parked h.va he hpark ⟨hle, hlt⟩)

/-- In every run in which no allocation is released between its validation by a submit and
the submit's last command. -/
theorem submit_isolated (cfg : Config) (s : State) (h : Reach (step cfg) unclaimed (init cfg) s) :
    Isolated cfg s :=
  (reach_sound h).isolated (reach_claims h)

def Action.isLookup : Action → Bool
  | .drv .lookup => true
  | _ => false

theorem unclaimed_of_not_lookup {a : Action} (h : a.isLookup = false) (s : State) :
    unclaimed s a := by
  unfold unclaimed
  split
  · cases h
  · trivial

/-- A block is validated, a command on it is published, and `SG_IOC_FREE` begins. -/
def publishThenFree : List Action :=
  [.drv (.lock (.alloc 4096)), .drv .reclaim, .drv .take, .drv .mapBlock,
    .submit 0 (0, 0) [(0, 4096)] 1, .owns 0, .enqueue 0, .drv (.lock (.free 0)), .drv .reclaim]

def allocBehind : List Action :=
  [.drv .snap, .drv .snap, .drv (.lock (.alloc 4096)), .drv .reclaim, .drv .reclaim, .drv .take,
    .drv .mapBlock]

theorem submit_isolated_release :
    ∃ s, exec (step ⟨1, 1, false, 16⟩) (init ⟨1, 1, false, 16⟩)
        (publishThenFree ++ .drv .lookup :: allocBehind) = some s ∧
      s.log (0, 0) = [[⟨0, 0, 4096⟩]] ∧ s.drv.retired (0, 0) = 0 ∧ (s.freed 0).isSome = true ∧
      s.drv.allocs.entries = [(4096, ⟨4096, 0⟩)] ∧ Isolated ⟨1, 1, false, 16⟩ s := by
  have hrun : (exec (step ⟨1, 1, false, 16⟩) (init ⟨1, 1, false, 16⟩)
      (publishThenFree ++ .drv .lookup :: allocBehind)).map
      (fun s => (s.log (0, 0), s.drv.retired (0, 0), (s.freed 0).isSome, s.drv.allocs.entries)) =
      some ([[⟨0, 0, 4096⟩]], 0, true, [(4096, ⟨4096, 0⟩)]) := by decide
  -- The submit is over when the block is taken out.
  have hidle : (exec (step ⟨1, 1, false, 16⟩) (init ⟨1, 1, false, 16⟩) publishThenFree).map
    State.submit =
      some (Function.update (Function.update (Function.update (fun _ => .idle)
        0 (.running (0, 0) [(0, 4096)] [] 1)) 0 (.running (0, 0) [] [⟨0, 0, 4096⟩] 1)) 0 .idle) :=
          rfl
  obtain ⟨s, hs, hq⟩ := Option.map_eq_some_iff.mp hrun
  obtain ⟨s₁, hs₁, hsub⟩ := Option.map_eq_some_iff.mp hidle
  have hrest := hs
  rw [exec_append, hs₁, Option.bind_some, exec, Option.bind_eq_some_iff] at hrest
  obtain ⟨s₂, hs₂, hrest⟩ := hrest
  have hfree : unclaimed s₁ (.drv .lookup) := by
    intro addr _ _ t o ho
    have hnone : s₁.submit t = .idle := by
      rw [hsub]
      by_cases ht : t = 0 <;> simp [ht]
    rw [hnone] at ho
    cases ho
  have hreach : Reach (step ⟨1, 1, false, 16⟩) unclaimed (init ⟨1, 1, false, 16⟩) s :=
    .of_exec_of (fun a ha => unclaimed_of_not_lookup
        ((by decide : ∀ a ∈ allocBehind, a.isLookup = false) a ha))
      (.tail (.of_exec_of (fun a ha => unclaimed_of_not_lookup
        ((by decide : ∀ a ∈ publishThenFree, a.isLookup = false) a ha)) .refl hs₁) hfree hs₂) hrest
  simp only [Prod.mk.injEq] at hq
  exact ⟨s, hs, hq.1, hq.2.1, hq.2.2.1, hq.2.2.2, submit_isolated ⟨1, 1, false, 16⟩ s hreach⟩

def freeInBetween : List Action :=
  [.drv (.lock (.alloc 4096)), .drv .reclaim, .drv .take, .drv .mapBlock,
    .submit 0 (0, 0) [(0, 4096)] 1, .owns 0,
    .drv (.lock (.free 0)), .drv .reclaim, .drv .lookup, .drv .snap, .drv .snap,
    .drv (.lock (.alloc 4096)), .drv .reclaim, .drv .take, .drv .mapBlock,
    .enqueue 0]

theorem freeInBetween_not_isolated :
    ¬ ∀ s, Reach (step ⟨1, 1, false, 16⟩) anyStep (init ⟨1, 1, false, 16⟩) s →
      Isolated ⟨1, 1, false, 16⟩ s := by
  have hrun : (exec (step ⟨1, 1, false, 16⟩) (init ⟨1, 1, false, 16⟩) freeInBetween).map
      (fun s => (s.log (0, 0), s.drv.retired (0, 0), s.drv.allocs.entries, s.current 0)) =
      some ([[⟨0, 0, 4096⟩]], 0, [(0, ⟨4096, 0⟩)], 1) := by decide
  obtain ⟨s, hs, hq⟩ := Option.map_eq_some_iff.mp hrun
  simp only [Prod.mk.injEq] at hq
  obtain ⟨hlog, hret, hallocs, hcur⟩ := hq
  intro h
  obtain ⟨-, hbytes⟩ := h s (.of_exec .refl hs) (0, 0) (by decide) 0 [⟨0, 0, 4096⟩] (by omega)
    (by rw [hlog]; rfl) ⟨0, 0, 4096⟩ (by simp)
  have howner := (hbytes 0 ⟨le_rfl, by decide⟩).2 (0, ⟨4096, 0⟩)
    (by simp [hallocs]) le_rfl (by decide)
  dsimp only at howner
  omega

end SoftGpu.Release
