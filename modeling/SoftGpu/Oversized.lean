import SoftGpu.Retained
import SoftGpu.Tiling

/-!
# Requests larger than the space

A request for more bytes than there are is turned down after a drain, and for VRAM after
every managed page is evicted; on the way the allocators change by reclaiming and evicting
only. The rounding of the last 4095 sizes wraps to nothing, and the allocator then gives out
an empty block.
-/

namespace SoftGpu.Driver
open Machine VramAllocator

variable {cfg : Config} {s s' : State} {a : Action}

/-- The return value of `SG_IOC_ALLOC` and `SG_IOC_ALLOC_MANAGED`, in the step that decides it. -/
def reply (s : State) : Action → Option (Except Errno ℕ)
  | .take =>
    match s.holder with
    | .run (.take size tries) =>
      if tries < 2 ∨ (s.mem.allocFrame size).isSome then none else some (.error .enomem)
    | _ => none
  | .drain ok =>
    match s.holder with
    | .drain _ => if ok then none else some (.error .eio)
    | _ => none
  | .mapBlock =>
    match s.holder with
    | .mapBlock addr size =>
      some ((s.mem.mmu.mapVram addr addr (roundUp pageSize size / pageSize)).map
        fun _ => addr)
    | _ => none
  | .mapManaged host =>
    match s.holder with
    | .run (.mapManaged size tries) =>
      match s.managedVa.alloc size, host with
      | none, _ => if tries = 0 then none else some (.error .enomem)
      | some _, none => some (.error .enomem)
      | some (addr, _), some h =>
        some ((s.mem.mmu.mapHost addr h (roundUp pageSize size / pageSize)).map fun _ => addr)
    | _ => none
  | _ => none

def Next.oversized : Next → Prop
  | .take size _ => vramBytes < size
  | .mapManaged size _ => vaBytes - vramBytes < size
  | _ => False

/-- The thread that holds `alloc_lock` has a request for more than there is. -/
def Holder.oversized : Holder → Prop
  | .reclaim _ _ next | .run next | .drain next => next.oversized
  | .evictAll size => vramBytes < size
  | _ => False

instance (h : Holder) : Decidable h.oversized := by
  unfold Holder.oversized Next.oversized
  repeat' split
  all_goals infer_instance

def Next.tries : Next → ℕ
  | .take _ tries | .mapManaged _ tries => tries
  | _ => 0

/-- How far the request is from its answer: the phase, and what is left of the pending list. -/
def Holder.ahead : Holder → ℕ × ℕ
  | .reclaim todo _ next => (if next.tries = 0 then 7 else 4, todo.length)
  | .run next => (if next.tries = 0 then 6 else if next.tries = 1 then 3 else 1, 0)
  | .drain _ => (5, 0)
  | .evictAll _ => (2, 0)
  | _ => (0, 0)

def Action.isHolders : Action → Bool
  | .lock _ | .reclaim | .take | .drain _ | .evictAll _ | .mapBlock | .undo | .mapManaged _
  | .addRange | .lookup | .snap => true
  | _ => false

def Clean (a : VramAllocator) : Prop :=
  ∀ b ∈ a.live.entries, 0 < b.2 ∧ ∀ c ∈ a.free.entries, Separate b c

/-- One step of a request for more than there is: it goes on, or it returns `ENOMEM`, or `EIO`
from the drain. Only reclaiming and evicting change an allocator. -/
structure Refusal (s : State) (a : Action) (s' : State) : Prop where
  answer : s'.holder.oversized ∧ reply s a = none ∨
    s'.holder = .free ∧ (reply s a = some (.error .enomem) ∨ ∃ next, s.holder = .drain next ∧
      reply s a = some (.error .eio))
  sooner : Prod.Lex (· < ·) (· < ·) s'.holder.ahead s.holder.ahead
  allocators : a = .reclaim ∨ (∃ envs, a = .evictAll envs) ∨
    s'.mem.vram = s.mem.vram ∧ s'.managedVa = s.managedVa

structure Refuses (cfg : Config) (s : State) : Prop where
  vram : Clean s.mem.vram
  managedVa : Clean s.managedVa
  /-- Also between the two halves of `mapManaged`. -/
  inside : ∀ size tries addr va, s.holder = .run (.mapManaged size tries) →
    vaBytes - vramBytes < size → s.managedVa.alloc size = some (addr, va) → Clean va
  steps : ∀ a s', s.holder.oversized → a.isHolders = true → step cfg s a = some s' → Refusal s a s'
  goesOn : s.holder.oversized → ∃ a, a.isHolders = true ∧ (step cfg s a).isSome = true

def sizesRound (_ : State) : Action → Prop
  | .lock (.alloc size) | .lock (.allocManaged size) => size + pageSize - 1 < 2 ^ 64
  | _ => True

instance (s : State) (a : Action) : Decidable (sizesRound s a) :=
  match a with
  | .lock (.alloc _) | .lock (.allocManaged _) => inferInstanceAs (Decidable (_ < _))
  | .lock (.free _) | .lock .reclaim | .publish _ | .retire _ | .reclaim | .take | .drain _
  | .evictAll _ | .mapBlock | .undo | .mapManaged _ | .addRange | .lookup | .snap | .raise ..
  | .pop | .demand _ | .prefetch _ | .hostFault .. | .submit _ | .access .. | .finish _
  | .hostStore .. => .isTrue trivial

/-! ### A request that fits no block -/

theorem alloc_oversized {v : VramAllocator} {base size n : ℕ}
    (h : v.WF base size) (hlarge : size < n)
    (hfit : n + v.align - 1 < 2 ^ 64) : v.alloc n = none := by
  rw [alloc_eq_none (by omega)]
  have hround := (roundUp_spec h.align_pos hfit).1
  by_contra hne
  push Not at hne
  obtain ⟨x, hlo, hhi, -⟩ := (h.gap_iff (by omega)).mpr hne
  omega

theorem clean_of_wf {v : VramAllocator} {base size : ℕ} (h : v.WF base size) : Clean v := by
  intro b hb
  refine ⟨(h.live_block b hb).2.2, fun c hc => ?_⟩
  have hsep := (List.pairwise_append.mp h.blocks_disjoint).2.2 c hc b hb
  exact Or.symm hsep

def Next.Rounds : Next → Prop
  | .mapManaged size _ => size + pageSize - 1 < 2 ^ 64
  | _ => True

def Holder.Rounds : Holder → Prop
  | .reclaim _ _ next | .run next => next.Rounds
  | .drain next => next.Rounds ∧ next.tries ≠ 0
  | _ => True

theorem rounds_step (h : s.holder.Rounds) (hok : sizesRound s a) (hs : step cfg s a = some s') :
    s'.holder.Rounds := by
  rcases step_cases hs with hs | hs | hs
  · cases a with
    | lock req =>
      simp only [holderStep] at hs
      split at hs <;> try simp only [reduceCtorEq] at hs
      split_ifs at hs
      cases hs
      cases req with
      | allocManaged size => exact hok
      | _ => trivial
    | _ =>
      simp only [holderStep, reduceCtorEq] at hs
      all_goals
        repeat' split at hs
        all_goals
          simp only [Option.some.injEq, reduceCtorEq] at hs
          try
            subst hs
            simp_all [Holder.Rounds, Next.Rounds, Next.tries, State.created, State.reclaimThen]
  · rw [(faultStep_outside hs).holder]
    exact h
  · rw [(worldStep_outside hs).holder]
    exact h

/-! ### The steps of the request -/

theorem take_step (hs : step cfg s .take = some s') :
    ∃ size tries, s.holder = .run (.take size tries) ∧ holderStep cfg s .take = some s' := by
  rcases step_cases hs with hs | hs | hs
  · have hrun := hs
    simp only [holderStep] at hs
    split at hs <;> try simp only [reduceCtorEq] at hs
    rename_i size tries hh
    exact ⟨size, tries, hh, hrun⟩
  · cases hs
  · cases hs

theorem refusal_take (hi : Inv s) {size tries : ℕ} (hh : s.holder = .run (.take size tries))
    (hlarge : vramBytes < size) (hs : holderStep cfg s .take = some s') : Refusal s .take s' := by
  have hfits := hi.fits
  rw [hh] at hfits
  have hsize : s.mem.vramSize = vramBytes := by
    rw [Mem.vramSize, hi.vramPages]
    rfl
  have hnone : s.mem.allocFrame size = none := by
    rw [Mem.allocFrame, alloc_oversized hi.mem.wf (hsize ▸ hlarge) (hi.mem.align ▸ hfits.2),
      Option.map_none]
  simp only [holderStep, hh, hnone] at hs
  have hreply : reply s .take = if tries < 2 then none else some (.error .enomem) := by
    simp [reply, hh, hnone]
  split at hs <;> cases hs
  · exact ⟨.inl ⟨hlarge, hreply⟩, by
      simp [hh, Holder.ahead, Next.tries, Prod.lex_def], .inr (.inr ⟨rfl, rfl⟩)⟩
  · exact ⟨.inl ⟨hlarge, hreply⟩, by
      simp [hh, Holder.ahead, Next.tries, Prod.lex_def], .inr (.inr ⟨rfl, rfl⟩)⟩
  · next h₀ h₁ =>
    have htries : ¬ tries < 2 := by
      intro hlt
      obtain hzero | hone : tries = 0 ∨ tries = 1 := by omega
      · exact h₀ hzero
      · exact h₁ hone
    rw [if_neg htries] at hreply
    refine ⟨.inr ⟨rfl, .inl hreply⟩, ?_, .inr (.inr ⟨rfl, rfl⟩)⟩
    simp only [hh, Holder.ahead, Prod.lex_def]
    split_ifs <;> simp

theorem refusal_mapManaged (ht : VaTiled s) (hr : s.holder.Rounds)
    {size tries : ℕ} {host : Option ℕ}
    (hh : s.holder = .run (.mapManaged size tries)) (hlarge : vaBytes - vramBytes < size)
    (hs : holderStep cfg s (.mapManaged host) = some s') : Refusal s (.mapManaged host) s' := by
  rw [hh] at hr
  have hnone : s.managedVa.alloc size = none := alloc_oversized ht.wf hlarge (ht.align ▸ hr)
  simp only [holderStep, hh, hnone] at hs
  have hreply : reply s (.mapManaged host) = if tries = 0 then none else some (.error .enomem) := by
    simp [reply, hh, hnone]
  split at hs <;> cases hs
  · exact ⟨.inl ⟨hlarge, hreply⟩, by
      simp [hh, Holder.ahead, Next.tries, Prod.lex_def], .inr (.inr ⟨rfl, rfl⟩)⟩
  · next h₀ =>
    rw [if_neg h₀] at hreply
    refine ⟨.inr ⟨rfl, .inl hreply⟩, ?_, .inr (.inr ⟨rfl, rfl⟩)⟩
    simp only [hh, Holder.ahead, Prod.lex_def]
    split_ifs <;> simp

theorem refusal_reclaim (hover : s.holder.oversized) (hs : step cfg s .reclaim = some s') :
    Refusal s .reclaim s' := by
  obtain ⟨p, todo, kept, next, hh, rfl⟩ | ⟨kept, next, hh, rfl⟩ := reclaim_step hs
  · rw [hh] at hover
    refine ⟨.inl ⟨?_, rfl⟩, ?_, .inl rfl⟩
    · split_ifs <;> exact hover
    · split_ifs <;> simp [hh, Holder.ahead, Prod.lex_def]
  · rw [hh] at hover
    have hdone : next ≠ .done := by
      rintro rfl
      exact hover
    simp only [if_neg hdone]
    refine ⟨.inl ⟨hover, rfl⟩, ?_, .inl rfl⟩
    simp only [hh, Holder.ahead, Prod.lex_def]
    split_ifs <;> simp

theorem refusal_step (hi : Inv s) (ht : VaTiled s) (hr : s.holder.Rounds)
    (hover : s.holder.oversized)
    (ha : a.isHolders = true) (hs : step cfg s a = some s') : Refusal s a s' := by
  cases a with
  | lock req =>
    rw [(lock_step hs).1] at hover
    exact hover.elim
  | reclaim => exact refusal_reclaim hover hs
  | take =>
    obtain ⟨size, tries, hh, hs⟩ := take_step hs
    rw [hh] at hover
    exact refusal_take hi hh hover hs
  | drain ok =>
    obtain ⟨next, hh, rfl⟩ := drain_step hs
    have hahead : s.holder.ahead = (5, 0) := by rw [hh]; rfl
    rw [hh] at hover hr
    have hreply : reply s (.drain ok) = if ok then none else some (.error .eio) := by
      simp [reply, hh]
    cases ok with
    | true =>
      refine ⟨.inl ⟨hover, hreply⟩, ?_, .inr (.inr ⟨rfl, rfl⟩)⟩
      rw [hahead]
      simp [State.reclaimThen, Holder.ahead, hr.2, Prod.lex_def]
    | false =>
      refine ⟨.inr ⟨rfl, .inr ⟨next, hh, hreply⟩⟩, ?_, .inr (.inr ⟨rfl, rfl⟩)⟩
      rw [hahead]
      simp [Holder.ahead, Prod.lex_def]
  | evictAll envs =>
    rcases step_cases hs with hs | hs | hs
    · simp only [holderStep] at hs
      split at hs <;> simp only [Option.some.injEq, reduceCtorEq] at hs
      rename_i size hh
      subst hs
      rw [hh] at hover
      refine ⟨.inl ⟨hover, rfl⟩, ?_, .inr (.inl ⟨envs, rfl⟩)⟩
      simp [hh, Holder.ahead, Next.tries, Prod.lex_def]
    · cases hs
    · cases hs
  | mapBlock =>
    obtain ⟨addr, size, hh, -⟩ := mapBlock_step hs
    rw [hh] at hover
    exact hover.elim
  | undo =>
    rcases step_cases hs with hs | hs | hs
    · simp only [holderStep] at hs
      split at hs <;> try simp only [reduceCtorEq] at hs
      rename_i addr len hh
      rw [hh] at hover
      exact hover.elim
    · cases hs
    · cases hs
  | mapManaged host =>
    rcases step_cases hs with hs | hs | hs
    · have hrun := hs
      simp only [holderStep] at hs
      split at hs <;> try simp only [reduceCtorEq] at hs
      rename_i size tries hh
      rw [hh] at hover
      exact refusal_mapManaged ht hr hh hover hrun
    · cases hs
    · cases hs
  | addRange =>
    obtain ⟨addr, bytes, host, id, hh, -⟩ := addRange_step hs
    rw [hh] at hover
    exact hover.elim
  | lookup =>
    obtain ⟨addr, hh, -⟩ := lookup_step hs
    rw [hh] at hover
    exact hover.elim
  | snap =>
    obtain ⟨p, c, todo, hh, -⟩ | ⟨p, hh, -⟩ := snap_step hs
    · rw [hh] at hover
      exact hover.elim
    · rw [hh] at hover
      exact hover.elim
  | _ => cases ha

theorem refusal_goesOn (hover : s.holder.oversized) :
    ∃ a, a.isHolders = true ∧ (step cfg s a).isSome = true := by
  cases hh : s.holder with
  | reclaim todo kept next => exact ⟨.reclaim, rfl, reclaim_enabled hh⟩
  | run next =>
    rw [hh] at hover
    cases next with
    | take size tries =>
      refine ⟨.take, rfl, ?_⟩
      simp only [step, holderStep, hh]
      repeat' split
      all_goals rfl
    | mapManaged size tries =>
      refine ⟨.mapManaged none, rfl, ?_⟩
      simp only [step, holderStep, hh]
      repeat' split
      all_goals rfl
    | _ => exact hover.elim
  | drain next => exact ⟨.drain true, rfl, by simp [step, holderStep, hh]⟩
  | evictAll size => exact ⟨.evictAll fun _ => Env.calm, rfl, by simp [step, holderStep, hh]⟩
  | _ =>
    rw [hh] at hover
    exact hover.elim

theorem Inv.refuses (hi : Inv s) (ht : VaTiled s) (hr : s.holder.Rounds) : Refuses cfg s where
  vram := clean_of_wf hi.mem.wf
  managedVa := clean_of_wf ht.wf
  inside := by
    intro size tries addr va hh hlarge halloc
    rw [hh] at hr
    rw [alloc_oversized ht.wf hlarge (ht.align ▸ hr)] at halloc
    cases halloc
  steps := fun _ _ hover ha hs => refusal_step hi ht hr hover ha hs
  goesOn := refusal_goesOn

/-- In every run in which the rounding of no request wraps. -/
theorem oversized_refused (cfg : Config) (s : State)
    (h : Reach (step cfg) sizesRound (init cfg) s) :
    Refuses cfg s := by
  have hwrap : ∀ s a, sizesRound s a → noWrap s a := by
    intro s a hok
    cases a with
    | lock req =>
      cases req with
      | alloc size => exact hok
      | _ => trivial
    | _ => trivial
  have hi : ∀ s, Reach (step cfg) sizesRound (init cfg) s → Inv s := fun s hs => reach_inv hwrap hs
  have ht : VaTiled s ∧ s.holder.Rounds :=
    h.invariant_of (P := fun s => VaTiled s ∧ s.holder.Rounds) hi ⟨vaTiled_init cfg, trivial⟩
      fun s a t hi hp hok hs => ⟨vaTiled_step hi hp.1 hs, rounds_step hp.2 hok hs⟩
  exact (hi s h).refuses ht.1 ht.2

/-- A request for 512 MiB, turned down after a drain and an eviction. -/
def hugeAlloc : List Action := [.lock (.alloc (2 ^ 29)), .reclaim, .take,
    .drain true, .reclaim, .take,
  .evictAll fun _ => Env.calm]

theorem oversized_refused_hugeAlloc :
    ∃ s s',
      exec (when sizesRound (step ⟨1, 1, false, 16⟩)) (init ⟨1, 1, false, 16⟩) hugeAlloc = some s ∧
      s.holder.oversized ∧ step ⟨1, 1, false, 16⟩ s .take = some s' ∧ s'.holder = .free ∧
      reply s .take = some (.error .enomem) ∧ Refuses ⟨1, 1, false, 16⟩ s := by
  have hrun : (exec (when sizesRound (step ⟨1, 1, false, 16⟩))
    (init ⟨1, 1, false, 16⟩) hugeAlloc).map
      (fun s => (decide s.holder.oversized,
        (step ⟨1, 1, false, 16⟩ s .take).map fun s' => (s'.holder.isFree,
          (reply s .take).isSome))) =
      some (true, some (true, true)) := by decide
  obtain ⟨s, hs, hq⟩ := Option.map_eq_some_iff.mp hrun
  simp only [Prod.mk.injEq, decide_eq_true_eq] at hq
  obtain ⟨hover, hstep⟩ := hq
  obtain ⟨s', hs', hend⟩ := Option.map_eq_some_iff.mp hstep
  simp only [Prod.mk.injEq] at hend
  have href := oversized_refused ⟨1, 1, false, 16⟩ s (.of_exec_when .refl hs)
  have hfree := Holder.isFree_iff.mp hend.1
  refine ⟨s, s', hs, hover, hs', hfree, ?_, href⟩
  obtain ⟨-, hnone⟩ | ⟨-, hnomem | ⟨next, hh, -⟩⟩ := (href.steps .take s' hover rfl hs').answer
  · rw [hnone] at hend
    cases hend.2
  · exact hnomem
  · obtain ⟨size, tries, hh', -⟩ := take_step hs'
    rw [hh] at hh'
    cases hh'

/-- `2 ^ 64 - 1` bytes are rounded to none: the request has an empty block at address 0. -/
theorem wrapped_not_refused :
    ¬ ∀ s, Reach (step ⟨1, 1, false, 16⟩) anyStep (init ⟨1, 1, false, 16⟩) s →
      Refuses ⟨1, 1, false, 16⟩ s := by
  have hrun : (exec (step ⟨1, 1, false, 16⟩) (init ⟨1, 1, false, 16⟩)
      [.lock (.alloc (2 ^ 64 - 1)), .reclaim, .take]).map (fun s => s.mem.vram.live.entries) =
      some [(0, 0)] := by decide
  obtain ⟨s, hs, hlive⟩ := Option.map_eq_some_iff.mp hrun
  intro h
  have hpos := ((h s (.of_exec .refl hs)).vram (0, 0) (by simp [hlive])).1
  exact absurd hpos (lt_irrefl 0)

end SoftGpu.Driver
