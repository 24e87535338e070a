import SoftGpu.FrameOwnership
import SoftGpu.Retry
import SoftGpu.Newcomers

/-!
# The pages that one fault service brings in

`service_faults` from the pop of a fault to the end of its prefetch, one access of the
CLOCK hand at a time. Engines set ACCESSED and DIRTY of any page in VRAM between any
two steps. Nobody else takes `mem_lock` meanwhile.

The prefetch stops at half of the frames that managed memory can use, so that the pages
it evicts are older ones. That counts on the hand reaching the older pages first. An
older page that an engine uses again after the hand has cleared its bit gets another
chance, and an own page whose bit was cleared in the same sweep is taken instead.
-/

namespace SoftGpu.FaultService

open Machine
open Retry (queue freeFrames capacity pages)

inductive Point
  | migrate (va : ℕ)
  | scan (va host chances : ℕ)
  | evict (va host : ℕ)
  | fill (va host frame : ℕ)
  | turn (va : ℕ)
  | done
  deriving DecidableEq, Repr

/-- `ahead` is the end of the range and the turns left, once the prefetch has begun. The rest is
history: the pages that the service has migrated in, those whose bit its hand has cleared, and those
it has evicted although it had migrated them in. -/
structure State where
  mem : Mem
  point : Point
  ahead : Option (ℕ × ℕ)
  own : List ℕ
  passed : ℕ → Bool
  lost : List ℕ

def start (m : Mem) (va : ℕ) : State := ⟨m, .migrate va, none, [], fun _ => false, []⟩

inductive Action
  | drive (env : Env) (sequential : Bool)
  | touch (v : ℕ) (dirty : Bool)

def beginAhead (x : State) (va : ℕ) : State :=
  match x.mem.ranges.atMost va with
  | none => { x with point := .done }
  | some e => { x with point := .turn va, ahead := some (e.2.stop, x.mem.prefetchBudget) }

def returned (x : State) (va : ℕ) (moved sequential : Bool) : State :=
  match x.ahead with
  | some _ => { x with point := .turn (va + pageSize) }
  | none =>
    if moved && sequential && x.mem.prefetchPages ≠ 0 then beginAhead x (va + pageSize)
    else { x with point := .done }

def driveStep (x : State) (env : Env) (sequential : Bool) : Point → Option State
  | .migrate va =>
    let pg := x.mem.mmu.page va
    match pg.kind with
    | .vram => some (returned x va false sequential)
    | .absent => some { x with point := .done }
    | .host =>
      if pg.host = 0 then some { x with point := .done }
      else
        match x.mem.allocFrame pageSize with
        | some (pa, m) => some { x with mem := m, point := .fill va pg.host pa }
        | none => some { x with point := .scan va pg.host x.mem.resident.length }
  | .scan va host 0 => some { x with point := .evict va host }
  | .scan va host (c + 1) =>
    match x.mem.resident with
    | [] => some { x with point := .evict va host }
    | e :: rest =>
      let (set, mmu) := x.mem.mmu.testAndClearAccessed e.2
      if set then
        some { x with
          mem := { x.mem with mmu := mmu, resident := rest ++ [e] }
          passed := Function.update x.passed (e.2 / pageSize) true
          point := .scan va host c }
      else some { x with mem := { x.mem with mmu := mmu }, point := .evict va host }
  | .evict va host =>
    match x.mem.resident with
    | [] => some { x with point := .done }
    | e :: _ =>
      match x.mem.evictLocked e.2 env with
      -- The page could not be published and stays.
      | (none, m) => some { x with mem := m, point := .done }
      | (some pa, m) =>
        some { x with
          mem := m
          point := .fill va host pa
          lost := if e.2 / pageSize ∈ x.own then x.lost ++ [e.2 / pageSize] else x.lost }
  | .fill va host pa =>
    match x.mem.copyIn pa host with
    | .error _ => some { x with mem := x.mem.freeFrame pa, point := .done }
    | .ok m =>
      match m.install va pa host env with
      | .error _ => some { x with mem := m.freeFrame pa, point := .done }
      | .ok m' =>
        some (returned { x with
          mem := m'
          own := x.own ++ [va / pageSize]
          passed := Function.update x.passed (va / pageSize) false } va true sequential)
  | .turn va =>
    match x.ahead with
    | some (stop, k + 1) =>
      if va < stop then some { x with point := .migrate va, ahead := some (stop, k) }
      else some { x with point := .done }
    | _ => some { x with point := .done }
  | .done => none

def step (x : State) : Action → Option State
  | .drive env sequential => driveStep x env sequential x.point
  | .touch v dirty =>
    if (x.mem.mmu.pte v).present && (x.mem.mmu.pte v).inVram then
      some { x with mem := { x.mem with mmu := x.mem.mmu.orFlags (v * pageSize) dirty true } }
    else none

/-- No engine sets ACCESSED of an older page again after the hand of this service has cleared it. -/
def keepsCleared (x : State) : Action → Prop
  | .touch v _ => x.point ≠ .done → x.passed v = true → v ∈ x.own
  | .drive .. => True

instance (x : State) (a : Action) : Decidable (keepsCleared x a) :=
  match a with
  | .touch v _ => inferInstanceAs (Decidable (x.point ≠ .done → x.passed v = true → v ∈ x.own))
  | .drive .. => .isTrue trivial

/-! ### What the service does with frames -/

section Memory
variable {m : Mem} {loose blocks : List (ℕ × ℕ)} {regions : List Region}
  {va pa host : ℕ} {env : Env}

theorem evict_front {e : ℕ × ℕ} {rest : List (ℕ × ℕ)} (h : MemInv m loose blocks regions)
    (hres : m.resident = e :: rest) {r : Option ℕ} {m' : Mem}
    (hev : m.evictLocked e.2 env = (r, m')) (hr : r = some pa) :
    MemInv m' ((pa, pageSize) :: loose) blocks regions ∧ freeFrames m' = freeFrames m ∧
      queue m' = ⟨pages rest, fun v => (m'.mmu.pte v).accessed⟩ ∧ m'.resident = rest ∧
      (∀ v, v ≠ e.2 / pageSize → m'.mmu.pte v = m.mmu.pte v) ∧
      m'.mmu.vramPages = m.mmu.vramPages := by
  obtain ⟨hva, hv, hin⟩ := h.clock.entry e (by simp [hres])
  have hpos : m.residentPos e.2 = some e.1 := (h.clock.pos e.2 e.1).mpr (by simp [hres])
  have hnodes := h.clock.nodes
  rw [hres] at hnodes
  obtain ⟨mmu', -, -, heq⟩ | ⟨hm, -, heq⟩ := evictLocked_cases h hva hv hin env
  · rw [hev, Prod.mk.injEq] at heq
    rw [hr] at heq
    cases heq.1
  · have hi := h.evicted hva hv hin hm
    rw [hev, Prod.mk.injEq, hr, Option.some.injEq] at heq
    obtain ⟨rfl, rfl⟩ := heq
    refine ⟨hi, ?_, ?_, ?_, ?_, ?_⟩ <;> simp only [Mem.forgetResident, hpos]
    · rfl
    · rw [queue, hres, Retry.filter_front hnodes]
    · rw [hres, Retry.filter_front hnodes]
    · intro v hne
      simp [Function.update_of_ne hne]
    · rfl

structure Away (m : Mem) (va host : ℕ) : Prop where
  host : host ≠ 0
  managed : m.mmu.vramPages ≤ va / pageSize
  present : (m.mmu.pte (va / pageSize)).present = true
  absent : (m.mmu.pte (va / pageSize)).inVram = false

theorem Away.of_page (h : MemInv m loose blocks regions) (hk : (m.mmu.page va).kind = .host)
    (hhost : (m.mmu.page va).host ≠ 0) : Away m va (m.mmu.page va).host := by
  obtain ⟨-, hp, hin, -⟩ := Mmu.page_kind_host hk
  refine ⟨hhost, ?_, hp, hin⟩
  by_contra hlt
  have hid := (h.table.ident _ (Nat.not_le.mp hlt) hp).1
  simp [hin] at hid

theorem Away.same {m' : Mem} (h : Away m va host) (hs : Mmu.Same m.mmu m'.mmu) :
    Away m' va host where
  host := h.host
  managed := by
    rw [hs.vramPages]
    exact h.managed
  present := (hs.present _).trans h.present
  absent := (hs.inVram _).trans h.absent

theorem fill_ok (h : MemInv m ((pa, pageSize) :: loose) blocks regions) (hva : va % pageSize = 0)
    (haway : Away m va host) (env : Env) :
    ∃ m', m.copyIn pa host = .ok m' ∧
      m'.install va pa host env = .ok (m.installed va pa host env) := by
  obtain ⟨hhost, hv, hp, hin⟩ := haway
  obtain ⟨hmod, hlt⟩ := h.loose_page
  have hbad : m.badFrame pa host = false := by
    simp [Mem.badFrame, hmod, hhost, Mem.vramSize, hlt]
  have hf : pa / pageSize < m.mmu.vramPages := Nat.div_lt_of_lt_mul (by rwa [Nat.mul_comm])
  have hn := (h.managed_page hv hp).1
  refine ⟨_, if_neg (by simp [hbad]), ?_⟩
  simp only [Mem.install]
  rw [Mmu.makeResident_eq (m := m.mmu) hva hmod hn hf hp hin]
  rfl

end Memory

/-! ### What a step does -/

def State.filled (x : State) (va pa host : ℕ) (env : Env) : State :=
  { x with
    mem := x.mem.installed va pa host env
    own := x.own ++ [va / pageSize]
    passed := Function.update x.passed (va / pageSize) false }

inductive Moves (x : State) : State → Prop
  | stop (m : Mem) : Moves x { x with mem := m, point := .done }
  | skip {va : ℕ} (hx : x.point = .migrate va) (sequential : Bool) :
      Moves x (returned x va false sequential)
  | take {va host pa : ℕ} {m : Mem} (hx : x.point = .migrate va) (haway : Away x.mem va host)
      (hal : x.mem.allocFrame pageSize = some (pa, m)) :
      Moves x { x with mem := m, point := .fill va host pa }
  | search {va host : ℕ} (hx : x.point = .migrate va) (haway : Away x.mem va host)
      (hal : x.mem.allocFrame pageSize = none) :
      Moves x { x with point := .scan va host x.mem.resident.length }
  | pass {va host c : ℕ} {e : ℕ × ℕ} {rest : List (ℕ × ℕ)} (hx : x.point = .scan va host (c + 1))
      (hres : x.mem.resident = e :: rest)
        (hacc : (x.mem.mmu.pte (e.2 / pageSize)).accessed = true) :
      Moves x { x with
        mem := { x.mem with
          mmu := x.mem.mmu.setPte (e.2 / pageSize)
            { x.mem.mmu.pte (e.2 / pageSize) with accessed := false }
          resident := rest ++ [e] }
        passed := Function.update x.passed (e.2 / pageSize) true
        point := .scan va host c }
  | pick {va host c : ℕ} (hx : x.point = .scan va host c)
      (hacc : ∀ e ∈ x.mem.resident.head?, c = 0 ∨
        (x.mem.mmu.pte (e.2 / pageSize)).accessed = false) :
      Moves x { x with point := .evict va host }
  | evict {va host pa : ℕ} {e : ℕ × ℕ} {rest : List (ℕ × ℕ)} {m : Mem} {env : Env}
      (hx : x.point = .evict va host) (hres : x.mem.resident = e :: rest)
      (hev : x.mem.evictLocked e.2 env = (some pa, m)) :
      Moves x { x with
        mem := m
        point := .fill va host pa
        lost := if e.2 / pageSize ∈ x.own then x.lost ++ [e.2 / pageSize] else x.lost }
  | fill {va host pa : ℕ} (hx : x.point = .fill va host pa) (env : Env) (sequential : Bool) :
      Moves x (returned (x.filled va pa host env) va true sequential)
  | turn {va stop k : ℕ} (hx : x.point = .turn va) (ha : x.ahead = some (stop, k + 1)) :
      Moves x { x with point := .migrate va, ahead := some (stop, k) }

namespace Point

def va : Point → ℕ
  | .migrate va | .scan va _ _ | .evict va _ | .fill va _ _ | .turn va => va
  | .done => 0

def held : Point → List (ℕ × ℕ)
  | .fill _ _ pa => [(pa, pageSize)]
  | _ => []

def target : Point → Option (ℕ × ℕ)
  | .scan va host _ | .evict va host | .fill va host _ => some (va, host)
  | _ => none

def evicting : Point → Bool
  | .scan .. | .evict .. => true
  | _ => false

def begun : Point → ℕ
  | .turn _ => 0
  | _ => 1

end Point

structure Service (loose blocks : List (ℕ × ℕ)) (regions : List Region) (cap : ℕ) (x : State) :
    Prop where
  mem : MemInv x.mem (x.point.held ++ loose) blocks regions
  room : freeFrames x.mem + x.mem.resident.length + x.point.held.length = cap
  aligned : x.point.va % pageSize = 0
  away : ∀ p ∈ x.point.target, Away x.mem p.1 p.2
  full : x.point.evicting = true → freeFrames x.mem = 0
  first : x.ahead = none → x.own = [] ∧ x.point.begun = 1
  quota : ∀ p ∈ x.ahead, x.own.length + p.2 + x.point.begun ≤ max 1 (cap / 2)

section Steps
variable {loose blocks : List (ℕ × ℕ)} {regions : List Region} {cap va : ℕ} {x y : State}
  {env : Env} {sequential : Bool}

theorem start_service {m : Mem} (h : MemInv m loose blocks regions) (hva : va % pageSize = 0) :
    Service loose blocks regions (capacity m) (start m va) where
  mem := h
  room := rfl
  aligned := hva
  away := by simp [start, Point.target]
  full := by simp [start, Point.evicting]
  first := fun _ => ⟨rfl, rfl⟩
  quota := by simp [start]

theorem testAndClearAccessed_front {m : Mem} (h : MemInv m loose blocks regions) {e : ℕ × ℕ}
    {rest : List (ℕ × ℕ)} (hres : m.resident = e :: rest) :
    m.mmu.testAndClearAccessed e.2 = ((m.mmu.pte (e.2 / pageSize)).accessed,
      m.mmu.setPte (e.2 / pageSize) { m.mmu.pte (e.2 / pageSize) with accessed := false }) := by
  obtain ⟨-, hv, hin⟩ := h.clock.entry e (by simp [hres])
  exact Retry.testAndClearAccessed_eq (h.managed_page hv (h.table.valid _ hin)).1

theorem drive_moves (hs : Service loose blocks regions cap x)
    (hd : driveStep x env sequential x.point = some y) : Moves x y := by
  have hmem := hs.mem
  cases hx : x.point with
  | migrate va =>
    rw [hx] at hd hmem
    simp only [driveStep] at hd
    split at hd
    · cases hd
      exact .skip hx sequential
    · cases hd
      exact .stop x.mem
    · next hk =>
      split_ifs at hd with hhost
      · cases hd
        exact .stop x.mem
      · have haway := Away.of_page hmem hk hhost
        split at hd
        · next hal =>
          cases hd
          exact .take hx haway hal
        · next hal =>
          cases hd
          exact .search hx haway hal
  | scan va host c =>
    rw [hx] at hd hmem
    cases c with
    | zero =>
      cases hd
      exact .pick hx fun _ _ => .inl rfl
    | succ c =>
      simp only [driveStep] at hd
      split at hd
      · next hres =>
        cases hd
        exact .pick hx (by simp [hres])
      · next e rest hres =>
        rw [testAndClearAccessed_front hmem hres] at hd
        dsimp only at hd
        split_ifs at hd with hacc
        · cases hd
          exact .pass hx hres hacc
        · rw [Bool.not_eq_true] at hacc
          have hself : x.mem.mmu.setPte (e.2 / pageSize)
              { x.mem.mmu.pte (e.2 / pageSize) with accessed := false } = x.mem.mmu := by
            rw [← hacc]
            exact congrArg (fun pte => { x.mem.mmu with pte := pte }) (Function.update_eq_self _ _)
          rw [hself] at hd
          cases hd
          exact .pick hx (by simp [hres, hacc])
  | evict va host =>
    rw [hx] at hd
    simp only [driveStep] at hd
    split at hd
    · cases hd
      exact .stop x.mem
    · next hres =>
      split at hd
      · cases hd
        exact .stop _
      · next hev =>
        cases hd
        exact .evict hx hres hev
  | fill va host pa =>
    rw [hx] at hd hmem
    have hva : va % pageSize = 0 := by simpa [hx, Point.va] using hs.aligned
    have haway : Away x.mem va host := hs.away (va, host) (by simp [hx, Point.target])
    obtain ⟨m, hcopy, hinst⟩ := fill_ok hmem hva haway env
    simp only [driveStep, hcopy, hinst] at hd
    cases hd
    exact .fill hx env sequential
  | turn va =>
    rw [hx] at hd
    simp only [driveStep] at hd
    split at hd
    · next ha =>
      split_ifs at hd
      · cases hd
        exact .turn hx ha
      · cases hd
        exact .stop x.mem
    · cases hd
      exact .stop x.mem
  | done =>
    rw [hx] at hd
    cases hd

theorem returned_cases (x : State) (va : ℕ) (moved sequential : Bool) :
    (x.ahead ≠ none ∧ returned x va moved sequential = { x with point := .turn (va + pageSize) }) ∨
    (x.ahead = none ∧ moved = true ∧ ∃ stop, returned x va moved sequential =
      { x with point := .turn (va + pageSize), ahead := some (stop, x.mem.prefetchBudget) }) ∨
    returned x va moved sequential = { x with point := .done } := by
  cases ha : x.ahead with
  | some p => exact .inl ⟨by simp, by simp only [returned, ha]⟩
  | none =>
    right
    simp only [returned, ha, beginAhead]
    split_ifs with hmoved
    · have hmoved' : moved = true := by
        cases moved with
        | true => rfl
        | false => simp at hmoved
      split
      · exact .inr rfl
      · exact .inl ⟨trivial, hmoved', _, rfl⟩
    · exact .inr rfl

/-! ### The frames and the budget -/

theorem Service.bound (hs : Service loose blocks regions cap x) :
    x.own.length ≤ max 1 (cap / 2) := by
  cases ha : x.ahead with
  | none => simp [(hs.first ha).1]
  | some p =>
    have hquota := hs.quota p ha
    omega

theorem Service.returned (hmem : MemInv x.mem loose blocks regions)
    (hroom : freeFrames x.mem + x.mem.resident.length = cap) (hva : va % pageSize = 0)
    (hfirst : x.ahead = none → x.own.length ≤ 1)
    (hquota : ∀ p ∈ x.ahead, x.own.length + p.2 ≤ max 1 (cap / 2)) (moved sequential : Bool)
    (hgoing : (returned x va moved sequential).point ≠ .done) :
    Service loose blocks regions cap (returned x va moved sequential) := by
  have hnext : (va + pageSize) % pageSize = 0 := by
    rw [Nat.add_mod_right]
    exact hva
  obtain ⟨ha, heq⟩ | ⟨ha, -, stop, heq⟩ | heq := returned_cases x va moved sequential <;>
    rw [heq] at hgoing ⊢
  · exact ⟨hmem, hroom, hnext, by simp [Point.target], by simp [Point.evicting],
      fun hno => absurd hno ha, hquota⟩
  · have hle : x.mem.prefetchBudget ≤ if 0 < cap / 2 then cap / 2 - 1 else 0 := by
      rw [← hroom]
      exact Nat.min_le_right _ _
    refine ⟨hmem, hroom, hnext, by simp [Point.target], by simp [Point.evicting], by simp, ?_⟩
    intro p hp
    obtain rfl : (stop, x.mem.prefetchBudget) = p := by simpa using hp
    have hone := hfirst ha
    simp only [Point.begun]
    split_ifs at hle <;> omega
  · exact absurd rfl hgoing

theorem Service.moves (hs : Service loose blocks regions cap x) (hmoves : Moves x y)
    (hgoing : y.point ≠ .done) : Service loose blocks regions cap y := by
  obtain ⟨hmem, hroom, hva, haway, hfull, hfirst, hquota⟩ := hs
  induction hmoves with
  | stop m => exact absurd rfl hgoing
  | skip hx sequential =>
    rw [hx] at hmem hroom hva hquota
    refine .returned hmem hroom hva (fun ha => ?_) (fun p hp => ?_) false sequential hgoing
    · simp [(hfirst ha).1]
    · exact Nat.le_of_succ_le (hquota p hp)
  | take hx hpage hal =>
    rw [hx] at hmem hroom hva hfirst hquota
    obtain ⟨heq, hfree⟩ := Retry.allocFrame_some hmem hal
    have hi := hmem.allocFrame hal (by rw [Retry.roundUp_pageSize]; exact pageSize_pos)
    rw [Retry.roundUp_pageSize] at hi
    refine ⟨hi, ?_, hva, ?_, by simp [Point.evicting], hfirst, hquota⟩
    · have hlen := congrArg (fun m => m.resident.length) heq
      simp only [Point.held, List.length_nil, List.length_singleton] at hroom hlen ⊢
      omega
    · intro p hp
      obtain rfl : _ = p := by simpa [Point.target] using hp
      exact hpage.same (by rw [heq]; exact .refl _)
  | search hx hpage hal =>
    rw [hx] at hmem hroom hva hfirst hquota
    refine ⟨hmem, hroom, hva, ?_, fun _ => Retry.allocFrame_none hmem hal, hfirst, hquota⟩
    intro p hp
    obtain rfl : _ = p := by simpa [Point.target] using hp
    exact hpage
  | @pass va host c e rest hx hres hacc =>
    rw [hx] at hmem hroom hva haway hfull hfirst hquota
    have hsame : Mmu.Same x.mem.mmu (x.mem.mmu.setPte (e.2 / pageSize)
        { x.mem.mmu.pte (e.2 / pageSize) with accessed := false }) := .update rfl rfl rfl
    have hperm : (rest ++ [e]).Perm x.mem.resident := by
      rw [hres]
      exact List.perm_append_singleton e rest
    refine ⟨hmem.same hsame hperm, ?_, hva, fun p hp => (haway p hp).same hsame, hfull, hfirst,
      hquota⟩
    rw [← hperm.length_eq] at hroom
    exact hroom
  | pick hx hacc =>
    rw [hx] at hmem hroom hva haway hfull hfirst hquota
    exact ⟨hmem, hroom, hva, haway, hfull, hfirst, hquota⟩
  | @evict va host pa e rest m env hx hres hev =>
    rw [hx] at hmem hroom hva haway hfull hfirst hquota
    obtain ⟨hi, hfree, -, hres', hpte, hpages⟩ := evict_front hmem hres hev rfl
    refine ⟨hi, ?_, hva, ?_, by simp [Point.evicting], hfirst, hquota⟩
    · simp only [Point.held, List.length_nil, hres, List.length_cons] at hroom ⊢
      rw [hfree, hres']
      omega
    · intro p hp
      have hpage : Away x.mem p.1 p.2 := haway p hp
      -- The page that leaves is in VRAM, the other one is not.
      have hne : p.1 / pageSize ≠ e.2 / pageSize := by
        intro heq
        have hin := (hmem.clock.entry e (by simp [hres])).2.2
        rw [← heq, hpage.absent] at hin
        cases hin
      refine ⟨hpage.host, ?_, ?_, ?_⟩
      · rw [hpages]
        exact hpage.managed
      · rw [hpte _ hne]
        exact hpage.present
      · rw [hpte _ hne]
        exact hpage.absent
  | @fill va host pa hx env sequential =>
    rw [hx] at hmem hroom hva haway hquota
    obtain ⟨-, hv, hp, hin⟩ := haway (va, host) rfl
    refine .returned (hmem.installed hva hv hp hin host env) ?_ hva ?_ ?_ true sequential hgoing
    · simp only [State.filled, Mem.installed, List.length_append, List.length_singleton]
      exact hroom
    · intro ha
      simp [State.filled, (hfirst ha).1]
    · intro p hp
      have hle := hquota p hp
      simp only [State.filled, List.length_append, List.length_singleton, Point.begun] at hle ⊢
      omega
  | turn hx ha =>
    rw [hx] at hmem hroom hva hquota
    refine ⟨hmem, hroom, hva, by simp [Point.target], by simp [Point.evicting], by simp, ?_⟩
    intro p hp
    obtain rfl : _ = p := by simpa using hp
    have hle := hquota _ ha
    simp only [Point.begun] at hle ⊢
    omega

theorem returned_eq (x : State) (va : ℕ) (moved sequential : Bool) : ∃ point ahead,
    returned x va moved sequential = { x with point := point, ahead := ahead } ∧
      (point = .turn (va + pageSize) ∨ point = .done) := by
  obtain ⟨-, heq⟩ | ⟨-, -, stop, heq⟩ | heq := returned_cases x va moved sequential
  · exact ⟨_, _, heq, .inl rfl⟩
  · exact ⟨_, _, heq, .inl rfl⟩
  · exact ⟨_, _, heq, .inr rfl⟩

theorem returned_history (x : State) (va : ℕ) (moved sequential : Bool) :
    (returned x va moved sequential).own = x.own ∧
      (returned x va moved sequential).lost = x.lost := by
  obtain ⟨point, ahead, heq, -⟩ := returned_eq x va moved sequential
  rw [heq]
  exact ⟨rfl, rfl⟩

theorem moves_bound (hs : Service loose blocks regions cap x) (hmoves : Moves x y) :
    y.own.length ≤ max 1 (cap / 2) := by
  cases hmoves with
  | skip _ sequential =>
    rw [(returned_history ..).1]
    exact hs.bound
  | fill hx env sequential =>
    have hquota := hs.quota
    rw [hx] at hquota
    rw [(returned_history ..).1]
    simp only [State.filled, List.length_append, List.length_singleton]
    cases ha : x.ahead with
    | none => simp [(hs.first ha).1]
    | some p =>
      have hle := hquota p ha
      simp only [Point.begun] at hle
      omega
  | stop | take | search | pass | pick | evict | turn => exact hs.bound

/-! ### Own pages stay -/

structure Kept (x : State) : Prop where
  newcomers : Clock.Newcomers (queue x.mem) {v | v ∈ x.own} {v | x.passed v = true}
  scanned : ∀ va host c, x.point = .scan va host c → c ≤ x.mem.resident.length ∧
    Clock.Scanned (queue x.mem) {v | v ∈ x.own} {v | x.passed v = true} c
  front : ∀ va host, x.point = .evict va host → ∀ e ∈ x.mem.resident.head?,
    e.2 / pageSize ∈ x.own → ∀ v ∈ pages x.mem.resident, v ∈ x.own

theorem start_kept (m : Mem) (va : ℕ) : Kept (start m va) where
  newcomers := by
    simpa [start] using Clock.Newcomers.start (queue m)
  scanned := by simp [start]
  front := by simp [start]

theorem Kept.returned
    (h : Clock.Newcomers (queue x.mem) {v | v ∈ x.own} {v | x.passed v = true}) (va : ℕ)
    (moved sequential : Bool) : Kept (returned x va moved sequential) := by
  obtain ⟨point, ahead, heq, rfl | rfl⟩ := returned_eq x va moved sequential
  · rw [heq]
    exact ⟨h, by simp, by simp⟩
  · rw [heq]
    exact ⟨h, by simp, by simp⟩

theorem queue_front {m : Mem} {e : ℕ × ℕ} {rest : List (ℕ × ℕ)} (hres : m.resident = e :: rest) :
    queue m = ⟨e.2 / pageSize :: pages rest, fun v => (m.mmu.pte v).accessed⟩ := by
  simp [queue, pages, hres]

theorem Kept.moves (hs : Service loose blocks regions cap x) (hk : Kept x) (hmoves : Moves x y)
    (hgoing : y.point ≠ .done) : Kept y := by
  obtain ⟨hnew, hscan, hfront⟩ := hk
  have hmem := hs.mem
  have hnodup := Retry.pages_nodup hmem
  induction hmoves with
  | stop m => exact absurd rfl hgoing
  | skip hx sequential => exact .returned hnew _ false sequential
  | take hx hpage hal =>
    obtain ⟨heq, -⟩ := Retry.allocFrame_some hmem hal
    rw [heq]
    exact ⟨hnew, by simp, by simp⟩
  | search hx hpage hal =>
    refine ⟨hnew, fun va host c hc => ?_, by simp⟩
    simp only [Point.scan.injEq] at hc
    obtain ⟨-, -, rfl⟩ := hc
    refine ⟨Nat.le_refl _, ?_⟩
    have hlen : (queue x.mem).pages.length = x.mem.resident.length := List.length_map _
    rw [← hlen]
    exact .start _ _ _
  | @pass va host c e rest hx hres hacc =>
    obtain ⟨hle, hscanned⟩ := hscan va host (c + 1) hx
    rw [queue_front hres] at hnew hscanned
    rw [hres] at hnodup hle
    have hnd : e.2 / pageSize ∉ pages rest := (List.nodup_cons.mp hnodup).1
    have hc : c ≤ (pages rest).length := by
      simp only [pages, List.length_map]
      exact Nat.le_of_succ_le_succ hle
    have hpassed : {v | Function.update x.passed (e.2 / pageSize) true v = true} =
        insert (e.2 / pageSize) {v | x.passed v = true} := by
      ext v
      by_cases hv : v = e.2 / pageSize <;> simp [hv]
    refine ⟨?_, ?_, by simp⟩
    · simp only [queue, pages, List.map_append, List.map_cons, List.map_nil, hpassed,
        Retry.accessed_setPte]
      exact hnew.pass hnd hacc
    · intro va' host' c' hc'
      simp only [Point.scan.injEq] at hc'
      obtain ⟨-, -, rfl⟩ := hc'
      simp only [queue, pages, List.map_append, List.map_cons, List.map_nil, hpassed,
        Retry.accessed_setPte, List.length_append, List.length_singleton]
      refine ⟨?_, hscanned.pass hnew hacc hc⟩
      simp only [pages, List.length_map] at hc
      omega
  | @pick va host c hx hacc =>
    refine ⟨hnew, by simp, fun _ _ _ e he ho => ?_⟩
    obtain ⟨rest, hres⟩ : ∃ rest, x.mem.resident = e :: rest := by
      cases hl : x.mem.resident with
      | nil => simp [hl] at he
      | cons d rest =>
        obtain rfl : d = e := by simpa [hl] using he
        exact ⟨rest, rfl⟩
    obtain ⟨-, hscanned⟩ := hscan va host c hx
    rw [queue_front hres] at hnew hscanned
    dsimp only
    rw [hres]
    -- All chances are used, or the page at the front has no bit.
    obtain rfl | hzero := hacc e he
    · exact hscanned.victim ho
    · exact hnew.victim ho hzero
  | @evict va host pa e rest m env hx hres hev =>
    obtain ⟨-, -, hq, -, hpte, -⟩ := evict_front hmem hres hev rfl
    rw [queue_front hres] at hnew
    rw [hres] at hnodup
    have hnd : e.2 / pageSize ∉ pages rest := (List.nodup_cons.mp hnodup).1
    refine ⟨?_, by simp, by simp⟩
    dsimp only
    rw [hq]
    refine hnew.take fun v hv => ?_
    have hne : v ≠ e.2 / pageSize := fun heq => hnd (heq ▸ hv)
    rw [hpte v hne]
  | @fill va host pa hx env sequential =>
    refine .returned ?_ va true sequential
    have haway : Away x.mem va host := hs.away (va, host) (by simp [hx, Point.target])
    have hnot : va / pageSize ∉ (queue x.mem).pages := by
      intro hin
      have hres := ((Retry.mem_pages hmem).mp hin).2
      rw [haway.absent] at hres
      cases hres
    have hown : {v | v ∈ x.own ++ [va / pageSize]} = insert (va / pageSize) {v | v ∈ x.own} := by
      ext v
      simp [or_comm]
    have hpassed : {v | Function.update x.passed (va / pageSize) false v = true} =
        {v | x.passed v = true} \ {va / pageSize} := by
      ext v
      by_cases hv : v = va / pageSize <;> simp [hv]
    simp only [State.filled, Retry.queue_installed, hown, hpassed]
    exact hnew.push hnot
  | turn hx ha => exact ⟨hnew, by simp, by simp⟩

/-- A page that an engine uses: it sets the bit of a page of the service itself, or of one that the
hand has not come to. -/
theorem Kept.touch {v : ℕ} {dirty : Bool} (hk : Kept x)
    (hv : x.passed v = true → v ∈ x.own) :
    Kept { x with mem := { x.mem with mmu := x.mem.mmu.orFlags (v * pageSize) dirty true } } := by
  have hq : queue { x.mem with mmu := x.mem.mmu.orFlags (v * pageSize) dirty true } =
      ⟨(queue x.mem).pages, Function.update (queue x.mem).ref v true⟩ := by
    simp only [queue, Mmu.orFlags, Retry.accessed_setPte, mul_div_pageSize, Bool.or_true]
  refine ⟨?_, ?_, hk.front⟩
  · dsimp only
    rw [hq]
    exact hk.newcomers.touch hv
  · intro va host c hc
    dsimp only
    rw [hq]
    exact hk.scanned va host c hc

theorem moves_lost (hs : Service loose blocks regions cap x) (hk : Kept x) (hmoves : Moves x y) :
    y.lost = x.lost := by
  cases hmoves with
  | skip | fill => exact (returned_history ..).2
  | @evict va host pa e rest m env hx hres hev =>
    refine if_neg fun ho => ?_
    have hall := hk.front va host hx e (by simp [hres]) ho
    have hle : x.mem.resident.length ≤ x.own.length := by
      have hsub := (List.subperm_of_subset (Retry.pages_nodup hs.mem) hall).length_le
      simpa [pages] using hsub
    have hroom := hs.room
    have hfree := hs.full (by simp [hx, Point.evicting])
    have hquota := hs.quota
    rw [hx] at hroom hquota
    simp only [Point.held, List.length_nil, Point.begun] at hroom hquota
    have hpos : 0 < x.own.length := List.length_pos_of_mem ho
    cases ha : x.ahead with
    | none => simp [(hs.first ha).1] at ho
    | some p =>
      have hle' := hquota p ha
      omega
  | stop | take | search | pass | pick | turn => rfl

/-! ### Whole services -/

theorem Service.touch {v : ℕ} {dirty : Bool} (hs : Service loose blocks regions cap x) :
    Service loose blocks regions cap
      { x with mem := { x.mem with mmu := x.mem.mmu.orFlags (v * pageSize) dirty true } } where
  mem := hs.mem.same (Mmu.orFlags_same ..) (.refl _)
  room := hs.room
  aligned := hs.aligned
  away := fun p hp => (hs.away p hp).same (Mmu.orFlags_same ..)
  full := hs.full
  first := hs.first
  quota := hs.quota

theorem drive_going (hs : step x (.drive env sequential) = some y) : x.point ≠ .done := by
  intro hdone
  rw [step, hdone] at hs
  cases hs

structure Bounded (loose blocks : List (ℕ × ℕ)) (regions : List Region) (cap : ℕ) (x : State) :
    Prop where
  going : x.point ≠ .done → Service loose blocks regions cap x
  bound : x.own.length ≤ max 1 (cap / 2)

theorem Bounded.step {a : Action} (h : Bounded loose blocks regions cap x)
    (hs : step x a = some y) :
    Bounded loose blocks regions cap y := by
  cases a with
  | drive env sequential =>
    have hgoing := drive_going hs
    have hmoves := drive_moves (h.going hgoing) hs
    exact ⟨(h.going hgoing).moves hmoves, moves_bound (h.going hgoing) hmoves⟩
  | touch v dirty =>
    simp only [FaultService.step] at hs
    split_ifs at hs
    cases hs
    exact ⟨fun hgoing => (h.going hgoing).touch, h.bound⟩

theorem reach_bounded {m : Mem} {ok : State → Action → Prop} (h : MemInv m loose blocks regions)
    (hva : va % pageSize = 0) (hr : Reach step ok (start m va) x) :
    Bounded loose blocks regions (capacity m) x := by
  refine hr.invariant ⟨fun _ => start_service h hva, by simp [start]⟩ ?_
  intro x a y hx _ hs
  exact hx.step hs

theorem reach_kept {m : Mem} (h : MemInv m loose blocks regions) (hva : va % pageSize = 0)
    (hr : Reach step keepsCleared (start m va) x) :
    (x.point ≠ .done → Kept x) ∧ x.lost = [] := by
  refine hr.invariant_of (P := fun x => (x.point ≠ .done → Kept x) ∧ x.lost = [])
    (fun x hr => reach_bounded h hva hr) ⟨fun _ => start_kept m va, rfl⟩ ?_
  intro x a y hb hx hok hs
  obtain ⟨hkept, hlost⟩ := hx
  cases a with
  | drive env sequential =>
    have hgoing := drive_going hs
    have hservice := hb.going hgoing
    have hmoves := drive_moves hservice hs
    exact ⟨(hkept hgoing).moves hservice hmoves,
      (moves_lost hservice (hkept hgoing) hmoves).trans hlost⟩
  | touch v dirty =>
    simp only [step] at hs
    split_ifs at hs
    cases hs
    exact ⟨fun hgoing => (hkept hgoing).touch (hok hgoing), hlost⟩

end Steps

/-- From any CLOCK list with any bits, any free frames and any window, one service migrates at most
half of the frames, and it evicts none of the pages it has migrated in unless an engine sets the
bit of an older page that the hand has passed. -/
theorem service_keeps_own {m : Mem} {loose blocks : List (ℕ × ℕ)} {regions : List Region} {va : ℕ}
    (h : MemInv m loose blocks regions) (hva : va % pageSize = 0) :
    (∀ x, Reach step anyStep (start m va) x → x.own.length ≤ max 1 (capacity m / 2)) ∧
      ∀ x, Reach step keepsCleared (start m va) x → x.lost = [] :=
  ⟨fun _ hr => (reach_bounded h hva hr).bound, fun _ hr => (reach_kept h hva hr).2⟩

def quiet : Env := ⟨fun _ => false, false, none, false⟩

def faultOn (v : ℕ) : List Driver.Action := [.raise (0, 0) (v * pageSize), .pop, .demand quiet]

def crowdRun : List Driver.Action :=
  [.lock (.allocManaged 36864), .reclaim, .mapManaged (some 409600), .addRange,
    .lock (.alloc 268410880), .reclaim, .take] ++
  [65540, 65539, 65538, 65537, 65536, 65541].flatMap faultOn

def crowd : Driver.State :=
  (exec (when Driver.noWrap (Driver.step ⟨1, 1, false, 16⟩)) (Driver.init ⟨1, 1, false, 16⟩)
    crowdRun).getD (Driver.init ⟨1, 1, false, 16⟩)

theorem crowd_inv : Driver.Inv crowd := by
  have hrun : (exec (when Driver.noWrap (Driver.step ⟨1, 1, false, 16⟩))
      (Driver.init ⟨1, 1, false, 16⟩) crowdRun).isSome = true := by decide +kernel
  obtain ⟨s, hs⟩ := Option.isSome_iff_exists.mp hrun
  have heq : crowd = s := by rw [crowd, hs, Option.getD_some]
  rw [heq]
  exact Driver.reach_inv (fun _ _ => id) (.of_exec_when .refl hs)

def driveOn (n : ℕ) : List Action := List.replicate n (.drive quiet true)

/-- While nobody uses the older pages again, three of them make room. -/
theorem service_keeps_own_crowd : ∃ x, Reach step keepsCleared (start crowd.mem 268460032) x ∧
    x.own = [65542, 65543, 65544] ∧ x.lost = [] := by
  have hrun : (exec (when keepsCleared step) (start crowd.mem 268460032) (driveOn 21)).map
      State.own = some [65542, 65543, 65544] := by decide +kernel
  obtain ⟨x, hx, hown⟩ := Option.map_eq_some_iff.mp hrun
  have hr : Reach step keepsCleared (start crowd.mem 268460032) x := .of_exec_when .refl hx
  exact ⟨x, hr, hown, (service_keeps_own crowd_inv.mem (by decide)).2 x hr⟩

def sweeps : List Action :=
  driveOn 10 ++ [65539, 65538, 65537, 65536, 65541].map (fun v => .touch v false) ++
  driveOn 11 ++ [65538, 65537, 65536, 65541].map (fun v => .touch v false) ++ driveOn 8

/-- The demand page goes before the last page of the window comes in. -/
theorem demand_page_evicted :
    ¬∀ (m : Mem) (loose blocks : List (ℕ × ℕ)) (regions : List Region) (va : ℕ),
      MemInv m loose blocks regions → va % pageSize = 0 →
      ∀ x, Reach step anyStep (start m va) x →
        x.lost = [] ∧ x.own.length ≤ max 1 (capacity m / 2) := by
  intro hall
  have hrun : (exec step (start crowd.mem 268460032) sweeps).map State.lost = some [65542] := by
    decide +kernel
  obtain ⟨x, hx, hlost⟩ := Option.map_eq_some_iff.mp hrun
  have hnil := (hall crowd.mem _ _ _ 268460032 crowd_inv.mem (by decide) x (.of_exec .refl hx)).1
  rw [hlost] at hnil
  cases hnil

end SoftGpu.FaultService
