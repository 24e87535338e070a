import SoftGpu.Ring

/-!
# The ring protocol's invariant

`PointOk` ties one producer's program point to the registers: the claimed slot
lies at or above the mirror until it is published, past the backpressure test
it lies within `depth` of `get`, and past the slot write its cell holds the
command. `Inv` adds that claimed slots are distinct and cover everything
between the mirror and the last claim, that the cells between `get` and `put`
hold the commands that claimed them, and what the engine has seen. Both submit
modes share the invariant; the mode only decides how a fresh slot is found.
-/

namespace SoftGpu.Ring
open Machine

variable {Tid Cmd : Type*}

def Point.claim : Point Cmd → Option (ℕ × Cmd)
  | .idle => none
  | .reserved k c | .stalled k c | .cleared k c | .written k c | .turn k c | .rung k c
  | .published k c => some (k, c)

def Point.early : Point Cmd → Bool
  | .idle | .published _ _ => false
  | _ => true

def Point.passed : Point Cmd → Bool
  | .cleared _ _ | .written _ _ | .turn _ _ => true
  | _ => false

def Point.stored : Point Cmd → Bool
  | .written _ _ | .turn _ _ => true
  | _ => false

theorem Point.early_of_stored {p : Point Cmd} (h : p.stored = true) :
    p.early = true ∧ p.passed = true ∧ ∀ k c, p ≠ .rung k c := by
  cases p <;> simp_all [Point.stored, Point.early, Point.passed]

structure PointOk (cfg : Config Cmd) (s : State Tid Cmd) (p : Point Cmd) : Prop where
  claimed : ∀ k c, p.claim = some (k, c) → s.issued[k]? = some c
  early : ∀ k c, p.early = true → p.claim = some (k, c) → s.mirror ≤ k
  stalled : ∀ k c, p = .stalled k c → cfg.depth ≤ k
  turn : ∀ k c, p = .turn k c ∨ p = .rung k c → k = s.mirror
  rung : ∀ k c, p = .rung k c → s.put = s.mirror + 1
  published : ∀ k c, p = .published k c → k < s.mirror
  room : ∀ k c, p.passed = true → p.claim = some (k, c) → k < s.get + cfg.depth
  stored : ∀ k c, p.stored = true → p.claim = some (k, c) → s.ring (k &&& cfg.mask) = c

/-- What holds of the engine: the PUT it works with lies between the registers,
and the command it executes is the one that claimed slot `get`. -/
structure EngineOk (s : State Tid Cmd) (e : EnginePoint Cmd) : Prop where
  seen : ∀ p, e = .loaded p ∨ e = .failing p ∨ e = .probed p ∨ e = .visit p →
    s.get ≤ p ∧ p ≤ s.put
  running : ∀ p c, e = .executing p c → s.get < p ∧ p ≤ s.put ∧ s.issued[s.get]? = some c

structure Inv (cfg : Config Cmd) (s : State Tid Cmd) : Prop where
  get_le : s.get ≤ s.put
  put_le : s.put ≤ s.issued.length
  window : s.put ≤ s.get + cfg.depth
  mirror_le : s.mirror ≤ s.put
  put_mirror : s.put ≤ s.mirror ∨ ∃ t c, s.point t = .rung s.mirror c ∧ s.put = s.mirror + 1
  points : ∀ t, PointOk cfg s (s.point t)
  unique : ∀ t u k c d, (s.point t).claim = some (k, c) → (s.point u).claim = some (k, d) → t = u
  cover : ∀ k, s.mirror ≤ k → k < s.issued.length →
    ∃ t, (s.point t).early = true ∧ ∃ c, (s.point t).claim = some (k, c)
  content : ∀ k c, s.get ≤ k → k < s.put → s.issued[k]? = some c → s.ring (k &&& cfg.mask) = c
  ticket : cfg.mode = .ticket → s.reserve = s.issued.length
  holder : cfg.mode = .mutex → ∀ t, s.point t ≠ .idle → s.lock = some t
  engine : EngineOk s s.engine
  faulted : s.parked = true → s.fault ≠ .none
  log : s.retired = (s.issued.take s.get).zipIdx
  fences : ∀ f c, (f, c) ∈ s.returned → 0 < f ∧ f ≤ s.mirror ∧ s.issued[f - 1]? = some c
  forwards : s.backwards = false

theorem inv_init [Inhabited Cmd] (cfg : Config Cmd) : Inv cfg (init : State Tid Cmd) := by
  constructor <;> try simp [init, Point.claim]
  · intro t
    constructor <;> simp [Point.claim, Point.early, Point.passed, Point.stored]
  · constructor <;> simp

theorem depth_pos (cfg : Config Cmd) : 0 < cfg.depth := Nat.two_pow_pos _

theorem and_mask (cfg : Config Cmd) (k : ℕ) : k &&& cfg.mask = k % cfg.depth :=
  Nat.and_two_pow_sub_one_eq_mod k cfg.order

theorem and_mask_ne (cfg : Config Cmd) {j k : ℕ} (hjk : j ≠ k) (h₁ : j < k + cfg.depth)
    (h₂ : k < j + cfg.depth) : j &&& cfg.mask ≠ k &&& cfg.mask := by
  rw [and_mask, and_mask]
  intro h
  rcases Nat.lt_or_gt_of_ne hjk with hlt | hlt
  · have hd := Nat.dvd_of_mod_eq_zero (Nat.sub_mod_eq_zero_of_mod_eq h.symm)
    exact absurd (Nat.le_of_dvd (by omega) hd) (by omega)
  · have hd := Nat.dvd_of_mod_eq_zero (Nat.sub_mod_eq_zero_of_mod_eq h)
    exact absurd (Nat.le_of_dvd (by omega) hd) (by omega)

theorem getElem?_snoc {l : List Cmd} {k : ℕ} {c : Cmd} (d : Cmd) (h : l[k]? = some c) :
    (l ++ [d])[k]? = some c := by
  rw [List.getElem?_append_left (List.getElem?_eq_some_iff.mp h).1, h]

namespace Inv
variable {cfg : Config Cmd} {s : State Tid Cmd}

theorem claim_lt (h : Inv cfg s) {t : Tid} {k : ℕ} {c : Cmd}
    (hc : (s.point t).claim = some (k, c)) : k < s.issued.length :=
  (List.getElem?_eq_some_iff.mp ((h.points t).claimed k c hc)).1

theorem put_le_claim (h : Inv cfg s) {t : Tid} {k : ℕ} {c : Cmd} (he : (s.point t).early = true)
    (hc : (s.point t).claim = some (k, c)) (hr : ∀ d, s.point t ≠ .rung k d) : s.put ≤ k := by
  have hk := (h.points t).early k c he hc
  rcases h.put_mirror with hp | ⟨u, d, hu, hp⟩
  · omega
  · have hne : k ≠ s.mirror := by
      rintro rfl
      have hut := h.unique t u _ c d hc (by simp [hu, Point.claim])
      exact hr d (hut ▸ hu)
    omega

theorem mutex_length (h : Inv cfg s) (hm : cfg.mode = .mutex) {t : Tid}
    (hl : s.lock = some t) (hidle : s.point t = .idle) : s.mirror = s.issued.length := by
  have hle := h.mirror_le.trans h.put_le
  by_contra hne
  obtain ⟨u, hu, c, huc⟩ := h.cover s.mirror le_rfl (by omega)
  have hlock := h.holder hm u (by intro hi; simp [hi, Point.early] at hu)
  rw [hl, Option.some.injEq] at hlock
  subst hlock
  simp [hidle, Point.early] at hu

variable [DecidableEq Tid]

/-- The claim step in one form for both modes: the fresh slot is the number of
slots claimed so far. -/
theorem fresh (h : Inv cfg s) {t : Tid} {c : Cmd} {s' : State Tid Cmd}
    (hidle : s.point t = .idle) (hs : s.claim cfg t c = some s') :
    ∃ r, s' = { s with
      reserve := r
      point := Function.update s.point t (.reserved s.issued.length c)
      issued := s.issued ++ [c] } ∧ (cfg.mode = .ticket → r = s.issued.length + 1) ∧
      (cfg.mode = .mutex → s.lock = some t) := by
  unfold State.claim at hs
  cases hm : cfg.mode with
  | ticket =>
    simp only [hm, Option.some.injEq] at hs
    exact ⟨s.reserve + 1, by rw [← hs, h.ticket hm], by simp [h.ticket hm], by simp⟩
  | mutex =>
    simp only [hm] at hs
    split_ifs at hs with hl
    rw [Option.some.injEq] at hs
    exact ⟨s.reserve, by rw [← hs, h.mutex_length hm hl hidle], by simp, fun _ => hl⟩

end Inv

/-! ### Updating one producer's point -/

section Update
variable [DecidableEq Tid] {f : Tid → Point Cmd} {t : Tid} {p : Point Cmd}

theorem unique_update
    (hu : ∀ t u k c d, (f t).claim = some (k, c) → (f u).claim = some (k, d) → t = u)
    (hp : ∀ k c, p.claim = some (k, c) → ∀ u ≠ t, ∀ d, (f u).claim ≠ some (k, d)) :
    ∀ v w k c d, (Function.update f t p v).claim = some (k, c) →
      (Function.update f t p w).claim = some (k, d) → v = w := by
  intro v w k c d hv hw
  by_cases hvt : v = t <;> by_cases hwt : w = t
  · rw [hvt, hwt]
  · subst hvt
    rw [Function.update_self] at hv
    rw [Function.update_of_ne hwt] at hw
    exact absurd hw (hp k c hv w hwt d)
  · subst hwt
    rw [Function.update_self] at hw
    rw [Function.update_of_ne hvt] at hv
    exact absurd hv (hp k d hw v hvt c)
  · rw [Function.update_of_ne hvt] at hv
    rw [Function.update_of_ne hwt] at hw
    exact hu v w k c d hv hw

theorem unique_keep
    (hu : ∀ t u k c d, (f t).claim = some (k, c) → (f u).claim = some (k, d) → t = u)
    (hp : p.claim = none ∨ p.claim = (f t).claim) :
    ∀ v w k c d, (Function.update f t p v).claim = some (k, c) →
      (Function.update f t p w).claim = some (k, d) → v = w := by
  refine unique_update hu fun k c hc u hut d hd => ?_
  rcases hp with hn | he
  · simp [hn] at hc
  · exact hut (hu t u k c d (he ▸ hc) hd).symm

/-- A producer other than `t`, or `t` itself if it stays early with its claim,
still covers its slot. -/
theorem cover_update {k : ℕ}
    (hc : ∃ u, (f u).early = true ∧ ∃ c, (f u).claim = some (k, c))
    (hp : ∀ c, (f t).early = true → (f t).claim = some (k, c) →
      p.early = true ∧ p.claim = some (k, c)) :
    ∃ u, (Function.update f t p u).early = true ∧
      ∃ c, (Function.update f t p u).claim = some (k, c) := by
  obtain ⟨u, hu, c, huc⟩ := hc
  by_cases hut : u = t
  · subst hut
    exact ⟨u, by simpa using (hp c hu huc).1, c, by simpa using (hp c hu huc).2⟩
  · exact ⟨u, by simpa [hut] using hu, c, by simpa [hut] using huc⟩

theorem holder_update {lock : Option Tid} (h : ∀ u, f u ≠ .idle → lock = some u)
    (hp : p ≠ .idle → lock = some t) : ∀ u, Function.update f t p u ≠ .idle → lock = some u := by
  rw [Function.forall_update_iff f fun u q => q ≠ .idle → lock = some u]
  exact ⟨hp, fun u _ => h u⟩

end Update

/-! ### The producers' steps -/

namespace Inv
variable [DecidableEq Tid] {cfg : Config Cmd} {s : State Tid Cmd} {t : Tid}

theorem goto (h : Inv cfg s) {p : Point Cmd} (hp : PointOk cfg s p)
    (hclaim : p.claim = (s.point t).claim) (hearly : p.early = (s.point t).early)
    (hrung : ∀ k c, s.point t ≠ .rung k c) (hidle : s.point t ≠ .idle) :
    Inv cfg (s.goto t p) where
  __ := h
  put_mirror := by
    refine h.put_mirror.imp id ?_
    rintro ⟨u, c, hu, hput⟩
    have hut : u ≠ t := by
      rintro rfl
      exact hrung _ _ hu
    exact ⟨u, c, by simpa [State.goto, hut] using hu, hput⟩
  points := by
    refine (Function.forall_update_iff s.point fun _ => PointOk cfg (s.goto t p)).mpr ⟨?_, ?_⟩
    · exact { hp with }
    · intro u _
      exact { h.points u with }
  unique := unique_keep h.unique (.inr hclaim)
  cover := fun k hk hkl => cover_update (h.cover k hk hkl) fun c he hc =>
    ⟨hearly ▸ he, hclaim ▸ hc⟩
  holder := fun hm => holder_update (h.holder hm) fun _ => h.holder hm t hidle
  engine := { h.engine with }

theorem reserve (h : Inv cfg s) {r : ℕ} {cmd : Cmd} (hidle : s.point t = .idle)
    (hr : cfg.mode = .ticket → r = s.issued.length + 1)
    (hl : cfg.mode = .mutex → s.lock = some t) :
    Inv cfg { s with
      reserve := r
      point := Function.update s.point t (.reserved s.issued.length cmd)
      issued := s.issued ++ [cmd] } := by
  have hput := h.put_le
  have hmir := h.mirror_le
  have hget := h.get_le
  constructor
  case get_le => exact hget
  case put_le =>
    simp only [List.length_append, List.length_singleton]
    omega
  case window => exact h.window
  case mirror_le => exact hmir
  case put_mirror =>
    refine h.put_mirror.imp id ?_
    rintro ⟨u, c, hu, hp⟩
    have hut : u ≠ t := by
      rintro rfl
      simp [hidle] at hu
    exact ⟨u, c, by simpa [hut] using hu, hp⟩
  case points =>
    refine (Function.forall_update_iff s.point fun _ => PointOk cfg _).mpr ⟨?_, ?_⟩
    · constructor <;> simp [Point.claim, Point.early, Point.passed, Point.stored]
      omega
    · intro u _
      have hu := h.points u
      exact { hu with claimed := fun k c hc => getElem?_snoc cmd (hu.claimed k c hc) }
  case unique =>
    refine unique_update h.unique fun k c hc u _ d hd => ?_
    simp only [Point.claim, Option.some.injEq, Prod.mk.injEq] at hc
    have hk := h.claim_lt hd
    omega
  case cover =>
    intro k hk hkl
    simp only [List.length_append, List.length_singleton] at hkl
    by_cases he : k = s.issued.length
    · exact ⟨t, by simp [Point.early], cmd, by simp [Point.claim, he]⟩
    · refine cover_update (h.cover k hk (by omega)) fun c hc => ?_
      simp [hidle, Point.early] at hc
  case content =>
    intro k c hk hkp hc
    change k < s.put at hkp
    rw [List.getElem?_append_left (by omega)] at hc
    exact h.content k c hk hkp hc
  case ticket =>
    intro hm
    simpa using hr hm
  case holder => exact fun hm => holder_update (h.holder hm) fun _ => hl hm
  case engine =>
    have he := h.engine
    exact { he with
      running := fun p c hp => ⟨(he.running p c hp).1, (he.running p c hp).2.1,
        getElem?_snoc cmd (he.running p c hp).2.2⟩ }
  case faulted => exact h.faulted
  case log =>
    change s.retired = ((s.issued ++ [cmd]).take s.get).zipIdx
    rw [List.take_append_of_le_length (by omega)]
    exact h.log
  case fences =>
    intro f c hf
    obtain ⟨h₁, h₂, h₃⟩ := h.fences f c hf
    exact ⟨h₁, h₂, getElem?_snoc cmd h₃⟩
  case forwards => exact h.forwards

omit [DecidableEq Tid] in
theorem write_cell (h : Inv cfg s) {k : ℕ} {c : Cmd} (ht : s.point t = .cleared k c)
    {j : ℕ} (hj : s.get ≤ j) (hjn : j < k + cfg.depth) (hne : j ≠ k) :
    Function.update s.ring (k &&& cfg.mask) c (j &&& cfg.mask) = s.ring (j &&& cfg.mask) := by
  have hr := (h.points t).room k c (by simp [ht, Point.passed]) (by simp [ht, Point.claim])
  exact Function.update_of_ne (and_mask_ne cfg hne hjn (by omega)) _ _

theorem write (h : Inv cfg s) {k : ℕ} {c : Cmd} (ht : s.point t = .cleared k c) :
    Inv cfg { s with
      ring := Function.update s.ring (k &&& cfg.mask) c
      point := Function.update s.point t (.written k c) } := by
  have hclaim : (s.point t).claim = some (k, c) := by simp [ht, Point.claim]
  have hearly : (s.point t).early = true := by simp [ht, Point.early]
  have hput := h.put_le_claim hearly hclaim (by simp [ht])
  have hpt := h.points t
  have hget := h.get_le
  constructor
  case get_le => exact hget
  case put_le => exact h.put_le
  case window => exact h.window
  case mirror_le => exact h.mirror_le
  case put_mirror =>
    refine h.put_mirror.imp id ?_
    rintro ⟨u, d, hu, hp⟩
    have hut : u ≠ t := by
      rintro rfl
      simp [ht] at hu
    exact ⟨u, d, by simpa [hut] using hu, hp⟩
  case points =>
    refine (Function.forall_update_iff s.point fun _ => PointOk cfg _).mpr ⟨?_, ?_⟩
    · constructor <;> simp [Point.claim, Point.early, Point.passed, Point.stored]
      · exact hpt.claimed _ _ hclaim
      · exact hpt.early _ _ hearly hclaim
      · exact hpt.room _ _ (by simp [ht, Point.passed]) hclaim
    · intro u hut
      have hu := h.points u
      refine { hu with stored := fun j d hs hd => ?_ }
      -- Another producer's cell: both slots lie within `depth` of `get`.
      have hjk : j ≠ k := fun he => hut (h.unique u t k d c (he ▸ hd) hclaim)
      obtain ⟨he, hp, hr⟩ := Point.early_of_stored hs
      have hj := hu.room j d hp hd
      have hpj := h.put_le_claim he hd fun e => hr j e
      exact (h.write_cell ht (by omega) (by omega) hjk).trans (hu.stored j d hs hd)
  case unique => exact unique_keep h.unique (.inr (by simp [ht, Point.claim]))
  case cover =>
    exact fun j hj hjl => cover_update (h.cover j hj hjl) fun d _ hd =>
      ⟨by simp [Point.early], by simpa [ht, Point.claim] using hd⟩
  case content =>
    intro j d hj hjp hd
    change j < s.put at hjp
    exact (h.write_cell ht hj (by omega) (by omega)).trans (h.content j d hj hjp hd)
  case ticket => exact h.ticket
  case holder =>
    exact fun hm => holder_update (h.holder hm) fun _ => h.holder hm t (by simp [ht])
  case engine => exact { h.engine with }
  case faulted => exact h.faulted
  case log => exact h.log
  case fences => exact h.fences
  case forwards => exact h.forwards

theorem ring (h : Inv cfg s) {k : ℕ} {c : Cmd} (ht : s.point t = .turn k c) :
    Inv cfg { s with put := k + 1, point := Function.update s.point t (.rung k c) } := by
  have hclaim : (s.point t).claim = some (k, c) := by simp [ht, Point.claim]
  have hearly : (s.point t).early = true := by simp [ht, Point.early]
  have hpt := h.points t
  have hput := h.put_le_claim hearly hclaim (by simp [ht])
  have hk : k = s.mirror := hpt.turn k c (.inl ht)
  have hroom := hpt.room k c (by simp [ht, Point.passed]) hclaim
  have hlen := h.claim_lt hclaim
  have hget := h.get_le
  have hmir := h.mirror_le
  constructor
  case get_le =>
    change s.get ≤ k + 1
    omega
  case put_le => exact hlen
  case window => exact hroom
  case mirror_le =>
    change s.mirror ≤ k + 1
    omega
  case put_mirror => exact .inr ⟨t, c, by simp [hk], by simp [hk]⟩
  case points =>
    refine (Function.forall_update_iff s.point fun _ => PointOk cfg _).mpr ⟨?_, ?_⟩
    · constructor <;> simp [Point.claim, Point.early, Point.passed, Point.stored, hk]
      exact hk ▸ hpt.claimed k c hclaim
    · intro u _
      have hu := h.points u
      -- A second producer at `rung` would make PUT exceed the mirror already.
      refine { hu with rung := fun j d hr => ?_ }
      have h₁ := hu.rung j d hr
      omega
  case unique => exact unique_keep h.unique (.inr (by simp [ht, Point.claim]))
  case cover =>
    exact fun j hj hjl => cover_update (h.cover j hj hjl) fun d _ hd =>
      ⟨by simp [Point.early], by simpa [ht, Point.claim] using hd⟩
  case content =>
    intro j d hj hjk hd
    change j < k + 1 at hjk
    by_cases hlt : j < s.put
    · exact h.content j d hj hlt hd
    · have hjk' : j = k := by omega
      subst hjk'
      rw [hpt.claimed j c hclaim, Option.some.injEq] at hd
      exact hd ▸ hpt.stored j c (by simp [ht, Point.stored]) hclaim
  case ticket => exact h.ticket
  case holder =>
    exact fun hm => holder_update (h.holder hm) fun _ => h.holder hm t (by simp [ht])
  case engine =>
    have he := h.engine
    refine { seen := fun p hp => ?_, running := fun p d hp => ?_ }
    · have := he.seen p hp
      change s.get ≤ p ∧ p ≤ k + 1
      omega
    · obtain ⟨h₁, h₂, h₃⟩ := he.running p d hp
      exact ⟨h₁, h₂.trans (by change s.put ≤ k + 1; omega), h₃⟩
  case faulted => exact h.faulted
  case log => exact h.log
  case fences => exact h.fences
  case forwards => exact h.forwards

theorem hand (h : Inv cfg s) {k : ℕ} {c : Cmd} (ht : s.point t = .rung k c) :
    Inv cfg { s with mirror := k + 1, point := Function.update s.point t (.published k c) } := by
  have hclaim : (s.point t).claim = some (k, c) := by simp [ht, Point.claim]
  have hpt := h.points t
  have hk : k = s.mirror := hpt.turn k c (.inr ht)
  have hput := hpt.rung k c ht
  -- Every other early producer holds a slot above the mirror.
  have habove : ∀ u ≠ t, ∀ j d, (s.point u).early = true → (s.point u).claim = some (j, d) →
      k + 1 ≤ j := by
    intro u hut j d he hd
    have hj := (h.points u).early j d he hd
    have hne : j ≠ k := fun hjk => hut (h.unique u t k d c (hjk ▸ hd) hclaim)
    omega
  constructor
  case get_le => exact h.get_le
  case put_le => exact h.put_le
  case window => exact h.window
  case mirror_le =>
    change k + 1 ≤ s.put
    omega
  case put_mirror =>
    left
    change s.put ≤ k + 1
    omega
  case points =>
    refine (Function.forall_update_iff s.point fun _ => PointOk cfg _).mpr ⟨?_, ?_⟩
    · constructor <;> simp [Point.claim, Point.early, Point.passed, Point.stored]
      exact hpt.claimed k c hclaim
    · intro u hut
      have hu := h.points u
      refine { hu with
        early := habove u hut, turn := fun j d hj => ?_, rung := fun j d hj => ?_,
        published := fun j d hj => ?_ }
      · have h₁ := hu.turn j d hj
        have hcl : (s.point u).claim = some (j, d) ∧ (s.point u).early = true := by
          rcases hj with hj | hj <;> simp [hj, Point.claim, Point.early]
        have h₂ := habove u hut j d hcl.2 hcl.1
        omega
      · have h₁ := hu.turn j d (.inr hj)
        have h₂ := habove u hut j d (by simp [hj, Point.early]) (by simp [hj, Point.claim])
        omega
      · have h₁ := hu.published j d hj
        change j < k + 1
        omega
  case unique => exact unique_keep h.unique (.inr (by simp [ht, Point.claim]))
  case cover =>
    intro j hj hjl
    change k + 1 ≤ j at hj
    refine cover_update (h.cover j (by omega) hjl) fun d _ hd => ?_
    simp only [ht, Point.claim, Option.some.injEq, Prod.mk.injEq] at hd
    omega
  case content => exact h.content
  case ticket => exact h.ticket
  case holder =>
    exact fun hm => holder_update (h.holder hm) fun _ => h.holder hm t (by simp [ht])
  case engine => exact { h.engine with }
  case faulted => exact h.faulted
  case log => exact h.log
  case fences =>
    intro f d hf
    obtain ⟨h₁, h₂, h₃⟩ := h.fences f d hf
    exact ⟨h₁, h₂.trans (by change s.mirror ≤ k + 1; omega), h₃⟩
  case forwards => exact h.forwards

theorem ret (h : Inv cfg s) {k : ℕ} {c : Cmd} (ht : s.point t = .published k c) :
    Inv cfg { s with
      point := Function.update s.point t .idle
      returned := s.returned ++ [(k + 1, c)] } := by
  have hpt := h.points t
  constructor
  case get_le => exact h.get_le
  case put_le => exact h.put_le
  case window => exact h.window
  case mirror_le => exact h.mirror_le
  case put_mirror =>
    refine h.put_mirror.imp id ?_
    rintro ⟨u, d, hu, hp⟩
    have hut : u ≠ t := by
      rintro rfl
      simp [ht] at hu
    exact ⟨u, d, by simpa [hut] using hu, hp⟩
  case points =>
    refine (Function.forall_update_iff s.point fun _ => PointOk cfg _).mpr ⟨?_, ?_⟩
    · constructor <;> simp [Point.claim, Point.early, Point.passed, Point.stored]
    · intro u _
      exact { h.points u with }
  case unique => exact unique_keep h.unique (.inl rfl)
  case cover =>
    refine fun j hj hjl => cover_update (h.cover j hj hjl) fun d hd => ?_
    simp [ht, Point.early] at hd
  case content => exact h.content
  case ticket => exact h.ticket
  case holder => exact fun hm => holder_update (h.holder hm) fun hi => absurd rfl hi
  case engine => exact { h.engine with }
  case faulted => exact h.faulted
  case log => exact h.log
  case fences =>
    intro f d hf
    rcases List.mem_append.mp hf with hf | hf
    · exact h.fences f d hf
    · rw [List.mem_singleton, Prod.mk.injEq] at hf
      obtain ⟨rfl, rfl⟩ := hf
      exact ⟨Nat.succ_pos k, hpt.published k d ht, hpt.claimed k d (by simp [ht, Point.claim])⟩
  case forwards => exact h.forwards

omit [DecidableEq Tid] in
theorem relock (h : Inv cfg s) {l : Option Tid}
    (hl : cfg.mode = .mutex → ∀ t, s.point t ≠ .idle → l = some t) :
    Inv cfg { s with lock := l } where
  __ := h
  points := fun u => { h.points u with }
  holder := hl
  engine := { h.engine with }

end Inv

/-! ### The engine's and the fault thread's steps -/

namespace Inv
variable {cfg : Config Cmd} {s : State Tid Cmd}

theorem engine_move (h : Inv cfg s) {e : EnginePoint Cmd} {pk ff st : Bool} {fs : FaultStage}
    (he : EngineOk s e) (hf : pk = true → fs ≠ .none) :
    Inv cfg { s with engine := e, parked := pk, faultFail := ff, fault := fs, sticky := st } where
  __ := h
  points := fun u => { h.points u with }
  engine := { he with }
  faulted := hf

theorem advance (h : Inv cfg s) {c : Cmd} {e : EnginePoint Cmd} {st : Bool}
    (hput : s.get < s.put) (hc : s.issued[s.get]? = some c) (he : EngineOk (s.advance c) e) :
    Inv cfg { s.advance c with engine := e, sticky := st } := by
  have hlen := (List.getElem?_eq_some_iff.mp hc).1
  constructor
  case get_le => exact hput
  case put_le => exact h.put_le
  case window => exact h.window.trans (by change _ ≤ s.get + 1 + _; omega)
  case mirror_le => exact h.mirror_le
  case put_mirror => exact h.put_mirror
  case points =>
    intro u
    have hu := h.points u
    refine { hu with room := fun k d hp hd => ?_ }
    exact (hu.room k d hp hd).trans (by change _ < s.get + 1 + _; omega)
  case unique => exact h.unique
  case cover => exact h.cover
  case content =>
    intro k d hk
    exact h.content k d (Nat.le_of_succ_le hk)
  case ticket => exact h.ticket
  case holder => exact h.holder
  case engine => exact { he with }
  case faulted => exact h.faulted
  case log =>
    change s.retired ++ [(c, s.get)] = (s.issued.take (s.get + 1)).zipIdx
    rw [List.take_add_one, hc, h.log, List.zipIdx_append]
    simp [Nat.min_eq_left hlen.le]
  case fences => exact h.fences
  case forwards => exact h.forwards

theorem head_issued (h : Inv cfg s) (hne : s.put ≠ s.get) :
    s.get < s.put ∧ s.issued[s.get]? = some (s.ring (s.get &&& cfg.mask)) := by
  have hget := h.get_le
  have hput := h.put_le
  refine ⟨by omega, ?_⟩
  obtain ⟨c, hc⟩ : ∃ c, s.issued[s.get]? = some c := ⟨_, List.getElem?_eq_getElem (by omega)⟩
  rw [hc, h.content s.get c le_rfl (by omega) hc]

end Inv

section Step
variable [DecidableEq Tid] {cfg : Config Cmd} {s s' : State Tid Cmd} {t : Tid}
  {a : Action Tid Cmd}

theorem producerStep_inv (h : Inv cfg s) (hs : producerStep cfg s t a = some s') : Inv cfg s' := by
  cases a with
  | acquire =>
    simp only [producerStep, Option.ite_none_right_eq_some, Option.some.injEq] at hs
    obtain ⟨⟨hm, hl⟩, rfl⟩ := hs
    refine h.relock fun _ u hu => ?_
    have := h.holder hm u hu
    simp [hl] at this
  | release =>
    simp only [producerStep] at hs
    split at hs <;> simp only [Option.ite_none_right_eq_some, Option.some.injEq, reduceCtorEq] at hs
    rename_i hidle
    obtain ⟨hl, rfl⟩ := hs
    refine h.relock fun hm u hu => ?_
    have hlu := h.holder hm u hu
    rw [hl, Option.some.injEq] at hlu
    exact absurd (hlu ▸ hidle) hu
  | reserve _ cmd =>
    simp only [producerStep] at hs
    split at hs <;> try simp only [reduceCtorEq] at hs
    rename_i hidle
    obtain ⟨r, rfl, hr, hl⟩ := h.fresh hidle hs
    exact h.reserve hidle hr hl
  | test =>
    simp only [producerStep] at hs
    split at hs <;> try simp only [reduceCtorEq] at hs
    rename_i k c ht
    have hpt := h.points t
    have hclaim : (s.point t).claim = some (k, c) := by simp [ht, Point.claim]
    have hearly := hpt.early k c (by simp [ht, Point.early]) hclaim
    split_ifs at hs with hd <;> rw [Option.some.injEq] at hs <;> subst hs <;>
      refine h.goto ?_ (by simp [ht, Point.claim]) (by simp [ht, Point.early]) (by simp [ht])
        (by simp [ht]) <;>
      constructor <;> simp [Point.claim, Point.early, Point.passed, Point.stored]
    · exact hpt.claimed k c hclaim
    · exact hearly
    · omega
    · exact hpt.claimed k c hclaim
    · exact hearly
    · have hput := h.put_le_claim (t := t) (by simp [ht, Point.early]) hclaim (by simp [ht])
      have hget := h.get_le
      omega
  | unstall =>
    simp only [producerStep] at hs
    split at hs <;> try simp only [reduceCtorEq] at hs
    rename_i k c ht
    have hpt := h.points t
    have hclaim : (s.point t).claim = some (k, c) := by simp [ht, Point.claim]
    split_ifs at hs with hd
    rw [Option.some.injEq] at hs
    subst hs
    refine h.goto ?_ (by simp [ht, Point.claim]) (by simp [ht, Point.early]) (by simp [ht])
      (by simp [ht])
    constructor <;> simp [Point.claim, Point.early, Point.passed, Point.stored]
    · exact hpt.claimed k c hclaim
    · exact hpt.early k c (by simp [ht, Point.early]) hclaim
    · omega
  | write =>
    simp only [producerStep] at hs
    split at hs <;> simp only [Option.some.injEq, reduceCtorEq] at hs
    rename_i ht
    exact hs ▸ h.write ht
  | await =>
    simp only [producerStep] at hs
    split at hs <;> try simp only [reduceCtorEq] at hs
    rename_i k c ht
    have hpt := h.points t
    have hclaim : (s.point t).claim = some (k, c) := by simp [ht, Point.claim]
    split_ifs at hs with hd
    rw [Option.some.injEq] at hs
    subst hs
    -- In mutex mode the holder's slot is the only one past the mirror.
    have hk : k = s.mirror := by
      rcases hd with hm | hk
      · have hmk := hpt.early k c (by simp [ht, Point.early]) hclaim
        obtain ⟨u, hu, d, hd⟩ := h.cover s.mirror le_rfl (hmk.trans_lt (h.claim_lt hclaim))
        have hlu := h.holder hm u (by intro hi; simp [hi, Point.early] at hu)
        have hlt := h.holder hm t (by simp [ht])
        rw [hlt, Option.some.injEq] at hlu
        subst hlu
        rw [hclaim, Option.some.injEq, Prod.mk.injEq] at hd
        exact hd.1
      · exact hk.symm
    refine h.goto ?_ (by simp [ht, Point.claim]) (by simp [ht, Point.early]) (by simp [ht])
      (by simp [ht])
    constructor <;> simp [Point.claim, Point.early, Point.passed, Point.stored]
    · exact hpt.claimed k c hclaim
    · exact hk.ge
    · exact hk
    · exact hpt.room k c (by simp [ht, Point.passed]) hclaim
    · exact hpt.stored k c (by simp [ht, Point.stored]) hclaim
  | ring =>
    simp only [producerStep] at hs
    split at hs <;> simp only [Option.some.injEq, reduceCtorEq] at hs
    rename_i ht
    exact hs ▸ h.ring ht
  | hand =>
    simp only [producerStep] at hs
    split at hs <;> simp only [Option.some.injEq, reduceCtorEq] at hs
    rename_i ht
    exact hs ▸ h.hand ht
  | ret =>
    simp only [producerStep] at hs
    split at hs <;> simp only [Option.some.injEq, reduceCtorEq] at hs
    rename_i ht
    exact hs ▸ h.ret ht
  | _ => simp [producerStep] at hs

omit [DecidableEq Tid] in
theorem engineStep_inv (h : Inv cfg s) (hs : engineStep cfg s a = some s') : Inv cfg s' := by
  have hscan : EngineOk s .scan := by constructor <;> simp
  have hvisit : ∀ {p : ℕ}, s.get ≤ p → p ≤ s.put → EngineOk s (.visit p) := by
    intro p hg hp
    constructor <;> simp [hg, hp]
  cases a with
  | load =>
    simp only [engineStep] at hs
    split at hs <;> simp only [Option.some.injEq, reduceCtorEq] at hs
    subst hs
    exact h.engine_move (by constructor <;> simp [h.get_le]) h.faulted
  | exchange =>
    simp only [engineStep] at hs
    split at hs <;> try simp only [reduceCtorEq] at hs
    rename_i p he
    obtain ⟨hg, hp⟩ := h.engine.seen p (.inl he)
    split_ifs at hs <;> rw [Option.some.injEq] at hs <;> subst hs <;>
      exact h.engine_move (by constructor <;> simp [hg, hp]) h.faulted
  | probe =>
    simp only [engineStep] at hs
    split at hs <;> try simp only [reduceCtorEq] at hs
    rename_i p he
    obtain ⟨hg, hp⟩ := h.engine.seen p (.inr (.inr (.inl he)))
    split_ifs at hs with h₁ h₂ <;> rw [Option.some.injEq] at hs <;> subst hs
    · exact h.engine_move hscan h.faulted
    · omega
    · exact h.engine_move (hvisit hg hp) h.faulted
  | start =>
    simp only [engineStep] at hs
    split at hs <;> try simp only [reduceCtorEq] at hs
    rename_i p he
    obtain ⟨hg, hp⟩ := h.engine.seen p (.inr (.inr (.inr he)))
    split_ifs at hs with h₁
    rw [Option.some.injEq] at hs
    subst hs
    refine h.engine_move ?_ h.faulted
    constructor <;> simp only [reduceCtorEq, or_self, false_implies, implies_true,
      EnginePoint.executing.injEq]
    rintro q c ⟨rfl, rfl⟩
    exact ⟨by omega, hp, (h.head_issued (by omega)).2⟩
  | retire =>
    simp only [engineStep] at hs
    split at hs <;> simp only [Option.some.injEq, reduceCtorEq] at hs
    rename_i p c he
    obtain ⟨hg, hp, hc⟩ := h.engine.running p c he
    subst hs
    refine h.advance (by omega) hc ?_
    constructor <;> simp [State.advance, hp]
    omega
  | reload =>
    simp only [engineStep] at hs
    split at hs <;> try simp only [reduceCtorEq] at hs
    split_ifs at hs
    rw [Option.some.injEq] at hs
    subst hs
    exact h.engine_move (hvisit h.get_le le_rfl) h.faulted
  | leave =>
    simp only [engineStep] at hs
    split at hs <;> simp only [Option.some.injEq, reduceCtorEq] at hs
    subst hs
    exact h.engine_move hscan h.faulted
  | park =>
    simp only [engineStep] at hs
    split at hs <;> try simp only [reduceCtorEq] at hs
    split_ifs at hs
    rw [Option.some.injEq] at hs
    subst hs
    exact h.engine_move hscan (by simp)
  | failHead =>
    simp only [engineStep] at hs
    split at hs <;> try simp only [reduceCtorEq] at hs
    rename_i p he
    obtain ⟨hg, hp⟩ := h.engine.seen p (.inr (.inl he))
    split_ifs at hs with h₁ <;> rw [Option.some.injEq] at hs <;> subst hs
    · exact h.engine_move hscan h.faulted
    · obtain ⟨hlt, hc⟩ := h.head_issued (by omega)
      refine h.advance hlt hc ?_
      constructor <;> simp
  | _ => simp [engineStep] at hs

omit [DecidableEq Tid] in
theorem faultStep_inv (h : Inv cfg s) (hs : faultStep s a = some s') : Inv cfg s' := by
  cases a with
  | migrated =>
    simp only [faultStep, Option.ite_none_right_eq_some, Option.some.injEq] at hs
    exact hs.2 ▸ h.engine_move h.engine (by simp)
  | migrationFailed =>
    simp only [faultStep, Option.ite_none_right_eq_some, Option.some.injEq] at hs
    exact hs.2 ▸ h.engine_move h.engine (by simp)
  | unpark =>
    simp only [faultStep, Option.ite_none_right_eq_some, Option.some.injEq] at hs
    exact hs.2 ▸ h.engine_move h.engine (by simp)
  | _ => simp [faultStep] at hs

theorem step_cases (hs : step cfg s a = some s') :
    (∃ t, a.producer = some t ∧ producerStep cfg s t a = some s') ∨
    engineStep cfg s a = some s' ∨ faultStep s a = some s' := by
  unfold step at hs
  cases hp : a.producer with
  | some t =>
    rw [hp] at hs
    exact .inl ⟨t, rfl, hs⟩
  | none =>
    rw [hp] at hs
    cases he : engineStep cfg s a with
    | some u =>
      simp only [he, Option.orElse_some] at hs
      exact .inr (.inl hs)
    | none =>
      simp only [he, Option.orElse_none] at hs
      exact .inr (.inr hs)

theorem step_inv (h : Inv cfg s) (hs : step cfg s a = some s') : Inv cfg s' := by
  rcases step_cases hs with ⟨t, -, hp⟩ | he | hf
  · exact producerStep_inv h hp
  · exact engineStep_inv h he
  · exact faultStep_inv h hf

theorem reach_inv [Inhabited Cmd] {ok : State Tid Cmd → Action Tid Cmd → Prop}
    (h : Reach (step cfg) ok init s) : Inv cfg s :=
  h.invariant (inv_init cfg) fun _ _ _ hi _ hs => step_inv hi hs

end Step

end SoftGpu.Ring
