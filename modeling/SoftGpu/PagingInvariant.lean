import SoftGpu.Paging

/-!
# No engine keeps a translation past the eviction of its page

`frameOf` is the frame a page has: the one in its entry, or, while the page is
being evicted, the one the old entry had. An engine's translation of a page in
eviction may live until `quiesce` has passed that engine, a TLB tag until the
shootdown has passed that slot, or, if it was stored behind the shootdown, until
the engine that stored it looks at the generation again. `Mark` says that the
dirty bit is in the entry or has been collected; every translation made for a
write and every dirty TLB slot implies it.
-/

namespace SoftGpu.Paging
open Machine

variable {n k : ℕ}

/-- The page in eviction, its frame, and whether a dirty bit has been collected.
Once the page is published nobody asks for the bit any more. -/
def DriverPoint.evicting : DriverPoint n k → Option (ℕ × ℕ × Bool)
  | .bump v (.evict old) | .shoot v (.evict old) _ | .clear v (.evict old) _ _
  | .quiesce v old _ | .wait v old _ _ _ | .collect v old => some (v, old.pfn, old.dirty)
  | .publish v old late => some (v, old.pfn, old.dirty || late)
  | .evicted v f | .restore v f => some (v, f, true)
  | _ => none

def DriverPoint.loading : DriverPoint n k → Option (ℕ × ℕ)
  | .copyIn v f | .install v f => some (v, f)
  | _ => none

def frameOf (pte : ℕ → Pte) (d : DriverPoint n k) (v : ℕ) : Option ℕ :=
  if (pte v).inVram then some (pte v).pfn
  else match d.evicting with
    | some (u, f, _) => if u = v then some f else none
    | none => none

def DriverPoint.publishing (d : DriverPoint n k) (v : ℕ) : Prop :=
  match d with
  | .publish u _ _ => u = v
  | _ => False

def Mark (pte : ℕ → Pte) (d : DriverPoint n k) (v : ℕ) : Prop :=
  (¬d.publishing v ∧ (pte v).dirty = true) ∨ ∃ f, d.evicting = some (v, f, true)

def DriverPoint.mayHold (d : DriverPoint n k) (e : Fin n) (seq v : ℕ) : Prop :=
  match d with
  | .bump u (.evict _) | .shoot u (.evict _) _ | .clear u (.evict _) _ _ => u = v
  | .quiesce u _ todo => u = v ∧ e ∈ todo
  | .wait u _ e' s todo => u = v ∧ (e ∈ todo ∨ e = e' ∧ seq = s)
  | _ => False

def DriverPoint.mayTag (d : DriverPoint n k) (x : Fin n × Fin k) (v : ℕ) : Prop :=
  match d with
  | .bump u (.evict _) => u = v
  | .shoot u (.evict _) todo => u = v ∧ x ∈ todo
  | .clear u (.evict _) y todo => u = v ∧ (x = y ∨ x ∈ todo)
  | _ => False

def Engine.pending (x : Engine k) : List Translation :=
  match x.point with
  | .hitOr v _ p => [(v, p.pfn, p.dirty)]
  | .hitStore v _ p => [(v, p.pfn, true)]
  | .sample v w p | .clear v w p _ | .fill v w p _ _ | .check v w p _ _ | .regen v w p _ _
  | .tag v w p _ _ | .confirm v w p _ _ | .drop v w p _ => [(v, p.pfn, w || p.dirty)]
  | _ => []

def Engine.dropping (x : Engine k) (gen : ℕ) (i : Fin k) (v : ℕ) : Prop :=
  match x.point with
  | .confirm u _ _ g j => u = v ∧ j = i ∧ g ≠ gen
  | .drop u _ _ j => u = v ∧ j = i
  | _ => False

structure TransOk (pte : ℕ → Pte) (d : DriverPoint n k) (e : Fin n) (seq : ℕ)
    (t : Translation) : Prop where
  frame : frameOf pte d t.1 = some t.2.1
  alive : (pte t.1).inVram = true ∨ d.mayHold e seq t.1
  mark : t.2.2 = true → Mark pte d t.1

structure TagOk (pte : ℕ → Pte) (gen : ℕ) (d : DriverPoint n k) (e : Fin n) (x : Engine k)
    (i : Fin k) (v : ℕ) : Prop where
  frame : frameOf pte d v = some (x.slot i).pfn
  alive : (pte v).inVram = true ∨ d.mayTag (e, i) v ∨ x.dropping gen i v
  mark : (x.slot i).dirty = true → Mark pte d v

def PointOk (pte : ℕ → Pte) (gen : ℕ) (d : DriverPoint n k) (x : Engine k) : Prop :=
  match x.point with
  | .recheck _ _ i p => x.slot i = p
  | .hitOr v i p | .hitStore v i p => x.slot i = p ∧ ∀ u, x.tag i = some u → u = v
  | .clear _ _ _ g | .confirm _ _ _ g _ => g ≤ gen
  | .fill _ _ _ g i => g ≤ gen ∧ x.tag i = none
  | .check _ _ p g i => g ≤ gen ∧ x.tag i = none ∧ x.slot i = p
  | .regen v _ p g i | .tag v _ p g i => g ≤ gen ∧ x.tag i = none ∧ x.slot i = p ∧
      (gen = g → (pte v).inVram = true ∨ ∃ old, d = .bump v (.evict old))
  | _ => True

structure Engine.Ok (pte : ℕ → Pte) (gen : ℕ) (d : DriverPoint n k) (e : Fin n)
    (x : Engine k) : Prop where
  parity : x.point = .idle ↔ x.seq % 2 = 0
  rest : x.point = .idle → x.held = []
  held : ∀ t ∈ x.held, TransOk pte d e x.seq t
  pending : ∀ t ∈ x.pending, TransOk pte d e x.seq t
  tags : ∀ i v, x.tag i = some v → TagOk pte gen d e x i v
  point : PointOk pte gen d x

def Out (pte : ℕ → Pte) (d : DriverPoint n k) : Prop :=
  ∀ u f m, d.evicting = some (u, f, m) → (pte u).inVram = false

structure Inv (s : State n k) : Prop where
  engine : ∀ e, (s.engines e).Ok s.pte s.gen s.driver e
  out : Out s.pte s.driver
  loading : ∀ u f, s.driver.loading = some (u, f) →
    (s.pte u).inVram = false ∧ s.owner f = some u
  owner : ∀ v f, frameOf s.pte s.driver v = some f → s.owner f = some v
  wrote : ∀ v f, frameOf s.pte s.driver v = some f → s.wrote v = true → Mark s.pte s.driver v

theorem inv_init (n k : ℕ) : Inv (init n k) where
  engine := fun e => by
    constructor <;> simp [init, Engine.pending, PointOk]
  out := by simp [Out, init, DriverPoint.evicting]
  loading := by simp [init, DriverPoint.loading]
  owner := by simp [init, frameOf, Pte.hostResident, DriverPoint.evicting]
  wrote := by simp [init]

/-! ### Engines set flags -/

structure Grows (pte pte' : ℕ → Pte) : Prop where
  inVram : ∀ v, (pte' v).inVram = (pte v).inVram
  pfn : ∀ v, (pte' v).pfn = (pte v).pfn
  dirty : ∀ v, (pte v).dirty = true → (pte' v).dirty = true

variable {pte pte' : ℕ → Pte} {gen : ℕ} {d : DriverPoint n k} {e : Fin n} {x y : Engine k} {v : ℕ}
  {t : Translation}

theorem Grows.refl (pte : ℕ → Pte) : Grows pte pte := ⟨fun _ => rfl, fun _ => rfl, fun _ h => h⟩

theorem Grows.orPte (pte : ℕ → Pte) (v : ℕ) (d a : Bool) :
    Grows pte (Function.update pte v (orPte (pte v) d a)) where
  inVram := (Function.forall_update_iff pte fun w q => q.inVram = (pte w).inVram).mpr
    ⟨rfl, fun _ _ => rfl⟩
  pfn := (Function.forall_update_iff pte fun w q => q.pfn = (pte w).pfn).mpr ⟨rfl, fun _ _ => rfl⟩
  dirty := (Function.forall_update_iff pte fun w q => (pte w).dirty = true → q.dirty = true).mpr
    ⟨fun h => by simp [Paging.orPte, h], fun _ _ h => h⟩

theorem Grows.frameOf (h : Grows pte pte') (d : DriverPoint n k) :
    frameOf pte' d = frameOf pte d := by
  funext v
  simp only [Paging.frameOf, h.inVram, h.pfn]

theorem Grows.mark (h : Grows pte pte') (hm : Mark pte d v) : Mark pte' d v :=
  hm.imp_left (And.imp_right (h.dirty v))

theorem Grows.trans (h : Grows pte pte') {seq : ℕ} (ht : TransOk pte d e seq t) :
    TransOk pte' d e seq t where
  frame := by rw [h.frameOf]; exact ht.frame
  alive := by rw [h.inVram]; exact ht.alive
  mark := fun hm => h.mark (ht.mark hm)

theorem Grows.pointOk (h : Grows pte pte') (hp : PointOk pte gen d x) : PointOk pte' gen d x := by
  unfold PointOk at *
  split <;> simp_all [h.inVram]

theorem Grows.ok (h : Grows pte pte') (hx : x.Ok pte gen d e) : x.Ok pte' gen d e where
  parity := hx.parity
  rest := hx.rest
  held := fun t ht => h.trans (hx.held t ht)
  pending := fun t ht => h.trans (hx.pending t ht)
  tags := fun i v hi =>
    { frame := by rw [h.frameOf]; exact (hx.tags i v hi).frame
      alive := by rw [h.inVram]; exact (hx.tags i v hi).alive
      mark := fun hd => h.mark ((hx.tags i v hi).mark hd) }
  point := h.pointOk hx.point

/-! ### One access of an engine -/

theorem DriverPoint.mayTag.mayHold {i : Fin k} (h : d.mayTag (e, i) v) (seq : ℕ) :
    d.mayHold e seq v := by
  cases d with
  | bump u a => cases a <;> simp_all [mayTag, mayHold]
  | shoot u a todo => cases a <;> simp_all [mayTag, mayHold]
  | clear u a y todo => cases a <;> simp_all [mayTag, mayHold]
  | _ => simp [mayTag] at h

theorem frameOf_resident (h : (pte v).inVram = true) : frameOf pte d v = some (pte v).pfn := by
  simp [frameOf, h]

namespace Engine.Ok

theorem goto (h : x.Ok pte gen d e) (hx : x.point ≠ .idle) {q : Point k} (hq : q ≠ .idle)
    (hpend : ∀ t ∈ (x.goto q).pending, TransOk pte d e x.seq t)
    (hdrop : ∀ i v, x.dropping gen i v → (x.goto q).dropping gen i v)
    (hpoint : PointOk pte gen d (x.goto q)) : (x.goto q).Ok pte gen d e where
  parity := by
    have := h.parity
    simp only [Engine.goto, hq, false_iff]
    simpa [hx] using this
  rest := fun hi => absurd hi hq
  held := h.held
  pending := hpend
  tags := fun i v hi =>
    { frame := (h.tags i v hi).frame
      alive := (h.tags i v hi).alive.imp_right (Or.imp_right (hdrop i v))
      mark := (h.tags i v hi).mark }
  point := hpoint

theorem got (h : x.Ok pte gen d e) (hx : x.point ≠ .idle) {f : ℕ} {w : Bool}
    (ht : TransOk pte d e x.seq (v, f, w))
    (hdrop : ∀ i u, x.tag i = some u → ¬x.dropping gen i u) : (x.got v f w).Ok pte gen d e where
  parity := by
    have := h.parity
    simp only [Engine.got, reduceCtorEq, false_iff]
    simpa [hx] using this
  rest := by simp [Engine.got]
  held := by
    intro t hm
    rcases List.mem_append.mp hm with hm | hm
    · exact h.held t hm
    · rw [List.mem_singleton.mp hm]
      exact ht
  pending := by simp [Engine.pending, Engine.got]
  tags := fun i u hi =>
    { frame := (h.tags i u hi).frame
      alive := by
        rcases (h.tags i u hi).alive with hv | hm | hd
        · exact .inl hv
        · exact .inr (.inl hm)
        · exact absurd hd (hdrop i u hi)
      mark := (h.tags i u hi).mark }
  point := by simp [PointOk, Engine.got]

theorem clearTag (h : x.Ok pte gen d e) (i : Fin k) : (x.setTag i none).Ok pte gen d e where
  parity := h.parity
  rest := h.rest
  held := h.held
  pending := h.pending
  tags := by
    intro j v hj
    have hji : j ≠ i := by
      rintro rfl
      simp [Engine.setTag] at hj
    simp only [Engine.setTag, Function.update_of_ne hji] at hj
    exact ⟨(h.tags j v hj).frame, (h.tags j v hj).alive, (h.tags j v hj).mark⟩
  point := by
    have hp := h.point
    have htag : ∀ j u, (x.setTag i none).tag j = some u → x.tag j = some u := by
      intro j u hj
      by_cases hji : j = i
      · simp [Engine.setTag, hji] at hj
      · simpa [Engine.setTag, hji] using hj
    have hnone : ∀ j, x.tag j = none → (x.setTag i none).tag j = none := by
      intro j hj
      by_cases hji : j = i
      · simp [Engine.setTag, hji]
      · simpa [Engine.setTag, hji] using hj
    unfold PointOk at hp ⊢
    simp only [show (x.setTag i none).point = x.point from rfl,
      show (x.setTag i none).slot = x.slot from rfl] at hp ⊢
    split at hp
    · exact hp
    · exact ⟨hp.1, fun u hu => hp.2 u (htag _ u hu)⟩
    · exact ⟨hp.1, fun u hu => hp.2 u (htag _ u hu)⟩
    · exact hp
    · exact hp
    · exact ⟨hp.1, hnone _ hp.2⟩
    · exact ⟨hp.1, hnone _ hp.2.1, hp.2.2⟩
    · exact ⟨hp.1, hnone _ hp.2.1, hp.2.2⟩
    · exact ⟨hp.1, hnone _ hp.2.1, hp.2.2⟩
    · trivial

theorem setSlot (h : x.Ok pte gen d e) {i : Fin k} {p : Pte}
    (hslot : ∀ u, x.tag i = some u → frameOf pte d u = some p.pfn ∧ (p.dirty = true → Mark pte d u))
    (hpoint : PointOk pte gen d (x.setSlot i p)) : (x.setSlot i p).Ok pte gen d e where
  parity := h.parity
  rest := h.rest
  held := h.held
  pending := h.pending
  tags := by
    intro j u hj
    have hold := h.tags j u hj
    by_cases hji : j = i
    · subst hji
      obtain ⟨hf, hm⟩ := hslot u hj
      refine ⟨?_, hold.alive, ?_⟩ <;> simpa [Engine.setSlot]
    · refine ⟨?_, hold.alive, ?_⟩ <;> simp only [Engine.setSlot, Function.update_of_ne hji]
      · exact hold.frame
      · exact hold.mark
  point := hpoint

end Engine.Ok

theorem Out.not_publishing (h : Out pte d) {seq : ℕ}
    (hv : (pte v).inVram = true ∨ d.mayHold e seq v) : ¬d.publishing v := by
  intro hp
  cases d with
  | publish u old late =>
    obtain rfl : u = v := hp
    have hout := h u old.pfn _ rfl
    rcases hv with hv | hv
    · simp [hout] at hv
    · exact hv
  | _ => exact hp

theorem transOk_resident {seq : ℕ} {m : Bool} (hout : Out pte d) (hv : (pte v).inVram = true)
    (hm : m = true → (pte v).dirty = true) : TransOk pte d e seq (v, (pte v).pfn, m) where
  frame := frameOf_resident hv
  alive := .inl hv
  mark := fun h =>
    have hor : (pte v).inVram = true ∨ d.mayHold e seq v := .inl hv
    .inl ⟨hout.not_publishing hor, hm h⟩

theorem TransOk.weaken {seq f : ℕ} {m m' : Bool} (h : TransOk pte d e seq (v, f, m))
    (hm : m' = true → m = true) : TransOk pte d e seq (v, f, m') :=
  ⟨h.frame, h.alive, fun hm' => h.mark (hm hm')⟩

theorem Engine.step_ok (hout : Out pte d) (h : x.Ok pte gen d e) {c : Option (Fin k)}
    (hs : x.step pte gen c = some (y, pte')) : Grows pte pte' ∧ y.Ok pte' gen d e := by
  have hpoint := h.point
  have hpend := h.pending
  have htags := h.tags
  cases hx : x.point with
  | idle => simp [Engine.step, hx] at hs
  | command => simp [Engine.step, hx] at hs
  | probe v w i =>
    simp only [Engine.step, hx] at hs
    split_ifs at hs with hi htag <;> simp only [Option.some.injEq, Prod.mk.injEq] at hs <;>
      obtain ⟨rfl, rfl⟩ := hs <;> refine ⟨.refl _, h.goto (by simp [hx]) (by simp) ?_ ?_ ?_⟩ <;>
      simp [Engine.pending, Engine.dropping, Engine.goto, PointOk, hx]
  | tagged v w i =>
    simp only [Engine.step, hx, Option.some.injEq, Prod.mk.injEq] at hs
    obtain ⟨rfl, rfl⟩ := hs
    refine ⟨.refl _, h.goto (by simp [hx]) (by simp) ?_ ?_ ?_⟩ <;>
      simp [Engine.pending, Engine.dropping, Engine.goto, PointOk, hx]
  | recheck v w i p =>
    simp only [Engine.step, hx] at hs
    simp only [PointOk, hx] at hpoint
    have hnone : ∀ j u, ¬x.dropping gen j u := by simp [Engine.dropping, hx]
    split_ifs at hs with hmiss hw <;> simp only [Option.some.injEq, Prod.mk.injEq] at hs <;>
      obtain ⟨rfl, rfl⟩ := hs <;> refine ⟨.refl _, ?_⟩
    · refine h.goto (by simp [hx]) (by simp) ?_ ?_ ?_ <;>
        simp [Engine.pending, Engine.dropping, Engine.goto, PointOk, hx]
    all_goals
      -- The tag is there: the slot still holds the page's translation.
      push Not at hmiss
      have ht := htags i v hmiss.1
      have hhold : TransOk pte d e x.seq (v, p.pfn, p.dirty) :=
        { frame := by rw [← hpoint]; exact ht.frame
          alive := by
            rcases ht.alive with hv | hm | hd
            · exact .inl hv
            · exact .inr (hm.mayHold _)
            · exact absurd hd (hnone i v)
          mark := by rw [← hpoint]; exact ht.mark }
    · refine h.goto (by simp [hx]) (by simp) ?_ (by simp [Engine.dropping, hx]) ?_
      · simpa [Engine.pending, Engine.goto] using hhold
      · exact ⟨hpoint, fun u hu => Option.some.inj (hu.symm.trans hmiss.1)⟩
    · refine h.got (by simp [hx]) ⟨hhold.frame, hhold.alive, fun hm => hhold.mark ?_⟩
        fun j u _ => hnone j u
      simpa [show w = true from hm] using hw
  | hitOr v i p =>
    simp only [Engine.step, hx, Option.some.injEq, Prod.mk.injEq] at hs
    obtain ⟨rfl, rfl⟩ := hs
    have hg := Grows.orPte pte v true false
    refine ⟨hg, (hg.ok h).goto (by simp [hx]) (by simp) ?_ (by simp [Engine.dropping, hx]) ?_⟩
    · have ht := hg.trans (hpend (v, p.pfn, p.dirty) (by simp [Engine.pending, hx]))
      simp only [Engine.pending, Engine.goto, List.mem_singleton, forall_eq]
      have hout' : Out (Function.update pte v (orPte (pte v) true false)) d := by
        intro u f m hu
        rw [hg.inVram]
        exact hout u f m hu
      exact ⟨ht.frame, ht.alive, fun _ => .inl ⟨hout'.not_publishing ht.alive, by simp [orPte]⟩⟩
    · simpa [PointOk, hx, Engine.goto] using hpoint
  | hitStore v i p =>
    simp only [Engine.step, hx, Option.some.injEq, Prod.mk.injEq] at hs
    obtain ⟨rfl, rfl⟩ := hs
    simp only [PointOk, hx] at hpoint
    have ht := hpend (v, p.pfn, true) (by simp [Engine.pending, hx])
    have hgot : (x.got v p.pfn true).Ok pte gen d e :=
      h.got (by simp [hx]) ht (by simp [Engine.dropping, hx])
    refine ⟨.refl _, hgot.setSlot (fun u hu => ?_) (by simp [PointOk, Engine.setSlot, Engine.got])⟩
    obtain rfl := hpoint.2 u hu
    exact ⟨ht.frame, fun _ => ht.mark rfl⟩
  | walk v w =>
    simp only [Engine.step, hx] at hs
    split_ifs at hs with hmiss hbits <;> simp only [Option.some.injEq, Prod.mk.injEq] at hs <;>
      obtain ⟨rfl, rfl⟩ := hs <;>
      refine ⟨.refl _, h.goto (by simp [hx]) (by simp) ?_ (by simp [Engine.dropping, hx]) ?_⟩
    case pos.refine_1 => simp [Engine.pending, Engine.goto]
    case neg.refine_1 => simp [Engine.pending, Engine.goto]
    case pos.refine_1 =>
      push Not at hmiss
      simp only [Engine.pending, Engine.goto, List.mem_singleton, forall_eq]
      refine transOk_resident hout (by simpa using hmiss.2) fun hm => ?_
      cases w <;> simp_all [hasBits]
    all_goals simp [PointOk, Engine.goto]
  | walkOr v w =>
    simp only [Engine.step, hx] at hs
    have hg := Grows.orPte pte v w true
    split_ifs at hs with hmiss <;> simp only [Option.some.injEq, Prod.mk.injEq] at hs <;>
      obtain ⟨rfl, rfl⟩ := hs <;>
      refine ⟨hg, (hg.ok h).goto (by simp [hx]) (by simp) ?_ (by simp [Engine.dropping, hx])
        (by simp [PointOk, Engine.goto])⟩
    · simp [Engine.pending, Engine.goto]
    · push Not at hmiss
      simp only [Engine.pending, Engine.goto, List.mem_singleton, forall_eq]
      have hout' : Out (Function.update pte v (orPte (pte v) w true)) d := by
        intro u f m hu
        rw [hg.inVram]
        exact hout u f m hu
      have hself : Function.update pte v (orPte (pte v) w true) v = orPte (pte v) w true :=
        Function.update_self ..
      have ht : TransOk (Function.update pte v (orPte (pte v) w true)) d e x.seq
          (v, _, w || (orPte (pte v) w true).dirty) :=
        transOk_resident hout' (by rw [hself]; simpa using hmiss.2)
          (by rw [hself]; cases w <;> simp [orPte])
      rwa [hself] at ht
  | sample v w p =>
    simp only [Engine.step, hx, Option.some.injEq, Prod.mk.injEq] at hs
    obtain ⟨rfl, rfl⟩ := hs
    refine ⟨.refl _, h.goto (by simp [hx]) (by simp) ?_ (by simp [Engine.dropping, hx]) le_rfl⟩
    simpa [Engine.pending, Engine.goto, hx] using hpend
  | clear v w p g =>
    simp only [Engine.step, hx] at hs
    cases c with
    | none => simp at hs
    | some i =>
      simp only [Option.some.injEq, Prod.mk.injEq] at hs
      obtain ⟨rfl, rfl⟩ := hs
      refine ⟨.refl _, (h.clearTag i).goto (by simp [Engine.setTag, hx]) (by simp) ?_
        (by simp [Engine.dropping, Engine.setTag, hx]) ?_⟩
      · simpa [Engine.pending, Engine.goto, Engine.setTag, hx] using hpend
      · simpa [PointOk, Engine.goto, Engine.setTag, hx] using hpoint
  | fill v w p g i =>
    simp only [Engine.step, hx, Option.some.injEq, Prod.mk.injEq] at hs
    obtain ⟨rfl, rfl⟩ := hs
    simp only [PointOk, hx] at hpoint
    have hslot : (x.setSlot i p).Ok pte gen d e :=
      h.setSlot (fun u hu => by simp [hpoint.2] at hu)
        (by simpa [PointOk, Engine.setSlot, hx] using hpoint)
    refine ⟨.refl _, hslot.goto (by simp [Engine.setSlot, hx]) (by simp) ?_
      (by simp [Engine.dropping, Engine.setSlot, hx]) ?_⟩
    · simpa [Engine.pending, Engine.goto, Engine.setSlot, hx] using hpend
    · simpa [PointOk, Engine.goto, Engine.setSlot] using hpoint
  | check v w p g i =>
    simp only [Engine.step, hx] at hs
    simp only [PointOk, hx] at hpoint
    have ht := hpend (v, p.pfn, w || p.dirty) (by simp [Engine.pending, hx])
    split_ifs at hs with hin <;> simp only [Option.some.injEq, Prod.mk.injEq] at hs <;>
      obtain ⟨rfl, rfl⟩ := hs <;> refine ⟨.refl _, ?_⟩
    · rw [Bool.and_eq_true] at hin
      refine h.goto (by simp [hx]) (by simp) ?_ (by simp [Engine.dropping, hx]) ?_
      · simpa [Engine.pending, Engine.goto, hx] using hpend
      · exact ⟨hpoint.1, hpoint.2.1, hpoint.2.2, fun _ => .inl hin.2⟩
    · exact h.got (by simp [hx]) (ht.weaken (by simp_all)) (by simp [Engine.dropping, hx])
  | regen v w p g i =>
    simp only [Engine.step, hx] at hs
    simp only [PointOk, hx] at hpoint
    have ht := hpend (v, p.pfn, w || p.dirty) (by simp [Engine.pending, hx])
    split_ifs at hs with hgen <;> simp only [Option.some.injEq, Prod.mk.injEq] at hs <;>
      obtain ⟨rfl, rfl⟩ := hs <;> refine ⟨.refl _, ?_⟩
    · refine h.goto (by simp [hx]) (by simp) ?_ (by simp [Engine.dropping, hx]) hpoint
      simpa [Engine.pending, Engine.goto, hx] using hpend
    · exact h.got (by simp [hx]) (ht.weaken (by simp_all)) (by simp [Engine.dropping, hx])
  | tag v w p g i =>
    simp only [Engine.step, hx, Option.some.injEq, Prod.mk.injEq] at hs
    obtain ⟨rfl, rfl⟩ := hs
    simp only [PointOk, hx] at hpoint
    obtain ⟨hle, -, hslot, hgen⟩ := hpoint
    have ht := hpend (v, p.pfn, w || p.dirty) (by simp [Engine.pending, hx])
    refine ⟨.refl _, ?_, by simp [Engine.goto], h.held, ?_, fun j u hj => ?_, hle⟩
    · have := h.parity
      simpa [Engine.goto, Engine.setTag, hx] using this
    · simpa [Engine.pending, Engine.goto, Engine.setTag, hx] using hpend
    · by_cases hji : j = i
      · subst hji
        obtain rfl : v = u := by simpa [Engine.setTag, Engine.goto] using hj
        refine ⟨?_, ?_, ?_⟩ <;> simp only [Engine.setTag, Engine.goto, hslot, Engine.dropping]
        · exact ht.frame
        · -- Behind the shootdown the generation has moved on, and the tag goes.
          by_cases hg : gen = g
          · rcases hgen hg with hv | ⟨old, rfl⟩
            · exact .inl hv
            · exact .inr (.inl rfl)
          · exact .inr (.inr ⟨trivial, trivial, fun h => hg h.symm⟩)
        · exact fun hd => ht.mark (by simp [hd])
      · have hold := htags j u (by simpa [Engine.setTag, Engine.goto, hji] using hj)
        refine ⟨hold.frame, ?_, hold.mark⟩
        rcases hold.alive with hv | hm | hd
        · exact .inl hv
        · exact .inr (.inl hm)
        · simp [Engine.dropping, hx] at hd
  | confirm v w p g i =>
    simp only [Engine.step, hx] at hs
    simp only [PointOk, hx] at hpoint
    have ht := hpend (v, p.pfn, w || p.dirty) (by simp [Engine.pending, hx])
    split_ifs at hs with hgen <;> simp only [Option.some.injEq, Prod.mk.injEq] at hs <;>
      obtain ⟨rfl, rfl⟩ := hs <;> refine ⟨.refl _, ?_⟩
    · refine h.got (by simp [hx]) (ht.weaken (by simp_all)) fun j u _ => ?_
      simp [Engine.dropping, hx, hgen]
    · refine h.goto (by simp [hx]) (by simp) ?_ ?_ (by simp [PointOk, Engine.goto])
      · simpa [Engine.pending, Engine.goto, hx] using hpend
      · simp only [Engine.dropping, hx, Engine.goto]
        exact fun j u hj => ⟨hj.1, hj.2.1⟩
  | drop v w p i =>
    simp only [Engine.step, hx, Option.some.injEq, Prod.mk.injEq] at hs
    obtain ⟨rfl, rfl⟩ := hs
    have ht := hpend (v, p.pfn, w || p.dirty) (by simp [Engine.pending, hx])
    refine ⟨.refl _, (h.clearTag i).got (by simp [Engine.setTag, hx]) (ht.weaken (by simp_all)) ?_⟩
    intro j u hj hd
    simp only [Engine.dropping, Engine.setTag, hx] at hj hd
    simp [hd.2] at hj

/-! ### What a step of the driver asks of the engines -/

theorem Engine.Ok.tag_alive (h : x.Ok pte gen d e) {i : Fin k} (hi : x.tag i = some v) :
    (pte v).inVram = true ∨ ∃ e seq, d.mayHold e seq v := by
  rcases (h.tags i v hi).alive with hv | hm | hd
  · exact .inl hv
  · exact .inr ⟨e, x.seq, hm.mayHold _⟩
  · have hp := h.pending
    unfold Engine.dropping at hd
    split at hd
    · rename_i u w p g j hx
      obtain rfl := hd.1
      exact (hp (u, p.pfn, w || p.dirty) (by simp [Engine.pending, hx])).alive.imp_right
        fun hm => ⟨e, x.seq, hm⟩
    · rename_i u w p j hx
      obtain rfl := hd.1
      exact (hp (u, p.pfn, w || p.dirty) (by simp [Engine.pending, hx])).alive.imp_right
        fun hm => ⟨e, x.seq, hm⟩
    · exact hd.elim

theorem Engine.Ok.busy (h : x.Ok pte gen d e) (ht : t ∈ x.held ∨ t ∈ x.pending) :
    x.point ≠ .idle := by
  intro hi
  rcases ht with ht | ht
  · simp [h.rest hi] at ht
  · simp [Engine.pending, hi] at ht

theorem Engine.Ok.transfer (h : x.Ok pte gen d e) {gen' : ℕ} {d' : DriverPoint n k}
    (hgen : gen ≤ gen')
    (hframe : ∀ v f, frameOf pte d v = some f →
      ((pte v).inVram = true ∨ ∃ e seq, d.mayHold e seq v) →
      frameOf pte' d' v = some f ∧ (Mark pte d v → Mark pte' d' v))
    (halive : x.point ≠ .idle → ∀ v, (pte v).inVram = true ∨ d.mayHold e x.seq v →
      (pte' v).inVram = true ∨ d'.mayHold e x.seq v)
    (htag : ∀ i v, x.tag i = some v → (pte v).inVram = true ∨ d.mayTag (e, i) v →
      (pte' v).inVram = true ∨ d'.mayTag (e, i) v)
    (hpoint : gen' = gen → ∀ v, ((pte v).inVram = true ∨ ∃ old, d = .bump v (.evict old)) →
      (pte' v).inVram = true ∨ ∃ old, d' = .bump v (.evict old)) : x.Ok pte' gen' d' e := by
  have htrans : ∀ t, t ∈ x.held ∨ t ∈ x.pending → TransOk pte d e x.seq t →
      TransOk pte' d' e x.seq t := by
    intro t hm ht
    obtain ⟨hf, hmark⟩ := hframe _ _ ht.frame (ht.alive.imp_right fun hm => ⟨e, x.seq, hm⟩)
    exact ⟨hf, halive (h.busy hm) _ ht.alive, fun hd => hmark (ht.mark hd)⟩
  refine ⟨h.parity, h.rest, fun t hm => htrans t (.inl hm) (h.held t hm),
    fun t hm => htrans t (.inr hm) (h.pending t hm), fun i v hi => ?_, ?_⟩
  · have hold := h.tags i v hi
    obtain ⟨hf, hmark⟩ := hframe _ _ hold.frame (h.tag_alive hi)
    refine ⟨hf, ?_, fun hd => hmark (hold.mark hd)⟩
    rcases hold.alive with hv | hm | hd
    · exact (htag i v hi (.inl hv)).imp_right .inl
    · exact (htag i v hi (.inr hm)).imp_right .inl
    · -- The generation never goes back, so the tag is still going to be dropped.
      have hp := h.point
      refine .inr (.inr ?_)
      unfold Engine.dropping at hd ⊢
      split
      · rename_i hx
        simp only [PointOk, hx] at hp hd
        exact ⟨hd.1, hd.2.1, by omega⟩
      · rename_i hx
        simpa only [hx] using hd
      · rename_i h₁ h₂
        split at hd
        · rename_i hx
          exact absurd hx (h₁ _ _ _ _ _)
        · rename_i hx
          exact absurd hx (h₂ _ _ _ _)
        · exact hd
  · have hp := h.point
    unfold PointOk at hp ⊢
    split at hp
    · exact hp
    · exact hp
    · exact hp
    · exact Nat.le_trans hp hgen
    · exact Nat.le_trans hp hgen
    · exact ⟨Nat.le_trans hp.1 hgen, hp.2⟩
    · exact ⟨Nat.le_trans hp.1 hgen, hp.2⟩
    · exact ⟨Nat.le_trans hp.1 hgen, hp.2.1, hp.2.2.1,
        fun hg => hpoint (by omega) _ (hp.2.2.2 (by omega))⟩
    · exact ⟨Nat.le_trans hp.1 hgen, hp.2.1, hp.2.2.1,
        fun hg => hpoint (by omega) _ (hp.2.2.2 (by omega))⟩
    · trivial

/-! ### The steps of the machine -/

variable {s s' : State n k} {a : Action n k}

theorem Inv.engineStep (h : Inv s) (hg : Grows s.pte pte') (hx : x.Ok pte' s.gen s.driver e)
    {t : State n k} (hpte : t.pte = pte') (hgen : t.gen = s.gen)
    (hengines : t.engines = Function.update s.engines e x) (hdriver : t.driver = s.driver)
    (howner : t.owner = s.owner) (hwrote : ∀ v, t.wrote v = true → s.wrote v = true) : Inv t where
  engine := by
    rw [hpte, hgen, hengines, hdriver]
    refine (Function.forall_update_iff s.engines fun e y => y.Ok pte' s.gen s.driver e).mpr
      ⟨hx, fun e' _ => hg.ok (h.engine e')⟩
  out := by
    rw [hpte, hdriver]
    intro u f m hu
    rw [hg.inVram]
    exact h.out u f m hu
  loading := by
    rw [hpte, hdriver, howner]
    intro u f hu
    rw [hg.inVram]
    exact h.loading u f hu
  owner := by
    rw [hpte, hdriver, howner, hg.frameOf]
    exact h.owner
  wrote := by
    rw [hpte, hdriver, hg.frameOf]
    intro v f hv hw
    exact hg.mark (h.wrote v f hv (hwrote v hw))

theorem engineStep_inv (h : Inv s) (hs : engineStep s a = some s') : Inv s' := by
  cases a with
  | submit c =>
    simp only [Paging.engineStep] at hs
    split at hs <;> simp only [Option.some.injEq, reduceCtorEq] at hs
    exact hs ▸ ⟨h.engine, h.out, h.loading, h.owner, h.wrote⟩
  | enter e c =>
    simp only [Paging.engineStep, Option.ite_none_right_eq_some, Option.some.injEq] at hs
    obtain ⟨⟨hidle, -⟩, rfl⟩ := hs
    have hx := h.engine e
    have hrest := hx.rest hidle
    have hseq := hx.parity.mp hidle
    refine h.engineStep (.refl _) (x := { s.engines e with
      seq := (s.engines e).seq + 1, cmd := c, point := .command }) ?_ rfl rfl rfl rfl rfl
      fun _ hw => hw
    refine ⟨?_, by simp, by simp [hrest], by simp [Engine.pending], fun i v hi => ?_,
      by simp [PointOk]⟩
    · simp
      omega
    · have hold := hx.tags i v hi
      refine ⟨hold.frame, ?_, hold.mark⟩
      simpa [Engine.dropping, hidle] using hold.alive
  | translate e v w =>
    simp only [Paging.engineStep, Option.ite_none_right_eq_some, Option.some.injEq] at hs
    obtain ⟨hcmd, rfl⟩ := hs
    refine h.engineStep (.refl _) ((h.engine e).goto (by simp [hcmd]) (q := .probe v w 0) (by simp)
      ?_ ?_ ?_) rfl rfl rfl rfl rfl fun _ hw => hw <;>
      simp [Engine.pending, Engine.goto, Engine.dropping, PointOk, hcmd]
  | engine e i =>
    simp only [Paging.engineStep] at hs
    split at hs <;> simp only [Option.some.injEq, reduceCtorEq] at hs
    rename_i y pte' hstep
    obtain ⟨hg, hy⟩ := Engine.step_ok h.out (h.engine e) hstep
    exact hs ▸ h.engineStep hg hy rfl rfl rfl rfl rfl fun _ hw => hw
  | read e v f off =>
    simp only [Paging.engineStep] at hs
    split at hs <;> try simp only [reduceCtorEq] at hs
    split at hs <;> simp only [Option.some.injEq, reduceCtorEq] at hs
    exact hs ▸ ⟨h.engine, h.out, h.loading, h.owner, h.wrote⟩
  | write e v f off byte =>
    simp only [Paging.engineStep, Option.ite_none_right_eq_some, Option.some.injEq] at hs
    obtain ⟨⟨-, hheld⟩, rfl⟩ := hs
    refine ⟨h.engine, h.out, h.loading, h.owner, fun u g hu hw => ?_⟩
    by_cases huv : u = v
    · rw [huv]
      exact ((h.engine e).held _ hheld).mark rfl
    · refine h.wrote u g hu ?_
      simpa [huv] using hw
  | leave e =>
    simp only [Paging.engineStep, Option.ite_none_right_eq_some, Option.some.injEq] at hs
    obtain ⟨hcmd, rfl⟩ := hs
    have hx := h.engine e
    have hseq := hx.parity
    refine h.engineStep (.refl _) (x := { s.engines e with
      seq := (s.engines e).seq + 1, point := .idle, held := [] }) ?_ rfl rfl rfl rfl rfl
      fun _ hw => hw
    refine ⟨?_, by simp, by simp, by simp [Engine.pending], fun i v hi => ?_, by simp [PointOk]⟩
    · simp only [hcmd, reduceCtorEq, false_iff] at hseq
      simp
      omega
    · have hold := hx.tags i v hi
      refine ⟨hold.frame, ?_, hold.mark⟩
      simpa [Engine.dropping, hcmd] using hold.alive
  | _ => simp [Paging.engineStep] at hs

theorem frameOf_evicting {u f : ℕ} {m : Bool} (hd : d.evicting = some (u, f, m))
    (hv : (pte u).inVram = false) : frameOf pte d u = some f := by
  simp [frameOf, hv, hd]

theorem not_mayHold_of_evicting (hd : d.evicting = none) {seq : ℕ} : ¬d.mayHold e seq v := by
  cases d with
  | bump u a => cases a <;> simp_all [DriverPoint.evicting, DriverPoint.mayHold]
  | shoot u a todo => cases a <;> simp_all [DriverPoint.evicting, DriverPoint.mayHold]
  | clear u a y todo => cases a <;> simp_all [DriverPoint.evicting, DriverPoint.mayHold]
  | _ => simp_all [DriverPoint.evicting, DriverPoint.mayHold]

theorem Inv.proceed (h : Inv s) {t : State n k} (hgen : s.gen ≤ t.gen)
    (hin : ∀ v, (t.pte v).inVram = (s.pte v).inVram)
    (hframe : frameOf t.pte t.driver = frameOf s.pte s.driver)
    (hmark : ∀ v, Mark s.pte s.driver v → Mark t.pte t.driver v)
    (hout : ∀ u f m, t.driver.evicting = some (u, f, m) →
      ∃ m', s.driver.evicting = some (u, f, m'))
    (hload : t.driver.loading = none ∨ t.driver.loading = s.driver.loading)
    (halive : ∀ e, (s.engines e).point ≠ .idle → ∀ v, s.driver.mayHold e (s.engines e).seq v →
      t.driver.mayHold e (s.engines e).seq v)
    (htag : ∀ e i v, (s.engines e).tag i = some v → s.driver.mayTag (e, i) v →
      t.driver.mayTag (e, i) v)
    (hpoint : t.gen = s.gen → ∀ v old, s.driver ≠ .bump v (.evict old))
    (hengines : t.engines = s.engines) (howner : t.owner = s.owner) (hwrote : t.wrote = s.wrote) :
    Inv t := by
  constructor
  case engine =>
    rw [hengines]
    intro e
    refine (h.engine e).transfer hgen (fun v f hf _ => ⟨hframe ▸ hf, hmark v⟩) ?_ ?_ ?_
    · intro hbusy v
      rw [hin]
      exact Or.imp_right (halive e hbusy v)
    · intro i v hi
      rw [hin]
      exact Or.imp_right (htag e i v hi)
    · intro heq v hv
      rw [hin]
      refine .inl (hv.resolve_right ?_)
      rintro ⟨old, hd⟩
      exact hpoint heq v old hd
  case out =>
    intro u f m hu
    obtain ⟨m', hu⟩ := hout u f m hu
    rw [hin]
    exact h.out u f m' hu
  case loading =>
    rw [howner]
    rcases hload with hl | hl <;> rw [hl]
    · simp
    · intro u f hu
      rw [hin]
      exact h.loading u f hu
  case owner =>
    rw [howner, hframe]
    exact h.owner
  case wrote =>
    rw [hwrote, hframe]
    exact fun v f hv hw => hmark v (h.wrote v f hv hw)

theorem Inv.advance (h : Inv s) {d' : DriverPoint n k} {t : State n k} (hgen : s.gen ≤ t.gen)
    (hdriver : t.driver = d') (hev : d'.evicting = s.driver.evicting)
    (hload : d'.loading = none ∨ d'.loading = s.driver.loading) (hpub : ∀ v, ¬d'.publishing v)
    (halive : ∀ e, (s.engines e).point ≠ .idle → ∀ v, s.driver.mayHold e (s.engines e).seq v →
      d'.mayHold e (s.engines e).seq v)
    (htag : ∀ e i v, (s.engines e).tag i = some v → s.driver.mayTag (e, i) v → d'.mayTag (e, i) v)
    (hpoint : t.gen = s.gen → ∀ v old, s.driver ≠ .bump v (.evict old))
    (hpte : t.pte = s.pte) (hengines : t.engines = s.engines) (howner : t.owner = s.owner)
    (hwrote : t.wrote = s.wrote) : Inv t := by
  subst hdriver
  refine h.proceed hgen (fun v => by rw [hpte]) ?_ (fun v => ?_) (fun u f m hu => ⟨m, hev ▸ hu⟩)
    hload halive htag hpoint hengines howner hwrote
  · funext v
    simp only [frameOf, hpte, hev]
  · simp only [Mark, hpte, hev]
    exact Or.imp_left (And.imp_left fun _ => hpub v)

theorem mem_allSlots (x : Fin n × Fin k) : x ∈ allSlots n k := by
  simp [allSlots]

theorem Inv.makeResident (h : Inv s) {f : ℕ} {after : After} (hafter : ∀ old, after ≠ .evict old)
    (hhold : ∀ e seq u, ¬s.driver.mayHold e seq u) (hv : (s.pte v).inVram = false)
    (howner : s.owner f = some v)
    (hother : ∀ u g m, s.driver.evicting = some (u, g, m) → u = v) :
    Inv (s.makeResident v f after) := by
  have hev : (DriverPoint.bump v after : DriverPoint n k).evicting = none := by
    cases after with
    | evict old => exact absurd rfl (hafter old)
    | _ => rfl
  have htagm : ∀ x u, ¬s.driver.mayTag x u := fun x u hm => hhold x.1 0 u (hm.mayHold 0)
  -- Apart from this page only resident pages have a frame.
  have hframe : ∀ u, u ≠ v → frameOf (Function.update s.pte v (.inFrame f true))
      (.bump v after : DriverPoint n k) u = frameOf s.pte s.driver u := by
    intro u hu
    simp only [frameOf, Function.update_of_ne hu, hev]
    split_ifs
    · rfl
    · cases hd : s.driver.evicting with
      | none => rfl
      | some x =>
        obtain ⟨w, g, m⟩ := x
        rw [hother w g m hd]
        simp [Ne.symm hu]
  have hpte : ∀ u, (s.pte u).inVram = true →
      Function.update s.pte v (.inFrame f true) u = s.pte u := by
    intro u hu
    refine Function.update_of_ne ?_ _ _
    rintro rfl
    simp [hv] at hu
  constructor
  case engine =>
    intro e
    refine (h.engine e).transfer le_rfl ?_ ?_ ?_ ?_
    · intro u g hg halive
      rcases halive with hu | ⟨e', seq, hm⟩
      · have huv : u ≠ v := by
          rintro rfl
          simp [hv] at hu
        refine ⟨?_, fun hm => ?_⟩
        · exact (hframe u huv).trans hg
        · rcases hm with hm | ⟨g, hm⟩
          · refine .inl ⟨id, ?_⟩
            simpa only [State.makeResident, State.setPte, hpte u hu] using hm.2
          · exact absurd (hother u g true hm) huv
      · exact absurd hm (hhold e' seq u)
    · intro _ u hu
      rcases hu with hu | hm
      · refine .inl ?_
        simpa only [State.makeResident, State.setPte, hpte u hu] using hu
      · exact absurd hm (hhold _ _ _)
    · intro i u _ hu
      rcases hu with hu | hm
      · refine .inl ?_
        simpa only [State.makeResident, State.setPte, hpte u hu] using hu
      · exact absurd hm (htagm _ _)
    · intro _ u hu
      rcases hu with hu | ⟨old, hd⟩
      · refine .inl ?_
        simpa only [State.makeResident, State.setPte, hpte u hu] using hu
      · exact absurd (show s.driver.mayHold e 0 u by rw [hd]; exact rfl) (hhold _ _ _)
  case out =>
    intro u g m hu
    simp [State.makeResident, hev] at hu
  case loading =>
    intro u g hu
    simp [State.makeResident, DriverPoint.loading] at hu
  case owner =>
    intro u g hg
    by_cases huv : u = v
    · subst huv
      simp only [State.makeResident, State.setPte, frameOf, Function.update_self, Pte.inFrame,
        if_true, Option.some.injEq] at hg
      exact hg ▸ howner
    · exact h.owner u g ((hframe u huv).symm.trans hg)
  case wrote =>
    intro u g hg hw
    have huv : u ≠ v := by
      rintro rfl
      simp [State.makeResident] at hw
    have hw' : s.wrote u = true := by simpa [State.makeResident, huv] using hw
    rcases h.wrote u g ((hframe u huv).symm.trans hg) hw' with hm | ⟨g', hm⟩
    · refine .inl ⟨id, ?_⟩
      simpa only [State.makeResident, State.setPte, Function.update_of_ne huv] using hm.2
    · exact absurd (hother u g' true hm) huv

theorem Inv.beginEvict (h : Inv s) (hd : s.driver = .idle) (hv : (s.pte v).inVram = true) :
    Inv { s.setPte v .hostResident with driver := .bump v (.evict (s.pte v)) } := by
  have hidle : ∀ u, frameOf s.pte s.driver u = if (s.pte u).inVram then some (s.pte u).pfn
      else none := by
    intro u
    simp [frameOf, hd, DriverPoint.evicting]
  have hnew : ∀ u g, frameOf (Function.update s.pte v .hostResident)
      (.bump v (.evict (s.pte v)) : DriverPoint n k) u = some g ↔
        frameOf s.pte s.driver u = some g := by
    intro u g
    rw [hidle]
    by_cases huv : u = v
    · subst huv
      simp [frameOf, Pte.hostResident, DriverPoint.evicting, hv]
    · simp [frameOf, DriverPoint.evicting, huv, Ne.symm huv]
  have hmark : ∀ u, Mark s.pte s.driver u → Mark (Function.update s.pte v .hostResident)
      (.bump v (.evict (s.pte v)) : DriverPoint n k) u := by
    intro u hm
    have hdirty : (s.pte u).dirty = true := by
      simpa [Mark, hd, DriverPoint.evicting, DriverPoint.publishing] using hm
    by_cases huv : u = v
    · subst huv
      exact .inr ⟨(s.pte u).pfn, by simp [DriverPoint.evicting, hdirty]⟩
    · refine .inl ⟨id, ?_⟩
      rwa [Function.update_of_ne huv]
  have hres : ∀ u, (s.pte u).inVram = true →
      (Function.update s.pte v .hostResident u).inVram = true ∨ v = u := by
    intro u hu
    by_cases huv : u = v
    · exact .inr huv.symm
    · exact .inl (by rwa [Function.update_of_ne huv])
  have hnone : ∀ e seq u, ¬s.driver.mayHold e seq u := fun e seq u =>
    not_mayHold_of_evicting (by simp [hd, DriverPoint.evicting])
  constructor
  case engine =>
    intro e
    refine (h.engine e).transfer le_rfl (fun u g hg _ => ⟨(hnew u g).mpr hg, hmark u⟩) ?_ ?_ ?_
    · intro _ u hu
      exact hres u (hu.resolve_right (hnone _ _ _))
    · intro i u _ hu
      exact hres u (hu.resolve_right fun hm => hnone e 0 u (hm.mayHold 0))
    · intro _ u hu
      refine (hres u (hu.resolve_right ?_)).imp_right ?_
      · simp [hd]
      · rintro rfl
        exact ⟨s.pte v, rfl⟩
  case out =>
    intro u f m hu
    simp only [DriverPoint.evicting, Option.some.injEq, Prod.mk.injEq] at hu
    obtain ⟨rfl, -⟩ := hu
    simp [State.setPte, Pte.hostResident]
  case loading => simp [DriverPoint.loading]
  case owner => exact fun u g hg => h.owner u g ((hnew u g).mp hg)
  case wrote => exact fun u g hg hw => hmark u (h.wrote u g ((hnew u g).mp hg) hw)

theorem Inv.takeFrame (h : Inv s) {f : ℕ} (hd : s.driver = .idle) (hv : (s.pte v).inVram = false)
    (hf : s.owner f = none) :
    Inv { s with owner := Function.update s.owner f (some v), driver := .copyIn v f } := by
  have hframe : frameOf s.pte (.copyIn v f : DriverPoint n k) = frameOf s.pte s.driver := by
    funext u
    simp [frameOf, hd, DriverPoint.evicting]
  have hmark : ∀ u, Mark s.pte s.driver u → Mark s.pte (.copyIn v f : DriverPoint n k) u := by
    simp [Mark, hd, DriverPoint.evicting, DriverPoint.publishing]
  constructor
  case engine =>
    intro e
    refine (h.engine e).transfer le_rfl (fun u g hg _ => ⟨hframe ▸ hg, hmark u⟩) ?_ ?_ ?_ <;>
      simp [hd, DriverPoint.mayHold, DriverPoint.mayTag]
  case out => simp [Out, DriverPoint.evicting]
  case loading =>
    intro u g hu
    simp only [DriverPoint.loading, Option.some.injEq, Prod.mk.injEq] at hu
    obtain ⟨rfl, rfl⟩ := hu
    exact ⟨hv, Function.update_self ..⟩
  case owner =>
    intro u g hg
    have ho := h.owner u g (hframe ▸ hg)
    dsimp only
    rw [Function.update_of_ne]
    · exact ho
    · rintro rfl
      simp [hf] at ho
  case wrote => exact fun u g hg hw => hmark u (h.wrote u g (hframe ▸ hg) hw)

theorem Inv.returnFrame (h : Inv s) {f : ℕ} (hd : s.driver = .evicted v f) :
    Inv { s with owner := Function.update s.owner f none, driver := .idle } := by
  have hev : s.driver.evicting = some (v, f, true) := by rw [hd]; rfl
  have hv := h.out v f true hev
  have hown := h.owner v f (frameOf_evicting hev hv)
  have hframe : ∀ u g, frameOf s.pte (.idle : DriverPoint n k) u = some g →
      frameOf s.pte s.driver u = some g ∧ u ≠ v := by
    intro u g hg
    simp only [frameOf, DriverPoint.evicting] at hg
    split_ifs at hg with hu
    refine ⟨by simpa [frameOf, hu] using hg, ?_⟩
    rintro rfl
    simp [hv] at hu
  have hnone : ∀ e seq u, ¬s.driver.mayHold e seq u := by simp [hd, DriverPoint.mayHold]
  constructor
  case engine =>
    intro e
    refine (h.engine e).transfer le_rfl ?_ ?_ ?_ ?_
    · intro u g hg hu
      have hu := hu.resolve_right fun ⟨e', seq, hm⟩ => hnone e' seq u hm
      refine ⟨by simpa [frameOf, hu] using hg, fun hm => .inl ⟨id, (hm.resolve_right ?_).2⟩⟩
      rintro ⟨g', hg'⟩
      simp only [hev, Option.some.injEq, Prod.mk.injEq] at hg'
      rw [← hg'.1, hv] at hu
      simp at hu
    · exact fun _ u hu => .inl (hu.resolve_right (hnone _ _ _))
    · exact fun i u _ hu => .inl (hu.resolve_right fun hm => hnone e 0 u (hm.mayHold 0))
    · refine fun _ u hu => .inl (hu.resolve_right ?_)
      simp [hd]
  case out => simp [Out, DriverPoint.evicting]
  case loading => simp [DriverPoint.loading]
  case owner =>
    intro u g hg
    obtain ⟨hg', huv⟩ := hframe u g hg
    have ho := h.owner u g hg'
    dsimp only
    rw [Function.update_of_ne]
    · exact ho
    · rintro rfl
      exact huv (Option.some.inj (ho.symm.trans hown))
  case wrote =>
    intro u g hg hw
    obtain ⟨hg', huv⟩ := hframe u g hg
    refine .inl ⟨id, ((h.wrote u g hg' hw).resolve_right ?_).2⟩
    rintro ⟨g', hg'⟩
    simp only [hev, Option.some.injEq, Prod.mk.injEq] at hg'
    exact huv hg'.1.symm

theorem Inv.bump (h : Inv s) {after : After} (hd : s.driver = .bump v after) :
    Inv { s with gen := s.gen + 1, driver := .shoot v after (allSlots n k) } := by
  refine h.advance (Nat.le_succ _) rfl ?_ (.inl rfl) (fun _ => id) ?_ ?_
    (fun hg => ?_) rfl rfl rfl rfl
  · cases after <;> simp [hd, DriverPoint.evicting]
  · cases after <;> simp [hd, DriverPoint.mayHold]
  · cases after <;> simp [hd, DriverPoint.mayTag, mem_allSlots]
  · simp at hg

theorem Inv.shoot (h : Inv s) {after : After} {x : Fin n × Fin k} {todo : List (Fin n × Fin k)}
    (hd : s.driver = .shoot v after (x :: todo)) :
    Inv { s with driver :=
      if (s.engines x.1).tag x.2 = some v then .clear v after x todo
      else .shoot v after todo } := by
  refine h.advance le_rfl rfl ?_ (.inl ?_) (by intro u; split_ifs <;> exact id) ?_ ?_ ?_
    rfl rfl rfl rfl
  · cases after <;> split_ifs <;> simp [hd, DriverPoint.evicting]
  · split_ifs <;> rfl
  · cases after <;> split_ifs <;> simp [hd, DriverPoint.mayHold]
  · intro e i u hi hm
    cases after with
    | evict old =>
      simp only [hd, DriverPoint.mayTag, List.mem_cons] at hm
      obtain ⟨rfl, hm⟩ := hm
      split_ifs with htag
      · exact ⟨rfl, hm⟩
      · refine ⟨rfl, hm.resolve_left ?_⟩
        rintro rfl
        exact htag hi
    | _ => simp [hd, DriverPoint.mayTag] at hm
  · simp [hd]

theorem Inv.clear (h : Inv s) {after : After} {x : Fin n × Fin k} {todo : List (Fin n × Fin k)}
    (hd : s.driver = .clear v after x todo) :
    Inv { s.setEngine x.1 ((s.engines x.1).setTag x.2 none) with
      driver := .shoot v after todo } := by
  -- First the tag goes, then the driver moves on.
  have h₁ : Inv (s.setEngine x.1 ((s.engines x.1).setTag x.2 none)) :=
    h.engineStep (.refl _) ((h.engine x.1).clearTag x.2) rfl rfl rfl rfl rfl fun _ hw => hw
  have hd₁ : (s.setEngine x.1 ((s.engines x.1).setTag x.2 none)).driver =
    .clear v after x todo := hd
  refine h₁.advance le_rfl rfl ?_ (.inl rfl) (fun _ => id) ?_ ?_ ?_ rfl rfl rfl rfl
  · cases after <;> simp [hd₁, DriverPoint.evicting]
  · cases after <;> simp [hd₁, DriverPoint.mayHold]
  · intro e i u hi hm
    cases after with
    | evict old =>
      simp only [hd₁, DriverPoint.mayTag] at hm
      obtain ⟨rfl, hm⟩ := hm
      refine ⟨rfl, hm.resolve_left ?_⟩
      rintro rfl
      simp [State.setEngine, Engine.setTag] at hi
    | _ => simp [hd₁, DriverPoint.mayTag] at hm
  · simp [hd₁]

theorem Inv.quiesce (h : Inv s) {old : Pte} {e : Fin n} {todo : List (Fin n)}
    (hd : s.driver = .quiesce v old (e :: todo)) :
    Inv { s with driver :=
      if (s.engines e).seq % 2 = 0 then .quiesce v old todo
      else (.wait v old e (s.engines e).seq todo) } := by
  refine h.advance le_rfl rfl ?_ (.inl ?_) (by intro u; split_ifs <;> exact id) ?_
    ?_ ?_ rfl rfl rfl rfl
  · split_ifs <;> simp [hd, DriverPoint.evicting]
  · split_ifs <;> rfl
  · -- An engine with an even number is out of its command and holds nothing.
    intro e' hbusy u hm
    simp only [hd, DriverPoint.mayHold, List.mem_cons] at hm
    obtain ⟨rfl, hm⟩ := hm
    split_ifs with heven
    · refine ⟨rfl, hm.resolve_left ?_⟩
      rintro rfl
      exact hbusy ((h.engine e').parity.mpr heven)
    · refine ⟨rfl, hm.symm.imp_right ?_⟩
      rintro rfl
      exact ⟨rfl, rfl⟩
  · simp [hd, DriverPoint.mayTag]
  · simp [hd]

theorem Inv.waited (h : Inv s) {old : Pte} {e : Fin n} {seq : ℕ} {todo : List (Fin n)}
    (hd : s.driver = .wait v old e seq todo) (hseq : (s.engines e).seq ≠ seq) :
    Inv { s with driver := .quiesce v old todo } := by
  refine h.advance le_rfl rfl (by simp [hd, DriverPoint.evicting]) (.inl rfl) (fun _ => id) ?_
    ?_ ?_ rfl rfl rfl rfl
  · intro e' _ u hm
    simp only [hd, DriverPoint.mayHold] at hm
    obtain ⟨rfl, hm⟩ := hm
    refine ⟨rfl, hm.resolve_right ?_⟩
    rintro ⟨rfl, heq⟩
    exact hseq heq
  · simp [hd, DriverPoint.mayTag]
  · simp [hd]

theorem Inv.collect (h : Inv s) {old : Pte} (hd : s.driver = .collect v old) :
    Inv { s.setPte v { s.pte v with dirty := false, accessed := false } with
      driver := .publish v old (s.pte v).dirty } := by
  have hin : ∀ u, (Function.update s.pte v
    { s.pte v with dirty := false, accessed := false } u).inVram =
      (s.pte u).inVram :=
    (Function.forall_update_iff s.pte fun u q => q.inVram = (s.pte u).inVram).mpr
      ⟨rfl, fun _ _ => rfl⟩
  have hpfn : ∀ u, (Function.update s.pte v
    { s.pte v with dirty := false, accessed := false } u).pfn =
      (s.pte u).pfn :=
    (Function.forall_update_iff s.pte fun u q => q.pfn = (s.pte u).pfn).mpr ⟨rfl, fun _ _ => rfl⟩
  refine h.proceed le_rfl hin ?_ ?_ ?_ (.inl rfl) ?_ ?_ ?_ rfl rfl rfl
  · funext u
    simp only [frameOf, State.setPte, hin, hpfn, hd, DriverPoint.evicting]
  · intro u hm
    simp only [Mark, hd, DriverPoint.evicting, DriverPoint.publishing, Option.some.injEq,
      Prod.mk.injEq] at hm ⊢
    by_cases huv : u = v
    · subst huv
      refine .inr ⟨old.pfn, rfl, rfl, ?_⟩
      rcases hm with ⟨-, hm⟩ | ⟨f, -, -, hm⟩
      · simp [hm]
      · simp [hm]
    · simpa [State.setPte, huv, Ne.symm huv] using hm
  · simp [hd, DriverPoint.evicting]
  · simp [hd, DriverPoint.mayHold]
  · simp [hd, DriverPoint.mayTag]
  · simp [hd]

theorem Inv.published (h : Inv s) {old : Pte} {late : Bool} (hd : s.driver = .publish v old late)
    {t : State n k} (hdriver : t.driver = .evicted v old.pfn ∨ t.driver = .restore v old.pfn)
    (hpte : t.pte = s.pte) (hgen : t.gen = s.gen) (hengines : t.engines = s.engines)
    (howner : t.owner = s.owner) (hwrote : t.wrote = s.wrote) : Inv t := by
  have hev : t.driver.evicting = some (v, old.pfn, true) := by
    rcases hdriver with hd' | hd' <;> rw [hd'] <;> rfl
  have hev₀ : s.driver.evicting = some (v, old.pfn, old.dirty || late) := by rw [hd]; rfl
  refine h.proceed (Nat.le_of_eq hgen.symm) (fun u => by rw [hpte]) ?_ ?_ ?_ (.inl ?_) ?_ ?_ ?_
    hengines howner hwrote
  · funext u
    simp only [frameOf, hpte, hev, hev₀]
  · intro u hm
    simp only [Mark, hev, hpte, hev₀, Option.some.injEq, Prod.mk.injEq] at hm ⊢
    refine hm.imp (And.imp_left fun _ => ?_) fun ⟨f, hv, hf, _⟩ => ⟨f, hv, hf, trivial⟩
    rcases hdriver with hd' | hd' <;> rw [hd'] <;> exact id
  · intro u f m hu
    simp only [hev, Option.some.injEq, Prod.mk.injEq] at hu
    obtain ⟨rfl, rfl, -⟩ := hu
    exact ⟨_, hev₀⟩
  · rcases hdriver with hd' | hd' <;> rw [hd'] <;> rfl
  · simp [hd, DriverPoint.mayHold]
  · simp [hd, DriverPoint.mayTag]
  · simp [hd]

theorem driverStep_inv {uffd : Bool} (h : Inv s) (hs : driverStep uffd s a = some s') : Inv s' := by
  cases a with
  | clearAccessed v =>
    simp only [driverStep] at hs
    split at hs <;> simp only [Option.some.injEq, reduceCtorEq] at hs
    rename_i hd
    subst hs
    have hg : Grows s.pte (Function.update s.pte v { s.pte v with accessed := false }) :=
      ⟨(Function.forall_update_iff s.pte fun u q => q.inVram = (s.pte u).inVram).mpr
          ⟨rfl, fun _ _ => rfl⟩,
        (Function.forall_update_iff s.pte fun u q => q.pfn = (s.pte u).pfn).mpr
          ⟨rfl, fun _ _ => rfl⟩,
        (Function.forall_update_iff s.pte fun u q => (s.pte u).dirty = true → q.dirty = true).mpr
          ⟨id, fun _ _ => id⟩⟩
    refine h.proceed le_rfl hg.inVram (hg.frameOf _) (fun u => hg.mark) ?_ (.inr rfl) ?_ ?_ ?_ rfl
      rfl rfl <;> simp [State.setPte, hd, DriverPoint.evicting,
        DriverPoint.mayHold, DriverPoint.mayTag]
  | evict v =>
    simp only [driverStep] at hs
    split at hs <;> try simp only [reduceCtorEq] at hs
    rename_i hd
    split_ifs at hs with hv
    rw [Bool.and_eq_true] at hv
    rw [Option.some.injEq] at hs
    exact hs ▸ h.beginEvict hd hv.2
  | migrate v f =>
    simp only [driverStep] at hs
    split at hs <;> try simp only [reduceCtorEq] at hs
    rename_i hd
    split_ifs at hs with hv
    simp only [Bool.and_eq_true, Bool.not_eq_true', Option.isNone_iff_eq_none] at hv
    rw [Option.some.injEq] at hs
    subst hs
    exact h.takeFrame hd hv.1.2 hv.2
  | driver ok =>
    cases hd : s.driver with
    | idle => simp [driverStep, hd] at hs
    | bump v after =>
      simp only [driverStep, hd, Option.some.injEq] at hs
      exact hs ▸ h.bump hd
    | shoot v after todo =>
      cases todo with
      | cons x todo =>
        simp only [driverStep, hd, Option.some.injEq] at hs
        exact hs ▸ h.shoot hd
      | nil =>
        cases after <;> simp only [driverStep, hd, Option.some.injEq] at hs <;> subst hs
        case evict old =>
          refine h.advance le_rfl rfl ?_ (.inl rfl) (fun _ => id) ?_ ?_ ?_ rfl rfl rfl rfl <;>
            simp [hd, DriverPoint.evicting, DriverPoint.mayHold, DriverPoint.mayTag]
        case migrated =>
          refine h.advance le_rfl rfl ?_ (.inl ?_) (by intro u; split_ifs <;> exact id) ?_ ?_
            ?_ rfl rfl rfl rfl <;>
            cases uffd <;>
            simp [hd, DriverPoint.evicting, DriverPoint.loading,
              DriverPoint.mayHold, DriverPoint.mayTag]
        case restored =>
          refine h.advance le_rfl rfl ?_ (.inl rfl) (fun _ => id) ?_ ?_ ?_ rfl rfl rfl rfl <;>
            simp [hd, DriverPoint.evicting, DriverPoint.mayHold, DriverPoint.mayTag]
    | clear v after x todo =>
      simp only [driverStep, hd, Option.some.injEq] at hs
      exact hs ▸ h.clear hd
    | quiesce v old todo =>
      cases todo with
      | cons e todo =>
        simp only [driverStep, hd, Option.some.injEq] at hs
        exact hs ▸ h.quiesce hd
      | nil =>
        simp only [driverStep, hd, Option.some.injEq] at hs
        subst hs
        refine h.advance le_rfl rfl ?_ (.inl rfl) (fun _ => id) ?_ ?_ ?_ rfl rfl rfl rfl <;>
          simp [hd, DriverPoint.evicting, DriverPoint.mayHold, DriverPoint.mayTag]
    | wait v old e seq todo =>
      simp only [driverStep, hd] at hs
      split_ifs at hs with hseq
      rw [Option.some.injEq] at hs
      exact hs ▸ h.waited hd hseq
    | collect v old =>
      simp only [driverStep, hd, Option.some.injEq] at hs
      exact hs ▸ h.collect hd
    | publish v old late =>
      simp only [driverStep, hd] at hs
      split_ifs at hs <;> rw [Option.some.injEq] at hs <;> subst hs
      · exact h.published hd (.inl rfl) rfl rfl rfl rfl rfl
      · exact h.published hd (.inr rfl) rfl rfl rfl rfl rfl
      · exact h.published hd (.inl rfl) rfl rfl rfl rfl rfl
      · exact h.published hd (.inl rfl) rfl rfl rfl rfl rfl
    | evicted v f =>
      simp only [driverStep, hd, Option.some.injEq] at hs
      exact hs ▸ h.returnFrame hd
    | restore v f =>
      simp only [driverStep, hd, Option.some.injEq] at hs
      have hev : s.driver.evicting = some (v, f, true) := by rw [hd]; rfl
      have hv := h.out v f true hev
      subst hs
      refine h.makeResident (by simp) (by simp [hd, DriverPoint.mayHold]) hv
        (h.owner v f (frameOf_evicting hev hv)) ?_
      simp [hd, DriverPoint.evicting]
    | copyIn v f =>
      simp only [driverStep, hd, Option.some.injEq] at hs
      subst hs
      refine h.advance le_rfl rfl ?_ (.inr ?_) (fun _ => id) ?_ ?_ ?_ rfl rfl rfl rfl <;>
        simp [hd, DriverPoint.evicting, DriverPoint.loading,
          DriverPoint.mayHold, DriverPoint.mayTag]
    | install v f =>
      simp only [driverStep, hd, Option.some.injEq] at hs
      subst hs
      obtain ⟨hv, hown⟩ := h.loading v f (by rw [hd]; rfl)
      exact h.makeResident (by simp) (by simp [hd, DriverPoint.mayHold]) hv hown
        (by simp [hd, DriverPoint.evicting])
    | madvise v =>
      simp only [driverStep, hd, Option.some.injEq] at hs
      subst hs
      refine h.advance le_rfl rfl ?_ (.inl rfl) (fun _ => id) ?_ ?_ ?_ rfl rfl rfl rfl <;>
        simp [hd, DriverPoint.evicting, DriverPoint.mayHold, DriverPoint.mayTag]
  | _ => simp [driverStep] at hs

theorem hostStep_inv (h : Inv s) (hs : hostStep s a = some s') : Inv s' := by
  cases a <;> simp only [hostStep, reduceCtorEq] at hs
  all_goals
    split at hs <;> simp only [Option.some.injEq, reduceCtorEq] at hs
    exact hs ▸ ⟨h.engine, h.out, h.loading, h.owner, h.wrote⟩

theorem step_cases {uffd : Bool} (hs : step uffd s a = some s') :
    engineStep s a = some s' ∨ driverStep uffd s a = some s' ∨ hostStep s a = some s' := by
  unfold step at hs
  cases h₁ : engineStep s a with
  | some u => exact .inl (by simpa [h₁] using hs)
  | none =>
    cases h₂ : driverStep uffd s a with
    | some u => exact .inr (.inl (by simpa [h₁, h₂] using hs))
    | none => exact .inr (.inr (by simpa [h₁, h₂] using hs))

theorem step_inv {uffd : Bool} (h : Inv s) (hs : step uffd s a = some s') : Inv s' := by
  rcases step_cases hs with hs | hs | hs
  · exact engineStep_inv h hs
  · exact driverStep_inv h hs
  · exact hostStep_inv h hs

theorem reach_inv {uffd : Bool} {ok : State n k → Action n k → Prop}
    (h : Reach (step uffd) ok (init n k) s) : Inv s :=
  h.invariant (inv_init n k) fun _ _ _ hi _ hs => step_inv hi hs

end SoftGpu.Paging
